import JitBackend.Decimal.Shortest

namespace JitBackend

/-!
# Float text

How float constants are written: positionally with at least one digit after the point if the
value lies in `[10^-4, 10^16)`, else with an exponent. Zero keeps its sign, a value that is not
a number loses it.

* `Decimal.FloatFormat.text` writes a bit pattern of the format.
-/

namespace Decimal

/-- Least position of the point that is still written positionally. -/
def positionalMin : Int := -3

/-- Largest position of the point that is still written positionally. -/
def positionalMax : Int := 16

/-- A run of zeros. -/
def zeros (n : Nat) : List Char :=
  List.replicate n '0'

/-- Positional form with at least one digit on both sides of the point. -/
def positional (ds : List Char) (point : Int) : List Char :=
  if point ≤ 0 then
    '0' :: '.' :: zeros (-point).toNat ++ ds
  else if ds.length ≤ point.toNat then
    ds ++ zeros (point.toNat - ds.length) ++ ['.', '0']
  else
    ds.take point.toNat ++ '.' :: ds.drop point.toNat

/-- Exponent form: one digit, the others after a point, the power of ten. -/
def scientific (ds : List Char) (point : Int) : List Char :=
  let fraction := ds.drop 1
  ds.take 1 ++ (if fraction.isEmpty then [] else '.' :: fraction)
    ++ 'e' :: (toString (point - 1)).toList

/-- Text of a decimal. -/
def Digits.text (d : Digits) : String :=
  let ds := Nat.toDigits 10 d.digits
  String.ofList <|
    if positionalMin ≤ d.point ∧ d.point ≤ positionalMax then
      positional ds d.point
    else
      scientific ds d.point

/-- Text of a bit pattern. -/
def FloatFormat.text (f : FloatFormat) (pattern : Nat) : String :=
  let signed := fun s : String => if f.isNegative pattern then "-" ++ s else s
  match f.decode pattern with
  | .notANumber => "NaN"
  | .infinite => signed "inf"
  | .zero => signed "0.0"
  | .finite b => signed (shortest b).text

end Decimal

end JitBackend
