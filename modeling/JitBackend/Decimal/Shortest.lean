namespace JitBackend

/-!
# Shortest decimal digits

The fewest decimal digits that read back to a given binary float. The value is `m · 2^q`; the
reals that round to it form an interval around it, which includes its ends exactly if `m` is
even. For one digit, two digits and so on, the two neighbours of the value on that decimal grid
are tested against the interval in exact arithmetic. The first grid with a hit wins; of two hits
the nearer one is taken, and the larger one on a tie.

* `Decimal.Binary` is a positive finite float, `Decimal.FloatFormat.decode` reads a bit pattern;
* `Decimal.shortest` yields the digits with the decimal exponent of the first one.
-/

namespace Decimal

-- powers of numbers
attribute [local instance (high)] instPowNat

/-- A positive finite binary float `mantissa · 2^exponent`. -/
structure Binary where
  mantissa : Nat
  exponent : Int
  /-- The neighbour below is only half as far away as the one above. -/
  narrowBelow : Bool
  deriving DecidableEq, Repr

/-- A decimal `0.d₁d₂… · 10^point`; the digits are those of `digits`. -/
structure Digits where
  digits : Nat
  point : Int
  deriving DecidableEq, Repr

/-- Field widths of a binary interchange format. -/
structure FloatFormat where
  fractionBits : Nat
  exponentBits : Nat
  deriving DecidableEq, Repr

/-- The 64-bit format. -/
def FloatFormat.double : FloatFormat := ⟨52, 11⟩

/-- The 32-bit format. -/
def FloatFormat.single : FloatFormat := ⟨23, 8⟩

/-- What a bit pattern without its sign stands for. -/
inductive Magnitude where
  | notANumber
  | infinite
  | zero
  | finite (b : Binary)
  deriving DecidableEq, Repr

namespace FloatFormat

/-- Whether the sign bit of a pattern is set. -/
def isNegative (f : FloatFormat) (pattern : Nat) : Bool :=
  pattern / 2 ^ (f.fractionBits + f.exponentBits) % 2 == 1

/-- Reads a pattern, ignoring its sign bit. -/
def decode (f : FloatFormat) (pattern : Nat) : Magnitude :=
  let fraction := pattern % 2 ^ f.fractionBits
  let biased := pattern / 2 ^ f.fractionBits % 2 ^ f.exponentBits
  let lowest : Int := 2 - 2 ^ (f.exponentBits - 1) - f.fractionBits
  if biased = 2 ^ f.exponentBits - 1 then
    if fraction = 0 then .infinite else .notANumber
  else if biased = 0 then
    if fraction = 0 then .zero else .finite ⟨fraction, lowest, false⟩
  else
    .finite ⟨2 ^ f.fractionBits + fraction, lowest + (biased - 1 : Nat), fraction = 0 ∧ 1 < biased⟩

end FloatFormat

/-- A scaled value `n / d` for comparisons with powers of ten. -/
structure Ratio where
  num : Nat
  den : Nat

/-- `n · 2^e` as a ratio. -/
def Ratio.ofBinary (n : Nat) (e : Int) : Ratio :=
  if 0 ≤ e then ⟨n * 2 ^ e.toNat, 1⟩ else ⟨n, 2 ^ (-e).toNat⟩

/-- The ratio divided by `10^e`. -/
def Ratio.scale (r : Ratio) (e : Int) : Ratio :=
  if 0 ≤ e then ⟨r.num, r.den * 10 ^ e.toNat⟩ else ⟨r.num * 10 ^ (-e).toNat, r.den⟩

namespace Binary

/-- The least `p` with value below `10^p`, searched upward from `start`. -/
def pointFrom (v : Ratio) : Nat → Int → Int
  | 0, p => p
  | fuel + 1, p =>
    let s := v.scale p
    if s.num < s.den then p else pointFrom v fuel (p + 1)

/-- Position of the decimal point: the value lies in `[10^(p-1), 10^p)`. The search starts at a
    lower bound that the length of the mantissa gives. -/
def point (b : Binary) : Int :=
  let log2 : Int := (b.mantissa.log2 : Int) + b.exponent
  pointFrom (.ofBinary b.mantissa b.exponent) 8 (Int.fdiv (log2 * 30103) 100000 - 1)

/-- The grid point with `n` digits that reads back to the value, if there is one. -/
def onGrid (b : Binary) (p : Int) (n : Nat) : Option Nat :=
  let unit : Int := p - n
  let quarter := fun k : Nat => (Ratio.ofBinary k (b.exponent - 2)).scale unit
  let value := quarter (4 * b.mantissa)
  let low := quarter (4 * b.mantissa - if b.narrowBelow then 1 else 2)
  let high := quarter (4 * b.mantissa + 2)
  let closed := b.mantissa % 2 == 0
  let inside := fun g : Nat =>
    if closed then
      low.num ≤ g * low.den && g * high.den ≤ high.num
    else
      low.num < g * low.den && g * high.den < high.num
  let down := value.num / value.den
  let up := down + 1
  if inside down then
    if inside up && value.den ≤ 2 * (value.num - down * value.den) then some up else some down
  else if inside up then
    some up
  else
    none

end Binary

/-- Digits without the zeros at their end. -/
def stripZeros : Nat → Nat → Nat
  | 0, d => d
  | fuel + 1, d => if d ≠ 0 ∧ d % 10 = 0 then stripZeros fuel (d / 10) else d

/-- The fewest digits that read back to the value. Seventeen always do. -/
def shortest (b : Binary) : Digits :=
  let p := b.point
  let hit := (List.range 17).findSome? fun i => (b.onGrid p (i + 1)).map fun d => (i + 1, d)
  match hit with
  | some (n, d) => ⟨stripZeros n d, if d = 10 ^ n then p + 1 else p⟩
  | none => ⟨0, p⟩

end Decimal

end JitBackend
