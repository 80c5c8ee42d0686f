import JitBackend.Signature

namespace JitBackend

/-!
# Kinds of returns

A function may return in several places. Only one that always returns the same kind of value
gets an entry point that can be called.

* `ReturnKinds` collects the kinds used, `ReturnKinds.shape` draws the conclusion.
-/

/-- The kinds of values that a function returns. -/
structure ReturnKinds where
  int32 : Bool
  int64 : Bool
  float64 : Bool
  float32 : Bool
  /-- Leaving without a value. -/
  void : Bool
  deriving DecidableEq, Repr

/-- What the kinds of returns amount to. -/
inductive ReturnShape where
  | noReturn
  | single (k : ArgKind)
  | conflicting
  deriving DecidableEq, Repr

namespace ReturnKinds

/-- No returns so far. -/
def none : ReturnKinds := ⟨false, false, false, false, false⟩

/-- Adds a return of a type. -/
def insert (r : ReturnKinds) : Ty → ReturnKinds
  | .void => { r with void := true }
  | .val .int32 => { r with int32 := true }
  | .val .int64 => { r with int64 := true }
  | .val .float64 => { r with float64 := true }
  | .val .float32 => { r with float32 := true }

/-- Each kind with whether it is used, in the order of the flags. -/
def uses (r : ReturnKinds) : List (ArgKind × Bool) :=
  [(.int32, r.int32), (.int64, r.int64), (.float64, r.float64), (.float32, r.float32),
    (.void, r.void)]

/-- The kinds used. -/
def toList (r : ReturnKinds) : List ArgKind :=
  (r.uses.filter Prod.snd).map Prod.fst

/-- What the kinds amount to. -/
def shape (r : ReturnKinds) : ReturnShape :=
  match r.toList with
  | [] => .noReturn
  | [k] => .single k
  | _ => .conflicting

/-- One bit for each kind, the first one lowest. -/
def flags (r : ReturnKinds) : List Bool :=
  r.uses.map Prod.snd

/-- The flags as a number. -/
def bits (r : ReturnKinds) : Nat :=
  r.flags.foldr (fun b n => 2 * n + b.toNat) 0

/-- One-line summary. -/
def summary (r : ReturnKinds) : String :=
  "ReturnTypes(0b" ++ String.ofList (r.flags.reverse.map fun b => if b then '1' else '0') ++ ")"

end ReturnKinds

/-- One-letter form of a kind. -/
def ArgKind.letters : ArgKind → String
  | .void => "V"
  | .int32 => "I"
  | .uint32 => "UI"
  | .int64 => "Q"
  | .float64 => "D"
  | .float32 => "F"

/-- One-line summary. -/
def ReturnShape.summary : ReturnShape → String
  | .noReturn => "NoReturn"
  | .single k => "Single(" ++ k.letters ++ ")"
  | .conflicting => "Conflicting"

end JitBackend
