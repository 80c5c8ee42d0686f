namespace JitBackend

/-!
# Ranges of code points

A property of characters is kept as a list of closed ranges of code points, ascending and apart.
The tables of this library hold the Unicode character database at version 17.0.

* `Text.CodeRange` is a closed range of code points.
* `Text.CodeRange.ofStretches` is a table written as gaps and lengths.
* `Text.CodeRange.covers` looks a character up in a table.
-/

namespace Text

/-- The code points from `first` to `last`, both ends included. -/
structure CodeRange where
  first : Nat
  last : Nat
deriving DecidableEq, Repr

namespace CodeRange

/-- The ranges from `start` on whose gaps and lengths follow one another. -/
def ofStretches (start : Nat) : List Nat → List CodeRange
  | gap :: length :: rest =>
    ⟨start + gap, start + gap + length - 1⟩ :: ofStretches (start + gap + length) rest
  | _ => []

/-- Whether a character lies in the range. -/
def contains (r : CodeRange) (c : Char) : Bool :=
  r.first ≤ c.toNat && c.toNat ≤ r.last

/-- Whether a character lies in one of the ranges of a table. -/
def covers (table : List CodeRange) (c : Char) : Bool :=
  table.any fun r => r.contains c

end CodeRange

end Text

end JitBackend
