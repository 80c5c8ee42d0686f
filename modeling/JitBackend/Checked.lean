import JitBackend.Fault

namespace JitBackend

/-!
# Checked arithmetic

Sizes, offsets and counters are machine numbers. Results that do not fit are faults.

* `checkWord`, `checkUnsigned32` and `checkSigned32` require a number of the given range;
* `roundUp` is the least multiple of a unit that is not below a number.
-/

-- powers of numbers, whatever structure is known of numbers elsewhere
attribute [instance (high), default_instance 20000] instPowNat

/-- Requires a number that fits into 64 unsigned bits. -/
def checkWord (n : Nat) : Except Fault Nat :=
  if n < 2 ^ 64 then .ok n else .error .overflow

/-- Requires a number that fits into 32 unsigned bits. -/
def checkUnsigned32 (n : Nat) : Except Fault Nat :=
  if n < 2 ^ 32 then .ok n else .error .overflow

/-- Requires a number that fits into 32 signed bits. -/
def checkSigned32 (n : Int) : Except Fault Int :=
  if -2 ^ 31 ≤ n ∧ n < 2 ^ 31 then .ok n else .error .overflow

/-- The least multiple of `unit` that is not below `n`. -/
def roundUp (n unit : Nat) : Nat :=
  (n + unit - 1) / unit * unit

end JitBackend
