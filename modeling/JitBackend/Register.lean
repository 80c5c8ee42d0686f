import JitBackend.Checked

namespace JitBackend

/-!
# Registers and sets of registers

A register is a number within a bank. Sets of registers are one 64-bit mask for each of the four
banks; registers beyond them are never members.

* `RegSet.contains`, `RegSet.insert`, `RegSet.erase`, `RegSet.union` are the set operations;
* `RegSet.first?` is the lowest member of a bank that is not excluded.
-/

/-- A register: its bank and its number there. -/
structure Reg where
  bank : Nat
  id : Nat
  deriving DecidableEq, Repr

namespace Reg

/-- Position of the register if banks of `perBank` registers follow one another. -/
def linear (r : Reg) (perBank : Nat) : Nat :=
  r.bank * perBank + r.id

/-- As `linear`, faulting if the position does not fit into a word. -/
def linear? (r : Reg) (perBank : Nat) : Except Fault Nat :=
  checkWord (r.linear perBank)

/-- The register at a position; bank and number are cut to eight bits. -/
def ofLinear? (index perBank : Nat) : Except Fault Reg :=
  if perBank = 0 then
    .error .divisionByZero
  else
    .ok ⟨index / perBank % 256, index % perBank % 256⟩

end Reg

/-- Largest number of banks. -/
def maxBanks : Nat := 4

/-- Largest number of registers in a bank. -/
def maxPerBank : Nat := 64

/-- A set of registers, one mask for each bank. -/
structure RegSet where
  masks : Vector (BitVec 64) maxBanks
  deriving DecidableEq, Repr

namespace RegSet

/-- The empty set. -/
def empty : RegSet := ⟨.replicate maxBanks 0⟩

/-- Mask of a bank, zero beyond the last one. -/
def mask (s : RegSet) (bank : Nat) : BitVec 64 :=
  s.masks[bank]?.getD 0

/-- Whether a register is in the set. -/
def contains (s : RegSet) (r : Reg) : Bool :=
  (s.mask r.bank).getLsbD r.id

/-- Replaces the mask of a bank. -/
def setMask (s : RegSet) (bank : Nat) (m : BitVec 64) : RegSet :=
  ⟨s.masks.setIfInBounds bank m⟩

/-- The mask of a single register, zero beyond the last one of a bank. -/
def bit (id : Nat) : BitVec 64 :=
  1#64 <<< id

/-- Adds a register. -/
def insert (s : RegSet) (r : Reg) : RegSet :=
  s.setMask r.bank (s.mask r.bank ||| bit r.id)

/-- Removes a register. -/
def erase (s : RegSet) (r : Reg) : RegSet :=
  s.setMask r.bank (s.mask r.bank &&& ~~~bit r.id)

/-- The registers of a list. -/
def ofList (rs : List Reg) : RegSet :=
  rs.foldl insert empty

/-- The members of either set. -/
def union (s t : RegSet) : RegSet :=
  ⟨s.masks.zipWith (· ||| ·) t.masks⟩

/-- The lowest member of a bank that is not in `exclude`. -/
def first? (s : RegSet) (bank : Nat) (exclude : RegSet) : Option Nat :=
  (List.range maxPerBank).find? fun id => s.contains ⟨bank, id⟩ && !exclude.contains ⟨bank, id⟩

end RegSet

end JitBackend
