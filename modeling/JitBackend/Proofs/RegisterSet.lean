import JitBackend.Convention
import Mathlib.Tactic.ByContra

namespace JitBackend

/-!
# Sets of registers

Membership in a set of registers after each of its operations. A register outside of the four
banks of sixty-four is never a member.

* `Reg.Fits` — the register has a place in a set;
* `RegSet.contains_insert`, `RegSet.contains_erase`, `RegSet.contains_union` — the operations;
* `RegSet.first?_eq_some`, `RegSet.first?_le`, `RegSet.first?_eq_none` — the lowest member of a bank.
-/

/-- The register has a place in a set of registers. -/
def Reg.Fits (r : Reg) : Prop :=
  r.bank < maxBanks ∧ r.id < maxPerBank

instance (r : Reg) : Decidable r.Fits :=
  inferInstanceAs (Decidable (_ ∧ _))

namespace RegSet

@[simp] theorem contains_empty (r : Reg) : RegSet.empty.contains r = false := by
  have hmask : RegSet.empty.mask r.bank = 0 := by
    simp only [mask, empty, Vector.getElem?_replicate]
    split <;> rfl
  simp [contains, hmask]

theorem mask_setMask (s : RegSet) (bank bank' : Nat) (m : BitVec 64) :
    (s.setMask bank m).mask bank'
      = if bank = bank' ∧ bank < maxBanks then m else s.mask bank' := by
  by_cases h : bank = bank'
  · subst h
    by_cases hb : bank < maxBanks
    · simp [mask, setMask, hb]
    · simp [mask, setMask, hb]
  · simp [mask, setMask, h]

theorem getLsbD_bit (id i : Nat) : (bit id).getLsbD i = decide (i = id ∧ id < 64) := by
  simp only [bit, ← BitVec.twoPow_eq, BitVec.getLsbD_twoPow]
  by_cases h : id < 64 <;> by_cases hi : i = id <;> simp [h, hi, eq_comm]
  omega

variable {s exclude : RegSet} {bank : Nat}

/-- A member has a place in the set. -/
theorem fits_of_contains {r : Reg} (h : s.contains r = true) : r.Fits := by
  constructor
  · by_contra hb
    have hmask : s.mask r.bank = 0 := by
      simp only [mask]
      rw [Vector.getElem?_eq_none (by omega)]
      rfl
    simp [contains, hmask] at h
  · exact BitVec.lt_of_getLsbD h

theorem contains_insert (s : RegSet) (r q : Reg) :
    (s.insert r).contains q = (s.contains q || decide (q = r ∧ r.Fits)) := by
  obtain ⟨bank, id⟩ := r
  obtain ⟨bank', id'⟩ := q
  simp only [contains, insert, mask_setMask, Reg.Fits, Reg.mk.injEq]
  by_cases hb : bank = bank' ∧ bank < maxBanks
  · obtain ⟨rfl, hb⟩ := hb
    simp [hb, getLsbD_bit, maxPerBank]
  · rw [if_neg hb]
    have : ¬ ((bank' = bank ∧ id' = id) ∧ bank < maxBanks ∧ id < maxPerBank) := by
      rintro ⟨⟨h, -⟩, hlt, -⟩
      exact hb ⟨h.symm, hlt⟩
    simp [this]

theorem contains_erase (s : RegSet) (r q : Reg) :
    (s.erase r).contains q = (s.contains q && decide (q ≠ r)) := by
  obtain ⟨bank, id⟩ := r
  obtain ⟨bank', id'⟩ := q
  by_cases hq : s.contains ⟨bank', id'⟩ = true
  · have hfits := fits_of_contains hq
    simp only [contains, erase, mask_setMask, Reg.Fits] at hq hfits ⊢
    by_cases hb : bank = bank' ∧ bank < maxBanks
    · obtain ⟨rfl, hb⟩ := hb
      have hid : id' < 64 := hfits.2
      simp only [hb, and_self, if_true, BitVec.getLsbD_and, BitVec.getLsbD_not, getLsbD_bit, hq,
        hid, Bool.true_and, decide_true]
      by_cases h : id' = id
      · subst h; simp [hid]
      · simp [h]
    · rw [if_neg hb, hq]
      have : bank' ≠ bank := by
        rintro rfl
        exact hb ⟨rfl, hfits.1⟩
      simp [this]
  · have hf : s.contains ⟨bank', id'⟩ = false := by simpa using hq
    simp only [contains, erase, mask_setMask] at hf ⊢
    by_cases hb : bank = bank' ∧ bank < maxBanks
    · obtain ⟨rfl, hb⟩ := hb
      simp [hb, hf]
    · simp [if_neg hb, hf]

theorem contains_union (s t : RegSet) (r : Reg) :
    (s.union t).contains r = (s.contains r || t.contains r) := by
  simp only [contains, union, mask]
  by_cases hb : r.bank < maxBanks
  · simp [hb]
  · rw [Vector.getElem?_eq_none (by omega), Vector.getElem?_eq_none (by omega),
      Vector.getElem?_eq_none (by omega)]
    simp

theorem contains_foldl_insert (rs : List Reg) (s : RegSet) (q : Reg) :
    (rs.foldl insert s).contains q = (s.contains q || decide (q ∈ rs ∧ q.Fits)) := by
  induction rs generalizing s with
  | nil => simp
  | cons r rest ih =>
    rw [List.foldl_cons, ih, contains_insert]
    by_cases hq : q = r
    · subst hq; by_cases hf : q.Fits <;> simp [hf]
    · simp [hq]

theorem contains_ofList (rs : List Reg) (q : Reg) :
    (RegSet.ofList rs).contains q = decide (q ∈ rs ∧ q.Fits) := by
  rw [RegSet.ofList, contains_foldl_insert]; simp

/-! ### The lowest member of a bank -/

theorem first?_eq_some {id : Nat} (h : s.first? bank exclude = some id) :
    s.contains ⟨bank, id⟩ = true ∧ exclude.contains ⟨bank, id⟩ = false := by
  have := List.find?_some h
  simpa using this

theorem first?_le {id i : Nat} (h : s.first? bank exclude = some id)
    (hs : s.contains ⟨bank, i⟩ = true) (hexclude : exclude.contains ⟨bank, i⟩ = false) :
    id ≤ i := by
  rw [first?, List.find?_range_eq_some] at h
  refine Nat.le_of_not_lt fun hlt => ?_
  have := h.2.2 i hlt
  simp [hs, hexclude] at this

theorem first?_eq_none (h : s.first? bank exclude = none) (id : Nat)
    (hs : s.contains ⟨bank, id⟩ = true) : exclude.contains ⟨bank, id⟩ = true := by
  have hid : id < maxPerBank := (fits_of_contains hs).2
  have := List.find?_eq_none.mp h id (List.mem_range.mpr hid)
  simpa [hs] using this

end RegSet

end JitBackend
