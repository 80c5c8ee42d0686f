import JitBackend.Codegen.Liveness
import JitBackend.Proofs.Validated
import Mathlib.Tactic.ByContra

namespace JitBackend

/-!
# What is needed, and how often

The backward walk finds exactly the instructions that an effect depends on, and counts exactly
their uses.

* `Buffer.ReadsBack` — instructions read values that precede them;
* `Buffer.Live` — an instruction that may not be dropped, or whose value is read by one that is
  live;
* `Liveness.left` — uses of a value by live instructions from a position on;
* `Liveness.analysis_of_readsBack` — the analysis of such a buffer succeeds and agrees with both;
* `Liveness.ofBuffer_analysis` — validated buffers are such buffers.
-/

-- the zero that sums of numbers start from
attribute [local instance (high)] Zero.ofOfNat0

variable {b : Buffer} {k n v : Nat} {l : Liveness} {i : Instr}

/-- Number of times that the instruction at position `n` reads the value `v`. -/
def Buffer.usesAt (b : Buffer) (n v : Nat) : Nat :=
  match b.instrs[n]? with
  | some i => i.uses.countP (·.index = v)
  | none => 0

/-- The instruction at a position is needed. -/
inductive Buffer.Live (b : Buffer) : Nat → Prop
  | kept {n : Nat} {i : Instr} (hi : b.instrs[n]? = some i) (h : i.isRemovable = false) : Live b n
  | used {n : Nat} {i : Instr} {h : Handle} (hn : Live b n) (hi : b.instrs[n]? = some i)
      (hh : h ∈ i.uses) : Live b h.index

/-- Instructions read values that precede them. -/
def Buffer.ReadsBack (b : Buffer) : Prop :=
  ∀ {n : Nat} {i : Instr}, b.instrs[n]? = some i → ∀ {h : Handle}, h ∈ i.uses → h.index < n

theorem Buffer.Validated.uses_lt (hb : b.Validated) (hi : b.instrs[n]? = some i) {h : Handle}
    (hh : h ∈ i.uses) : h.index < n := by
  rcases List.mem_append.mp hh with hh | hh
  · obtain ⟨t, ht⟩ := (hb.fits hi).operand hh
    exact ht.lt
  · obtain ⟨t, ht⟩ := (hb.fits hi).args hh
    exact ht.lt

theorem Buffer.Validated.readsBack (hb : b.Validated) : b.ReadsBack :=
  hb.uses_lt

theorem Buffer.Live.lt (hb : b.ReadsBack) (h : b.Live n) : n < b.size := by
  induction h with
  | kept hi _ => exact Buffer.lt_size hi
  | used hn hi hh ih => exact Nat.lt_trans (hb hi hh) ih

namespace Liveness

/-- Number of uses of the value `v` by live instructions from position `k` on. -/
def left (l : Liveness) (b : Buffer) (k v : Nat) : Nat :=
  ((List.range' k (b.size - k)).map fun n => if l.isLive n then b.usesAt n v else 0).sum

theorem left_succ (l : Liveness) (hk : k < b.size) (v : Nat) :
    l.left b k v = (if l.isLive k then b.usesAt k v else 0) + l.left b (k + 1) v := by
  have hn : b.size - k = (b.size - (k + 1)) + 1 := by omega
  rw [left, hn, List.range'_succ, List.map_cons, List.sum_cons]
  rfl

theorem left_end (l : Liveness) (hk : b.size ≤ k) (v : Nat) : l.left b k v = 0 := by
  rw [left, Nat.sub_eq_zero_of_le hk]; rfl

/-- Uses to come only get fewer. -/
theorem left_le (l : Liveness) (b : Buffer) {j : Nat} (h : j ≤ k) (v : Nat) :
    l.left b k v ≤ l.left b j v := by
  induction h with
  | refl => exact Nat.le_refl _
  | step h ih =>
    rename_i k
    refine Nat.le_trans ?_ ih
    by_cases hk : k < b.size
    · rw [left_succ l hk]; exact Nat.le_add_left _ _
    · rw [left_end l (Nat.le_succ_of_le (Nat.le_of_not_lt hk))]; omega

theorem usesAt_eq_zero (hb : b.ReadsBack) (h : n ≤ v) : b.usesAt n v = 0 := by
  unfold Buffer.usesAt
  split
  · rename_i i hi
    rw [List.countP_eq_zero]
    intro x hx
    have := hb hi hx
    simp only [decide_eq_true_eq]
    omega
  · rfl

/-! ### The walk -/

/-- Counting the uses of an instruction. -/
theorem foldlM_countUse {hs : List Handle} (uses : Array Nat) (h : ∀ x ∈ hs, x.index < uses.size) :
    ∃ uses', hs.foldlM countUse uses = .ok uses' ∧ uses'.size = uses.size ∧
      ∀ v, uses'[v]?.getD 0 = uses[v]?.getD 0 + hs.countP (·.index = v) := by
  induction hs generalizing uses with
  | nil => exact ⟨uses, rfl, rfl, by simp⟩
  | cons x hs ih =>
    have hx := h x (by simp)
    obtain ⟨uses', hfold, hsize, hget⟩ := ih (uses.modify x.index (· + 1))
      (fun y hy => by simpa using h y (by simp [hy]))
    refine ⟨uses', ?_, by simpa using hsize, ?_⟩
    · rw [List.foldlM_cons, countUse, if_pos hx]; exact hfold
    · intro v
      rw [hget v, Array.getElem?_modify, List.countP_cons]
      by_cases hv : x.index = v
      · subst hv
        simp only [if_pos, Array.getElem?_eq_getElem hx, Option.map_some, Option.getD_some,
          decide_true]
        omega
      · simp [hv]

/-- The walk has come down to position `k`. -/
structure Scanned (b : Buffer) (k : Nat) (l : Liveness) : Prop where
  live_size : l.live.size = b.size
  uses_size : l.uses.size = b.size
  ahead : ∀ n < k, l.isLive n = false
  uses_eq : ∀ v, l.usesOf v = l.left b k v
  live_iff : ∀ (n : Nat) (i : Instr), k ≤ n → b.instrs[n]? = some i →
    (l.isLive n = true ↔ ¬ (l.usesOf n = 0 ∧ i.isRemovable = true))

theorem left_congr {l' : Liveness} (h : ∀ n, k ≤ n → l'.isLive n = l.isLive n) (v : Nat) :
    l'.left b k v = l.left b k v := by
  rw [left, left]
  congr 1
  apply List.map_congr_left
  intro n hn
  rw [h n (List.mem_range'_1.mp hn).1]

/-- A removable instruction without uses stays unmarked. -/
theorem Scanned.skip (h : Scanned b (k + 1) l) (hi : b.instrs[k]? = some i)
    (hdead : l.usesOf k = 0 ∧ i.isRemovable = true) : Scanned b k l := by
  have hk : l.isLive k = false := h.ahead k (by omega)
  have hlt := Buffer.lt_size hi
  refine { h with ahead := fun n hn => h.ahead n (by omega), uses_eq := ?_, live_iff := ?_ }
  · intro v
    rw [h.uses_eq v, left_succ l hlt, hk]
    simp
  · intro n j hn hj
    by_cases hnk : n = k
    · subst hnk
      rw [hi] at hj
      cases hj
      simp [hk, hdead]
    · exact h.live_iff n j (by omega) hj

/-- Any other instruction is marked. -/
theorem Scanned.mark (hb : b.ReadsBack) (h : Scanned b (k + 1) l) (hi : b.instrs[k]? = some i)
    (hlive : ¬ (l.usesOf k = 0 ∧ i.isRemovable = true)) :
    ∃ l', l.mark k i = .ok l' ∧ Scanned b k l' := by
  have hlt := Buffer.lt_size hi
  have huses : ∀ x ∈ i.uses, x.index < k := fun x hx => hb hi hx
  obtain ⟨uses', hfold, hsize, hget⟩ := foldlM_countUse l.uses
    (fun x hx => by have := huses x hx; rw [h.uses_size]; omega)
  refine ⟨⟨l.live.setIfInBounds k true, uses'⟩, by rw [Liveness.mark, hfold]; rfl, ?_⟩
  have hisLive : ∀ n, isLive ⟨l.live.setIfInBounds k true, uses'⟩ n
      = if n = k then true else l.isLive n := by
    intro n
    simp only [isLive, Array.getElem?_setIfInBounds, h.live_size]
    by_cases hn : k = n
    · simp [hn.symm, hlt]
    · simp [hn, Ne.symm hn]
  have husesOf : ∀ v, usesOf ⟨l.live.setIfInBounds k true, uses'⟩ v
      = l.usesOf v + b.usesAt k v := by
    intro v
    simp only [usesOf, hget, Buffer.usesAt, hi]
  refine ⟨by simpa using h.live_size, hsize.trans h.uses_size, ?_, ?_, ?_⟩
  · intro n hn
    rw [hisLive, if_neg (by omega), h.ahead n (by omega)]
  · intro v
    rw [husesOf, left_succ _ hlt, hisLive, if_pos rfl, if_pos rfl, h.uses_eq v, Nat.add_comm]
    congr 1
    exact (left_congr (fun n hn => by rw [hisLive, if_neg (by omega)]) v).symm
  · intro n j hn hj
    rw [hisLive, husesOf, usesAt_eq_zero hb hn, Nat.add_zero]
    by_cases hnk : n = k
    · subst hnk
      rw [hi] at hj
      cases hj
      simpa using hlive
    · rw [if_neg hnk]
      exact h.live_iff n j (by omega) hj

/-- The walk succeeds and comes down to the first position. -/
theorem backward_scanned (hb : b.ReadsBack) (hk : k ≤ b.size) (h : Scanned b k l) :
    ∃ l', backward b.instrs k l = .ok l' ∧ Scanned b 0 l' := by
  induction k generalizing l with
  | zero => exact ⟨l, rfl, h⟩
  | succ k ih =>
    have hi : b.instrs[k]? = some b.instrs[k] := Array.getElem?_eq_getElem hk
    rw [backward, hi]
    by_cases hdead : l.usesOf k = 0 ∧ b.instrs[k].isRemovable = true
    · simp only [hdead, and_self, if_true]
      exact ih (by omega) (h.skip hi hdead)
    · obtain ⟨l', hmark, hl'⟩ := h.mark hb hi hdead
      simp only [if_neg hdead, hmark]
      exact ih (by omega) hl'

/-! ### The analysis of a buffer -/

/-- The analysis agrees with the buffer. -/
structure Analysis (b : Buffer) (l : Liveness) : Prop where
  uses_eq : ∀ v, l.usesOf v = l.left b 0 v
  live_iff : ∀ n, l.isLive n = true ↔ b.Live n

theorem exists_use_of_left_pos (h : 0 < l.left b k v) :
    ∃ n, k ≤ n ∧ l.isLive n = true ∧ 0 < b.usesAt n v := by
  by_contra hno
  push Not at hno
  have : l.left b k v = 0 := by
    rw [left, List.sum_eq_zero_iff_forall_eq_nat]
    intro x hx
    obtain ⟨n, hn, rfl⟩ := List.mem_map.mp hx
    split
    · rename_i hl
      have := hno n (List.mem_range'_1.mp hn).1 hl
      omega
    · rfl
  omega

theorem usesAt_pos : 0 < b.usesAt n v ↔ ∃ i, b.instrs[n]? = some i ∧ ∃ h ∈ i.uses, h.index = v := by
  unfold Buffer.usesAt
  split
  · rename_i i hi
    simp [List.countP_pos_iff, hi]
  · rename_i hi
    simp [hi]

theorem left_pos_of_use (hk : k ≤ n) (hl : l.isLive n = true) (hu : 0 < b.usesAt n v) :
    0 < l.left b k v := by
  refine Nat.lt_of_lt_of_le ?_ (left_le l b hk v)
  obtain ⟨i, hi, -⟩ := usesAt_pos.mp hu
  rw [left_succ l (Buffer.lt_size hi), hl, if_pos rfl]
  omega

theorem Scanned.live_iff_live (hb : b.ReadsBack) (h : Scanned b 0 l) (n : Nat) :
    l.isLive n = true ↔ b.Live n := by
  constructor
  · -- a marked instruction is kept, or used by a marked one further ahead
    intro hl
    by_cases hn : n < b.size
    · induction hm : b.size - n using Nat.strongRecOn generalizing n with
      | _ m ih =>
        have hi : b.instrs[n]? = some b.instrs[n] := Array.getElem?_eq_getElem hn
        have := (h.live_iff n _ (Nat.zero_le n) hi).mp hl
        by_cases hrem : b.instrs[n].isRemovable = true
        · have hu : 0 < l.left b 0 n := by
            rw [← h.uses_eq]
            exact Nat.pos_of_ne_zero fun h0 => this ⟨h0, hrem⟩
          obtain ⟨k, -, hk, hpos⟩ := exists_use_of_left_pos hu
          obtain ⟨j, hj, x, hx, rfl⟩ := usesAt_pos.mp hpos
          have hklt := Buffer.lt_size hj
          have hxk := hb hj hx
          exact .used (ih (b.size - k) (by simp only [Buffer.size] at *; omega) k hk hklt rfl) hj hx
        · exact .kept hi (by simpa using hrem)
    · have : l.isLive n = false := by
        rw [isLive, Array.getElem?_eq_none (by rw [h.live_size]; omega)]; rfl
      rw [this] at hl; cases hl
  · intro hlive
    induction hlive with
    | kept hi hrem => exact (h.live_iff _ _ (Nat.zero_le _) hi).mpr (by simp [hrem])
    | used hn hi hx ih =>
      rename_i n i x
      have hlt : x.index < b.size := (Buffer.Live.used hn hi hx).lt hb
      refine (h.live_iff _ _ (Nat.zero_le _) (Array.getElem?_eq_getElem hlt)).mpr ?_
      have : 0 < l.usesOf x.index := by
        rw [h.uses_eq]
        exact left_pos_of_use (Nat.zero_le n) ih (usesAt_pos.mpr ⟨i, hi, x, hx, rfl⟩)
      omega

/-- The analysis of a buffer whose instructions read back succeeds, and finds what is needed. -/
theorem analysis_of_readsBack (hb : b.ReadsBack) : ∃ l, ofBuffer b = .ok l ∧ Analysis b l := by
  have hstart : Scanned b b.size ⟨.replicate b.size false, .replicate b.size 0⟩ := by
    have hlive : ∀ n, isLive ⟨.replicate b.size false, .replicate b.size 0⟩ n = false := by
      intro n
      simp only [isLive, Array.getElem?_replicate]
      split <;> rfl
    refine ⟨by simp, by simp, fun n _ => hlive n, ?_, ?_⟩
    · intro v
      rw [left_end _ (Nat.le_refl _)]
      simp only [usesOf, Array.getElem?_replicate]
      split <;> rfl
    · intro n i hn hi
      have := Buffer.lt_size hi
      simp only [Buffer.size] at *
      omega
  obtain ⟨l, hrun, hl⟩ := backward_scanned hb (Nat.le_refl _) hstart
  exact ⟨l, hrun, hl.uses_eq, hl.live_iff_live hb⟩

/-- The analysis of a validated buffer succeeds, and finds what is needed. -/
theorem ofBuffer_analysis (hb : b.Validated) : ∃ l, ofBuffer b = .ok l ∧ Analysis b l :=
  analysis_of_readsBack hb.readsBack

end Liveness

end JitBackend
