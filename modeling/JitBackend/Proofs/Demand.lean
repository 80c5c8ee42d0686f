import JitBackend.Proofs.Body

namespace JitBackend

/-!
# Values that may still be read

At a position, a value is wanted if control may get from there to a needed instruction that reads
it, without passing the instruction that computes it. Only wanted values have to be at home where
control goes on: the code of straight lines drops a value once its last use there is done, and then
no way leads to another use but through the place where it is computed anew.

* `Buffer.Wanted` — the values that may still be read;
* `Buffer.not_wanted_of_done` — a value without uses to come is not wanted;
* `Buffer.Wanted.isValue` — instructions without a result are never wanted;
* `Gen.needStep_wanted` — how the wanted values change at an instruction.
-/

namespace Buffer

variable {b : Buffer} {v k k' : Nat} {i : Instr}

/-- From position `k` on, a needed instruction may read the value of position `v` before it is
    computed again. -/
inductive Wanted (b : Buffer) (v : Nat) : Nat → Prop
  | here {k : Nat} {i : Instr} {x : Handle} (hi : b.instrs[k]? = some i) (hk : b.Live k)
      (hx : x ∈ i.uses) (hv : x.index = v) : Wanted b v k
  | later {k k' : Nat} (hne : v ≠ k) (hk : k' ∈ b.successors k) (h : Wanted b v k') : Wanted b v k

/-- There are no labels within a region. -/
theorem not_isLabel_of_regionStart_le {j : Nat} (h : b.regionStart k ≤ j) (hj : j < k) :
    ¬b.IsLabel j := by
  induction k with
  | zero => omega
  | succ k ih =>
    rw [regionStart] at h
    split at h
    · omega
    · rename_i hk
      rcases Nat.lt_or_eq_of_le (Nat.le_of_lt_succ hj) with hlt | rfl
      · exact ih h hlt
      · exact hk

/-- A value that is computed and used up in code without labels is not wanted outside of it: that
    code is entered through the place where the value is computed. -/
theorem not_wanted_of_done (hb : b.Validated) (hlabel : ∀ j, v < j → j ≤ k → ¬b.IsLabel j)
    (hdone : ∀ n i x, k < n → b.instrs[n]? = some i → b.Live n → x ∈ i.uses → x.index ≠ v)
    {q : Nat} (hq : ¬(v < q ∧ q ≤ k)) : ¬b.Wanted v q := by
  intro h
  -- along the way to the use, which never gets between `v` and `k`
  induction h with
  | @here q i x hi hlive hx hv =>
    have hlt := hb.uses_lt hi hx
    exact hdone q i x (by omega) hi hlive hx hv
  | @later q q' hne hnext _ ih =>
    refine ih fun hin => ?_
    -- without a label, control comes from the position before, which is not `v`
    have := eq_of_mem_successors hnext (hlabel q' hin.1 hin.2)
    omega

/-- Only values are wanted. -/
theorem Wanted.isValue (h : b.Wanted v k) (hb : b.Validated) (hargs : b.ArgsAreValues) :
    ∃ t, b.resultAt v = some (.val t) := by
  induction h with
  | @here k i x hi _ hx hv =>
    subst hv
    rcases List.mem_append.mp hx with hx | hx
    · obtain ⟨t, ht⟩ := (hb.fits hi).operand hx
      exact ⟨t, ht.result⟩
    · obtain ⟨t, ht⟩ := (hb.fits hi).args hx
      cases t with
      | void => exact absurd ht.result (hargs k i x hi hx)
      | val t => exact ⟨t, ht.result⟩
  | later _ _ _ ih => exact ih

end Buffer

namespace Gen

variable {b : Buffer} {l : Liveness} {k : Nat} {i : Instr}

/-- The values that are wanted before an instruction and after it. -/
theorem needStep_wanted (hb : b.Validated) (ha : Liveness.Analysis b l)
    (hi : b.instrs[k]? = some i) (hlabel : i.opcode ≠ .label)
    (hnext : k + 1 ∈ b.successors k) :
    NeedStep (b.Wanted · k) (b.Wanted · (k + 1)) (l.left b (k + 1)) (b.regionStart k) k := by
  refine ⟨fun v hv hne => .later hne hnext hv, fun v hlo hle hleft => ?_⟩
  refine Buffer.not_wanted_of_done (k := k) hb (fun j hvj hjk => ?_)
    (fun n j x hn hj hlive hx hxv => ?_) (by omega)
  · rcases Nat.lt_or_eq_of_le hjk with hlt | rfl
    · exact Buffer.not_isLabel_of_regionStart_le (by omega) hlt
    · exact fun h => hlabel ((Buffer.isLabel_iff hi).mp h)
  · -- a use to come would be counted
    have := Liveness.left_pos_of_use (k := k + 1) hn ((ha.live_iff n).mpr hlive)
      (Liveness.usesAt_pos.mpr ⟨j, hj, x, hx, hxv⟩)
    omega

end Gen

end JitBackend
