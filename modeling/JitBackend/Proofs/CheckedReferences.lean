import JitBackend.Proofs.Frames

namespace JitBackend

open Machine (Emitter)

/-!
# References that were checked

What the check says of the values that an instruction reads, and what becomes of them when values
get their homes. Operands are typed by the opcode table, which has no operand without a value, but
the arguments of a call are typed by its signature, which may declare `void`.

* `Gen.Prepared.isSome_iff` — what is in the table of values;
* `Instr.check_references` — operands always do, arguments exactly if they are declared as values.
-/

variable {b : Buffer} {l : Liveness} {s : CodeState} {n : Nat} {i : Instr} {h : Handle}

theorem ArgKind.ty_eq_void {kind : ArgKind} : kind.ty = .void ↔ kind = .void := by
  cases kind <;> simp [ArgKind.ty]

namespace Gen

/-- A value that a needed instruction reads is in the table of values. -/
theorem Prepared.isSome_iff (hb : b.Validated) (ha : Liveness.Analysis b l)
    (hP : Prepared b l b.size s) (hi : b.instrs[n]? = some i) (hlive : l.isLive n = true)
    (hh : h ∈ i.uses) {t : Ty} (href : b.Refers n h t) :
    (s.values.get? h.index).isSome = true ↔ t ≠ .void := by
  have hlt : h.index < b.size :=
    Nat.lt_trans href.lt (Buffer.lt_size hi)
  have hused : l.isLive h.index = true :=
    (ha.live_iff _).mpr (.used ((ha.live_iff n).mp hlive) hi hh)
  obtain ⟨j, hj, rfl⟩ := Option.map_eq_some_iff.mp href.result
  rw [hP.values, if_pos hlt, Option.isSome_map]
  cases ht : j.result with
  | void => simp [infoAt_of_void hj ht]
  | val t =>
    obtain ⟨info, hinfo, -⟩ := Buffer.infoAt_of_live hj (hb.fits hj) ht hused
    simp [hinfo]

end Gen

/-- **References of checked instructions.** What the check accepts reads earlier instructions of the
    buffer only: its operands are values, and the arguments of a call have the types that its
    signature declares. When values have got their homes, every operand of a needed instruction is
    in the table of values, and so is an argument, unless it is declared as `void`. -/
theorem Instr.check_references (hb : b.Validated) (hi : i.check b = .ok ()) :
    (∀ h ∈ i.operandList, ∃ t, b.Refers b.size h (.val t)) ∧
    (∀ (n : Nat) (h : Handle), i.callArgs[n]? = some h →
      ∃ kind, i.argKind? n = some kind ∧ b.Refers b.size h kind.ty) ∧
    ∀ l a s, Liveness.ofBuffer b = .ok l →
      Gen.assignHomes b l { CodeState.initial b a with emitter := Emitter.empty.withLabel }
        = .ok () s →
      ∀ (k : Nat) (j : Instr), b.instrs[k]? = some j → l.isLive k = true →
        (∀ h ∈ j.operandList, (s.values.get? h.index).isSome = true) ∧
        ∀ (n : Nat) (h : Handle), j.callArgs[n]? = some h →
          ((s.values.get? h.index).isSome = true ↔ j.argKind? n ≠ some .void) := by
  have hfit := fits_of_check hi
  refine ⟨fun h hh => hfit.operand hh, hfit.kinds, ?_⟩
  intro l a s hl hrun k j hj hlive
  obtain ⟨l', hl', ha⟩ := Liveness.ofBuffer_analysis hb
  cases hl.symm.trans hl'
  have hP := (Gen.assignHomes_ends hb ha (Gen.initial_prepared b l a)).of_ok hrun
  constructor
  · intro h hh
    obtain ⟨t, href⟩ := (hb.fits hj).operand hh
    exact (hP.isSome_iff hb ha hj hlive (List.mem_append_left _ hh) href).mpr (by simp)
  · intro n h hh
    obtain ⟨kind, hkind, href⟩ := (hb.fits hj).kinds n h hh
    have hmem : h ∈ j.uses := List.mem_append_right _ (List.mem_of_getElem? hh)
    rw [hP.isSome_iff hb ha hj hlive hmem href, hkind, Ne, Ne, ArgKind.ty_eq_void,
      Option.some.injEq]

/-- A parameter and an instruction without a value, passed to a function that declares them so. -/
def Buffer.unvalued : Buffer :=
  (Buffer.empty 0).appendAll [
    .plain .start [],
    ⟨.param, .empty, .param 0⟩,
    ⟨.call .void, .empty, .call (.ofArgs ⟨"sink", .native 4096,
      (Signature.ofKinds? .void [.int64, .void]).getD ⟨0⟩, .cdecl, .any⟩ [⟨0, 1⟩, ⟨0, 0⟩])⟩]

theorem Buffer.unvalued_validated : Buffer.unvalued.Validated :=
  (Buffer.Validated.empty 0).appendAll (by decide +kernel)

/-- In `Buffer.unvalued` the first argument has a home and the second one has none. -/
theorem Instr.check_references_unvalued :
    Instr.check .unvalued (.plain (.ret .int64) [⟨0, 1⟩]) = .ok () ∧
      (∃ t, Buffer.unvalued.Refers 3 ⟨0, 1⟩ (.val t)) ∧
      ∃ l s, Liveness.ofBuffer .unvalued = .ok l ∧
        Gen.assignHomes .unvalued l { CodeState.initial .unvalued ⟨.zero, #[]⟩ with
          emitter := Emitter.empty.withLabel } = .ok () s ∧
        (s.values.get? 1).isSome = true ∧ ¬ (s.values.get? 0).isSome = true := by
  obtain ⟨hops, -, hanalysis⟩ := Instr.check_references (i := .plain (.ret .int64) [⟨0, 1⟩])
    Buffer.unvalued_validated rfl
  obtain ⟨-, hargs⟩ := hanalysis _ _ _ rfl rfl 2 _ rfl (by decide +kernel)
  refine ⟨rfl, hops ⟨0, 1⟩ (by decide), _, _, rfl, rfl, (hargs 0 ⟨0, 1⟩ rfl).mpr (by decide), ?_⟩
  exact mt (hargs 1 ⟨0, 0⟩ rfl).mp (by decide +kernel)

/-- A call that passes the check and yet passes on what is no value: there is no code for it. -/
theorem Buffer.unvalued_refused :
    Buffer.unvalued.Validated ∧
      (∃ i h, Buffer.unvalued.instrs[2]? = some i ∧ h ∈ i.callArgs ∧
        Buffer.unvalued.resultAt h.index = some .void) ∧
      ∀ [Machine.BlockEncoder],
        (compile .unvalued 32768).Fails ⟨.zero, #[]⟩ (.allocation (.noValue 0)) :=
  ⟨Buffer.unvalued_validated, ⟨_, ⟨0, 0⟩, rfl, by decide, rfl⟩, ⟨_, rfl⟩⟩

end JitBackend
