import JitBackend.Proofs.Blindness
import Mathlib.Logic.Relation

namespace JitBackend

/-!
# Dead code

One walk from the end of a buffer finds exactly the instructions that have to stay and those that
they depend on, and code is generated for exactly these, in order.

* `Instr.MustStay` — the instruction has an effect of its own;
* `Buffer.Reads` — one instruction reads the value of another, as an operand or an argument;
* `Buffer.live_iff` — live instructions are those that an instruction with an effect depends on;
* `Gen.compiled_bodyUpTo`, `Gen.compiled_of_compile` — which instructions are counted;
* `dead_code_is_exact` — all of it together.
-/

/-! ### What is live -/

/-- The instruction has an effect of its own. For a call the callee decides, whatever the opcode. -/
def Instr.MustStay (i : Instr) : Prop :=
  match i.payload with
  | .call site => site.callee.access.store = true
  | _ => i.opcode.effect = .effect

theorem Instr.mustStay_iff (i : Instr) : i.MustStay ↔ i.isRemovable = false := by
  unfold MustStay isRemovable
  cases i.payload <;> simp [Callee.hasEffects, Opcode.isRemovable]

namespace Buffer

variable {b : Buffer}

/-- The instruction at position `m` reads the value of the one at position `n`. -/
def Reads (b : Buffer) (m n : Nat) : Prop :=
  ∃ i, b.instrs[m]? = some i ∧ ∃ h ∈ i.operandList ++ i.callArgs, h.index = n

/-- Live instructions are those that an instruction with an effect depends on. -/
theorem live_iff {n : Nat} : b.Live n ↔ ∃ m i, b.instrs[m]? = some i ∧ i.MustStay ∧
    Relation.ReflTransGen b.Reads m n := by
  -- `Live` grows from the instruction that stays, so each `used` is one read more at the end
  constructor
  · intro h
    induction h with
    | kept hi hkept => exact ⟨_, _, hi, (Instr.mustStay_iff _).mpr hkept, .refl⟩
    | used _ hi hh ih =>
      obtain ⟨m, j, hj, hstay, hreads⟩ := ih
      exact ⟨m, j, hj, hstay, hreads.tail ⟨_, hi, _, hh, rfl⟩⟩
  · rintro ⟨m, i, hi, hstay, hreads⟩
    induction hreads with
    | refl => exact .kept hi ((Instr.mustStay_iff i).mp hstay)
    | tail _ hread ih =>
      obtain ⟨j, hj, h, hh, rfl⟩ := hread
      exact .used ih hj hh

/-- How often live instructions before a position name a value. -/
theorem sum_usesAt (b : Buffer) (live : Nat → Bool) (k v : Nat) :
    ((List.range k).map fun n => if live n then b.usesAt n v else 0).sum
      = ((b.neededUpTo live k).map fun i => i.uses.countP (·.index = v)).sum := by
  induction k with
  | zero => rfl
  | succ k ih =>
    rw [List.range_succ, List.map_append, List.sum_append, ih, neededUpTo_succ, List.map_append,
      List.sum_append]
    congr 1
    by_cases hlive : live k = true
    · cases hi : b.instrs[k]? <;> simp [hlive, usesAt, hi]
    · simp [hlive]

end Buffer

/-! ### What is counted -/

/-- The counters after some more opcodes were compiled. -/
def Stats.compiling (c : Nat × List (String × Nat)) (ops : List Opcode) :
    Nat × List (String × Nat) :=
  (c.1 + ops.length, ops.foldl (fun counts op => Stats.bump op.name counts) c.2)

theorem Stats.compiling_append (c : Nat × List (String × Nat)) (ops ops' : List Opcode) :
    compiling c (ops ++ ops') = compiling (compiling c ops) ops' := by
  simp [compiling, Nat.add_assoc]

namespace Gen

variable {b : Buffer} {l : Liveness} {s t : CodeState} {α : Type} {n : Nat}

/-- Code for an instruction counts none, exits included. -/
theorem compiled_instruction {i : Instr} (h : instruction b n i s = .ok () t) :
    t.stats.compiled = s.stats.compiled := by
  rcases instruction_eq_ok b n h with ⟨-, hadvances⟩ | ⟨g, stub, u, -, hstub, hrest⟩
  · exact hadvances.compiled
  · exact hrest.compiled.trans ((exitStub_silent g).advances hstub).compiled

/-- A needed instruction gets code and is counted, any other one does not. -/
theorem bodyStep_eq_ok (h : bodyStep b l n s = .ok () t) :
    l.isLive n = false ∧ t = s ∨ ∃ i u, l.isLive n = true ∧ b.instrs[n]? = some i ∧
      instruction b n i s = .ok () u ∧
      t = { u with stats := u.stats.addInstruction i.opcode.name } := by
  unfold bodyStep at h
  by_cases hlive : l.isLive n = true
  · rw [if_pos hlive] at h
    obtain ⟨i, s1, hlift, h⟩ := Step.bind_eq_ok.mp h
    obtain ⟨⟨⟩, u, hcode, hcount⟩ := Step.bind_eq_ok.mp h
    obtain ⟨hget, rfl⟩ := Step.liftFault_eq_ok hlift
    have hi : b.instrs[n]? = some i := by
      unfold Buffer.instrAt at hget
      split at hget
      · cases hget
        assumption
      · cases hget
    cases hcount
    exact .inr ⟨i, u, hlive, hi, hcode, rfl⟩
  · rw [if_neg hlive] at h
    cases h
    exact .inl ⟨Bool.eq_false_of_not_eq_true hlive, rfl⟩

theorem compiled_bodyStep (h : bodyStep b l n s = .ok () t) :
    t.stats.compiled = Stats.compiling s.stats.compiled
      ((if l.isLive n then b.instrs[n]? else none).toList.map (·.opcode)) := by
  rcases bodyStep_eq_ok h with ⟨hdead, rfl⟩ | ⟨i, u, hlive, hi, hcode, rfl⟩
  · rw [hdead]
    rfl
  · -- selecting code leaves the counters alone: all of the change is the count that follows it
    rw [hlive, if_pos rfl, hi, ← compiled_instruction hcode]
    rfl

/-- The needed instructions before a position are counted in order. -/
theorem compiled_bodyUpTo (h : bodyUpTo b l n s = .ok () t) :
    t.stats.compiled = Stats.compiling s.stats.compiled
      ((b.neededUpTo l.isLive n).map (·.opcode)) := by
  induction n generalizing t with
  | zero =>
    cases h
    rfl
  | succ n ih =>
    obtain ⟨s1, hbefore, hstep⟩ := bodyUpTo_succ_ok.mp h
    rw [compiled_bodyStep hstep, ih hbefore, Buffer.neededUpTo_succ, List.map_append,
      Stats.compiling_append]

theorem opening_silent (b : Buffer) (limit : Nat) : (opening b limit).Silent := by
  refine newLabel_silent.bind fun _ => (Silent.liftFault _).bind fun l => ?_
  refine (assignHomes_silent b l).bind fun _ => (layFrame_silent b l limit).bind fun _ => ?_
  exact (entry_silent b).bind fun _ => .pure l

theorem liveness_of_opening {limit : Nat} (h : opening b limit s = .ok l t) :
    Liveness.ofBuffer b = .ok l := by
  obtain ⟨_, s1, -, h⟩ := Step.bind_eq_ok.mp h
  obtain ⟨l', s2, hscan, h⟩ := Step.bind_eq_ok.mp h
  obtain ⟨_, s3, -, h⟩ := Step.bind_eq_ok.mp h
  obtain ⟨_, s4, -, h⟩ := Step.bind_eq_ok.mp h
  obtain ⟨_, s5, -, h⟩ := Step.bind_eq_ok.mp h
  cases h
  exact (Step.liftFault_eq_ok hscan).1

/-- All needed instructions are counted in order, and nothing else is. -/
theorem compiled_of_compile [Machine.BlockEncoder] {limit : Nat} {a a' : Account} {asm : Assembly}
    (h : compile b limit a = .ok asm a') :
    ∃ l, Liveness.ofBuffer b = .ok l ∧ a'.stats.compiled = Stats.compiling a.stats.compiled
      ((b.neededUpTo l.isLive b.size).map (·.opcode)) := by
  obtain ⟨l, s1, s2, s, t, hopen, hbody, hexit, -, hfinish, rfl⟩ := compile_eq_ok h
  rw [body_eq] at hbody
  refine ⟨l, liveness_of_opening hopen, ?_⟩
  rw [(finish_silent.advances hfinish).compiled, (exitPath_silent.advances hexit).compiled,
    compiled_bodyUpTo hbody, ((opening_silent b limit).advances hopen).compiled]
  rfl

end Gen

/-! ### All of it -/

/-- The walk finds what is needed, if operands and arguments precede the instructions that read
    them. An instruction is live if and only if it must stay or one that must stay depends on it; a
    value has as many uses as live instructions name it, each as often as it does; what a live
    instruction reads is live. Where code is generated, the live instructions are counted, each
    once and in the order of the buffer, and no others. -/
theorem dead_code_is_exact [Machine.BlockEncoder] {b : Buffer}
    (hback : ∀ (n : Nat) (i : Instr), b.instrs[n]? = some i →
      ∀ h ∈ i.operandList ++ i.callArgs, h.index < n) :
    ∃ l, Liveness.ofBuffer b = .ok l ∧
      (∀ n, l.isLive n = true ↔ ∃ m i, b.instrs[m]? = some i ∧ i.MustStay ∧
        Relation.ReflTransGen b.Reads m n) ∧
      (∀ v, l.usesOf v =
        ((b.neededUpTo l.isLive b.size).map fun i =>
          (i.operandList ++ i.callArgs).countP (·.index = v)).sum) ∧
      (∀ n m, l.isLive n = true → b.Reads n m → l.isLive m = true) ∧
      ∀ limit a asm a', compile b limit a = .ok asm a' →
        a'.stats.instructions = a.stats.instructions + (b.neededUpTo l.isLive b.size).length ∧
        a'.stats.counts = (b.neededUpTo l.isLive b.size).foldl
          (fun counts i => Stats.bump i.opcode.name counts) a.stats.counts := by
  obtain ⟨l, hscan, ha⟩ := Liveness.analysis_of_readsBack (b := b) fun hi _ hh => hback _ _ hi _ hh
  refine ⟨l, hscan, fun n => (ha.live_iff n).trans Buffer.live_iff, fun v => ?_, fun n m hn hread =>
    ?_, fun limit a asm a' hcompile => ?_⟩
  · rw [ha.uses_eq, Liveness.left, Nat.sub_zero, ← List.range_eq_range']
    exact b.sum_usesAt l.isLive b.size v
  · obtain ⟨i, hi, h, hh, rfl⟩ := hread
    exact (ha.live_iff _).mpr (.used ((ha.live_iff n).mp hn) hi hh)
  · -- code generation makes the walk itself, and it finds the same
    obtain ⟨l', hscan', hcount⟩ := Gen.compiled_of_compile hcompile
    rw [hscan] at hscan'
    cases hscan'
    obtain ⟨hnumber, hcounts⟩ := Prod.mk.inj hcount
    rw [List.length_map] at hnumber
    rw [List.foldl_map] at hcounts
    exact ⟨hnumber, hcounts⟩

/-- A call to a function that only reads memory, whose result nobody uses, next to one whose result
    is returned. -/
def Buffer.idleCall : Buffer :=
  (Buffer.empty 0).appendAll [
    .plain .start [],
    ⟨.param, .empty, .param 0⟩,
    ⟨.call (.val .int64), .empty, .call (.ofArgs ⟨"peek", .native 4096,
      (Signature.ofKinds? .int64 [.int64]).getD ⟨0⟩, .cdecl, .loads⟩ [⟨0, 1⟩])⟩,
    .plain (.arith .w64 .add) [⟨0, 2⟩, ⟨0, 2⟩],
    ⟨.call (.val .int64), .empty, .call (.ofArgs ⟨"peek", .native 4096,
      (Signature.ofKinds? .int64 [.int64]).getD ⟨0⟩, .cdecl, .loads⟩ [⟨0, 1⟩])⟩,
    .plain (.arith .w64 .mul) [⟨0, 4⟩, ⟨0, 4⟩],
    .plain (.ret .int64) [⟨0, 5⟩]]

theorem Buffer.idleCall_validated : Buffer.idleCall.Validated :=
  (Buffer.Validated.empty 0).appendAll (by decide +kernel)

section

attribute [local instance] Machine.shrinking

/-- The unused call and the sum of its results are dropped; the other call is used twice. -/
theorem dead_code_is_exact_idleCall :
    ∃ l asm a', Liveness.ofBuffer .idleCall = .ok l ∧
      compile .idleCall 4096 ⟨.zero, #[]⟩ = .ok asm a' ∧
      (∀ n, l.isLive n = true ↔ ∃ m i, Buffer.idleCall.instrs[m]? = some i ∧ i.MustStay ∧
        Relation.ReflTransGen Buffer.idleCall.Reads m n) ∧
      l.live = #[true, true, false, false, true, true, true] ∧ l.usesOf 2 = 0 ∧ l.usesOf 4 = 2 ∧
      a'.stats.counts = [("start", 1), ("paramq", 1), ("callq", 1), ("mulq", 1), ("retq", 1)] := by
  obtain ⟨asm, a', hok⟩ := Step.exists_of_succeeds
    (show (compile .idleCall 4096).succeeds ⟨.zero, #[]⟩ = true by decide +kernel)
  obtain ⟨l, hscan, hlive, -, -, hcount⟩ := dead_code_is_exact
    fun n i hi h hh => Buffer.idleCall_validated.uses_lt hi hh
  have hl : Liveness.ofBuffer .idleCall = .ok
      ⟨#[true, true, false, false, true, true, true], #[0, 1, 0, 0, 2, 1, 0]⟩ := by decide +kernel
  rw [hscan] at hl
  cases hl
  refine ⟨_, asm, a', hscan, hok, hlive, rfl, rfl, rfl, ?_⟩
  rw [(hcount _ _ _ _ hok).2]
  decide +kernel

end

end JitBackend
