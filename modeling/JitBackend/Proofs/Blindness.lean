import JitBackend.Proofs.Tidy

namespace JitBackend

/-!
# Reports do not influence code

The steps of code generation are silent, so code generation as a whole is blind to the log. None of
its reports is about an instruction that reached the buffer.

* `Gen.instruction_eq_ok` — what the code of an instruction adds to the exits;
* `Gen.function_blind`, `compile_blind` — code generation is blind to the log, and so is compiling.
-/

namespace Gen

open Machine (Emitter)
open CodeState (Like)

variable {ls ls' : List String}

/-- A step is silent since nothing has to be known for that. -/
theorem Ground.Keeps.quiet {α : Type} {x : Gen α} {Q : α → Prop} (h : Ground.unknown.Keeps x Q) :
    x.Silent :=
  h.silent id

theorem syncAll_silent : syncAll.Silent :=
  syncAll_keeps.quiet

theorem clearAll_silent : clearAll.Silent :=
  clearAll_keeps.quiet

theorem exitStub_silent (g : Guard) : (exitStub g).Silent :=
  (exitStub_keeps g).quiet

section Selection

variable (b : Buffer) (index : Nat) {i : Instr}

/-- An exit is the only thing that adds to the exits; it is as blind to the log as the rest. -/
theorem guardExit_blind (p : Payload) : (guardExit p).Blind (Like ls ls') := by
  cases p with
  | guard g =>
    rw [guardExit_eq]
    refine (exitStub_silent g).blind.bind fun stub => ?_
    exact (Like.modify fun _ _ => rfl).bind fun _ => clearAll_silent.blind
  | _ => exact Step.agrees_pure ()

theorem guardExit_eq_ok {g : Guard} {s t : CodeState} (h : guardExit (.guard g) s = .ok () t) :
    ∃ stub u, exitStub g s = .ok stub u ∧
      CodeState.Advances { u with exits := u.exits.push (g, stub) } t := by
  rw [guardExit_eq] at h
  obtain ⟨stub, u, hstub, h⟩ := Step.bind_eq_ok.mp h
  rw [Step.bind_modify] at h
  exact ⟨stub, u, hstub, clearAll_silent.advances h⟩

theorem instruction_silent (hi : i.opcode ≠ .exit) : (instruction b index i).Silent :=
  (instruction_keeps (l := ⟨#[], #[]⟩) (fun h => absurd h hi) False.elim).quiet

theorem instruction_exit (hi : i.opcode = .exit) : instruction b index i = guardExit i.payload := by
  rw [instruction, hi]

/-- What the code of an instruction adds: nothing to the exits, or one of its own. -/
theorem instruction_eq_ok {s t : CodeState} (h : instruction b index i s = .ok () t) :
    i.exitGuard? = none ∧ s.Advances t ∨ ∃ g stub u, i.exitGuard? = some g ∧
      exitStub g s = .ok stub u ∧
      CodeState.Advances { u with exits := u.exits.push (g, stub) } t := by
  by_cases hi : i.opcode = .exit
  · rw [instruction_exit b index hi] at h
    rw [Instr.exitGuard?, if_pos hi, Instr.guard?]
    cases hp : i.payload with
    | guard g =>
      rw [hp] at h
      obtain ⟨stub, u, hstub, hrest⟩ := guardExit_eq_ok h
      exact .inr ⟨g, stub, u, rfl, hstub, hrest⟩
    | _ =>
      rw [hp] at h
      cases h
      exact .inl ⟨rfl, .of_outline rfl⟩
  · rw [Instr.exitGuard?, if_neg hi]
    exact .inl ⟨rfl, (instruction_silent b index hi).advances h⟩

theorem instruction_blind (i : Instr) : (instruction b index i).Blind (Like ls ls') := by
  by_cases hi : i.opcode = .exit
  · rw [instruction_exit b index hi]
    exact guardExit_blind _
  · exact (instruction_silent b index hi).blind

end Selection

/-! ### The whole function -/

section Function

variable (b : Buffer) (l : Liveness)

theorem checkTarget_silent (source : Handle) (target : Option Handle) :
    (checkTarget b source target).Silent := by
  unfold checkTarget
  split
  · exact Silent.ite (Silent.pure ()) (Silent.fail _)
  · exact Silent.fail _

theorem reserveArgs_silent (site : CallSite) : (reserveArgs b site).Silent := by
  refine (Silent.report rfl).bind fun _ => ?_
  refine (Silent.mapM (fun h => ?_) site.args).bind fun types => ?_
  · exact (Silent.liftFault _).bind fun _ => Silent.pure _
  · exact .modify (fun _ _ => rfl) fun _ => rfl

theorem preparePayload_silent (source : Handle) (p : Payload) :
    (preparePayload b source p).Silent := by
  unfold preparePayload
  split
  · exact checkTarget_silent b source _
  · exact .forM fun t _ => checkTarget_silent b source t
  · exact reserveArgs_silent b _
  · exact Silent.pure ()

theorem reserve_silent (size : Nat) : (frame (·.reserve size)).Silent := by
  refine .frame fun F a F' h => ?_
  simp only [Frame.reserve, bind, Except.bind] at h
  split at h
  · cases h
  split at h
  · cases h
  cases h
  rfl
theorem createLabel_silent (index : Nat) : (createLabel index).Silent :=
  newLabel_silent.bind fun _ => .modify (fun _ _ => rfl) fun _ => rfl

theorem homeFor_silent (p : Payload) : (homeFor p).Silent := by
  have hslot : Silent (do return .slot (← frame (·.reserve 8)) : Gen Home) :=
    (reserve_silent 8).bind fun _ => Silent.pure _
  unfold homeFor
  split
  · exact Silent.pure _
  · exact (reserve_silent _).bind fun _ => Silent.pure _
  · exact Silent.ite (Silent.pure _) hslot
  · exact hslot

theorem prepare_silent (index : Nat) (i : Instr) : (prepare b l index i).Silent := by
  have hhome : Silent (do
      if i.result ≠ .void then
        let home ← homeFor i.payload
        modify fun s =>
          { s with values := s.values.insert index (.atHome i.result home (l.usesOf index)) }
      : Gen Unit) := by
    refine Silent.ite ((homeFor_silent _).bind fun home => ?_) (Silent.pure ())
    exact .modify (fun _ _ => rfl) fun _ => rfl
  refine (preparePayload_silent b _ _).bind fun _ => Silent.ite ?_ hhome
  exact (createLabel_silent index).bind fun _ => hhome

theorem assignHomes_silent : (assignHomes b l).Silent := by
  refine .forM fun index _ => Silent.ite ?_ (Silent.pure ())
  exact (Silent.liftFault _).bind fun i => prepare_silent b l index i

theorem settle_silent : (frame fun f => do return ((), ← f.settle)).Silent := by
  refine .frame fun F a F' h => ?_
  simp only [Frame.settle, bind, Except.bind] at h
  split at h
  · cases h
  rename_i G hG
  cases h
  split at hG
  · cases hG
  split at hG
  · cases hG
  cases hG
  rfl

theorem layFrame_silent (limit : Nat) : (layFrame b l limit).Silent := by
  refine settle_silent.bind fun _ => Silent.read (fun _ _ => rfl) fun s => ?_
  refine (Silent.liftFault _).bind fun required => ?_
  exact Silent.ite (Silent.fail_bind _ _) (Silent.report rfl)

theorem storeParam_silent (h : Handle) : (storeParam b h).Silent := by
  refine (Silent.liftFault _).bind fun i => ?_
  split
  · refine Silent.read (fun _ _ => rfl) fun s => ?_
    dsimp only
    split
    · exact (storeTo_keeps _ _ False.elim).quiet
    · exact Silent.pure ()
  · exact Silent.pure ()

theorem entry_silent : (entry b).Silent :=
  Silent.read (fun _ _ => rfl) fun _ =>
    (emit_silent (.prologue ..)).bind fun _ => .forM fun h _ => storeParam_silent b h

theorem body_blind : (body b l).Blind (Like ls ls') := by
  refine .forM fun index _ => Step.agrees_ite ?_ (Step.agrees_pure ())
  refine (Step.agrees_liftFault _).bind fun i => ?_
  exact (instruction_blind b index i).bind fun _ => Like.modify fun _ _ => rfl

theorem exitPath_silent : exitPath.Silent :=
  (bindLabel_silent _).bind fun _ => Silent.read (fun _ _ => rfl) fun _ =>
    emit_silent (.epilogue ..)

theorem exitOffset_silent (code : Machine.Code) (exit : Guard × Nat) :
    (exitOffset code exit).Silent :=
  (Silent.orFail _ _).bind fun _ => Silent.pure _

theorem finish_silent [Machine.BlockEncoder] : finish.Silent := by
  refine Silent.read (fun _ _ => rfl) fun s => (Silent.liftError _).bind fun code => ?_
  refine Silent.ite (Silent.fail_bind _ _) ?_
  exact (Silent.mapM (exitOffset_silent _) _).bind fun _ => Silent.pure _

theorem function_blind [Machine.BlockEncoder] (maxFrame : Nat) : (function b maxFrame).Blind (Like ls ls') := by
  refine newLabel_silent.blind.bind fun _ => (Step.agrees_liftFault _).bind fun l => ?_
  refine (assignHomes_silent b l).blind.bind fun _ => ?_
  refine (layFrame_silent b l maxFrame).blind.bind fun _ => (entry_silent b).blind.bind fun _ => ?_
  exact (body_blind b l).bind fun _ => exitPath_silent.blind.bind fun _ => finish_silent.blind

end Function

end Gen

/-- The counters are the same, and `ls` and `ls'` reached the buffer. -/
structure Account.Like (ls ls' : List String) (a a' : Account) : Prop where
  stats : a.stats = a'.stats
  left : Log.traced a.log = ls
  right : Log.traced a'.log = ls'

/-- What compiling yields, and what it counts, does not depend on the reports so far. -/
theorem compile_blind [Machine.BlockEncoder] (b : Buffer) (maxFrame : Nat) (ls ls' : List String) :
    (compile b maxFrame).Blind (Account.Like ls ls') := by
  have hfunction : (Gen.function b maxFrame).Blind (CodeState.Like ls ls') :=
    Gen.function_blind b maxFrame
  refine Step.agrees_within hfunction (fun a a' h => ?_) (fun a a' s t _ h => ?_)
  · refine ⟨?_, h.left, h.right⟩
    rw [CodeState.initial, h.stats]
    rfl
  · exact ⟨by rw [← h.same], h.left, h.right⟩

end JitBackend
