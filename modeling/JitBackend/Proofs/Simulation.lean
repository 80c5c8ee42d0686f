import JitBackend.Proofs.Lockstep

namespace JitBackend

/-!
# Compilation preserves meaning

Code that was compiled does on the machine what linear code means. Whenever the interpreter gets
through a number of instructions without trapping, and its loads and stores keep out of the frame
except for the stack areas, the machine goes through states that stand for those of the
interpreter, in the same order. If the interpreter ends, so does the code: it returns to its
caller with the same result, the same memory outside of the frame, and the preserved registers.

* `Gen.placeAt` — where the code of an instruction is;
* `Stands` — a state of the machine stands for one of the interpreter;
* `HandedBack` — what the caller gets back;
* `compile_simulates` — the machine follows the interpreter.
-/

open Machine (State Reaches)
open Gen (frameBase savedRegs stateAt leaveInsts epilogueInsts)

theorem Machine.Reaches.chain {c : Machine.Surroundings} {p : Machine.Program} {pcs : Nat → Nat}
    {ks : Nat → State} {n : Nat}
    (h : ∀ j < n, Reaches c p (pcs j) (ks j) (pcs (j + 1)) (ks (j + 1))) :
    Reaches c p (pcs 0) (ks 0) (pcs n) (ks n) := by
  induction n with
  | zero => exact .refl _ _
  | succ n ih => exact (ih fun j hj => h j (Nat.lt_succ_of_lt hj)).trans (h n (Nat.lt_succ_self n))

/-! ### Where code is -/

namespace Gen

variable {b : Buffer} {limit : Nat} {a : Account}

/-- Number of items before the code of the instruction at a position. -/
def placeAt (b : Buffer) (limit : Nat) (a : Account) (n : Nat) : Nat :=
  match (do let l ← opening b limit; bodyUpTo b l n : Gen Unit) (CodeState.initial b a) with
  | .ok _ s | .error _ s => s.emitter.count

/-- The code of a function, with the places of its instructions. -/
theorem instructions_generated (hb : b.Validated) (hargs : b.ArgsAreValues) {s' : CodeState}
    (h : instructions b limit (CodeState.initial b a) = .ok () s') :
    ∃ l s e, Generated b limit l s e s' ∧
      ∀ n, n ≤ b.size → placeAt b limit a n = (stateAt b l s n).emitter.count := by
  obtain ⟨l, s, hopen, hrest⟩ := Step.bind_eq_ok.mp h
  have hO := (opening_ends hb a).of_ok hopen
  obtain ⟨_, _, hyields, e, hgen⟩ := hO.generated hb hargs
  rw [hrest] at hyields
  cases hyields
  refine ⟨l, s, e, hgen, fun n hn => ?_⟩
  rw [placeAt, Step.bind_ok hopen, (bodyUpTo_ok hb hargs hO.analysis (homed_infoAt hb) hO.emitted
    hO.targets hn).1]

end Gen

/-! ### From the entry to the return -/

/-- A state of the machine stands for the state `σ` of the interpreter, in a call that was made in
    the state `m`: it is at the code of the same instruction, memory outside of the frame is the
    same, and what was observed is what was reported. -/
structure Stands (b : Buffer) (limit : Nat) (a : Account) (E : Outside) (m : State)
    (σ : Interp.State Memory) (pc : Nat) (k : State) : Prop where
  place : pc = Gen.placeAt b limit a σ.pc ∨
    b.IsLabel σ.pc ∧ pc = Gen.placeAt b limit a (σ.pc + 1)
  mem : ∀ x, ¬b.Private (frameBase m) x → k.mem x = σ.mem x
  trace : ∃ obs, Shown b E.float σ.trace obs ∧ k.trace = m.trace ++ obs

/-- What the caller gets back from a call that was made in the state `m`, when the interpreter
    ended in the state `σ`. -/
structure HandedBack (b : Buffer) (E : Outside) (m : State) (σ : Interp.State Memory)
    (o : Interp.Outcome) (address : BitVec 64) (k : State) : Prop where
  address : address = m.mem.read (m.gpr .rsp) 8
  rsp : k.gpr .rsp = m.gpr .rsp + 8
  saved : ∀ r ∈ savedRegs, k.gpr r.toGpr = m.gpr r.toGpr
  mem : ∀ x, ¬b.Private (frameBase m) x → k.mem x = σ.mem x
  trace : ∃ obs, Shown b E.float σ.trace obs ∧ k.trace = m.trace ++ obs
  result : o.Left k

/-- The machine, called in the state `m`, goes from one state to the next as a run of `n`
    instructions does. If the run ends, the code returns what it ended with. -/
def Outside.Follows (E : Outside) (b : Buffer) (limit : Nat) (a : Account) (m : State)
    (p : Machine.Program) (run : Nat → Interp.State Memory × Option Interp.Outcome) (n : Nat) :
    Prop :=
  ∃ (pcs : Nat → Nat) (ks : Nat → State), Reaches (E.around b m) p 0 m (pcs 0) (ks 0) ∧
    (∀ j < n, Reaches (E.around b m) p (pcs j) (ks j) (pcs (j + 1)) (ks (j + 1))) ∧
    (∀ j ≤ n, Stands b limit a E m (run j).1 (pcs j) (ks j)) ∧
    ∀ o, (run n).2 = some o → ∃ pc k x k', Reaches (E.around b m) p (pcs n) (ks n) pc k ∧
      Machine.step (E.around b m) p pc k = .returned x k' ∧ HandedBack b E m (run n).1 o x k'

theorem Interp.Outcome.Left.congr {o : Interp.Outcome} {k k' : Machine.State} (h : o.Left k)
    (hgpr : k'.gpr Reg.rax.toGpr = k.gpr Reg.rax.toGpr) (hxmm : k'.xmm = k.xmm) : o.Left k' := by
  cases o with
  | ret v =>
    cases v with
    | int32 v => exact (congrArg (BitVec.setWidth 32) hgpr).trans h
    | int64 v => exact hgpr.trans h
    | float64 p | float32 p =>
      refine Eq.trans ?_ h
      rw [hxmm]
  | exit g => exact hgpr.trans h
  | endOfCode => trivial
  | trap | stuck => exact h

section Matching

variable {b : Buffer} {limit : Nat} {l : Liveness} {s : CodeState} {E : Outside} {m m1 : State}
  {σ : Interp.State Memory} {o : Interp.Outcome} {pc : Nat} {k : State}

theorem Matches.stands {a : Account}
    (hplace : ∀ n, n ≤ b.size → Gen.placeAt b limit a n = (stateAt b l s n).emitter.count)
    (hM : Matches b l s E m m1 σ pc k) : Stands b limit a E m σ pc k := by
  cases hM with
  | before hpc hobs h =>
    exact ⟨.inl (hplace _ hpc).symm, fun x hx => h.visible x (Outside.visible_iff.mpr hx), _, hobs,
      h.trace⟩
  | landed hlabel hobs h =>
    exact ⟨.inr ⟨hlabel, (hplace _ hlabel.lt).symm⟩,
      fun x hx => h.visible x (Outside.visible_iff.mpr hx), _, hobs, h.trace⟩

/-- What was saved and the return address are there when the frame is taken down. -/
theorem Finished.word_kept (hF : Finished b E m m1 σ o k) {d : Int} (hge : -40 ≤ d) (hle : d ≤ 8) :
    k.mem.read (frameBase m + .ofInt 64 d) 8 = m1.mem.read (frameBase m + .ofInt 64 d) 8 := by
  obtain ⟨obs, -, hframed⟩ := hF.framed
  refine Memory.read_congr fun i hi => hframed.fixed _ (.inl ?_)
  have hbase : stackParamBase = 16 := rfl
  show -40 ≤ Memory.distance (frameBase m) _ ∧ Memory.distance (frameBase m) _ < _
  rw [Machine.distance_byte _ (by omega) (by omega)]
  omega

end Matching

namespace Underway

variable {b : Buffer} {there : Nat → Nat → Prop} {limit : Nat} {l : Liveness} {s : CodeState}
  {e : Machine.Emitter} {s' : CodeState} {E : Outside} {m m1 : State}
  (H : Underway b there limit l s e s' E m m1)
  {σ : Interp.State Memory} {o : Interp.Outcome} {pc : Nat} {k : State}

include H

/-- The body is entered where the interpreter starts, with values that are at home. -/
theorem start (env : Nat → Option Const) (hhome : ∀ v i c, b.infoAt b.isNeeded v = some i →
      env v = some c → (E.frame b m m1).AtHome m1 c i.home) :
    Matches b l s E m m1 { Interp.State.initial m.mem with env := env }
      (stateAt b l s 0).emitter.count m1 := by
  have hcoh := (H.emitted (Nat.zero_le _)).coherent
  refine .before (Nat.zero_le _) .nil ⟨H.admitted.rbp, H.admitted.rsp, fun _ _ => rfl,
    fun x hx => ?_, ?_, fun v x r c hx _ hr => ?_, fun v x c hx hc _ _ => ?_⟩
  · exact H.admitted.outside x (Outside.visible_iff.mp hx)
  · exact H.admitted.trace.trans (List.append_nil _).symm
  · exact absurd (hcoh.computed v x r hx hr) (Nat.not_lt_zero v)
  · obtain ⟨j, hj, hxj⟩ := hcoh.homes v x hx
    exact hxj ▸ hhome v j c hj hc

/-- The machine follows the interpreter through a number of instructions. -/
theorem run (hσ : Interp.Steady b there σ) (hM : Matches b l s E m m1 σ pc k) (n : Nat)
    (htrap : (Interp.run (E.world b m) b n σ).2 ≠ some .trap)
    (hconf : Confined b m (Interp.run (E.world b m) b n σ).1.trace) :
    ∃ (pcs : Nat → Nat) (ks : Nat → State), pcs 0 = pc ∧ ks 0 = k ∧
      (∀ j < n, Reaches (E.around b m) s'.emitter.program (pcs j) (ks j) (pcs (j + 1))
        (ks (j + 1))) ∧
      (∀ j ≤ n, Matches b l s E m m1 (Interp.run (E.world b m) b j σ).1 (pcs j) (ks j)) ∧
      ∀ o, (Interp.run (E.world b m) b n σ).2 = some o → ∃ k',
        Reaches (E.around b m) s'.emitter.program (pcs n) (ks n) e.count k' ∧
          Finished b E m m1 (Interp.run (E.world b m) b n σ).1 o k' := by
  -- from the front: the first instruction is answered, and the rest is a shorter run
  induction n generalizing σ pc k with
  | zero =>
    refine ⟨fun _ => pc, fun _ => k, rfl, rfl, fun j hj => absurd hj (Nat.not_lt_zero j),
      fun j hj => ?_, fun o ho => by cases ho⟩
    obtain rfl : j = 0 := Nat.le_zero.mp hj
    exact hM
  | succ n ih =>
    cases hstep : Interp.step (E.world b m) b σ with
    | halt o =>
      -- the interpreter stays where it ended, and so does the machine
      have hstay : ∀ j, (Interp.run (E.world b m) b j σ).1 = σ := by
        intro j
        cases j with
        | zero => rfl
        | succ j => rw [Interp.run_halt hstep]
      have hans := H.step hσ hM fun σ' hσ' => by rw [hstep] at hσ'; cases hσ'
      rw [hstep] at hans
      rw [Interp.run_halt hstep] at htrap ⊢
      refine ⟨fun _ => pc, fun _ => k, rfl, rfl, fun _ _ => .refl _ _,
        fun j _ => (hstay j).symm ▸ hM, fun o' ho' => ?_⟩
      cases ho'
      exact hans fun htrap' => htrap (congrArg some htrap')
    | go σ' =>
      have hσ' := (hσ.next H.valid H.args H.defines hstep).steady
      have hrun : ∀ j, Interp.run (E.world b m) b (j + 1) σ = Interp.run (E.world b m) b j σ' :=
        fun j => by rw [Interp.run, hstep]
      rw [hrun] at htrap hconf ⊢
      -- what is reported now is still reported at the end
      have hans := H.step hσ hM fun σ'' hσ'' => by
        rw [hstep] at hσ''
        cases hσ''
        exact fun ev hev => hconf ev
          ((hσ'.run_trace H.valid H.args H.defines n).subset hev)
      rw [hstep] at hans
      obtain ⟨pc', k', hreach, hM'⟩ := hans
      obtain ⟨pcs, ks, h0, h0', hchain, hall, hend⟩ := ih hσ' hM' htrap hconf
      refine ⟨fun j => Nat.casesOn j pc pcs, fun j => Nat.casesOn j k ks, rfl, rfl,
        fun j hj => ?_, fun j hj => ?_, hend⟩
      · cases j with
        | zero => exact (h0.symm ▸ h0'.symm ▸ hreach :)
        | succ j => exact hchain j (Nat.lt_of_succ_lt_succ hj)
      · cases j with
        | zero => exact hM
        | succ j => rw [hrun]; exact hall j (Nat.le_of_succ_le_succ hj)

/-- From the end of the body the code returns to its caller. -/
theorem returns (hF : Finished b E m m1 σ o k) :
    ∃ pc k1 x k2, Reaches (E.around b m) s'.emitter.program e.count k pc k1 ∧
      Machine.step (E.around b m) s'.emitter.program pc k1 = .returned x k2 ∧
      HandedBack b E m σ o x k2 := by
  obtain ⟨obs, hobs, hframed⟩ := hF.framed
  obtain ⟨k1, hexec, hleft⟩ := Gen.departed hframed.rbp (E.around b m)
  have hbase : (E.frame b m m1).base = frameBase m := rfl
  rw [hbase] at hleft
  have hret : s'.emitter.program.items[e.count + leaveInsts.length]? = some (.op .ret) :=
    (H.code.enclosed H.valid H.args).leaving _ _ List.getElem?_concat_length
  have hreach := Machine.reaches_ops (p := s'.emitter.program) (e := e) (by
    refine (?_ : Machine.Emitter.Extends _ s'.emitter).within s'.emitter.within_program
    rw [H.code.code, Gen.epilogueInsts_eq, ← Machine.Emitter.withOps_withOps]
    exact Machine.Emitter.extends_withOps _ _) hexec
  have hstep : Machine.step (E.around b m) s'.emitter.program (e.count + leaveInsts.length) k1
      = .returned (k1.read (k1.gpr .rsp) 8) (k1.setGpr .rsp (k1.gpr .rsp + 8)) := by
    rw [Machine.step, hret]
  refine ⟨_, k1, _, _, hreach, hstep, ?_⟩
  have hne : ∀ r ∈ savedRegs, r.toGpr ≠ Machine.Gpr.rsp := by decide
  have hrax : ∀ r ∈ savedRegs, Reg.rax.toGpr ≠ r.toGpr := by decide
  have hgpr : ∀ q, q ≠ .rsp → (k1.setGpr .rsp (k1.gpr .rsp + 8)).gpr q = k1.gpr q :=
    fun q hq => State.gpr_setGpr_of_ne hq _
  refine ⟨?_, ?_, fun r hr => ?_, fun x hx => ?_, ⟨obs, hobs, ?_⟩, hF.left.congr ?_ hleft.xmm⟩
  · -- the return address
    show k1.mem.read (k1.gpr .rsp) 8 = _
    have hsp : m.gpr .rsp = frameBase m + .ofInt 64 8 := by
      rw [frameBase, Machine.add_ofInt]
      simp
    rw [hleft.mem, hleft.rsp, hF.word_kept (by omega) (by omega), hsp]
    refine Memory.read_congr fun i hi => H.admitted.above _ ?_
    rw [Machine.distance_byte _ (by omega) (by omega)]
    omega
  · rw [Machine.State.gpr_setGpr_self, hleft.rsp, frameBase, Machine.add_ofInt]
    simp
  · -- what is restored was saved on entry
    obtain ⟨n, hn⟩ := List.mem_iff_getElem?.mp hr
    have hn6 : n < 6 := (List.getElem?_eq_some_iff.mp hn).1
    rw [hgpr _ (hne r hr), hleft.restored n r hn, hF.word_kept (by omega) (by omega),
      H.admitted.saved n r hn]
  · exact (congrFun hleft.mem x).trans (hframed.visible x (Outside.visible_iff.mpr hx))
  · refine (hleft.trace fun x hx => Outside.hidden_iff.mpr ?_).trans hframed.trace
    have := (Gen.inSaved_iff _ x).mp hx
    have hbase : stackParamBase = 16 := rfl
    exact Buffer.private_of_above H.need (by omega) (by omega)
  · -- the result is in a register that is not restored
    exact (hgpr _ (by decide)).trans (hleft.gpr _ (by decide) hrax)

/-- The machine follows the interpreter from the call to the return. -/
theorem simulates {a : Account}
    (hplace : ∀ n, n ≤ b.size → Gen.placeAt b limit a n = (stateAt b l s n).emitter.count)
    (henter : Reaches (E.around b m) s'.emitter.program 0 m pc k) (hσ : Interp.Steady b there σ)
    (hM : Matches b l s E m m1 σ pc k) (n : Nat)
    (htrap : (Interp.run (E.world b m) b n σ).2 ≠ some .trap)
    (hconf : Confined b m (Interp.run (E.world b m) b n σ).1.trace) :
    E.Follows b limit a m s'.emitter.program (fun n => Interp.run (E.world b m) b n σ) n := by
  obtain ⟨pcs, ks, hpc, hk, hchain, hall, hend⟩ := H.run hσ hM n htrap hconf
  refine ⟨pcs, ks, hpc.symm ▸ hk.symm ▸ henter, hchain, fun j hj => (hall j hj).stands hplace,
    fun o ho => ?_⟩
  obtain ⟨k, hreach, hfinished⟩ := hend o ho
  obtain ⟨pc, k1, x, k2, hleave, hstep, hback⟩ := H.returns hfinished
  exact ⟨pc, k1, x, k2, hreach.trans hleave, hstep, hback⟩

end Underway

/-! ### Compilation preserves meaning -/

/-- A number of instructions of a call that is made in the state `m`, as linear code. -/
def Outside.interpret (E : Outside) (b : Buffer) (m : State) (n : Nat) :
    Interp.State Memory × Option Interp.Outcome :=
  Interp.run (E.world b m) b n (.initial m.mem)

/-- Code that was compiled does what linear code means. In a call with any registers, memory and
    callees, for as long as the interpreter neither traps nor touches memory of the frame other than
    its stack areas, the machine goes from the code of one instruction to that of the next one as
    the interpreter does, with the same memory outside of the frame and the same loads, stores and
    calls in the same order. If the interpreter ends, the code returns what it ended with. -/
theorem compile_simulates [Machine.BlockEncoder] {b : Buffer} (hb : b.Validated)
    (hparams : b.ParamsInOrder) (hargs : b.ArgsAreValues) (hdef : b.DefinesBeforeUse)
    (hneed : b.frameNeed < 2 ^ 31) {limit : Nat} {a a' : Account} {asm : Assembly}
    (hok : compile b limit a = .ok asm a') :
    ∃ s labels, Gen.instructions b limit (CodeState.initial b a) = .ok () s ∧
      s.emitter.assemble = .ok ⟨asm.code, labels⟩ ∧
      ∀ (E : Outside) (m : State), E.Fair b m → ∀ n : Nat,
        (E.interpret b m n).2 ≠ some .trap → Confined b m (E.interpret b m n).1.trace →
        ∃ (pcs : Nat → Nat) (ks : Nat → State),
          Reaches (E.around b m) s.emitter.program 0 m (pcs 0) (ks 0) ∧
          (∀ j < n, Reaches (E.around b m) s.emitter.program (pcs j) (ks j) (pcs (j + 1))
            (ks (j + 1))) ∧
          (∀ j ≤ n, Stands b limit a E m (E.interpret b m j).1 (pcs j) (ks j)) ∧
          ∀ o, (E.interpret b m n).2 = some o → ∃ pc k x k',
            Reaches (E.around b m) s.emitter.program (pcs n) (ks n) pc k ∧
              Machine.step (E.around b m) s.emitter.program pc k = .returned x k' ∧
              HandedBack b E m (E.interpret b m n).1 o x k' := by
  obtain ⟨-, -, -, s', labels, -, hinst, hcode, -⟩ := compile_generated hb hargs hok
  obtain ⟨l, s, e, hgen, hplace⟩ := Gen.instructions_generated hb hargs hinst
  refine ⟨s', labels, hinst, hcode, fun E m hfair n htrap hconf => ?_⟩
  obtain ⟨m1, henter, hadmitted⟩ := hgen.admitted hb hargs hneed
    fun x hx => (Outside.hidden_iff (E := E)).mpr hx
  have H : Underway b b.Precedes limit l s e s' E m m1 :=
    ⟨hb, hparams.reached, hargs, hdef.supplies, hneed, hgen, hfair, hadmitted⟩
  exact H.simulates hplace henter (.initial m.mem)
    (H.start (fun _ => none) fun _ _ _ _ hc => nomatch hc) n htrap hconf

/-- Callees that return their first argument, an integer, and leave memory as it is. -/
def Outside.echo (f : FloatModel) : Outside where
  float := f
  reply _ a mem := ⟨fun _ => a.gpr Reg.rdi.toGpr, a.xmm, mem⟩
  call mem _ _ args := ((args.head?.map Const.bits).getD 0, mem)

theorem Buffer.relay_definesBeforeUse : Buffer.relay.DefinesBeforeUse := by
  have hpassed : Buffer.relay.Passed
      [[], [0], [0, 1], [0, 1, 2], [0, 1, 2, 3], [0, 1, 2, 3, 4]] := by decide +kernel
  exact hpassed.definesBeforeUse (by decide +kernel)

theorem Outside.echo_fair (f : FloatModel) (m : State) : (Outside.echo f).Fair .relay m := by
  refine ⟨fun n i t site args mem hi hop hsite htys arrival hpass => ⟨fun c hc => ?_, ?_⟩,
    fun _ _ _ _ _ _ _ _ _ _ _ _ => rfl⟩
  · have hcalls : ∀ i ∈ Buffer.relay.instrs.toList, i.payload.kind = .call →
        i.opcode = .call (.val .int64) ∧
          i.callArgs.map Buffer.relay.typeOf = .replicate 8 (.val .int64) := by decide +kernel
    obtain ⟨hop', hargs⟩ := hcalls i (Array.mem_toList_iff.mpr (Array.mem_of_getElem? hi))
      (by rw [hsite]; rfl)
    cases hop.symm.trans hop'
    rw [Instr.callArgs, hsite] at hargs
    rw [hargs] at htys
    unfold Machine.Arrival.Passes at hpass
    rw [htys] at hpass
    cases args with
    | nil => cases htys
    | cons v rest =>
      -- the first argument is in `rdi`
      have hty : v.ty = .int64 := Ty.val.inj (List.cons.inj htys).1
      obtain ⟨w, rfl⟩ : ∃ w, v = .int64 w := by
        cases v with
        | int64 w => exact ⟨w, rfl⟩
        | int32 | float64 | float32 => cases hty
      have hrdi : arrival.gpr Reg.rdi.toGpr = w := (List.forall₂_cons.mp hpass).1
      cases hc
      exact hrdi
  · intro x hx
    show (if _ then _ else _) = _
    rw [if_neg (by rw [hx]; decide)]
    rfl

theorem Buffer.relay_interpret (f : FloatModel) (m : State) :
    ∃ e, ((Outside.echo f).interpret .relay m 6).1.trace = [(3, e)] ∧
      e.Avoids (Buffer.relay.Private (frameBase m)) ∧
      ((Outside.echo f).interpret .relay m 6).2
        = some (.ret (.int64 (m.argument 0 + m.argument 0))) :=
  ⟨_, rfl, trivial, rfl⟩

section

attribute [local instance] Machine.shrinking

/-- `Buffer.relay` returns twice its parameter, if its callee returns its first argument. -/
theorem compile_simulates_relay :
    ∃ asm a', ∃ (s : CodeState) (labels : List (Option Nat)),
      compile .relay 4096 ⟨.zero, #[]⟩ = .ok asm a' ∧
      s.emitter.assemble = .ok ⟨asm.code, labels⟩ ∧ ∀ m : State,
        (Outside.echo .comparing).Fair .relay m ∧ ∃ pc k x k',
          Reaches ((Outside.echo .comparing).around .relay m) s.emitter.program 0 m pc k ∧
            Machine.step ((Outside.echo .comparing).around .relay m) s.emitter.program pc k
              = .returned x k' ∧
            k'.gpr Reg.rax.toGpr = m.gpr Reg.rdi.toGpr + m.gpr Reg.rdi.toGpr := by
  obtain ⟨asm, a', hok⟩ := Step.exists_of_succeeds
    (show (compile .relay 4096).succeeds ⟨.zero, #[]⟩ = true by decide +kernel)
  obtain ⟨s, labels, -, hcode, hsim⟩ := compile_simulates Buffer.relay_validated
    (by decide +kernel) (by decide +kernel) Buffer.relay_definesBeforeUse (by decide +kernel) hok
  refine ⟨asm, a', s, labels, hok, hcode, fun m => ⟨Outside.echo_fair _ m, ?_⟩⟩
  obtain ⟨e, htrace, havoids, hret⟩ := Buffer.relay_interpret .comparing m
  obtain ⟨pcs, ks, henter, hchain, -, hend⟩ := hsim (.echo .comparing) m (Outside.echo_fair _ m) 6
    (by rw [hret]; exact fun h => nomatch h) (by
      rw [htrace]
      exact fun ev hev => List.mem_singleton.mp hev ▸ havoids)
  obtain ⟨pc, k, x, k', hreach, hstep, hback⟩ := hend _ hret
  exact ⟨pc, k, x, k', henter.trans ((Machine.Reaches.chain hchain).trans hreach), hstep,
    hback.result⟩

end

end JitBackend
