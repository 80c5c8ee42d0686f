import JitBackend.Proofs.GuardExits
import JitBackend.Proofs.Simulation

namespace JitBackend

/-!
# Received parameters

The caller passes the first six parameters in registers and the others on the stack. Before the
body, those in registers are written to their homes, for the last instruction of each position up to
the first position that has none. The body writes other homes, and the interpreter may start
with the values that are at home then: it has the parameters at every instruction, also where it
jumps over them.

* `Housed` — every value is there, as its home has it;
* `Receives` — the homes of the parameters, the code that writes them, and what they hold;
* `Outside.interpretFrom` — a run in which values are there from the outset;
* `parameters_received` — the parameters of every function that is compiled.
-/

open Machine (State Surroundings Inst Program Reaches Enclosed)
open Gen (frameBase prologueInsts leaveInsts entryInsts displacement)

/-! ### The code around the body -/

variable {l : Liveness} {limit : Nat}

/-- Between the code that sets up the frame and the code that takes it down, a function has its
    body. -/
theorem Gen.Opened.enclosed_of_exit {b : Buffer} {s t s' : CodeState} {xs : List ExitStub}
    (hO : Opened b l limit s) (hb : b.Validated) (hbody : body b l s = .ok () t) (ht : Marked t xs)
    (hext : s.emitter.Extends t.emitter) (hexit : exitPath t = .ok () s') : ∃ stop,
      Enclosed b.WrittenSlot b.outgoing s'.emitter.program (entryInsts b s) leaveInsts stop := by
  have hlabel := (exitPath_eq_ok hexit).1
  obtain ⟨_, _, hyields, e, hbound, hcode⟩ := exitPath_yields ht.saved hlabel
  rw [hexit] at hyields
  cases hyields
  refine ⟨e.count, ?_⟩
  rw [hcode]
  exact hO.enclosed hb hbody (hext.trans (hbound.grows hlabel)) hbound

/-! ### Values that stay -/

namespace Interp

variable {M : Type} {w : World M} {b : Buffer} {s : State M}

/-- Parameters keep their values. -/
theorem params_run {there : Nat → Nat → Prop} (hb : b.Validated) (hargs : b.ArgsAreValues)
    (hdef : b.Supplies there) (hs : Steady b there s)
    (hparams : ∀ v p, b.payloadAt v = some (.param p) → s.env v = some (.int64 (w.param p.toNat)))
    (n : Nat) : ∀ v p, b.payloadAt v = some (.param p) →
      (run w b n s).1.env v = some (.int64 (w.param p.toNat)) := by
  induction n generalizing s with
  | zero => exact hparams
  | succ n ih =>
    cases hstep : step w b s with
    | halt o => rwa [run_halt hstep]
    | go s' =>
      rw [run, hstep]
      have hmoves := hs.next hb hargs hdef hstep
      refine ih hmoves.steady fun v p hv => ?_
      by_cases hne : v = s.pc
      · -- the instruction of a parameter sets the value that it already has
        subst hne
        obtain ⟨i, hi, hpay⟩ := Buffer.payloadAt_eq_some hv
        rw [hs.param hb hdef hi (Buffer.opcode_of_param (hb.fits hi) hpay) hpay] at hstep
        cases hstep
        exact Function.update_self _ _ _
      · rw [hmoves.env v hne]
        exact hparams v p hv

end Interp

/-! ### Values before the body -/

theorem Const.bits_ofBits (t : ValTy) (x : BitVec 64) :
    (Const.ofBits t x).bits = Memory.lowBytes t.size x := by
  rcases t with (_ | _) | (_ | _)
  · rfl
  · exact ((BitVec.setWidth_eq _).trans (BitVec.setWidth_eq _)).symm
  · rfl
  · exact ((BitVec.setWidth_eq _).trans (BitVec.setWidth_eq _)).symm

/-- Whatever is in memory, there is a value at home. -/
theorem Activation.exists_atHome (F : Activation) (m : State) {t : ValTy} {h : Home}
    (hfits : h.Fits t) : ∃ c : Const, c.ty = t ∧ F.AtHome m c h := by
  match h, hfits with
  | .slot offset, _ =>
    refine ⟨.ofBits t (m.mem.read (F.addr offset) t.size), Const.ty_ofBits _ _, ?_⟩
    show m.mem.read _ (Const.ofBits t _).ty.size = (Const.ofBits t _).bits
    have hsize : t.size ≤ 8 := by rcases t with (_ | _) | (_ | _) <;> decide
    rw [Const.ty_ofBits, Const.bits_ofBits, Memory.lowBytes_read _ _ (Nat.le_refl _) hsize]
  | .remat (.const c), hc => exact ⟨c, hc, rfl⟩
  | .remat (.frameAddr offset), ht => exact ⟨.int64 (F.addr offset), ht.symm, rfl⟩

/-- Every value is there and can be had from its home. -/
structure Housed (b : Buffer) (F : Activation) (m : State) (env : Nat → Option Const) : Prop where
  total : ∀ v i t, b.instrs[v]? = some i → i.result = .val t → ∃ c, env v = some c
  home : ∀ v c, env v = some c → ∃ i, b.instrs[v]? = some i ∧ i.result = .val c.ty ∧
    F.AtHome m c (b.homeAt b.isNeeded v i)

namespace Housed

variable {b : Buffer} {F : Activation} {m m1 : State} {env : Nat → Option Const}

theorem exists_env (hb : b.Validated) (F : Activation) (m : State) : ∃ env, Housed b F m env := by
  have hone : ∀ v, ∃ o : Option Const,
      (∀ i t, b.instrs[v]? = some i → i.result = .val t → ∃ c, o = some c) ∧
      ∀ c, o = some c → ∃ i, b.instrs[v]? = some i ∧ i.result = .val c.ty ∧
        F.AtHome m c (b.homeAt b.isNeeded v i) := by
    intro v
    cases hi : b.instrs[v]? with
    | none => exact ⟨none, by simp, by simp⟩
    | some i =>
      cases hres : i.result with
      | void =>
        refine ⟨none, fun j t hj ht => ?_, by simp⟩
        cases hj
        rw [hres] at ht
        cases ht
      | val t =>
        obtain ⟨c, rfl, hc⟩ := F.exists_atHome m ((hb.fits hi).homeAt hres b.isNeeded)
        exact ⟨some c, by simp, by rintro _ ⟨⟩; exact ⟨i, rfl, hres, hc⟩⟩
  choose env htotal hhome using hone
  exact ⟨env, htotal, hhome⟩

theorem steady (h : Housed b F m env) (mem : Memory) :
    Interp.Steady b (fun _ _ => True) { Interp.State.initial mem with env := env } := by
  constructor
  case typed =>
    intro v c hc
    obtain ⟨i, hi, hres, -⟩ := h.home v c hc
    rw [Buffer.resultAt, hi, Option.map_some, hres]
  case valued =>
    intro v _ t ht
    obtain ⟨i, hi, hres⟩ := Option.map_eq_some_iff.mp ht
    obtain ⟨c, hc⟩ := h.total v i t hi hres
    obtain ⟨j, hj, hjres, -⟩ := h.home v c hc
    rw [hi] at hj
    cases hj
    rw [hres] at hjres
    exact ⟨c, hc, (Ty.val.inj hjres).symm⟩
  case consts =>
    intro v i c d hi hc hd
    obtain ⟨j, hj, -, hhome⟩ := h.home v d hd
    rw [hi] at hj
    cases hj
    rw [Buffer.homeAt, (Instr.constant?_eq_some hc).2] at hhome
    exact hhome.symm

/-- A parameter that was written has the value that the caller gave it. -/
theorem param {c : Surroundings} (h : Housed b (b.activation c m m1.mem) m1 env) (hb : b.Validated)
    (hadmitted : Gen.Admitted b m m1) {v : Nat} {p : BitVec 8}
    (hv : b.payloadAt v = some (.param p))
    (hreached : p.toNat < Convention.intArgs.length → b.Reached v p) :
    env v = some (.int64 (m.argument p.toNat)) := by
  obtain ⟨i, hi, hpay⟩ := Buffer.payloadAt_eq_some hv
  obtain ⟨d, hd⟩ := h.total v i .int64 hi (Buffer.result_of_param (hb.fits hi) hpay)
  obtain ⟨j, hj, hres, hhome⟩ := h.home v d hd
  rw [hi] at hj
  cases hj
  rw [Buffer.result_of_param (hb.fits hi) hpay] at hres
  obtain ⟨x, rfl⟩ : ∃ x, d = .int64 x := Const.exists_ofInt (Ty.val.inj hres).symm
  have hslot : b.homeAt b.isNeeded v i = .slot (b.paramHome v p) := by
    simp only [Buffer.homeAt, Buffer.paramHome, hpay]
    split <;> rfl
  rw [hslot] at hhome
  have hread : m1.mem.read (frameBase m + .ofInt 64 (b.paramHome v p)) 8 = x := hhome
  rw [hd, ← hread, hadmitted.params v p hv hreached]

end Housed

/-! ### Parameters are received -/

/-- Callees, and stores that do not go to the frame by themselves, leave alone what belongs to the
    call. -/
structure KeepsOut (b : Buffer) (c : Surroundings) (p : Program) (m : State) : Prop where
  callees : ∀ x, b.Private (frameBase m) x → c.hidden x = true
  stores : ∀ pc m' i a n, Reaches c p 0 m pc m' → p.items[pc]? = some (.op i) →
    i.stored? = some (a, n) → a.base.Free → ∀ x, Memory.InRange (m'.address a) n x →
      ¬b.Private (frameBase m) x

/-- In the body, the homes of parameters hold what the caller passed. -/
theorem Gen.Opened.params_held {b : Buffer} {s : CodeState} {p : Program} {stop : Nat}
    {c : Surroundings} {m m' : State} {pc : Nat} (hb : b.Validated) (hO : Gen.Opened b l limit s)
    (hneed : b.frameNeed < 2 ^ 31)
    (hE : Enclosed b.WrittenSlot b.outgoing p (entryInsts b s) leaveInsts stop)
    (hkeeps : KeepsOut b c p m) (hr : Reaches c p 0 m pc m') (hge : (entryInsts b s).length ≤ pc)
    (hlt : pc < stop) {v : Nat} {q : BitVec 8} (hv : b.payloadAt v = some (.param q))
    (hreached : q.toNat < Convention.intArgs.length → b.Reached v q) :
    m'.mem.read (frameBase m + .ofInt 64 (b.paramHome v q)) 8 = m.argument q.toNat := by
  obtain ⟨m1, hexec, hadmitted⟩ := hO.admitted hb hneed hkeeps.callees
  -- the frame stays where it is, and what is kept is as it was before the body
  have hphase : Machine.Phase c (entryInsts b s) leaveInsts stop (fun k =>
      Gen.Based b (frameBase m) k ∧ ∀ x, b.Kept (frameBase m) x → k.mem x = m1.mem x) m pc m' := by
    refine hE.phase (fun k hk => ?_) (fun n k i k' hpre hge hlt hitem hk hstep => ?_) hr
    · rw [hexec] at hk
      cases hk
      exact ⟨hadmitted.toBased, fun _ _ => rfl⟩
    · have hi := hE.body n i hge hlt hitem
      refine ⟨hk.1.kept hi hstep, fun x hx => ?_⟩
      have hpriv := Buffer.Kept.isPrivate hneed hx
      rw [← hk.2 x hx]
      apply hk.1.mem_eq hneed hi hstep
      case hslot => exact fun offset hoff => ⟨hoff.imp fun _ h => h.1, hx.apart hneed hoff⟩
      case hroom => exact hx.above_room hneed
      case hhid => exact hkeeps.callees x hpriv
      case hown => exact fun a k hs ha hin => hkeeps.stores n _ i a k hpre hitem hs ha x hin hpriv
  cases hphase with
  | entering hn => omega
  | inside _ _ hbody =>
    exact (Buffer.read_paramHome hneed hb hv hbody.2).trans (hadmitted.params v q hv hreached)
  | leaving => omega

/-- How the code of a function receives its parameters. -/
structure Receives (b : Buffer) (s : CodeState) (p : Program) (written : List Inst) (stop : Nat) :
    Prop where
  homes : ∀ v q, b.payloadAt v = some (.param q) →
    (s.values.get? v).map ValueState.home = some (.slot (b.paramHome v q))
  /-- Before the body, the frame is set up and parameters are written; the body writes other
      homes. -/
  code : Enclosed b.WrittenSlot b.outgoing p (prologueInsts s.frame.size ++ written) leaveInsts stop
  written_iff : ∀ i, i ∈ written ↔ ∃ v q r, b.Reached v q ∧
    Convention.intArgs[q.toNat]? = some r ∧
    i = storeInst .int64 ⟨Reg.rbp.toGpr, displacement (b.paramHome v q)⟩ r
  intact : ∀ i ∈ prologueInsts s.frame.size ++ written, ∀ r ∈ Convention.intArgs,
    i.writes r.toGpr = false
  held : b.frameNeed < 2 ^ 31 → ∀ (c : Surroundings) (m : State), KeepsOut b c p m →
    ∀ pc m', Reaches c p 0 m pc m' → (prologueInsts s.frame.size ++ written).length ≤ pc →
      pc < stop → ∀ v q, b.payloadAt v = some (.param q) →
      (q.toNat < Convention.intArgs.length → b.Reached v q) →
      m'.mem.read (frameBase m + .ofInt 64 (b.paramHome v q)) 8 = m.argument q.toNat

theorem Gen.prologueInsts_writes (size : Nat) {i : Inst} (hi : i ∈ prologueInsts size) {r : Reg}
    (hr : r ∈ Convention.intArgs) : i.writes r.toGpr = false := by
  have hargs : ∀ r ∈ Convention.intArgs, r.toGpr ≠ .rsp ∧ r.toGpr ≠ Reg.rbp.toGpr := by decide
  obtain ⟨hrsp, hrbp⟩ := hargs r hr
  have hrsp' : r.toGpr ≠ Reg.rsp.toGpr := hrsp
  simp only [prologueInsts, List.mem_append, List.mem_cons, List.mem_map, List.not_mem_nil,
    or_false] at hi
  rcases hi with ((rfl | rfl) | ⟨q, -, rfl⟩) | hi
  · simp [Inst.writes, hrsp]
  · simp [Inst.writes, hrbp]
  · simp [Inst.writes, hrsp]
  · split at hi
    · cases List.mem_singleton.mp hi
      simp [Inst.writes, hrsp']
    · cases hi

theorem Gen.Opened.receives {b : Buffer} {s : CodeState} {p : Program} {stop : Nat}
    (hb : b.Validated) (hO : Gen.Opened b l limit s)
    (hE : Enclosed b.WrittenSlot b.outgoing p (entryInsts b s) leaveInsts stop) :
    Receives b s p (b.paramList.flatMap (Gen.paramInsts b s.values)) stop where
  homes v q hv := by
    have hlive := hO.live_eq
    obtain ⟨s1, R, log, hP, -, -, -, -, rfl⟩ := hO.laid
    exact hP.home_of_param hb hlive hv
  code := hE
  written_iff _ := hO.mem_stores_iff hb
  intact i hi := by
    rcases List.mem_append.mp hi with hi | hi
    · exact fun _ => Gen.prologueInsts_writes _ hi
    · obtain ⟨v, q, r, -, -, rfl⟩ := (hO.mem_stores_iff hb).mp hi
      exact fun _ _ => storeInst_writes _ _ _ _
  held hneed c m hkeeps pc m' hr hge hlt v q hv hreached :=
    hO.params_held hb hneed hE hkeeps hr hge hlt hv hreached

/-- A number of instructions of a call that is made in the state `m`, as linear code whose values
    are there from the outset. -/
def Outside.interpretFrom (E : Outside) (b : Buffer) (m : State) (env : Nat → Option Const)
    (n : Nat) : Interp.State Memory × Option Interp.Outcome :=
  Interp.run (E.world b m) b n { Interp.State.initial m.mem with env := env }

/-- The code of a function receives its parameters. Before the body it writes, from the registers in
    which they are passed and to the homes of their own, those parameters that are reached, and
    nothing between the call and that changes these registers. In the body, the home of a reached
    parameter, and that of one on the stack, holds what the caller passed. If all parameters are
    reached, the interpreter has them at every instruction, and the machine follows it. -/
theorem parameters_received [Machine.BlockEncoder] {b : Buffer} (hb : b.Validated) {limit : Nat} {a a' : Account}
    {asm : Assembly} (hok : compile b limit a = .ok asm a') :
    ∃ l s0 s labels written stop, Gen.opening b limit (CodeState.initial b a) = .ok l s0 ∧
      Gen.instructions b limit (CodeState.initial b a) = .ok () s ∧
      s.emitter.assemble = .ok ⟨asm.code, labels⟩ ∧
      Receives b s0 s.emitter.program written stop ∧
      (b.ParamsReached → b.ArgsAreValues → b.frameNeed < 2 ^ 31 →
        ∀ (E : Outside) (m : State), E.Fair b m → ∃ env : Nat → Option Const,
          (∀ v p, b.payloadAt v = some (.param p) → ∀ n,
            (E.interpretFrom b m env n).1.env v = some (.int64 (m.argument p.toNat))) ∧
          ∀ n, (E.interpretFrom b m env n).2 ≠ some .trap →
            Confined b m (E.interpretFrom b m env n).1.trace →
            E.Follows b limit a m s.emitter.program (E.interpretFrom b m env) n) := by
  obtain ⟨l, s0, t, s, u, hopen, hbody, hexit, hinst, hfinish, -⟩ := Gen.compile_eq_ok hok
  have hO := (Gen.opening_ends hb a).of_ok hopen
  obtain ⟨xs, hmarked, -, hext⟩ := Gen.marked_body hopen hbody
  obtain ⟨stop, hE⟩ := hO.enclosed_of_exit hb hbody hmarked hext hexit
  have hbound := (hmarked.advance (Gen.exitPath_silent.advances hexit)).exits_bound
  obtain ⟨code, hcode, -, -, rfl⟩ := Gen.finish_eq_ok hbound hfinish
  refine ⟨l, s0, s, code.labels, _, stop, hopen, hinst, hcode, hO.receives hb hE, fun hparams hargs hneed E m hfair => ?_⟩
  obtain ⟨l, s1, e, hgen, hplace⟩ := Gen.instructions_generated hb hargs hinst
  obtain ⟨m1, henter, hadmitted⟩ := hgen.admitted hb hargs hneed
    fun x hx => (Outside.hidden_iff (E := E)).mpr hx
  have H : Underway b (fun _ _ => True) limit l s1 e s E m m1 :=
    ⟨hb, hparams, hargs, ⟨fun _ _ _ _ _ => trivial, fun _ _ => .inl trivial⟩, hneed, hgen, hfair,
      hadmitted⟩
  -- the values that are in their homes before the body
  obtain ⟨env, henv⟩ := Housed.exists_env hb (E.frame b m m1) m1
  have hstart := H.start env fun v i c hi hc => by
    obtain ⟨j, hj, -, hhome⟩ := henv.home v c hc
    obtain ⟨k, hk, -, -, hat⟩ := Buffer.infoAt_eq_some hi
    rw [hj] at hk
    cases hk
    exact hat ▸ hhome
  have hsteady := henv.steady m.mem
  refine ⟨env, fun v p hv n => ?_, fun n htrap hconf => ?_⟩
  · exact Interp.params_run hb hargs H.defines hsteady
      (fun u q hu => henv.param hb hadmitted hu (hparams u q hu)) n v p hv
  · exact H.simulates hplace henter hsteady hstart n htrap hconf

/-- A function that jumps over its parameters, which are in reverse order; the jump is not bound. -/
def Buffer.crossing : Buffer :=
  (Buffer.empty 0).appendAll [
    .plain .start [],
    ⟨.jump, .empty, .target none⟩,
    ⟨.param, .empty, .param 6⟩,
    ⟨.param, .empty, .param 5⟩,
    ⟨.param, .empty, .param 4⟩,
    ⟨.param, .empty, .param 3⟩,
    ⟨.param, .empty, .param 2⟩,
    ⟨.param, .empty, .param 1⟩,
    ⟨.param, .empty, .param 0⟩,
    .plain .label [],
    .plain (.arith .w64 .sub) [⟨0, 7⟩, ⟨0, 8⟩],
    .plain (.arith .w64 .add) [⟨0, 10⟩, ⟨0, 2⟩],
    .plain (.ret .int64) [⟨0, 11⟩]]

/-- The same with the jump bound. -/
def Buffer.crossed : Buffer :=
  Buffer.crossing.setPayload 1 (.target (some ⟨0, 9⟩))

theorem Buffer.crossed_validated : Buffer.crossed.Validated := by
  have hcrossing : Buffer.crossing.Validated :=
    (Buffer.Validated.empty 0).appendAll (by decide +kernel)
  have hset : Buffer.crossing.setTarget ⟨0, 1⟩ ⟨0, 9⟩ = .ok .crossed := rfl
  exact .setTarget hcrossing hset

theorem Buffer.crossed_interpret (f : FloatModel) (m : State) (env : Nat → Option Const)
    {x y z : BitVec 64} (hx : env 7 = some (.int64 x)) (hy : env 8 = some (.int64 y))
    (hz : env 2 = some (.int64 z)) :
    ((Outside.echo f).interpretFrom .crossed m env 6).1.trace = [(1, .jump), (9, .label)] ∧
      ((Outside.echo f).interpretFrom .crossed m env 6).2 = some (.ret (.int64 (x - y + z))) := by
  let read : Nat → Option Const := Function.update (Function.update (Function.update env 7
    (some (.int64 x))) 8 (some (.int64 y))) 2 (some (.int64 z))
  have henv : env = read := by
    simp only [read, ← hx, ← hy, ← hz, Function.update_eq_self]
  rw [henv]
  exact ⟨rfl, rfl⟩

theorem Outside.echo_fair_crossed (f : FloatModel) (m : State) :
    (Outside.echo f).Fair .crossed m := by
  have hnone : ∀ i ∈ Buffer.crossed.instrs.toList, i.payload.kind ≠ .call := by decide +kernel
  refine ⟨fun n i t site args mem hi hop hsite => ?_, fun _ _ _ _ _ _ _ _ _ _ _ _ => rfl⟩
  refine absurd ?_ (hnone i (Array.mem_toList_iff.mpr (Array.mem_of_getElem? hi)))
  rw [hsite]
  rfl

section

attribute [local instance] Machine.shrinking

/-- `Buffer.crossed` computes with parameters that come in registers and on the stack. -/
theorem parameters_received_crossed :
    ∃ asm a', ∃ (s : CodeState) (labels : List (Option Nat)),
      compile .crossed 4096 ⟨.zero, #[]⟩ = .ok asm a' ∧
      s.emitter.assemble = .ok ⟨asm.code, labels⟩ ∧ ∀ m : State, ∃ pc k x k',
        Reaches ((Outside.echo .comparing).around .crossed m) s.emitter.program 0 m pc k ∧
          Machine.step ((Outside.echo .comparing).around .crossed m) s.emitter.program pc k
            = .returned x k' ∧
          k'.gpr Reg.rax.toGpr = m.gpr Reg.rsi.toGpr - m.gpr Reg.rdi.toGpr + m.argument 6 := by
  obtain ⟨asm, a', hok⟩ := Step.exists_of_succeeds
    (show (compile .crossed 4096).succeeds ⟨.zero, #[]⟩ = true by decide +kernel)
  obtain ⟨-, -, s, labels, -, -, -, -, hcode, -, hrun⟩ :=
    parameters_received Buffer.crossed_validated hok
  have horder : Buffer.crossed.ParamsInOrder := by decide +kernel
  refine ⟨asm, a', s, labels, hok, hcode, fun m => ?_⟩
  obtain ⟨env, henv, hrun⟩ := hrun horder.reached (by decide +kernel) (by decide +kernel)
    (.echo .comparing) m (Outside.echo_fair_crossed .comparing m)
  obtain ⟨htrace, hret⟩ := Buffer.crossed_interpret .comparing m env (henv 7 1 rfl 0)
    (henv 8 0 rfl 0) (henv 2 6 rfl 0)
  obtain ⟨pcs, ks, henter, hchain, -, hend⟩ := hrun 6 (by simp [hret])
    (by simp [htrace, Confined, Interp.Event.Avoids])
  obtain ⟨pc, k, x, k', hreach, hstep, hback⟩ := hend _ hret
  exact ⟨pc, k, x, k', henter.trans ((Machine.Reaches.chain hchain).trans hreach), hstep,
    hback.result⟩

/-- A function that returns its second parameter and does not have a first one. -/
def Buffer.gapped : Buffer :=
  (Buffer.empty 0).appendAll [
    .plain .start [],
    ⟨.param, .empty, .param 1⟩,
    .plain (.ret .int64) [⟨0, 1⟩]]

/-- Where an item of the code stores. -/
def Machine.Item.stored? : Machine.Item → Option (Machine.Mem × Nat)
  | .op i => i.stored?
  | .jump _ _ => none

/-- The parameter of `Buffer.gapped` comes in a register, but its code stores nothing at all. -/
theorem Buffer.gapped_unwritten : Buffer.gapped.Validated ∧
    Buffer.gapped.payloadAt 1 = some (.param 1) ∧ ∃ asm a' s,
      compile .gapped 4096 ⟨.zero, #[]⟩ = .ok asm a' ∧
      Gen.instructions .gapped 4096 (CodeState.initial .gapped ⟨.zero, #[]⟩) = .ok () s ∧
      ∀ i, Machine.Item.op i ∈ s.emitter.items → i.stored? = none := by
  obtain ⟨asm, a', hok⟩ := Step.exists_of_succeeds
    (show (compile .gapped 4096).succeeds ⟨.zero, #[]⟩ = true by decide +kernel)
  obtain ⟨⟨⟩, s, hinst⟩ := Step.exists_of_succeeds (show
    (Gen.instructions .gapped 4096).succeeds (CodeState.initial .gapped ⟨.zero, #[]⟩) = true by
      decide +kernel)
  have hnone : ((Gen.instructions .gapped 4096).after
      (CodeState.initial .gapped ⟨.zero, #[]⟩)).emitter.items.toList.all (·.stored?.isNone) =
        true := by
    decide +kernel
  rw [Step.after_ok hinst] at hnone
  refine ⟨(Buffer.Validated.empty 0).appendAll (by decide +kernel), rfl, asm, a', s, hok, hinst,
    fun i hi => ?_⟩
  exact Option.isNone_iff_eq_none.mp (List.all_eq_true.mp hnone _ (Array.mem_toList_iff.mpr hi))

end

end JitBackend
