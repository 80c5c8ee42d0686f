import JitBackend.Proofs.CallFrame
import JitBackend.Proofs.Demand
import JitBackend.Proofs.Execution

namespace JitBackend

/-!
# Compiled code in step with linear code

While linear code is interpreted, its compiled form runs on a machine. After every instruction the
machine is at the code of the next one, and stands for the values that may still be read.

* `Outside` — what a function runs in, once as linear code and once as compiled code sees it;
  `Outside.Fair` — that the two views of its callees agree;
* `Shown` — what is observed of the machine, when the interpreter reports these events;
* `Matches` — the machine is where the interpreter is;
* `Underway.step` — it is there again after every instruction.
-/

open Machine (State Surroundings Observation Arrival Reply Reaches Runs Leads)
open Gen (frameBase savedRegs stateAt epilogueLabel)

/-! ### Stack areas -/

namespace Interp

theorem areaNumber_mono (b : Buffer) {p q : Nat} (h : p ≤ q) : areaNumber b p ≤ areaNumber b q :=
  (List.take_sublist_take_left (l := b.instrs.toList) h).countP_le

theorem areaNumber_lt {b : Buffer} {p q : Nat} (hp : b.instrs[p]?.map Instr.opcode = some .alloc)
    (h : p < q) : areaNumber b p < areaNumber b q := by
  obtain ⟨i, hi, hop⟩ := Option.map_eq_some_iff.mp hp
  have := areaNumber_mono b (show p + 1 ≤ q from h)
  rw [areaNumber_succ hi, if_pos hop] at this
  omega

end Interp

/-- Address of the stack area with a number, in the frame at a base. -/
def Buffer.areaAddress (b : Buffer) (base : BitVec 64) (n : Nat) : BitVec 64 :=
  let p := ((List.range b.size).find? fun p =>
    b.instrs[p]?.map Instr.opcode = some .alloc ∧ Interp.areaNumber b p = n).getD 0
  base + .ofInt 64 (b.lowestAt b.isNeeded (p + 1))

theorem Buffer.areaAddress_eq {b : Buffer} {k : Nat}
    (hk : b.instrs[k]?.map Instr.opcode = some .alloc) (base : BitVec 64) :
    b.areaAddress base (Interp.areaNumber b k)
      = base + .ofInt 64 (b.lowestAt b.isNeeded (k + 1)) := by
  obtain ⟨i, hi, -⟩ := Option.map_eq_some_iff.mp hk
  have hlt := Buffer.lt_size hi
  unfold areaAddress
  cases hfind : (List.range b.size).find? fun p =>
      b.instrs[p]?.map Instr.opcode = some .alloc ∧
        Interp.areaNumber b p = Interp.areaNumber b k with
  | none =>
    have := List.find?_eq_none.mp hfind k (List.mem_range.mpr hlt)
    simp [hk] at this
  | some p =>
    have hfound := List.find?_some hfind
    obtain ⟨hp, hn⟩ := of_decide_eq_true hfound
    have heq : p = k := by
      rcases Nat.lt_trichotomy p k with h | h | h
      · have := Interp.areaNumber_lt hp h
        omega
      · exact h
      · have := Interp.areaNumber_lt hk h
        omega
    rw [heq]
    rfl

/-! ### What a function runs in -/

theorem Const.ofBits_bits (c : Const) : Const.ofBits c.ty c.bits = c := by
  have hback : ∀ x : BitVec 32, (x.setWidth 64).setWidth 32 = x := fun x =>
    (BitVec.setWidth_setWidth_of_le x (by decide)).trans (BitVec.setWidth_eq x)
  cases c with
  | int32 v => exact congrArg Const.int32 (hback v)
  | int64 v => rfl
  | float64 p => rfl
  | float32 p => exact congrArg Const.float32 (hback p)

theorem LoadKind.ty_readAs (f : FloatModel) (k : LoadKind) (word : BitVec 64) :
    (k.readAs f word).ty = k.result := by
  cases k with
  | value t => exact Const.ty_ofBits t word
  | _ => rfl

/-- What a function runs in: float arithmetic, and its callees. A callee is a machine program that
    replies, and a function of its arguments and of memory. -/
structure Outside where
  float : FloatModel
  reply : BitVec 64 → Arrival → Memory → Reply
  call : Memory → Callee → Ty → List Const → BitVec 64 × Memory

/-- The result of a callee, if it has one. -/
def Ty.received (t : Ty) (bits : BitVec 64) : Option Const :=
  match t with
  | .void => none
  | .val t => some (.ofBits t bits)

namespace Outside

/-- What compiled code runs in, in a call that was made in the state `m`. -/
def around (E : Outside) (b : Buffer) (m : State) : Surroundings where
  float := E.float
  hidden x := decide (b.Private (frameBase m) x)
  reply := E.reply

/-- What linear code runs in, in the same call: memory is that of the machine, and stack areas are
    where the frame has them. -/
def world (E : Outside) (b : Buffer) (m : State) : World Memory where
  float := E.float
  param := m.argument
  area := b.areaAddress (frameBase m)
  load mem k a := ((k.readAs E.float (mem.read a k.bytes)).bits, mem)
  store mem k a v := mem.write a k.bytes v
  call := E.call

/-- Callees do the same for compiled code as for linear code: what they do depends on their
    arguments and on memory that is not private to the caller, and those that are said to store
    nothing leave memory as it is. -/
structure Fair (E : Outside) (b : Buffer) (m : State) : Prop where
  replies : ∀ (n : Nat) (i : Instr) (t : Ty) (site : CallSite) (args : List Const) (mem : Memory),
    b.instrs[n]? = some i → i.opcode = .call t → i.payload = .call site →
    (args.map fun c => Ty.val c.ty) = site.args.map b.typeOf →
    Replies (E.around b m) site.callee args mem (t.received (E.call mem site.callee t args).1)
      (E.call mem site.callee t args).2
  harmless : ∀ (n : Nat) (i : Instr) (t : Ty) (site : CallSite) (args : List Const) (mem : Memory),
    b.instrs[n]? = some i → i.opcode = .call t → i.payload = .call site →
    site.callee.hasEffects = false →
    ∀ x, ¬b.Private (frameBase m) x → (E.call mem site.callee t args).2 x = mem x

/-- The frame in which the body runs, entered in the state `m1`. -/
def frame (E : Outside) (b : Buffer) (m m1 : State) : Activation :=
  b.activation (E.around b m) m m1.mem

variable {E : Outside} {b : Buffer} {m : State} {x : BitVec 64}

theorem hidden_iff : (E.around b m).hidden x = true ↔ b.Private (frameBase m) x :=
  decide_eq_true_iff

theorem visible_iff : (E.around b m).hidden x = false ↔ ¬b.Private (frameBase m) x :=
  decide_eq_false_iff_not

/-- Loads make the same of memory. -/
theorem stepLoad_eq (E : Outside) (b : Buffer) (m : State) (σ : Interp.State Memory)
    (kind : LoadKind) (disp : BitVec 32) (base : BitVec 64) :
    Interp.stepLoad (E.world b m) σ kind disp [.int64 base]
      = let a := base + disp.signExtend 64
        let v := kind.readAs E.float (σ.mem.read a kind.bytes)
        .go ((σ.note (.load kind a v)).define v).advance := by
  have hv : ∀ word, Const.ofBits kind.result (kind.readAs E.float word).bits
      = kind.readAs E.float word := fun word => by
    rw [← kind.ty_readAs E.float word, Const.ofBits_bits]
  exact congrArg (fun v => Interp.finishWith (σ.note (.load kind _ v)) v) (hv _)

end Outside

/-! ### What can be observed -/

/-- What is observed of a machine that runs the code of an instruction with an event. -/
inductive Shows (f : FloatModel) : Interp.Event → List Observation → Prop
  | load (k : LoadKind) (a word : BitVec 64) :
      Shows f (.load k a (k.readAs f word)) [.load a k.bytes word]
  | store (k : StoreKind) (a : BitVec 64) (v : Const) :
      Shows f (.store k a v) [.store a k.bytes (Memory.lowBytes k.bytes v.bits)]
  | call (callee : Callee) (args : List Const) (result : Option Const) (a : Arrival)
      (h : a.Passes args) : Shows f (.call callee args result) [.call callee.address.word a]
  | label : Shows f .label []
  | jump : Shows f .jump []
  | branch (taken : Bool) : Shows f (.branch taken) []
  | table (index : BitVec 32) : Shows f (.table index) []

/-- The event need not be observed if nothing uses its value. -/
def Interp.Event.isOptional : Interp.Event → Bool
  | .load .. => true
  | .call callee .. => !callee.hasEffects
  | _ => false

/-- What is observed of a machine, when these events are reported. Loads and calls without effects
    are left out where their instructions are not needed. -/
inductive Shown (b : Buffer) (f : FloatModel) : List (Nat × Interp.Event) → List Observation → Prop
  | nil : Shown b f [] []
  | note {es : List (Nat × Interp.Event)} {obs os : List Observation} {n : Nat} {e : Interp.Event}
      (h : Shown b f es obs) (hn : b.isNeeded n = true) (he : Shows f e os) :
      Shown b f (es ++ [(n, e)]) (obs ++ os)
  | drop {es : List (Nat × Interp.Event)} {obs : List Observation} {n : Nat} {e : Interp.Event}
      (h : Shown b f es obs) (hn : b.isNeeded n = false) (he : e.isOptional = true) :
      Shown b f (es ++ [(n, e)]) obs

theorem Shown.append_nil {b : Buffer} {f : FloatModel} {es : List (Nat × Interp.Event)}
    {obs : List Observation} (h : Shown b f es obs) : Shown b f es (obs ++ []) := by
  rw [List.append_nil]
  exact h

/-- The event touches none of these addresses. -/
def Interp.Event.Avoids (P : BitVec 64 → Prop) : Interp.Event → Prop
  | .load k a _ => ∀ x, Memory.InRange a k.bytes x → ¬P x
  | .store k a _ => ∀ x, Memory.InRange a k.bytes x → ¬P x
  | _ => True

/-- In a call that was made in the state `m`, loads and stores keep out of the frame, except for
    the stack areas. -/
def Confined (b : Buffer) (m : State) (es : List (Nat × Interp.Event)) : Prop :=
  ∀ e ∈ es, e.2.Avoids (b.Private (frameBase m))

/-! ### Where the machine is -/

/-- What the machine stands for when linear code is in the state `σ`. -/
def Buffer.view (b : Buffer) (m : State) (σ : Interp.State Memory) (obs : List Observation) :
    View :=
  ⟨σ.env, (b.Wanted · σ.pc), σ.mem, m.trace ++ obs⟩

/-- The machine is where the interpreter is: before the code of an instruction, or behind that of a
    label which it jumped to. -/
inductive Matches (b : Buffer) (l : Liveness) (s : CodeState) (E : Outside) (m m1 : State)
    (σ : Interp.State Memory) : Nat → State → Prop
  | before {obs : List Observation} {k : State} (hpc : σ.pc ≤ b.size)
      (hobs : Shown b E.float σ.trace obs)
      (h : Represents (E.frame b m m1) (b.view m σ obs) (stateAt b l s σ.pc).values k) :
      Matches b l s E m m1 σ (stateAt b l s σ.pc).emitter.count k
  | landed {obs : List Observation} {k : State} (hlabel : b.IsLabel σ.pc)
      (hobs : Shown b E.float σ.trace obs)
      (h : Settled (E.frame b m m1) (b.view m σ obs) (b.infoAt b.isNeeded) k) :
      Matches b l s E m m1 σ (stateAt b l s (σ.pc + 1)).emitter.count k

/-- What a function that ended in this way leaves in the machine. -/
def Interp.Outcome.Left (o : Interp.Outcome) (k : Machine.State) : Prop :=
  match o with
  | .ret v => k.Holds (Gen.resultReg (.val v.ty)) v
  | .exit g => k.gpr Reg.rax.toGpr = g.record
  | .endOfCode => True
  | .trap | .stuck => False

/-- The machine is where the frame is taken down, when linear code ended in the state `σ`. -/
structure Finished (b : Buffer) (E : Outside) (m m1 : State) (σ : Interp.State Memory)
    (o : Interp.Outcome) (k : State) : Prop where
  framed : ∃ obs, Shown b E.float σ.trace obs ∧ Framed (E.frame b m m1) (b.view m σ obs) k
  left : o.Left k

/-- A call of compiled code that has got to the body. Values are there when `there` says so. -/
structure Underway (b : Buffer) (there : Nat → Nat → Prop) (limit : Nat) (l : Liveness)
    (s : CodeState) (e : Machine.Emitter) (s' : CodeState) (E : Outside) (m m1 : State) : Prop where
  valid : b.Validated
  params : b.ParamsReached
  args : b.ArgsAreValues
  defines : b.Supplies there
  need : b.frameNeed < 2 ^ 31
  code : Gen.Generated b limit l s e s'
  fair : E.Fair b m
  admitted : Gen.Admitted b m m1

/-- The machine answers a step of the interpreter. -/
def Answers (b : Buffer) (l : Liveness) (s : CodeState) (e : Machine.Emitter) (s' : CodeState)
    (E : Outside) (m m1 : State) (σ : Interp.State Memory) (pc : Nat) (k : State) :
    Interp.Next Memory → Prop
  | .go σ' => ∃ pc' k', Reaches (E.around b m) s'.emitter.program pc k pc' k' ∧
      Matches b l s E m m1 σ' pc' k'
  | .halt o => o ≠ .trap → ∃ k', Reaches (E.around b m) s'.emitter.program pc k e.count k' ∧
      Finished b E m m1 σ o k'

/-- The machine answers a step from before the code of the instruction. -/
abbrev AnswersAt (b : Buffer) (l : Liveness) (s : CodeState) (e : Machine.Emitter)
    (s' : CodeState) (E : Outside) (m m1 : State) (σ : Interp.State Memory) (k : State)
    (x : Interp.Next Memory) : Prop :=
  Answers b l s e s' E m m1 σ (stateAt b l s σ.pc).emitter.count k x

/-! ### The code of the body -/

theorem Gen.Landed.quiet {info : Infos} {left : Nat → Nat} {n label : Nat}
    {s s1 s2 : CodeState} (h : Gen.Landed info left n label s s1) (hq : Gen.Quiet s1 s2) :
    Gen.Landed info left n label s s2 := by
  obtain ⟨h1, h2, h3, h4, h5, h6, h7, h8, h9, h10, h11, h12⟩ := h
  refine ⟨hq.coherent h1, hq.pinned.trans h2, hq.regs ▸ h3, hq.emitter ▸ h4, hq.emitter ▸ h5,
    hq.emitter ▸ h6, hq.emitter ▸ h7, hq.frame.trans h8, hq.labels.trans h9, hq.exits.trans h10,
    hq.emitter ▸ h11, hq.emitter ▸ h12⟩

namespace Underway

variable {b : Buffer} {there : Nat → Nat → Prop} {limit : Nat} {l : Liveness} {s : CodeState}
  {e : Machine.Emitter} {s' : CodeState} {E : Outside} {m m1 : State}
  (H : Underway b there limit l s e s' E m m1)
  {σ σ' : Interp.State Memory} {i : Instr} {n pc : Nat} {k : State} {obs os : List Observation}

include H

theorem live_eq : l.isLive = b.isNeeded :=
  funext H.code.opened.live_eq

theorem sound : (E.frame b m m1).Sound (b.infoAt b.isNeeded) :=
  Buffer.activation_sound H.need fun _ => Outside.hidden_iff

theorem room : (E.frame b m m1).Room (b.infoAt b.isNeeded) b.outgoing :=
  Buffer.activation_room H.need fun _ => Outside.hidden_iff

theorem within (hn : n ≤ b.size) : (stateAt b l s n).emitter.Within s'.emitter.program :=
  H.code.within H.valid H.args hn

theorem emitted (hn : n ≤ b.size) :
    Gen.Emitted b l (b.infoAt b.isNeeded) n (stateAt b l s n) := by
  have hO := H.code.opened
  rw [← H.live_eq]
  exact (Gen.bodyUpTo_ok H.valid H.args hO.analysis (Gen.homed_infoAt H.valid) hO.emitted
    hO.targets hn).2

theorem stepped (hi : b.instrs[n]? = some i) :
    Gen.Stepped b l (b.infoAt b.isNeeded) n i (stateAt b l s n) (stateAt b l s (n + 1)) := by
  have hO := H.code.opened
  rw [← H.live_eq]
  exact Gen.stateAt_stepped H.valid H.args hO.analysis (Gen.homed_infoAt H.valid) hO.emitted
    hO.targets hi

/-- The code of a needed instruction. -/
theorem emission (hi : b.instrs[n]? = some i) (hlive : b.isNeeded n = true) :
    ∃ s1, Gen.Quiet s1 (stateAt b l s (n + 1)) ∧
      Gen.Emission b (b.infoAt b.isNeeded) (l.left b n) (b.regionStart n) n i (stateAt b l s n)
        s1 := by
  obtain ⟨s1, -, hquiet, hem⟩ := (H.stepped hi).code (by rw [H.live_eq]; exact hlive)
  exact ⟨s1, hquiet, hem⟩

theorem label_needed (hn : b.IsLabel n) : b.isNeeded n = true := by
  obtain ⟨i, hi, hop⟩ := Option.map_eq_some_iff.mp hn
  cases hdead : b.isNeeded n with
  | true => rfl
  | false =>
    rw [← H.live_eq] at hdead
    exact absurd hop (Gen.not_label_of_dead H.valid H.code.opened.analysis hi hdead)

/-- The code of a label. -/
theorem landed (hn : b.IsLabel n) : Gen.Landed (b.infoAt b.isNeeded) (l.left b n) n
    (b.labelNumber n) (stateAt b l s n) (stateAt b l s (n + 1)) := by
  obtain ⟨i, hi, hop⟩ := Option.map_eq_some_iff.mp hn
  obtain ⟨s1, hquiet, hem⟩ := H.emission hi (H.label_needed hn)
  cases hem with
  | label _ h => exact h.quiet hquiet
  | silent h | value h | load _ h | store _ h | live _ h | call _ _ h | jump _ h | branch _ _ h
  | table _ h | ret _ h | exit _ h => rw [hop] at h; cases h

/-- The labels of the code. -/
theorem target (hn : b.IsLabel n) :
    s'.emitter.program.target (b.labelNumber n) = some (stateAt b l s (n + 1)).emitter.count :=
  (H.within hn.lt).labels _ _ (H.landed hn).here

/-- Behind a label no value is in a register. -/
theorem afterLabel (hlabel : b.IsLabel σ.pc)
    (hset : Settled (E.frame b m m1) (b.view m σ obs) (b.infoAt b.isNeeded) k) :
    Represents (E.frame b m m1) { b.view m σ obs with need := (b.Wanted · (σ.pc + 1)) }
      (stateAt b l s (σ.pc + 1)).values k := by
  obtain ⟨i, hi, hop⟩ := Option.map_eq_some_iff.mp hlabel
  have hres : i.result = .void := by rw [Instr.result, hop]; rfl
  have hcoh := (H.emitted (show σ.pc + 1 ≤ b.size from hlabel.lt)).coherent
  refine hset.represents (fun v j hj hw => ?_) fun v x hx => ⟨?_, hcoh.homes v x hx⟩
  · refine .later ?_ (Buffer.next_mem_successors hi (by rw [hop]; rfl)) hw
    rintro rfl
    rw [Gen.infoAt_of_void hi hres] at hj
    cases hj
  · cases hr : x.reg with
    | none => rfl
    | some r =>
      -- the register would have an owner
      obtain ⟨j, -, he⟩ := hcoh.entries v x hx
      have howner := (hcoh.owned r v (he.placed r hr).1.isMachine).mpr (.inl ⟨x, hx, hr⟩)
      rw [(H.landed hlabel).empty r] at howner
      cases howner

theorem leaving : s'.emitter.program.target epilogueLabel = some e.count :=
  H.code.within_end.labels _ _ (H.code.bound.self H.code.body.epilogue)

end Underway

/-- The machine is before the code of the needed instruction `i`. -/
structure Ahead (b : Buffer) (there : Nat → Nat → Prop) (l : Liveness) (s : CodeState) (E : Outside)
    (m m1 : State) (σ : Interp.State Memory) (i : Instr) (obs : List Observation) (k : State) :
    Prop where
  steady : Interp.Steady b there σ
  instr : b.instrs[σ.pc]? = some i
  live : b.isNeeded σ.pc = true
  shown : Shown b E.float σ.trace obs
  stands : Represents (E.frame b m m1) (b.view m σ obs) (stateAt b l s σ.pc).values k

theorem Instr.Fits.uses_eq {b : Buffer} {n : Nat} {i : Instr} (h : i.Fits b n)
    (hkind : i.opcode.payloadKind ≠ .call) : i.uses = i.operandList := by
  rw [Instr.uses, Gen.callArgs_of_kind (h.kind ▸ hkind), List.append_nil]

namespace Underway

variable {b : Buffer} {there : Nat → Nat → Prop} {limit : Nat} {l : Liveness} {s s1 : CodeState}
  {e : Machine.Emitter} {s' : CodeState} {E : Outside} {m m1 : State} {σ σ' : Interp.State Memory}
  {i : Instr} {pc : Nat} {k : State} {obs os : List Observation} {ops : List Handle}
  {args : List Const}

/-- Values have the types that were settled. -/
theorem typed (hσ : Interp.Steady b there σ) (obs : List Observation) :
    (b.view m σ obs).Typed (b.infoAt b.isNeeded) := by
  intro v j c hj hc
  obtain ⟨ins, hins, hres, -⟩ := Buffer.infoAt_eq_some hj
  have hty := hσ.typed v c hc
  rw [Buffer.resultAt, hins, Option.map_some, hres] at hty
  exact Ty.val.inj (Option.some.inj hty)

variable (H : Underway b there limit l s e s' E m m1) (A : Ahead b there l s E m m1 σ i obs k)
  {x : Handle} {site : CallSite}

include H A

/-- What a needed instruction reads is wanted. -/
theorem reads (hops : ∀ x ∈ ops, x ∈ i.uses) (henv : Interp.Reads σ.env ops args) :
    (b.view m σ obs).Reads ops args := by
  induction henv with
  | nil => exact .nil
  | @cons x c _ _ hx _ ih =>
    have hneed : b.Wanted x.index σ.pc :=
      .here A.instr ((H.valid.isNeeded_iff _).mp A.live) (hops x (by simp)) rfl
    exact .cons ⟨⟨⟨c, hx⟩, hneed⟩, hx⟩ (ih fun y hy => hops y (by simp [hy]))

theorem operands (henv : Interp.Reads σ.env i.operandList args) :
    (b.view m σ obs).Reads i.operandList args :=
  H.reads A (fun _ hx => List.mem_append_left _ hx) henv

theorem needStep (hops : i.uses = ops) (hlabel : i.opcode ≠ .label)
    (hfalls : i.opcode.fallsThrough = true) :
    Gen.NeedStep (b.view m σ obs).need (b.Wanted · (σ.pc + 1)) (Gen.usesAfter (l.left b σ.pc) ops)
      (b.regionStart σ.pc) σ.pc := by
  rw [← hops, Gen.usesAfter_left A.instr (by rw [H.live_eq]; exact A.live)]
  exact Gen.needStep_wanted H.valid H.code.opened.analysis A.instr hlabel
    (Buffer.next_mem_successors A.instr hfalls)

/-- Nothing is wanted of an instruction without a result. -/
theorem not_wanted (hres : i.result = .void) (q : Nat) : ¬b.Wanted σ.pc q := by
  intro h
  obtain ⟨t, ht⟩ := h.isValue H.valid H.args
  rw [Buffer.resultAt, A.instr, Option.map_some, hres] at ht
  cases ht

omit H in
/-- Arguments on the stack have room at the bottom of the frame. -/
theorem stack_le (hpay : i.payload = .call site)
    (htys : (args.map fun c => Ty.val c.ty) = site.args.map b.typeOf) :
    (Assigner.fresh.arguments (args.map fun c => Ty.val c.ty)).2.stack ≤ b.outgoing := by
  refine Nat.le_trans (le_roundUp _ (show 0 < 16 by decide)) ?_
  rw [htys]
  refine Nat.le_trans (Nat.le_of_eq (b.stackSize_eq site)) ?_
  have hbytes : b.argBytes i = roundUp (8 * b.stackArgs site) 16 := by
    simp only [Buffer.argBytes, hpay]
  rw [← hbytes]
  exact Buffer.argBytes_le_outgoing A.live A.instr

variable (hquiet : Gen.Quiet s1 (stateAt b l s (σ.pc + 1)))

include hquiet

/-- Control goes to a label. -/
theorem land (hres : i.result = .void) (hx : b.IsLabel x.index) (hmem : some x ∈ i.targets)
    (h : Gen.Departs (b.infoAt b.isNeeded) ops args (stateAt b l s σ.pc) s1 (b.labelNumber x.index)
      fun F V => Settled F V (b.infoAt b.isNeeded)) (hreads : (b.view m σ obs).Reads ops args)
    {ev : Interp.Event} (hev : Shows E.float ev []) :
    AnswersAt b l s e s' E m m1 σ k (Interp.goto b (σ.note ev) (some x)) := by
  have hlt : σ.pc < b.size := (Array.getElem?_eq_some_iff.mp A.instr).1
  obtain ⟨y, hy, hown, -⟩ := H.code.opened.targets σ.pc i A.instr _ hmem
  cases hy
  obtain ⟨k', hreach, hset⟩ := h _ _ H.sound (typed A.steady obs) hreads _ _
    (hquiet.emitter ▸ H.within hlt) (H.target hx) k A.stands
  rw [Interp.goto_of_isLabel hown hx]
  have hshown : Shown b E.float (σ.trace ++ [(σ.pc, ev)]) (obs ++ []) := .note A.shown A.live hev
  rw [List.append_nil] at hshown
  refine ⟨_, k', hreach, .landed hx hshown
    ⟨⟨hset.rbp, hset.rsp, hset.fixed, hset.visible, hset.trace⟩, fun v j c hj hc hw => ?_⟩⟩
  refine hset.homes v j c hj hc (.later ?_ (Buffer.landing_mem_successors A.instr hmem hown hx) hw)
  rintro rfl
  rw [Gen.infoAt_of_void A.instr hres] at hj
  cases hj

/-- Control goes on with the code of the next instruction. -/
theorem onward {B : State → Prop}
    (hrun : Runs (E.around b m) (stateAt b l s σ.pc).emitter s1.emitter
      (Represents (E.frame b m m1) (b.view m σ obs) (stateAt b l s σ.pc).values) B)
    (hpc : σ'.pc = σ.pc + 1) (hB : ∀ k', B k' → ∃ os, Shown b E.float σ'.trace (obs ++ os) ∧
      Represents (E.frame b m m1) ⟨σ'.env, (b.Wanted · (σ.pc + 1)), σ'.mem, m.trace ++ obs ++ os⟩
        s1.values k') :
    AnswersAt b l s e s' E m m1 σ k (.go σ') := by
  have hlt : σ.pc < b.size := (Array.getElem?_eq_some_iff.mp A.instr).1
  obtain ⟨k', hreach, hk'⟩ := hrun _ (hquiet.emitter ▸ H.within hlt) k A.stands
  obtain ⟨os, hos, hrep⟩ := hB k' hk'
  have hmatch := Matches.before (l := l) (s := s) (σ := σ') (by rw [hpc]; exact hlt) hos
    (by rw [hpc, hquiet.values, Buffer.view, hpc, ← List.append_assoc]; exact hrep)
  rw [hpc, hquiet.emitter] at hmatch
  exact ⟨_, k', hreach, hmatch⟩

/-- The code of an instruction with operands and a result. -/
theorem performed {R : Gen.Semantics} {v : Const}
    (h : Gen.Performed (b.infoAt b.isNeeded) (l.left b σ.pc) (b.regionStart σ.pc) σ.pc
      i.operandList R (stateAt b l s σ.pc) s1)
    (hop : i.opcode.payloadKind ≠ .call ∧ i.opcode ≠ .label ∧ i.opcode.fallsThrough = true)
    (henv : Interp.Reads σ.env i.operandList args)
    (hR : R (E.frame b m m1) (b.view m σ obs) args os v) (hpc : σ'.pc = σ.pc + 1)
    (hset : σ'.env = Function.update σ.env σ.pc (some v)) (hmem : σ'.mem = σ.mem)
    (hshown : Shown b E.float σ'.trace (obs ++ os)) : AnswersAt b l s e s' E m m1 σ k (.go σ') := by
  refine H.onward A hquiet (h.delivers _ _ _ _ _ _ H.sound (typed A.steady obs)
    (H.needStep A ((H.valid.fits A.instr).uses_eq hop.1) hop.2.1 hop.2.2) (H.operands A henv) hR)
    hpc fun k' hk' => ⟨os, hshown, ?_⟩
  rw [hset, hmem]
  exact hk'

/-- The code of an instruction with operands and without a result. -/
theorem affected {R : Gen.Effects}
    (h : Gen.Affected (b.infoAt b.isNeeded) (l.left b σ.pc) (b.regionStart σ.pc) σ.pc
      i.operandList R (stateAt b l s σ.pc) s1)
    (hop : i.opcode.payloadKind ≠ .call ∧ i.opcode ≠ .label ∧ i.opcode.fallsThrough = true)
    (hres : i.opcode.result = .void) (henv : Interp.Reads σ.env i.operandList args)
    (hR : R (E.frame b m m1) (b.view m σ obs) args σ'.mem os) (hpc : σ'.pc = σ.pc + 1)
    (hkeep : σ'.env = σ.env) (hshown : Shown b E.float σ'.trace (obs ++ os)) :
    AnswersAt b l s e s' E m m1 σ k (.go σ') := by
  refine H.onward A hquiet (h.affects _ _ _ _ _ _ H.sound (typed A.steady obs)
    (H.needStep A ((H.valid.fits A.instr).uses_eq hop.1) hop.2.1 hop.2.2) (H.not_wanted A hres _)
    (H.operands A henv) hR) hpc fun k' hk' => ⟨os, hshown, ?_⟩
  rw [hkeep]
  exact hk'

/-- An operation without effects. -/
theorem value (hop : i.opcode.effect = .pure) (himm : i.opcode.isImmediate = false)
    (h : Gen.Performed (b.infoAt b.isNeeded) (l.left b σ.pc) (b.regionStart σ.pc) σ.pc
      i.operandList (Gen.Pure i.opcode) (stateAt b l s σ.pc) s1) :
    AnswersAt b l s e s' E m m1 σ k (Interp.step (E.world b m) b σ) := by
  have hspec : i.opcode.payloadKind ≠ .call ∧ i.opcode ≠ .label ∧ i.opcode.fallsThrough = true := by
    revert hop
    cases i.opcode <;> simp [Opcode.effect, Opcode.payloadKind, Opcode.fallsThrough]
  rcases A.steady.value H.valid H.defines A.instr hop himm (w := E.world b m) with
    ⟨args, v, henv, hv, -, hstep⟩ | htrap
  · rw [hstep]
    exact H.performed A hquiet h hspec henv ⟨rfl, hv⟩ rfl rfl rfl A.shown.append_nil
  · rw [htrap]
    exact fun hne => absurd rfl hne

theorem load {kind : LoadKind} (hop : i.opcode = .load kind)
    (h : Gen.Performed (b.infoAt b.isNeeded) (l.left b σ.pc) (b.regionStart σ.pc) σ.pc
      i.operandList (Gen.Loads kind i.displacement) (stateAt b l s σ.pc) s1)
    (hconf : ∀ σ', Interp.step (E.world b m) b σ = .go σ' → Confined b m σ'.trace) :
    AnswersAt b l s e s' E m m1 σ k (Interp.step (E.world b m) b σ) := by
  obtain ⟨base, henv, hstep⟩ := A.steady.load H.valid H.defines A.instr hop (w := E.world b m)
  rw [Outside.stepLoad_eq] at hstep
  -- the load was reported, so it keeps out of the frame
  have hout := hconf _ hstep _ (List.mem_append_right _ (List.mem_singleton_self _))
  rw [hstep]
  exact H.performed A hquiet h (by simp [hop, Opcode.payloadKind, Opcode.fallsThrough]) henv
    ⟨base, rfl, fun y hy => Outside.visible_iff.mpr (hout y hy), rfl, rfl⟩ rfl rfl rfl
    (.note A.shown A.live (.load kind _ _))

theorem store {kind : StoreKind} (hop : i.opcode = .store kind)
    (h : Gen.Affected (b.infoAt b.isNeeded) (l.left b σ.pc) (b.regionStart σ.pc) σ.pc
      i.operandList (Gen.Stores kind i.displacement) (stateAt b l s σ.pc) s1)
    (hconf : ∀ σ', Interp.step (E.world b m) b σ = .go σ' → Confined b m σ'.trace) :
    AnswersAt b l s e s' E m m1 σ k (Interp.step (E.world b m) b σ) := by
  obtain ⟨v, base, henv, hstep⟩ := A.steady.store H.valid H.defines A.instr hop (w := E.world b m)
  have hout := hconf _ hstep _ (List.mem_append_right _ (List.mem_singleton_self _))
  rw [hstep]
  exact H.affected A hquiet h (by simp [hop, Opcode.payloadKind, Opcode.fallsThrough])
    (by rw [hop]; rfl) henv ⟨v, base, rfl, fun z hz => Outside.visible_iff.mpr (hout z hz), rfl, rfl⟩
    rfl rfl (.note A.shown A.live (.store kind _ v))

/-- An instruction that keeps a value alive. -/
theorem keepAlive {t : ValTy} (hop : i.opcode = .live t)
    (h : Gen.Affected (b.infoAt b.isNeeded) (l.left b σ.pc) (b.regionStart σ.pc) σ.pc
      i.operandList Gen.Idles (stateAt b l s σ.pc) s1) :
    AnswersAt b l s e s' E m m1 σ k (Interp.step (E.world b m) b σ) := by
  obtain ⟨args, henv, -, -⟩ := A.steady.operands H.valid H.defines A.instr (w := E.world b m)
  rw [A.steady.skip H.valid H.defines A.instr (.inr (.inr ⟨t, hop⟩))]
  exact H.affected A hquiet h (by simp [hop, Opcode.payloadKind, Opcode.fallsThrough])
    (by rw [hop]; rfl) henv ⟨rfl, rfl⟩ rfl rfl A.shown.append_nil

theorem call {t : Ty} (hop : i.opcode = .call t) (hpay : i.payload = .call site)
    (h : Gen.Calls (b.infoAt b.isNeeded) (Gen.usesAfter (l.left b σ.pc) site.args)
      (b.regionStart σ.pc) σ.pc site (stateAt b l s σ.pc) s1) :
    AnswersAt b l s e s' E m m1 σ k (Interp.step (E.world b m) b σ) := by
  have hfit := H.valid.fits A.instr
  have huses : i.uses = site.args := by
    have hops : i.operandList = [] := by
      have := hfit.operands
      rw [hop] at this
      exact List.forall₂_nil_right_iff.mp this
    rw [Instr.uses, hops, List.nil_append]
    simp only [Instr.callArgs, hpay]
  have hresult : i.result = t := by rw [Instr.result, hop]; rfl
  obtain ⟨args, henv, htys, hstep⟩ :=
    A.steady.call H.valid H.defines A.instr H.args hop hpay (w := E.world b m)
  have hcall : Gen.Calling (E.frame b m m1) (b.view m σ obs) (b.infoAt b.isNeeded) site args _ _ :=
    ⟨H.sound, typed A.steady obs, H.reads A (fun x hx => huses ▸ hx) henv,
      H.room.mono (stack_le A hpay htys),
      H.fair.replies σ.pc i t site args σ.mem A.instr hop hpay htys⟩
  have hrun := h _ _ args _ _ _ hcall (H.needStep A huses (by simp [hop]) (by rw [hop]; rfl))
  rw [hstep]
  cases t with
  | void =>
    refine H.onward A hquiet (hrun (fun c hc => by cases hc) fun _ =>
      ⟨Gen.infoAt_of_void A.instr hresult, H.not_wanted A hresult _⟩) rfl ?_
    rintro k' ⟨a, hpass, hk'⟩
    exact ⟨_, .note A.shown A.live (.call site.callee args none a hpass), hk'⟩
  | val t =>
    refine H.onward A hquiet (hrun (fun c hc => ?_) fun hnone => by cases hnone) rfl ?_
    · obtain ⟨j, hj, hjt, -⟩ := Buffer.infoAt_of_live A.instr hfit hresult A.live
      cases hc
      exact ⟨j, hj, hjt.trans (Const.ty_ofBits _ _).symm⟩
    · rintro k' ⟨a, hpass, hk'⟩
      exact ⟨_, .note A.shown A.live (.call site.callee args (some _) a hpass), hk'⟩

theorem jump (hop : i.opcode = .jump) (hx : i.target? = some x) (hlabel : b.IsLabel x.index)
    (h : Gen.Departs (b.infoAt b.isNeeded) [] [] (stateAt b l s σ.pc) s1 (b.labelNumber x.index)
      fun F V => Settled F V (b.infoAt b.isNeeded)) :
    AnswersAt b l s e s' E m m1 σ k (Interp.step (E.world b m) b σ) := by
  have hmem : some x ∈ i.targets := hx ▸ Instr.mem_targets
    ((H.valid.fits A.instr).kind.trans (by rw [hop]; rfl))
  rw [A.steady.jump H.valid H.defines A.instr hop, hx]
  exact H.land A hquiet (by rw [Instr.result, hop]; rfl) hlabel hmem h .nil .jump

theorem branch {sense : Bool} (hop : i.opcode = .branch sense) (hx : i.target? = some x)
    (hlabel : b.IsLabel x.index)
    (hstay : Gen.Affected (b.infoAt b.isNeeded) (l.left b σ.pc) (b.regionStart σ.pc) σ.pc
      i.operandList (Gen.Stays sense) (stateAt b l s σ.pc) s1)
    (h : ∀ n, ((n != 0) == sense) = true → Gen.Departs (b.infoAt b.isNeeded) i.operandList
      [.int32 n] (stateAt b l s σ.pc) s1 (b.labelNumber x.index)
      fun F V => Settled F V (b.infoAt b.isNeeded)) :
    AnswersAt b l s e s' E m m1 σ k (Interp.step (E.world b m) b σ) := by
  have hmem : some x ∈ i.targets := hx ▸ Instr.mem_targets
    ((H.valid.fits A.instr).kind.trans (by rw [hop]; rfl))
  obtain ⟨n, henv, hstep⟩ := A.steady.branch H.valid H.defines A.instr hop (w := E.world b m)
  rw [hstep, hx, Interp.stepBranch]
  by_cases hc : (n ≠ 0) = sense
  · rw [if_pos hc]
    exact H.land A hquiet (by rw [Instr.result, hop]; rfl) hlabel hmem
      (h n (by cases sense <;> simp_all)) (H.operands A henv) (.branch true)
  · rw [if_neg hc]
    exact H.affected A hquiet hstay (by simp [hop, Opcode.payloadKind, Opcode.fallsThrough])
      (by rw [hop]; rfl) henv ⟨⟨n, rfl, by cases sense <;> simp_all⟩, rfl, rfl⟩ rfl rfl
      (.note A.shown A.live (.branch false))

/-- A jump through a table. -/
theorem table {cells : Array Cell} (hop : i.opcode = .jumpTable) (hpay : i.payload = .table cells)
    (hlabels : ∀ t ∈ Cell.labels cells, b.IsTarget t)
    (h : ∀ (n : BitVec 32) x, (Cell.labels cells)[n.toNat]? = some (some x) →
      Gen.Departs (b.infoAt b.isNeeded) i.operandList [.int32 n] (stateAt b l s σ.pc) s1
        (b.labelNumber x.index) fun F V => Settled F V (b.infoAt b.isNeeded)) :
    AnswersAt b l s e s' E m m1 σ k (Interp.step (E.world b m) b σ) := by
  obtain ⟨n, henv, hstep⟩ :=
    A.steady.table H.valid H.defines A.instr hop hpay (w := E.world b m)
  rw [hstep, Interp.stepTable]
  cases ht : (Cell.labels cells)[n.toNat]? with
  | none => exact fun hne => absurd rfl hne
  | some t =>
    have hmem := Array.mem_of_getElem? ht
    obtain ⟨x, rfl, -, hlabel⟩ := hlabels t hmem
    refine H.land A hquiet (by rw [Instr.result, hop]; rfl) hlabel ?_ (h n x ht)
      (H.operands A henv) (.table n)
    simp only [Instr.targets, hpay]
    exact Array.mem_toList_iff.mpr hmem

/-- Control goes to the code that takes down the frame. -/
theorem leave {o : Interp.Outcome} {B : State → Prop}
    (h : Gen.Departs (b.infoAt b.isNeeded) ops args (stateAt b l s σ.pc) s1 epilogueLabel
      fun F V k => Framed F V k ∧ B k) (hreads : (b.view m σ obs).Reads ops args)
    (hB : ∀ k, B k → o.Left k) : AnswersAt b l s e s' E m m1 σ k (.halt o) := by
  have hlt : σ.pc < b.size := (Array.getElem?_eq_some_iff.mp A.instr).1
  obtain ⟨k', hreach, hframed, hk'⟩ := h (E.frame b m m1) _ H.sound (typed A.steady obs) hreads _ _
    (hquiet.emitter ▸ H.within hlt) H.leaving k A.stands
  exact fun _ => ⟨k', hreach, ⟨obs, A.shown, hframed⟩, hB k' hk'⟩

theorem ret {t : ValTy} (hop : i.opcode = .ret t)
    (h : ∀ c, Gen.Departs (b.infoAt b.isNeeded) i.operandList [c] (stateAt b l s σ.pc) s1
      epilogueLabel fun F V m => Framed F V m ∧ m.Holds (Gen.resultReg (.val t)) c) :
    AnswersAt b l s e s' E m m1 σ k (Interp.step (E.world b m) b σ) := by
  obtain ⟨c, henv, rfl, hstep⟩ :=
    A.steady.ret H.valid H.defines A.instr hop (w := E.world b m)
  rw [hstep]
  exact H.leave A hquiet (h c) (H.operands A henv) fun _ hk => hk

theorem exit {g : Guard} (hop : i.opcode = .exit) (hpay : i.payload = .guard g)
    (h : Gen.Departs (b.infoAt b.isNeeded) [] [] (stateAt b l s σ.pc) s1 epilogueLabel fun F V m =>
      Framed F V m ∧ m.gpr Reg.rax.toGpr = g.record) :
    AnswersAt b l s e s' E m m1 σ k (Interp.step (E.world b m) b σ) := by
  rw [A.steady.exit H.valid H.defines A.instr hop hpay]
  exact H.leave A hquiet h .nil fun _ hk => hk

omit hquiet in
/-- Instructions without code and without a value. -/
theorem pass (hquiet : Gen.Quiet (stateAt b l s σ.pc) (stateAt b l s (σ.pc + 1)))
    (hop : i.opcode = .start ∨ i.opcode = .comment) :
    AnswersAt b l s e s' E m m1 σ k (Interp.step (E.world b m) b σ) := by
  have hres : i.result = .void := by
    rcases hop with hop | hop <;> rw [Instr.result, hop] <;> rfl
  rw [A.steady.skip H.valid H.defines A.instr (hop.imp_right .inl)]
  refine H.onward A hquiet (.none fun _ hk => hk) rfl fun k' hk' => ⟨[], A.shown.append_nil, ?_⟩
  have hnext : i.opcode.fallsThrough = true := by rcases hop with hop | hop <;> rw [hop] <;> rfl
  refine hk'.retable rfl (List.append_nil _) fun v x c hx hc =>
    ⟨x, hx, hc, rfl, fun _ hr => hr, fun hw hmod =>
      ⟨.later ?_ (Buffer.next_mem_successors A.instr hnext) hw, hmod⟩⟩
  rintro rfl
  exact H.not_wanted A hres _ hw

omit hquiet in
/-- Instructions without code whose values are always at home. -/
theorem stay {v : Const} (hquiet : Gen.Quiet (stateAt b l s σ.pc) (stateAt b l s (σ.pc + 1)))
    (hres : i.result = .val v.ty) (hhome : ∀ k', Represents (E.frame b m m1) (b.view m σ obs)
      (stateAt b l s σ.pc).values k' → (E.frame b m m1).AtHome k' v (b.homeAt b.isNeeded σ.pc i)) :
    AnswersAt b l s e s' E m m1 σ k (Interp.finishWith σ v) := by
  have hlt : σ.pc < b.size := (Array.getElem?_eq_some_iff.mp A.instr).1
  have hcoh := (H.emitted (Nat.le_of_lt hlt)).coherent
  have hnext := Buffer.next_mem_successors A.instr (Opcode.fallsThrough_of_result hres)
  refine H.onward A hquiet (.none fun _ hk => hk) rfl fun k' hk' => ⟨[], A.shown.append_nil, ?_⟩
  refine ⟨hk'.rbp, hk'.rsp, hk'.fixed, hk'.visible, hk'.trace.trans (List.append_nil _).symm,
    fun u x r c hx hc hr => ?_, fun u x c hx hc hw hmod => ?_⟩
  · have hne : u ≠ σ.pc := Nat.ne_of_lt (hcoh.computed u x r hx hr)
    exact hk'.regs u x r c hx ((Function.update_of_ne hne _ _).symm.trans hc) hr
  · by_cases hne : u = σ.pc
    · -- the new value, at the home of the instruction
      subst hne
      have hc : Function.update σ.env σ.pc (some v) σ.pc = some c := hc
      rw [Function.update_self] at hc
      cases hc
      obtain ⟨j, hj, hxj⟩ := hcoh.homes _ x hx
      obtain ⟨ins, hins, -, -, hat⟩ := Buffer.infoAt_eq_some hj
      rw [A.instr] at hins
      cases hins
      rw [hxj, hat]
      exact hhome k' hk'
    · exact hk'.homes u x c hx ((Function.update_of_ne hne _ _).symm.trans hc)
        (.later hne hnext hw) hmod

omit hquiet in
/-- The home of a parameter holds it. -/
theorem param_atHome {p : BitVec 8} (hpay : i.payload = .param p) {k' : State}
    (hk : Represents (E.frame b m m1) (b.view m σ obs) (stateAt b l s σ.pc).values k') :
    (E.frame b m m1).AtHome k' (.int64 (m.argument p.toNat)) (b.homeAt b.isNeeded σ.pc i) := by
  have hpar : b.payloadAt σ.pc = some (.param p) := by
    rw [Buffer.payloadAt, A.instr, Option.map_some, hpay]
  have hhome : b.homeAt b.isNeeded σ.pc i = .slot (b.paramHome σ.pc p) := by
    simp only [Buffer.homeAt, Buffer.paramHome, hpay]
    split <;> rfl
  rw [hhome]
  -- it was written there when the frame was set up, and the home is kept
  exact (Buffer.read_paramHome H.need H.valid hpar hk.fixed).trans
    (H.admitted.params σ.pc p hpar (H.params σ.pc p hpar))

omit hquiet in
/-- Instructions without code. -/
theorem silent (hquiet : Gen.Quiet (stateAt b l s σ.pc) (stateAt b l s (σ.pc + 1)))
    (hop : i.opcode.isSilent = true) :
    AnswersAt b l s e s' E m m1 σ k (Interp.step (E.world b m) b σ) := by
  have hfit := H.valid.fits A.instr
  have hkind := hfit.kind
  cases hop' : i.opcode with
  | start => exact H.pass A hquiet (.inl hop')
  | comment => exact H.pass A hquiet (.inr hop')
  | param =>
    rw [hop'] at hkind
    obtain ⟨p, hp⟩ := Payload.exists_of_kind hkind
    rw [A.steady.param H.valid H.defines A.instr hop' hp]
    exact H.stay A hquiet (by rw [Instr.result, hop']; rfl) fun _ hk => H.param_atHome A hp hk
  | alloc =>
    rw [A.steady.alloc H.valid H.defines A.instr hop']
    refine H.stay A hquiet (by rw [Instr.result, hop']; rfl) fun _ _ => ?_
    rw [hop'] at hkind
    obtain ⟨size, hp⟩ := Payload.exists_of_kind hkind
    simp only [Buffer.homeAt, hp]
    refine congrArg Const.int64 (Buffer.areaAddress_eq ?_ (frameBase m))
    rw [A.instr, Option.map_some, hop']
  | imm t =>
    obtain ⟨c, hc⟩ := hfit.constant? (by rw [hop']; rfl)
    have hp := (Instr.constant?_eq_some hc).2
    rw [A.steady.const H.valid H.defines A.instr hc]
    refine H.stay A hquiet (hfit.const c hp) fun _ _ => ?_
    simp only [Buffer.homeAt, hp]
    rfl
  | _ => rw [hop'] at hop; cases hop

theorem label (hop : i.opcode = .label)
    (h : Gen.Landed (b.infoAt b.isNeeded) (l.left b σ.pc) σ.pc (b.labelNumber σ.pc)
      (stateAt b l s σ.pc) s1) :
    AnswersAt b l s e s' E m m1 σ k (Interp.step (E.world b m) b σ) := by
  rw [A.steady.label H.valid H.defines A.instr hop]
  refine H.onward A hquiet (h.arrives _ _ H.sound (typed A.steady obs)) rfl fun k' hk' =>
    ⟨[], .note A.shown A.live .label, ?_⟩
  rw [List.append_nil, ← hquiet.values]
  exact H.afterLabel ((Buffer.isLabel_iff A.instr).mpr hop) hk'

omit A hquiet in
/-- An instruction that is not needed, whatever it computes. -/
theorem dropped (hi : b.instrs[σ.pc]? = some i) (hdead : b.isNeeded σ.pc = false)
    (hk : Represents (E.frame b m m1) (b.view m σ obs) (stateAt b l s σ.pc).values k)
    (hfalls : i.opcode.fallsThrough = true) (hpc : σ'.pc = σ.pc + 1)
    (henv : ∀ v, v ≠ σ.pc → σ'.env v = σ.env v)
    (hmem : ∀ x, ¬b.Private (frameBase m) x → σ'.mem x = σ.mem x)
    (hobs : Shown b E.float σ'.trace obs) :
    AnswersAt b l s e s' E m m1 σ k (.go σ') := by
  have hlt := Buffer.lt_size hi
  have hsame : stateAt b l s (σ.pc + 1) = stateAt b l s σ.pc :=
    (H.stepped hi).dead (by rw [H.live_eq]; exact hdead)
  -- nothing is known of the value in code
  have hne : ∀ v x, (stateAt b l s σ.pc).values.get? v = some x → v ≠ σ.pc := by
    rintro v x hx rfl
    obtain ⟨j, hj, -⟩ := (H.emitted (Nat.le_of_lt hlt)).coherent.entries _ x hx
    rw [Gen.infoAt_of_dead hdead] at hj
    cases hj
  have hrep : Represents (E.frame b m m1) (b.view m σ' obs) (stateAt b l s σ'.pc).values k := by
    rw [hpc, hsame]
    refine ⟨hk.rbp, hk.rsp, hk.fixed, fun x hx => ?_, hk.trace, fun v x r c hx hc hr => ?_,
      fun v x c hx hc hw hmod => ?_⟩
    · exact (hk.visible x hx).trans (hmem x (Outside.visible_iff.mp hx)).symm
    · exact hk.regs v x r c hx ((henv v (hne v x hx)).symm.trans hc) hr
    · refine hk.homes v x c hx ((henv v (hne v x hx)).symm.trans hc) ?_ hmod
      exact .later (hne v x hx) (Buffer.next_mem_successors hi hfalls) (hpc ▸ hw)
  have hmatch := Matches.before (by rw [hpc]; exact hlt) hobs hrep
  rw [hpc, hsame] at hmatch
  exact ⟨_, k, .refl _ _, hmatch⟩

omit A hquiet in
/-- A call that is not needed, of a callee that stores nothing. -/
theorem skipCall (hσ : Interp.Steady b there σ) (hi : b.instrs[σ.pc]? = some i)
    (hdead : b.isNeeded σ.pc = false) (hobs : Shown b E.float σ.trace obs)
    (hk : Represents (E.frame b m m1) (b.view m σ obs) (stateAt b l s σ.pc).values k)
    (hp : i.payload = .call site) (hpure : site.callee.hasEffects = false) :
    AnswersAt b l s e s' E m m1 σ k (Interp.step (E.world b m) b σ) := by
  obtain ⟨t, hop⟩ : ∃ t, i.opcode = .call t := by
    have hkind := (H.valid.fits hi).kind
    rw [hp] at hkind
    cases hop : i.opcode <;> rw [hop] at hkind <;> cases hkind
    exact ⟨_, rfl⟩
  obtain ⟨args, -, -, hstep⟩ := hσ.call H.valid H.defines hi H.args hop hp (w := E.world b m)
  have hmem := H.fair.harmless σ.pc i t site args σ.mem hi hop hp hpure
  have hfalls : i.opcode.fallsThrough = true := by rw [hop]; rfl
  have hopt : (!site.callee.hasEffects) = true := by rw [hpure]; rfl
  rw [hstep]
  cases t with
  | void => exact H.dropped hi hdead hk hfalls rfl (fun _ _ => rfl) hmem (.drop hobs hdead hopt)
  | val t =>
    exact H.dropped hi hdead hk hfalls rfl (fun _ hne => Function.update_of_ne hne _ _) hmem
      (.drop hobs hdead hopt)

omit A hquiet in
/-- An instruction that is not needed. -/
theorem skip (hσ : Interp.Steady b there σ) (hi : b.instrs[σ.pc]? = some i)
    (hdead : b.isNeeded σ.pc = false) (hobs : Shown b E.float σ.trace obs)
    (hk : Represents (E.frame b m m1) (b.view m σ obs) (stateAt b l s σ.pc).values k) :
    AnswersAt b l s e s' E m m1 σ k (Interp.step (E.world b m) b σ) := by
  have hfit := H.valid.fits hi
  have hrem : i.isRemovable = true := by
    cases hrem : i.isRemovable with
    | true => rfl
    | false => rw [(H.valid.isNeeded_iff σ.pc).mpr (.kept hi hrem)] at hdead; cases hdead
  -- the value is the only change
  have hgo : ∀ v, i.opcode.fallsThrough = true → AnswersAt b l s e s' E m m1 σ k
      (Interp.finishWith σ v) := fun v hfalls =>
    H.dropped hi hdead hk hfalls rfl (fun _ hne => Function.update_of_ne hne _ _)
      (fun _ _ => rfl) hobs
  by_cases hcall : ∃ site, i.payload = .call site
  · obtain ⟨site, hp⟩ := hcall
    simp only [Instr.isRemovable, hp, Bool.not_eq_true'] at hrem
    exact H.skipCall hσ hi hdead hobs hk hp hrem
  · have heff : i.opcode.effect ≠ .effect := by
      have : i.isRemovable = i.opcode.isRemovable := by
        unfold Instr.isRemovable
        split
        · exact absurd ⟨_, ‹_›⟩ hcall
        · rfl
      rw [this, Opcode.isRemovable, bne_iff_ne] at hrem
      exact hrem
    by_cases hpure : i.opcode.effect = .pure
    · have hfalls := Opcode.fallsThrough_of_pure (beq_iff_eq.mpr hpure)
      cases himm : i.opcode.isImmediate with
      | true =>
        obtain ⟨c, hc⟩ := hfit.constant? himm
        rw [hσ.const H.valid H.defines hi hc]
        exact hgo c hfalls
      | false =>
        rcases hσ.value H.valid H.defines hi hpure himm (w := E.world b m) with
          ⟨args, v, -, -, -, hstep⟩ | htrap
        · rw [hstep]
          exact hgo v hfalls
        · rw [htrap]
          exact fun hne => absurd rfl hne
    · cases hop : i.opcode with
      | alloc =>
        rw [hσ.alloc H.valid H.defines hi hop]
        exact hgo _ (by rw [hop]; rfl)
      | load kind =>
        obtain ⟨base, -, hstep⟩ := hσ.load H.valid H.defines hi hop (w := E.world b m)
        rw [hstep]
        exact H.dropped hi hdead hk (by rw [hop]; rfl) rfl
          (fun _ hne => Function.update_of_ne hne _ _) (fun _ _ => rfl) (.drop hobs hdead rfl)
      | _ => rw [hop] at heff hpure; first | exact absurd rfl heff | exact absurd rfl hpure

omit A hquiet in
/-- The machine is where the interpreter is after every instruction, or where the frame is taken
    down. -/
theorem step (hσ : Interp.Steady b there σ) (hM : Matches b l s E m m1 σ pc k)
    (hconf : ∀ σ', Interp.step (E.world b m) b σ = .go σ' → Confined b m σ'.trace) :
    Answers b l s e s' E m m1 σ pc k (Interp.step (E.world b m) b σ) := by
  cases hM with
  | @before obs _ hpc hobs hk =>
    cases hi : b.instrs[σ.pc]? with
    | none =>
      -- behind the last instruction
      have hsize : σ.pc = b.size := Nat.le_antisymm hpc (Array.getElem?_eq_none_iff.mp hi)
      rw [Interp.step, hi, hsize]
      obtain ⟨k', hreach, hk'⟩ := (Runs.bound H.code.bound H.code.body.epilogue _) _
        H.code.within_end k (hsize ▸ hk)
      exact fun _ => ⟨k', hreach, ⟨obs, hobs, hk'.framed⟩, trivial⟩
    | some i =>
      cases hlive : b.isNeeded σ.pc with
      | false => exact H.skip hσ hi hlive hobs hk
      | true =>
        have A : Ahead b there l s E m m1 σ i obs k := ⟨hσ, hi, hlive, hobs, hk⟩
        obtain ⟨s1, hquiet, hem⟩ := H.emission hi hlive
        cases hem with
        | silent hop hs => exact H.silent A (hs ▸ hquiet) hop
        | value hop himm h => exact H.value A hquiet hop himm h
        | load kind hop h => exact H.load A hquiet hop h hconf
        | store kind hop h => exact H.store A hquiet hop h hconf
        | live t hop h => exact H.keepAlive A hquiet hop h
        | call t site hop hpay _ h => exact H.call A hquiet hop hpay h
        | label hop h => exact H.label A hquiet hop h
        | jump x hop hx hlabel _ h => exact H.jump A hquiet hop hx hlabel h
        | branch sense x hop hx hlabel hstay h => exact H.branch A hquiet hop hx hlabel hstay h
        | table targets hop hpay hlabels _ h => exact H.table A hquiet hop hpay hlabels h
        | ret t hop _ h => exact H.ret A hquiet hop h
        | exit g hop hpay _ h => exact H.exit A hquiet hop hpay h
  | @landed obs _ hlabel hobs hk =>
    obtain ⟨i, hi, hop⟩ := Option.map_eq_some_iff.mp hlabel
    rw [hσ.label H.valid H.defines hi hop]
    have hshown : Shown b E.float (σ.note .label).advance.trace (obs ++ []) :=
      .note hobs (H.label_needed hlabel) .label
    rw [List.append_nil] at hshown
    exact ⟨_, k, .refl _ _, .before (σ := (σ.note .label).advance) hlabel.lt hshown
      (H.afterLabel hlabel hk)⟩

end Underway

end JitBackend
