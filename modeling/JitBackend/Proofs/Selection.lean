import JitBackend.Proofs.IntegerCode
import JitBackend.Proofs.Jumps

namespace JitBackend.Gen

/-!
# Code for operations

The code of every operation computes its value. The operations differ in how many operands they
have, in whether a constant may stand for an operand, and in the registers that are fixed.

* `Site` — the operands of the instruction at a position are in order;
* `unaryForm`, `binaryForm` — the two common forms;
* `arith_yields`, `shift_yields`, … — one theorem for each kind of operation.
-/

open Machine (Inst State Runs execAll Observation Emitter emits_g emits_gg emits_xx emits_xg
  emits_gx emits_mg emits_mx)

/-! ### Common forms -/

variable {info : Infos} {left : Nat → Nat} {lo k : Nat} {s s' s0 : CodeState}
  {ops : List Handle} {ts : List ValTy} {ta tb td : ValTy} {x y : Handle} {held : List (Nat × Reg)}
  {K : Facts} {F : Activation} {V : View} {m : State} {args : List Const} {obs : List Observation}
  {c : Const} {R : Semantics} (hs : Coherent info left lo k none s) (hpin : s.pinned = []) {rb : Reg}

/-- The end of an instruction with a result: a register is found, code computes there, uses are
    counted and the result is recorded. -/
theorem Holding.compute (h : Holding info left lo k held K s0 s)
    (hsite : Site info left lo k ops ts) (hres : Result info k td)
    (hheld : ∀ p ∈ held, ∃ x ∈ ops, p.1 = x.index) (ex : List Reg)
    (hroom : held.length + ex.length ≤ 5) (code : Reg → Gen Unit) (is : Reg → List Inst)
    (happ : ∀ rd, Suits td rd → Appends (code rd) (is rd))
    (hexec : ∀ F V args obs c m rd t, Aside info left lo k held K s0 rd t → Suits td rd → rd ∉ ex →
      V.Typed info → V.Reads ops args → R F V args obs c → Represents F V t.values m →
      K V m.gpr m.xmm → Leaves F (is rd) m obs rd c) :
    (do let rd ← defReg k (RegSet.ofList ex)
        code rd
        finishUses ops
        define k rd).Yields s fun _ s' => Performed info left lo k ops R s0 s' ∧
          ∃ (rd : Reg) (spill : List Inst), Suits td rd ∧ rd ∉ ex ∧ (∀ p ∈ held, p.2 ≠ rd) ∧
            (∀ j ∈ spill, j.isStore = true) ∧ s'.emitter = s.emitter.withOps (spill ++ is rd) ∧
            InRegister s' k rd := by
  obtain ⟨j, hj, rfl, -⟩ := id hres
  refine (h.aside hj ex hroom).andThen fun rd s1 ⟨h1, hex, spill, hspill, hs1⟩ => ?_
  have hsd := (h1.coherent.aside hj).1
  refine (h1.finishOps (R := R) hsite hheld hres (happ rd hsd) fun F V args obs c m hV hreads hR hm hK =>
    hexec F V args obs c m rd s1 h1 hsd hex hV hreads hR hm hK).mono fun _ s' ⟨hp, hreg, hemit⟩ =>
      ⟨hp, rd, spill, hsd, hex, fun p hp => (h1.owner p hp).2.2, hspill, ?_, hreg⟩
  rw [hemit, hs1, Emitter.withOps_withOps]

/-- The machine stands for the view while the code of the instruction at position `k` runs. -/
def Standing (info : Infos) (left : Nat → Nat) (lo k : Nat) (F : Activation)
    (V : View) (m : State) : Prop :=
  ∃ dst s, Coherent info left lo k dst s ∧ Represents F V s.values m

/-- The code between two states: it brings the operands in place, so that `Q` holds, and then come
    `setup`, stores, and `compute`, which leaves the result in the register `rd`. -/
def Made (info : Infos) (k : Nat) (ops : List Handle) (Q : View → State → Prop)
    (rd : Reg) (setup compute : List Inst) (s s' : CodeState) : Prop :=
  ∃ fetch spill : List Inst, Brings info ops s fetch Q ∧ (∀ i ∈ spill, i.isStore = true) ∧
    s'.emitter = s.emitter.withOps (fetch ++ (setup ++ spill ++ compute)) ∧ InRegister s' k rd

include hs hpin in
/-- Code that reads one register. -/
theorem unaryForm (hsite : Site info left lo k ops ts) (hmem : x ∈ ops)
    (hx : Usable info left k x ta) (hres : Result info k td) (code : Reg → Reg → Gen Unit)
    (is : Reg → Reg → List Inst)
    (happ : ∀ ra rd, Suits ta ra → Suits td rd → Appends (code ra rd) (is ra rd))
    (hexec : ∀ F V args obs c m ra rd, Suits ta ra → Suits td rd → ra ≠ rd → V.Typed info →
      V.Reads ops args → R F V args obs c → Standing info left lo k F V m →
      (∀ a, V.env x.index = some a → m.Holds ra a) → Leaves F (is ra rd) m obs rd c)
    (Q : Reg → View → State → Prop)
    (hQ : ∀ F V m ra, (∀ x ∈ ops, V.Available x.index) → Standing info left lo k F V m →
      (∀ a, V.env x.index = some a → m.Holds ra a) → Q ra V m) :
    (do let ra ← useAny x
        let rd ← defAny k
        code ra rd
        finishUses ops
        define k rd).Yields s fun _ s' => Performed info left lo k ops R s s' ∧
          ∃ ra rd, Suits ta ra ∧ Suits td rd ∧ Made info k ops (Q ra) rd [] (is ra rd) s s' := by
  refine ((Holding.start hs hpin).use hx [] (by simp)).andThen fun ra s1 ⟨h1, _⟩ => ?_
  have hra : (x.index, ra) ∈ [] ++ [(x.index, ra)] := by simp
  have hheld : ∀ p ∈ [] ++ [(x.index, ra)], ∃ z ∈ ops, p.1 = z.index := by
    intro p hp
    rw [List.nil_append, List.mem_singleton] at hp
    exact ⟨x, hmem, by rw [hp]⟩
  have hsa := h1.suits hra hx
  obtain ⟨fetch, hfetch, hbrings⟩ := h1.brings ops (Q := Q ra) hheld fun F V m hav hm =>
    hQ F V m ra hav ⟨_, s1, h1.coherent, hm⟩ fun a ha => h1.holds hm hra ha
  refine (h1.compute hsite hres hheld [] (by simp) (code ra) (is ra) (fun rd => happ ra rd hsa)
    ?_).mono fun _ s' ⟨hp, rd, spill, hsd, _, _, hspill, hemit, hreg⟩ =>
      ⟨hp, ra, rd, hsa, hsd, fetch, spill, hbrings, hspill, ?_, hreg⟩
  · intro F V args obs c m rd t ht hsd _ hV hreads hR hm _
    exact hexec F V args obs c m ra rd hsa hsd (ht.owner _ hra).2.2 hV hreads hR
      ⟨_, t, ht.coherent, hm⟩ fun a ha => ht.holds hm hra ha
  · rw [hemit, hfetch, Emitter.withOps_withOps, List.nil_append]

/-- Two operands are brought into registers. -/
theorem Holding.usePair {α : Type} {f : Reg → Reg → Gen α} {Q : α → CodeState → Prop}
    (h : Holding info left lo k [] K s0 s) (hx : Usable info left k x ta)
    (hy : Usable info left k y tb) (ex : List Reg) (hroom : ex.length ≤ 4)
    (hf : ∀ ra rb s', Holding info left lo k [(x.index, ra), (y.index, rb)] .none s0 s' →
      Suits ta ra → Suits tb rb →
      (∀ q ∈ ex, q.IsMachine → s.regs.owner? q = none → s'.regs.owner? q = none) →
      (f ra rb).Yields s' Q) :
    (do let ra ← useReg x (RegSet.ofList ex)
        let rb ← useReg y (RegSet.ofList ex)
        f ra rb).Yields s Q := by
  refine (h.use hx ex (by simp; omega)).andThen fun ra s1 ⟨h1, hfree1⟩ => ?_
  refine (h1.use hy ex (by simp; omega)).andThen fun rb s2 ⟨h2, hfree2⟩ => ?_
  refine hf ra rb s2 h2 (h2.suits (by simp) hx) (h2.suits (by simp) hy) fun q hq hm hnone => ?_
  exact hfree2 q hq hm (hfree1 q hq hm hnone)

theorem Holding.inPlace {ra : Reg}
    (h : Holding info left lo k [(x.index, ra), (y.index, rb)] K s0 s) :
    ∃ fetch, s.emitter = s0.emitter.withOps fetch ∧
      Brings info [x, y] s0 fetch (InPlace x y ra (.reg rb)) :=
  h.brings [x, y] (by simp) fun _ _ _ _ hm =>
    ⟨fun _ ha => h.holds hm (by simp) ha, fun _ hc => h.holds hm (by simp) hc⟩

/-! ### Operands that are constants -/

/-- Constants are computed again wherever they are needed. -/
def ConstHomes (b : Buffer) (info : Infos) : Prop :=
  ∀ h ins c i, b.get h = .ok ins → ins.payload.const? = some c → info h.index = some i →
    i.home = .remat (.const c)

/-- The operands are instructions of the buffer. -/
def Known (b : Buffer) (ops : List Handle) : Prop :=
  ∀ x ∈ ops, ∃ ins, b.get x = .ok ins

/-- The value of a constant is the constant. -/
theorem Standing.env_of_const {i : ValueInfo} {v : Nat} (h : Standing info left lo k F V m)
    (hav : V.Available v) (hi : info v = some i) (hhome : i.home = .remat (.const c)) :
    V.env v = some c := by
  obtain ⟨dst, s, hs, hm⟩ := h
  obtain ⟨x, hx, he⟩ := hs.entry hi
  have hmod : x.modified = false := by
    rw [Bool.eq_false_iff]
    intro hm
    have := i.writable_slot (he.modified hm).2
    rw [hhome] at this
    cases this
  obtain ⟨⟨c', hc'⟩, hneed⟩ := hav
  have hat := hm.homes v x c' hx hc' hneed hmod
  rw [he.home, hhome] at hat
  rw [hc', show c = c' from hat]

theorem operand_eq (ops : List Handle) (n : Nat) {x : Handle} (h : ops[n]? = some x) :
    operand ops n = pure x := by
  rw [operand, h]; rfl

theorem imm32Of_eq {b : Buffer} {ins : Instr} (h : b.get x = .ok ins) :
    imm32Of b x = pure (b.imm32? x) := by
  rw [imm32Of, h, Buffer.imm32?_of_get h]; rfl

/-- What an operation without effects computes. -/
def Pure (op : Opcode) : Semantics := fun F _ args obs c =>
  obs = [] ∧ Interp.pureValue F.around.float op args = some c

theorem View.Reads.two (h : V.Reads [x, y] args) :
    ∃ a b, args = [a, b] ∧ V.env x.index = some a ∧ V.env y.index = some b := by
  rcases h with _ | ⟨ha, _ | ⟨hb, _ | _⟩⟩
  exact ⟨_, _, rfl, ha.2, hb.2⟩

variable {op : Opcode}

variable {b : Buffer} {w : Width} {rd r : Reg}

include hs hpin in
/-- An operation on one register. -/
theorem unaryPure (op : Opcode) (hsite : Site info left lo k [x] [ta]) (hres : Result info k td)
    (code : Reg → Reg → Gen Unit) (is : Reg → Reg → List Inst)
    (happ : ∀ ra rd, Suits ta ra → Suits td rd → Appends (code ra rd) (is ra rd))
    (hexec : ∀ (F : Activation) m ra rd a c, Suits ta ra → Suits td rd → ra ≠ rd → m.Holds ra a →
      Interp.pureValue F.around.float op [a] = some c → Leaves F (is ra rd) m [] rd c) :
    (do let ra ← useAny x
        let rd ← defAny k
        code ra rd
        finishUses [x]
        define k rd).Yields s fun _ s' => Performed info left lo k [x] (Pure op) s s' ∧
          ∃ ra rd, Suits ta ra ∧ Suits td rd ∧ Made info k [x]
            (fun V m => ∀ a, V.env x.index = some a → m.Holds ra a) rd [] (is ra rd) s s' := by
  obtain ⟨x', hxs, hx⟩ := hsite.one
  cases hxs
  refine unaryForm (R := Pure op) hs hpin hsite (by simp) hx hres code is happ ?_ _
    fun _ _ _ _ _ _ h => h
  rintro F V args obs c m ra rd hra hrd hne - hreads ⟨rfl, hc⟩ - hholds
  rcases hreads with _ | ⟨ha, _ | _⟩
  exact hexec F m ra rd _ c hra hrd hne (hholds _ ha.2) hc

include hs hpin in
/-- An operation on two registers. -/
theorem binaryPure (op : Opcode) (hsite : Site info left lo k [x, y] [ta, tb])
    (hres : Result info k td) (code : Reg → Reg → Reg → Gen Unit)
    (is : Reg → Reg → Reg → List Inst)
    (happ : ∀ ra rb rd, Suits ta ra → Suits tb rb → Suits td rd →
      Appends (code ra rb rd) (is ra rb rd))
    (hexec : ∀ (F : Activation) m ra rb rd a b c, Suits ta ra → Suits tb rb → Suits td rd →
      rb ≠ rd → [a, b].map Const.ty = [ta, tb] → m.Holds ra a → m.Holds rb b →
      Interp.pureValue F.around.float op [a, b] = some c → Leaves F (is ra rb rd) m [] rd c) :
    (do let ra ← useAny x
        let rb ← useAny y
        let rd ← defAny k
        code ra rb rd
        finishUses [x, y]
        define k rd).Yields s fun _ s' => Performed info left lo k [x, y] (Pure op) s s' ∧
          ∃ ra rb rd, Suits ta ra ∧ Suits tb rb ∧ Suits td rd ∧ rb ≠ rd ∧
            Made info k [x, y] (InPlace x y ra (.reg rb)) rd [] (is ra rb rd) s s' := by
  obtain ⟨x', y', hxs, hx, hy⟩ := hsite.two
  cases hxs
  refine (Holding.start hs hpin).usePair hx hy [] (by simp) fun ra rb s2 h2 hsa hsb _ => ?_
  obtain ⟨fetch, hfetch, hbrings⟩ := h2.inPlace
  refine (h2.compute (R := Pure op) hsite hres (by simp) [] (by simp) (code ra rb) (is ra rb)
    (fun rd => happ ra rb rd hsa hsb) ?_).mono
    fun _ s' ⟨hp, rd, spill, hsd, _, hne, hspill, hemit, hreg⟩ => ⟨hp, ra, rb, rd, hsa, hsb, hsd,
      hne (y.index, rb) (by simp), fetch, spill, hbrings, hspill, ?_, hreg⟩
  · rintro F V args obs c m rd t ht hsd - hV hreads ⟨rfl, hc⟩ hm -
    obtain ⟨a, b, rfl, ha, hb⟩ := View.Reads.two hreads
    exact hexec F m ra rb rd a b c hsa hsb hsd (ht.owner (y.index, rb) (by simp)).2.2
      (by simp only [List.map, hx.ty hV ha, hy.ty hV hb]) (ht.holds hm (by simp) ha)
      (ht.holds hm (by simp) hb) hc
  · rw [hemit, hfetch, Emitter.withOps_withOps, List.nil_append]

/-! ### Integer operations -/

/-- A value of an integer type is a word. -/
theorem holds_of_word? {a : Const} {v : BitVec w.bits} (ha : m.Holds r a) (hv : a.word? w = some v)
    : m.word w r.toGpr = v := by
  cases w <;> cases a <;> simp only [Const.word?, reduceCtorEq] at hv
  · cases hv; exact ha
  · cases hv; exact (BitVec.setWidth_eq _).trans ha

section Leaves

variable {is : List Inst} {rd ra : Reg} {rs : List Reg} {rhs : Rhs} {a d : Const}

theorem Leaves.ofHolds (h : Machine.Alters F.around m is rs fun m' => m'.Holds rd c)
    (hrs : ∀ r ∈ rs, r ∈ rd :: scratches) :
    Leaves F is m [] rd c := by
  obtain ⟨m', hexec, hsame, hc⟩ := h
  refine ⟨m', hexec, ?_, hc⟩
  rw [List.append_nil]
  exact hsame.mono hrs

theorem Leaves.ofWord {v : BitVec w.bits}
    (h : Machine.Alters F.around m is [rd] fun m' => m'.word w rd.toGpr = v) :
    Leaves F is m [] rd (.ofInt w v) :=
  .ofHolds (h.mono (fun _ => id) fun _ => State.holds_ofInt.mpr) (by simp)

theorem Selects.leaves (h : Selects op rd ra rhs [] is) (htrap : op.canTrap = false)
    (hty : [a, d].map Const.ty = op.operands) (ha : m.Holds ra a) (hd : rhs.Gives m d)
    (hc : Interp.pureValue F.around.float op [a, d] = some c) : Leaves F is m [] rd c := by
  have hset := h.settles (c := F.around) hty ha hd F.around.float
  rw [hc, touched, htrap] at hset
  exact .ofHolds hset (by simp)

end Leaves

/-- The code between two states computes an operation of two operands, by one of its sequences. -/
def Selected (b : Buffer) (info : Infos) (left : Nat → Nat) (lo : Nat)
    (op : Opcode) (k : Nat) (x y : Handle) (s s' : CodeState) : Prop :=
  Performed info left lo k [x, y] (Pure op) s s' ∧ Lowers b info op k x y s s'

theorem Made.lowers {ra : Reg} {rhs : Rhs} {setup compute : List Inst}
    (h : Made info k [x, y] (InPlace x y ra rhs) rd setup compute s s')
    (hsel : Selects op rd ra rhs setup compute)
    (hform : rhs.imm? = if op.canTrap then none else b.imm32? y) : Lowers b info op k x y s s' := by
  obtain ⟨fetch, spill, hbrings, hspill, hemit, hreg⟩ := h
  exact ⟨rd, ra, rhs, fetch, _, hemit, hbrings, hform, ⟨setup, spill, compute, hsel, hspill, rfl⟩,
    hreg⟩

theorem Made.lowersUnary (op : Opcode) {ra : Reg}
    (h : Made info k [x] (fun V m => ∀ a, V.env x.index = some a → m.Holds ra a) rd []
      (unaryInsts op rd ra) s s') (hrd : rd.IsGeneral) : LowersUnary info op k x s s' := by
  obtain ⟨fetch, spill, hbrings, hspill, hemit, hreg⟩ := h
  exact ⟨rd, ra, fetch, _, hemit, hbrings, ⟨hrd, spill, hspill, rfl⟩, hreg⟩

section TwoOperands

include hs hpin

/-- An operation on a register and a constant. -/
theorem selects_const (op : Opcode) (hconst : ConstHomes b info)
    (hsite : Site info left lo k [x, y] op.operands) (hops : op.operands = [ta, tb])
    (hres : Result info k td) {ins : Instr} {n : BitVec 32} (hins : b.get y = .ok ins)
    (himm : b.imm32? y = some n) (htrap : op.canTrap = false)
    (code : Reg → Reg → Gen Unit) (is : Reg → Reg → List Inst)
    (happ : ∀ ra rd, Suits ta ra → Suits td rd → Appends (code ra rd) (is ra rd))
    (hsel : ∀ ra rd, Suits ta ra → Suits td rd → Selects op rd ra (.imm n) [] (is ra rd)) :
    (do let ra ← useAny x
        let rd ← defAny k
        code ra rd
        finishUses [x, y]
        define k rd).Yields s fun _ s' => Selected b info left lo op k x y s s' := by
  rw [hops] at hsite
  obtain ⟨x', y', hxs, hx, hy⟩ := hsite.two
  cases hxs
  have hgives : ∀ {F V m d}, Standing info left lo k F V m → V.Available y.index →
      V.env y.index = some d → d.imm32? = some n := by
    intro F V m d hst hav hd
    rw [Buffer.imm32?_of_get hins] at himm
    obtain ⟨e, he, hn⟩ := Option.bind_eq_some_iff.mp himm
    obtain ⟨i, hi, -⟩ := hy
    rw [hst.env_of_const hav hi (hconst y ins e i hins he hi)] at hd
    cases hd
    exact hn
  refine (unaryForm (R := Pure op) hs hpin hsite (by simp) hx hres code is happ ?_
    (fun ra => InPlace x y ra (.imm n)) ?_).mono fun _ s' ⟨hp, ra, rd, hsa, hsd, hmade⟩ =>
      ⟨hp, hmade.lowers (hsel ra rd hsa hsd) (by rw [htrap, himm]; rfl)⟩
  · rintro F V args obs c m ra rd hra hrd - hV hreads ⟨rfl, hc⟩ hst hholds
    obtain ⟨a, d, rfl, ha, hd⟩ := View.Reads.two hreads
    refine (hsel ra rd hra hrd).leaves htrap ?_ (hholds a ha)
      (hgives hst (hreads.available y (by simp)) hd) hc
    rw [hops]
    simp only [List.map, hx.ty hV ha, hy.ty hV hd]
  · exact fun F V m ra hav hst hholds => ⟨hholds, fun d hd => hgives hst (hav y (by simp)) hd⟩

/-- An operation on two registers. -/
theorem selects_regs (op : Opcode) (hsite : Site info left lo k [x, y] op.operands)
    (hops : op.operands = [ta, tb]) (hres : Result info k td) (himm : b.imm32? y = none)
    (htrap : op.canTrap = false)
    (code : Reg → Reg → Reg → Gen Unit) (is : Reg → Reg → Reg → List Inst)
    (happ : ∀ ra rb rd, Suits ta ra → Suits tb rb → Suits td rd →
      Appends (code ra rb rd) (is ra rb rd))
    (hsel : ∀ ra rb rd, Suits ta ra → Suits tb rb → Suits td rd → rb ≠ rd →
      Selects op rd ra (.reg rb) [] (is ra rb rd)) :
    (do let ra ← useAny x
        let rb ← useAny y
        let rd ← defAny k
        code ra rb rd
        finishUses [x, y]
        define k rd).Yields s fun _ s' => Selected b info left lo op k x y s s' := by
  rw [hops] at hsite
  refine (binaryPure hs hpin op hsite hres code is happ ?_).mono
    fun _ s' ⟨hp, ra, rb, rd, hsa, hsb, hsd, hne, hmade⟩ =>
      ⟨hp, hmade.lowers (hsel ra rb rd hsa hsb hsd hne) (by rw [htrap, himm]; rfl)⟩
  intro F m ra rb rd a d c hra hrb hrd hne hty ha hd hc
  exact (hsel ra rb rd hra hrb hrd hne).leaves htrap (hty.trans hops.symm) ha hd hc

/-- An operation whose second operand is a constant or a register. -/
theorem selects_rhs (op : Opcode) (hconst : ConstHomes b info)
    (hsite : Site info left lo k [x, y] op.operands) (hops : op.operands = [ta, tb])
    (hknown : Known b [x, y]) (hres : Result info k td) (htrap : op.canTrap = false)
    (code : Reg → Rhs → Reg → Gen Unit) (is : Reg → Rhs → Reg → List Inst)
    (happ : ∀ ra rhs rd, Suits ta ra → (∀ q, rhs = .reg q → Suits tb q) → Suits td rd →
      Appends (code ra rhs rd) (is ra rhs rd))
    (hsel : ∀ ra rhs rd, Suits ta ra → (∀ q, rhs = .reg q → Suits tb q ∧ q ≠ rd) →
      Suits td rd → Selects op rd ra rhs [] (is ra rhs rd)) :
    (do let ra ← useAny x
        let rhs ← useRhs b y
        let rd ← defAny k
        code ra rhs rd
        finishUses [x, y]
        define k rd).Yields s fun _ s' => Selected b info left lo op k x y s s' := by
  obtain ⟨ins, hins⟩ := hknown y (by simp)
  simp only [useRhs, imm32Of_eq hins, pure_bind]
  cases hn : b.imm32? y with
  | some n =>
    have h := selects_const hs hpin op hconst hsite hops hres hins hn htrap
      (fun ra rd => code ra (.imm n) rd) (fun ra rd => is ra (.imm n) rd)
      (fun ra rd hra hrd => happ ra _ rd hra (by simp) hrd)
      fun ra rd hra hrd => hsel ra _ rd hra (by simp) hrd
    simpa only [pure_bind] using h
  | none =>
    have h := selects_regs (b := b) hs hpin op hsite hops hres hn htrap
      (fun ra rb rd => code ra (.reg rb) rd) (fun ra rb rd => is ra (.reg rb) rd)
      (fun ra rb rd hra hrb hrd => happ ra _ rd hra (fun q hq => Rhs.reg.inj hq ▸ hrb) hrd)
      fun ra rb rd hra hrb hrd hne =>
        hsel ra _ rd hra (fun q hq => Rhs.reg.inj hq ▸ ⟨hrb, hne⟩) hrd
    simpa only [bind_assoc, pure_bind] using h

omit hs hpin in
theorem aluRhs_appends (aop : Machine.AluOp) (hr : r.IsGeneral) {rhs : Rhs}
    (hrhs : ∀ q, rhs = .reg q → Suits (.int w) q) :
    Appends (aluRhs aop w r rhs) [rhs.aluInst aop w r] := by
  cases rhs with
  | imm n => exact appends_emit (emits_g hr)
  | reg q => exact appends_emit (emits_gg hr ((hrhs q rfl).isGeneral rfl))

section

variable (hconst : ConstHomes b info) (hsite : Site info left lo k [x, y] [.int w, .int w])
  (hknown : Known b [x, y])

include hconst hsite hknown

theorem alu_yields (hres : Result info k (.int w)) {o : IntOp} {aop : Machine.AluOp}
    (ho : aluOf? o = some aop) : (alu b k aop w [x, y]).Yields s fun _ s' =>
      Selected b info left lo (.arith w o) k x y s s' := by
  have htrap : Opcode.canTrap (.arith w o) = false := by cases o <;> first | rfl | cases ho
  have h := selects_rhs hs hpin (.arith w o) hconst hsite rfl hknown hres htrap
    (fun ra rhs rd => do emit (Emitter.mov w rd ra); aluRhs aop w rd rhs)
    (fun ra rhs rd => [.mov w rd.toGpr ra.toGpr, rhs.aluInst aop w rd]) ?_ ?_
  · simpa only [alu, operand_eq [x, y] 0 rfl, operand_eq [x, y] 1 rfl, pure_bind, bind_assoc]
      using h
  · intro ra rhs rd hra hrhs hrd
    exact .seq (appends_emit (emits_gg (hrd.isGeneral rfl) (hra.isGeneral rfl)))
      (aluRhs_appends aop (hrd.isGeneral rfl) hrhs)
  · intro ra rhs rd hra hrhs hrd
    refine .alu ho (hrd.isGeneral rfl) ?_
    cases rhs with
    | imm n => trivial
    | reg q => exact ⟨(hrhs q rfl).1.isGeneral rfl, (hrhs q rfl).2⟩

theorem compare_yields (hres : Result info k .int32) (rel : IntRel) :
    (compare b k rel w [x, y]).Yields s fun _ s' =>
      Selected b info left lo (.compare w rel) k x y s s' := by
  have h := selects_rhs hs hpin (.compare w rel) hconst hsite rfl hknown hres rfl
    (fun ra rhs rd => do
      aluRhs .cmp w ra rhs
      emit (Emitter.setcc (condOf rel) rd)
      emit (Emitter.movzxByte rd rd))
    (fun ra rhs rd => [rhs.aluInst .cmp w ra, .setcc (condOf rel) rd.toGpr,
      .movzxByte rd.toGpr rd.toGpr]) ?_ ?_
  · simpa only [compare, operand_eq [x, y] 0 rfl, operand_eq [x, y] 1 rfl, pure_bind, bind_assoc]
      using h
  · intro ra rhs rd hra hrhs hrd
    have hgd := hrd.isGeneral rfl
    exact .seq (aluRhs_appends .cmp (hra.isGeneral rfl) hrhs)
      (.seq (appends_emit (emits_g hgd)) (appends_emit (emits_gg hgd hgd)))
  · intro ra rhs rd _ _ hrd
    exact .compare (hrd.isGeneral rfl)

theorem multiply_yields (hres : Result info k (.int w)) :
    (multiply b k w [x, y]).Yields s fun _ s' =>
      Selected b info left lo (.arith w .mul) k x y s s' := by
  obtain ⟨ins, hins⟩ := hknown y (by simp)
  simp only [multiply, operand_eq [x, y] 0 rfl, operand_eq [x, y] 1 rfl, imm32Of_eq hins, pure_bind]
  cases hn : b.imm32? y with
  | some n =>
    refine selects_const hs hpin (.arith w .mul) hconst hsite rfl hres hins hn rfl
      (fun ra rd => emit (Emitter.imulImm w rd ra n))
      (fun ra rd => [.imulImm w rd.toGpr ra.toGpr n]) ?_ ?_
    · intro ra rd hra hrd
      exact appends_emit (emits_gg (hrd.isGeneral rfl) (hra.isGeneral rfl))
    · intro ra rd _ hrd
      exact .mulImm (hrd.isGeneral rfl)
  | none =>
    have h := selects_regs (b := b) hs hpin (.arith w .mul) hsite rfl hres hn rfl
      (fun ra rb rd => do emit (Emitter.mov w rd ra); emit (Emitter.imul w rd rb))
      (fun ra rb rd => [.mov w rd.toGpr ra.toGpr, .imul w rd.toGpr rb.toGpr]) ?_ ?_
    · simpa only [bind_assoc] using h
    · intro ra rb rd hra hrb hrd
      exact .seq (appends_emit (emits_gg (hrd.isGeneral rfl) (hra.isGeneral rfl)))
        (appends_emit (emits_gg (hrd.isGeneral rfl) (hrb.isGeneral rfl)))
    · intro ra rb rd _ hrb hrd hne
      exact .mulReg (hrd.isGeneral rfl) (hrb.isGeneral rfl) hne

end

theorem shift_yields (hconst : ConstHomes b info)
    (hsite : Site info left lo k [x, y] [.int w, .int32]) (hknown : Known b [x, y])
    (hres : Result info k (.int w)) (o : ShiftOp) :
    (shift b k o w [x, y]).Yields s fun _ s' =>
      Selected b info left lo (.shift w o) k x y s s' := by
  obtain ⟨ins, hins⟩ := hknown y (by simp)
  simp only [shift, operand_eq [x, y] 0 rfl, operand_eq [x, y] 1 rfl, imm32Of_eq hins, pure_bind]
  cases hn : b.imm32? y with
  | some n =>
    have h := selects_const hs hpin (.shift w o) hconst hsite rfl hres hins hn rfl
      (fun ra rd => do
        emit (Emitter.mov w rd ra)
        emit (Emitter.shiftImm o w rd (n.setWidth 8)))
      (fun ra rd => [.mov w rd.toGpr ra.toGpr,
        .shiftImm o w rd.toGpr (BitVec.ofNat 6 ((n.setWidth 8).toNat % w.bits))]) ?_ ?_
    · simpa only [bind_assoc] using h
    · intro ra rd hra hrd
      exact .seq (appends_emit (emits_gg (hrd.isGeneral rfl) (hra.isGeneral rfl)))
        (appends_emit (emits_g (hrd.isGeneral rfl)))
    · intro ra rd _ hrd
      exact .shiftImm (hrd.isGeneral rfl)
  | none =>
    obtain ⟨x', y', hxy, hx, hy⟩ := hsite.two
    cases hxy
    have hcx : Reg.rcx.IsMachine := by decide
    refine ((Holding.start hs hpin).evict hcx).andThen fun _ s1 ⟨h1, hfree1, _⟩ => ?_
    refine h1.usePair hx hy [.rcx] (by simp) fun ra rb s3 h3 hsa hsb hfree3 => ?_
    have hfree := hfree3 .rcx (by simp) hcx hfree1
    have hga : ra.IsGeneral := hsa.isGeneral rfl
    obtain ⟨fetch, hfetch, hbrings⟩ := h3.inPlace
    -- the count goes to its register before the one of the result is found
    have hcount : Appends (emit (Emitter.mov .w32 .rcx rb))
        [.mov .w32 Reg.rcx.toGpr rb.toGpr] :=
      appends_emit (emits_gg (by decide) (hsb.isGeneral rfl))
    have h4 := ((h3.emit _ hcount [.rcx] (by decide) (by simpa using hfree)
      (fun V g _ => ∀ n, V.env y.index = some (.int32 n) → (g .rcx).setWidth 32 = n)
      fun F V m _ hm => ⟨_, rfl, .setWord (by decide) .w32 _, fun n hn =>
        (State.word_setWord_self m .w32 Reg.rcx.toGpr _).trans (h3.holds hm (by simp) hn)⟩).of_ok
      (hcount s3)).1
    refine .bind ⟨(), _, hcount s3, ?_⟩
    have h := h4.compute (R := Pure (.shift w o)) hsite hres (by simp) [.rcx] (by simp)
      (fun rd => do emit (Emitter.mov w rd ra); emit (Emitter.shiftCl o w rd))
      (fun rd => [.mov w rd.toGpr ra.toGpr, .shiftCl o w rd.toGpr]) ?_ ?_
    · simp only [bind_assoc] at h
      refine h.mono fun _ s' ⟨hp, rd, spill, hsd, hex, _, hspill, hemit, hreg⟩ => ⟨hp, ?_⟩
      refine Made.lowers ⟨fetch, spill, hbrings, hspill, ?_, hreg⟩ (.shiftReg (hsd.isGeneral rfl)
        (by simpa using hex) hga (h3.ne_of_free (v := x.index) (by simp) hfree)) hn.symm
      rw [hemit]
      show (s3.emitter.withOps _).withOps _ = _
      rw [hfetch, Emitter.withOps_withOps, Emitter.withOps_withOps,
        List.append_assoc]
    · intro rd hrd
      exact .seq (appends_emit (emits_gg (hrd.isGeneral rfl) hga))
        (appends_emit (emits_g (hrd.isGeneral rfl)))
    · rintro F V args obs c m rd t ht hsd hex hV hreads ⟨rfl, hc⟩ hm hK
      obtain ⟨a, d, rfl, ha, hd⟩ := View.Reads.two hreads
      obtain ⟨u, v, rfl, rfl⟩ := Simplify.words_of_shift (u := a) (v := d) (w := w)
        (by simp only [List.map, hx.ty hV ha, hy.ty hV hd])
      cases (Interp.pureValue_shift w o u v).symm.trans hc
      rw [← State.holds_ofInt.mp (ht.holds hm (r := ra) (by simp) ha)]
      exact .ofWord (Machine.exec_shiftCl (hsd.isGeneral rfl) (by simpa using hex) o w (hK v hd))

theorem divide_yields (hsite : Site info left lo k [x, y] [.int w, .int w])
    (hres : Result info k (.int w)) (remainder : Bool) :
    (divide k w remainder [x, y]).Yields s fun _ s' =>
      Selected b info left lo (.arith w (if remainder then .rem else .div)) k x y s s' := by
  obtain ⟨x', y', hxy, hx, hy⟩ := hsite.two
  cases hxy
  have hax : Reg.rax.IsMachine := by decide
  have hdx : Reg.rdx.IsMachine := by decide
  simp only [divide, operand_eq [x, y] 0 rfl, operand_eq [x, y] 1 rfl, pure_bind]
  refine ((Holding.start hs hpin).evict hax).andThen fun _ s1 ⟨h1, hax1, _⟩ => ?_
  refine (h1.evict hdx).andThen fun _ s2 ⟨h2, hdx2, hkeep2⟩ => ?_
  refine h2.usePair hx hy [.rax, .rdx] (by simp) fun ra rb s4 h4 hsa hsb hfree4 => ?_
  have hrb : (y.index, rb) ∈ [(x.index, ra), (y.index, rb)] := by simp
  have hax4 := hfree4 .rax (by simp) hax (hkeep2 .rax hax hax1)
  have hdx4 := hfree4 .rdx (by simp) hdx hdx2
  have hgb : rb.IsGeneral := hsb.isGeneral rfl
  obtain ⟨fetch, hfetch, hbrings⟩ := h4.inPlace
  have happ : Appends (do emit (Emitter.mov w .rax ra); emit (Emitter.idiv w rb))
      [.mov w Reg.rax.toGpr ra.toGpr, .signExtend w, .idiv w rb.toGpr] :=
    .seq (appends_emit (emits_gg (by decide) (hsa.isGeneral rfl)))
      (appends_emit (Machine.emits_idiv hgb))
  have hfixed : ∀ r ∈ [Reg.rax, Reg.rdx], Suits (.int w) r := by
    intro r hr
    simp only [List.mem_cons, List.not_mem_nil, or_false] at hr
    rcases hr with rfl | rfl
    · exact ⟨(allocatable_iff _).mpr (.inl (by decide)), rfl⟩
    · exact ⟨(allocatable_iff _).mpr (.inl (by decide)), rfl⟩
  have hrd : (if remainder then Reg.rdx else Reg.rax) ∈ [Reg.rax, Reg.rdx] := by
    cases remainder <;> simp
  have hsel : Selects (.arith w (if remainder then .rem else .div))
      (if remainder then Reg.rdx else Reg.rax) ra (.reg rb) [] _ :=
    .divide (by cases remainder <;> simp) hgb (h4.ne_of_free hrb hax4) (h4.ne_of_free hrb hdx4)
  have htrap : Opcode.canTrap (.arith w (if remainder then .rem else .div)) = true := by
    cases remainder <;> rfl
  have h := h4.claim (R := Pure (.arith w (if remainder then .rem else .div))) hsite (by simp) hres
    happ [.rax, .rdx] (by decide) (by simp [hax4, hdx4]) hrd (hfixed _ hrd) ?_
  · refine Step.Yields.assoc (h.mono fun _ s' ⟨hp, hreg, hemit⟩ => ⟨hp, ?_⟩)
    refine Made.lowers ⟨fetch, [], hbrings, List.forall_mem_nil _, ?_, hreg⟩ hsel
      (by rw [htrap]; rfl)
    rw [hemit, hfetch, Emitter.withOps_withOps]
    rfl
  · rintro F V args obs c m hV hreads ⟨rfl, hc⟩ hm
    obtain ⟨a, d, rfl, ha, hd⟩ := View.Reads.two hreads
    have hset := hsel.settles (c := F.around)
      (by simp only [List.map, hx.ty hV ha, hy.ty hV hd]; rfl) (h4.holds hm (by simp) ha)
      (h4.holds hm hrb hd) F.around.float
    rw [hc, touched, htrap] at hset
    obtain ⟨m', hexec, hsame, hv⟩ := hset
    exact ⟨m', hexec, hsame, rfl, hv⟩

/-- Every integer operation of two operands with a result of their type. -/
theorem arith_yields (hconst : ConstHomes b info)
    (hsite : Site info left lo k [x, y] [.int w, .int w]) (hknown : Known b [x, y])
    (hres : Result info k (.int w)) (o : IntOp) :
    (arith b k o w [x, y]).Yields s fun _ s' =>
      Selected b info left lo (.arith w o) k x y s s' := by
  cases o with
  | add | sub | and | or | xor => exact alu_yields hs hpin hconst hsite hknown hres rfl
  | mul => exact multiply_yields hs hpin hconst hsite hknown hres
  | div => exact divide_yields hs hpin hsite hres false
  | rem => exact divide_yields hs hpin hsite hres true

end TwoOperands

include hs hpin in
theorem unary_yields (hsite : Site info left lo k [x] [.int w]) (hres : Result info k (.int w))
    {op : IntUnary} :
    (unary k op w [x]).Yields s fun _ s' =>
      Performed info left lo k [x] (Pure (.unary w op)) s s' ∧
        LowersUnary info (.unary w op) k x s s' := by
  have h := (unaryPure hs hpin (.unary w op) hsite hres
    (fun ra rd => do emit (Emitter.mov w rd ra); emit (Emitter.unary op w rd))
    (fun ra rd => [.mov w rd.toGpr ra.toGpr, .unary op w rd.toGpr]) ?_ ?_).mono
    fun _ _ ⟨hp, ra, rd, _, hsd, hmade⟩ =>
      And.intro hp (Made.lowersUnary (.unary w op) hmade (hsd.isGeneral rfl))
  · simpa only [unary, operand_eq [x] 0 rfl, pure_bind, bind_assoc] using h
  · intro ra rd hra hrd
    exact .seq (appends_emit (emits_gg (hrd.isGeneral rfl) (hra.isGeneral rfl)))
      (appends_emit (emits_g (hrd.isGeneral rfl)))
  · intro F m ra rd a c hra hrd _ ha hc
    simp only [Interp.pureValue, Option.bind_eq_bind, Option.bind_eq_some_iff, Option.pure_def,
      Option.some.injEq] at hc
    obtain ⟨u, hu, rfl⟩ := hc
    rw [← holds_of_word? ha hu]
    exact .ofWord (Machine.exec_unary (hrd.isGeneral rfl) op w)

/-! ### Float operations -/

variable {size : FloatSize} {disp : BitVec 32}

theorem lane_of_pattern? {m : State} {a : Const} {p : BitVec size.bits} (ha : m.Holds r a)
    (hp : a.pattern? size = some p) : m.lane size r.toXmm = p := by
  cases size <;> cases a <;> simp only [Const.pattern?, reduceCtorEq] at hp
  · cases hp; exact ha
  · cases hp; exact ha

include hs hpin in
theorem floatArith_yields (hsite : Site info left lo k ops [.float size, .float size])
    (hres : Result info k (.float size)) {fop : FloatOp} :
    (floatArith k fop size ops).Yields s fun _ s' =>
      Performed info left lo k ops (Pure (.floatArith size fop)) s s' := by
  obtain ⟨x, y, rfl, -, -⟩ := hsite.two
  have h := (binaryPure hs hpin (.floatArith size fop) hsite hres
    (fun ra rb rd => do
      emit (Emitter.movaps rd ra)
      emit (Emitter.floatArith fop size rd rb))
    (fun ra rb rd => [.movaps rd.toXmm ra.toXmm, .floatArith fop size rd.toXmm rb.toXmm])
    ?_ ?_).mono fun _ _ h => h.1
  · simpa only [floatArith, operand_eq [x, y] 0 rfl, operand_eq [x, y] 1 rfl, pure_bind,
      bind_assoc] using h
  · intro ra rb rd hra hrb hrd
    exact .seq (appends_emit (emits_xx (hrd.isXmm rfl) (hra.isXmm rfl)))
      (appends_emit (emits_xx (hrd.isXmm rfl) (hrb.isXmm rfl)))
  · intro F m ra rb rd a b c hra hrb hrd hne _ ha hb hc
    simp only [Interp.pureValue, Option.bind_eq_bind, Option.bind_eq_some_iff, Option.pure_def,
      Option.some.injEq] at hc
    obtain ⟨p, hp, q, hq, rfl⟩ := hc
    obtain ⟨m', hm', hsame, hlane⟩ := Machine.exec_floatArith (c := F.around) (m := m) ra
      (hrd.isXmm rfl) (hrb.isXmm rfl) hne fop size
    rw [lane_of_pattern? ha hp, lane_of_pattern? hb hq] at hlane
    exact .ofHolds ⟨m', hm', hsame, State.holds_ofPattern.mpr hlane⟩ (by simp)

theorem signMask_appends (size : FloatSize) :
    Appends (signMask size) (Machine.signMaskInsts size) := by
  have hg : Convention.scratch.IsGeneral := by decide
  have hx : Convention.floatScratch.IsXmm := by decide
  cases size <;> exact .seq (appends_emit (emits_g hg)) (appends_emit (emits_xg hx hg))

include hs hpin in
theorem floatNeg_yields (hsite : Site info left lo k ops [.float size])
    (hres : Result info k (.float size)) :
    (floatNeg k size ops).Yields s fun _ s' =>
      Performed info left lo k ops (Pure (.floatNeg size)) s s' := by
  obtain ⟨x, rfl, -⟩ := hsite.one
  have h := (unaryPure hs hpin (.floatNeg size) hsite hres
    (fun ra rd => do
      emit (Emitter.movaps rd ra)
      signMask size
      emit (Emitter.xorps rd Convention.floatScratch))
    (fun ra rd => .movaps rd.toXmm ra.toXmm :: (Machine.signMaskInsts size ++
      [.xorps rd.toXmm Convention.floatScratch.toXmm])) ?_ ?_).mono fun _ _ h => h.1
  · simpa only [floatNeg, operand_eq [x] 0 rfl, pure_bind, bind_assoc] using h
  · intro ra rd hra hrd
    exact .seq (appends_emit (emits_xx (hrd.isXmm rfl) (hra.isXmm rfl)))
      (.seq (signMask_appends size)
        (appends_emit (emits_xx (hrd.isXmm rfl) (by decide))))
  · intro F m ra rd a c hra hrd _ ha hc
    simp only [Interp.pureValue, Option.bind_eq_bind, Option.bind_eq_some_iff, Option.pure_def,
      Option.some.injEq] at hc
    obtain ⟨p, hp, rfl⟩ := hc
    have hne : rd ≠ Convention.floatScratch := fun h => hrd.not_reserved (by simp [h])
    obtain ⟨m', hm', hsame, hlane⟩ := Machine.exec_floatNeg (c := F.around) (m := m) ra
      (hrd.isXmm rfl) hne size
    rw [lane_of_pattern? ha hp] at hlane
    exact .ofHolds ⟨m', hm', hsame, State.holds_ofPattern.mpr hlane⟩ (by simp [scratches])

theorem floatRel_appends {rel : FloatRel} {ra : Reg} (hrd : rd.IsGeneral) (hra : ra.IsXmm)
    (hrb : rb.IsXmm) :
    Appends (floatRel rel size rd ra rb) (Machine.floatRelInsts rel size rd ra rb) := by
  have hg : Convention.scratch.IsGeneral := by decide
  cases rel with
  | eq =>
    exact .seq (appends_emit (emits_xx hra hrb)) (.seq (appends_emit (emits_g hrd))
      (.seq (appends_emit (emits_g hg)) (appends_emit (emits_gg hrd hg))))
  | gt | ge => exact .seq (appends_emit (emits_xx hra hrb)) (appends_emit (emits_g hrd))
  | lt | le => exact .seq (appends_emit (emits_xx hrb hra)) (appends_emit (emits_g hrd))

include hs hpin in
theorem floatCompare_yields (hsite : Site info left lo k ops [.float size, .float size])
    (hres : Result info k .int32) {rel : FloatRel} :
    (floatCompare k rel size ops).Yields s fun _ s' =>
      Performed info left lo k ops (Pure (.floatCompare size rel)) s s' := by
  obtain ⟨x, y, rfl, -, -⟩ := hsite.two
  have h := (binaryPure hs hpin (.floatCompare size rel) hsite hres
    (fun ra rb rd => do floatRel rel size rd ra rb; emit (Emitter.movzxByte rd rd))
    (fun ra rb rd => Machine.floatRelInsts rel size rd ra rb ++ [.movzxByte rd.toGpr rd.toGpr])
    ?_ ?_).mono fun _ _ h => h.1
  · simpa only [floatCompare, operand_eq [x, y] 0 rfl, operand_eq [x, y] 1 rfl, pure_bind,
      bind_assoc] using h
  · intro ra rb rd hra hrb hrd
    exact .seq (floatRel_appends (hrd.isGeneral rfl) (hra.isXmm rfl) (hrb.isXmm rfl))
      (appends_emit (emits_gg (hrd.isGeneral rfl) (hrd.isGeneral rfl)))
  · intro F m ra rb rd a b c hra hrb hrd _ _ ha hb hc
    simp only [Interp.pureValue, Option.bind_eq_bind, Option.bind_eq_some_iff, Option.pure_def,
      Option.some.injEq] at hc
    obtain ⟨p, hp, q, hq, rfl⟩ := hc
    have hne : rd ≠ Convention.scratch := fun h => hrd.not_reserved (by simp [h])
    rw [← lane_of_pattern? ha hp, ← lane_of_pattern? hb hq]
    exact .ofHolds (Machine.exec_floatCompare ra rb (hrd.isGeneral rfl) hne rel size)
      (by simp [scratches])

/-! ### Conversions and selection -/

theorem convertReg_appends {conv : Conversion} {ra : Reg} (hra : Suits conv.source ra)
    (hrd : Suits conv.target rd) :
    Appends (convertReg conv rd ra) (Machine.convertInsts conv rd ra) := by
  have hg : Convention.scratch.IsGeneral := by decide
  have hsigned : ∀ (size : FloatSize) (w : Width) (q : Reg), rd.IsXmm → q.IsGeneral →
      Appends (signedToFloat size w rd q) (Machine.signedToFloatInsts size w rd q) :=
    fun size w q hd hq => .seq (appends_emit (emits_xx hd hd))
      (appends_emit (emits_xg hd hq))
  have hunsigned : ∀ size : FloatSize, rd.IsXmm → ra.IsGeneral →
      Appends (unsignedToFloat size rd ra) (.mov .w32 Convention.scratch.toGpr ra.toGpr
        :: Machine.signedToFloatInsts size .w64 rd Convention.scratch) :=
    fun size hd ha => .seq (appends_emit (emits_gg hg ha)) (hsigned size .w64 _ hd hg)
  cases conv with
  | i2q | ui2uq | q2i => exact appends_emit (emits_gg (hrd.isGeneral rfl) (hra.isGeneral rfl))
  | i2d => exact hsigned .double .w32 ra (hrd.isXmm rfl) (hra.isGeneral rfl)
  | q2d => exact hsigned .double .w64 ra (hrd.isXmm rfl) (hra.isGeneral rfl)
  | i2f => exact hsigned .single .w32 ra (hrd.isXmm rfl) (hra.isGeneral rfl)
  | ui2d => exact hunsigned .double (hrd.isXmm rfl) (hra.isGeneral rfl)
  | ui2f => exact hunsigned .single (hrd.isXmm rfl) (hra.isGeneral rfl)
  | d2i | d2q | f2i => exact appends_emit (emits_gx (hrd.isGeneral rfl) (hra.isXmm rfl))
  | f2d | d2f => exact appends_emit (emits_xx (hrd.isXmm rfl) (hra.isXmm rfl))

include hs hpin in
theorem convert_yields {conv : Conversion} (hsite : Site info left lo k [x] [conv.source])
    (hres : Result info k conv.target) :
    (convert k conv [x]).Yields s fun _ s' =>
      Performed info left lo k [x] (Pure (.convert conv)) s s' ∧
        (conv.target.isFloat = false → LowersUnary info (.convert conv) k x s s') := by
  have h := (unaryPure hs hpin (.convert conv) hsite hres (fun ra rd => convertReg conv rd ra)
    (fun ra rd => Machine.convertInsts conv rd ra) ?_ ?_).mono
    fun _ _ ⟨hp, ra, rd, _, hsd, hmade⟩ => And.intro hp fun ht =>
      Made.lowersUnary (.convert conv) hmade (hsd.isGeneral ht)
  · simpa only [convert, operand_eq [x] 0 rfl, pure_bind] using h
  · exact fun ra rd hra hrd => convertReg_appends hra hrd
  · intro F m ra rd a c hra hrd _ ha hc
    exact .ofHolds (Machine.exec_convert hrd.bank_spec ha hc) (by simp [scratches])

/-- The code that chooses between floats jumps over the second copy. -/
theorem selectFloat_yields {rc yes no : Reg} (hrd : rd.IsXmm) (hrc : rc.IsGeneral)
    (hyes : yes.IsXmm) (hno : no.IsXmm) (hny : yes ≠ rd) :
    (selectReg (.float size) rd rc yes no).Yields s fun _ s' => Coded s s' ∧
      ∀ (c : Machine.Surroundings) (A : State → Prop), Runs c s.emitter s'.emitter A fun m' =>
        ∃ m, A m ∧ State.SameBut [rd] m m' ∧ m'.xmm rd.toXmm
          = if m.word .w32 rc.toGpr = 0 then m.xmm no.toXmm else m.xmm yes.toXmm := by
  let e := s.emitter
  let skip := e.labels.size
  let e1 := e.withLabel
  let e2 := e1.withOps [.movaps rd.toXmm no.toXmm, .test .w32 rc.toGpr rc.toGpr]
  let e3 := e2.withJump (some .e) skip
  let e4 := e3.withOps [.movaps rd.toXmm yes.toXmm]
  have hskip : skip < e2.labels.size := by
    show skip < (e.labels.push none).size
    simp [skip]
  have hopen : e4.labels[skip]? = some none := by
    show (e.labels.push none)[skip]? = _
    simp [skip]
  refine .bind ⟨_, { s with emitter := e1 }, emit_ok (Emitter.newLabel_ok _), ?_⟩
  have h2 : Appends (do
      emit (Emitter.movaps rd no)
      emit (Emitter.test .w32 rc rc)) _ :=
    .seq (appends_emit (emits_xx hrd hno)) (appends_emit (emits_gg hrc hrc))
  refine Step.Yields.assoc (.bind ⟨(), { s with emitter := e2 }, h2 _, ?_⟩)
  refine .bind ⟨(), { s with emitter := e3 }, emit_ok (Emitter.jcc_ok hskip .e), ?_⟩
  refine .bind ⟨(), { s with emitter := e4 }, appends_emit (emits_xx hrd hyes) _, ?_⟩
  refine emit_yields ((Emitter.bind_yields hopen).mono fun _ e5 h5 => ?_)
  have hext3 : e.Extends e3 := (Emitter.extends_withLabel e).trans
    ((Emitter.extends_withOps e1 _).trans (Emitter.extends_withJump e2 _ _))
  have hext4 := Emitter.extends_withOps e3 [.movaps rd.toXmm yes.toXmm]
  have hext5 := h5.grows hopen
  have hlabels : e4.labels = e.labels.push none := rfl
  have hsize : e5.labels.size = skip + 1 := by
    rw [h5.labels, Array.size_setIfInBounds, hlabels, Array.size_push]
  refine ⟨⟨⟨hext3.trans (hext4.trans hext5), ?_, fun l hl => ?_, rfl, rfl,
    fun _ hp => .inl hp, fun l hl => ?_, fun cond l hmem => ?_⟩, rfl, rfl, rfl⟩, ?_⟩
  · exact Nat.le_of_lt (by rw [hsize]; exact Nat.lt_succ_self _)
  · rw [h5.other (Nat.ne_of_lt hl), hlabels, Array.getElem?_push_lt hl,
      ← Array.getElem?_eq_getElem hl]
  · rcases Nat.eq_or_lt_of_le hl with rfl | hgt
    · rw [h5.self hopen]
      simp
    · rw [Array.getElem?_eq_none (by rw [hsize]; exact hgt)]
      simp
  · rw [h5.jump_mem, Emitter.jump_mem_withOps, Emitter.jump_mem_withJump,
      Emitter.jump_mem_withOps] at hmem
    exact hmem.imp_right fun h => by rw [hsize, h.2]; exact Nat.lt_succ_self _
  · intro c A p hp m hm
    have hp4 := hext5.within hp
    have hp3 := hext4.within hp4
    -- the first copy and the test
    let m1 := m.setXmm rd.toXmm (m.xmm no.toXmm)
    let m2 := m1.withFlags (some (.ofAnd (m.word .w32 rc.toGpr) (m.word .w32 rc.toGpr)))
    have hrun2 : Machine.Reaches c p e.count m e2.count m2 := by
      rw [show e2.count = e1.count + 2 from Emitter.count_withOps ..]
      exact Machine.reaches_ops ((Emitter.extends_withJump e2 _ _).within hp3) rfl
    have hsame2 : State.SameBut [rd] m m2 := (State.SameBut.setXmm hrd _).withFlags _
    have hflags := Machine.zero_ofAnd (m.word .w32 rc.toGpr)
    obtain ⟨htaken, hnext⟩ := Machine.step_branch (c := c) (t := e5.count) (m := m2) hp3.jump rfl
    by_cases hzero : m.word .w32 rc.toGpr = 0
    · refine ⟨m2, hrun2.trans (.step (htaken ?_ ?_) (.refl _ _)), m, hm, hsame2, ?_⟩
      · rw [Machine.Cond.holds, hflags, hzero]; rfl
      · exact hp.labels skip e5.count (h5.self hopen)
      · rw [if_pos hzero]; exact State.xmm_setXmm_self ..
    · let m3 := m2.setXmm rd.toXmm (m2.xmm yes.toXmm)
      have hrun4 : Machine.Reaches c p e3.count m2 e4.count m3 := by
        rw [show e4.count = e3.count + 1 from Emitter.count_withOps ..]
        exact Machine.reaches_ops hp4 rfl
      have hjump : e3.count = e2.count + 1 := Emitter.count_withJump ..
      obtain ⟨m4, hrun5, hm4⟩ := Machine.Runs.bound h5 hopen (· = m3) p hp m3 rfl
      rw [hm4] at hrun5
      refine ⟨m3, (hrun2.trans (.step (hnext ?_) (hjump ▸ hrun4))).trans hrun5, m, hm,
        hsame2.again (.setXmm hrd _), ?_⟩
      · rw [Machine.Cond.holds, hflags]; simpa using hzero
      · rw [if_neg hzero]
        refine (State.xmm_setXmm_self ..).trans ?_
        exact State.xmm_setXmm_of_ne (fun he => hny ((Reg.toXmm_inj hyes hrd).mp he)) _

include hs hpin in
theorem select_yields {t : ValTy} (hsite : Site info left lo k ops [.int32, t, t])
    (hres : Result info k t) :
    (select k t ops).Yields s fun _ s' =>
      Performed info left lo k ops (Pure (.select t)) s s' := by
  obtain ⟨x, y, z, rfl, hx, hy, hz⟩ := hsite.three
  obtain ⟨e, he, rfl, -⟩ := id hres
  simp only [select, operand_eq [x, y, z] 0 rfl, operand_eq [x, y, z] 1 rfl,
    operand_eq [x, y, z] 2 rfl, pure_bind]
  refine (Holding.start hs hpin).usePair hx hy [] (by simp) fun rc yes s2 h2 hsc hsy _ => ?_
  refine (h2.use hz [] (by simp)).andThen fun no s3 ⟨h3, _⟩ => ?_
  refine (h3.aside he [] (by simp)).andThen fun rd s4 ⟨h4, _⟩ => ?_
  simp only [List.nil_append, List.cons_append] at h4
  have hnc : rc ≠ rd := (h4.owner (x.index, rc) (by simp)).2.2
  have hny : yes ≠ rd := (h4.owner (y.index, yes) (by simp)).2.2
  have hsn := h3.suits (r := no) (by simp) hz
  have hsd := (h4.coherent.aside he).1
  have hgc : rc.IsGeneral := hsc.isGeneral rfl
  -- what the value is, and that the registers hold what it is made of
  have hval : ∀ {F V args obs c m}, V.Typed info → V.Reads [x, y, z] args →
      Pure (.select e.ty) F V args obs c → Represents F V s4.values m →
      ∃ a b, obs = [] ∧ m.Holds yes a ∧ m.Holds no b ∧ a.ty = e.ty ∧ b.ty = e.ty ∧
        c = if m.word .w32 rc.toGpr = 0 then b else a := by
    rintro F V args obs c m hV hreads ⟨rfl, hc⟩ hm
    rcases hreads with _ | ⟨hd, _ | ⟨ha, _ | ⟨hb, _ | _⟩⟩⟩
    simp only [Interp.pureValue, Option.bind_eq_bind, Option.bind_eq_some_iff, Option.pure_def,
      Option.some.injEq] at hc
    obtain ⟨u, hu, rfl⟩ := hc
    have hrc := holds_of_word? (h4.holds hm (r := rc) (by simp) hd.2) hu
    exact ⟨_, _, rfl, h4.holds hm (by simp) ha.2, h4.holds hm (by simp) hb.2, hy.ty hV ha.2,
      hz.ty hV hb.2, by rw [hrc]⟩
  cases hty : e.ty with
  | int w =>
    rw [hty] at hsd hsy hsn hval
    have happ : Appends (selectReg (.int w) rd rc yes no) [.mov w rd.toGpr no.toGpr,
        .test .w32 rc.toGpr rc.toGpr, .cmovne w rd.toGpr yes.toGpr] :=
      .seq (appends_emit (emits_gg (hsd.isGeneral rfl) (hsn.isGeneral rfl)))
        (.seq (appends_emit (emits_gg hgc hgc))
          (appends_emit (emits_gg (hsd.isGeneral rfl) (hsy.isGeneral rfl))))
    refine (h4.finishOps hsite (by simp) hres happ fun F V args obs c m hV hreads hR hm _ =>
      ?_).mono fun _ _ h => h.1
    obtain ⟨a, b, rfl, ha, hb, hta, htb, rfl⟩ := hval hV hreads hR hm
    obtain ⟨u, rfl⟩ := Const.exists_ofInt hta
    obtain ⟨v, rfl⟩ := Const.exists_ofInt htb
    obtain ⟨m', hm', hsame, hword⟩ := Machine.exec_select (c := F.around) (m := m) no
      (hsd.isGeneral rfl) hgc (hsy.isGeneral rfl) hnc hny w
    rw [State.holds_ofInt.mp ha, State.holds_ofInt.mp hb] at hword
    refine .ofHolds ⟨m', hm', hsame, ?_⟩ (by simp)
    rw [← apply_ite (Const.ofInt w)]
    exact State.holds_ofInt.mpr hword
  | float size =>
    rw [hty] at hsd hsy hsn hval
    refine (h4.finish hsite (by simp) hres ((selectFloat_yields (hsd.isXmm rfl) hgc (hsy.isXmm rfl)
      (hsn.isXmm rfl) hny).mono fun _ s5 h5 => ⟨h5.1, fun F V args obs c hV hreads hR => ?_⟩)).mono
      fun _ _ h => h.1
    refine (h5.2 F.around _).mono (fun _ hm => hm) ?_
    rintro m' ⟨m, ⟨hm, -⟩, hsame, hxmm⟩
    obtain ⟨a, b, rfl, ha, hb, hta, htb, rfl⟩ := hval hV hreads hR hm
    obtain ⟨u, rfl⟩ := Const.exists_ofPattern hta
    obtain ⟨v, rfl⟩ := Const.exists_ofPattern htb
    refine ⟨?_, ?_⟩
    · simp only [List.append_nil]
      exact h4.coherent.touch_aside rfl hV hm (hsame.mono (by simp))
    · split
      · rename_i h0
        rw [if_pos h0] at hxmm
        rw [State.holds_ofPattern, State.lane, hxmm]
        exact State.holds_ofPattern.mp hb
      · rename_i h0
        rw [if_neg h0] at hxmm
        rw [State.holds_ofPattern, State.lane, hxmm]
        exact State.holds_ofPattern.mp ha

/-! ### Memory -/

/-- What a load computes. All that it reads is outside of the frame. -/
def Loads (kind : LoadKind) (disp : BitVec 32) : Semantics := fun F V args obs c =>
  ∃ base, args = [.int64 base] ∧
    let a := base + disp.signExtend 64
    (∀ y, Memory.InRange a kind.bytes y → F.around.hidden y = false) ∧
      obs = [.load a kind.bytes (V.mem.read a kind.bytes)] ∧
      c = kind.readAs F.around.float (V.mem.read a kind.bytes)

theorem LoadKind.bytes_pos (kind : LoadKind) : 0 < kind.bytes ∧ kind.bytes ≤ 8 := by
  rcases kind with - | - | - | - | ((- | -) | (- | -)) | - <;> decide

theorem StoreKind.bytes_pos (kind : StoreKind) : 0 < kind.bytes ∧ kind.bytes ≤ 8 := by
  rcases kind with - | - | ((- | -) | (- | -)) <;> decide

theorem loadReg_appends {kind : LoadKind} {ra : Reg} (hra : ra.IsGeneral)
    (hrd : Suits kind.result rd) :
    Appends (loadReg kind rd ra disp) (Machine.loadInsts kind rd ⟨ra.toGpr, disp⟩) := by
  have hint : ∀ (width : Machine.MemWidth) (signed : Bool), rd.IsGeneral →
      Appends (emit (Emitter.load width signed rd ra disp))
        [.load width signed rd.toGpr ⟨ra.toGpr, disp⟩] := fun width signed hg =>
    appends_emit (emits_mg (f := fun a q => .load width signed q a) hra hg)
  have hfloat : ∀ size : FloatSize, rd.IsXmm →
      Appends (emit (Emitter.loadFloat size rd ra disp))
        [.loadFloat size rd.toXmm ⟨ra.toGpr, disp⟩] := fun size hx =>
    appends_emit (emits_mx (f := fun a q => .loadFloat size q a) hra hx)
  rcases kind with - | - | - | - | ((- | -) | size) | -
  · exact hint .b8 true (hrd.isGeneral rfl)
  · exact hint .b8 false (hrd.isGeneral rfl)
  · exact hint .b16 true (hrd.isGeneral rfl)
  · exact hint .b16 false (hrd.isGeneral rfl)
  · exact hint .b32 false (hrd.isGeneral rfl)
  · exact hint .b64 false (hrd.isGeneral rfl)
  · exact hfloat size (hrd.isXmm rfl)
  · exact .seq (hfloat .single (hrd.isXmm rfl))
      (appends_emit (emits_xx (hrd.isXmm rfl) (hrd.isXmm rfl)))

include hs hpin in
theorem load_yields {kind : LoadKind} (hsite : Site info left lo k ops [.int64])
    (hres : Result info k kind.result) : (load k kind disp ops).Yields s fun _ s' =>
      Performed info left lo k ops (Loads kind disp) s s' := by
  obtain ⟨x, rfl, hx⟩ := hsite.one
  simp only [load, operand_eq [x] 0 rfl, pure_bind]
  refine (unaryForm (R := Loads kind disp) hs hpin hsite (by simp) hx hres
    (fun ra rd => loadReg kind rd ra disp)
    (fun ra rd => Machine.loadInsts kind rd ⟨ra.toGpr, disp⟩) ?_ ?_ (fun _ _ _ => True)
    fun _ _ _ _ _ _ _ => trivial).mono fun _ _ h => h.1
  · exact fun ra rd hra hrd => loadReg_appends (hra.isGeneral rfl) hrd
  · rintro F V args obs c m ra rd hra hrd - - (_ | ⟨ha, _ | _⟩) ⟨base, hargs, hvis, rfl, rfl⟩
      ⟨-, t, -, hm⟩ hholds
    cases hargs
    have haddr : m.address ⟨ra.toGpr, disp⟩ = base + disp.signExtend 64 := by
      rw [State.address, show m.gpr ra.toGpr = base from hholds _ ha.2]
    have hread : m.mem.read (base + disp.signExtend 64) kind.bytes
        = V.mem.read (base + disp.signExtend 64) kind.bytes :=
      Memory.read_congr fun i hi => hm.visible _ (hvis _ (Memory.inRange_add hi
        (Nat.lt_of_le_of_lt (LoadKind.bytes_pos kind).2 (by decide))))
    have hhid : F.around.hidden (m.address ⟨ra.toGpr, disp⟩) = false := by
      rw [haddr]
      exact hvis _ (by simpa [Memory.InRange] using (LoadKind.bytes_pos kind).1)
    obtain ⟨m', hm', hsame, hc⟩ := Machine.exec_loadInsts kind hhid hrd.bank_spec
    rw [haddr, hread] at hsame hc
    exact ⟨m', hm', hsame.mono (by simp), hc⟩

/-- What a store does. All that it writes is outside of the frame. -/
def Stores (kind : StoreKind) (disp : BitVec 32) : Effects := fun F V args mem obs =>
  ∃ v base, args = [v, .int64 base] ∧
    let a := base + disp.signExtend 64
    (∀ z, Memory.InRange a kind.bytes z → F.around.hidden z = false) ∧
      mem = V.mem.write a kind.bytes v.bits ∧
      obs = [.store a kind.bytes (Memory.lowBytes kind.bytes v.bits)]

theorem storeReg_appends {kind : StoreKind} {ra : Reg} (hra : Suits kind.operand ra)
    (hrb : rb.IsGeneral) :
    Appends (storeReg kind ra rb disp) [Machine.storeKindInst kind ⟨rb.toGpr, disp⟩ ra] := by
  rcases kind with - | - | ((- | -) | size)
  · exact appends_emit (emits_mg hrb (hra.isGeneral rfl))
  · exact appends_emit (emits_mg hrb (hra.isGeneral rfl))
  · exact appends_emit (emits_mg hrb (hra.isGeneral rfl))
  · exact appends_emit (emits_mg hrb (hra.isGeneral rfl))
  · exact appends_emit (emits_mx hrb (hra.isXmm rfl))

include hs hpin in
theorem store_yields {kind : StoreKind} (hsite : Site info left lo k ops [kind.operand, .int64]) :
    (store kind disp ops).Yields s fun _ s' =>
      Affected info left lo k ops (Stores kind disp) s s' := by
  obtain ⟨x, y, rfl, hx, hy⟩ := hsite.two
  simp only [store, operand_eq [x, y] 0 rfl, operand_eq [x, y] 1 rfl, pure_bind]
  refine (Holding.start hs hpin).usePair hx hy [] (by simp) fun ra rb s2 h2 hsa hsb _ => ?_
  refine h2.finish (R := Stores kind disp) hsite (by simp) (storeReg_appends hsa (hsb.isGeneral rfl))
    ?_
  · rintro F V args mem obs m hF hV hreads ⟨v, base, rfl, hvis, rfl, rfl⟩ hm
    obtain ⟨_, _, hargs, hv, hbase⟩ := View.Reads.two hreads
    cases hargs
    have hb : m.gpr rb.toGpr = base := h2.holds hm (r := rb) (by simp) hbase
    have haddr : m.address ⟨rb.toGpr, disp⟩ = base + disp.signExtend 64 := by
      rw [State.address, hb]
    have hhid : F.around.hidden (m.address ⟨rb.toGpr, disp⟩) = false := by
      rw [haddr]
      exact hvis _ (by simpa [Memory.InRange] using (StoreKind.bytes_pos kind).1)
    have hexec := Machine.exec_storeKindInst kind hhid (h2.holds hm (r := ra) (by simp) hv)
      (hx.ty hV hv)
    rw [haddr] at hexec
    refine ⟨_, by rw [execAll, hexec]; rfl, ?_⟩
    refine hm.outside hF h2.coherent.homes (fun z hz => ?_) (fun z hz => ?_) _
    · refine Memory.write_of_outside _ _ fun hin => ?_
      rw [hvis z hin] at hz
      cases hz
    · by_cases hin : Memory.InRange (base + disp.signExtend 64) kind.bytes z
      · simp only [Memory.write, if_pos hin]
      · rw [Memory.write_of_outside _ _ hin, Memory.write_of_outside _ _ hin]
        exact hm.visible z hz

/-- Nothing is done. -/
def Idles : Effects := fun _ V _ mem obs => mem = V.mem ∧ obs = []

include hs hpin in
/-- Uses that are only counted. -/
theorem live_yields {ts : List ValTy} (hsite : Site info left lo k ops ts) :
    (finishUses ops).Yields s fun _ s' => Affected info left lo k ops Idles s s' := by
  refine (Holding.start hs hpin).finish (R := Idles) hsite (by simp) appends_pure ?_
  rintro F V args mem obs m - - - ⟨rfl, rfl⟩ hm
  exact ⟨m, rfl, by rw [List.append_nil]; exact hm⟩

end JitBackend.Gen
