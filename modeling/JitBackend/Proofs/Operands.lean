import JitBackend.Proofs.Placement
import JitBackend.Proofs.Sequences

namespace JitBackend.Gen

/-!
# Operands and results

The frame that the code of most instructions shares: operands are brought into registers, a
register is set aside for the result, some instructions compute it there, the uses are counted
and the result is recorded.

* `Holding` — some values are held in registers for the instruction at hand;
* `Holding.use`, `Holding.aside` — one more operand, a register for the result;
* `Aside.finish` — the end of an instruction with a result;
* `Grown` — what code with labels of its own leaves alone.
-/

open Machine (Inst State Runs execAll Observation)

variable {info : Infos} {left : Nat → Nat} {lo k : Nat} {s s' s'' : CodeState}
  {i : ValueInfo} {r : Reg} {v : Nat} {x : Gen Unit}
  {is : List Inst} {t : ValTy} {c : Const} {V : View} {ops : List Handle} {ts : List ValTy}

/-! ### Code with labels of its own -/

/-- Nothing but code, counters, reports and new labels were added, and exits whose labels are
    bound. The new labels are bound too, and jumps go to labels that there are. -/
structure Grown (s s' : CodeState) : Prop where
  code : s.emitter.Extends s'.emitter
  created : s.emitter.labels.size ≤ s'.emitter.labels.size
  old : ∀ l < s.emitter.labels.size, s'.emitter.labels[l]? = s.emitter.labels[l]?
  frame : s'.frame = s.frame
  labels : s'.labels = s.labels
  exits : ∀ p ∈ s'.exits, p ∈ s.exits ∨ ∃ n, s'.emitter.labels[p.2]? = some (some n)
  fresh : ∀ l, s.emitter.labels.size ≤ l → s'.emitter.labels[l]? ≠ some none
  jumps : ∀ cond l, .jump cond l ∈ s'.emitter.items →
    .jump cond l ∈ s.emitter.items ∨ l < s'.emitter.labels.size

theorem Grown.trans (h : Grown s s') (h' : Grown s' s'') : Grown s s'' := by
  refine ⟨h.code.trans h'.code, Nat.le_trans h.created h'.created, fun l hl =>
    (h'.old l (Nat.lt_of_lt_of_le hl h.created)).trans (h.old l hl), h'.frame.trans h.frame,
    h'.labels.trans h.labels, fun p hp => ?_, fun l hl => ?_, fun cond l hmem => ?_⟩
  · rcases h'.exits p hp with hp | hbound
    · rcases h.exits p hp with hp | ⟨n, hn⟩
      · exact .inl hp
      · exact .inr ⟨n, h'.code.labels _ n hn⟩
    · exact .inr hbound
  · rcases Nat.lt_or_ge l s'.emitter.labels.size with hlt | hge
    · rw [h'.old l hlt]
      exact h.fresh l hl
    · exact h'.fresh l hge
  · exact (h'.jumps cond l hmem).elim (fun hmem => (h.jumps cond l hmem).imp_right
      (Nat.lt_of_lt_of_le · h'.created)) .inr

theorem Extended.grown (h : Extended s s') : Grown s s' := by
  obtain ⟨is, his⟩ := h.code
  have hlabels : s'.emitter.labels = s.emitter.labels := by
    rw [his, Machine.Emitter.labels_withOps]
  refine ⟨h.extends, Nat.le_of_eq (by rw [hlabels]), fun l _ => by rw [hlabels], h.frame, h.labels,
    fun p hp => .inl (h.exits ▸ hp), fun l hl => ?_, fun cond l hmem => ?_⟩
  · rw [hlabels, Array.getElem?_eq_none hl]
    simp
  · rw [his, Machine.Emitter.jump_mem_withOps] at hmem
    exact .inl hmem

/-- Only code was added. -/
structure Coded (s s' : CodeState) : Prop where
  grown : Grown s s'
  regs : s'.regs = s.regs
  values : s'.values = s.values
  pinned : s'.pinned = s.pinned

theorem Coded.withOps (s : CodeState) (is : List Inst) : Coded s (withOps s is) :=
  ⟨(Extended.withOps s is).grown, rfl, rfl, rfl⟩

/-! ### Operands in registers -/

/-- A value that an instruction at position `k` may use. -/
def Usable (info : Infos) (left : Nat → Nat) (k : Nat) (x : Handle) (t : ValTy) :
    Prop :=
  ∃ i, info x.index = some i ∧ i.ty = t ∧ 0 < left x.index ∧ x.index < k

theorem Usable.ty {y : Handle} (hy : Usable info left k y t) (hV : V.Typed info)
    (hc : V.env y.index = some c) : c.ty = t := by
  obtain ⟨i, hi, rfl, -⟩ := hy
  exact (hV _ i c hi hc).symm

/-- The operands of the instruction at position `k` are values of the given types, and their uses
    are counted. -/
structure Site (info : Infos) (left : Nat → Nat) (lo k : Nat) (ops : List Handle)
    (ts : List ValTy) : Prop where
  operands : List.Forall₂ (fun h t => ∃ i, info h.index = some i ∧ i.ty = t ∧ h.index < k) ops ts
  uses : ∀ v, ops.countP (·.index = v) ≤ left v
  lo : lo ≤ k

/-- The result of the instruction at position `k` is a value of the given type. -/
def Result (info : Infos) (k : Nat) (t : ValTy) : Prop :=
  ∃ i, info k = some i ∧ i.ty = t ∧ i.writable = true

namespace Site

theorem info_of_mem (h : Site info left lo k ops ts) : ∀ x ∈ ops, ∃ i, info x.index = some i := by
  have hboth : List.Forall₂ (fun x _ => (∃ i, info x.index = some i) ∧ True) ops ts :=
    h.operands.imp fun x t ⟨i, hi, _⟩ => ⟨⟨i, hi⟩, trivial⟩
  exact ((List.forall₂_and_left ops ts).mp hboth).1

theorem usable (h : Site info left lo k ops ts) :
    List.Forall₂ (Usable info left k) ops ts := by
  have hpos : ∀ x ∈ ops, 0 < left x.index := fun x hx =>
    Nat.lt_of_lt_of_le (List.countP_pos_iff.mpr ⟨x, hx, by simp⟩) (h.uses x.index)
  have hboth := (List.forall₂_and_left ops ts).mpr ⟨hpos, h.operands⟩
  exact hboth.imp fun x t ⟨hl, i, hi, ht, hlt⟩ => ⟨i, hi, ht, hl, hlt⟩

theorem one (h : Site info left lo k ops [t]) : ∃ x, ops = [x] ∧ Usable info left k x t := by
  cases h.usable with
  | cons hx hrest => cases hrest; exact ⟨_, rfl, hx⟩

theorem two {u : ValTy} (h : Site info left lo k ops [t, u]) :
    ∃ x y, ops = [x, y] ∧ Usable info left k x t ∧ Usable info left k y u := by
  cases h.usable with
  | cons hx hrest =>
    cases hrest with
    | cons hy hrest => cases hrest; exact ⟨_, _, rfl, hx, hy⟩

theorem three {u w : ValTy} (h : Site info left lo k ops [t, u, w]) :
    ∃ x y z, ops = [x, y, z] ∧ Usable info left k x t ∧ Usable info left k y u ∧
      Usable info left k z w := by
  cases h.usable with
  | cons hx hrest =>
    cases hrest with
    | cons hy hrest =>
      cases hrest with
      | cons hz hrest => cases hrest; exact ⟨_, _, _, rfl, hx, hy, hz⟩

theorem finishUses_yields {dst : Option (Reg × Nat)} {hi : Nat} (h : Site info left lo k ops ts)
    (hs : Coherent info left lo hi dst s) : (finishUses ops).Yields s fun _ s' =>
      Coherent info (usesAfter left ops) lo hi dst s' ∧ Counted (usesAfter left ops) s s' :=
  Gen.finishUses_yields hs h.info_of_mem h.uses

end Site

theorem Result.define_yields (h : Result info k t) (hlo : lo ≤ k)
    (hs : Coherent info left lo k (some (r, k)) s) (hpin : s.pinned = []) :
    (define k r).Yields s fun _ s' =>
      Coherent info left lo (k + 1) none s' ∧ Defined left k r s s' := by
  refine Gen.define_yields hs hpin (fun j hj => ?_) hlo
  obtain ⟨i, hi, -, hwrite⟩ := h
  rw [hi] at hj
  cases hj
  exact hwrite

/-- What the code of the instruction at hand made sure of, besides the values being in place: a
    condition on registers. -/
abbrev Facts := View → (Machine.Gpr → BitVec 64) → (Machine.Xmm → BitVec 128) → Prop

/-- Nothing is made sure of. -/
def Facts.none : Facts := fun _ _ _ => True

/-- The code between two states keeps the values in place if the listed ones are available, and
    makes sure of `K`. -/
def Carried (info : Infos) (held : List (Nat × Reg)) (K : Facts)
    (s0 s : CodeState) : Prop :=
  ∀ F V, F.Sound info → V.Typed info → (∀ p ∈ held, V.Available p.1) →
    Runs F.around s0.emitter s.emitter (Represents F V s0.values)
      fun m => Represents F V s.values m ∧ K V m.gpr m.xmm

/-- Since the state `s0`, the listed values were brought into the registers listed with them,
    which are pinned. -/
structure Holding (info : Infos) (left : Nat → Nat) (lo k : Nat)
    (held : List (Nat × Reg)) (K : Facts) (s0 s : CodeState) : Prop where
  coherent : Coherent info left lo k none s
  pinned : s.pinned = held.map Prod.snd
  owner : ∀ p ∈ held, s.regs.owner? p.2 = some p.1
  extended : Extended s0 s
  carries : Carried info held K s0 s

theorem Holding.start (h : Coherent info left lo k none s) (hpin : s.pinned = []) :
    Holding info left lo k [] .none s s :=
  ⟨h, hpin, by simp, .refl s, fun _ _ _ _ _ => .none fun _ hm => ⟨hm, trivial⟩⟩

variable {held : List (Nat × Reg)} {K : Facts} {s0 : CodeState}

theorem Carried.trans (h : Carried info held K s0 s)
    (h' : Carries info (fun V => ∀ p ∈ held, V.Available p.1) s s') (hext : Extended s s') :
    Carried info held .none s0 s' := fun F V hF hV hav =>
  ((h F V hF hV hav).mono (fun _ hm => hm) fun _ hm => hm.1).trans
    ((h' F V hF hV hav).mono (fun _ hm => hm) fun _ hm => ⟨hm, trivial⟩) hext.extends

/-- A register that was emptied before operands are brought in. -/
theorem Holding.evict (h : Holding info left lo k [] K s0 s) (hr : r.IsMachine) :
    (evict r).Yields s fun _ s' => Holding info left lo k [] .none s0 s' ∧
      s'.regs.owner? r = none ∧
        ∀ q : Reg, q.IsMachine → s.regs.owner? q = none → s'.regs.owner? q = none := by
  refine (evict_yields h.coherent hr (by rw [h.pinned]; simp)).mono fun _ s' h' => ?_
  refine ⟨⟨h'.coherent, h'.pinned.trans h.pinned, by simp, h.extended.trans h'.extended,
    h.carries.trans h'.spills.carries h'.extended⟩, h'.free, fun q hq hnone => ?_⟩
  by_cases hqr : q = r
  · rw [hqr]; exact h'.free
  · rw [h'.owners q hq hqr]; exact hnone

section

variable (h : Holding info left lo k held K s0 s)

include h

/-- One more operand is brought into a register. -/
theorem Holding.use {x : Handle} (hx : Usable info left k x t) (ex : List Reg)
    (hroom : held.length + ex.length ≤ 5) : (useReg x (RegSet.ofList ex)).Yields s fun r s' =>
      Holding info left lo k (held ++ [(x.index, r)]) .none s0 s' ∧
        ∀ q ∈ ex, q.IsMachine → s.regs.owner? q = none → s'.regs.owner? q = none := by
  obtain ⟨i, hi, -, hleft, hlt⟩ := hx
  refine (useReg_yields h.coherent hi hleft hlt (by rw [h.pinned]; simpa using hroom)).mono
    fun r s' h' => ⟨⟨h'.coherent, ?_, ?_, h.extended.trans h'.extended, ?_⟩, h'.free⟩
  · rw [h'.pinned, h.pinned, List.map_append]; rfl
  · intro p hp
    rcases List.mem_append.mp hp with hp | hp
    · rw [h'.keeps p.2 (by rw [h.pinned]; exact List.mem_map_of_mem hp), h.owner p hp]
    · rw [List.mem_singleton.mp hp]; exact h'.owner
  · have hold : Carried info (held ++ [(x.index, r)]) K s0 s := fun F V hF hV hav =>
      h.carries F V hF hV fun p hp => hav p (by simp [hp])
    exact hold.trans (h'.carries.mono fun V hV => hV (x.index, r) (by simp)) h'.extended

theorem Holding.located (hp : (v, r) ∈ held) : ∃ x, s.values.get? v = some x ∧ x.reg = some r := by
  have hm := h.coherent.pinned r (by rw [h.pinned]; exact List.mem_map.mpr ⟨_, hp, rfl⟩)
  exact h.coherent.reg_of_owner hm (h.owner (v, r) hp)

/-- A register that holds an operand suits its type. -/
theorem Holding.suits {x : Handle} (hp : (x.index, r) ∈ held) (hx : Usable info left k x t) :
    Suits t r := by
  obtain ⟨i, hi, rfl, -⟩ := hx
  obtain ⟨y, hy, hr⟩ := h.located hp
  obtain ⟨z, hz, he⟩ := h.coherent.entry hi
  rw [hy] at hz
  cases hz
  exact (he.placed r hr).1

/-- A register that holds an operand holds its value. -/
theorem Holding.holds {F : Activation} {m : State} (hm : Represents F V s.values m)
    (hp : (v, r) ∈ held) (hc : V.env v = some c) : m.Holds r c := by
  obtain ⟨z, hz, hzr⟩ := h.located hp
  exact hm.regs v z r c hz hc hzr

/-- A register that holds an operand is not a register that was emptied. -/
theorem Holding.ne_of_free {q : Reg} (hp : (v, r) ∈ held) (hq : s.regs.owner? q = none) :
    r ≠ q := by
  rintro rfl
  rw [h.owner (v, r) hp] at hq
  cases hq

/-- Code between operands that changes free registers. -/
theorem Holding.emit (is : List Inst) (hx : Appends x is) (rs : List Reg)
    (hspecial : Reg.rbp ∉ rs ∧ Reg.rsp ∉ rs) (hfree : ∀ r ∈ rs, s.regs.owner? r = none) (K' : Facts)
    (hexec : ∀ F V m, (∀ p ∈ held, V.Available p.1) → Represents F V s.values m →
      ∃ m', execAll F.around m is = some m' ∧ State.SameBut rs m m' ∧ K' V m'.gpr m'.xmm) :
    x.Yields s fun _ s' => Holding info left lo k held K' s0 s' ∧ s'.regs = s.regs := by
  refine ⟨(), _, hx s, ⟨h.coherent.congr rfl rfl rfl, h.pinned, h.owner,
    h.extended.trans (.withOps s is), fun F V hF hV hav => ?_⟩, rfl⟩
  refine ((h.carries F V hF hV hav).mono (fun _ hm => hm) fun _ hm => hm.1).trans
    (.ops fun m hm => ?_) (Machine.Emitter.extends_withOps _ _)
  obtain ⟨m', hm', hsame, hK⟩ := hexec F V m hav hm
  refine ⟨m', hm', h.coherent.touch hV hm hsame hspecial fun v y r hy hr hin => ?_, hK⟩
  exact h.coherent.reg_ne_of_free hy hr (hfree r hin) rfl

/-- The code brings operands in place: wherever they are, `Q` holds once it has run. -/
def Brings (info : Infos) (ops : List Handle) (s : CodeState) (fetch : List Inst)
    (Q : View → State → Prop) : Prop :=
  ∀ F V, F.Sound info → V.Typed info → (∀ x ∈ ops, V.Available x.index) →
    Runs F.around s.emitter (s.emitter.withOps fetch) (Represents F V s.values) (Q V)

/-- What brought operands into registers was code that brings them in place. -/
theorem Holding.brings (ops : List Handle) {Q : View → State → Prop}
    (hheld : ∀ p ∈ held, ∃ x ∈ ops, p.1 = x.index)
    (hQ : ∀ F V m, (∀ x ∈ ops, V.Available x.index) → Represents F V s.values m → Q V m) :
    ∃ fetch, s.emitter = s0.emitter.withOps fetch ∧ Brings info ops s0 fetch Q := by
  obtain ⟨fetch, hfetch⟩ := h.extended.code
  refine ⟨fetch, hfetch, fun F V hF hV hav => ?_⟩
  rw [← hfetch]
  refine (h.carries F V hF hV fun p hp => ?_).mono (fun _ hm => hm) fun m hm => hQ F V m hav hm.1
  obtain ⟨x, hx, hp⟩ := hheld p hp
  rw [hp]; exact hav x hx

/-- A register was set aside for the result at position `k`, besides those that hold operands. -/
structure Aside (info : Infos) (left : Nat → Nat) (lo k : Nat)
    (held : List (Nat × Reg)) (K : Facts) (s0 : CodeState) (rd : Reg) (s : CodeState) : Prop where
  coherent : Coherent info left lo k (some (rd, k)) s
  owner : ∀ p ∈ held, s.regs.owner? p.2 = some p.1 ∧ p.2.IsMachine ∧ p.2 ≠ rd
  extended : Extended s0 s
  carries : Carried info held K s0 s

/-- A register is found for the result. -/
theorem Holding.aside (hi : info k = some i) (ex : List Reg) (hroom : held.length + ex.length ≤ 5) :
    (defReg k (RegSet.ofList ex)).Yields s fun rd s' =>
      Aside info left lo k held K s0 rd s' ∧ rd ∉ ex ∧ s.emitter.Stored s'.emitter := by
  obtain ⟨x, hx, he⟩ := h.coherent.entry hi
  have hreg := h.coherent.reg_eq_none hx (Nat.le_refl k)
  refine .bind (valueOf_yields hx ?_)
  rw [he.ty]
  refine (allocReg_yields h.coherent hi hx hreg (by rw [h.pinned]; simpa using hroom)).mono
    fun rd s' ⟨h', hstored⟩ => ⟨⟨h'.coherent, fun p hp => ?_, h.extended.trans h'.extended,
      fun F V hF hV hav => ?_⟩, h'.notExcluded, hstored⟩
  · have hpin : p.2 ∈ s.pinned := by rw [h.pinned]; exact List.mem_map_of_mem hp
    have hne : p.2 ≠ rd := fun he => h'.notPinned (he ▸ hpin)
    have hm := h.coherent.pinned p.2 hpin
    exact ⟨(h'.owners p.2 hm hne).trans (h.owner p hp), hm, hne⟩
  · exact (h.carries F V hF hV hav).trans (h'.spills F V (K V) hF hV) h'.extended.extends

end

variable {rd : Reg}

/-- A register that holds an operand holds its value. -/
theorem Aside.holds (h : Aside info left lo k held K s0 rd s) {F : Activation} {m : State}
    (hm : Represents F V s.values m) (hp : (v, r) ∈ held) (hc : V.env v = some c) :
    m.Holds r c := by
  obtain ⟨howner, hmach, hne⟩ := h.owner (v, r) hp
  rcases (h.coherent.owned r v hmach).mp howner with ⟨x, hx, hr⟩ | hd
  · exact hm.regs v x r c hx hc hr
  · cases hd
    exact absurd rfl hne

/-! ### The end of an instruction -/

/-- The instruction at position `k` is done. -/
structure Done (info : Infos) (left : Nat → Nat) (lo k : Nat)
    (s s' : CodeState) : Prop where
  coherent : Coherent info left lo (k + 1) none s'
  pinned : s'.pinned = []
  grown : Grown s s'

/-- What a machine stands for after an instruction with a result. -/
def View.after (V : View) (k : Nat) (c : Const) (obs : List Observation) (need : Nat → Prop) :
    View :=
  ⟨Function.update V.env k (some c), need, V.mem, V.trace ++ obs⟩

/-- What an instruction computes of the values of its operands, and what is observed of it. -/
abbrev Semantics := Activation → View → List Const → List Observation → Const → Prop

/-- The instruction at position `k` is done, and its code computes what `R` says. -/
structure Performed (info : Infos) (left : Nat → Nat) (lo k : Nat)
    (ops : List Handle) (R : Semantics) (s s' : CodeState) : Prop
    extends Done info (usesAfter left ops) lo k s s' where
  delivers : ∀ F V args obs c need, F.Sound info → V.Typed info →
    NeedStep V.need need (usesAfter left ops) lo k → V.Reads ops args → R F V args obs c →
    Runs F.around s.emitter s'.emitter (Represents F V s.values)
      (Represents F (View.after V k c obs need) s'.values)

/-- The value at position `k` is in the register `rd`, unless it has no uses. -/
def InRegister (s : CodeState) (k : Nat) (rd : Reg) : Prop :=
  ∀ v, s.values.get? k = some v → v.usesLeft = 0 ∨ v.reg = some rd

theorem Defined.inRegister (h : Defined left k rd s s')
    (hs : Coherent info left lo (k + 1) none s') : InRegister s' k rd := by
  intro v hv
  obtain ⟨hreg, hunused⟩ := h.result v hv
  obtain ⟨i, -, he⟩ := hs.entries k v hv
  cases hm : v.modified with
  | false => exact .inl ((hs.uses k v hv).trans (hunused hm))
  | true =>
    obtain ⟨q, hq⟩ := Option.isSome_iff_exists.mp (he.modified hm).1
    exact .inr (by rw [hq, hreg q hq])

variable {R : Semantics}

section

variable (hsite : Site info left lo k ops ts) (hheld : ∀ p ∈ held, ∃ x ∈ ops, p.1 = x.index)

include hsite hheld

/-- The end of an instruction with a result, whatever computes it. -/
theorem Aside.finish (h : Aside info left lo k held K s0 rd s) (hres : Result info k t)
    (hx : x.Yields s fun _ s' => Coded s s' ∧ ∀ F V args obs c, V.Typed info → V.Reads ops args →
      R F V args obs c → Runs F.around s.emitter s'.emitter
        (fun m => Represents F V s.values m ∧ K V m.gpr m.xmm) fun m =>
        Represents F { V with trace := V.trace ++ obs } s.values m ∧ m.Holds rd c) :
    (do x; finishUses ops; define k rd).Yields s fun _ s' =>
      Performed info left lo k ops R s0 s' ∧ InRegister s' k rd ∧
        s'.emitter = (x.after s).emitter := by
  obtain ⟨_, s1, hok, h1, hrun⟩ := hx
  refine .bind ⟨(), s1, hok, ?_⟩
  have hcoh1 := h.coherent.congr h1.regs h1.values h1.pinned
  refine (hsite.finishUses_yields hcoh1).andThen fun _ s2 ⟨hcoh2, hcount⟩ => ?_
  refine (hres.define_yields hsite.lo hcoh2 hcount.pinned).mono fun _ s3 ⟨hcoh3, hdef⟩ => ?_
  have hemit : s3.emitter = s1.emitter := hdef.emitter.trans hcount.emitter
  refine ⟨⟨⟨hcoh3, hdef.pinned.trans hcount.pinned, ?_⟩, ?_⟩, hdef.inRegister hcoh3,
    by rw [Step.after_ok hok]; exact hemit⟩
  · exact h.extended.grown.trans (h1.grown.trans
      (hcount.extended.grown.trans hdef.extended.grown))
  · intro F V args obs c need hF hV hneed hreads hR
    rw [hemit]
    refine (h.carries F V hF hV fun p hp => ?_).trans
      ((hrun F V args obs c hV hreads hR).mono (fun _ hm => hm) ?_) h1.grown.code
    · obtain ⟨y, hy, hpy⟩ := hheld p hp
      exact hpy ▸ hreads.available y hy
    · intro m ⟨hm, hholds⟩
      rw [← h1.values] at hm
      exact hdef.represents (V := { V with trace := V.trace ++ obs }) hcoh1 hcount hneed hsite.lo
        hholds hm

/-- Straight code that leaves a value in the register `rd`. -/
def Leaves (F : Activation) (is : List Inst) (m : State) (obs : List Observation) (rd : Reg)
    (c : Const) : Prop :=
  ∃ m', execAll F.around m is = some m' ∧
    State.SameBut (rd :: scratches) { m with trace := m.trace ++ obs } m' ∧ m'.Holds rd c

/-- The end of an instruction whose result is computed by straight code. -/
theorem Aside.finishOps (h : Aside info left lo k held K s0 rd s) (hres : Result info k t)
    (hx : Appends x is)
    (hexec : ∀ F V args obs c m, V.Typed info → V.Reads ops args → R F V args obs c →
      Represents F V s.values m → K V m.gpr m.xmm → Leaves F is m obs rd c) :
    (do x; finishUses ops; define k rd).Yields s fun _ s' =>
      Performed info left lo k ops R s0 s' ∧ InRegister s' k rd ∧
        s'.emitter = s.emitter.withOps is := by
  refine (h.finish hsite hheld hres ⟨(), _, hx s, .withOps s is,
    fun F V args obs c hV hreads hR => ?_⟩).mono fun _ s' ⟨hp, hreg, hemit⟩ =>
      ⟨hp, hreg, by rw [hemit, Step.after_ok (hx s)]; rfl⟩
  refine .ops fun m ⟨hm, hK⟩ => ?_
  obtain ⟨m', hm', hsame, hholds⟩ := hexec F V args obs c m hV hreads hR hm hK
  have hobs : Represents F { V with trace := V.trace ++ obs } s.values
      { m with trace := m.trace ++ obs } :=
    ⟨hm.rbp, hm.rsp, hm.fixed, hm.visible, by rw [← hm.trace], hm.regs, hm.homes⟩
  exact ⟨m', hm', h.coherent.touch_aside (V := { V with trace := V.trace ++ obs }) rfl hV hobs hsame,
    hholds⟩

/-- The end of an instruction whose result is computed in a fixed register. -/
theorem Holding.claim (h : Holding info left lo k held K s0 s) (hres : Result info k t)
    (hx : Appends x is) (rs : List Reg) (hspecial : Reg.rbp ∉ rs ∧ Reg.rsp ∉ rs)
    (hfree : ∀ r ∈ rs, s.regs.owner? r = none) (hrd : rd ∈ rs) (hsuits : Suits t rd)
    (hexec : ∀ F V args obs c m, V.Typed info → V.Reads ops args → R F V args obs c →
      Represents F V s.values m → ∃ m', execAll F.around m is = some m' ∧ State.SameBut rs m m' ∧
        obs = [] ∧ m'.Holds rd c) :
    (do x
        finishUses ops
        registers (RegFile.assign rd k)
        count Stats.addRegister
        define k rd).Yields s fun _ s' =>
      Performed info left lo k ops R s0 s' ∧ InRegister s' k rd ∧
        s'.emitter = s.emitter.withOps is := by
  refine .bind ⟨(), _, hx s, ?_⟩
  have hcoh1 : Coherent info left lo k none (withOps s is) := h.coherent.congr rfl rfl rfl
  refine (hsite.finishUses_yields hcoh1).andThen fun _ s2 ⟨hcoh2, hcount⟩ => ?_
  obtain ⟨i, hi, rfl, -⟩ := id hres
  obtain ⟨y, hy, -⟩ := hcoh2.entry hi
  have hfree2 := hcount.free hcoh1 hcoh2 hsuits.isMachine (hfree rd hrd)
  refine (assign_yields hcoh2 hi hy (hcoh2.reg_eq_none hy (Nat.le_refl k)) hsuits hfree2).andThen
    fun _ s3 ⟨hcoh3, g, hg⟩ => ?_
  subst hg
  refine (count_yields _).andThen fun _ s4 h4 => ?_
  have hcount4 := (hcount.registers g).quiet h4
  refine (hres.define_yields hsite.lo (h4.coherent hcoh3) hcount4.pinned).mono
    fun _ s5 ⟨hcoh5, hdef⟩ => ?_
  refine ⟨⟨⟨hcoh5, hdef.pinned.trans hcount4.pinned, ?_⟩, ?_⟩, hdef.inRegister hcoh5,
    hdef.emitter.trans hcount4.emitter⟩
  · exact (h.extended.trans ((Extended.withOps s is).trans
      (hcount4.extended.trans hdef.extended))).grown
  · intro F V args obs c need hF hV hneed hreads hR
    rw [hdef.emitter.trans hcount4.emitter]
    refine (h.carries F V hF hV fun p hp => ?_).trans (.ops fun m ⟨hm, _⟩ => ?_)
      (Machine.Emitter.extends_withOps _ _)
    · obtain ⟨y, hy, hpy⟩ := hheld p hp
      exact hpy ▸ hreads.available y hy
    · obtain ⟨m', hm', hsame, rfl, hholds⟩ := hexec F V args obs c m hV hreads hR hm
      have hrep := h.coherent.touch hV hm hsame hspecial fun v z r hz hr hin =>
        h.coherent.reg_ne_of_free hz hr (hfree r hin) rfl
      have := hdef.represents hcoh1 hcount4 hneed hsite.lo hholds hrep
      exact ⟨m', hm', by rw [View.after, List.append_nil]; exact this⟩

end

/-- What an instruction without a result makes of memory, and what is observed of it. -/
abbrev Effects := Activation → View → List Const → Memory → List Observation → Prop

/-- The instruction at position `k` is done. It has no result, and its code does what `R` says. -/
structure Affected (info : Infos) (left : Nat → Nat) (lo k : Nat)
    (ops : List Handle) (R : Effects) (s s' : CodeState) : Prop
    extends Done info (usesAfter left ops) lo k s s' where
  affects : ∀ F V args mem obs need, F.Sound info → V.Typed info →
    NeedStep V.need need (usesAfter left ops) lo k → ¬ need k → V.Reads ops args →
    R F V args mem obs → Runs F.around s.emitter s'.emitter (Represents F V s.values)
      (Represents F ⟨V.env, need, mem, V.trace ++ obs⟩ s'.values)

/-- The end of an instruction without a result. -/
theorem Holding.finish (h : Holding info left lo k held K s0 s)
    (hsite : Site info left lo k ops ts) (hheld : ∀ p ∈ held, ∃ x ∈ ops, p.1 = x.index)
    {R : Effects} (hx : Appends x is)
    (hexec : ∀ F V args mem obs m, F.Sound info → V.Typed info → V.Reads ops args →
      R F V args mem obs → Represents F V s.values m → ∃ m', execAll F.around m is = some m' ∧
        Represents F { V with mem := mem, trace := V.trace ++ obs } s.values m') :
    (do x; finishUses ops).Yields s fun _ s' => Affected info left lo k ops R s0 s' := by
  refine .bind ⟨(), _, hx s, ?_⟩
  have hcoh1 : Coherent info left lo k none (withOps s is) := h.coherent.congr rfl rfl rfl
  refine (hsite.finishUses_yields hcoh1).mono fun _ s2 ⟨hcoh2, hcount⟩ => ⟨⟨?_, ?_, ?_⟩, ?_⟩
  · exact hcoh2.later (Nat.le_succ k)
  · exact hcount.pinned
  · exact (h.extended.trans ((Extended.withOps s is).trans hcount.extended)).grown
  · intro F V args mem obs need hF hV hneed hnot hreads hR
    rw [hcount.emitter]
    refine (h.carries F V hF hV fun p hp => ?_).trans (.ops fun m ⟨hm, _⟩ => ?_)
      (Machine.Emitter.extends_withOps _ _)
    · obtain ⟨y, hy, hpy⟩ := hheld p hp
      exact hpy ▸ hreads.available y hy
    · obtain ⟨m', hm', hrep⟩ := hexec F V args mem obs m hF hV hreads hR hm
      exact ⟨m', hm', hcount.represents (V := { V with mem := mem, trace := V.trace ++ obs }) hcoh1
        hneed hnot hrep⟩

end JitBackend.Gen
