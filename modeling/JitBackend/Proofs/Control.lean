import JitBackend.Proofs.Selection

namespace JitBackend

/-!
# Code for control flow

Where control meets other control, every value that is still needed is at home: labels begin and
jumps end with an empty register file.

* `Settled` — a machine whose values are all at home;
* `Gen.label_yields` — control runs into a label;
* `Gen.jump_yields`, `Gen.branch_yields`, `Gen.jumpTable_yields` — control goes to a label;
* `Gen.ret_yields`, `Gen.guardExit_yields` — control goes to the code that takes down the frame.
-/

open Machine (Inst State Runs Leads execAll Observation Cond Emitter Flags)

/-- All values that are needed are at home. -/
structure Settled (F : Activation) (V : View) (info : Infos) (m : State) : Prop
    extends Framed F V m where
  homes : ∀ v i c, info v = some i → V.env v = some c → V.need v → F.AtHome m c i.home

variable {F : Activation} {V : View} {info : Infos} {m m' : State}

/-- An empty register file stands for values that are at home. -/
theorem Settled.represents (h : Settled F V info m) {t : ValueTable} {need : Nat → Prop}
    (hneed : ∀ v i, info v = some i → need v → V.need v)
    (hhome : ∀ v x, t.get? v = some x → x.reg = none ∧ ∃ j, info v = some j ∧ x.home = j.home) :
    Represents F { V with need := need } t m := by
  refine ⟨h.rbp, h.rsp, h.fixed, h.visible, h.trace, ?_, ?_⟩
  · intro v x r c hx _ hr
    rw [(hhome v x hx).1] at hr
    cases hr
  · intro v x c hx hc hn _
    obtain ⟨-, j, hj, hxj⟩ := hhome v x hx
    rw [hxj]
    exact h.homes v j c hj hc (hneed v j hj hn)

namespace Gen

variable {left : Nat → Nat} {lo k l : Nat} {s s' : CodeState} {ops : List Handle} {b : Buffer}

/-- When no home is out of date, all values are at home. -/
theorem Coherent.settled {dst : Option (Reg × Nat)} {hi : Nat} (h : Coherent info left lo hi dst s)
    (hclean : ∀ v x, s.values.get? v = some x → x.modified = false)
    (hm : Represents F V s.values m) : Settled F V info m := by
  refine ⟨hm.framed, fun v i c hi hc hneed => ?_⟩
  obtain ⟨x, hx, he⟩ := h.entry hi
  rw [← he.home]
  exact hm.homes v x c hx hc hneed (hclean v x hx)

theorem Synced.settles {hi : Nat} (h : Synced info left lo hi s s') (hF : F.Sound info)
    (hV : V.Typed info) :
    Runs F.around s.emitter s'.emitter (Represents F V s.values) (Settled F V info) :=
  (h.spills F V (fun _ _ => True) hF hV).mono (fun _ hm => ⟨hm, trivial⟩)
    fun _ hm => h.coherent.settled h.clean hm.1

/-- If the operands have these values, control goes to the label `l` of the code, and `B` holds. -/
def Departs (info : Infos) (ops : List Handle) (args : List Const)
    (s s' : CodeState) (l : Nat) (B : Activation → View → State → Prop) : Prop :=
  ∀ F V, F.Sound info → V.Typed info → V.Reads ops args →
    Leads F.around s.emitter s'.emitter l (Represents F V s.values) (B F V)

/-- The instruction at position `k` is done, and no register holds a value. -/
structure Closed (info : Infos) (left : Nat → Nat) (lo k : Nat)
    (s s' : CodeState) : Prop extends Done info left lo k s s' where
  empty : ∀ r, s'.regs.owner? r = none

theorem Cleared.closed {s1 : CodeState} (h : Cleared info left lo k s1 s') (hgrown : Grown s s1) :
    Closed info left lo k s s' :=
  ⟨⟨h.coherent.later (Nat.le_succ k), h.pinned, hgrown.trans h.extended.grown⟩, h.empty⟩

/-- The jump goes to the label `l` of the code. -/
def Resolves (s : CodeState) (target : Option Handle) (l : Nat) : Prop :=
  ∃ h, target = some h ∧ s.labels[h.index]? = some (some l) ∧ l < s.emitter.labels.size

section

variable {target : Option Handle} (h : Resolves s target l)

include h

theorem Resolves.mono (hlabels : s'.labels = s.labels)
    (hsize : s.emitter.labels.size ≤ s'.emitter.labels.size) : Resolves s' target l := by
  obtain ⟨x, hx, hl, hlt⟩ := h
  exact ⟨x, hx, hlabels ▸ hl, Nat.lt_of_lt_of_le hlt hsize⟩

theorem Resolves.inj {l' : Nat} (h' : Resolves s target l') : l = l' := by
  obtain ⟨x, hx, hl, -⟩ := h
  obtain ⟨y, hy, hl', -⟩ := h'
  rw [hx] at hy
  cases hy
  rw [hl] at hl'
  exact Option.some.inj (Option.some.inj hl')

theorem labelOf_ok : labelOf b k target s = .ok l s := by
  obtain ⟨x, rfl, hl, -⟩ := h
  rw [labelOf, Step.bind_get]
  simp only [Option.bind_some, hl]
  rfl

end

/-- The state with a jump appended. -/
def withJump (s : CodeState) (cond : Option Cond) (l : Nat) : CodeState :=
  { s with emitter := s.emitter.withJump cond l }

theorem Coded.withJump (cond : Option Cond) (h : l < s.emitter.labels.size) :
    Coded s (withJump s cond l) := by
  refine ⟨⟨Emitter.extends_withJump _ _ _, Nat.le_refl _, fun _ _ => rfl, rfl, rfl,
    fun _ hp => .inl hp, fun l' hl' => ?_, fun cond' l' hmem => ?_⟩, rfl, rfl, rfl⟩
  · rw [show (Gen.withJump s cond l).emitter.labels = s.emitter.labels from rfl,
      Array.getElem?_eq_none hl']
    simp
  · rcases Emitter.jump_mem_withJump.mp hmem with hmem | ⟨-, rfl⟩
    · exact .inl hmem
    · exact .inr h

theorem jmp_ok (h : l < s.emitter.labels.size) :
    emit (Emitter.jmp l) s = .ok () (withJump s none l) :=
  emit_ok (Emitter.jmp_ok h)

theorem jcc_ok (h : l < s.emitter.labels.size) (cond : Cond) :
    emit (Emitter.jcc cond l) s = .ok () (withJump s (some cond) l) :=
  emit_ok (Emitter.jcc_ok h cond)

/-! ### Labels and jumps -/

variable (hs : Coherent info left lo k none s) (hpin : s.pinned = []) {x : Handle}
  {target : Option Handle} {t : ValTy} {r : Reg}

/-- The label `l` of the code was bound at the end of the code of the instruction at `k`, where
    all values are at home. -/
structure Landed (info : Infos) (left : Nat → Nat) (k l : Nat)
    (s s' : CodeState) : Prop where
  coherent : Coherent info left (k + 1) (k + 1) none s'
  pinned : s'.pinned = []
  empty : ∀ r, s'.regs.owner? r = none
  code : s.emitter.Extends s'.emitter
  created : s'.emitter.labels.size = s.emitter.labels.size
  here : s'.emitter.labels[l]? = some (some s'.emitter.count)
  old : ∀ l' ≠ l, s'.emitter.labels[l']? = s.emitter.labels[l']?
  frame : s'.frame = s.frame
  labels : s'.labels = s.labels
  exits : s'.exits = s.exits
  jumps : ∀ cond l, .jump cond l ∈ s'.emitter.items → .jump cond l ∈ s.emitter.items
  arrives : ∀ F V, F.Sound info → V.Typed info →
    Runs F.around s.emitter s'.emitter (Represents F V s.values) (Settled F V info)

include hs hpin in
theorem label_yields (hl : s.labels[k]? = some (some l)) (hopen : s.emitter.labels[l]? = some none) :
    (label b k).Yields s fun _ s' => Landed info left k l s s' := by
  refine (syncAll_yields hs).andThen fun _ s1 h1 => ?_
  refine (clearAll_yields h1.coherent (h1.pinned.trans hpin)).andThen fun _ s2 h2 => ?_
  have hext := h1.extended.trans h2.extended
  obtain ⟨is, his⟩ := hext.code
  have hlabels : s2.emitter.labels = s.emitter.labels := by
    rw [his, Emitter.labels_withOps]
  have hres : Resolves s2 (some (b.handle k)) l :=
    ⟨_, rfl, by rw [hext.labels]; exact hl, by
      rw [hlabels]; exact (Array.getElem?_eq_some_iff.mp hopen).1⟩
  refine .bind ⟨l, s2, labelOf_ok hres, emit_yields ?_⟩
  have hopen2 : s2.emitter.labels[l]? = some none := by rw [hlabels]; exact hopen
  refine (Emitter.bind_yields hopen2).mono fun _ e h3 => ⟨?_, h2.pinned, h2.empty, ?_, ?_,
    h3.self hopen2, fun l' hl' => ?_, hext.frame, hext.labels, hext.exits, fun cond l' hmem => ?_,
    fun F V hF hV => ?_⟩
  · have hcoh : Coherent info left lo (k + 1) none { s2 with emitter := e } :=
      (h2.coherent.later (Nat.le_succ k)).congr rfl rfl rfl
    refine { hcoh with recent := fun v x hx hmod => ?_ }
    rw [(h2.values v x hx).2.1] at hmod
    cases hmod
  · exact hext.extends.trans (h3.grows hopen2)
  · show e.labels.size = _
    rw [h3.labels, Array.size_setIfInBounds, hlabels]
  · rw [← hlabels]; exact h3.other hl'
  · rwa [h3.jump_mem, his, Emitter.jump_mem_withOps] at hmem
  · have hrun : Runs F.around s.emitter s2.emitter (Represents F V s.values) (Settled F V info) := by
      rw [h2.emitter]
      exact h1.settles hF hV
    exact hrun.trans (.bound h3 hopen2 _) (h3.grows hopen2)

include hs hpin in
theorem jump_yields (hl : Resolves s target l) :
    (jump b k target).Yields s fun _ s' => Closed info left lo k s s' ∧
      Departs info [] [] s s' l fun F V => Settled F V info := by
  refine .bind ⟨l, s, labelOf_ok hl, (syncAll_yields hs).andThen fun _ s1 h1 => ?_⟩
  have hl1 := hl.mono h1.extended.labels h1.extended.grown.created
  obtain ⟨-, -, -, hlt⟩ := hl1
  refine .bind ⟨(), _, jmp_ok hlt, ?_⟩
  have hcode := Coded.withJump none hlt
  refine (clearAll_yields (h1.coherent.congr hcode.regs hcode.values hcode.pinned)
    (h1.pinned.trans hpin)).mono fun _ s2 h2 => ⟨h2.closed (h1.extended.grown.trans hcode.grown),
      fun F V hF hV _ => (h1.settles hF hV).jump h2.extended.extends⟩

/-! ### Jumps that read a value -/

/-- The value of `x` is in the register `r`, and no home is out of date. -/
structure Ready (info : Infos) (left : Nat → Nat) (lo k : Nat) (x : Handle)
    (t : ValTy) (s : CodeState) (r : Reg) (s' : CodeState) : Prop where
  coherent : Coherent info left lo k none s'
  extended : Extended s s'
  clean : ∀ v y, s'.values.get? v = some y → y.modified = false
  suits : Suits t r
  carries : ∀ F V c, F.Sound info → V.Typed info → V.Reads [x] [c] →
    Runs F.around s.emitter s'.emitter (Represents F V s.values) fun m =>
      Represents F V s'.values m ∧ m.Holds r c

include hs hpin in
theorem ready_yields {α : Type} {f : Reg → Gen α} {Q : α → CodeState → Prop}
    (hx : Usable info left k x t) (hf : ∀ r s', Ready info left lo k x t s r s' → (f r).Yields s' Q) :
    (do let r ← useAny x; syncAll; f r).Yields s Q := by
  refine ((Holding.start hs hpin).use hx [] (by simp)).andThen fun r s1 ⟨h1, _⟩ => ?_
  have hin : (x.index, r) ∈ [] ++ [(x.index, r)] := by simp
  refine (syncAll_yields h1.coherent).andThen fun _ s2 h2 => hf r s2 ⟨h2.coherent,
    h1.extended.trans h2.extended, h2.clean, h1.suits hin hx, fun F V c hF hV hreads => ?_⟩
  rcases hreads with _ | ⟨⟨hav, hc⟩, _⟩
  have hm := h1.coherent.pinned r (by rw [h1.pinned]; simp)
  have howner : s2.regs.owner? r = some x.index := by
    rw [h2.regs]; exact h1.owner _ hin
  obtain ⟨y, hy, hyr⟩ := h2.coherent.reg_of_owner hm howner
  refine ((h1.carries F V hF hV ?_).mono (fun _ hm => hm) fun _ hm => ⟨hm.1, trivial⟩).trans
    ((h2.spills F V (fun _ _ => True) hF hV).mono (fun _ hm => hm) fun m hm =>
      ⟨hm.1, hm.1.regs _ y r c hy hc hyr⟩) h2.extended.extends
  intro p hp
  rw [List.nil_append, List.mem_singleton] at hp
  rw [hp]; exact hav

/-- The flags do not matter for the values. -/
theorem represents_withFlags {t : ValueTable} (h : Represents F V t m) (f : Option Flags) :
    Represents F V t (m.withFlags f) :=
  ⟨h.rbp, h.rsp, h.fixed, h.visible, h.trace, h.regs, h.homes⟩

/-- What comes before the jump of a conditional jump. -/
def beforeJump (b : Buffer) (index : Nat) (target : Option Handle) (ops : List Handle) : Gen Nat := do
  let l ← labelOf b index target
  let rc ← useAny (← operand ops 0)
  syncAll
  emit (Emitter.test .w32 rc rc)
  return l

theorem branch_eq (sense : Bool) (target : Option Handle) :
    branch b k sense target ops = (do
      let l ← beforeJump b k target ops
      emit (Emitter.jcc (if sense then .ne else .e) l)
      finishUses ops) := by
  simp only [branch, beforeJump, bind_assoc, pure_bind]

/-- The flags tell whether the value of an operand is zero, and no home is out of date. -/
structure Tested (info : Infos) (left : Nat → Nat) (lo k : Nat) (x : Handle)
    (s s' : CodeState) : Prop where
  coherent : Coherent info left lo k none s'
  extended : Extended s s'
  clean : ∀ v y, s'.values.get? v = some y → y.modified = false
  tests : ∀ F V n, F.Sound info → V.Typed info → V.Reads [x] [.int32 n] →
    Runs F.around s.emitter s'.emitter (Represents F V s.values) fun m =>
      Represents F V s'.values m ∧ m.flags = some (.ofAnd n n)

include hs hpin in
theorem beforeJump_yields (hl : Resolves s target l) (hx : Usable info left k x .int32) :
    (beforeJump b k target [x]).Yields s fun l' s' => l' = l ∧ Tested info left lo k x s s' := by
  refine .bind ⟨l, s, labelOf_ok hl, ?_⟩
  simp only [operand_eq [x] 0 rfl, pure_bind]
  refine ready_yields hs hpin hx fun r s1 h1 => ?_
  have hr : r.IsGeneral := h1.suits.isGeneral rfl
  have happ : Appends (emit (Emitter.test .w32 r r)) [.test .w32 r.toGpr r.toGpr] :=
    appends_emit (Machine.emits_gg hr hr)
  refine .bind (happ.yields (Step.yields_pure ⟨rfl, h1.coherent.congr rfl rfl rfl,
    h1.extended.trans (.withOps s1 _), h1.clean, fun F V n hF hV hreads => ?_⟩))
  refine (h1.carries F V _ hF hV hreads).trans (.ops fun m hm =>
    ⟨_, rfl, represents_withFlags hm.1 _, ?_⟩) (Emitter.extends_withOps _ _)
  have hword : m.word .w32 r.toGpr = n := hm.2
  exact congrArg (fun v => some (Flags.ofAnd v v)) hword

/-- The condition of a conditional jump. -/
theorem holds_sense (sense : Bool) (n : BitVec 32) :
    (if sense then Cond.ne else .e).holds (.ofAnd n n) = ((n != 0) == sense) := by
  have hzero := Machine.zero_ofAnd n
  cases sense with
  | true =>
    rw [if_pos rfl, Cond.holds, hzero]
    simp [bne]
  | false =>
    rw [if_neg Bool.false_ne_true, Cond.holds, hzero]
    simp [bne]

/-- A conditional jump that does not jump. -/
def Stays (sense : Bool) : Effects := fun F V args mem obs =>
  (∃ n, args = [.int32 n] ∧ ((n != 0) == sense) = false) ∧ Idles F V args mem obs

include hs hpin in
theorem branch_yields (sense : Bool) (hl : Resolves s target l)
    (hsite : Site info left lo k ops [.int32]) :
    (branch b k sense target ops).Yields s fun _ s' =>
      Affected info left lo k ops (Stays sense) s s' ∧ ∀ n, ((n != 0) == sense) = true →
        Departs info ops [.int32 n] s s' l fun F V => Settled F V info := by
  obtain ⟨x, rfl, hx⟩ := hsite.one
  rw [branch_eq]
  refine (beforeJump_yields hs hpin hl hx).andThen ?_
  rintro l' s1 ⟨hl', h1⟩
  subst l'
  obtain ⟨-, -, -, hlt⟩ := hl.mono h1.extended.labels h1.extended.grown.created
  refine .bind ⟨(), _, jcc_ok hlt _, ?_⟩
  have hcode := Coded.withJump (some (if sense then .ne else .e)) hlt
  have hcoh := h1.coherent.congr hcode.regs hcode.values hcode.pinned
  refine (hsite.finishUses_yields hcoh).mono fun _ s2 ⟨hcoh2, h2⟩ =>
    ⟨⟨⟨hcoh2.later (Nat.le_succ k), h2.pinned, ?_⟩, ?_⟩, fun n hc F V hF hV hreads => ?_⟩
  · exact h1.extended.grown.trans (hcode.grown.trans h2.extended.grown)
  · rintro F V _ _ _ need hF hV hneed hnot hreads ⟨⟨n, rfl, hc⟩, rfl, rfl⟩
    rw [h2.emitter, List.append_nil]
    refine Runs.mono (Runs.passed (h1.tests F V n hF hV hreads) fun m hm => ⟨_, hm.2, ?_⟩)
      (fun _ hm => hm) fun m hm => ?_
    · rw [holds_sense]; exact hc
    · exact h2.represents hcoh hneed hnot hm.1
  · refine Leads.mono (Runs.taken (h1.tests F V n hF hV hreads) (fun m hm => ⟨_, hm.2, ?_⟩)
      h2.extended.extends) (fun _ hm => hm) fun m hm => h1.coherent.settled h1.clean hm.1
    rw [holds_sense]; exact hc

theorem Coded.trans {s'' : CodeState} (h : Coded s s') (h' : Coded s' s'') : Coded s s'' :=
  ⟨h.grown.trans h'.grown, h'.regs.trans h.regs, h'.values.trans h.values,
    h'.pinned.trans h.pinned⟩

/-- The entries of a table are tried one after the other. -/
theorem tableEntries_yields (hr : r.IsGeneral) {targets : List (Option Handle)} (i : Nat)
    (hres : ∀ t ∈ targets, ∃ l, Resolves s t l) :
    (tableEntries b k r i targets).Yields s fun _ s' => Coded s s' ∧
      ∀ c (A : State → Prop) (n : BitVec 32) j t l, (∀ m, A m → m.word .w32 r.toGpr = n) →
        (∀ m f, A m → A (m.withFlags f)) → targets[j]? = some t → Resolves s t l →
        n.toNat = i + j → Leads c s.emitter s'.emitter l A A := by
  induction targets generalizing s i with
  | nil =>
    refine Step.yields_pure ⟨⟨(Extended.refl s).grown, rfl, rfl, rfl⟩, fun c A n j t l _ _ ht => ?_⟩
    cases ht
  | cons target rest ih =>
    obtain ⟨l0, hl0⟩ := hres target (by simp)
    let is : List Inst := [.aluImm .cmp .w32 r.toGpr (BitVec.ofNat 32 i)]
    have happ : Appends (emit (Emitter.aluImm .cmp .w32 r (BitVec.ofNat 32 i))) is :=
      appends_emit (Machine.emits_g hr)
    have hlt : l0 < (withOps s is).emitter.labels.size := hl0.choose_spec.2.2
    refine .bind ⟨l0, s, labelOf_ok hl0, .bind (happ.yields (.bind ⟨(), _, jcc_ok hlt _, ?_⟩))⟩
    have hcode := (Coded.withOps s is).trans (Coded.withJump (some .e) hlt)
    have hmove : ∀ t l, Resolves s t l → Resolves (withJump (withOps s is) (some .e) l0) t l :=
      fun t l h => h.mono rfl (Nat.le_refl _)
    refine (ih (i + 1) fun t ht => ?_).mono fun _ s' ⟨hcode', hrest⟩ =>
      ⟨hcode.trans hcode', fun c A n j t l hword hflags ht hl hn => ?_⟩
    · obtain ⟨l, hl⟩ := hres t (by simp [ht])
      exact ⟨l, hmove t l hl⟩
    -- after the comparison, the flags tell whether this is the entry
    have hcmp : Runs c s.emitter (withOps s is).emitter A fun m =>
        A m ∧ m.flags = some (.ofSub n (BitVec.ofNat 32 i)) := by
      refine .ops fun m hm => ⟨_, rfl, hflags m _ hm, ?_⟩
      show some (Flags.ofSub (m.word .w32 r.toGpr) ((BitVec.ofNat 32 i).signExtend 32)) = _
      rw [BitVec.signExtend_eq]
      exact congrArg (fun v => some (Flags.ofSub v (BitVec.ofNat 32 i))) (hword m hm)
    have hzero : Cond.e.holds (.ofSub n (BitVec.ofNat 32 i)) = (n == BitVec.ofNat 32 i) :=
      Machine.sub_beq_zero n _
    cases j with
    | zero =>
      cases ht
      cases hl0.inj hl
      have heq : n = BitVec.ofNat 32 i := by
        rw [Nat.add_zero] at hn
        rw [← hn, BitVec.ofNat_toNat, BitVec.setWidth_eq]
      refine (Runs.taken hcmp (fun m hm => ⟨_, hm.2, ?_⟩) hcode'.grown.code).mono (fun _ hm => hm)
        fun _ hm => hm.1
      rw [hzero, heq, beq_self_eq_true]
    | succ j =>
      have hne : n ≠ BitVec.ofNat 32 i := by
        intro he
        have := n.isLt
        rw [he, BitVec.toNat_ofNat, Nat.mod_eq_of_lt (by omega)] at hn
        omega
      have hpass : Runs c s.emitter (withJump (withOps s is) (some .e) l0).emitter A A := by
        refine (Runs.passed hcmp fun m hm => ⟨_, hm.2, ?_⟩).mono (fun _ hm => hm) fun _ hm => hm.1
        rw [hzero]
        exact beq_eq_false_iff_ne.mpr hne
      exact hpass.leads (hrest c A n j t l hword hflags ht (hmove t l hl) (by omega))
        hcode'.grown.code

include hs hpin in
theorem jumpTable_yields {cells : Array Cell}
    (hres : ∀ t ∈ Cell.labels cells, ∃ l, Resolves s t l)
    (hsite : Site info left lo k ops [.int32]) :
    (jumpTable b k (.table cells) ops).Yields s fun _ s' =>
      Closed info (usesAfter left ops) lo k s s' ∧ ∀ (n : BitVec 32) t l,
        (Cell.labels cells)[n.toNat]? = some t → Resolves s t l →
        Departs info ops [.int32 n] s s' l fun F V => Settled F V info := by
  obtain ⟨x, rfl, hx⟩ := hsite.one
  simp only [jumpTable, operand_eq [x] 0 rfl, pure_bind]
  refine ready_yields hs hpin hx fun r s1 h1 => ?_
  have hmove : ∀ t l, Resolves s t l → Resolves s1 t l := fun t l h =>
    h.mono h1.extended.labels h1.extended.grown.created
  refine (tableEntries_yields (h1.suits.isGeneral rfl) 0 fun t ht => ?_).andThen
    fun _ s2 ⟨h2, htable⟩ => ?_
  · obtain ⟨l, hl⟩ := hres t (Array.mem_toList_iff.mp ht)
    exact ⟨l, hmove t l hl⟩
  have happ : Appends (emit Emitter.ud2) [.ud2] := appends_emit (Machine.emits_emit _)
  refine .bind (happ.yields ?_)
  have h3 := h2.trans (Coded.withOps s2 [.ud2])
  have hcoh := h1.coherent.congr h3.regs h3.values h3.pinned
  refine (hsite.finishUses_yields hcoh).andThen fun _ s4 ⟨hcoh4, h4⟩ => ?_
  refine (clearAll_yields hcoh4 h4.pinned).mono fun _ s5 h5 => ⟨h5.closed
    (h1.extended.grown.trans (h3.grown.trans h4.extended.grown)), fun n t l ht hl F V hF hV hreads => ?_⟩
  have hleads := htable F.around (fun m => Represents F V s1.values m ∧ m.Holds r (.int32 n)) n
    n.toNat t l (fun _ hm => hm.2) (fun _ f hm => ⟨represents_withFlags hm.1 f, hm.2⟩)
    (by rwa [Array.getElem?_toList]) (hmove t l hl) (Nat.zero_add _).symm
  refine Leads.extend ?_ ((Emitter.extends_withOps s2.emitter [.ud2]).trans
    (h4.extended.extends.trans h5.extended.extends))
  exact ((h1.carries F V _ hF hV hreads).leads hleads h2.grown.code).mono (fun _ hm => hm)
    fun m hm => h1.coherent.settled h1.clean hm.1

/-! ### Leaving the function -/

/-- Code that moves a value to where results are returned. -/
def resultInsts (t : ValTy) (r : Reg) : List Inst :=
  match t with
  | .int w => [.mov w Reg.rax.toGpr r.toGpr]
  | .float _ => if r = .xmm0 then [] else [.movaps Reg.xmm0.toXmm r.toXmm]

theorem moveResult_appends (hr : if t.isFloat then r.IsXmm else r.IsGeneral) :
    Appends (moveResult t r) (resultInsts t r) := by
  cases t with
  | int w => exact appends_emit (Machine.emits_gg (by decide) hr)
  | float size =>
    by_cases hx : r = .xmm0
    · simp only [moveResult, resultInsts, if_pos hx]; exact appends_pure
    · simp only [moveResult, resultInsts, if_neg hx]
      exact appends_emit (Machine.emits_xx (by decide) hr)

theorem exec_resultInsts {c : Const} (S : Machine.Surroundings) (hr : m.Holds r c) :
    ∃ m', execAll S m (resultInsts c.ty r) = some m' ∧ State.SameBut [Reg.rax, Reg.xmm0] m m' ∧
      m'.Holds (resultReg (.val c.ty)) c := by
  have hint : ∀ (w : Width) (v : BitVec w.bits), m.word w r.toGpr = v →
      ∃ m', execAll S m (resultInsts (.int w) r) = some m' ∧
        State.SameBut [Reg.rax, Reg.xmm0] m m' ∧ m'.word w Reg.rax.toGpr = v := by
    intro w v hv
    refine ⟨_, rfl, (State.SameBut.setWord (by decide) w _).mono (by simp), ?_⟩
    rw [State.word_setWord_self, hv]
  have hfloat : ∀ (size : FloatSize) (p : BitVec size.bits), m.lane size r.toXmm = p →
      ∃ m', execAll S m (resultInsts (.float size) r) = some m' ∧
        State.SameBut [Reg.rax, Reg.xmm0] m m' ∧ m'.lane size Reg.xmm0.toXmm = p := by
    intro size p hp
    unfold resultInsts
    by_cases hx : r = .xmm0
    · rw [if_pos hx]
      exact ⟨m, rfl, (State.SameBut.refl m).mono (by simp), hx ▸ hp⟩
    · rw [if_neg hx]
      refine ⟨_, rfl, (State.SameBut.setXmm (by decide) _).mono (by simp), ?_⟩
      rw [State.lane, State.xmm_setXmm_self]
      exact hp
  cases c with
  | int32 v => exact hint .w32 v hr
  | int64 v =>
    obtain ⟨m', hm', hsame, hv⟩ := hint .w64 v ((State.holds_ofInt (w := .w64)).mp hr)
    exact ⟨m', hm', hsame, (State.holds_ofInt (w := .w64) (r := .rax)).mpr hv⟩
  | float64 p => exact hfloat .double p hr
  | float32 p => exact hfloat .single p hr

include hs hpin in
theorem ret_yields (hlabel : epilogueLabel < s.emitter.labels.size)
    (hsite : Site info left lo k ops [t]) :
    (ret t ops).Yields s fun _ s' => Closed info (usesAfter left ops) lo k s s' ∧
      ∀ c, Departs info ops [c] s s' epilogueLabel fun F V m =>
        Framed F V m ∧ m.Holds (resultReg (.val t)) c := by
  obtain ⟨x, rfl, hx⟩ := hsite.one
  simp only [ret, operand_eq [x] 0 rfl, pure_bind]
  refine ready_yields hs hpin hx fun r s1 h1 => ?_
  refine .bind ((moveResult_appends h1.suits.bank_spec).yields ?_)
  have h2 := Coded.withOps s1 (resultInsts t r)
  have hcoh := h1.coherent.congr h2.regs h2.values h2.pinned
  refine (hsite.finishUses_yields hcoh).andThen fun _ s3 ⟨hcoh3, h3⟩ => ?_
  have hgrown := h1.extended.grown.trans (h2.grown.trans h3.extended.grown)
  have hlt := Nat.lt_of_lt_of_le hlabel hgrown.created
  refine .bind ⟨(), _, jmp_ok hlt, ?_⟩
  have h4 := Coded.withJump none hlt
  refine (clearAll_yields (hcoh3.congr h4.regs h4.values h4.pinned) h3.pinned).mono fun _ s5 h5 =>
    ⟨h5.closed (hgrown.trans h4.grown), fun c F V hF hV hreads => ?_⟩
  have hrun : Runs F.around s.emitter s3.emitter (Represents F V s.values) fun m =>
      Framed F V m ∧ m.Holds (resultReg (.val t)) c := by
    rw [h3.emitter]
    refine (h1.carries F V c hF hV hreads).trans (.ops fun m hm => ?_)
      (Emitter.extends_withOps _ _)
    rcases hreads with _ | ⟨⟨-, hc⟩, _⟩
    cases hx.ty hV hc
    obtain ⟨m', hm', hsame, hholds⟩ := exec_resultInsts F.around hm.2
    exact ⟨m', hm', hm.1.framed.touch hsame (by decide), hholds⟩
  exact hrun.jump h5.extended.extends

include hs hpin in
theorem guardExit_yields {g : Guard} (hlabel : epilogueLabel < s.emitter.labels.size) :
    (guardExit (.guard g)).Yields s fun _ s' => Closed info left lo k s s' ∧
      Departs info [] [] s s' epilogueLabel fun F V m =>
        Framed F V m ∧ m.gpr Reg.rax.toGpr = g.record := by
  refine (syncAll_yields hs).andThen fun _ s1 h1 => ?_
  let e2 := s1.emitter.withLabel
  let stub := s1.emitter.labels.size
  have hopen : e2.labels[stub]? = some none := by simp [e2, stub, Emitter.withLabel]
  refine .bind ⟨stub, _, emit_ok (Emitter.newLabel_ok _), ?_⟩
  refine .bind (emit_yields ((Emitter.bind_yields hopen).mono fun _ e3 h3 => ?_))
  have happ : Appends (emit (Emitter.movImm64 .rax g.record))
      [.movImm64 Reg.rax.toGpr g.record] := appends_emit (Machine.emits_g (by decide))
  refine .bind (happ.yields ?_)
  have hsize : e3.labels.size = s1.emitter.labels.size + 1 := by
    rw [h3.labels, Array.size_setIfInBounds]; simp [e2, Emitter.withLabel]
  have hlt : epilogueLabel < e3.labels.size := by
    have := h1.extended.grown.created
    omega
  refine .bind ⟨(), _, jmp_ok (s := withOps { s1 with emitter := e3 } _) hlt,
    .bind (Step.yields_modify ?_)⟩
  let e4 := e3.withOps [.movImm64 Reg.rax.toGpr g.record]
  let s5 : CodeState := { s1 with
    emitter := e4.withJump none epilogueLabel, exits := s1.exits.push (g, stub) }
  show clearAll.Yields s5 _
  have hext2 : s1.emitter.Extends e2 := Emitter.extends_withLabel _
  have hext3 : e2.Extends e3 := h3.grows hopen
  have hext4 : e3.Extends e4 := Emitter.extends_withOps _ _
  have hext5 : e4.Extends s5.emitter := Emitter.extends_withJump _ _ _
  have hbound : s5.emitter.labels[stub]? = some (some e3.count) := h3.self hopen
  have hgrown : Grown s1 s5 := by
    refine ⟨hext2.trans (hext3.trans (hext4.trans hext5)), ?_, fun l hl => ?_, rfl, rfl,
      fun p hp => ?_, fun l hl => ?_, fun cond l hmem => ?_⟩
    · show _ ≤ e3.labels.size
      omega
    · show e3.labels[l]? = _
      rw [h3.other (Nat.ne_of_lt hl)]
      simp only [e2, Emitter.withLabel]
      rw [Array.getElem?_push_lt hl, ← Array.getElem?_eq_getElem hl]
    · rcases Array.mem_push.mp hp with hp | rfl
      · exact .inl hp
      · exact .inr ⟨_, hbound⟩
    · rcases Nat.eq_or_lt_of_le hl with rfl | hgt
      · rw [hbound]
        simp
      · have hnone : s5.emitter.labels[l]? = none := Array.getElem?_eq_none (by
          show e3.labels.size ≤ l
          omega)
        rw [hnone]
        simp
    · rw [Emitter.jump_mem_withJump, Emitter.jump_mem_withOps, h3.jump_mem] at hmem
      rcases hmem with hmem | ⟨-, rfl⟩
      · exact .inl hmem
      · exact .inr hlt
  refine (clearAll_yields (s := s5) (h1.coherent.congr rfl rfl rfl) (h1.pinned.trans hpin)).mono
    fun _ s6 h6 => ⟨h6.closed (h1.extended.grown.trans hgrown), fun F V hF hV _ => ?_⟩
  have hsync : Runs F.around s.emitter e2 (Represents F V s.values) (Framed F V) :=
    ((h1.settles hF hV).mono (fun _ hm => hm) fun _ hm => hm.toFramed).trans
      (fun p hp m hm => ⟨m, .refl _ _, hm⟩) hext2
  have hrun : Runs F.around s.emitter e4 (Represents F V s.values) fun m =>
      Framed F V m ∧ m.gpr Reg.rax.toGpr = g.record :=
    (hsync.trans (.bound h3 hopen _) hext3).trans (.ops fun m hm => ⟨_, rfl,
      hm.touch (.setGpr (r := .rax) (by decide) _) (by decide), State.gpr_setGpr_self ..⟩) hext4
  exact hrun.jump h6.extended.extends

end Gen

end JitBackend
