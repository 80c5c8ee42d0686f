import JitBackend.Codegen.Compile
import JitBackend.Proofs.Activation
import JitBackend.Proofs.RegisterFile
import Mathlib.Data.List.Perm.Subperm

namespace JitBackend

/-!
# Coherence of the register file and the value table

Two tables record where values are: the register file knows the owner of each register, the value
table the register of each value. They agree while code is generated.

* `Entry` — what holds of one value, `Gen.Coherent` — what holds of both tables;
* `Gen.Extended` — what the operations on values leave alone;
* `Gen.Carries`, `Gen.Spills` — the code emitted between two states keeps the values in place.
-/

/-- The state of one value is in order. -/
structure Entry (i : ValueInfo) (x : ValueState) : Prop where
  ty : x.ty = .val i.ty
  home : x.home = i.home
  placed : ∀ r, x.reg = some r → Suits i.ty r ∧ 0 < x.usesLeft
  modified : x.modified = true → x.reg.isSome = true ∧ i.writable = true

/-- Only a value whose home is out of date is written. -/
theorem Entry.needsWriteback_iff {i : ValueInfo} {x : ValueState} (he : Entry i x) :
    x.needsWriteback = true ↔ x.modified = true := by
  constructor
  · intro h
    simp only [ValueState.needsWriteback, Bool.and_eq_true] at h
    exact h.1.1
  · intro h
    obtain ⟨hreg, hwrite⟩ := he.modified h
    obtain ⟨r, hr⟩ := Option.isSome_iff_exists.mp hreg
    simp only [ValueState.needsWriteback, h, he.home, i.writable_slot hwrite, (he.placed r hr).2,
      decide_true, Bool.and_self]

/-- The state of a value after its register, if it is `r`, was taken from it. -/
def ValueState.leave (r : Reg) (x : ValueState) : ValueState :=
  if x.reg = some r then { x with reg := none, modified := false } else x

namespace ValueState

variable {r q : Reg} {x : ValueState}

theorem usesLeft_leave : (leave r x).usesLeft = x.usesLeft := by
  unfold leave; split <;> rfl

theorem home_leave : (leave r x).home = x.home := by
  unfold leave; split <;> rfl

theorem reg_leave : (leave r x).reg = some q ↔ x.reg = some q ∧ q ≠ r := by
  unfold leave
  split
  · rename_i h
    simp only [h, Option.some.injEq]
    constructor
    · intro hn; cases hn
    · rintro ⟨hq, hne⟩; exact absurd hq.symm hne
  · rename_i h
    constructor
    · intro hq
      exact ⟨hq, fun hqr => h (hqr ▸ hq)⟩
    · exact fun hq => hq.1

/-- Nothing leaves a register that it is not in. -/
theorem map_leave {o : Option ValueState} (h : ∀ x, o = some x → x.reg ≠ some r) :
    o.map (leave r) = o := by
  cases o with
  | none => rfl
  | some x => rw [Option.map_some, leave, if_neg (h x rfl)]

end ValueState

/-- The value is where it was, or has left a register that was emptied. -/
structure ValueState.Vacates (empty : Reg → Prop) (x x' : ValueState) : Prop where
  ty : x'.ty = x.ty
  home : x'.home = x.home
  reg : ∀ q, x'.reg = some q ↔ x.reg = some q ∧ ¬ empty q
  modified : x'.modified = true → x.modified = true ∧ x'.reg = x.reg

theorem ValueState.Vacates.refl {empty : Reg → Prop} {x : ValueState}
    (h : ∀ q, x.reg = some q → ¬ empty q) : x.Vacates empty x :=
  ⟨rfl, rfl, fun q => ⟨fun hq => ⟨hq, h q hq⟩, And.left⟩, fun hm => ⟨hm, rfl⟩⟩

theorem ValueState.vacates_leave (r : Reg) (x : ValueState) : x.Vacates (· = r) (x.leave r) := by
  refine ⟨?_, home_leave, fun q => reg_leave, fun hm => ?_⟩
  · unfold leave; split <;> rfl
  · unfold leave at hm ⊢
    split at hm
    · cases hm
    · rename_i h
      exact ⟨hm, by rw [if_neg h]⟩

/-- One of the registers of the machine. -/
def Reg.IsMachine (r : Reg) : Prop :=
  r.id < 16 ∧ r.bank < 2

instance (r : Reg) : Decidable r.IsMachine := inferInstanceAs (Decidable (_ ∧ _))

theorem Suits.isMachine {t : ValTy} {r : Reg} (h : Suits t r) : r.IsMachine := by
  rcases (allocatable_iff r).mp h.allocatable with ⟨⟨hb, hid⟩, -⟩ | ⟨⟨hb, hid⟩, -⟩
  · exact ⟨hid, by omega⟩
  · exact ⟨hid, by omega⟩

/-- The registers that the code of an instruction may use besides the one of its result. -/
def scratches : List Reg :=
  [Convention.scratch, Convention.floatScratch]

/-- A few registers in use leave one of each bank. -/
theorem exists_free (bank : Bank) (rs : List Reg) (h : rs.length ≤ 5) :
    ∃ r : Reg, r.bank = bank.index ∧ Convention.allocatable.contains r = true ∧ r ∉ rs := by
  -- six registers of each bank are more than those in use
  have hsix : ∀ qs : List Reg, qs.Nodup → qs.length = 6 → ∃ q ∈ qs, q ∉ rs := by
    intro qs hnodup hlen
    by_contra hall
    have hsub : qs ⊆ rs := fun q hq => Classical.byContradiction fun hn => hall ⟨q, hq, hn⟩
    have := (List.subperm_of_subset hnodup hsub).length_le
    omega
  have hcase : ∀ b, (∀ id ∈ [0, 1, 2, 3, 6, 7],
      Convention.allocatable.contains (⟨b, id⟩ : Reg) = true) →
      ∃ r : Reg, r.bank = b ∧ Convention.allocatable.contains r = true ∧ r ∉ rs := by
    intro b hb
    obtain ⟨q, hq, hnot⟩ := hsix ([0, 1, 2, 3, 6, 7].map fun id => ⟨b, id⟩)
      (by simp) (by simp)
    obtain ⟨id, hid, rfl⟩ := List.mem_map.mp hq
    exact ⟨_, rfl, hb id hid, hnot⟩
  cases bank with
  | general =>
    refine hcase 0 fun id hid => (allocatable_iff _).mpr (.inl ?_)
    revert id; decide
  | xmm =>
    refine hcase 1 fun id hid => (allocatable_iff _).mpr (.inr ?_)
    revert id; decide

namespace Gen

/-- The register file and the value table agree. Values from `hi` on are not computed yet, the
    homes of those before `lo` are up to date, and the register of `dst` is set aside for a value
    that is being computed. -/
structure Coherent (info : Infos) (left : Nat → Nat) (lo hi : Nat)
    (dst : Option (Reg × Nat)) (s : CodeState) : Prop where
  wellFormed : s.regs.WellFormed
  shape : RegFile.SameShape .initial s.regs
  entries : ∀ v x, s.values.get? v = some x → ∃ i, info v = some i ∧ Entry i x
  present : ∀ v i, info v = some i → ∃ x, s.values.get? v = some x
  uses : ∀ v x, s.values.get? v = some x → x.usesLeft = left v
  computed : ∀ v x r, s.values.get? v = some x → x.reg = some r → v < hi
  recent : ∀ v x, s.values.get? v = some x → x.modified = true → lo ≤ v
  owned : ∀ r v, r.IsMachine → (s.regs.owner? r = some v ↔
    (∃ x, s.values.get? v = some x ∧ x.reg = some r) ∨ dst = some (r, v))
  reserved : ∀ r v, dst = some (r, v) → ∃ i x, info v = some i ∧ s.values.get? v = some x ∧
    Suits i.ty r ∧ x.reg = none
  locks : ∀ r, r.IsMachine → s.regs.lockCount r = s.pinned.count r
  pinned : ∀ r ∈ s.pinned, r.IsMachine

/-- Nothing but code, counters and reports was added. -/
structure Extended (s s' : CodeState) : Prop where
  code : ∃ is, s'.emitter = s.emitter.withOps is
  frame : s'.frame = s.frame
  labels : s'.labels = s.labels
  exits : s'.exits = s.exits

theorem Extended.refl (s : CodeState) : Extended s s :=
  ⟨⟨[], by simp⟩, rfl, rfl, rfl⟩

theorem Extended.trans {s s' s'' : CodeState} (h : Extended s s') (h' : Extended s' s'') :
    Extended s s'' := by
  obtain ⟨is, his⟩ := h.code
  obtain ⟨js, hjs⟩ := h'.code
  exact ⟨⟨is ++ js, by rw [hjs, his, Machine.Emitter.withOps_withOps]⟩, h'.frame.trans h.frame,
    h'.labels.trans h.labels, h'.exits.trans h.exits⟩

theorem Extended.extends {s s' : CodeState} (h : Extended s s') :
    s.emitter.Extends s'.emitter := by
  obtain ⟨is, his⟩ := h.code
  rw [his]; exact Machine.Emitter.extends_withOps _ _

theorem Extended.withOps (s : CodeState) (is : List Machine.Inst) : Extended s (withOps s is) :=
  ⟨⟨is, rfl⟩, rfl, rfl, rfl⟩

/-- The code emitted between two states keeps the values in place, if the view satisfies `P`. -/
def Carries (info : Infos) (P : View → Prop) (s s' : CodeState) : Prop :=
  ∀ F V, F.Sound info → V.Typed info → P V →
    Machine.Runs F.around s.emitter s'.emitter (Represents F V s.values) (Represents F V s'.values)

/-- The code emitted between two states keeps the values in place and changes no register. -/
def Spills (info : Infos) (s s' : CodeState) : Prop :=
  ∀ (F : Activation) (V : View) (K : (Machine.Gpr → BitVec 64) → (Machine.Xmm → BitVec 128) → Prop),
    F.Sound info → V.Typed info →
    Machine.Runs F.around s.emitter s'.emitter
      (fun m => Represents F V s.values m ∧ K m.gpr m.xmm)
      (fun m => Represents F V s'.values m ∧ K m.gpr m.xmm)

variable {info : Infos} {P : View → Prop} {s s' s'' : CodeState}

theorem Carries.trans (h : Carries info P s s') (h' : Carries info P s' s'')
    (hext : Extended s' s'') : Carries info P s s'' := fun F V hF hV hP =>
  (h F V hF hV hP).trans (h' F V hF hV hP) hext.extends

theorem Extended.of_same (he : s'.emitter = s.emitter) (hf : s'.frame = s.frame)
    (hl : s'.labels = s.labels) (hx : s'.exits = s.exits) : Extended s s' :=
  ⟨⟨[], by rw [he, Machine.Emitter.withOps_nil]⟩, hf, hl, hx⟩

/-- Without code, and with the same table, nothing happens. -/
theorem Spills.of_same (he : s'.emitter = s.emitter) (hv : s'.values = s.values) :
    Spills info s s' := by
  intro F V K _ _
  rw [he, hv]
  exact .none fun _ hm => hm

theorem Carries.mono {Q : View → Prop} (h : Carries info P s s') (hQ : ∀ V, Q V → P V) :
    Carries info Q s s' := fun F V hF hV hP => h F V hF hV (hQ V hP)

theorem Spills.trans (h : Spills info s s') (h' : Spills info s' s'') (hext : Extended s' s'') :
    Spills info s s'' := fun F V K hF hV =>
  (h F V K hF hV).trans (h' F V K hF hV) hext.extends

theorem Spills.carries (h : Spills info s s') : Carries info P s s' := fun F V hF hV _ =>
  (h F V (fun _ _ => True) hF hV).mono (fun _ hm => ⟨hm, trivial⟩) fun _ hm => hm.1

/-- Without code, the table alone decides. -/
theorem Spills.of_table (he : s'.emitter = s.emitter)
    (h : ∀ v x', s'.values.get? v = some x' → ∃ x, s.values.get? v = some x ∧ x'.home = x.home ∧
      (∀ r, x'.reg = some r → x.reg = some r) ∧ (x'.modified = false → x.modified = false)) :
    Spills info s s' := by
  intro F V K _ _
  rw [he]
  refine .none fun m hm => ⟨hm.1.retable rfl rfl fun v x' c hx' hc => ?_, hm.2⟩
  obtain ⟨x, hx, hhome, hreg, hmod⟩ := h v x' hx'
  exact ⟨x, hx, hc, hhome, hreg, fun hneed hm' => ⟨hneed, hmod hm'⟩⟩

namespace Coherent

variable {left : Nat → Nat} {lo hi : Nat} {dst : Option (Reg × Nat)}

theorem has_iff (h : Coherent info left lo hi dst s) (r : Reg) : s.regs.Has r ↔ r.IsMachine := by
  rw [RegFile.Has, h.shape.perBank, h.shape.banks]
  exact Iff.rfl

/-- A value that there is has a state in order. -/
theorem entry (h : Coherent info left lo hi dst s) {v : Nat} {i : ValueInfo}
    (hi' : info v = some i) : ∃ x, s.values.get? v = some x ∧ Entry i x := by
  obtain ⟨x, hx⟩ := h.present v i hi'
  obtain ⟨j, hj, he⟩ := h.entries v x hx
  rw [hi'] at hj
  cases hj
  exact ⟨x, hx, he⟩

/-- A value for which a register is set aside is not in one. -/
theorem aside {r : Reg} {v : Nat} {i : ValueInfo} (h : Coherent info left lo hi (some (r, v)) s)
    (hi' : info v = some i) :
    Suits i.ty r ∧ ∃ x, s.values.get? v = some x ∧ x.reg = none ∧ Entry i x := by
  obtain ⟨j, x, hj, hx, hsuits, hreg⟩ := h.reserved r v rfl
  obtain ⟨y, hy, he⟩ := h.entry hi'
  rw [hi'] at hj
  cases hj
  rw [hx] at hy
  cases hy
  exact ⟨hsuits, x, hx, hreg, he⟩

/-- The owner of a register is in it, unless the register is set aside. -/
theorem reg_of_owner (h : Coherent info left lo hi none s) {r : Reg} {v : Nat} (hr : r.IsMachine)
    (howner : s.regs.owner? r = some v) : ∃ x, s.values.get? v = some x ∧ x.reg = some r := by
  rcases (h.owned r v hr).mp howner with hx | hd
  · exact hx
  · cases hd

section

variable {v : Nat} {x : ValueState} (h : Coherent info left lo hi dst s)
  (hx : s.values.get? v = some x)

include h hx

theorem isMachine {r : Reg} (hreg : x.reg = some r) : r.IsMachine := by
  obtain ⟨i, -, he⟩ := h.entries v x hx
  exact (he.placed r hreg).1.isMachine

theorem owner_of_reg {r : Reg} (hreg : x.reg = some r) : s.regs.owner? r = some v :=
  (h.owned r v (h.isMachine hx hreg)).mpr (.inl ⟨x, hx, hreg⟩)

/-- A value that is not computed yet is in no register. -/
theorem reg_eq_none (hv : hi ≤ v) : x.reg = none :=
  Option.eq_none_iff_forall_ne_some.mpr fun r hr => Nat.not_lt.mpr hv (h.computed v x r hx hr)

/-- No register holds two values. -/
theorem reg_inj {r : Reg} {u : Nat} {y : ValueState} (hxr : x.reg = some r)
    (hy : s.values.get? u = some y) (hyr : y.reg = some r) : v = u :=
  Option.some.inj ((h.owner_of_reg hx hxr).symm.trans (h.owner_of_reg hy hyr))

end

/-- No value is in the register that is set aside. -/
theorem ne_aside {r q : Reg} {v u : Nat} {x : ValueState}
    (h : Coherent info left lo hi (some (r, v)) s) (hx : s.values.get? u = some x)
    (hq : x.reg = some q) : q ≠ r := by
  rintro rfl
  obtain ⟨i, y, -, hy, hsuits, hreg⟩ := h.reserved q v rfl
  have howner := h.owner_of_reg hx hq
  rw [(h.owned q v hsuits.isMachine).mpr (.inr rfl)] at howner
  cases howner
  rw [hy] at hx
  cases hx
  rw [hreg] at hq
  cases hq

section

variable (h : Coherent info left lo hi dst s) {x : ValueState} {r : Reg} {v : Nat}

include h

/-- Registers that hold no value may change. -/
theorem touch {F : Activation} {V : View} {m m' : Machine.State} {rs : List Reg} (hV : V.Typed info)
    (hm : Represents F V s.values m) (hsame : m.SameBut rs m')
    (hspecial : Reg.rbp ∉ rs ∧ Reg.rsp ∉ rs)
    (hfree : ∀ v x r, s.values.get? v = some x → x.reg = some r → r ∉ rs) :
    Represents F V s.values m' := by
  refine hm.touch hsame hspecial fun v x r c hx hc hr => ⟨?_, hfree v x r hx hr⟩
  obtain ⟨i, hi, he⟩ := h.entries v x hx
  exact hV v i c hi hc ▸ (he.placed r hr).1

/-- No value is in a register without an owner. -/
theorem reg_ne_of_free {q : Reg} (hx : s.values.get? v = some x) (hr : x.reg = some r)
    (hq : s.regs.owner? q = none) : r ≠ q := by
  rintro rfl
  rw [h.owner_of_reg hx hr] at hq
  cases hq

/-- The register that is set aside may change, and those that no value is in. -/
theorem touch_aside {F : Activation} {V : View} {m m' : Machine.State}
    (hdst : dst = some (r, v)) (hV : V.Typed info) (hm : Represents F V s.values m)
    (hsame : m.SameBut (r :: scratches) m') : Represents F V s.values m' := by
  subst hdst
  obtain ⟨_, _, -, -, hsuits, -⟩ := h.reserved r v rfl
  have hres := hsuits.not_reserved
  simp only [List.mem_cons, List.not_mem_nil, or_false, not_or] at hres
  refine h.touch hV hm hsame ?_ fun w z q hz hq => ?_
  · simp only [scratches, List.mem_cons, List.not_mem_nil, or_false, not_or]
    exact ⟨⟨Ne.symm hres.2.1, by decide, by decide⟩, Ne.symm hres.1, by decide, by decide⟩
  · obtain ⟨i, -, he⟩ := h.entries w z hz
    have hres' := (he.placed q hq).1.not_reserved
    simp only [scratches, List.mem_cons, List.not_mem_nil, or_false, not_or] at hres' ⊢
    exact ⟨h.ne_aside hz hq, hres'.2.2.1, hres'.2.2.2⟩

/-- The other fields of the state do not matter. -/
theorem congr (hregs : s'.regs = s.regs) (hvalues : s'.values = s.values)
    (hpinned : s'.pinned = s.pinned) : Coherent info left lo hi dst s' := by
  obtain ⟨h1, h2, h3, h4, h5, h6, h7, h8, h9, h10, h11⟩ := h
  exact ⟨hregs ▸ h1, hregs ▸ h2, hvalues ▸ h3, hvalues ▸ h4, hvalues ▸ h5, hvalues ▸ h6,
    hvalues ▸ h7, by rw [hregs, hvalues]; exact h8, by rw [hvalues]; exact h9,
    by rw [hregs, hpinned]; exact h10, hpinned ▸ h11⟩

/-- Later on, more values are computed. -/
theorem later {hi' : Nat} (hle : hi ≤ hi') : Coherent info left lo hi' dst s :=
  { h with computed := fun v x r hx hr => Nat.lt_of_lt_of_le (h.computed v x r hx hr) hle }

/-- Locks change, and the list of pinned registers with them. -/
theorem relock {g : RegFile} {ps : List Reg} (hwf : g.WellFormed)
    (hshape : RegFile.SameShape s.regs g) (howner : ∀ q, g.owner? q = s.regs.owner? q)
    (hlocks : ∀ q : Reg, q.IsMachine → g.lockCount q = ps.count q) (hps : ∀ q ∈ ps, q.IsMachine) :
    Coherent info left lo hi dst { s with regs := g, pinned := ps } :=
  { h with
    wellFormed := hwf
    shape := h.shape.trans hshape
    owned := fun r v hr => by
      show g.owner? r = some v ↔ _
      rw [howner]; exact h.owned r v hr
    locks := hlocks
    pinned := hps }

/-- A value in a register has uses to come. -/
theorem left_pos (hx : s.values.get? v = some x) (hr : x.reg = some r) : 0 < left v := by
  obtain ⟨i, -, he⟩ := h.entries v x hx
  rw [← h.uses v x hx]
  exact (he.placed r hr).2

/-- Some registers are emptied, and then one may be set aside. -/
theorem vacate {left' : Nat → Nat} {dst' : Option (Reg × Nat)} (empty : Reg → Prop)
    (hvals : ∀ w, Option.Rel (fun x x' => x.Vacates empty x' ∧ x'.usesLeft = left' w)
      (s.values.get? w) (s'.values.get? w))
    (hleft : ∀ w x q, s.values.get? w = some x → x.reg = some q → ¬ empty q → 0 < left' w)
    (hfull : ∀ q : Reg, q.IsMachine → ¬ empty q → s'.regs.owner? q = s.regs.owner? q)
    (hempty : ∀ (q : Reg) w, q.IsMachine → empty q →
      (s'.regs.owner? q = some w ↔ dst' = some (q, w)))
    (hdst : ∀ q w, ¬ empty q → (dst' = some (q, w) ↔ dst = some (q, w)))
    (hreserved : ∀ q w, dst' = some (q, w) → ∃ i x, info w = some i ∧
      s.values.get? w = some x ∧ Suits i.ty q ∧ x.reg = none) (hwf : s'.regs.WellFormed)
    (hshape : RegFile.SameShape .initial s'.regs)
    (hlocks : ∀ q : Reg, q.IsMachine → s'.regs.lockCount q = s'.pinned.count q)
    (hpinned : ∀ q ∈ s'.pinned, q.IsMachine) : Coherent info left' lo hi dst' s' := by
  have hback : ∀ w x', s'.values.get? w = some x' →
      ∃ x, s.values.get? w = some x ∧ x.Vacates empty x' ∧ x'.usesLeft = left' w := by
    intro w x' hx'
    have hw := hvals w
    rw [hx'] at hw
    generalize s.values.get? w = o at hw ⊢
    cases hw with
    | some hw => exact ⟨_, rfl, hw⟩
  have hforth : ∀ w x, s.values.get? w = some x →
      ∃ x', s'.values.get? w = some x' ∧ x.Vacates empty x' := by
    intro w x hx
    have hw := hvals w
    rw [hx] at hw
    generalize s'.values.get? w = o at hw ⊢
    cases hw with
    | some hw => exact ⟨_, rfl, hw.1⟩
  refine ⟨hwf, hshape, ?_, ?_, ?_, ?_, ?_, ?_, ?_, hlocks, hpinned⟩
  · intro w x' hx'
    obtain ⟨x, hx, hv, huses⟩ := hback w x' hx'
    obtain ⟨i, hi, he⟩ := h.entries w x hx
    refine ⟨i, hi, hv.ty.trans he.ty, hv.home.trans he.home, fun q hq => ?_, fun hm => ?_⟩
    · obtain ⟨hq, hne⟩ := (hv.reg q).mp hq
      exact ⟨(he.placed q hq).1, huses ▸ hleft w x q hx hq hne⟩
    · obtain ⟨hm, hreg⟩ := hv.modified hm
      exact hreg ▸ he.modified hm
  · intro w i hi
    obtain ⟨x, hx⟩ := h.present w i hi
    obtain ⟨x', hx', -⟩ := hforth w x hx
    exact ⟨x', hx'⟩
  · intro w x' hx'
    obtain ⟨x, -, -, huses⟩ := hback w x' hx'
    exact huses
  · intro w x' q hx' hq
    obtain ⟨x, hx, hv, -⟩ := hback w x' hx'
    exact h.computed w x q hx ((hv.reg q).mp hq).1
  · intro w x' hx' hm
    obtain ⟨x, hx, hv, -⟩ := hback w x' hx'
    exact h.recent w x hx (hv.modified hm).1
  · intro q w hq
    by_cases he : empty q
    · rw [hempty q w hq he]
      refine ⟨.inr, fun hor => hor.resolve_left ?_⟩
      rintro ⟨x', hx', hr⟩
      obtain ⟨x, -, hv, -⟩ := hback w x' hx'
      exact ((hv.reg q).mp hr).2 he
    · rw [hfull q hq he, h.owned q w hq, hdst q w he]
      refine or_congr ⟨?_, ?_⟩ Iff.rfl
      · rintro ⟨x, hx, hr⟩
        obtain ⟨x', hx', hv⟩ := hforth w x hx
        exact ⟨x', hx', (hv.reg q).mpr ⟨hr, he⟩⟩
      · rintro ⟨x', hx', hr⟩
        obtain ⟨x, hx, hv, -⟩ := hback w x' hx'
        exact ⟨x, hx, ((hv.reg q).mp hr).1⟩
  · intro q w hd
    obtain ⟨i, x, hi, hx, hs, hr⟩ := hreserved q w hd
    obtain ⟨x', hx', hv⟩ := hforth w x hx
    refine ⟨i, x', hi, hx', hs, Option.eq_none_iff_forall_ne_some.mpr fun p hp => ?_⟩
    rw [((hv.reg p).mp hp).1] at hr
    cases hr

end

/-- A register changes hands: the value in it leaves, and the register is set aside or free. -/
theorem reassign (h : Coherent info left lo hi none s) {r : Reg} {dst' : Option (Reg × Nat)}
    (hvals : ∀ w, s'.values.get? w = (s.values.get? w).map (ValueState.leave r))
    (howner : ∀ q : Reg, q.IsMachine →
      s'.regs.owner? q = if q = r then dst'.map Prod.snd else s.regs.owner? q)
    (hdst : ∀ q v, dst' = some (q, v) → q = r ∧ ∃ i x, info v = some i ∧
      s.values.get? v = some x ∧ Suits i.ty r ∧ x.reg = none)
    (hwf : s'.regs.WellFormed) (hshape : RegFile.SameShape .initial s'.regs)
    (hlocks : ∀ q : Reg, q.IsMachine → s'.regs.lockCount q = s.regs.lockCount q)
    (hpinned : s'.pinned = s.pinned) : Coherent info left lo hi dst' s' := by
  refine h.vacate (· = r) (fun w => ?_) (fun w x q hx hq _ => h.left_pos hx hq)
    (fun q hq hne => (howner q hq).trans (if_neg hne)) ?_ (fun q w hne => ?_) (fun q w hd => ?_)
    hwf hshape (fun q hq => by rw [hlocks q hq, h.locks q hq, hpinned]) (hpinned ▸ h.pinned)
  · rw [hvals]
    cases hx : s.values.get? w with
    | none => exact .none
    | some x =>
      exact .some ⟨x.vacates_leave r, ValueState.usesLeft_leave.trans (h.uses w x hx)⟩
  · rintro q w hq rfl
    rw [howner q hq, if_pos rfl]
    constructor
    · intro hw
      obtain ⟨⟨q', u⟩, hd, rfl⟩ := Option.map_eq_some_iff.mp hw
      rw [hd, (hdst q' u hd).1]
    · intro hd
      rw [hd]
      rfl
  · constructor
    · intro hd; exact absurd (hdst q w hd).1 hne
    · intro hd; cases hd
  · obtain ⟨rfl, hw⟩ := hdst q w hd
    exact hw

/-- The register set aside for a value now holds it. -/
theorem settle {r : Reg} {v : Nat} (h : Coherent info left lo hi (some (r, v)) s)
    (hleft : 0 < left v) {hi' : Nat} (hle : hi ≤ hi') (hv : v < hi') (flag : Bool)
    (hflag : flag = true → (∀ i, info v = some i → i.writable = true) ∧ lo ≤ v) :
    Coherent info left lo hi' none
      { s with values := s.values.modify v fun x => { x with reg := some r, modified := flag } } := by
  obtain ⟨i, -, hi, -⟩ := h.reserved r v rfl
  obtain ⟨hsuits, x, hx, hreg, he⟩ := h.aside hi
  have hval : ∀ w y', (s.values.modify v fun x => { x with reg := some r, modified := flag }).get? w
      = some y' → (w = v ∧ y' = { x with reg := some r, modified := flag }) ∨
        (w ≠ v ∧ s.values.get? w = some y') := by
    intro w y' hy'
    rw [ValueTable.get?_modify] at hy'
    split at hy'
    · rename_i hw
      rw [hx] at hy'
      cases hy'
      exact .inl ⟨hw, rfl⟩
    · rename_i hw; exact .inr ⟨hw, hy'⟩
  refine ⟨h.wellFormed, h.shape, ?_, ?_, ?_, ?_, ?_, ?_, ?_, h.locks, h.pinned⟩
  · intro w y' hy'
    rcases hval w y' hy' with ⟨rfl, rfl⟩ | ⟨-, hy⟩
    · refine ⟨i, hi, he.ty, he.home, ?_, fun hm => ⟨rfl, (hflag hm).1 i hi⟩⟩
      intro q hq
      cases hq
      exact ⟨hsuits, by rw [show ({ x with reg := some r, modified := flag } : ValueState).usesLeft
        = x.usesLeft from rfl, h.uses w x hx]; exact hleft⟩
    · exact h.entries w y' hy
  · intro w j hj
    obtain ⟨y, hy⟩ := h.present w j hj
    by_cases hw : w = v
    · subst hw
      exact ⟨_, ValueTable.get?_modify_self hx _⟩
    · exact ⟨y, by simp only [ValueTable.get?_modify, if_neg hw, hy]⟩
  · intro w y' hy'
    rcases hval w y' hy' with ⟨rfl, rfl⟩ | ⟨-, hy⟩
    · exact h.uses w x hx
    · exact h.uses w y' hy
  · intro w y' q hy' hq
    rcases hval w y' hy' with ⟨rfl, rfl⟩ | ⟨-, hy⟩
    · exact hv
    · exact Nat.lt_of_lt_of_le (h.computed w y' q hy hq) hle
  · intro w y' hy' hm
    rcases hval w y' hy' with ⟨rfl, rfl⟩ | ⟨-, hy⟩
    · exact (hflag hm).2
    · exact h.recent w y' hy hm
  · intro q w hq
    rw [h.owned q w hq]
    constructor
    · rintro (⟨y, hy, hyr⟩ | hd)
      · have hw : w ≠ v := by
          rintro rfl
          rw [hx] at hy
          cases hy
          rw [hreg] at hyr
          cases hyr
        exact .inl ⟨y, by simp only [ValueTable.get?_modify, if_neg hw, hy], hyr⟩
      · cases hd
        exact .inl ⟨_, ValueTable.get?_modify_self hx _, rfl⟩
    · rintro (⟨y', hy', hyr⟩ | hd)
      · rcases hval w y' hy' with ⟨rfl, rfl⟩ | ⟨-, hy⟩
        · cases hyr
          exact .inr rfl
        · exact .inl ⟨y', hy, hyr⟩
      · cases hd
  · intro q w hd; cases hd

end Coherent

end Gen

end JitBackend
