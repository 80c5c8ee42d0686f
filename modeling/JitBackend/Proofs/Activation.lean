import JitBackend.Codegen.Values
import JitBackend.Proofs.Emission
import JitBackend.Proofs.RegisterSet
import JitBackend.Proofs.ValueTable

namespace JitBackend

/-!
# Values in a running function

How the values of linear code stand in the registers and in the frame of the machine that runs
its compiled form.

* `State.Holds` — a register holds a value, `Activation.AtHome` — a value is at its home;
* `Represents` — the state of the machine stands for the values in `View`;
* `SameBut` — what an instruction leaves alone; `Represents.touch`, `Represents.writeSlot` — why
  that keeps the values.
-/

/-- Values of the type can be had from the home. -/
def Home.Fits (t : ValTy) : Home → Prop
  | .slot _ => True
  | .remat (.const c) => c.ty = t
  | .remat (.frameAddr _) => t = .int64

/-- What is settled of a value before code is generated: its type, its home, and whether the home
    may be written. -/
structure ValueInfo where
  ty : ValTy
  home : Home
  writable : Bool
  fits : home.Fits ty
  writable_slot : writable = true → home.slot?.isSome = true

abbrev Infos := Nat → Option ValueInfo

namespace Machine.State

/-- The register holds the value; only the low bits count for a narrow one. -/
def Holds (m : State) (r : Reg) : Const → Prop
  | .int32 v => (m.gpr r.toGpr).setWidth 32 = v
  | .int64 v => m.gpr r.toGpr = v
  | .float64 p => (m.xmm r.toXmm).setWidth 64 = p
  | .float32 p => (m.xmm r.toXmm).setWidth 32 = p

variable {m m' : State} {rs : List Reg} {r : Reg}

theorem holds_ofInt {w : Width} {v : BitVec w.bits} :
    m.Holds r (.ofInt w v) ↔ m.word w r.toGpr = v := by
  cases w with
  | w32 => exact Iff.rfl
  | w64 =>
    show m.gpr r.toGpr = v ↔ (m.gpr r.toGpr).setWidth 64 = v
    rw [BitVec.setWidth_eq]

theorem holds_ofPattern {s : FloatSize} {p : BitVec s.bits} :
    m.Holds r (.ofPattern s p) ↔ m.lane s r.toXmm = p := by
  cases s <;> exact Iff.rfl

/-- The states differ at most in the given registers and in the flags. -/
structure SameBut (rs : List Reg) (m m' : State) : Prop where
  mem : m'.mem = m.mem
  trace : m'.trace = m.trace
  gpr : ∀ q : Reg, q.IsGeneral → q ∉ rs → m'.gpr q.toGpr = m.gpr q.toGpr
  xmm : ∀ q : Reg, q.IsXmm → q ∉ rs → m'.xmm q.toXmm = m.xmm q.toXmm

theorem SameBut.refl (m : State) : SameBut [] m m :=
  ⟨rfl, rfl, fun _ _ _ => rfl, fun _ _ _ => rfl⟩

theorem SameBut.trans {qs : List Reg} {m'' : State} (h : SameBut rs m m') (h' : SameBut qs m' m'') :
    SameBut (rs ++ qs) m m'' := by
  refine ⟨h'.mem.trans h.mem, h'.trace.trans h.trace, ?_, ?_⟩
  · intro q hq hnot
    rw [List.mem_append, not_or] at hnot
    rw [h'.gpr q hq hnot.2, h.gpr q hq hnot.1]
  · intro q hq hnot
    rw [List.mem_append, not_or] at hnot
    rw [h'.xmm q hq hnot.2, h.xmm q hq hnot.1]

theorem SameBut.mono {qs : List Reg} (h : SameBut rs m m') (hsub : ∀ r ∈ rs, r ∈ qs) :
    SameBut qs m m' :=
  ⟨h.mem, h.trace, fun q hq hnot => h.gpr q hq fun hin => hnot (hsub q hin),
    fun q hq hnot => h.xmm q hq fun hin => hnot (hsub q hin)⟩

theorem SameBut.setGpr (hr : r.IsGeneral) (v : BitVec 64) : SameBut [r] m (m.setGpr r.toGpr v) := by
  refine ⟨rfl, rfl, ?_, fun _ _ _ => rfl⟩
  intro q hq hnot
  have hne : q.toGpr ≠ r.toGpr := fun h => hnot (by simp [(Reg.toGpr_inj hq hr).mp h])
  exact Function.update_of_ne hne _ _

theorem SameBut.setXmm (hr : r.IsXmm) (v : BitVec 128) : SameBut [r] m (m.setXmm r.toXmm v) := by
  refine ⟨rfl, rfl, fun _ _ _ => rfl, ?_⟩
  intro q hq hnot
  have hne : q.toXmm ≠ r.toXmm := fun h => hnot (by simp [(Reg.toXmm_inj hq hr).mp h])
  exact Function.update_of_ne hne _ _

theorem SameBut.withFlags (h : SameBut rs m m') (f : Option Flags) :
    SameBut rs m (m'.withFlags f) :=
  ⟨h.mem, h.trace, h.gpr, h.xmm⟩

@[simp] theorem gpr_setGpr_self (m : State) (r : Gpr) (v : BitVec 64) :
    (m.setGpr r v).gpr r = v := Function.update_self ..

@[simp] theorem xmm_setXmm_self (m : State) (r : Xmm) (v : BitVec 128) :
    (m.setXmm r v).xmm r = v := Function.update_self ..

theorem gpr_setGpr_of_ne {r q : Gpr} (h : q ≠ r) (v : BitVec 64) :
    (m.setGpr r v).gpr q = m.gpr q := Function.update_of_ne h _ _

theorem xmm_setXmm_of_ne {r q : Xmm} (h : q ≠ r) (v : BitVec 128) :
    (m.setXmm r v).xmm q = m.xmm q := Function.update_of_ne h _ _

@[simp] theorem word_setWord_self (m : State) (w : Width) (r : Gpr) (v : BitVec w.bits) :
    (m.setWord w r v).word w r = v := by
  simp only [State.word, State.setWord, gpr_setGpr_self]
  rw [BitVec.setWidth_setWidth_of_le _ (by cases w <;> decide), BitVec.setWidth_eq]

@[simp] theorem lane_setLane_self (m : State) (s : FloatSize) (x : Xmm) (v : BitVec s.bits) :
    (m.setLane s x v).lane s x = v := by
  have hlow : ∀ (n : Nat) (_ : n ≤ 128) (y : BitVec 128) (v : BitVec n),
      ((y >>> n <<< n) ||| v.setWidth 128).setWidth n = v := by
    intro n hn y v
    apply BitVec.eq_of_getLsbD_eq
    intro i hi
    simp only [BitVec.getLsbD_setWidth, BitVec.getLsbD_or, BitVec.getLsbD_shiftLeft, hi, decide_true,
      Bool.not_true, Bool.and_false, Bool.false_and, Bool.false_or, Bool.true_and,
      show i < 128 by omega]
  simp only [State.lane, State.setLane, xmm_setXmm_self]
  exact hlow s.bits (by cases s <;> decide) _ v

theorem Holds.of_sameBut (h : SameBut rs m m') {c : Const} (hr : r ∉ rs)
    (hbank : if c.ty.isFloat then r.IsXmm else r.IsGeneral) (hc : m.Holds r c) : m'.Holds r c := by
  cases c with
  | int32 v | int64 v =>
    show _ = _
    rw [h.gpr r hbank hr]; exact hc
  | float64 p | float32 p =>
    show _ = _
    rw [h.xmm r hbank hr]; exact hc

end Machine.State

open Machine (State Surroundings Observation)

/-! ### Frames of running functions -/

/-- One activation of a function: where its frame is, and what in it must not change. -/
structure Activation where
  around : Surroundings
  /-- Content of the frame pointer. -/
  base : BitVec 64
  /-- Content of the stack pointer. -/
  sp : BitVec 64
  /-- Addresses whose content stays as it is in `snapshot`. -/
  fixed : BitVec 64 → Prop
  snapshot : Memory

namespace Activation

/-- Address of an offset from the frame base. -/
def addr (F : Activation) (offset : Int) : BitVec 64 :=
  F.base + BitVec.ofInt 64 offset

/-- The value can be had from its home. -/
def AtHome (F : Activation) (m : State) (c : Const) : Home → Prop
  | .slot offset => m.mem.read (F.addr offset) c.ty.size = c.bits
  | .remat (.const k) => k = c
  | .remat (.frameAddr offset) => c = .int64 (F.addr offset)

/-- Homes do not overlap each other or anything else that matters, and can be addressed. -/
structure Sound (F : Activation) (info : Infos) : Prop where
  slot_near : ∀ v i offset, info v = some i → i.home = .slot offset →
    -2 ^ 31 ≤ offset ∧ offset + 8 ≤ 2 ^ 31
  addr_near : ∀ v i offset, info v = some i → i.home = .remat (.frameAddr offset) →
    -2 ^ 31 ≤ offset ∧ offset < 2 ^ 31
  hidden : ∀ v i offset x, info v = some i → i.home = .slot offset →
    Memory.InRange (F.addr offset) 8 x → F.around.hidden x = true
  unfixed : ∀ v i offset x, info v = some i → i.writable = true → i.home = .slot offset →
    Memory.InRange (F.addr offset) 8 x → ¬ F.fixed x
  apart : ∀ v u i j p q, v ≠ u → info v = some i → info u = some j → j.writable = true →
    i.home = .slot p → j.home = .slot q → p + 8 ≤ q ∨ q + 8 ≤ p
  fixed_hidden : ∀ x, F.fixed x → F.around.hidden x = true

end Activation

/-- The values that a state of the machine stands for. -/
structure View where
  /-- Values that have been computed. -/
  env : Nat → Option Const
  /-- Values whose homes matter. -/
  need : Nat → Prop
  /-- Memory outside of the frame. -/
  mem : Memory
  trace : List Observation

/-- The value has been computed, and its home matters. -/
def View.Available (V : View) (v : Nat) : Prop :=
  (∃ c, V.env v = some c) ∧ V.need v

/-- These are the values of the operands, which are all available. -/
def View.Reads (V : View) (ops : List Handle) (args : List Const) : Prop :=
  List.Forall₂ (fun x c => V.Available x.index ∧ V.env x.index = some c) ops args

theorem View.Reads.available {V : View} {ops : List Handle} {args : List Const}
    (h : V.Reads ops args) : ∀ x ∈ ops, V.Available x.index := by
  induction h with
  | nil => exact List.forall_mem_nil _
  | cons hx _ ih => exact List.forall_mem_cons.mpr ⟨hx.1, ih⟩

/-- Values have their types. -/
def View.Typed (V : View) (info : Infos) : Prop :=
  ∀ v i c, info v = some i → V.env v = some c → i.ty = c.ty

/-- The state of the machine stands for the values of a view, when they are where the table says
    that they are. -/
structure Represents (F : Activation) (V : View) (t : ValueTable) (m : State) : Prop where
  rbp : m.gpr Reg.rbp.toGpr = F.base
  rsp : m.gpr Reg.rsp.toGpr = F.sp
  fixed : ∀ x, F.fixed x → m.mem x = F.snapshot x
  visible : ∀ x, F.around.hidden x = false → m.mem x = V.mem x
  trace : m.trace = V.trace
  regs : ∀ v x r c, t.get? v = some x → V.env v = some c → x.reg = some r → m.Holds r c
  homes : ∀ v x c, t.get? v = some x → V.env v = some c → V.need v → x.modified = false →
    F.AtHome m c x.home

/-- The register may hold values of the type. -/
structure Suits (t : ValTy) (r : Reg) : Prop where
  allocatable : Convention.allocatable.contains r = true
  bank : r.bank = (Bank.ofTy (.val t)).index

theorem allocatable_iff (r : Reg) : Convention.allocatable.contains r = true ↔
    r.IsGeneral ∧ r ∉ [Reg.rsp, Reg.rbp, Convention.scratch] ∨
      r.IsXmm ∧ r ≠ Convention.floatScratch := by
  rw [Convention.allocatable, RegSet.contains_ofList]
  simp only [decide_eq_true_eq, List.mem_append, List.mem_filter, List.mem_map, List.mem_range]
  constructor
  · rintro ⟨⟨⟨n, hn, rfl⟩, hnot⟩ | ⟨⟨n, hn, rfl⟩, hnot⟩, hfits⟩
    · exact .inl ⟨⟨rfl, hn⟩, by simpa using hnot⟩
    · exact .inr ⟨⟨rfl, hn⟩, by simpa using hnot⟩
  · rintro (⟨⟨hb, hid⟩, hnot⟩ | ⟨⟨hb, hid⟩, hnot⟩)
    · obtain ⟨bank, id⟩ := r
      simp only at hb hid
      subst hb
      refine ⟨.inl ⟨⟨id, hid, rfl⟩, by simpa using hnot⟩, Nat.succ_pos 3, ?_⟩
      exact Nat.lt_of_lt_of_le hid (by decide)
    · obtain ⟨bank, id⟩ := r
      simp only at hb hid
      subst hb
      refine ⟨.inr ⟨⟨id, hid, rfl⟩, by simpa using hnot⟩, Nat.succ_lt_succ (Nat.succ_pos 2), ?_⟩
      exact Nat.lt_of_lt_of_le hid (by decide)

namespace Suits

variable {t : ValTy} {r : Reg}

theorem isGeneral (h : Suits t r) (ht : t.isFloat = false) : r.IsGeneral := by
  have hb := h.bank
  rcases (allocatable_iff r).mp h.allocatable with ⟨hg, -⟩ | ⟨hx, -⟩
  · exact hg
  · rw [hx.1, Bank.ofTy, Ty.isFloat, ht] at hb
    cases hb

theorem isXmm (h : Suits t r) (ht : t.isFloat = true) : r.IsXmm := by
  have hb := h.bank
  rcases (allocatable_iff r).mp h.allocatable with ⟨hg, -⟩ | ⟨hx, -⟩
  · rw [hg.1, Bank.ofTy, Ty.isFloat, ht] at hb
    cases hb
  · exact hx

theorem bank_spec (h : Suits t r) : if t.isFloat then r.IsXmm else r.IsGeneral := by
  cases ht : t.isFloat with
  | false => exact h.isGeneral ht
  | true => exact h.isXmm ht

/-- Values are never in a register with a use of its own. -/
theorem not_reserved (h : Suits t r) :
    r ∉ [Reg.rsp, Reg.rbp, Convention.scratch, Convention.floatScratch] := by
  rcases (allocatable_iff r).mp h.allocatable with ⟨⟨hb, -⟩, hnot⟩ | ⟨⟨hb, -⟩, hnot⟩
  · have hx : r ≠ Convention.floatScratch := by rintro rfl; cases hb
    simp_all
  · have hg : ∀ q ∈ [Reg.rsp, Reg.rbp, Convention.scratch], r ≠ q := by
      intro q hq he
      subst he
      simp only [List.mem_cons, List.not_mem_nil, or_false] at hq
      rcases hq with rfl | rfl | rfl <;> cases hb
    simp_all

end Suits

/-! ### What keeps values in place -/

namespace Activation

theorem atHome_congr {F : Activation} {m m' : State} {c : Const} {h : Home} {n : Nat}
    (hsize : c.ty.size ≤ n) (hmem : ∀ offset, h = .slot offset → ∀ x,
      Memory.InRange (F.addr offset) n x → m'.mem x = m.mem x) (hm : F.AtHome m c h)
    (hn : n < 2 ^ 64) : F.AtHome m' c h := by
  cases h with
  | remat r => cases r <;> exact hm
  | slot offset =>
    refine Eq.trans (Memory.read_congr fun i hi => ?_) hm
    exact hmem offset rfl _ (Memory.inRange_add (Nat.lt_of_lt_of_le hi hsize) hn)

end Activation

theorem ValTy.size_le (t : ValTy) : t.size ≤ 8 := by
  rcases t with (_ | _) | (_ | _) <;> decide

theorem ValTy.size_pos (t : ValTy) : 0 < t.size := by
  rcases t with (_ | _) | (_ | _) <;> decide

/-- The frame of a machine is in order, wherever values are. -/
structure Framed (F : Activation) (V : View) (m : State) : Prop where
  rbp : m.gpr Reg.rbp.toGpr = F.base
  rsp : m.gpr Reg.rsp.toGpr = F.sp
  fixed : ∀ x, F.fixed x → m.mem x = F.snapshot x
  visible : ∀ x, F.around.hidden x = false → m.mem x = V.mem x
  trace : m.trace = V.trace

variable {F : Activation} {V : View} {t : ValueTable} {m m' : State} {r : Reg}

theorem Framed.touch (h : Framed F V m) {rs : List Reg} (hsame : m.SameBut rs m')
    (hspecial : Reg.rbp ∉ rs ∧ Reg.rsp ∉ rs) : Framed F V m' where
  rbp := by rw [hsame.gpr _ (by decide) hspecial.1]; exact h.rbp
  rsp := by rw [hsame.gpr _ (by decide) hspecial.2]; exact h.rsp
  fixed x hx := by rw [hsame.mem]; exact h.fixed x hx
  visible x hx := by rw [hsame.mem]; exact h.visible x hx
  trace := hsame.trace.trans h.trace

namespace Represents

theorem framed (h : Represents F V t m) : Framed F V m :=
  ⟨h.rbp, h.rsp, h.fixed, h.visible, h.trace⟩

/-- A register that no value is in may change. -/
theorem touch (h : Represents F V t m) {rs : List Reg} (hsame : m.SameBut rs m')
    (hspecial : Reg.rbp ∉ rs ∧ Reg.rsp ∉ rs)
    (hsuits : ∀ v x r c, t.get? v = some x → V.env v = some c → x.reg = some r →
      Suits c.ty r ∧ r ∉ rs) :
    Represents F V t m' := by
  refine { h.framed.touch hsame hspecial with
    regs := fun v x r c hx hc hr => ?_, homes := fun v x c hx hc hneed hmod => ?_ }
  · obtain ⟨hs, hnot⟩ := hsuits v x r c hx hc hr
    exact (h.regs v x r c hx hc hr).of_sameBut hsame hnot hs.bank_spec
  · refine Activation.atHome_congr c.ty.size_le (fun _ _ y _ => ?_)
      (h.homes v x c hx hc hneed hmod) (by decide)
    rw [hsame.mem]

/-- A change of the table that neither moves values to other registers nor marks homes as up to
    date keeps what the state stands for. -/
theorem retable (h : Represents F V t m) {V' : View} {t' : ValueTable} (hmem : V'.mem = V.mem)
    (htrace : V'.trace = V.trace)
    (hval : ∀ v x' c, t'.get? v = some x' → V'.env v = some c → ∃ x, t.get? v = some x ∧
      V.env v = some c ∧ x'.home = x.home ∧ (∀ r, x'.reg = some r → x.reg = some r) ∧
      (V'.need v → x'.modified = false → V.need v ∧ x.modified = false)) :
    Represents F V' t' m where
  rbp := h.rbp
  rsp := h.rsp
  fixed := h.fixed
  visible := hmem ▸ h.visible
  trace := htrace ▸ h.trace
  regs v x' r c hx' hc hr := by
    obtain ⟨x, hx, hc', -, hreg, -⟩ := hval v x' c hx' hc
    exact h.regs v x r c hx hc' (hreg r hr)
  homes v x' c hx' hc hneed hmod := by
    obtain ⟨x, hx, hc', hhome, -, hn⟩ := hval v x' c hx' hc
    obtain ⟨hneed', hmod'⟩ := hn hneed hmod
    rw [hhome]
    exact h.homes v x c hx hc' hneed' hmod'

/-- A register that holds a value may be noted in the table. -/
theorem load (h : Represents F V t m) {v : Nat} {x : ValueState} (hx : t.get? v = some x)
    (hmod : x.modified = false) (hholds : ∀ c, V.env v = some c → m.Holds r c) :
    Represents F V (t.modify v fun x => { x with reg := some r, modified := false }) m := by
  refine ⟨h.rbp, h.rsp, h.fixed, h.visible, h.trace, ?_, ?_⟩
  · intro w y q c hy hc hq
    rw [ValueTable.get?_modify] at hy
    split at hy
    · rename_i hw
      obtain ⟨z, -, rfl⟩ := Option.map_eq_some_iff.mp hy
      cases hq
      exact hholds c (hw ▸ hc)
    · exact h.regs w y q c hy hc hq
  · intro w y c hy hc hneed hm
    rw [ValueTable.get?_modify] at hy
    split at hy
    · rename_i hw
      subst hw
      rw [hx] at hy
      cases hy
      exact h.homes w x c hx hc hneed hmod
    · exact h.homes w y c hy hc hneed hm

variable {info : Infos} (hF : F.Sound info) (h : Represents F V t m)
  (hinfo : ∀ u y, t.get? u = some y → ∃ j, info u = some j ∧ y.home = j.home)

include hF h hinfo

/-- The slot of a value may be written from the register that holds it. -/
theorem writeSlot {v : Nat} {i : ValueInfo} {offset : Int} {n : Nat} {w : BitVec 64}
    (hi : info v = some i) (hwrite : i.writable = true) (hhome : i.home = .slot offset) (hn : n ≤ 8)
    (hc : ∀ c, V.env v = some c → n = c.ty.size ∧ Memory.lowBytes n w = c.bits) :
    Represents F V (t.modify v fun x => { x with modified := false })
      { m with mem := m.mem.write (F.addr offset) n w } := by
  have hslot : ∀ x, Memory.InRange (F.addr offset) n x → Memory.InRange (F.addr offset) 8 x :=
    fun x hx => Nat.lt_of_lt_of_le hx hn
  have hout : ∀ x, ¬ Memory.InRange (F.addr offset) 8 x →
      m.mem.write (F.addr offset) n w x = m.mem x := fun x hx =>
    Memory.write_of_outside _ _ fun hin => hx (hslot x hin)
  refine ⟨h.rbp, h.rsp, ?_, ?_, h.trace, ?_, ?_⟩
  · intro x hx
    exact (hout x fun hin => hF.unfixed v i offset x hi hwrite hhome hin hx).trans (h.fixed x hx)
  · intro x hx
    refine (hout x fun hin => ?_).trans (h.visible x hx)
    rw [hF.hidden v i offset x hi hhome hin] at hx
    cases hx
  · intro u y r c hy hcu hr
    rw [ValueTable.get?_modify] at hy
    split at hy
    · obtain ⟨x, hx, rfl⟩ := Option.map_eq_some_iff.mp hy
      rename_i huv
      exact h.regs u x r c (huv ▸ hx) hcu hr
    · exact h.regs u y r c hy hcu hr
  · intro u y c hy hcu hneed hmod
    rw [ValueTable.get?_modify] at hy
    split at hy
    · -- the value itself has just been written
      rename_i huv
      subst huv
      obtain ⟨x, hx, rfl⟩ := Option.map_eq_some_iff.mp hy
      obtain ⟨j, hj, hxj⟩ := hinfo u x hx
      rw [hi] at hj
      cases hj
      show F.AtHome _ c x.home
      rw [hxj, hhome]
      obtain ⟨rfl, hlow⟩ := hc c hcu
      exact (Memory.read_write _ _ hn _).trans hlow
    · rename_i huv
      obtain ⟨j, hj, hyj⟩ := hinfo u y hy
      refine Activation.atHome_congr c.ty.size_le (fun q hq z hz => hout z fun hin => ?_)
        (h.homes u y c hy hcu hneed hmod) (by decide)
      rw [hyj] at hq
      have hnear := hF.slot_near v i offset hi hhome
      have hnear' := hF.slot_near u j q hj hq
      have hin := (Memory.inRange_iff F.base z (by omega) (by omega)).mp hin
      have hz := (Memory.inRange_iff F.base z (by omega) (by omega)).mp hz
      have := hF.apart u v j i q offset huv hj hi hwrite hq hhome
      omega

/-- Memory outside of the frame may change in step with the view. -/
theorem outside {mem mem' : Memory} (hkeep : ∀ x, F.around.hidden x = true → mem x = m.mem x)
    (hvis : ∀ x, F.around.hidden x = false → mem x = mem' x) (obs : List Observation) :
    Represents F { V with mem := mem', trace := V.trace ++ obs } t
      { m with mem := mem, trace := m.trace ++ obs } := by
  refine ⟨h.rbp, h.rsp, ?_, hvis, by rw [← h.trace], h.regs, ?_⟩
  · intro x hx
    exact (hkeep x (hF.fixed_hidden x hx)).trans (h.fixed x hx)
  · intro v x c hx hc hneed hmod
    obtain ⟨i, hi, hxi⟩ := hinfo v x hx
    refine Activation.atHome_congr c.ty.size_le (fun offset ho y hy => hkeep y ?_)
      (h.homes v x c hx hc hneed hmod) (by decide)
    exact hF.hidden v i offset y hi (hxi ▸ ho) hy

end Represents

/-! ### Instructions that reach homes -/

open Machine (Inst Mem)

/-- Load of a value from memory. -/
def loadInst (t : ValTy) (r : Reg) (a : Mem) : Inst :=
  match t with
  | .int32 => .load .b32 false r.toGpr a
  | .int64 => .load .b64 false r.toGpr a
  | .float s => .loadFloat s r.toXmm a

/-- Store of a value to memory. -/
def storeInst (t : ValTy) (a : Mem) (r : Reg) : Inst :=
  match t with
  | .int32 => .store .b32 a r.toGpr
  | .int64 => .store .b64 a r.toGpr
  | .float s => .storeFloat s a r.toXmm

theorem signExtend_displacement {offset : Int} (h : -2 ^ 31 ≤ offset ∧ offset < 2 ^ 31) :
    (Gen.displacement offset).signExtend 64 = BitVec.ofInt 64 offset := by
  apply BitVec.eq_of_toInt_eq
  rw [Gen.displacement, BitVec.toInt_signExtend_of_le (by decide), BitVec.toInt_ofInt,
    BitVec.toInt_ofInt, Int.bmod_eq_of_le (by omega) (by omega),
    Int.bmod_eq_of_le (by omega) (by omega)]

namespace Machine.State

variable {c : Surroundings} {m : State}

theorem address_frame {F : Activation} (h : m.gpr Reg.rbp.toGpr = F.base) (offset : Int)
    (hnear : -2 ^ 31 ≤ offset ∧ offset < 2 ^ 31) :
    m.address ⟨Reg.rbp.toGpr, Gen.displacement offset⟩ = F.addr offset := by
  rw [State.address, h, signExtend_displacement hnear, Activation.addr]

theorem observe_hidden {a : BitVec 64} (h : c.hidden a = true) (e : Observation) :
    m.observe c a e = m := if_pos h

theorem write_hidden {a : BitVec 64} (h : c.hidden a = true) (n : Nat) (v : BitVec 64) :
    m.write c a n v = { m with mem := m.mem.write a n v } := if_pos h

/-- Bits of a value as they are written to memory. -/
def stored (m : State) (t : ValTy) (r : Reg) : BitVec 64 :=
  match t with
  | .int _ => m.gpr r.toGpr
  | .float s => (m.lane s r.toXmm).setWidth 64

theorem exec_storeInst (a : Mem) (t : ValTy) (r : Reg) :
    Machine.exec c m (storeInst t a r) = some (m.write c (m.address a) t.size (m.stored t r)) := by
  rcases t with (_ | _) | (_ | _) <;> rfl

theorem lowBytes_of_setWidth {n : Nat} {v : BitVec 64} {p : BitVec (8 * n)}
    (h : v.setWidth (8 * n) = p) : Memory.lowBytes n v = p.setWidth 64 := by
  rw [Memory.lowBytes, h]

theorem lowBytes_stored {k : Const} (h : m.Holds r k) :
    Memory.lowBytes k.ty.size (m.stored k.ty r) = k.bits := by
  cases k with
  | int32 v => exact lowBytes_of_setWidth (n := 4) h
  | int64 v =>
    refine (lowBytes_of_setWidth (n := 8) (p := v) ?_).trans (BitVec.setWidth_eq v)
    rw [BitVec.setWidth_eq]; exact h
  | float64 p =>
    refine (lowBytes_of_setWidth (n := 8) (p := p) ?_).trans (BitVec.setWidth_eq p)
    rw [BitVec.setWidth_eq]
    show ((m.xmm r.toXmm).setWidth 64).setWidth 64 = p
    rw [BitVec.setWidth_eq]; exact h
  | float32 p =>
    refine lowBytes_of_setWidth (n := 4) (p := p) ?_
    show (((m.xmm r.toXmm).setWidth 32).setWidth 64).setWidth 32 = p
    rw [BitVec.setWidth_setWidth_of_le _ (by decide), BitVec.setWidth_eq]; exact h

/-- A value is loaded from a hidden place. -/
theorem exec_loadInst {a : Mem} {k : Const} (hhid : c.hidden (m.address a) = true)
    (hr : if k.ty.isFloat then r.IsXmm else r.IsGeneral)
    (hread : m.mem.read (m.address a) k.ty.size = k.bits) :
    ∃ m', Machine.exec c m (loadInst k.ty r a) = some m' ∧ m.SameBut [r] m' ∧ m'.Holds r k := by
  have hobs : ∀ n, m.observeLoad c (m.address a) n = m := fun n => observe_hidden hhid _
  cases k with
  | int32 v =>
    refine ⟨m.setGpr r.toGpr (v.setWidth 64), ?_, .setGpr hr _, ?_⟩
    · exact congrArg some ((congrArg₂ (fun x y => x.setGpr r.toGpr y) (hobs 4) hread))
    · show BitVec.setWidth 32 ((m.setGpr r.toGpr (v.setWidth 64)).gpr r.toGpr) = v
      rw [gpr_setGpr_self, BitVec.setWidth_setWidth_of_le _ (by decide), BitVec.setWidth_eq]
  | int64 v =>
    refine ⟨m.setGpr r.toGpr v, ?_, .setGpr hr _, gpr_setGpr_self ..⟩
    exact congrArg some ((congrArg₂ (fun x y => x.setGpr r.toGpr y) (hobs 8) hread))
  | float64 p =>
    refine ⟨m.setXmm r.toXmm (p.setWidth 128), ?_, .setXmm hr _, ?_⟩
    · exact congrArg some
        (congrArg₂ (fun x (y : BitVec 64) => x.setXmm r.toXmm (y.setWidth 128)) (hobs 8) hread)
    · show BitVec.setWidth 64 ((m.setXmm r.toXmm (p.setWidth 128)).xmm r.toXmm) = p
      rw [xmm_setXmm_self, BitVec.setWidth_setWidth_of_le _ (by decide), BitVec.setWidth_eq]
  | float32 p =>
    refine ⟨m.setXmm r.toXmm ((p.setWidth 64).setWidth 128), ?_, .setXmm hr _, ?_⟩
    · exact congrArg some
        (congrArg₂ (fun x (y : BitVec 64) => x.setXmm r.toXmm (y.setWidth 128)) (hobs 4) hread)
    · show BitVec.setWidth 32 ((m.setXmm r.toXmm ((p.setWidth 64).setWidth 128)).xmm r.toXmm) = p
      rw [xmm_setXmm_self, BitVec.setWidth_setWidth_of_le _ (by decide),
        BitVec.setWidth_setWidth_of_le _ (by decide), BitVec.setWidth_eq]

end Machine.State

end JitBackend
