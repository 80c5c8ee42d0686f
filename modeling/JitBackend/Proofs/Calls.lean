import JitBackend.Proofs.Control
import Mathlib.Data.List.Nodup

namespace JitBackend

/-!
# Code for calls

Before a call all values go home, and the arguments are fetched from there into their places. A
callee finds the arguments, replies with a result and with memory outside of the frame, and keeps
everything else.

* `Arrival.Passes` — a callee finds its arguments, `Replies` — what it does then;
* `Activation.Room` — room for arguments at the stack pointer;
* `Gen.Calling` — arguments, and what the callee makes of them;
* `Gen.Invoked` — where the callee returns to, `Gen.call_yields` — the code of a call.
-/

open Machine (Inst State Surroundings Arrival Reply Runs execAll Observation)
open Convention (scratch floatScratch)

/-! ### What callees see and do -/

/-- Among these registers, `r` holds the value. -/
def Machine.holdsIn (gpr : Machine.Gpr → BitVec 64) (xmm : Machine.Xmm → BitVec 128) (r : Reg) :
    Const → Prop
  | .int32 v => (gpr r.toGpr).setWidth 32 = v
  | .int64 v => gpr r.toGpr = v
  | .float64 p => (xmm r.toXmm).setWidth 64 = p
  | .float32 p => (xmm r.toXmm).setWidth 32 = p

theorem Machine.State.holds_iff {m : State} {r : Reg} {c : Const} :
    m.Holds r c ↔ Machine.holdsIn m.gpr m.xmm r c := by
  cases c <;> exact Iff.rfl

namespace Machine.Arrival

/-- The argument is at the place. -/
def Has (a : Arrival) (c : Const) : Place → Prop
  | .register r => holdsIn a.gpr a.xmm r c
  | .stack offset => Memory.lowBytes c.ty.size (a.stack offset) = c.bits
  | .nowhere => True

/-- The arguments are at their places. -/
def Passes (a : Arrival) (args : List Const) : Prop :=
  List.Forall₂ (fun c p => a.Has c p.place) args
    (Assigner.fresh.arguments (args.map fun c => Ty.val c.ty)).1

end Machine.Arrival

/-- Called with these arguments, the callee replies with this result and leaves this memory
    outside of what is hidden from it. -/
def Replies (S : Surroundings) (callee : Callee) (args : List Const) (mem : Memory)
    (res : Option Const) (mem' : Memory) : Prop :=
  ∀ a : Arrival, a.Passes args →
    (∀ c, res = some c →
      Machine.holdsIn (S.reply callee.address.word a (S.visible mem)).gpr
        (S.reply callee.address.word a (S.visible mem)).xmm (Gen.resultReg (.val c.ty)) c) ∧
      ∀ x, S.hidden x = false → (S.reply callee.address.word a (S.visible mem)).mem x = mem' x

/-- There is room for `n` bytes of arguments at the stack pointer. -/
structure Activation.Room (F : Activation) (info : Infos) (n : Nat) : Prop where
  near : n < 2 ^ 31
  hidden : ∀ x, Memory.InRange F.sp n x → F.around.hidden x = true
  unfixed : ∀ x, Memory.InRange F.sp n x → ¬ F.fixed x
  apart : ∀ v i offset x, info v = some i → i.home = .slot offset →
    Memory.InRange (F.addr offset) 8 x → ¬ Memory.InRange F.sp n x

theorem Activation.Room.mono {F : Activation} {info : Infos} {n n' : Nat}
    (h : F.Room info n) (hle : n' ≤ n) : F.Room info n' :=
  ⟨Nat.lt_of_le_of_lt hle h.near, fun x hx => h.hidden x (Nat.lt_of_lt_of_le hx hle),
    fun x hx => h.unfixed x (Nat.lt_of_lt_of_le hx hle), fun v i offset x hi ho hx hx' =>
      h.apart v i offset x hi ho hx (Nat.lt_of_lt_of_le hx' hle)⟩

/-! ### Places of arguments -/

namespace Assigner

variable {a : Assigner} {t : ValTy} {c : Const}

/-- The place is one of those that were given out. -/
def Taken (a : Assigner) (c : Const) : Place → Prop
  | .register r =>
    if c.ty.isFloat then r ∈ Convention.floatArgs.take a.floatArgs
    else r ∈ Convention.intArgs.take a.intArgs
  | .stack offset => offset + 8 ≤ a.stack
  | .nowhere => True

/-- Where the next argument goes. -/
theorem argument_cases (a : Assigner) (t : Ty) :
    (t.isFloat = false ∧ ∃ r, Convention.intArgs[a.intArgs]? = some r ∧
      (a.argument t).1.place = .register r ∧
      (a.argument t).2 = { a with intArgs := a.intArgs + 1 }) ∨
    (t.isFloat = true ∧ ∃ r, Convention.floatArgs[a.floatArgs]? = some r ∧
      (a.argument t).1.place = .register r ∧
      (a.argument t).2 = { a with floatArgs := a.floatArgs + 1 }) ∨
    ((if t.isFloat then Convention.floatArgs[a.floatArgs]? else Convention.intArgs[a.intArgs]?)
        = none ∧ (a.argument t).1.place = .stack a.stack ∧
      (a.argument t).2 = { a with stack := a.stack + 8 }) := by
  cases ht : t.isFloat with
  | false =>
    have hbank : Bank.ofTy t = .general := by simp [Bank.ofTy, ht]
    cases hr : Convention.intArgs[a.intArgs]? with
    | some r => exact .inl ⟨rfl, r, rfl, by simp [argument, hbank, nextReg, hr]⟩
    | none => exact .inr (.inr ⟨rfl, by simp [argument, hbank, nextReg, hr]⟩)
  | true =>
    have hbank : Bank.ofTy t = .xmm := by simp [Bank.ofTy, ht]
    cases hr : Convention.floatArgs[a.floatArgs]? with
    | some r => exact .inr (.inl ⟨rfl, r, rfl, by simp [argument, hbank, nextReg, hr]⟩)
    | none => exact .inr (.inr ⟨rfl, by simp [argument, hbank, nextReg, hr]⟩)

theorem stack_argument (a : Assigner) (t : Ty) : a.stack ≤ (a.argument t).2.stack := by
  rcases a.argument_cases t with ⟨-, r, -, -, h⟩ | ⟨-, r, -, -, h⟩ | ⟨-, -, h⟩
  all_goals
    have hstack := congrArg stack h
    dsimp only at hstack
    omega

theorem stack_arguments (a : Assigner) (ts : List Ty) : a.stack ≤ (a.arguments ts).2.stack := by
  induction ts generalizing a with
  | nil => exact Nat.le_refl _
  | cons t ts ih => exact Nat.le_trans (a.stack_argument t) (ih (a.argument t).2)

/-- Places that were given out stay so. -/
theorem Taken.argument {p : Place} (h : a.Taken c p) (t : ValTy) :
    (a.argument (.val t)).2.Taken c p := by
  have htake : ∀ (xs : List Reg) n r, r ∈ xs.take n → r ∈ xs.take (n + 1) := fun xs n r hr =>
    List.take_subset_take_left xs (Nat.le_succ n) hr
  rcases a.argument_cases (.val t) with ⟨-, r, -, -, he⟩ | ⟨-, r, -, -, he⟩ | ⟨-, -, he⟩ <;> rw [he]
  · cases p with
    | register q => simp only [Taken] at h ⊢; split at h <;> simp_all
    | _ => exact h
  · cases p with
    | register q => simp only [Taken] at h ⊢; split at h <;> simp_all
    | _ => exact h
  · cases p with
    | stack offset => exact Nat.le_trans h (Nat.le_add_right _ _)
    | _ => exact h

/-- The place of the next argument is given out with it. -/
theorem taken_argument (a : Assigner) (c : Const) :
    (a.argument (.val c.ty)).2.Taken c (a.argument (.val c.ty)).1.place := by
  have htake : ∀ (xs : List Reg) n r, xs[n]? = some r → r ∈ xs.take (n + 1) := by
    intro xs n r hr
    exact List.mem_of_getElem? (i := n) (by rw [List.getElem?_take_of_lt (Nat.lt_succ_self n)]; exact hr)
  rcases a.argument_cases (.val c.ty) with ⟨ht, r, hr, hp, he⟩ | ⟨ht, r, hr, hp, he⟩ | ⟨-, hp, he⟩ <;>
    rw [hp, he]
  · exact (if_neg (Bool.eq_false_iff.mp ht)).mpr (htake _ _ _ hr)
  · exact (if_pos ht).mpr (htake _ _ _ hr)
  · exact Nat.le_refl _

theorem Taken.arguments {p : Place} (h : a.Taken c p) (ts : List ValTy) :
    (a.arguments (ts.map .val)).2.Taken c p := by
  induction ts generalizing a with
  | nil => exact h
  | cons t ts ih => exact ih (h.argument t)

theorem intArgs_spec : ∀ r ∈ Convention.intArgs, r.IsGeneral ∧
    r ∉ [Reg.rsp, Reg.rbp, scratch, floatScratch] := by
  decide

theorem floatArgs_spec : ∀ r ∈ Convention.floatArgs, r.IsXmm ∧
    r ∉ [Reg.rsp, Reg.rbp, scratch, floatScratch] := by
  decide

/-- Arguments do not go to registers with a use of their own. -/
theorem Taken.register {r : Reg} (h : a.Taken c (.register r)) :
    (if c.ty.isFloat then r.IsXmm else r.IsGeneral) ∧
      r ∉ [Reg.rsp, Reg.rbp, scratch, floatScratch] := by
  simp only [Taken] at h
  cases hc : c.ty.isFloat with
  | false =>
    rw [hc] at h
    exact intArgs_spec r (List.mem_of_mem_take h)
  | true =>
    rw [hc] at h
    exact floatArgs_spec r (List.mem_of_mem_take h)

/-- The register of the next argument is not given out yet. -/
theorem Taken.ne_next {r q : Reg} (h : a.Taken c (.register q))
    (hr : (a.argument (.val t)).1.place = .register r) : q ≠ r := by
  have hfresh : ∀ (xs : List Reg) (n : Nat), xs.Nodup → q ∈ xs.take n → xs[n]? = some r → q ≠ r := by
    rintro xs n hnodup hq hr rfl
    obtain ⟨i, hi, hiq⟩ := List.mem_take_iff_getElem.mp hq
    obtain ⟨hn, hnq⟩ := List.getElem?_eq_some_iff.mp hr
    have := (List.Nodup.getElem_inj_iff hnodup).mp (hiq.trans hnq.symm)
    omega
  have hbank := h.register.1
  simp only [Taken] at h
  rcases a.argument_cases (.val t) with ⟨-, r', hr', hp, -⟩ | ⟨-, r', hr', hp, -⟩ | ⟨-, hp, -⟩
  · rw [hr] at hp
    cases hp
    have hg := intArgs_spec r (List.mem_of_getElem? hr')
    cases hc : c.ty.isFloat with
    | false =>
      rw [hc] at h
      exact hfresh _ _ (by decide) h hr'
    | true =>
      rw [hc] at hbank
      rintro rfl
      have := hbank.1
      rw [hg.1.1] at this
      cases this
  · rw [hr] at hp
    cases hp
    have hx := floatArgs_spec r (List.mem_of_getElem? hr')
    cases hc : c.ty.isFloat with
    | true =>
      rw [hc] at h
      exact hfresh _ _ (by decide) h hr'
    | false =>
      rw [hc] at hbank
      rintro rfl
      have := hbank.1
      rw [hx.1.1] at this
      cases this
  · rw [hr] at hp
    cases hp

end Assigner

/-! ### Code that passes arguments -/

namespace Machine.State

variable {m m' : State} {a : Assigner} {c : Const} {p : Place}

/-- The argument is at the place before a call. -/
def Has (m : State) (c : Const) : Place → Prop
  | .register r => m.Holds r c
  | .stack offset =>
    m.mem.read (m.gpr Reg.rsp.toGpr + BitVec.ofNat 64 offset) c.ty.size = c.bits
  | .nowhere => True

/-- An argument stays at its place while other registers change. -/
theorem Has.of_sameBut {rs : List Reg} (h : m.Has c p) (hsame : SameBut rs m m') (hp : a.Taken c p)
    (hrs : Reg.rsp ∉ rs ∧ ∀ r, p = .register r → r ∉ rs) : m'.Has c p := by
  cases p with
  | register r => exact Holds.of_sameBut hsame (hrs.2 r rfl) hp.register.1 h
  | stack offset =>
    show m'.mem.read _ _ = _
    rw [hsame.mem, hsame.gpr _ (by decide) hrs.1]
    exact h
  | nowhere => trivial

/-- An argument stays at its place while other places on the stack are written. -/
theorem Has.write {offset n : Nat} {w : BitVec 64} (h : m.Has c p) (hp : a.Taken c p)
    (hoff : a.stack ≤ offset) (hnear : offset + n < 2 ^ 32) :
    Has { m with mem := m.mem.write (m.gpr Reg.rsp.toGpr + BitVec.ofNat 64 offset) n w } c p := by
  cases p with
  | register r => exact h
  | stack q =>
    refine Eq.trans (Memory.read_write_of_disjoint _ _ fun i hi hin => ?_) h
    have hq : q + 8 ≤ a.stack := hp
    have hsize := c.ty.size_le
    simp only [Memory.InRange] at hin
    have hx : m.gpr Reg.rsp.toGpr + BitVec.ofNat 64 q + BitVec.ofNat 64 i
        - (m.gpr Reg.rsp.toGpr + BitVec.ofNat 64 offset)
        = BitVec.ofNat 64 (q + i) - BitVec.ofNat 64 offset := by
      rw [BitVec.ofNat_add]; bv_omega
    rw [hx, BitVec.toNat_sub, BitVec.toNat_ofNat, BitVec.toNat_ofNat] at hin
    omega
  | nowhere => trivial

end Machine.State

variable {F : Activation} {V : View} {info : Infos} {m m' : State}

theorem Settled.touch (h : Settled F V info m) {rs : List Reg} (hsame : m.SameBut rs m')
    (hspecial : Reg.rbp ∉ rs ∧ Reg.rsp ∉ rs) : Settled F V info m' := by
  refine ⟨h.toFramed.touch hsame hspecial, fun v i c hi hc hneed => ?_⟩
  refine Activation.atHome_congr c.ty.size_le (fun _ _ y _ => ?_) (h.homes v i c hi hc hneed)
    (by decide)
  rw [hsame.mem]

/-- The room for arguments may be written. -/
theorem Settled.pass {n k : Nat} {a w : BitVec 64} (h : Settled F V info m)
    (hroom : F.Room info n) (hin : ∀ x, Memory.InRange a k x → Memory.InRange F.sp n x) :
    Settled F V info { m with mem := m.mem.write a k w } := by
  have hout : ∀ x, ¬ Memory.InRange F.sp n x → m.mem.write a k w x = m.mem x := fun x hx =>
    Memory.write_of_outside _ _ fun hx' => hx (hin x hx')
  refine ⟨⟨h.rbp, h.rsp, fun x hx => ?_, fun x hx => ?_, h.trace⟩, fun v i c hi hc hneed => ?_⟩
  · exact (hout x fun hx' => hroom.unfixed x hx' hx).trans (h.fixed x hx)
  · refine (hout x fun hx' => ?_).trans (h.visible x hx)
    rw [hroom.hidden x hx'] at hx
    cases hx
  · refine Activation.atHome_congr c.ty.size_le (fun offset ho y hy => hout y ?_)
      (h.homes v i c hi hc hneed) (by decide)
    exact hroom.apart v i offset y hi ho hy

/-- A value at home can be fetched. -/
theorem Settled.fetch (hF : F.Sound info) (h : Settled F V info m) {v : Nat} {i : ValueInfo}
    {c : Const} {r : Reg} (hi : info v = some i) (hc : V.env v = some c) (hneed : V.need v)
    (hr : if c.ty.isFloat then r.IsXmm else r.IsGeneral) :
    ∃ m', execAll F.around m (Gen.homeInsts c.ty r i.home) = some m' ∧
      m.SameBut [r, scratch] m' ∧ m'.Holds r c := by
  refine Gen.exec_homeInsts hr h.rbp (h.homes v i c hi hc hneed) (fun offset ho => ⟨?_, ?_⟩)
    fun offset ho => hF.addr_near v i offset hi ho
  · exact hF.slot_near v i offset hi ho
  · exact hF.hidden v i offset _ hi ho (by simp [Memory.InRange])

namespace Gen

/-- Scratch register for values of a type. -/
def scratchFor (t : ValTy) : Reg :=
  if t.isFloat then floatScratch else scratch

theorem scratchFor_spec (t : ValTy) :
    if t.isFloat then (scratchFor t).IsXmm else (scratchFor t).IsGeneral := by
  unfold scratchFor
  cases t.isFloat <;> decide

/-- The code that puts a value from its home into its place. -/
def argumentInsts (i : ValueInfo) : Place → List Inst
  | .register r => homeInsts i.ty r i.home
  | .stack offset => homeInsts i.ty (scratchFor i.ty) i.home ++
      [storeInst i.ty ⟨Reg.rsp.toGpr, displacement offset⟩ (scratchFor i.ty)]
  | .nowhere => []

/-- The code that puts values from their homes into their places. -/
def argumentsInsts (a : Assigner) : List ValueInfo → List Inst
  | [] => []
  | i :: is => argumentInsts i (a.argument (.val i.ty)).1.place ++
      argumentsInsts (a.argument (.val i.ty)).2 is

variable {is : List ValueInfo} {args : List Const} {n : Nat}

/-- One argument goes to its place, and the arguments before it stay at theirs. -/
theorem exec_argument {v : Nat} {i : ValueInfo} {c : Const} (hF : F.Sound info)
    (hroom : F.Room info n) (h : Settled F V info m) (hi : info v = some i) (hc : V.env v = some c)
    (hneed : V.need v) (hty : i.ty = c.ty) (a : Assigner)
    (hstack : (a.argument (.val c.ty)).2.stack ≤ n) :
    ∃ m', execAll F.around m (argumentInsts i (a.argument (.val c.ty)).1.place) = some m' ∧
      Settled F V info m' ∧ m'.Has c (a.argument (.val c.ty)).1.place ∧
      ∀ c' p, a.Taken c' p → m.Has c' p → m'.Has c' p := by
  -- what goes to a register
  have hreg : ∀ r, (a.argument (.val c.ty)).1.place = .register r →
      ∃ m', execAll F.around m (argumentInsts i (.register r)) = some m' ∧
        Settled F V info m' ∧ m'.Has c (.register r) ∧
        ∀ c' p, a.Taken c' p → m.Has c' p → m'.Has c' p := by
    intro r hr
    have hspec := (hr ▸ a.taken_argument c).register
    obtain ⟨m', hexec, hsame, hholds⟩ := h.fetch hF hi hc hneed hspec.1
    have hres := hspec.2
    simp only [List.mem_cons, List.not_mem_nil, or_false, not_or] at hres
    refine ⟨m', by rw [argumentInsts, hty]; exact hexec, h.touch hsame ?_, hholds, ?_⟩
    · simp only [List.mem_cons, List.not_mem_nil, or_false, not_or]
      exact ⟨⟨Ne.symm hres.2.1, by decide⟩, Ne.symm hres.1, by decide⟩
    · intro c' p hp hm
      refine hm.of_sameBut hsame hp ⟨?_, fun q hq => ?_⟩
      · simp only [List.mem_cons, List.not_mem_nil, or_false, not_or]
        exact ⟨Ne.symm hres.1, by decide⟩
      · subst hq
        have hq := hp.register.2
        simp only [List.mem_cons, List.not_mem_nil, or_false, not_or] at hq ⊢
        exact ⟨hp.ne_next hr, hq.2.2.1⟩
  rcases a.argument_cases (.val c.ty) with ⟨-, r, -, hp, -⟩ | ⟨-, r, -, hp, -⟩ | ⟨-, hp, ha⟩
  · rw [hp]; exact hreg r hp
  · rw [hp]; exact hreg r hp
  · -- what goes to the stack
    rw [hp]
    rw [ha] at hstack
    have hnear := hroom.near
    have hfit : a.stack + 8 ≤ n := hstack
    obtain ⟨m1, hexec, hsame, hholds⟩ := h.fetch hF hi hc hneed (scratchFor_spec c.ty)
    have hscratch : Reg.rbp ∉ [scratchFor c.ty, scratch] ∧
        Reg.rsp ∉ [scratchFor c.ty, scratch] := by
      unfold scratchFor
      cases c.ty.isFloat <;> decide
    have h1 := h.touch hsame hscratch
    have haddr : m1.address ⟨Reg.rsp.toGpr, displacement a.stack⟩
        = m1.gpr Reg.rsp.toGpr + BitVec.ofNat 64 a.stack := by
      rw [State.address, signExtend_displacement (by omega)]
      rfl
    have hin : ∀ x, Memory.InRange (m1.gpr Reg.rsp.toGpr + BitVec.ofNat 64 a.stack) c.ty.size x →
        Memory.InRange F.sp n x := by
      intro x hx
      have hsize := c.ty.size_le
      rw [h1.rsp] at hx
      simp only [Memory.InRange] at hx ⊢
      have hsub : x - F.sp = (x - (F.sp + BitVec.ofNat 64 a.stack)) + BitVec.ofNat 64 a.stack := by
        bv_omega
      rw [hsub, BitVec.toNat_add, BitVec.toNat_ofNat]
      omega
    have hhid : F.around.hidden (m1.gpr Reg.rsp.toGpr + BitVec.ofNat 64 a.stack) = true := by
      refine hroom.hidden _ (hin _ ?_)
      simp only [Memory.InRange, BitVec.sub_self]
      exact ValTy.size_pos c.ty
    refine ⟨_, ?_, h1.pass hroom hin (w := m1.stored c.ty (scratchFor c.ty)), ?_, ?_⟩
    · rw [argumentInsts, hty, Machine.execAll_append, hexec]
      simp only [Option.bind_some, execAll, State.exec_storeInst, haddr, State.write_hidden hhid]
    · exact (Memory.read_write _ _ c.ty.size_le _).trans (State.lowBytes_stored hholds)
    · intro c' p hp' hm
      have hm1 : m1.Has c' p := by
        refine hm.of_sameBut hsame hp' ⟨hscratch.2, fun q hq => ?_⟩
        subst hq
        have hq := hp'.register.2
        simp only [List.mem_cons, List.not_mem_nil, or_false, not_or] at hq ⊢
        refine ⟨?_, hq.2.2.1⟩
        unfold scratchFor
        split
        · exact hq.2.2.2
        · exact hq.2.2.1
      exact hm1.write hp' (Nat.le_refl _) (by have := c.ty.size_le; omega)

/-- The value of `i` can be fetched and is `c`. -/
def Fetched (info : Infos) (V : View) (i : ValueInfo) (c : Const) : Prop :=
  ∃ v, info v = some i ∧ V.env v = some c ∧ V.need v

/-- All arguments go to their places. -/
theorem exec_arguments (hF : F.Sound info) (hV : V.Typed info) (hroom : F.Room info n)
    (h : Settled F V info m) (hargs : List.Forall₂ (Fetched info V) is args) (a : Assigner)
    (hstack : (a.arguments (args.map fun c => Ty.val c.ty)).2.stack ≤ n) :
    ∃ m', execAll F.around m (argumentsInsts a is) = some m' ∧ Settled F V info m' ∧
      List.Forall₂ (fun c p => m'.Has c p.place ∧
          (a.arguments (args.map fun c => Ty.val c.ty)).2.Taken c p.place) args
        (a.arguments (args.map fun c => Ty.val c.ty)).1 ∧
      ∀ c p, a.Taken c p → m.Has c p → m'.Has c p := by
  induction hargs generalizing a m with
  | nil => exact ⟨m, rfl, h, .nil, fun _ _ _ hm => hm⟩
  | @cons i c is args hic _ ih =>
    obtain ⟨v, hi, hc, hneed⟩ := hic
    have hty := hV v i c hi hc
    have hmap : (args.map Const.ty).map Ty.val = args.map fun c => Ty.val c.ty := List.map_map ..
    have hrest : (a.argument (.val c.ty)).2.stack ≤ n :=
      Nat.le_trans (Assigner.stack_arguments _ _) hstack
    have htaken := (a.taken_argument c).arguments (args.map Const.ty)
    rw [hmap] at htaken
    obtain ⟨m1, hexec1, h1, hhas, hkeep1⟩ := exec_argument hF hroom h hi hc hneed hty a hrest
    obtain ⟨m2, hexec2, h2, hall, hkeep2⟩ := ih h1 (a.argument (.val c.ty)).2 hstack
    refine ⟨m2, ?_, h2, .cons ⟨hkeep2 _ _ (a.taken_argument c) hhas, htaken⟩ hall,
      fun c' p hp hm => hkeep2 c' p (hp.argument c.ty) (hkeep1 c' p hp hm)⟩
    rw [argumentsInsts, hty, Machine.execAll_append, hexec1]
    exact hexec2

variable {left : Nat → Nat} {lo k hi : Nat} {s : CodeState}

theorem passArguments_ok {dst : Option (Reg × Nat)} {hs : List Handle}
    (h : Coherent info left lo hi dst s) (hempty : ∀ v x, s.values.get? v = some x → x.reg = none)
    (hinfo : List.Forall₂ (fun x i => info x.index = some i) hs is) (a : Assigner) :
    passArguments a hs s = .ok () (withOps s (argumentsInsts a is)) := by
  induction hinfo generalizing a s with
  | nil => exact appends_pure s
  | @cons x i hs is hi' _ ih =>
    obtain ⟨y, hy, he⟩ := h.entry hi'
    have hfill : ∀ r : Reg, (if i.ty.isFloat then r.IsXmm else r.IsGeneral) →
        fill x.index r s = .ok () (withOps s (homeInsts i.ty r i.home)) := fun r hr =>
      fill_ok hy he (hempty x.index y hy) hr
    have hpass : passArgument x (.val i.ty) (a.argument (.val i.ty)).1.place s
        = .ok () (withOps s (argumentInsts i (a.argument (.val i.ty)).1.place)) := by
      rcases hp : (a.argument (.val i.ty)).1.place with r | offset | -
      · obtain ⟨c, hc⟩ : ∃ c : Const, c.ty = i.ty := by
          rcases i.ty with (_ | _) | (_ | _)
          exacts [⟨.int32 0, rfl⟩, ⟨.int64 0, rfl⟩, ⟨.float32 0, rfl⟩, ⟨.float64 0, rfl⟩]
        have hspec := a.taken_argument c
        rw [hc, hp] at hspec
        exact hfill r (hc ▸ hspec.register.1)
      · have hstore : Appends (storeTo (.val i.ty) .rsp offset (scratchFor i.ty))
            [storeInst i.ty ⟨Reg.rsp.toGpr, displacement offset⟩ (scratchFor i.ty)] :=
          storeTo_appends (by decide) (scratchFor_spec i.ty) offset
        show (fill x.index (scratchFor i.ty) >>= fun _ => _) s = _
        rw [Step.bind_ok (hfill _ (scratchFor_spec i.ty))]
        refine (hstore _).trans ?_
        rw [withOps, withOps, withOps, Machine.Emitter.withOps_withOps]
        rfl
      · exact appends_pure s
    rw [passArguments, Step.bind_ok (valueOf_ok hy), he.ty]
    refine (Step.bind_ok hpass).trans ?_
    refine (ih (s := withOps s _) (h.congr rfl rfl rfl) hempty (a.argument (.val i.ty)).2).trans ?_
    rw [withOps, withOps, withOps, Machine.Emitter.withOps_withOps]
    rfl

/-! ### Calls -/

/-- What a machine stands for after a call. -/
def View.received (V : View) (k : Nat) (res : Option Const) (mem : Memory) (obs : Observation)
    (need : Nat → Prop) : View :=
  ⟨match res with
    | some c => Function.update V.env k (some c)
    | none => V.env, need, mem, V.trace ++ [obs]⟩

/-- A callee that finds its arguments at their places. -/
theorem passes_arrival
    (h : List.Forall₂ (fun c p => m.Has c p.place) args
      (Assigner.fresh.arguments (args.map fun c => Ty.val c.ty)).1) : m.arrival.Passes args := by
  refine h.imp fun c p hp => ?_
  revert hp
  cases p.place with
  | register r => exact State.holds_iff.mp
  | stack offset => exact fun hp => (Memory.lowBytes_read _ _ c.ty.size_le (by decide)).trans hp
  | nowhere => exact fun _ => trivial

/-- The arguments have these values and there is room for them, and the callee replies with a
    result and with memory. -/
structure Calling (F : Activation) (V : View) (info : Infos) (site : CallSite)
    (args : List Const) (res : Option Const) (mem : Memory) : Prop where
  sound : F.Sound info
  typed : V.Typed info
  reads : V.Reads site.args args
  room : F.Room info (Assigner.fresh.arguments (args.map fun c => Ty.val c.ty)).2.stack
  replies : Replies F.around site.callee args V.mem res mem

theorem forall₂_fetched {hs : List Handle}
    (hinfo : List.Forall₂ (fun x i => info x.index = some i) hs is) (hargs : V.Reads hs args) :
    List.Forall₂ (Fetched info V) is args := by
  induction hinfo generalizing args with
  | nil => cases hargs; exact .nil
  | cons hi _ ih =>
    cases hargs with
    | cons hc hrest => exact .cons ⟨_, hi, hc.2, hc.1.2⟩ (ih hrest)

/-- The code of a call, up to the return of the callee. -/
def callInsts (site : CallSite) (is : List ValueInfo) : List Inst :=
  argumentsInsts .fresh is ++
    [.movImm64 scratch.toGpr site.callee.address.word, .call scratch.toGpr]

variable {site : CallSite} {res : Option Const} {mem : Memory}

/-- The machine after a call. -/
theorem exec_call (hcall : Calling F V info site args res mem) (h : Settled F V info m)
    (hinfo : List.Forall₂ (fun x i => info x.index = some i) site.args is) :
    ∃ m' a, execAll F.around m (callInsts site is) = some m' ∧ a.Passes args ∧
      Settled F ⟨V.env, V.need, mem, V.trace ++ [.call site.callee.address.word a]⟩ info m' ∧
      ∀ c, res = some c → m'.Holds (resultReg (.val c.ty)) c := by
  obtain ⟨m1, hexec, h1, hhas, -⟩ := exec_arguments hcall.sound hcall.typed hcall.room h
    (forall₂_fetched hinfo hcall.reads) .fresh (Nat.le_refl _)
  have hF := hcall.sound
  let callee := site.callee
  let m2 := m1.setGpr scratch.toGpr callee.address.word
  have hsame : State.SameBut [scratch] m1 m2 := .setGpr (by decide) _
  have h2 : Settled F V info m2 := h1.touch hsame (by decide)
  have hpass : m2.arrival.Passes args := by
    refine passes_arrival (hhas.imp fun c p ⟨hp, ht⟩ => hp.of_sameBut hsame ht ⟨by decide, ?_⟩)
    intro r hr
    rw [hr] at ht
    have := ht.register.2
    simp only [List.mem_cons, List.not_mem_nil, or_false, not_or] at this ⊢
    exact this.2.2.1
  have htarget : m2.gpr scratch.toGpr = callee.address.word := State.gpr_setGpr_self ..
  have hvis : F.around.visible m2.mem = F.around.visible V.mem := by
    funext x
    simp only [Surroundings.visible]
    split
    · rfl
    · rename_i hx
      exact h2.visible x (Bool.eq_false_iff.mpr hx)
  obtain ⟨hres, hmem⟩ := hcall.replies m2.arrival hpass
  let r := F.around.reply callee.address.word m2.arrival (F.around.visible V.mem)
  let m3 : State := { m2.resume F.around r with
    trace := m2.trace ++ [.call callee.address.word m2.arrival] }
  refine ⟨m3, m2.arrival, ?_, hpass, ⟨⟨h2.rbp, h2.rsp, ?_, ?_, ?_⟩, ?_⟩, ?_⟩
  · rw [callInsts, Machine.execAll_append, hexec]
    show some (Machine.execCall F.around scratch.toGpr m2) = some m3
    simp only [Machine.execCall, htarget, hvis]
    rfl
  · intro x hx
    refine Eq.trans ?_ (h2.fixed x hx)
    exact if_pos (hF.fixed_hidden x hx)
  · intro x hx
    refine Eq.trans ?_ (hmem x hx)
    exact if_neg (by rw [hx]; decide)
  · show m2.trace ++ _ = _
    rw [h2.trace]
  · intro v i c hi hc hneed
    refine Activation.atHome_congr c.ty.size_le (fun offset ho x hx => ?_)
      (h2.homes v i c hi hc hneed) (by decide)
    exact if_pos (hF.hidden v i offset x hi ho hx)
  · intro c hc
    rw [State.holds_iff]
    have := hres c hc
    revert this
    cases c <;> exact fun h => h

/-- What the code of the call at position `k` does. -/
def Calls (info : Infos) (left : Nat → Nat) (lo k : Nat) (site : CallSite)
    (s s' : CodeState) : Prop :=
  ∀ F V args res mem need, Calling F V info site args res mem → NeedStep V.need need left lo k →
    (∀ c, res = some c → ∃ i, info k = some i ∧ i.ty = c.ty) →
    (res = none → info k = none ∧ ¬ need k) →
    Runs F.around s.emitter s'.emitter (Represents F V s.values) fun m =>
      ∃ a, a.Passes args ∧ Represents F
        (View.received V k res mem (.call site.callee.address.word a) need) s'.values m

/-- The instruction at position `k` is done, and registers hold its result at most. -/
structure Returned (info : Infos) (left : Nat → Nat) (lo k : Nat)
    (s s' : CodeState) : Prop extends Done info left lo k s s' where
  alone : ∀ r v, r.IsMachine → s'.regs.owner? r = some v → v = k

/-- The code up to the state `s1` makes the call, and then only its uses are counted. No value is
    in a register. -/
structure Invoked (info : Infos) (left : Nat → Nat) (lo k : Nat) (site : CallSite)
    (s s1 s' : CodeState) : Prop where
  before : Coherent info left lo k none s1
  coherent : Coherent info (usesAfter left site.args) lo k none s'
  extended : Extended s s1
  counted : Counted (usesAfter left site.args) s1 s'
  unplaced : ∀ v x, s1.values.get? v = some x → x.reg = none
  empty : ∀ r, r.IsMachine → s'.regs.owner? r = none
  returns : ∀ F V args res mem, Calling F V info site args res mem →
    Runs F.around s.emitter s'.emitter (Represents F V s.values) fun m => ∃ a, a.Passes args ∧
      Represents F ⟨V.env, V.need, mem, V.trace ++ [.call site.callee.address.word a]⟩ s1.values m ∧
        ∀ c, res = some c → m.Holds (resultReg (.val c.ty)) c

variable {ts : List ValTy} {s1 s' : CodeState} {t : ValTy}

theorem Site.infos {ops : List Handle} (h : Site info left lo k ops ts) :
    ∃ is, List.Forall₂ (fun x i => info x.index = some i) ops is := by
  obtain ⟨hops, -, -⟩ := h
  induction hops with
  | nil => exact ⟨[], .nil⟩
  | cons hx _ ih =>
    obtain ⟨i, hi, -⟩ := hx
    obtain ⟨is, his⟩ := ih
    exact ⟨i :: is, .cons hi his⟩

theorem resultReg_suits (t : ValTy) : Suits t (resultReg (.val t)) := by
  cases t with
  | int w => exact ⟨(allocatable_iff _).mpr (.inl (show Reg.rax.IsGeneral ∧ Reg.rax ∉ _ by decide)), rfl⟩
  | float size => exact ⟨(allocatable_iff _).mpr (.inr (show Reg.xmm0.IsXmm ∧ Reg.xmm0 ≠ _ by decide)), rfl⟩

/-- Up to the return of the callee. -/
theorem invoked_yields {f : Gen Unit} {Q : Unit → CodeState → Prop}
    (hs : Coherent info left lo k none s) (hpin : s.pinned = [])
    (hsite : Site info left lo k site.args ts)
    (hf : ∀ s1 s', Invoked info left lo k site s s1 s' → f.Yields s' Q) :
    (do syncAll
        clearAll
        report (.conventionPicked site.callee.abi)
        passArguments .fresh site.args
        emit (Machine.Emitter.movImm64 scratch site.callee.address.word)
        emit (Machine.Emitter.call scratch)
        finishUses site.args
        count Stats.addCall
        report (.callLowered site.callee.name)
        f).Yields s Q := by
  obtain ⟨is, his⟩ := hsite.infos
  refine (syncAll_yields hs).andThen fun _ s1 h1 => ?_
  refine (clearAll_yields h1.coherent (h1.pinned.trans hpin)).andThen fun _ s2 h2 => ?_
  refine (report_yields _).andThen fun _ s3 h3 => ?_
  have hvals : ∀ v x, s3.values.get? v = some x → x.reg = none := fun v x hx =>
    (h2.values v x (h3.values ▸ hx)).1
  have hcoh3 := h3.coherent h2.coherent
  refine .bind ⟨(), _, passArguments_ok hcoh3 hvals his .fresh, ?_⟩
  have happ : Appends (emit (Machine.Emitter.movImm64 scratch site.callee.address.word))
      [.movImm64 scratch.toGpr site.callee.address.word] :=
    appends_emit (Machine.emits_g (by decide))
  have happ' : Appends (emit (Machine.Emitter.call scratch))
      [.call scratch.toGpr] := appends_emit (Machine.emits_g (by decide))
  refine .bind (happ.yields (.bind (happ'.yields ?_)))
  have hcode : withOps (withOps (withOps s3 (argumentsInsts .fresh is))
      [.movImm64 scratch.toGpr site.callee.address.word])
      [.call scratch.toGpr] = withOps s3 (callInsts site is) := by
    simp only [withOps, Machine.Emitter.withOps_withOps, callInsts, List.append_assoc]
    rfl
  rw [hcode]
  have hcoh4 : Coherent info left lo k none (withOps s3 (callInsts site is)) :=
    hcoh3.congr rfl rfl rfl
  refine (hsite.finishUses_yields hcoh4).andThen fun _ s5 hfinish => ?_
  obtain ⟨hcoh5, h5⟩ := hfinish
  refine (count_yields _).andThen fun _ s6 h6 => (report_yields _).andThen fun _ s7 h7 => ?_
  have hcount := (h5.quiet h6).quiet h7
  have hcoh7 := h7.coherent (h6.coherent hcoh5)
  refine hf _ s7 ⟨hcoh4, hcoh7, h1.extended.trans (h2.extended.trans (h3.extended.trans
    (.withOps s3 _))), hcount, hvals, fun r hr => hcount.free hcoh4 hcoh7 hr
      ((congrArg (·.owner? r) h3.regs).trans (h2.empty r)), fun F V args res mem hcall => ?_⟩
  rw [hcount.emitter]
  have hsync : Runs F.around s.emitter s3.emitter (Represents F V s.values) (Settled F V info) := by
    rw [h3.emitter, h2.emitter]
    exact h1.settles hcall.sound hcall.typed
  refine hsync.trans (.ops fun m hm => ?_) (Machine.Emitter.extends_withOps _ _)
  obtain ⟨m', a, hexec, hpass, hset, hholds⟩ := exec_call hcall hm his
  exact ⟨m', hexec, a, hpass, hset.represents (fun _ _ _ h => h) fun v x hx =>
    ⟨hvals v x hx, hcoh3.homes v x hx⟩, hholds⟩

namespace Invoked

variable (h : Invoked info left lo k site s s1 s')

include h

/-- A call without a result is done when the callee has returned. -/
theorem void (hvoid : info k = none) : Returned info (usesAfter left site.args) lo k s s' ∧
    Calls info (usesAfter left site.args) lo k site s s' := by
  refine ⟨⟨⟨h.coherent.later (Nat.le_succ k), h.counted.pinned,
    (h.extended.trans h.counted.extended).grown⟩, fun r v hr howner => ?_⟩, ?_⟩
  · rw [h.empty r hr] at howner
    cases howner
  · intro F V args res mem need hcall hneed hty hnone
    have hres : res = none := by
      cases hr : res with
      | none => rfl
      | some c =>
        obtain ⟨i, hi, -⟩ := hty c hr
        rw [hvoid] at hi
        cases hi
    refine (h.returns F V args res mem hcall).mono (fun _ hm => hm) ?_
    rintro m ⟨a, hpass, hm, -⟩
    refine ⟨a, hpass, ?_⟩
    rw [hres]
    exact h.counted.represents (V := ⟨V.env, V.need, mem, _⟩) h.before hneed (hnone hres).2 hm

/-- A result is where the callee returned it. -/
theorem define_yields (hres : Result info k t) (hlo : lo ≤ k) :
    (do registers (RegFile.assign (resultReg (.val t)) k)
        define k (resultReg (.val t))).Yields s' fun _ s'' =>
      Returned info (usesAfter left site.args) lo k s s'' ∧
        Calls info (usesAfter left site.args) lo k site s s'' := by
  obtain ⟨i, hi, rfl, -⟩ := id hres
  obtain ⟨y, hy, -⟩ := h.coherent.entry hi
  have hsuits := resultReg_suits i.ty
  refine (assign_yields h.coherent hi hy (h.coherent.reg_eq_none hy (Nat.le_refl k)) hsuits
    (h.empty _ hsuits.isMachine)).andThen fun _ s2 ⟨hcoh2, g, hg⟩ => ?_
  subst hg
  have hcount := h.counted.registers g
  refine (hres.define_yields hlo hcoh2 hcount.pinned).mono fun _ s3 ⟨hcoh3, h3⟩ => ?_
  refine ⟨⟨⟨hcoh3, h3.pinned.trans hcount.pinned, ?_⟩, fun r v hr howner => ?_⟩, ?_⟩
  · exact (h.extended.trans (hcount.extended.trans h3.extended)).grown
  · -- the register of the result is the only one with an owner
    obtain ⟨x, hx, hxr⟩ := hcoh3.reg_of_owner hr howner
    by_contra hv
    rw [h3.others v hv] at hx
    obtain ⟨z, hz, -, ⟨hzr, -⟩ | ⟨-, hzr, -⟩⟩ := hcount.values v x hx
    · rw [hzr, h.unplaced v z hz] at hxr
      cases hxr
    · rw [hzr] at hxr
      cases hxr
  · intro F V args res mem need hcall hneed hty hnone
    cases res with
    | none =>
      rw [(hnone rfl).1] at hi
      cases hi
    | some c =>
      obtain ⟨j, hj, hjt⟩ := hty c rfl
      rw [hi] at hj
      cases hj
      rw [h3.emitter]
      refine (h.returns F V args _ mem hcall).mono (fun _ hm => hm) ?_
      rintro m ⟨a, hpass, hm, hholds⟩
      exact ⟨a, hpass, h3.represents (V := ⟨V.env, V.need, mem, _⟩) h.before hcount hneed hlo
        (hjt ▸ hholds c rfl) hm⟩

end Invoked

theorem call_yields {result : Ty} (hs : Coherent info left lo k none s) (hpin : s.pinned = [])
    (hsite : Site info left lo k site.args ts) (hvoid : result = .void → info k = none)
    (hres : ∀ t, result = .val t → Result info k t) :
    (call k result site).Yields s fun _ s' =>
      Returned info (usesAfter left site.args) lo k s s' ∧
        Calls info (usesAfter left site.args) lo k site s s' := by
  refine invoked_yields hs hpin hsite fun s1 s' h => ?_
  cases result with
  | void => exact Step.yields_pure (h.void (hvoid rfl))
  | val t =>
    rw [if_pos (by simp)]
    exact h.define_yields (hres t rfl) hsite.lo

end Gen

end JitBackend
