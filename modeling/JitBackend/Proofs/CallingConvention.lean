import JitBackend.Proofs.Failures
import JitBackend.Proofs.Parameters
import JitBackend.Proofs.Stack
import JitBackend.Proofs.Tidy

namespace JitBackend

/-!
# Generated code keeps to the calling convention

Whatever a function does, its code keeps the stack pointer and the frame pointer where the code
that sets up the frame put them, and the places in the frame do not get in each other's way. So
calls are made with an aligned stack, and the registers that a function has to preserve come back,
unless the function itself, or one that it calls, overwrites them where they are saved.

* `Machine.Enclosed` — a body between the code that sets up a frame and the code that takes it
  down; `Machine.Phase` — where a run of it is;
* `Buffer.HomeSlot`, `Buffer.Area` — places in the frame, and that they are apart;
* `calling_convention` — the convention is kept.
-/

namespace Machine

/-! ### Runs through a body -/

/-- A program that sets up a frame, runs a body, and takes the frame down again. -/
structure Enclosed (slot : Int → Prop) (room : Nat) (p : Program) (enter leave : List Inst)
    (stop : Nat) : Prop where
  start_pos : 0 < enter.length
  start_le : enter.length ≤ stop
  entering : ∀ (n : Nat) i, enter[n]? = some i → p.items[n]? = some (.op i)
  body : ∀ n i, enter.length ≤ n → n < stop → p.items[n]? = some (.op i) → i.Disciplined slot room
  leaving : ∀ (n : Nat) i, (leave ++ [.ret])[n]? = some i → p.items[stop + n]? = some (.op i)
  labels : ∀ l n, p.target l = some n → enter.length ≤ n ∧ n ≤ stop

/-- Where a run is: in the code that sets up the frame, in the body, where `Body` holds, or in the
    code that takes the frame down. -/
inductive Phase (c : Surroundings) (enter leave : List Inst) (stop : Nat) (Body : State → Prop)
    (m0 : State) : Nat → State → Prop
  | entering {n : Nat} {m : State} (hn : n < enter.length)
      (h : execAll c m0 (enter.take n) = some m) : Phase c enter leave stop Body m0 n m
  | inside {n : Nat} {m : State} (hge : enter.length ≤ n) (hlt : n < stop) (h : Body m) :
      Phase c enter leave stop Body m0 n m
  | leaving {k : Nat} {m1 m : State} (hk : k ≤ leave.length) (h1 : Body m1)
      (h : execAll c m1 (leave.take k) = some m) : Phase c enter leave stop Body m0 (stop + k) m

section Run

variable {c : Surroundings} {slot : Int → Prop} {room : Nat} {p : Program} {enter leave : List Inst}
  {stop pc pc' : Nat} {Body : State → Prop} {m0 m m' : State} {i : Inst}

theorem Phase.of_body (h : Body m) (hge : enter.length ≤ pc) (hle : pc ≤ stop) :
    Phase c enter leave stop Body m0 pc m := by
  rcases Nat.lt_or_eq_of_le hle with hlt | rfl
  · exact .inside hge hlt h
  · exact .leaving (Nat.zero_le _) h rfl

/-- An instruction that control goes past. -/
theorem step_op_eq_go (hitem : p.items[pc]? = some (.op i)) (h : step c p pc m = .go pc' m') :
    pc' = pc + 1 ∧ exec c m i = some m' := by
  cases i with
  | ret => simp only [step, hitem] at h; cases h
  | _ =>
    simp only [step, hitem] at h
    split at h
    · cases h
      rename_i hexec
      exact ⟨rfl, hexec⟩
    · cases h

/-- A return. -/
theorem step_eq_returned {a : BitVec 64} (h : step c p pc m = .returned a m') :
    p.items[pc]? = some (.op .ret) ∧ m' = m.setGpr .rsp (m.gpr .rsp + 8) := by
  unfold step at h
  split at h
  · cases h
  · unfold Program.goto at h
    split at h <;> cases h
  · split at h
    · cases h
    · split at h
      · unfold Program.goto at h
        split at h <;> cases h
      · cases h
  · rename_i hitem
    cases h
    exact ⟨hitem, rfl⟩
  · split at h <;> cases h

/-- Jumps change nothing but the place. -/
theorem step_jump_eq_go {cond : Option Cond} {l : Nat} (hitem : p.items[pc]? = some (.jump cond l))
    (h : step c p pc m = .go pc' m') : m' = m ∧ (pc' = pc + 1 ∨ p.target l = some pc') := by
  have hgoto : p.goto m l = .go pc' m' → m' = m ∧ p.target l = some pc' := by
    intro h
    unfold Program.goto at h
    split at h
    · cases h
      rename_i ht
      exact ⟨rfl, ht⟩
    · cases h
  unfold step at h
  rw [hitem] at h
  cases cond with
  | none => exact ⟨(hgoto h).1, .inr (hgoto h).2⟩
  | some cond =>
    dsimp only at h
    split at h
    · cases h
    · split at h
      · exact ⟨(hgoto h).1, .inr (hgoto h).2⟩
      · cases h
        exact ⟨rfl, .inl rfl⟩

theorem execAll_take_succ {is : List Inst} {n : Nat} (hi : is[n]? = some i)
    (h : execAll c m0 (is.take n) = some m) (hexec : exec c m i = some m') :
    execAll c m0 (is.take (n + 1)) = some m' := by
  rw [List.take_add_one, hi, execAll_append, h]
  show (exec c m i).bind _ = _
  rw [hexec]
  rfl

variable (hp : Enclosed slot room p enter leave stop)

include hp

/-- One step of a run, if the instructions of the body keep `Body`. -/
theorem Phase.step (hopen : ∀ m, execAll c m0 enter = some m → Body m)
    (hbody : ∀ i m', enter.length ≤ pc → pc < stop → p.items[pc]? = some (.op i) → Body m →
      exec c m i = some m' → Body m') (hs : Phase c enter leave stop Body m0 pc m)
    (h : Machine.step c p pc m = .go pc' m') : Phase c enter leave stop Body m0 pc' m' := by
  cases hs with
  | entering hn hrun =>
    have hi : enter[pc]? = some enter[pc] := List.getElem?_eq_getElem hn
    obtain ⟨rfl, hexec⟩ := step_op_eq_go (hp.entering pc _ hi) h
    have hnext := execAll_take_succ hi hrun hexec
    rcases Nat.lt_or_eq_of_le (show pc + 1 ≤ enter.length from hn) with hlt | heq
    · exact .entering hlt hnext
    · rw [heq, List.take_length] at hnext
      exact .of_body (hopen _ hnext) (Nat.le_of_eq heq.symm) (heq ▸ hp.start_le)
  | inside hge hlt hB =>
    cases hitem : p.items[pc]? with
    | none => simp only [Machine.step, hitem] at h; cases h
    | some item =>
      cases item with
      | op i =>
        obtain ⟨rfl, hexec⟩ := step_op_eq_go hitem h
        exact .of_body (hbody i m' hge hlt hitem hB hexec) (by omega) (by omega)
      | jump cond l =>
        obtain ⟨rfl, rfl | ht⟩ := step_jump_eq_go hitem h
        · exact .of_body hB (by omega) (by omega)
        · exact .of_body hB (hp.labels l _ ht).1 (hp.labels l _ ht).2
  | leaving hk hB hrun =>
    rename_i k m1
    rcases Nat.lt_or_eq_of_le hk with hlt | rfl
    · have hi : leave[k]? = some leave[k] := List.getElem?_eq_getElem hlt
      have hitem := hp.leaving k leave[k] (by rw [List.getElem?_append_left hlt]; exact hi)
      obtain ⟨rfl, hexec⟩ := step_op_eq_go hitem h
      exact .leaving (k := k + 1) hlt hB (execAll_take_succ hi hrun hexec)
    · have hitem := hp.leaving leave.length .ret (by simp)
      simp only [Machine.step, hitem] at h
      cases h

/-- A whole run. -/
theorem Enclosed.phase (hopen : ∀ m, execAll c m0 enter = some m → Body m)
    (hbody : ∀ pc m i m', Reaches c p 0 m0 pc m → enter.length ≤ pc → pc < stop →
      p.items[pc]? = some (.op i) → Body m → exec c m i = some m' → Body m')
    (hr : Reaches c p 0 m0 pc m) : Phase c enter leave stop Body m0 pc m := by
  -- every state on the way is reached from the start, so that `hbody` applies to it
  suffices h : ∀ n k, Reaches c p 0 m0 n k → Phase c enter leave stop Body m0 n k →
      Reaches c p n k pc m → Phase c enter leave stop Body m0 pc m from
    h 0 m0 (.refl _ _) (.entering hp.start_pos rfl) hr
  intro n k hpre hs hrest
  induction hrest with
  | refl => exact hs
  | step h _ ih =>
    exact ih hr (hpre.trans (.step h (.refl _ _)))
      (hs.step hp hopen (fun i m' => hbody _ _ i m' hpre) h)

/-- An instruction that does not set up or take down the frame is in the body, unless it is the
    return after the frame was taken down. -/
theorem Phase.of_item (hs : Phase c enter leave stop Body m0 pc m)
    (hitem : p.items[pc]? = some (.op i)) (henter : i ∉ enter) (hleave : i ∉ leave) :
    (enter.length ≤ pc ∧ pc < stop ∧ Body m) ∨
      i = .ret ∧ ∃ m1, Body m1 ∧ execAll c m1 leave = some m := by
  cases hs with
  | entering hn hrun =>
    have hi : enter[pc]? = some enter[pc] := List.getElem?_eq_getElem hn
    rw [hp.entering pc _ hi] at hitem
    exact absurd (Item.op.inj (Option.some.inj hitem) ▸ List.getElem_mem hn) henter
  | inside hge hlt hB => exact .inl ⟨hge, hlt, hB⟩
  | leaving hk hB hrun =>
    rename_i k m1
    rcases Nat.lt_or_eq_of_le hk with hlt | rfl
    · have hi : leave[k]? = some leave[k] := List.getElem?_eq_getElem hlt
      rw [hp.leaving k leave[k] (by rw [List.getElem?_append_left hlt]; exact hi)] at hitem
      exact absurd (Item.op.inj (Option.some.inj hitem) ▸ List.getElem_mem hlt) hleave
    · rw [hp.leaving leave.length .ret (by simp)] at hitem
      rw [List.take_length] at hrun
      exact .inr ⟨(Item.op.inj (Option.some.inj hitem)).symm, m1, hB, hrun⟩

/-- A run that returns has taken the frame down. -/
theorem Phase.returned (hs : Phase c enter leave stop Body m0 pc m) (henter : Inst.ret ∉ enter)
    (hleave : Inst.ret ∉ leave) {a : BitVec 64} (h : Machine.step c p pc m = .returned a m') :
    ∃ m1, Body m1 ∧ execAll c m1 leave = some m ∧ m' = m.setGpr .rsp (m.gpr .rsp + 8) := by
  obtain ⟨hitem, hm'⟩ := step_eq_returned h
  rcases hs.of_item hp hitem henter hleave with ⟨hge, hlt, -⟩ | ⟨-, m1, hB, hrun⟩
  · exact absurd (hp.body pc .ret hge hlt hitem).rsp (by decide)
  · exact ⟨m1, hB, hrun, hm'⟩

end Run

end Machine

/-! ### Places in the frame -/

namespace Buffer

/-- Bytes at the bottom of the frame for the arguments of calls. -/
def outgoing (b : Buffer) : Nat :=
  b.outgoingAt b.isNeeded b.size

/-- The value at position `v` has its home in the eight bytes at an offset from the frame base. -/
def HomeSlot (b : Buffer) (v : Nat) (offset : Int) : Prop :=
  b.isNeeded v = true ∧ offset = b.lowestAt b.isNeeded (v + 1) ∧
    ∃ i, b.instrs[v]? = some i ∧ i.hasSlot = true

/-- The eight bytes at an offset from the frame base are the home of a value other than a
    parameter. -/
def WrittenSlot (b : Buffer) (offset : Int) : Prop :=
  ∃ v, b.HomeSlot v offset ∧ ∀ p, b.payloadAt v ≠ some (.param p)

/-- The instruction at position `v` has a stack area of `n` bytes at an offset from the frame
    base. -/
def Area (b : Buffer) (v : Nat) (offset : Int) (n : Nat) : Prop :=
  b.isNeeded v = true ∧ offset = b.lowestAt b.isNeeded (v + 1) ∧
    ∃ i size, b.instrs[v]? = some i ∧ i.payload = .alloc size ∧ n = roundUp (max size.toNat 1) 8

/-- The address is in the frame: from the stack pointer up to the frame pointer of the caller,
    which is saved at the frame base. -/
def InFrame (b : Buffer) (base x : BitVec 64) : Prop :=
  -(b.frameNeed : Int) ≤ Memory.distance base x ∧ Memory.distance base x < 8

/-- The address is in a stack area. -/
def InArea (b : Buffer) (base x : BitVec 64) : Prop :=
  ∃ v offset n, b.Area v offset n ∧ offset ≤ Memory.distance base x ∧
    Memory.distance base x < offset + n

variable {b : Buffer} {v u : Nat} {p q : Int} {i : Instr} {n : Nat}

/-- The places of values in a frame that is not too large: from the preserved registers down,
    above the arguments of calls. -/
theorem place_eq (hneed : b.frameNeed < 2 ^ 31) (hv : b.isNeeded v = true)
    (hi : b.instrs[v]? = some i) :
    b.lowestAt b.isNeeded (v + 1) + i.frameBytes = -40 - b.usedAt b.isNeeded v ∧
      b.usedAt b.isNeeded (v + 1) = b.usedAt b.isNeeded v + i.frameBytes ∧
      -(b.frameNeed : Int) + b.outgoing ≤ b.lowestAt b.isNeeded (v + 1) := by
  have hlt := Buffer.lt_size hi
  have hmono := b.usedAt_mono b.isNeeded (show v + 1 ≤ b.size from hlt)
  have hneed' := frameNeed_eq fun n => show b.isNeeded n = b.isNeeded n from rfl
  have hround := le_roundUp (8 * Convention.calleeSaved.length + b.usedAt b.isNeeded b.size
    + b.outgoingAt b.isNeeded b.size) (show 0 < 16 by decide)
  have hsaved : Convention.calleeSaved.length = 5 := rfl
  have hused : b.usedAt b.isNeeded (v + 1) = b.usedAt b.isNeeded v + i.frameBytes := by
    rw [usedAt, hi]
    simp only [hv, if_true]
  have hlow : b.lowestAt b.isNeeded (v + 1) = _ := lowestAt_eq (by omega)
  unfold outgoing
  omega

/-- The instruction at position `v` has at least `n` bytes at an offset from the frame base. -/
def Place (b : Buffer) (v : Nat) (offset : Int) (n : Nat) : Prop :=
  b.isNeeded v = true ∧ offset = b.lowestAt b.isNeeded (v + 1) ∧
    ∃ i, b.instrs[v]? = some i ∧ n ≤ i.frameBytes

theorem HomeSlot.place (h : b.HomeSlot v p) : b.Place v p 8 := by
  obtain ⟨hv, hp, i, hi, hslot⟩ := h
  refine ⟨hv, hp, i, hi, ?_⟩
  rw [Instr.frameBytes, if_pos hslot]
  omega

theorem Area.place (h : b.Area v p n) : b.Place v p n := by
  obtain ⟨hv, hp, i, size, hi, hpay, rfl⟩ := h
  refine ⟨hv, hp, i, hi, ?_⟩
  rw [Instr.frameBytes, Instr.areaBytes, hpay]
  exact Nat.le_add_left _ _

/-- Places are below the preserved registers and above the arguments of calls. -/
theorem Place.bounds (hneed : b.frameNeed < 2 ^ 31) (h : b.Place v p n) :
    -(b.frameNeed : Int) + b.outgoing ≤ p ∧ p + n ≤ -40 := by
  obtain ⟨hv, rfl, i, hi, hn⟩ := h
  obtain ⟨htop, -, hbottom⟩ := place_eq hneed hv hi
  omega

/-- Places of different instructions do not overlap. -/
theorem Place.apart (hneed : b.frameNeed < 2 ^ 31) {k : Nat} (h : b.Place v p n)
    (h' : b.Place u q k) (hne : v ≠ u) : p + n ≤ q ∨ q + k ≤ p := by
  obtain ⟨hv, rfl, i, hi, hn⟩ := h
  obtain ⟨hu, rfl, j, hj, hk⟩ := h'
  obtain ⟨htop, hused, -⟩ := place_eq hneed hv hi
  obtain ⟨htop', hused', -⟩ := place_eq hneed hu hj
  rcases Nat.lt_or_gt_of_ne hne with hlt | hlt
  · have hmono := b.usedAt_mono b.isNeeded (show v + 1 ≤ u from hlt)
    omega
  · have hmono := b.usedAt_mono b.isNeeded (show u + 1 ≤ v from hlt)
    omega

/-- A home that is written in the body is that of a value which is computed. -/
theorem slot_of_writable {j : ValueInfo} (hj : b.infoAt b.isNeeded v = some j)
    (hwrite : j.writable = true) (hslot : j.home = .slot p) :
    b.HomeSlot v p ∧ ∀ k, b.payloadAt v ≠ some (.param k) := by
  obtain ⟨i, hi, hres, hv, hat⟩ := infoAt_eq_some hj
  have hcomp : i.isComputed = true := by
    simp only [infoAt, hi, hres] at hj
    split at hj
    · rw [← Option.some.inj hj] at hwrite
      exact (Bool.and_eq_true_iff.mp hwrite).1
    · cases hj
  rw [hat, Instr.slot_of_isComputed hcomp] at hslot
  unfold Instr.isComputed at hcomp
  refine ⟨⟨hv, (Home.slot.inj hslot).symm, i, hi, ?_⟩, fun k hk => ?_⟩
  · unfold Instr.hasSlot
    rw [hres]
    cases hp : i.payload <;> simp_all
  · rw [payloadAt, hi, Option.map_some] at hk
    rw [Option.some.inj hk] at hcomp
    cases hcomp

/-- A parameter that comes in a register has its home in the frame. -/
theorem homeSlot_of_param (hb : b.Validated) {k : BitVec 8} (hv : b.payloadAt v = some (.param k))
    (hk : k.toNat < Convention.intArgs.length) : b.HomeSlot v (b.paramHome v k) := by
  obtain ⟨i, hi, hpay⟩ := payloadAt_eq_some hv
  refine ⟨isNeeded_of_param hb hv, if_neg (Nat.not_le_of_lt hk), i, hi, ?_⟩
  simp [Instr.hasSlot, result_of_param (hb.fits hi) hpay, hpay, hk]

/-- A call takes its arguments from the room at the bottom of the frame. -/
theorem argBytes_le_outgoing (hv : b.isNeeded v = true) (hi : b.instrs[v]? = some i) :
    b.argBytes i ≤ b.outgoing := by
  have hmono : ∀ k n, k ≤ n → b.outgoingAt b.isNeeded k ≤ b.outgoingAt b.isNeeded n := by
    intro k n h
    induction h with
    | refl => exact Nat.le_refl _
    | step _ ih => exact Nat.le_trans ih (Nat.le_max_left _ _)
  refine Nat.le_trans ?_ (hmono (v + 1) b.size (Buffer.lt_size hi))
  rw [outgoingAt, hi]
  simp only [hv, if_true]
  exact Nat.le_max_right _ _

end Buffer

/-! ### The code of a function -/

namespace Machine

theorem Inst.Disciplined.mono {slot slot' : Int → Prop} {room : Nat} {i : Inst}
    (h : i.Disciplined slot room) (hslot : ∀ offset, slot offset → slot' offset) :
    i.Disciplined slot' room := by
  refine ⟨h.rsp, h.rbp, fun a n hs hb => ?_, h.argument⟩
  obtain ⟨hn, offset, hd, ho⟩ := h.home a n hs hb
  exact ⟨hn, offset, hd, hslot offset ho⟩

section Enclosing

variable {slot slot' : Int → Prop} {room : Nat} {p : Program} {enter leave : List Inst} {stop : Nat}

theorem Enclosed.mono (h : Enclosed slot room p enter leave stop)
    (hslot : ∀ offset, slot offset → slot' offset) : Enclosed slot' room p enter leave stop :=
  { h with body := fun n i hge hlt hi => (h.body n i hge hlt hi).mono hslot }

/-- The last instructions before the body can be taken as its first ones. -/
theorem Enclosed.shorten {more : List Inst} (h : Enclosed slot room p (enter ++ more) leave stop)
    (hpos : 0 < enter.length) (hmore : ∀ i ∈ more, i.Disciplined slot room) :
    Enclosed slot room p enter leave stop := by
  have hle : enter.length ≤ (enter ++ more).length := by simp
  constructor
  case start_pos => exact hpos
  case start_le => exact Nat.le_trans hle h.start_le
  case entering =>
    intro n i hi
    apply h.entering
    rw [List.getElem?_append_left (List.getElem?_eq_some_iff.mp hi).1, hi]
  case body =>
    intro n i hge hlt hi
    rcases Nat.lt_or_ge n (enter ++ more).length with hn | hn
    · have hat := h.entering n _ (List.getElem?_eq_getElem hn)
      rw [hi, List.getElem_append_right hge] at hat
      cases hat
      exact hmore _ (List.getElem_mem _)
    · exact h.body n i hn hlt hi
  case leaving => exact h.leaving
  case labels => exact fun l n hn => ⟨Nat.le_trans hle (h.labels l n hn).1, (h.labels l n hn).2⟩

end Enclosing

theorem Emitter.items_withOps_right (e : Emitter) (is : List Inst) (n : Nat) :
    (e.withOps is).items[e.count + n]? = is[n]?.map Item.op := by
  show (e.items ++ (is.map Item.op).toArray)[e.items.size + n]? = _
  rw [Array.getElem?_append_right (Nat.le_add_right _ _), Nat.add_sub_cancel_left]
  simp

/-- Code that was emitted between the code that sets up a frame and the code that takes it down. -/
theorem Emitter.Clean.enclosed {slot : Int → Prop} {room : Nat} {s e : Emitter}
    {enter leave : List Inst} (h : e.Clean slot room s.count) (hpos : 0 < enter.length)
    (hitems : s.items = (enter.map Item.op).toArray) (hext : s.Extends e) :
    Enclosed slot room (e.withOps (leave ++ [.ret])).program enter leave e.count := by
  have hcount : s.count = enter.length := by simp [Emitter.count, hitems]
  have hwithin := (e.withOps (leave ++ [.ret])).within_program
  have hwithinE := (Emitter.extends_withOps e (leave ++ [.ret])).within hwithin
  refine ⟨hpos, hcount ▸ hext.count_le, fun n i hi => ?_, fun n i hge hlt hi => ?_,
    fun n i hi => ?_, fun k n hk => ?_⟩
  · have hn := (List.getElem?_eq_some_iff.mp hi).1
    rw [(hext.within hwithinE).items n (hcount ▸ hn), hitems, List.getElem?_toArray,
      List.getElem?_map, hi]
    rfl
  · rw [hwithinE.items n hlt] at hi
    exact h.items n i (hcount ▸ hge) hi
  · have hn := (List.getElem?_eq_some_iff.mp hi).1
    rw [hwithin.items _ (by rw [Emitter.count_withOps]; omega), Emitter.items_withOps_right, hi]
    rfl
  · have hk : (e.withOps (leave ++ [.ret])).labels[k]?.join = some n := hk
    rw [Emitter.labels_withOps] at hk
    rw [← hcount]
    exact h.labels k n (Option.join_eq_some_iff.mp hk)

end Machine

namespace Gen

open Machine

variable {b : Buffer} {l : Liveness} {limit : Nat} {s s' : CodeState} {e : Emitter}

/-- Slots that the body writes to are homes, but not those of parameters. -/
theorem writtenSlot_of_isSlot (hlive : ∀ n, l.isLive n = b.isNeeded n) {offset : Int}
    (h : IsSlot (b.infoAt l.isLive) offset) : b.WrittenSlot offset := by
  obtain ⟨v, i, hi, hwrite, hhome⟩ := h
  rw [funext hlive] at hi
  exact ⟨v, Buffer.slot_of_writable hi hwrite hhome⟩

/-- The code before the body. -/
theorem Opened.items (h : Opened b l limit s) :
    s.emitter.items = ((entryInsts b s).map Item.op).toArray := by
  obtain ⟨s1, R, log, hP, -, -, -, -, rfl⟩ := h.laid
  show s1.emitter.items ++ _ = _
  rw [hP.emitter, Emitter.items_labelled]
  exact Array.empty_append

/-- What is written before the body. -/
theorem Opened.mem_stores_iff (hb : b.Validated) (h : Opened b l limit s) {i : Inst} :
    i ∈ b.paramList.flatMap (paramInsts b s.values) ↔ ∃ v p r, b.Reached v p ∧
      Convention.intArgs[p.toNat]? = some r ∧
      i = storeInst .int64 ⟨Reg.rbp.toGpr, displacement (b.paramHome v p)⟩ r := by
  have hlive := h.live_eq
  obtain ⟨s1, R, log, hP, -, -, -, -, rfl⟩ := h.laid
  exact mem_paramInsts_iff hb hlive hP

/-- The code of the body, from the state before it on. -/
theorem Opened.tidy (h : Opened b l limit s) :
    Tidy (b.infoAt l.isLive) b.outgoing s.emitter.count s := by
  obtain ⟨s1, R, log, hP, -, -, -, -, rfl⟩ := h.laid
  refine ⟨⟨Nat.le_refl _, fun n i hn hi => ?_, fun k n hk => ?_⟩, ?_, fun v x hx => ?_⟩
  · rw [Array.getElem?_eq_none hn] at hi
    cases hi
  · have hlabels : s1.emitter.labels = .replicate (b.labelNumber b.size) none := by
      rw [hP.emitter, Emitter.labels_labelled]
    have hk : s1.emitter.labels[k]? = some (some n) := hk
    rw [hlabels, Array.getElem?_replicate] at hk
    split at hk <;> cases hk
  · show s1.regs.allocatable = _
    rw [hP.regs]
    rfl
  · have hx : s1.values.get? v = some x := hx
    rw [hP.values] at hx
    split at hx
    · obtain ⟨i, hi, rfl⟩ := Option.map_eq_some_iff.mp hx
      exact ⟨i, hi, rfl, rfl, nofun, nofun⟩
    · cases hx

/-- The code of a function: what is done before the body, the body, and the code that takes the
    frame down. -/
theorem Opened.enclosed (hb : b.Validated) (h : Opened b l limit s)
    (hbody : body b l s = .ok () s') (hext : s.emitter.Extends e)
    (hbound : Emitter.Bound epilogueLabel s'.emitter e) :
    Enclosed b.WrittenSlot b.outgoing (e.withOps epilogueInsts).program (entryInsts b s) leaveInsts
      e.count := by
  have hlive : l.isLive = b.isNeeded := funext h.live_eq
  have htidy := (body_keeps hb (homed_infoAt hb)
    (fun k i hi hk => Buffer.argBytes_le_outgoing (hlive ▸ hk) hi) s () _ h.tidy hbody).1
  rw [epilogueInsts_eq]
  refine ((htidy.code.bound hbound).enclosed ?_ h.items hext).mono
    fun _ => writtenSlot_of_isSlot h.live_eq
  simp [entryInsts, prologueInsts]

/-- The parameters can be counted as part of the body. -/
theorem Generated.enclosed (hb : b.Validated) (hargs : b.ArgsAreValues)
    (h : Generated b limit l s e s') :
    Enclosed (fun offset => ∃ v, b.HomeSlot v offset) b.outgoing s'.emitter.program
      (prologueInsts s.frame.size) leaveInsts e.count := by
  have hO := h.opened
  have hh := homed_infoAt (l := l) hb
  have hbody := (bodyUpTo_ok hb hargs hO.analysis hh hO.emitted hO.targets (Nat.le_refl _)).1
  have hstart : stateAt b l s 0 = s := stateAt_of_ok (u := ()) rfl
  have hext := (stateAt_follows hb hargs hO.analysis hh hO.emitted hO.targets
    (Nat.zero_le b.size) (Nat.le_refl _)).code
  rw [hstart] at hext
  rw [h.code]
  have hwhole := hO.enclosed hb hbody (hext.trans (h.bound.grows h.body.epilogue)) h.bound
  refine (hwhole.mono fun _ ⟨v, hv, _⟩ => ⟨v, hv⟩).shorten (by simp [prologueInsts]) fun i hi => ?_
  obtain ⟨v, p, r, hp, hr, rfl⟩ := (hO.mem_stores_iff hb).mp hi
  exact .of_home (storeInst_writes _ _ _) (storeInst_stored? _ _ _) (by decide)
    ⟨v, Buffer.homeSlot_of_param hb hp.param (List.getElem?_eq_some_iff.mp hr).1⟩

/-! ### What the body keeps -/

variable {c : Surroundings} {m m' : State} {i : Inst} {base x : BitVec 64}

/-- The frame pointer and the stack pointer are where the frame is. -/
structure Based (b : Buffer) (base : BitVec 64) (m : State) : Prop where
  rbp : m.gpr Reg.rbp.toGpr = base
  rsp : m.gpr .rsp = base + .ofInt 64 (-(b.frameNeed : Nat))

theorem Based.kept {slot : Int → Prop} {room : Nat} (h : Based b base m)
    (hi : i.Disciplined slot room) (hexec : exec c m i = some m') : Based b base m' :=
  ⟨(exec_gpr hexec hi.rbp).trans h.rbp, (exec_gpr hexec hi.rsp).trans h.rsp⟩

/-- Callees and the function's own stores keep to the stack areas, as far as the frame is
    concerned. -/
structure KeepsToAreas (b : Buffer) (c : Surroundings) (p : Program) (m : State) : Prop where
  callees : ∀ x, b.InFrame (frameBase m) x → ¬ b.InArea (frameBase m) x → c.hidden x = true
  stores : ∀ pc m' i a n, Reaches c p 0 m pc m' → p.items[pc]? = some (.op i) →
    i.stored? = some (a, n) → a.base.Free → ∀ x, Memory.InRange (m'.address a) n x →
    b.InFrame (frameBase m) x → b.InArea (frameBase m) x

/-- The address is where a register is saved. -/
def InSaved (base x : BitVec 64) : Prop :=
  Memory.InRange (base + .ofInt 64 (-40)) 48 x

theorem inSaved_iff (base x : BitVec 64) : InSaved base x ↔
    -40 ≤ Memory.distance base x ∧ Memory.distance base x < 8 := by
  rw [InSaved, Memory.inRange_iff _ _ (by omega) (by omega)]
  omega

theorem InSaved.inFrame (hneed : 40 ≤ b.frameNeed) (h : InSaved base x) : b.InFrame base x := by
  have := (inSaved_iff base x).mp h
  unfold Buffer.InFrame
  omega

theorem InSaved.not_inArea (hneed : b.frameNeed < 2 ^ 31) (h : InSaved base x) :
    ¬ b.InArea base x := by
  rintro ⟨v, p, n, harea, hge, hlt⟩
  have := (inSaved_iff base x).mp h
  have := (harea.place.bounds hneed).2
  omega

theorem outgoing_le_frameNeed (b : Buffer) : 40 + b.outgoing ≤ b.frameNeed := by
  have hround := le_roundUp (8 * Convention.calleeSaved.length + b.usedAt b.isNeeded b.size
    + b.outgoingAt b.isNeeded b.size) (show 0 < 16 by decide)
  rw [Buffer.frameNeed_eq fun _ => rfl]
  refine Nat.le_trans ?_ hround
  show 40 + b.outgoingAt _ _ ≤ 40 + _ + _
  omega

/-- An instruction of the body writes to the slots, to the room for arguments, and where its own
    stores go. -/
theorem Based.mem_eq (hneed : b.frameNeed < 2 ^ 31) {slot : Int → Prop} (h : Based b base m)
    (hi : i.Disciplined slot b.outgoing) (hexec : exec c m i = some m')
    (hslot : ∀ offset, slot offset → (∃ v, b.HomeSlot v offset) ∧
      ¬(offset ≤ Memory.distance base x ∧ Memory.distance base x < offset + 8))
    (hroom : -(b.frameNeed : Int) + b.outgoing ≤ Memory.distance base x) (hhid : c.hidden x = true)
    (hown : ∀ a n, i.stored? = some (a, n) → a.base.Free → ¬ Memory.InRange (m.address a) n x) :
    m'.mem x = m.mem x := by
  refine exec_mem hexec hi.rsp hhid fun a n hs hin => ?_
  by_cases hbp : a.base = Reg.rbp.toGpr
  · obtain ⟨hn, offset, hd, hoff⟩ := hi.home a n hs hbp
    obtain ⟨⟨v, hv⟩, hapart⟩ := hslot offset hoff
    have hbounds := hv.place.bounds hneed
    rw [State.address, hbp, h.rbp, hd, signExtend_displacement (by omega),
      Memory.inRange_iff _ _ (by omega) (by omega)] at hin
    omega
  · by_cases hsp : a.base = Reg.rsp.toGpr
    · obtain ⟨hn, offset, hd, hle⟩ := hi.argument a n hs hsp
      have hfloor := outgoing_le_frameNeed b
      have hrsp : m.gpr Reg.rsp.toGpr = base + .ofInt 64 (-(b.frameNeed : Nat)) := h.rsp
      rw [State.address, hsp, hrsp, hd, signExtend_displacement (by omega), add_ofInt,
        Memory.inRange_iff _ _ (by omega) (by omega)] at hin
      omega
    · exact hown a n hs ⟨hsp, hbp⟩ hin

theorem Opened.entered (h : Opened b l limit s) (hneed : b.frameNeed < 2 ^ 31) (c : Surroundings)
    (m : State) : ∃ m1, execAll c m (prologueInsts s.frame.size) = some m1 ∧
      Entered c s.frame.size m m1 ∧ Based b (frameBase m) m1 := by
  have hsize := (h.size hneed).2
  have hfloor := outgoing_le_frameNeed b
  obtain ⟨m1, hexec, hm1⟩ := Gen.entered (show s.frame.size < 2 ^ 31 by omega) c m
  refine ⟨m1, hexec, hm1, hm1.rbp, ?_⟩
  rw [hm1.rsp, hsize]
  congr 2
  omega

/-! ### Runs of a function -/

section Runs

variable {pc : Nat} (hb : b.Validated) (hargs : b.ArgsAreValues) (hneed : b.frameNeed < 2 ^ 31)
  (h : Generated b limit l s e s')

include hb hargs hneed h

/-- Where a run of a function is. In the body, the registers that hold the frame are as they were
    set up. -/
theorem Generated.phase_based (hr : Reaches c s'.emitter.program 0 m pc m') :
    Phase c (prologueInsts s.frame.size) leaveInsts e.count (Based b (frameBase m)) m pc m' := by
  have hE := h.enclosed hb hargs
  obtain ⟨m1, hexec, -, hbased⟩ := h.opened.entered hneed c m
  refine hE.phase (fun k hk => ?_) (fun n k i k' _ hge hlt hitem hk hstep => ?_) hr
  · rw [hexec] at hk
    cases hk
    exact hbased
  · exact hk.kept (hE.body n i hge hlt hitem) hstep

/-- In the body, what was saved is as it was saved, if callees and stores keep to the stack areas. -/
theorem Generated.phase_saved (hkeeps : KeepsToAreas b c s'.emitter.program m)
    (hr : Reaches c s'.emitter.program 0 m pc m') :
    Phase c (prologueInsts s.frame.size) leaveInsts e.count (fun k => Based b (frameBase m) k ∧
      ∀ m1, execAll c m (prologueInsts s.frame.size) = some m1 →
        ∀ x, InSaved (frameBase m) x → k.mem x = m1.mem x) m pc m' := by
  have hE := h.enclosed hb hargs
  have hfloor := outgoing_le_frameNeed b
  obtain ⟨m1, hexec, -, hbased⟩ := h.opened.entered hneed c m
  refine hE.phase (fun k hk => ?_) (fun n k i k' hpre hge hlt hitem hk hstep => ?_) hr
  · refine ⟨?_, fun m2 hm2 x _ => ?_⟩
    · rw [hexec] at hk
      cases hk
      exact hbased
    · rw [hk] at hm2
      cases hm2
      rfl
  · have hi := hE.body n i hge hlt hitem
    refine ⟨hk.1.kept hi hstep, fun m2 hm2 x hx => ?_⟩
    have hframe := hx.inFrame (b := b) (by omega)
    have harea := hx.not_inArea hneed
    rw [← hk.2 m2 hm2 x hx]
    have hdist := (inSaved_iff _ x).mp hx
    refine hk.1.mem_eq hneed hi hstep (fun offset hoff => ⟨hoff, ?_⟩) (by omega)
      (hkeeps.callees x hframe harea)
      fun a k hs ha hin => harea (hkeeps.stores n _ i a k hpre hitem hs ha x hin hframe)
    -- homes are below what is saved
    obtain ⟨v, hv⟩ := hoff
    have hbounds := hv.place.bounds hneed
    omega

/-- Calls are made with an aligned stack. -/
theorem Generated.aligned (halign : (m.gpr .rsp + 8).toNat % 16 = 0) {r : Gpr}
    (hr : Reaches c s'.emitter.program 0 m pc m')
    (hitem : s'.emitter.program.items[pc]? = some (.op (.call r))) :
    (m'.gpr .rsp).toNat % 16 = 0 := by
  have henter : Inst.call r ∉ prologueInsts s.frame.size := by
    unfold prologueInsts
    simp only [List.mem_append, List.mem_map, not_or]
    refine ⟨⟨by simp, by simp⟩, ?_⟩
    split <;> simp
  have hleave : Inst.call r ∉ leaveInsts := by
    unfold leaveInsts
    simp
  rcases (h.phase_based hb hargs hneed hr).of_item (h.enclosed hb hargs) hitem henter hleave with
    ⟨-, -, hbased⟩ | ⟨hret, -⟩
  · have hmod : b.frameNeed % 16 = 0 := Nat.mul_mod_left _ _
    rw [hbased.rsp, frameBase, add_ofInt]
    have hlt := (m.gpr .rsp).isLt
    have htotal : BitVec.ofInt 64 (-8 + -(b.frameNeed : Int))
        = -BitVec.ofNat 64 (8 + b.frameNeed) := by
      rw [← BitVec.ofInt_natCast, ← BitVec.ofInt_neg]
      congr 1
      omega
    rw [htotal, ← BitVec.sub_eq_add_neg, BitVec.toNat_sub, BitVec.toNat_ofNat]
    rw [BitVec.toNat_add] at halign
    have h8 : (8 : BitVec 64).toNat = 8 := rfl
    omega
  · cases hret

/-- The preserved registers come back. -/
theorem Generated.restored (hkeeps : KeepsToAreas b c s'.emitter.program m)
    (hr : Reaches c s'.emitter.program 0 m pc m') {m'' : State}
    (hret : step c s'.emitter.program pc m' = .returned x m'') :
    m''.gpr .rsp = m.gpr .rsp + 8 ∧ ∀ r ∈ savedRegs, m''.gpr r.toGpr = m.gpr r.toGpr := by
  have henter : Inst.ret ∉ prologueInsts s.frame.size := by
    unfold prologueInsts
    simp only [List.mem_append, List.mem_map, not_or]
    refine ⟨⟨by simp, by simp⟩, ?_⟩
    split <;> simp
  have hleave : Inst.ret ∉ leaveInsts := by
    unfold leaveInsts
    simp
  have hE := h.enclosed hb hargs
  obtain ⟨k, ⟨hbased, hsaved⟩, hrun, rfl⟩ :=
    (h.phase_saved hb hargs hneed hkeeps hr).returned hE henter hleave hret
  obtain ⟨m1, hexec, hentered, -⟩ := h.opened.entered hneed c m
  obtain ⟨m2, hexec2, hleft⟩ := departed hbased.rbp c
  rw [hrun] at hexec2
  cases hexec2
  refine ⟨?_, fun r hmem => ?_⟩
  · rw [State.gpr_setGpr_self, hleft.rsp, frameBase, add_ofInt]
    simp
  · obtain ⟨n, hn⟩ := List.mem_iff_getElem?.mp hmem
    have hne : ∀ r ∈ savedRegs, r.toGpr ≠ .rsp := by decide
    have hn6 : n < 6 := (List.getElem?_eq_some_iff.mp hn).1
    rw [State.gpr_setGpr_of_ne (hne r hmem), hleft.restored n r hn, ← hentered.saved n r hn]
    refine Memory.read_congr fun i hi => hsaved m1 hexec _ ((inSaved_iff _ _).mpr ?_)
    rw [distance_byte _ (by omega) (by omega)]
    omega

end Runs

end Gen

/-- A function that was compiled, with the code whose bytes it is. -/
theorem compile_generated [Machine.BlockEncoder] {b : Buffer} (hb : b.Validated)
    (hargs : b.ArgsAreValues) {limit : Nat} {a a' : Account} {asm : Assembly}
    (h : compile b limit a = .ok asm a') :
    ∃ l s e s' labels, Gen.Generated b limit l s e s' ∧
      Gen.instructions b limit (CodeState.initial b a) = .ok () s' ∧
      s'.emitter.assemble = .ok ⟨asm.code, labels⟩ ∧ asm.frameSize = s.frame.size := by
  obtain ⟨-, -, -, s', t, -, -, -, hinst, hfin, -⟩ := Gen.compile_eq_ok h
  obtain ⟨l, s, e, hgen⟩ := (Gen.instructions_ends hb hargs a).of_ok hinst
  obtain ⟨code, hcode, -, -, rfl⟩ := Gen.finish_eq_ok hgen.exits_bound hfin
  exact ⟨l, s, e, s', code.labels, hgen, hinst, hcode, by rw [hgen.frame]⟩

open Gen (frameBase savedRegs prologueInsts leaveInsts KeepsToAreas)
open Machine (Reaches)

/-- The code of a function sets up a frame, runs a body and takes the frame down. The body leaves
    the stack pointer and the frame pointer alone, stores relative to the frame pointer only into
    the home of exactly one value, and relative to the stack pointer only into the room for
    arguments. Homes and stack areas are below the preserved registers and above that room. Calls
    are made with an aligned stack, and a function that returns has restored the registers that it
    has to preserve. -/
theorem calling_convention [Machine.BlockEncoder] {b : Buffer} (hb : b.Validated)
    (hargs : b.ArgsAreValues) (hneed : b.frameNeed < 2 ^ 31) {limit : Nat} {a a' : Account}
    {asm : Assembly} (hok : compile b limit a = .ok asm a') :
    ∃ s labels stop, Gen.instructions b limit (CodeState.initial b a) = .ok () s ∧
      s.emitter.assemble = .ok ⟨asm.code, labels⟩ ∧
      Machine.Enclosed (fun offset => ∃! v, b.HomeSlot v offset) b.outgoing s.emitter.program
        (prologueInsts asm.frameSize) leaveInsts stop ∧
      (∀ v p, b.HomeSlot v p → -(b.frameNeed : Int) + b.outgoing ≤ p ∧ p + 8 ≤ -40) ∧
      (∀ v u p q, b.HomeSlot v p → b.HomeSlot u q → v ≠ u → p + 8 ≤ q ∨ q + 8 ≤ p) ∧
      (∀ v p n, b.Area v p n → -(b.frameNeed : Int) + b.outgoing ≤ p ∧ p + n ≤ -40) ∧
      ∀ (c : Machine.Surroundings) (m : Machine.State),
        (∀ pc m', Reaches c s.emitter.program 0 m pc m' →
          (prologueInsts asm.frameSize).length ≤ pc → pc < stop →
          m'.gpr Reg.rbp.toGpr = frameBase m ∧
            m'.gpr .rsp = frameBase m + .ofInt 64 (-(b.frameNeed : Nat))) ∧
        ((m.gpr .rsp + 8).toNat % 16 = 0 → ∀ pc m' r, Reaches c s.emitter.program 0 m pc m' →
          s.emitter.program.items[pc]? = some (.op (.call r)) → (m'.gpr .rsp).toNat % 16 = 0) ∧
        (KeepsToAreas b c s.emitter.program m → ∀ pc m' x m'',
          Reaches c s.emitter.program 0 m pc m' →
          Machine.step c s.emitter.program pc m' = .returned x m'' →
          m''.gpr .rsp = m.gpr .rsp + 8 ∧ ∀ r ∈ savedRegs, m''.gpr r.toGpr = m.gpr r.toGpr) := by
  obtain ⟨l, s, e, s', labels, hgen, hinst, hcode, hsize⟩ := compile_generated hb hargs hok
  have hE := hgen.enclosed hb hargs
  have hunique : ∀ offset, (∃ v, b.HomeSlot v offset) → ∃! v, b.HomeSlot v offset := by
    rintro offset ⟨v, hv⟩
    refine ⟨v, hv, fun u hu => ?_⟩
    by_contra hne
    have := hu.place.apart hneed hv.place hne
    omega
  rw [hsize]
  refine ⟨s', labels, e.count, hinst, hcode, ?_, fun v p hp => hp.place.bounds hneed,
    fun v u p q hp hq => hp.place.apart hneed hq.place, fun v p n hp => hp.place.bounds hneed,
    fun c m => ⟨fun pc m' hr hge hlt => ?_, fun halign pc m' r hr => ?_,
      fun hkeeps pc m' x m'' hr => ?_⟩⟩
  · exact hE.mono hunique
  · cases hgen.phase_based hb hargs hneed hr with
    | entering hn => omega
    | inside _ _ hbased => exact ⟨hbased.rbp, hbased.rsp⟩
    | leaving => omega
  · exact hgen.aligned hb hargs hneed halign hr
  · exact hgen.restored hb hargs hneed hkeeps hr

/-- A function that passes its parameter and the address of a stack area to another one, with two
    arguments on the stack. -/
def Buffer.relay : Buffer :=
  (Buffer.empty 0).appendAll [
    .plain .start [],
    ⟨.param, .empty, .param 0⟩,
    ⟨.alloc, .empty, .alloc 20⟩,
    ⟨.call (.val .int64), .empty, .call (.ofArgs ⟨"callee", .native 4096,
      (Signature.ofKinds? .int64 (.replicate 8 .int64)).getD ⟨0⟩, .cdecl, .any⟩
      [⟨0, 1⟩, ⟨0, 2⟩, ⟨0, 1⟩, ⟨0, 2⟩, ⟨0, 1⟩, ⟨0, 2⟩, ⟨0, 1⟩, ⟨0, 2⟩])⟩,
    .plain (.arith .w64 .add) [⟨0, 3⟩, ⟨0, 1⟩],
    .plain (.ret .int64) [⟨0, 4⟩]]

theorem Buffer.relay_validated : Buffer.relay.Validated :=
  (Buffer.Validated.empty 0).appendAll (by decide +kernel)

section

attribute [local instance] Machine.shrinking

/-- The frame of `Buffer.relay` has two slots and an area of 24 bytes above the room for two
    arguments, and its calls are made with an aligned stack. -/
theorem calling_convention_relay :
    ∃ asm a' labels, ∃ s : CodeState, compile .relay 4096 ⟨.zero, #[]⟩ = .ok asm a' ∧
      s.emitter.assemble = .ok ⟨asm.code, labels⟩ ∧ Buffer.relay.outgoing = 16 ∧
      ∀ (c : Machine.Surroundings) (m : Machine.State), (m.gpr .rsp + 8).toNat % 16 = 0 →
        ∀ pc m' r, Reaches c s.emitter.program 0 m pc m' →
          s.emitter.program.items[pc]? = some (.op (.call r)) → (m'.gpr .rsp).toNat % 16 = 0 := by
  obtain ⟨asm, a', hok⟩ := Step.exists_of_succeeds
    (show (compile .relay 4096).succeeds ⟨.zero, #[]⟩ = true by decide +kernel)
  obtain ⟨s, labels, stop, -, hcode, -, -, -, -, hrun⟩ := calling_convention Buffer.relay_validated
    (by decide +kernel) (by decide +kernel) hok
  exact ⟨asm, a', labels, s, hok, hcode, by decide +kernel, fun c m => (hrun c m).2.1⟩

end

end JitBackend
