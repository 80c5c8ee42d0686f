import JitBackend.Proofs.EncoderCalls
import JitBackend.Proofs.Frames

namespace JitBackend

/-!
# What the code of a body leaves alone

The instructions between the code that sets up a frame and the code that takes it down never write
the stack pointer or the frame pointer. They store relative to the frame pointer only into homes
of computed values, and relative to the stack pointer only into the room for call arguments. This
is a property of single instructions.

* `Inst.writes`, `Inst.stored?` — what an instruction changes; `exec_gpr`, `exec_mem` — that it
  changes nothing else;
* `Inst.Disciplined` — an instruction that may stand in a body;
* `Step.Keeps` — a computation keeps an invariant wherever it ends well;
* `Emitter.Clean` — all code from a place on is disciplined; one lemma for each shape of operands;
* `Emitter.Operation.Fits` — the calls of the emitter that add disciplined instructions.
-/

/-! ### Invariants of computations -/

namespace Step

variable {ε σ α β δ τ : Type} {I : σ → Prop} {Q P : α → Prop} {x : Step ε σ α}

/-- Wherever the computation ends well it keeps `I`, and its result satisfies `Q`. -/
def Keeps (I : σ → Prop) (x : Step ε σ α) (Q : α → Prop := fun _ => True) : Prop :=
  ∀ s a s', I s → x s = .ok a s' → I s' ∧ Q a

theorem Preserves.keeps (h : x.Preserves I) : Keeps I x :=
  fun s _ _ hs hx => ⟨after_ok hx ▸ h s hs, trivial⟩

theorem keeps_pure {a : α} (h : Q a) : Keeps I (pure a : Step ε σ α) Q := by
  intro s a' s' hs hx
  cases hx
  exact ⟨hs, h⟩

theorem keeps_get : Keeps I (get : Step ε σ σ) I := by
  intro s a s' hs hx
  cases hx
  exact ⟨hs, hs⟩

theorem keeps_set {t : σ} (h : I t) : Keeps I (set t : Step ε σ PUnit) := by
  intro s a s' _ hx
  cases hx
  exact ⟨h, trivial⟩

theorem keeps_modify {f : σ → σ} (h : ∀ s, I s → I (f s)) :
    Keeps I (modify f : Step ε σ PUnit) := by
  intro s a s' hs hx
  cases hx
  exact ⟨h s hs, trivial⟩

theorem keeps_fail (e : ε) : Keeps I (fail e : Step ε σ α) Q := by
  intro s a s' _ hx
  cases hx

theorem keeps_fault (f : Fault) : Keeps I (fault f : Step ε σ α) Q := by
  intro s a s' _ hx
  cases hx

theorem keeps_orFail (e : ε) (o : Option α) :
    Keeps I (orFail e o : Step ε σ α) fun a => o = some a := by
  cases o with
  | none => exact keeps_fail e
  | some a => exact keeps_pure rfl

theorem keeps_orFault (f : Fault) (o : Option α) :
    Keeps I (orFault f o : Step ε σ α) fun a => o = some a := by
  cases o with
  | none => exact keeps_fault f
  | some a => exact keeps_pure rfl

theorem keeps_liftFault (x : Except Fault α) :
    Keeps I (liftFault x : Step ε σ α) fun a => x = .ok a := by
  cases x with
  | error f => exact keeps_fault f
  | ok a => exact keeps_pure rfl

theorem Keeps.bind {f : α → Step ε σ β} {Q : β → Prop} (hx : Keeps I x P)
    (hf : ∀ a, P a → Keeps I (f a) Q) : Keeps I (x >>= f) Q := by
  intro s b t hs h
  obtain ⟨a, s', hxs, hfs⟩ := bind_eq_ok.mp h
  obtain ⟨hs', ha⟩ := hx s a s' hs hxs
  exact hf a ha s' b t hs' hfs

theorem Keeps.seq {y : Step ε σ β} {Q : β → Prop} (hx : Keeps I x P) (hy : Keeps I y Q) :
    Keeps I (x >>= fun _ => y) Q :=
  hx.bind fun _ _ => hy

theorem Keeps.mono (hx : Keeps I x P) (h : ∀ a, P a → Q a) : Keeps I x Q := fun s a s' hs hxs =>
  ⟨(hx s a s' hs hxs).1, h a (hx s a s' hs hxs).2⟩

theorem Keeps.forM {f : α → Step ε σ PUnit} {xs : List α}
    (h : ∀ x ∈ xs, Keeps I (f x)) : Keeps I (xs.forM f) := by
  induction xs with
  | nil => exact keeps_pure trivial
  | cons x xs ih =>
    exact (h x (by simp)).bind fun _ _ => ih fun y hy => h y (by simp [hy])

/-- A computation on a part of the state keeps an invariant if that part stays fit for it. -/
theorem Keeps.within {J : τ → Prop} {part : σ → τ} {put : τ → σ → σ} {f : ε → δ} {x : Step ε τ α}
    (hx : Keeps J x Q) (hpart : ∀ s, I s → J (part s)) (hput : ∀ s t, I s → J t → I (put t s)) :
    Keeps I (within part put f x) Q := by
  intro s a s' hs h
  unfold Step.within at h
  cases hp : x (part s) with
  | error e t => rw [hp] at h; cases h
  | ok b t =>
    rw [hp] at h
    cases h
    obtain ⟨ht, hQ⟩ := hx _ _ _ (hpart s hs) hp
    exact ⟨hput s t hs ht, hQ⟩

end Step

/-! ### What instructions change -/

namespace Machine

/-- Whether an instruction writes a general-purpose register. A callee is taken to write those
    that it does not preserve. -/
def Inst.writes (r : Gpr) : Inst → Bool
  | .mov _ dst _ | .movImm32 dst _ | .movImm64 dst _ | .movsxd dst _ | .movzxByte dst _
  | .load _ _ dst _ | .lea dst _ | .imul _ dst _ | .imulImm _ dst _ _ | .unary _ _ dst
  | .shiftCl _ _ dst | .shiftImm _ _ dst _ | .setcc _ dst | .andByte dst _ | .cmovne _ dst _
  | .floatToInt _ _ dst _ => decide (r = dst)
  | .alu op _ dst _ | .aluImm op _ dst _ => decide (op ≠ .cmp ∧ r = dst)
  | .signExtend _ => decide (r = .rdx)
  | .idiv _ _ => decide (r = .rax ∨ r = .rdx)
  | .call _ => !r.isPreserved
  | .push _ | .ret => decide (r = .rsp)
  | .pop dst => decide (r = .rsp ∨ r = dst)
  | .store .. | .test .. | .movaps .. | .xorps .. | .loadFloat .. | .storeFloat ..
  | .floatArith .. | .ucomis .. | .intToFloat .. | .resize .. | .movBits .. | .ud2 | .nop => false

/-- The memory that an instruction stores to, pushes apart, with the number of bytes. -/
def Inst.stored? : Inst → Option (Mem × Nat)
  | .store width dst _ => some (dst, width.bytes)
  | .storeFloat s dst _ => some (dst, s.bits / 8)
  | _ => none

variable {op : AluOp}

section Exec

variable {c : Surroundings} {m m' : State} {i : Inst} {r : Gpr} {w : Width} {dst : Gpr}

section

variable (m : State) (c : Surroundings) (a : BitVec 64)

theorem State.gpr_observe (e : Observation) : (m.observe c a e).gpr = m.gpr := by
  unfold State.observe
  split <;> rfl

theorem State.mem_observe (e : Observation) : (m.observe c a e).mem = m.mem := by
  unfold State.observe
  split <;> rfl

theorem State.gpr_write (n : Nat) (v : BitVec 64) : (m.write c a n v).gpr = m.gpr :=
  State.gpr_observe _ _ _ _

theorem State.mem_write (n : Nat) (v : BitVec 64) : (m.write c a n v).mem = m.mem.write a n v :=
  State.mem_observe _ _ _ _

end

theorem State.gpr_setWord (h : r ≠ dst) (v : BitVec w.bits) : (m.setWord w dst v).gpr r = m.gpr r :=
  State.gpr_setGpr_of_ne h _

theorem execAlu_gpr {b : BitVec w.bits} (h : ¬ (op ≠ .cmp ∧ r = dst)) :
    (execAlu op w dst b m).gpr r = m.gpr r := by
  unfold execAlu
  split
  · rfl
  · rename_i hop
    exact State.gpr_setWord (fun hr => h ⟨hop, hr⟩) _

theorem execAlu_mem {b : BitVec w.bits} : (execAlu op w dst b m).mem = m.mem := by
  unfold execAlu
  split <;> rfl

theorem execDiv_eq_some {d : Gpr} (h : execDiv w d m = some m') :
    ∃ q p, m' = ((m.setWord w .rax q).setWord w .rdx p).withFlags none := by
  unfold execDiv at h
  dsimp only at h
  split at h
  · cases h
  · cases h
    exact ⟨_, _, rfl⟩

/-- An instruction keeps the registers that it does not write. -/
theorem exec_gpr (h : exec c m i = some m') (hw : i.writes r = false) : m'.gpr r = m.gpr r := by
  cases i with
  | mov | movImm32 | imul | imulImm | unary | shiftCl | shiftImm | floatToInt | signExtend =>
    cases h
    exact State.gpr_setWord (of_decide_eq_false hw) _
  | movImm64 | movsxd | movzxByte | lea | andByte =>
    cases h
    exact State.gpr_setGpr_of_ne (of_decide_eq_false hw) _
  | load width signed dst src =>
    cases h
    rw [State.gpr_setGpr_of_ne (of_decide_eq_false hw)]
    exact congrFun (State.gpr_observe m c _ _) r
  | store | storeFloat =>
    cases h
    exact congrFun (State.gpr_write m c _ _ _) r
  | alu | aluImm =>
    cases h
    exact execAlu_gpr (of_decide_eq_false hw)
  | idiv w d =>
    have hne := of_decide_eq_false hw
    obtain ⟨q, p, rfl⟩ := execDiv_eq_some h
    show ((m.setWord w .rax q).setWord w .rdx p).gpr r = _
    rw [State.gpr_setWord (fun hr => hne (.inr hr)), State.gpr_setWord (fun hr => hne (.inl hr))]
  | setcc | cmovne =>
    obtain ⟨f, -, h⟩ := Option.bind_eq_some_iff.mp h
    cases h
    exact State.gpr_setGpr_of_ne (of_decide_eq_false hw) _
  | loadFloat s dst src =>
    cases h
    exact congrFun (State.gpr_observe m c _ _) r
  | resize s =>
    cases s <;> cases h <;> rfl
  | call target =>
    cases h
    have hp : r.isPreserved = true := by simpa [Inst.writes] using hw
    show (if r.isPreserved then m.gpr r else _) = _
    rw [if_pos hp]
  | push q =>
    cases h
    have hne : r ≠ .rsp := of_decide_eq_false hw
    rw [State.gpr_write]
    exact State.gpr_setGpr_of_ne hne _
  | pop q =>
    cases h
    have hne : ¬ (r = .rsp ∨ r = q) := of_decide_eq_false hw
    rw [State.gpr_setGpr_of_ne (fun hr => hne (.inr hr)),
      State.gpr_setGpr_of_ne (fun hr => hne (.inl hr))]
    exact congrFun (State.gpr_observe m c _ _) r
  | ret | ud2 => cases h
  | _ => cases h; rfl

/-- An instruction that leaves the stack pointer alone keeps the memory that it does not store to,
    except that callees may change what is not hidden from them. -/
theorem exec_mem (h : exec c m i = some m') (hw : i.writes .rsp = false) {x : BitVec 64}
    (hx : c.hidden x = true)
    (hs : ∀ a n, i.stored? = some (a, n) → ¬ Memory.InRange (m.address a) n x) :
    m'.mem x = m.mem x := by
  cases i with
  | load | loadFloat =>
    cases h
    exact congrFun (State.mem_observe m c _ _) x
  | store | storeFloat =>
    cases h
    rw [State.mem_write]
    exact Memory.write_of_outside _ _ (hs _ _ rfl)
  | alu | aluImm =>
    cases h
    exact congrFun execAlu_mem x
  | idiv w d =>
    obtain ⟨q, p, rfl⟩ := execDiv_eq_some h
    rfl
  | setcc | cmovne =>
    obtain ⟨f, -, h⟩ := Option.bind_eq_some_iff.mp h
    cases h
    rfl
  | resize s =>
    cases s <;> cases h <;> rfl
  | call target =>
    cases h
    show (if c.hidden x then m.mem x else _) = _
    rw [if_pos hx]
  | push | pop => simp [Inst.writes] at hw
  | ret | ud2 => cases h
  | _ => cases h; rfl

end Exec

/-! ### Disciplined instructions -/

/-- A register that is neither the stack pointer nor the frame pointer. -/
def Gpr.Free (r : Gpr) : Prop :=
  r ≠ Reg.rsp.toGpr ∧ r ≠ Reg.rbp.toGpr

/-- An instruction that may stand in the body of a function: it leaves the stack pointer and the
    frame pointer alone, and stores relative to them only where `slot` allows it and into the first
    `room` bytes of the frame. -/
structure Inst.Disciplined (slot : Int → Prop) (room : Nat) (i : Inst) : Prop where
  rsp : i.writes Reg.rsp.toGpr = false
  rbp : i.writes Reg.rbp.toGpr = false
  home : ∀ a n, i.stored? = some (a, n) → a.base = Reg.rbp.toGpr →
    n ≤ 8 ∧ ∃ offset, a.disp = Gen.displacement offset ∧ slot offset
  argument : ∀ a n, i.stored? = some (a, n) → a.base = Reg.rsp.toGpr →
    n ≤ 8 ∧ ∃ offset : Nat, a.disp = Gen.displacement offset ∧ offset + 8 ≤ room

namespace Inst.Disciplined

variable {slot : Int → Prop} {room : Nat} {i : Inst} {d : Gpr} {n : Nat}

/-- An instruction that writes at most free registers. -/
theorem of_free (hw : ∀ r, i.writes r = true → r.Free) (hs : i.stored? = none) :
    i.Disciplined slot room := by
  refine ⟨?_, ?_, fun a n h => ?_, fun a n h => ?_⟩
  · exact Bool.eq_false_iff.mpr fun h => (hw _ h).1 rfl
  · exact Bool.eq_false_iff.mpr fun h => (hw _ h).2 rfl
  · rw [hs] at h; cases h
  · rw [hs] at h; cases h

/-- An instruction with one register for its result. -/
theorem of_dst (hd : d.Free) (hw : ∀ r, i.writes r = decide (r = d)) (hs : i.stored? = none) :
    i.Disciplined slot room :=
  of_free (fun r hr => by rw [hw] at hr; rw [of_decide_eq_true hr]; exact hd) hs

/-- An instruction whose result is no general-purpose register. -/
theorem of_quiet (hw : ∀ r, i.writes r = false) (hs : i.stored? = none) :
    i.Disciplined slot room :=
  of_free (fun r hr => by rw [hw] at hr; cases hr) hs

theorem alu {w : Width} {s : Gpr} (hd : d.Free) : (Inst.alu op w d s).Disciplined slot room :=
  of_free (fun r hr => by rw [(of_decide_eq_true hr).2]; exact hd) rfl

theorem aluImm {w : Width} {k : BitVec 32} (hd : d.Free) :
    (Inst.aluImm op w d k).Disciplined slot room :=
  of_free (fun r hr => by rw [(of_decide_eq_true hr).2]; exact hd) rfl

/-- A store through a register that a value is in. -/
theorem of_store {a : Mem} (hw : ∀ r, i.writes r = false) (hs : i.stored? = some (a, n))
    (ha : a.base.Free) : i.Disciplined slot room := by
  refine ⟨hw _, hw _, fun a' n' h hb => ?_, fun a' n' h hb => ?_⟩
  · rw [hs] at h; cases h; exact absurd hb ha.2
  · rw [hs] at h; cases h; exact absurd hb ha.1

/-- A store to a slot. -/
theorem of_home {offset : Int} (hw : ∀ r, i.writes r = false)
    (hs : i.stored? = some (⟨Reg.rbp.toGpr, Gen.displacement offset⟩, n)) (hn : n ≤ 8)
    (hslot : slot offset) : i.Disciplined slot room := by
  refine ⟨hw _, hw _, fun a' n' h _ => ?_, fun a' n' h hb => ?_⟩
  · rw [hs] at h; cases h; exact ⟨hn, offset, rfl, hslot⟩
  · rw [hs] at h; cases h; cases hb

/-- A store of an argument. -/
theorem of_argument {offset : Nat} (hw : ∀ r, i.writes r = false)
    (hs : i.stored? = some (⟨Reg.rsp.toGpr, Gen.displacement offset⟩, n)) (hn : n ≤ 8)
    (hroom : offset + 8 ≤ room) : i.Disciplined slot room := by
  refine ⟨hw _, hw _, fun a' n' h hb => ?_, fun a' n' h _ => ?_⟩
  · rw [hs] at h; cases h; cases hb
  · rw [hs] at h; cases h; exact ⟨hn, offset, rfl, hroom⟩

end Inst.Disciplined

end Machine

theorem storeInst_stored? (t : ValTy) (a : Machine.Mem) (r : Reg) :
    (storeInst t a r).stored? = some (a, t.size) := by
  rcases t with (_ | _) | (_ | _) <;> rfl

theorem storeInst_writes (t : ValTy) (a : Machine.Mem) (r : Reg) (q : Machine.Gpr) :
    (storeInst t a r).writes q = false := by
  rcases t with (_ | _) | (_ | _) <;> rfl

/-- A register that is neither the stack pointer nor the frame pointer. -/
def Reg.Free (r : Reg) : Prop :=
  r ≠ .rsp ∧ r ≠ .rbp

instance (r : Reg) : Decidable r.Free := inferInstanceAs (Decidable (_ ∧ _))

theorem Reg.Free.toGpr {r : Reg} (h : r.Free) (hr : r.IsGeneral) : r.toGpr.Free :=
  ⟨fun he => h.1 ((Reg.toGpr_inj hr (by decide)).mp he),
    fun he => h.2 ((Reg.toGpr_inj hr (by decide)).mp he)⟩

theorem Reg.free_of_allocatable {r : Reg} (h : Convention.allocatable.contains r = true) :
    r.Free := by
  rcases (allocatable_iff r).mp h with ⟨-, hr⟩ | ⟨⟨hb, -⟩, -⟩
  · exact ⟨fun he => hr (by simp [he]), fun he => hr (by simp [he])⟩
  · constructor
    · rintro rfl; cases hb
    · rintro rfl; cases hb

/-! ### Emitting disciplined instructions -/

namespace Machine

/-- All instructions from item number `start` on are disciplined, and labels are bound to items
    from there on. -/
structure Emitter.Clean (slot : Int → Prop) (room start : Nat) (e : Emitter) : Prop where
  start_le : start ≤ e.count
  items : ∀ n i, start ≤ n → e.items[n]? = some (.op i) → i.Disciplined slot room
  labels : ∀ l n : Nat, e.labels[l]? = some (some n) → start ≤ n ∧ n ≤ e.count

namespace Emitter

variable {slot : Int → Prop} {room start : Nat} {e : Emitter}

theorem Clean.push (h : e.Clean slot room start) {x : Item}
    (hx : ∀ i, x = .op i → i.Disciplined slot room) :
    Clean slot room start (e.withItems (e.items.push x) (by simp)) := by
  have hcount : (e.withItems (e.items.push x) (by simp)).count = e.count + 1 := Array.size_push ..
  refine ⟨?_, fun n i hn hi => ?_, fun l n hl => ?_⟩
  · rw [hcount]
    exact Nat.le_succ_of_le h.start_le
  · rw [withItems, Array.getElem?_push] at hi
    split at hi
    · exact hx i (Option.some.inj hi)
    · exact h.items n i hn hi
  · rw [hcount]
    exact ⟨(h.labels l n hl).1, Nat.le_succ_of_le (h.labels l n hl).2⟩

theorem keeps_emit {i : Inst} (hi : i.Disciplined slot room) :
    (emit i).Keeps (Clean slot room start) :=
  Step.keeps_modify fun _ h => h.push fun _ he => Item.op.inj he ▸ hi

theorem keeps_jump (cond : Option Cond) (l : Nat) :
    (pushItem (.jump cond l)).Keeps (Clean slot room start) :=
  Step.keeps_modify fun _ h => h.push fun _ he => by cases he

theorem keeps_newLabel : newLabel.Keeps (Clean slot room start) := by
  intro e a e' h hx
  cases hx
  refine ⟨⟨h.start_le, h.items, fun l n hl => ?_⟩, trivial⟩
  rw [withLabel, Array.getElem?_push] at hl
  split at hl
  · cases hl
  · exact h.labels l n hl

theorem keeps_checkLabel (l : Nat) : (checkLabel l).Keeps (Clean slot room start) := by
  refine Step.keeps_get.bind fun e _ => ?_
  split
  · exact Step.keeps_pure trivial
  · exact Step.keeps_fail _

theorem keeps_jmp (l : Nat) : (jmp l).Keeps (Clean slot room start) :=
  (keeps_checkLabel l).bind fun _ _ => keeps_jump _ _

theorem keeps_jcc (cond : Cond) (l : Nat) :
    (jcc cond l).Keeps (Clean slot room start) :=
  (keeps_checkLabel l).bind fun _ _ => keeps_jump _ _

theorem disciplined_nop : Inst.nop.Disciplined slot room := .of_quiet (fun _ => rfl) rfl

theorem Clean.bound {l : Nat} {e' : Emitter} (h : e.Clean slot room start)
    (hb : Bound l e e') : e'.Clean slot room start := by
  obtain ⟨is, hnop, his⟩ := hb.code
  have hcount : e.count ≤ e'.count := by
    rw [count, count, his]
    exact Nat.le_trans (Nat.le_add_right _ _) (Nat.le_of_eq (count_withOps e is).symm)
  refine ⟨Nat.le_trans h.start_le hcount, fun n i hn hi => ?_, fun k n hk => ?_⟩
  · rw [his] at hi
    rcases Nat.lt_or_ge n e.items.size with hlt | hge
    · rw [withOps, withItems, Array.getElem?_append_left hlt] at hi
      exact h.items n i hn hi
    · rw [withOps, withItems, Array.getElem?_append_right hge] at hi
      have hmem := Array.mem_of_getElem? hi
      simp only [List.mem_toArray, List.mem_map] at hmem
      obtain ⟨j, hj, hij⟩ := hmem
      cases hij
      exact hnop _ hj ▸ disciplined_nop
  · rw [hb.labels, Array.getElem?_setIfInBounds] at hk
    split at hk
    · split at hk
      · cases hk
        exact ⟨Nat.le_trans h.start_le hcount, Nat.le_refl _⟩
      · cases hk
    · exact ⟨(h.labels k n hk).1, Nat.le_trans (h.labels k n hk).2 hcount⟩

theorem keeps_bind (l : Nat) : (bind l).Keeps (Clean slot room start) := by
  intro e _ e' he hx
  obtain ⟨-, rfl⟩ := bind_eq_ok.mp hx
  exact ⟨he.bound (bound_withBound e l), trivial⟩

theorem keeps_gpr (r : Reg) :
    (gpr r).Keeps (Clean slot room start) fun g => r.IsGeneral ∧ g = r.toGpr := by
  unfold gpr
  split
  · rename_i hr
    exact Step.keeps_pure ⟨hr, rfl⟩
  · exact Step.keeps_fail _

theorem keeps_xmm (r : Reg) : (xmm r).Keeps (Clean slot room start) := by
  unfold xmm
  split
  · exact Step.keeps_pure trivial
  · exact Step.keeps_fail _

theorem keeps_mem (r : Reg) (d : BitVec 32) :
    (mem r d).Keeps (Clean slot room start) fun a => r.IsGeneral ∧ a = ⟨r.toGpr, d⟩ :=
  (keeps_gpr r).bind fun _ hg => Step.keeps_pure ⟨hg.1, by rw [hg.2]⟩

section Shapes

variable {r q : Reg} {d : BitVec 32}

/-- Instructions with one integer register. -/
theorem keeps_g {f : Gpr → Inst} (h : r.IsGeneral → (f r.toGpr).Disciplined slot room) :
    Step.Keeps (Clean slot room start) (do emit (f (← gpr r))) :=
  (keeps_gpr r).bind fun _ hg => keeps_emit (hg.2 ▸ h hg.1)

/-- Instructions with two integer registers. -/
theorem keeps_gg {f : Gpr → Gpr → Inst}
    (h : r.IsGeneral → q.IsGeneral → (f r.toGpr q.toGpr).Disciplined slot room) :
    Step.Keeps (Clean slot room start) (do emit (f (← gpr r) (← gpr q))) :=
  (keeps_gpr r).bind fun _ hr => keeps_g fun hq => hr.2 ▸ h hr.1 hq

/-- Instructions with two float registers. -/
theorem keeps_xx {f : Xmm → Xmm → Inst} (h : ∀ x y, (f x y).Disciplined slot room) :
    Step.Keeps (Clean slot room start) (do emit (f (← xmm r) (← xmm q))) :=
  (keeps_xmm r).bind fun x _ => (keeps_xmm q).bind fun y _ => keeps_emit (h x y)

/-- Instructions with a float register and an integer register. -/
theorem keeps_xg {f : Xmm → Gpr → Inst} (h : ∀ x y, (f x y).Disciplined slot room) :
    Step.Keeps (Clean slot room start) (do emit (f (← xmm r) (← gpr q))) :=
  (keeps_xmm r).bind fun x _ => (keeps_gpr q).bind fun y _ => keeps_emit (h x y)

/-- Instructions with an integer register and a float register. -/
theorem keeps_gx {f : Gpr → Xmm → Inst}
    (h : r.IsGeneral → ∀ x, (f r.toGpr x).Disciplined slot room) :
    Step.Keeps (Clean slot room start) (do emit (f (← gpr r) (← xmm q))) :=
  (keeps_gpr r).bind fun _ hr => (keeps_xmm q).bind fun x _ => keeps_emit (hr.2 ▸ h hr.1 x)

/-- Loads and stores of an integer register. -/
theorem keeps_mg {f : Mem → Gpr → Inst}
    (h : r.IsGeneral → q.IsGeneral → (f ⟨r.toGpr, d⟩ q.toGpr).Disciplined slot room) :
    Step.Keeps (Clean slot room start)
      (do let a ← mem r d; emit (f a (← gpr q))) :=
  (keeps_mem r d).bind fun _ hr => keeps_g fun hq => hr.2 ▸ h hr.1 hq

/-- Loads and stores of a float register. -/
theorem keeps_mx {f : Mem → Xmm → Inst}
    (h : r.IsGeneral → ∀ x, (f ⟨r.toGpr, d⟩ x).Disciplined slot room) :
    Step.Keeps (Clean slot room start)
      (do let a ← mem r d; emit (f a (← xmm q))) :=
  (keeps_mem r d).bind fun _ hr => (keeps_xmm q).bind fun x _ => keeps_emit (hr.2 ▸ h hr.1 x)

theorem keeps_lea (hr : r.Free) : (lea r q d).Keeps (Clean slot room start) :=
  (keeps_gpr r).bind fun _ hg => (keeps_mem q d).bind fun _ _ =>
    keeps_emit (hg.2 ▸ .of_dst (hr.toGpr hg.1) (fun _ => rfl) rfl)

theorem keeps_idiv {w : Width} : (idiv w r).Keeps (Clean slot room start) := by
  have hfixed : Gpr.rax.Free ∧ Gpr.rdx.Free := by unfold Gpr.Free; decide
  refine (keeps_emit (.of_dst hfixed.2 (fun _ => rfl) rfl)).bind fun _ _ => keeps_g fun _ => ?_
  refine .of_free (fun q hq => ?_) rfl
  rcases of_decide_eq_true hq with rfl | rfl
  · exact hfixed.1
  · exact hfixed.2

end Shapes

/-- A store may go through a free register, to a slot or into the room for arguments. -/
inductive StoreFits (slot : Int → Prop) (room : Nat) : Reg → BitVec 32 → Prop where
  | free {base : Reg} {disp : BitVec 32} (h : base.Free) : StoreFits slot room base disp
  | home {offset : Int} (h : slot offset) : StoreFits slot room .rbp (Gen.displacement offset)
  | argument {offset : Nat} (h : offset + 8 ≤ room) :
      StoreFits slot room .rsp (Gen.displacement offset)

/-- A call that may be made for a body: the register that it writes is free. -/
def Operation.Fits (slot : Int → Prop) (room : Nat) : Operation → Prop
  | .mov _ dst _ | .movImm32 dst _ | .movImm64 dst _ | .movsxd dst _ | .movzxByte dst _
  | .load _ _ dst _ _ | .lea dst _ _ | .alu _ _ dst _ | .aluImm _ _ dst _ | .imul _ dst _
  | .imulImm _ dst _ _ | .unary _ _ dst | .shiftCl _ _ dst | .shiftImm _ _ dst _ | .setcc _ dst
  | .andByte dst _ | .cmovne _ dst _ | .floatToInt _ _ dst _ => dst.Free
  | .store _ base disp _ | .storeFloat _ base disp _ => StoreFits slot room base disp
  | .push _ | .pop _ | .ret | .prologue .. | .epilogue _ => False
  | _ => True

theorem StoreFits.disciplined {base : Reg} {disp : BitVec 32} (h : StoreFits slot room base disp)
    (hbase : base.IsGeneral) {i : Inst} {n : Nat} (hw : ∀ r, i.writes r = false)
    (hs : i.stored? = some (⟨base.toGpr, disp⟩, n)) (hn : n ≤ 8) : i.Disciplined slot room := by
  cases h with
  | free hfree => exact .of_store hw hs (hfree.toGpr hbase)
  | home hslot => exact .of_home hw hs hn hslot
  | argument hroom => exact .of_argument hw hs hn hroom

/-- What is added is disciplined. -/
theorem Operation.keeps {o : Operation} (h : o.Fits slot room) :
    o.run.Keeps (Clean slot room start) := by
  cases o with
  | movImm32 | movImm64 | unary | shiftCl | shiftImm | setcc =>
    exact keeps_g fun hg => .of_dst (h.toGpr hg) (fun _ => rfl) rfl
  | aluImm => exact keeps_g fun hg => .aluImm (h.toGpr hg)
  | mov | movsxd | movzxByte | imul | imulImm | andByte | cmovne =>
    exact keeps_gg fun hg _ => .of_dst (h.toGpr hg) (fun _ => rfl) rfl
  | alu => exact keeps_gg fun hg _ => .alu (h.toGpr hg)
  | test => exact keeps_gg fun _ _ => .of_quiet (fun _ => rfl) rfl
  | movaps | xorps | floatArith | ucomis | resize =>
    exact keeps_xx fun _ _ => .of_quiet (fun _ => rfl) rfl
  | intToFloat | movBits => exact keeps_xg fun _ _ => .of_quiet (fun _ => rfl) rfl
  | floatToInt => exact keeps_gx fun hg _ => .of_dst (h.toGpr hg) (fun _ => rfl) rfl
  | load => exact keeps_mg fun _ hg => .of_dst (h.toGpr hg) (fun _ => rfl) rfl
  | loadFloat => exact keeps_mx fun _ _ => .of_quiet (fun _ => rfl) rfl
  | store width =>
    refine keeps_mg fun hg _ => h.disciplined hg (fun _ => rfl) rfl ?_
    cases width <;> decide
  | storeFloat s =>
    refine keeps_mx fun hg _ => h.disciplined hg (fun _ => rfl) rfl ?_
    cases s <;> decide
  | lea => exact keeps_lea h
  | idiv => exact keeps_idiv
  | call =>
    -- callees preserve the stack pointer and the frame pointer
    refine keeps_g fun _ => .of_free (fun r hr => ⟨?_, ?_⟩) rfl
    · rintro rfl
      exact Bool.eq_false_iff.mp rfl hr
    · rintro rfl
      exact Bool.eq_false_iff.mp rfl hr
  | ud2 => exact keeps_emit (.of_quiet (fun _ => rfl) rfl)
  | push | pop | ret | prologue | epilogue => exact h.elim

end Emitter

end Machine

end JitBackend
