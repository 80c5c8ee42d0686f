import JitBackend.Codegen.State
import JitBackend.Proofs.Processor
import JitBackend.Proofs.Run

namespace JitBackend

/-!
# Emitted code and its runs

Emitting operations append machine instructions. A piece of code is what was appended between two
states of the emitter; it runs from the place where it starts to the place where it ends in every
program that begins with it.

* `Emits` — an operation appends given instructions; one lemma for each shape of operands;
* `Emitter.Extends`, `Emitter.Within` — code that begins with other code, programs with code;
* `Runs` — a piece of code takes states that satisfy a condition to states that satisfy another.
-/

/-- A general-purpose register of the machine. -/
def Reg.IsGeneral (r : Reg) : Prop :=
  r.bank = 0 ∧ r.id < 16

/-- A float register of the machine. -/
def Reg.IsXmm (r : Reg) : Prop :=
  r.bank = 1 ∧ r.id < 16

instance (r : Reg) : Decidable r.IsGeneral := inferInstanceAs (Decidable (_ ∧ _))

instance (r : Reg) : Decidable r.IsXmm := inferInstanceAs (Decidable (_ ∧ _))

/-- The machine register with this number. -/
def Reg.toGpr (r : Reg) : Machine.Gpr :=
  ⟨BitVec.ofNat 4 r.id⟩

/-- The machine float register with this number. -/
def Reg.toXmm (r : Reg) : Machine.Xmm :=
  ⟨BitVec.ofNat 4 r.id⟩

theorem Reg.eq_of_code {r q : Reg} {bank : Nat} (hr : r.bank = bank ∧ r.id < 16)
    (hq : q.bank = bank ∧ q.id < 16) (hid : r.id % 16 = q.id % 16) : r = q := by
  obtain ⟨rb, ri⟩ := r
  obtain ⟨qb, qi⟩ := q
  simp only at *
  rw [hr.1, hq.1, show ri = qi by omega]

theorem Reg.toGpr_inj {r q : Reg} (hr : r.IsGeneral) (hq : q.IsGeneral) :
    r.toGpr = q.toGpr ↔ r = q := by
  refine ⟨fun h => Reg.eq_of_code hr hq ?_, congrArg _⟩
  have := congrArg (fun g : Machine.Gpr => g.code.toNat) h
  simpa [Reg.toGpr, BitVec.toNat_ofNat] using this

theorem Reg.toXmm_inj {r q : Reg} (hr : r.IsXmm) (hq : q.IsXmm) :
    r.toXmm = q.toXmm ↔ r = q := by
  refine ⟨fun h => Reg.eq_of_code hr hq ?_, congrArg _⟩
  have := congrArg (fun g : Machine.Xmm => g.code.toNat) h
  simpa [Reg.toXmm, BitVec.toNat_ofNat] using this

namespace Machine

open Emitter

/-! ### Appending instructions -/

/-- The emitter with instructions appended. -/
def Emitter.withOps (e : Emitter) (is : List Inst) : Emitter :=
  e.withItems (e.items ++ (is.map Item.op).toArray) (by simp)

@[simp] theorem Emitter.withOps_nil (e : Emitter) : e.withOps [] = e := by
  ext1 <;> simp [withOps, withItems]

@[simp] theorem Emitter.withOps_withOps (e : Emitter) (is js : List Inst) :
    (e.withOps is).withOps js = e.withOps (is ++ js) := by
  simp [withOps, withItems, Array.append_assoc]

@[simp] theorem Emitter.count_withOps (e : Emitter) (is : List Inst) :
    (e.withOps is).count = e.count + is.length := by
  simp [withOps, withItems, count]

@[simp] theorem Emitter.labels_withOps (e : Emitter) (is : List Inst) :
    (e.withOps is).labels = e.labels := rfl

theorem Emitter.jump_mem_withOps {e : Emitter} {cond : Option Cond} {l : Nat} {is : List Inst} :
    .jump cond l ∈ (e.withOps is).items ↔ .jump cond l ∈ e.items := by
  simp [withOps, withItems]

/-- Whether the instruction is a store. -/
def Inst.isStore : Inst → Bool
  | .store .. | .storeFloat .. => true
  | _ => false

/-- Nothing but stores was appended. -/
def Emitter.Stored (e e' : Emitter) : Prop :=
  ∃ is : List Inst, (∀ i ∈ is, i.isStore = true) ∧ e' = e.withOps is

theorem Emitter.Stored.refl (e : Emitter) : e.Stored e :=
  ⟨[], List.forall_mem_nil _, (withOps_nil e).symm⟩

/-- The computation changes nothing and yields `a`. -/
def Computes {α : Type} (x : Emit α) (a : α) : Prop :=
  ∀ e, x e = .ok a e

/-- The computation appends the given instructions. -/
def Emits (x : Emit Unit) (is : List Inst) : Prop :=
  ∀ e, x e = .ok () (e.withOps is)

theorem Computes.bind {α β : Type} {x : Emit α} {f : α → Emit β} {a : α} {c : β}
    (hx : Computes x a) (hf : Computes (f a) c) : Computes (x >>= f) c := fun e => by
  rw [Step.bind_ok (hx e), hf e]

variable {is : List Inst} {p : Program}

theorem Emits.after {α : Type} {x : Emit α} {f : α → Emit Unit} {a : α} (hx : Computes x a)
    (hf : Emits (f a) is) : Emits (x >>= f) is := fun e => by
  rw [Step.bind_ok (hx e), hf e]

theorem Emits.seq {x : Emit Unit} {f : Unit → Emit Unit} {js : List Inst} (hx : Emits x is)
    (hf : Emits (f ()) js) : Emits (x >>= f) (is ++ js) := fun e => by
  rw [Step.bind_ok (hx e), hf, withOps_withOps]

theorem emits_emit (i : Inst) : Emits (emit i) [i] := fun e => by
  show EStateM.Result.ok () (e.withItems (e.items.push (.op i)) _) = _
  simp [withOps]

theorem computes_gpr {r : Reg} (hr : r.IsGeneral) : Computes (gpr r) r.toGpr := fun e => by
  have hpure : gpr r = pure r.toGpr := if_pos hr
  rw [hpure]; rfl

theorem computes_xmm {r : Reg} (hr : r.IsXmm) : Computes (xmm r) r.toXmm := fun e => by
  have hpure : xmm r = pure r.toXmm := if_pos hr
  rw [hpure]; rfl

theorem computes_mem {r : Reg} (hr : r.IsGeneral) (d : BitVec 32) :
    Computes (mem r d) ⟨r.toGpr, d⟩ :=
  (computes_gpr hr).bind fun _ => rfl

section Shapes

variable {r q : Reg} {d : BitVec 32}

/-- Instructions with one integer register. -/
theorem emits_g {f : Gpr → Inst} (hr : r.IsGeneral) :
    Emits (do emit (f (← gpr r))) [f r.toGpr] :=
  .after (computes_gpr hr) (emits_emit _)

/-- Instructions with two integer registers. -/
theorem emits_gg {f : Gpr → Gpr → Inst} (hr : r.IsGeneral) (hq : q.IsGeneral) :
    Emits (do emit (f (← gpr r) (← gpr q))) [f r.toGpr q.toGpr] :=
  .after (computes_gpr hr) (emits_g hq)

/-- Instructions with a float register and another one. -/
theorem emits_xx {f : Xmm → Xmm → Inst} (hr : r.IsXmm) (hq : q.IsXmm) :
    Emits (do emit (f (← xmm r) (← xmm q))) [f r.toXmm q.toXmm] :=
  .after (computes_xmm hr) (.after (computes_xmm hq) (emits_emit _))

/-- Instructions with a float register and an integer register. -/
theorem emits_xg {f : Xmm → Gpr → Inst} (hr : r.IsXmm) (hq : q.IsGeneral) :
    Emits (do emit (f (← xmm r) (← gpr q))) [f r.toXmm q.toGpr] :=
  .after (computes_xmm hr) (emits_g hq)

/-- Instructions with an integer register and a float register. -/
theorem emits_gx {f : Gpr → Xmm → Inst} (hr : r.IsGeneral) (hq : q.IsXmm) :
    Emits (do emit (f (← gpr r) (← xmm q))) [f r.toGpr q.toXmm] :=
  .after (computes_gpr hr) (.after (computes_xmm hq) (emits_emit _))

/-- Loads and stores of an integer register. -/
theorem emits_mg {f : Mem → Gpr → Inst} (hr : r.IsGeneral) (hq : q.IsGeneral) :
    Emits (do let a ← mem r d; emit (f a (← gpr q)))
      [f ⟨r.toGpr, d⟩ q.toGpr] :=
  .after (computes_mem hr d) (emits_g hq)

/-- Loads and stores of a float register. -/
theorem emits_mx {f : Mem → Xmm → Inst} (hr : r.IsGeneral) (hq : q.IsXmm) :
    Emits (do let a ← mem r d; emit (f a (← xmm q)))
      [f ⟨r.toGpr, d⟩ q.toXmm] :=
  .after (computes_mem hr d) (.after (computes_xmm hq) (emits_emit _))

theorem emits_lea (hr : r.IsGeneral) (hq : q.IsGeneral) :
    Emits (lea r q d) [.lea r.toGpr ⟨q.toGpr, d⟩] :=
  .after (computes_gpr hr) (.after (computes_mem hq d) (emits_emit _))

theorem emits_idiv {w : Width} (hr : r.IsGeneral) :
    Emits (idiv w r) [.signExtend w, .idiv w r.toGpr] :=
  .seq (emits_emit _) (emits_g hr)

end Shapes

/-! ### Code that begins with other code -/

/-- The second emitter has what the first one has, and possibly more. -/
structure Emitter.Extends (e e' : Emitter) : Prop where
  items : ∃ xs, e'.items = e.items ++ xs
  labels : ∀ l i : Nat, e.labels[l]? = some (some i) → e'.labels[l]? = some (some i)

theorem Emitter.Extends.refl (e : Emitter) : e.Extends e :=
  ⟨⟨#[], by simp⟩, fun _ _ h => h⟩

theorem Emitter.Extends.trans {e e' e'' : Emitter} (h : e.Extends e') (h' : e'.Extends e'') :
    e.Extends e'' := by
  obtain ⟨xs, hxs⟩ := h.items
  obtain ⟨ys, hys⟩ := h'.items
  exact ⟨⟨xs ++ ys, by rw [hys, hxs, Array.append_assoc]⟩, fun l i hl =>
    h'.labels l i (h.labels l i hl)⟩

theorem Emitter.extends_withOps (e : Emitter) (is : List Inst) : e.Extends (e.withOps is) :=
  ⟨⟨_, rfl⟩, fun _ _ h => h⟩

/-- The program begins with the code of the emitter and has its labels. -/
structure Emitter.Within (e : Emitter) (p : Program) : Prop where
  items : ∀ n < e.count, p.items[n]? = e.items[n]?
  labels : ∀ l i : Nat, e.labels[l]? = some (some i) → p.target l = some i

section

variable {e e' : Emitter} (h : e.Extends e')

include h

theorem Emitter.Extends.count_le : e.count ≤ e'.count := by
  obtain ⟨xs, hxs⟩ := h.items
  simp [count, hxs]

theorem Emitter.Extends.getElem? {n : Nat} {i : Item} (hi : e.items[n]? = some i) :
    e'.items[n]? = some i := by
  obtain ⟨xs, hxs⟩ := h.items
  rw [hxs, Array.getElem?_append_left (Array.getElem?_eq_some_iff.mp hi).1, hi]

theorem Emitter.Extends.within (hp : e'.Within p) : e.Within p := by
  obtain ⟨xs, hxs⟩ := h.items
  constructor
  · intro n hn
    rw [hp.items n (Nat.lt_of_lt_of_le hn h.count_le), hxs,
      Array.getElem?_append_left (show n < e.items.size from hn)]
  · intro l i hl
    exact hp.labels l i (h.labels l i hl)

end

theorem Emitter.within_program (e : Emitter) : e.Within e.program := by
  constructor
  · intro n hn
    simp only [program, closed]
    split
    · rw [Array.getElem?_push_lt (show n < e.items.size from hn),
        Array.getElem?_eq_getElem (show n < e.items.size from hn)]
    · rfl
  · intro l i hl
    simp [program, hl]

/-! ### Runs of a piece of code -/

/-- The effect of instructions one after the other. -/
def execAll (c : Surroundings) (m : State) : List Inst → Option State
  | [] => some m
  | i :: is => (exec c m i).bind fun m' => execAll c m' is

theorem execAll_append (c : Surroundings) (m : State) (is js : List Inst) :
    execAll c m (is ++ js) = (execAll c m is).bind fun m' => execAll c m' js := by
  induction is generalizing m with
  | nil => rfl
  | cons i is ih =>
    simp only [List.cons_append, execAll, Option.bind_assoc]
    congr 1
    funext m'
    exact ih m'

/-- The code between the two emitters takes a state with `A` to one with `B`, in every program
    that begins with it. -/
def Runs (c : Surroundings) (e e' : Emitter) (A B : State → Prop) : Prop :=
  ∀ p, e'.Within p → ∀ m, A m → ∃ m', Reaches c p e.count m e'.count m' ∧ B m'

theorem step_of_exec {c : Surroundings} {pc : Nat} {m m' : State} {i : Inst}
    (hitem : p.items[pc]? = some (.op i)) (hexec : exec c m i = some m') :
    step c p pc m = .go (pc + 1) m' := by
  cases i with
  | ret => cases hexec
  | _ => simp only [step, hitem, hexec]

theorem reaches_ops {c : Surroundings} {m m' : State} {e : Emitter} (hp : (e.withOps is).Within p)
    (hexec : execAll c m is = some m') : Reaches c p e.count m (e.count + is.length) m' := by
  induction is generalizing e m with
  | nil => cases hexec; exact .refl _ _
  | cons i is ih =>
    simp only [execAll, Option.bind_eq_some_iff] at hexec
    obtain ⟨m1, h1, hrest⟩ := hexec
    have hsplit : e.withOps (i :: is) = (e.withOps [i]).withOps is := by
      rw [withOps_withOps]; rfl
    have hitem : p.items[e.count]? = some (.op i) := by
      rw [hp.items e.count (by rw [count_withOps, List.length_cons]; omega)]
      simp [withOps, withItems, count]
    have hrun := ih (e := e.withOps [i]) (hsplit ▸ hp) hrest
    rw [count_withOps, List.length_singleton, Nat.add_assoc, Nat.add_comm 1] at hrun
    exact .step (step_of_exec hitem h1) hrun

namespace Runs

variable {c : Surroundings} {e e' e'' : Emitter} {A A' B B' C : State → Prop}

theorem ops (h : ∀ m, A m → ∃ m', execAll c m is = some m' ∧ B m') :
    Runs c e (e.withOps is) A B := by
  intro p hp m hm
  obtain ⟨m', hexec, hB⟩ := h m hm
  refine ⟨m', ?_, hB⟩
  rw [count_withOps]
  exact reaches_ops hp hexec

theorem none (h : ∀ m, A m → B m) : Runs c e e A B := fun _ _ m hm =>
  ⟨m, .refl _ _, h m hm⟩

theorem trans (h : Runs c e e' A B) (h' : Runs c e' e'' B C) (hext : e'.Extends e'') :
    Runs c e e'' A C := by
  intro p hp m hm
  obtain ⟨m1, hrun1, hB⟩ := h p (hext.within hp) m hm
  obtain ⟨m2, hrun2, hC⟩ := h' p hp m1 hB
  exact ⟨m2, hrun1.trans hrun2, hC⟩

theorem mono (h : Runs c e e' A B) (hA : ∀ m, A' m → A m) (hB : ∀ m, B m → B' m) :
    Runs c e e' A' B' := by
  intro p hp m hm
  obtain ⟨m', hrun, hm'⟩ := h p hp m (hA m hm)
  exact ⟨m', hrun, hB m' hm'⟩

end Runs

end Machine

namespace Gen

open Machine

/-- The state with instructions appended. -/
def withOps (s : CodeState) (is : List Inst) : CodeState :=
  { s with emitter := s.emitter.withOps is }

/-- The computation appends the given instructions and changes nothing else. -/
def Appends (x : Gen Unit) (is : List Inst) : Prop :=
  ∀ s, x s = .ok () (withOps s is)

theorem appends_emit {x : Emit Unit} {is : List Inst} (h : Emits x is) : Appends (emit x) is :=
  fun s => by
    simp only [emit, Step.within, h s.emitter]
    rfl

theorem appends_pure : Appends (pure ()) [] := fun s => by
  rw [withOps, Emitter.withOps_nil]; rfl

theorem Appends.seq {x : Gen Unit} {f : Unit → Gen Unit} {is js : List Inst} (hx : Appends x is)
    (hf : Appends (f ()) js) : Appends (x >>= f) (is ++ js) := fun s => by
  rw [Step.bind_ok (hx s), hf, withOps, withOps, withOps, Emitter.withOps_withOps]

theorem Appends.yields {x : Gen Unit} {is : List Inst} (h : Appends x is) {s : CodeState}
    {Q : Unit → CodeState → Prop} (hQ : Q () (withOps s is)) : x.Yields s Q :=
  ⟨(), _, h s, hQ⟩

end Gen

end JitBackend
