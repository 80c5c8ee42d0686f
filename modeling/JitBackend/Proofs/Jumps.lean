import JitBackend.Proofs.Emission

namespace JitBackend.Machine

/-!
# Labels and jumps in emitted code

How labels are created and bound, and where jumps go.

* `newLabel_ok`, `jump_ok`, `bind_yields` — what the operations do to the code;
* `Runs.bound` — control runs through a label;
* `step_jump`, `step_branch` — the steps of a jump.
-/

namespace Emitter

variable {e : Emitter} {l : Nat}

/-- The emitter with a jump appended. -/
def withJump (e : Emitter) (cond : Option Cond) (l : Nat) : Emitter :=
  e.withItems (e.items.push (.jump cond l)) (by simp)

theorem newLabel_ok (e : Emitter) : newLabel e = .ok e.labels.size e.withLabel := rfl

theorem checkLabel_ok (h : l < e.labels.size) : checkLabel l e = .ok () e := by
  rw [checkLabel, Step.bind_get]; simp only [h]; rfl

theorem jmp_ok (h : l < e.labels.size) : jmp l e = .ok () (e.withJump none l) := by
  rw [jmp, Step.bind_ok (checkLabel_ok h)]
  rfl

theorem jcc_ok (h : l < e.labels.size) (cond : Cond) :
    jcc cond l e = .ok () (e.withJump (some cond) l) := by
  rw [jcc, Step.bind_ok (checkLabel_ok h)]
  rfl

@[simp] theorem count_withJump (e : Emitter) (cond : Option Cond) (l : Nat) :
    (e.withJump cond l).count = e.count + 1 := by
  simp [withJump, withItems, count]

theorem extends_withLabel (e : Emitter) : e.Extends e.withLabel := by
  refine ⟨⟨#[], by simp [withLabel]⟩, fun l i hl => ?_⟩
  have hlt := (Array.getElem?_eq_some_iff.mp hl).1
  rw [withLabel, Array.getElem?_push_lt hlt, ← Array.getElem?_eq_getElem hlt]
  exact hl

theorem extends_withJump (e : Emitter) (cond : Option Cond) (l : Nat) :
    e.Extends (e.withJump cond l) :=
  ⟨⟨#[.jump cond l], by simp [withJump, withItems]⟩, fun _ _ h => h⟩

theorem jump_mem_withJump {cond cond' : Option Cond} {l' : Nat} :
    .jump cond l ∈ (e.withJump cond' l').items ↔
      .jump cond l ∈ e.items ∨ cond = cond' ∧ l = l' := by
  simp [withJump, withItems]

theorem Within.jump {cond : Option Cond} {p : Program} (h : (e.withJump cond l).Within p) :
    p.items[e.count]? = some (.jump cond l) := by
  rw [h.items e.count (by simp)]
  simp [withJump, withItems, count]

/-- The label was bound to the end of the code. -/
structure Bound (l : Nat) (e e' : Emitter) : Prop where
  code : ∃ is : List Inst, (∀ i ∈ is, i = .nop) ∧ e'.items = (e.withOps is).items
  labels : e'.labels = e.labels.setIfInBounds l (some e'.count)

/-- The emitter with an instruction without effect at the end, if a label is bound there. -/
def padded (e : Emitter) : Emitter :=
  e.withOps (if e.lastBound = some e.count then [.nop] else [])

theorem items_padded (e : Emitter) : e.padded.items = e.closed := by
  unfold padded closed
  split <;> simp [withOps, withItems]

/-- With that, no label waits for an item. -/
theorem place_lt {n : Nat} (hn : e.labels[l]? = some (some n)) : n < e.closed.size := by
  have hle : n ≤ e.count := (e.placed l n hn).elim Nat.le_of_lt (e.last_le n)
  unfold closed
  split
  case isTrue => rw [Array.size_push]; exact Nat.lt_succ_of_le hle
  case isFalse hlast =>
    refine Nat.lt_of_le_of_ne hle ?_
    rintro rfl
    exact (e.placed l _ hn).elim (Nat.lt_irrefl _) hlast

/-- The emitter with a label bound, after an instruction without effect where one is needed. -/
def withBound (e : Emitter) (l : Nat) : Emitter :=
  e.padded.withPlace l

theorem items_withBound (e : Emitter) (l : Nat) : (e.withBound l).items = e.closed :=
  items_padded e

theorem not_waiting (e : Emitter) : e.labels.contains (some e.closed.size) = false := by
  rw [Array.contains_eq_any_beq, Array.any_eq_false]
  intro k hk heq
  have hk' : e.labels[k]? = some (some e.closed.size) :=
    Array.getElem?_eq_some_iff.mpr ⟨hk, (beq_iff_eq.mp heq).symm⟩
  exact Nat.lt_irrefl _ (place_lt hk')

/-- There is always room for a label. -/
theorem setLabel_padded (e : Emitter) (l : Nat) :
    setLabel l e.padded = .ok () (e.withBound l) := by
  have hfree : e.padded.labels.contains (some e.padded.count) = false := by
    rw [count, items_padded]
    exact not_waiting e
  rw [setLabel, Step.bind_get, hfree]
  rfl

theorem bind_eq_ok {e' : Emitter} :
    bind l e = .ok () e' ↔ e.labels[l]? = some none ∧ e' = e.withBound l := by
  have hbind : bind l e = (if e.labels[l]? = some none then setLabel l
      else Step.fail .invalidLabel) e.padded := by
    rw [bind, Step.bind_get, Step.bind_get, padded]
    have hlabels : (e.withOps [.nop]).labels = e.labels := rfl
    split
    · rw [Step.bind_ok (emits_emit .nop e)]
      simp only [Step.bind_get, hlabels]
      rcases e.labels[l]? with _ | _ | n <;> rfl
    · simp only [withOps_nil, Step.bind_get]
      rcases e.labels[l]? with _ | _ | n <;> rfl
  rw [hbind]
  rcases e.labels[l]? with _ | _ | n
  · exact ⟨fun h => (by cases h), fun h => (by cases h.1)⟩
  · refine ⟨fun h => ?_, fun h => h.2 ▸ setLabel_padded e l⟩
    cases (setLabel_padded e l).symm.trans h
    exact ⟨rfl, rfl⟩
  · exact ⟨fun h => (by cases h), fun h => (by cases h.1)⟩

theorem bound_withBound (e : Emitter) (l : Nat) : Bound l e (e.withBound l) :=
  ⟨⟨_, by split <;> simp, rfl⟩, rfl⟩

theorem bind_yields (h : e.labels[l]? = some none) :
    (bind l).Yields e fun _ e' => Bound l e e' :=
  ⟨(), _, bind_eq_ok.mpr ⟨h, rfl⟩, bound_withBound e l⟩

namespace Bound

variable {e' : Emitter}

theorem self (h : Bound l e e') (hl : e.labels[l]? = some none) :
    e'.labels[l]? = some (some e'.count) := by
  have hlt := (Array.getElem?_eq_some_iff.mp hl).1
  rw [h.labels, Array.getElem?_setIfInBounds_self_of_lt hlt]

theorem other (h : Bound l e e') {l' : Nat} (hne : l' ≠ l) : e'.labels[l']? = e.labels[l']? := by
  rw [h.labels, Array.getElem?_setIfInBounds_ne (Ne.symm hne)]

theorem jump_mem (h : Bound l e e') {cond : Option Cond} {l' : Nat} :
    .jump cond l' ∈ e'.items ↔ .jump cond l' ∈ e.items := by
  obtain ⟨is, -, his⟩ := h.code
  rw [his, jump_mem_withOps]

theorem grows (h : Bound l e e') (hl : e.labels[l]? = some none) : e.Extends e' := by
  obtain ⟨is, -, his⟩ := h.code
  refine ⟨⟨_, his⟩, fun l' i hi => ?_⟩
  by_cases hne : l' = l
  · rw [hne, hl] at hi; cases hi
  · rw [h.other hne]; exact hi

end Bound

end Emitter

theorem execAll_nops {c : Surroundings} {m : State} {is : List Inst} (h : ∀ i ∈ is, i = .nop) :
    execAll c m is = some m := by
  induction is with
  | nil => rfl
  | cons i is ih =>
    obtain rfl := h i (by simp)
    exact ih fun j hj => h j (by simp [hj])

/-- Control runs through a label. -/
theorem Runs.bound {c : Surroundings} {e e' : Emitter} {l : Nat} (h : Emitter.Bound l e e')
    (hl : e.labels[l]? = some .none) (A : State → Prop) : Runs c e e' A A := by
  intro p hp m hm
  obtain ⟨is, hnop, his⟩ := h.code
  have hcount : e'.count = e.count + is.length := by
    rw [← Emitter.count_withOps, Emitter.count, his]; rfl
  have hext : (e.withOps is).Extends e' :=
    ⟨⟨#[], by simp [his]⟩, (h.grows hl).labels⟩
  exact ⟨m, hcount ▸ reaches_ops (hext.within hp) (execAll_nops hnop), hm⟩

variable {c : Surroundings} {p : Program} {pc l t : Nat} {m : State} {cond : Cond}

theorem step_jump (hitem : p.items[pc]? = some (.jump none l)) (ht : p.target l = some t) :
    step c p pc m = .go t m := by
  simp only [step, hitem, Program.goto, ht]

/-- A conditional jump whose condition holds goes to its label, another one goes on. -/
theorem step_branch {f : Flags} (hitem : p.items[pc]? = some (.jump (some cond) l))
    (hf : m.flags = some f) :
    (cond.holds f = true → p.target l = some t → step c p pc m = .go t m) ∧
      (cond.holds f = false → step c p pc m = .go (pc + 1) m) := by
  constructor
  · intro hc ht
    simp only [step, hitem, hf, hc, if_true, Program.goto, ht]
  · intro hc
    simp only [step, hitem, hf, hc, Bool.false_eq_true, if_false]

/-- The code between the two emitters takes a state with `A` to where a label is, and to one with
    `B`, in every program that begins with it. -/
def Leads (c : Surroundings) (e e' : Emitter) (l : Nat) (A B : State → Prop) : Prop :=
  ∀ p t, e'.Within p → p.target l = some t → ∀ m, A m → ∃ m', Reaches c p e.count m t m' ∧ B m'

variable {e e1 e' : Emitter} {A B : State → Prop}

/-- Code that ends in a jump. -/
theorem Runs.jump (h : Runs c e e1 A B) (hext : (e1.withJump .none l).Extends e') :
    Leads c e e' l A B := by
  intro p t hp ht m hm
  have hp1 := hext.within hp
  obtain ⟨m', hrun, hB⟩ := h p ((Emitter.extends_withJump e1 _ _).within hp1) m hm
  exact ⟨m', hrun.trans (.step (step_jump hp1.jump ht) (.refl _ _)), hB⟩

/-- Code that ends in a conditional jump which is taken. -/
theorem Runs.taken (h : Runs c e e1 A B)
    (hcond : ∀ m, B m → ∃ f, m.flags = some f ∧ cond.holds f = true)
    (hext : (e1.withJump (some cond) l).Extends e') : Leads c e e' l A B := by
  intro p t hp ht m hm
  have hp1 := hext.within hp
  obtain ⟨m', hrun, hB⟩ := h p ((Emitter.extends_withJump e1 _ _).within hp1) m hm
  obtain ⟨f, hf, hc⟩ := hcond m' hB
  exact ⟨m', hrun.trans (.step ((step_branch hp1.jump hf).1 hc ht) (.refl _ _)), hB⟩

/-- Code that ends in a conditional jump which is not taken. -/
theorem Runs.passed (h : Runs c e e1 A B)
    (hcond : ∀ m, B m → ∃ f, m.flags = some f ∧ cond.holds f = false) :
    Runs c e (e1.withJump (some cond) l) A B := by
  intro p hp m hm
  obtain ⟨m', hrun, hB⟩ := h p ((Emitter.extends_withJump e1 _ _).within hp) m hm
  obtain ⟨f, hf, hc⟩ := hcond m' hB
  refine ⟨m', hrun.trans ?_, hB⟩
  rw [Emitter.count_withJump]
  exact .step ((step_branch (t := 0) hp.jump hf).2 hc) (.refl _ _)

/-- Code in front of code that leads to a label. -/
theorem Runs.leads {C : State → Prop} (h : Runs c e e1 A B) (h' : Leads c e1 e' l B C)
    (hext : e1.Extends e') : Leads c e e' l A C := by
  intro p t hp ht m hm
  obtain ⟨m1, hrun, hB⟩ := h p (hext.within hp) m hm
  obtain ⟨m2, hrun', hC⟩ := h' p t hp ht m1 hB
  exact ⟨m2, hrun.trans hrun', hC⟩

/-- More code may follow. -/
theorem Leads.extend {e'' : Emitter} (h : Leads c e e' l A B) (hext : e'.Extends e'') :
    Leads c e e'' l A B := fun p t hp => h p t (hext.within hp)

theorem Leads.mono {A' B' : State → Prop} (h : Leads c e e' l A B) (hA : ∀ m, A' m → A m)
    (hB : ∀ m, B m → B' m) : Leads c e e' l A' B' := by
  intro p t hp ht m hm
  obtain ⟨m', hrun, hm'⟩ := h p t hp ht m (hA m hm)
  exact ⟨m', hrun, hB m' hm'⟩

end JitBackend.Machine

namespace JitBackend.Gen

theorem emit_ok {α : Type} {x : Machine.Emit α} {s : CodeState} {a : α} {e : Machine.Emitter}
    (h : x s.emitter = .ok a e) : emit x s = .ok a { s with emitter := e } := by
  simp only [emit, Step.within, h]

theorem emit_yields {α : Type} {x : Machine.Emit α} {s : CodeState}
    {Q : α → CodeState → Prop} (h : x.Yields s.emitter fun a e => Q a { s with emitter := e }) :
    (emit x).Yields s Q :=
  Step.yields_within h

end JitBackend.Gen
