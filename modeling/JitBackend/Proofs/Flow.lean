import JitBackend.Buffer

namespace JitBackend

/-!
# Control flow

Where control goes in linear code, and what lies on every way to a position. Control falls
through to the next instruction or goes to the label that a jump is bound to; a jump that is
bound to nothing, or to something other than a label, leads nowhere.

* `Buffer.successors` — where control may go, `Buffer.Path` — the ways from the start;
* `Buffer.Precedes` — a position lies on every way to another one;
* `Buffer.Precedes.trans`, `Buffer.Precedes.asymm` — an order among the positions in reach;
* `Buffer.precedes_next` — code without labels is run in order;
* `Buffer.DefinesBeforeUse` — every value is there whenever it is used.
-/

/-! ### Labels and targets -/

/-- There is a label at the position. -/
def Buffer.IsLabel (b : Buffer) (p : Nat) : Prop :=
  b.instrs[p]?.map Instr.opcode = some .label

instance (b : Buffer) (p : Nat) : Decidable (b.IsLabel p) :=
  inferInstanceAs (Decidable (_ = _))

theorem Buffer.isLabel_iff {b : Buffer} {k : Nat} {i : Instr} (hi : b.instrs[k]? = some i) :
    b.IsLabel k ↔ i.opcode = .label := by
  rw [Buffer.IsLabel, hi]
  exact Option.some_inj

theorem Buffer.IsLabel.lt {b : Buffer} {p : Nat} (hp : b.IsLabel p) : p < b.size := by
  obtain ⟨i, hi, -⟩ := Option.map_eq_some_iff.mp hp
  exact Buffer.lt_size hi

/-- Jumps can go there: it is a label of the buffer. -/
def Buffer.IsTarget (b : Buffer) (target : Option Handle) : Prop :=
  ∃ h, target = some h ∧ h.buffer = b.id ∧ b.IsLabel h.index

/-- The targets that an instruction may jump to. -/
def Instr.targets (i : Instr) : List (Option Handle) :=
  match i.payload with
  | .target t => [t]
  | .table cells => (Cell.labels cells).toList
  | _ => []

/-- Whether control may go on with the next instruction. -/
def Opcode.fallsThrough : Opcode → Bool
  | .jump | .jumpTable | .ret _ | .exit => false
  | _ => true

namespace Buffer

variable {b : Buffer} {i j k k' : Nat} {ps : List Nat}

/-- The labels of the buffer among the targets of an instruction. -/
def landings (b : Buffer) (i : Instr) : List Nat :=
  i.targets.filterMap fun t => t.bind fun h =>
    if h.buffer = b.id ∧ b.IsLabel h.index then some h.index else none

/-- The positions where control may go after the instruction at `k`. -/
def successors (b : Buffer) (k : Nat) : List Nat :=
  match b.instrs[k]? with
  | some i => (if i.opcode.fallsThrough then [k + 1] else []) ++ b.landings i
  | none => []

theorem mem_landings {i : Instr} {p : Nat} : p ∈ b.landings i ↔
    ∃ h, some h ∈ i.targets ∧ h.buffer = b.id ∧ b.IsLabel h.index ∧ h.index = p := by
  simp only [landings, List.mem_filterMap, Option.bind_eq_some_iff, Option.ite_none_right_eq_some,
    Option.some.injEq]
  constructor
  · rintro ⟨_, ht, h, rfl, ⟨hid, hl⟩, hp⟩
    exact ⟨h, ht, hid, hl, hp⟩
  · rintro ⟨h, ht, hid, hl, hp⟩
    exact ⟨some h, ht, h, rfl, ⟨hid, hl⟩, hp⟩

theorem next_mem_successors {i : Instr} (hi : b.instrs[k]? = some i)
    (h : i.opcode.fallsThrough = true) : k + 1 ∈ b.successors k := by
  rw [successors, hi]
  simp [h]

theorem landing_mem_successors {i : Instr} {h : Handle} (hi : b.instrs[k]? = some i)
    (ht : some h ∈ i.targets) (hid : h.buffer = b.id) (hl : b.IsLabel h.index) :
    h.index ∈ b.successors k := by
  rw [successors, hi]
  exact List.mem_append_right _ (mem_landings.mpr ⟨h, ht, hid, hl, rfl⟩)

/-- Control gets to something other than a label from the instruction before it only. -/
theorem eq_of_mem_successors (h : k' ∈ b.successors k) (hl : ¬b.IsLabel k') : k' = k + 1 := by
  unfold successors at h
  split at h
  · rcases List.mem_append.mp h with h | h
    · split at h
      · exact List.mem_singleton.mp h
      · cases h
    · obtain ⟨t, -, -, ht, rfl⟩ := mem_landings.mp h
      exact absurd ht hl
  · cases h

/-! ### Ways from the start -/

/-- A way from the start to a position, with the positions passed on it, the latest first. -/
inductive Path (b : Buffer) : List Nat → Nat → Prop where
  | start : Path b [] 0
  | step {ps : List Nat} {k k' : Nat} (h : Path b ps k) (hk : k' ∈ b.successors k) :
      Path b (k :: ps) k'

/-- A way to `k` has a shorter one to each position on it. -/
theorem Path.upTo (h : b.Path ps k) (hj : j ∈ ps) :
    ∃ qs, b.Path qs j ∧ qs ⊆ ps ∧ qs.length < ps.length := by
  induction h with
  | start => cases hj
  | @step ps k k' h hk ih =>
    rcases List.mem_cons.mp hj with rfl | hj
    · exact ⟨ps, h, List.subset_cons_self _ _, Nat.lt_succ_self _⟩
    · obtain ⟨qs, hqs, hsub, hlen⟩ := ih hj
      exact ⟨qs, hqs, fun x hx => List.mem_cons_of_mem _ (hsub hx), Nat.lt_succ_of_lt hlen⟩

/-- Every way to `k` passes `j` before. -/
def Precedes (b : Buffer) (j k : Nat) : Prop :=
  ∀ ps, b.Path ps k → j ∈ ps

namespace Precedes

theorem trans (hij : b.Precedes i j) (hjk : b.Precedes j k) : b.Precedes i k := by
  intro ps hps
  obtain ⟨qs, hqs, hsub, -⟩ := hps.upTo (hjk ps hps)
  exact hsub (hij qs hqs)

/-- Of two positions, one of them in reach, at most one comes before the other: a way to `k`
    would pass `j`, with `k` before it, and so there would be ever shorter ways to `k`. -/
theorem asymm (hjk : b.Precedes j k) (hk : b.Path ps k) : ¬b.Precedes k j := by
  intro hkj
  induction hn : ps.length using Nat.strongRecOn generalizing ps with
  | ind n ih =>
    obtain ⟨qs, hqs, -, hlt⟩ := hk.upTo (hjk ps hk)
    obtain ⟨rs, hrs, -, hlt'⟩ := hqs.upTo (hkj qs hqs)
    exact ih rs.length (by omega) hrs rfl

theorem irrefl (hk : b.Path ps k) : ¬b.Precedes k k :=
  fun h => h.asymm hk h

/-- What comes before a successor comes before the position or is it. -/
theorem of_successor (h : b.Precedes j k') (hk : k' ∈ b.successors k) :
    b.Precedes j k ∨ j = k := by
  rcases Nat.decEq j k with hne | rfl
  · refine .inl fun ps hps => ?_
    rcases List.mem_cons.mp (h _ (hps.step hk)) with heq | hmem
    · exact absurd heq hne
    · exact hmem
  · exact .inr rfl

end Precedes

/-- Control gets to an instruction that is not a label through the one before it. -/
theorem precedes_next (hl : ¬b.IsLabel (k + 1)) (h : b.Precedes j k ∨ j = k) :
    b.Precedes j (k + 1) := by
  intro ps hps
  cases hps with
  | step hprev hk =>
    have heq := Nat.succ.inj (eq_of_mem_successors hk hl)
    subst heq
    rcases h with h | rfl
    · exact List.mem_cons_of_mem _ (h _ hprev)
    · exact List.mem_cons_self

/-! ### Values and their uses -/

/-- On every way to an instruction, what it reads has been passed. -/
def DefinesBeforeUse (b : Buffer) : Prop :=
  ∀ (k : Nat) (i : Instr), b.instrs[k]? = some i → ∀ h ∈ i.operandList ++ i.callArgs,
    b.Precedes h.index k

/-- `there v k` says which values are there before the instruction at position `k`: all that it
    reads, and a value comes to be there at its own instruction only. -/
structure Supplies (b : Buffer) (there : Nat → Nat → Prop) : Prop where
  read : ∀ (k : Nat) (i : Instr), b.instrs[k]? = some i → ∀ h ∈ i.operandList ++ i.callArgs,
    there h.index k
  kept : ∀ {v k k' : Nat}, there v k' → k' ∈ b.successors k → there v k ∨ v = k

theorem DefinesBeforeUse.supplies (h : b.DefinesBeforeUse) : b.Supplies b.Precedes :=
  ⟨h, Precedes.of_successor⟩

/-- Lists of positions, one for each position, that are passed on every way: nothing at the
    start, and at most one more from a position to its successors. -/
def Passed (b : Buffer) (passed : List (List Nat)) : Prop :=
  passed.getD 0 [] = [] ∧ ∀ k < b.size, ∀ k' ∈ b.successors k,
    ∀ j ∈ passed.getD k' [], j = k ∨ j ∈ passed.getD k []

instance (b : Buffer) (passed : List (List Nat)) : Decidable (b.Passed passed) :=
  inferInstanceAs (Decidable (_ ∧ _))

theorem Passed.precedes {passed : List (List Nat)} (h : b.Passed passed)
    (hj : j ∈ passed.getD k []) : b.Precedes j k := by
  intro ps hps
  induction hps generalizing j with
  | start => rw [h.1] at hj; cases hj
  | @step ps k k' hps hk ih =>
    have hlt : k < b.size := by
      unfold successors at hk
      split at hk
      · exact (Array.getElem?_eq_some_iff.mp ‹_›).1
      · cases hk
    rcases h.2 k hlt k' hk j hj with rfl | hj
    · exact List.mem_cons_self
    · exact List.mem_cons_of_mem _ (ih hj)

/-- Lists of passed positions that name all that is read show that values are there when used. -/
theorem Passed.definesBeforeUse {passed : List (List Nat)} (h : b.Passed passed)
    (huse : ∀ k (hk : k < b.instrs.size), ∀ h ∈ b.instrs[k].operandList ++ b.instrs[k].callArgs,
      h.index ∈ passed.getD k []) : b.DefinesBeforeUse := by
  intro k i hi x hx
  obtain ⟨hk, rfl⟩ := Array.getElem?_eq_some_iff.mp hi
  exact h.precedes (huse k hk x hx)

end Buffer

end JitBackend
