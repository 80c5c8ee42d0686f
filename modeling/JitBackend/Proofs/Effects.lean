import JitBackend.Pipeline.Assembly
import JitBackend.Proofs.Rewrites

namespace JitBackend

/-!
# Effects in pipelines

Whatever stages a pipeline has, and in whatever order, it hands on every instruction that is not
pure, once, unchanged and in its place. Stages add, drop and replace pure instructions only.

* `Buffer.effects` — the instructions of a buffer that are not pure, with their handles;
* `Chain.feed_induction` — what appending keeps, a chain keeps;
* `Chain.feed_effects` — what one instruction adds to them;
* `Pipeline.feedAll` — a sequence of instructions sent through a pipeline;
* `Pipeline.feedAll_effects` — what it adds to them.
-/

/-- Whether the instruction is free of effects, so that it may be shared, replaced or dropped. -/
def Instr.isPure (i : Instr) : Bool :=
  i.opcode.effect == .pure

/-- The instructions of a buffer with their handles, in program order. -/
def Buffer.records (b : Buffer) : List (Handle × Instr) :=
  b.instrs.toList.zipIdx.map fun r => (b.handle r.2, r.1)

/-- The instructions of a buffer that are not pure, with their handles, in program order. -/
def Buffer.effects (b : Buffer) : List (Handle × Instr) :=
  b.records.filter fun r => !r.2.isPure

/-- What an instruction leaves among the effects of a buffer if it gets this answer. -/
def Instr.trail (i : Instr) : Except Fault Handle → List (Handle × Instr)
  | .ok h => if i.isPure then [] else [(h, i)]
  | .error _ => []

@[simp] theorem Instr.trail_of_isPure {i : Instr} (h : i.isPure = true)
    (a : Except Fault Handle) : i.trail a = [] := by
  cases a <;> simp [Instr.trail, h]

theorem Buffer.effects_append (b : Buffer) (i : Instr) :
    (b.append i).2.effects = b.effects ++ i.trail (.ok b.next) := by
  have hrecords : (b.append i).2.records = b.records ++ [(b.next, i)] := by
    simp [Buffer.records, Buffer.append, Buffer.handle, Buffer.next, Buffer.size,
      List.zipIdx_append]
  rw [Buffer.effects, hrecords, List.filter_append, Buffer.effects, Instr.trail]
  by_cases h : i.isPure <;> simp [h]

/-! ### Simplification -/

/-- All that is handed on under the plan is pure. -/
def Plan.IsPure : Plan → Prop
  | .keep j | .replace j => j.isPure = true
  | .existing _ | .shiftLeft _ _ _ => True

namespace Simplify

variable {b : Buffer} {i : Instr} {p : Plan}

/-- Identities hand on constants, negations and shifts. -/
theorem Identity.isPure {op : Opcode} {x y : Handle} {u v : Option (BitVec 64)}
    (h : Identity x y u v op p) : p.IsPure := by
  cases h with
  | fold | cancel | reflexive | remOne | negate => exact rfl
  | idempotent | unit | absorb | power | shiftZero => trivial

/-- In place of a pure instruction, only pure ones are handed on. -/
theorem Rewrite.isPure (h : Rewrite b i p) (hi : i.isPure = true) : p.IsPure := by
  cases h with
  | keep | swap => exact hi
  | foldUnary => exact rfl
  | undo | choose | agree => trivial
  | binary _ _ _ h | swapped _ _ _ _ h => exact h.isPure

/-- An instruction that is not pure is handed on as it is. -/
theorem simplify_of_not_isPure (hi : i.isPure = false) : i.simplify b = .ok (.keep i) := by
  unfold Instr.simplify
  split
  all_goals first
    | rfl
    | simp_all [Instr.isPure, Opcode.effect]

end Simplify

/-- All that is handed on under the plan satisfies `Q`. -/
def Plan.All (Q : Instr → Prop) : Plan → Prop
  | .keep j | .replace j => Q j
  | .existing _ => True
  | .shiftLeft w a k => Q (.imm32 (BitVec.ofNat 32 k)) ∧ ∀ h, Q (.plain (.shift w .shl) [a, h])

/-! ### One instruction -/

section

variable {n : Nat} (r : Fed n) (next : Nat)

theorem Fed.answer_traced : (r.traced next).answer = r.answer := by
  unfold Fed.traced
  split <;> rfl

theorem Fed.buffer_traced : (r.traced next).space.buffer = r.space.buffer := by
  unfold Fed.traced
  split <;> rfl

theorem Fed.chain_traced : ∃ next', (r.traced next).chain = .stage (.trace next') r.chain := by
  unfold Fed.traced
  split
  · exact ⟨next, rfl⟩
  · exact ⟨_, rfl⟩

end

namespace Chain

variable {n : Nat}

/-- What appending keeps, a chain keeps; instructions may be restricted to those that satisfy `Q`,
    if whatever is handed on in place of one of them satisfies `Q` too. -/
theorem feed_induction {P : Buffer → Prop} {Q : Instr → Prop}
    (happend : ∀ b j, Q j → P b → P (b.append j).2)
    (hplan : ∀ b j p, Q j → j.simplify b = .ok p → p.All Q) (c : Chain n) {i : Instr} (hi : Q i)
    (w : Workspace) (hw : P w.buffer) : P (c.feed i w).space.buffer := by
  induction n generalizing i w with
  | zero =>
    cases c
    exact happend _ i hi hw
  | succ n ih =>
    cases c with | stage s rest =>
    cases s with
    | check position =>
      rw [feed]
      split
      · exact ih rest hi w hw
      · exact hw
    | trace next =>
      rw [feed, Fed.buffer_traced]
      exact ih rest hi w hw
    | simplify count =>
      rw [feed]
      split
      · exact hw
      · have hj := hplan _ _ _ hi ‹_›
        exact ih rest hj w hw
      · exact hw
      · have hj := hplan _ _ _ hi ‹_›
        exact ih rest hj (w.report _) hw
      · have hboth := hplan _ _ _ hi ‹_›
        have hhelper := ih rest hboth.1 w hw
        dsimp only
        split
        · exact hhelper
        · exact ih _ (hboth.2 _) (Workspace.report _ _) hhelper
    | share table hits =>
      rw [feed]
      split
      · exact ih rest hi w hw
      · split
        · split
          · exact hw
          · dsimp only
            split <;> exact ih rest hi w hw
        · exact ih rest hi w hw

/-- An instruction leaves itself among the effects, at the place that the answer names, unless it
    is pure. A refused one leaves nothing. -/
theorem feed_effects (c : Chain n) (i : Instr) (w : Workspace) :
    (c.feed i w).space.buffer.effects = w.buffer.effects ++ i.trail (c.feed i w).answer := by
  -- on the length: the shift that stands for a multiplication meets the chain that the constant
  -- before it has left behind
  induction n generalizing i w with
  | zero =>
    cases c
    exact w.buffer.effects_append i
  | succ n ih =>
    cases c with | stage s rest =>
    cases s with
    | check position =>
      rw [feed]
      split
      · exact ih rest i w
      · exact (List.append_nil _).symm
    | trace next =>
      rw [feed, Fed.buffer_traced, Fed.answer_traced]
      exact ih rest i w
    | simplify count =>
      rw [feed]
      cases hi : i.isPure with
      | false =>
        rw [Simplify.simplify_of_not_isPure hi]
        exact ih rest i w
      | true =>
        rw [Instr.trail_of_isPure hi, List.append_nil]
        have hpass : ∀ (c : Chain n) (j : Instr) (v : Workspace), j.isPure = true →
            (c.feed j v).space.buffer.effects = v.buffer.effects := by
          intro c j v hj
          rw [ih c j v, Instr.trail_of_isPure hj, List.append_nil]
        split
        · rfl
        · rename_i j hj
          exact hpass rest j w ((Simplify.rewrite_of_simplify hj).isPure hi)
        · rfl
        · rename_i j hj
          exact hpass rest j _ ((Simplify.rewrite_of_simplify hj).isPure hi)
        · have hhelper := hpass rest (.imm32 (BitVec.ofNat 32 ‹Nat›)) w rfl
          dsimp only
          split
          · exact hhelper
          · exact (hpass _ _ _ rfl).trans hhelper
    | share table hits =>
      rw [feed]
      split
      · exact ih rest i w
      · split
        · rename_i hpure
          split
          · rw [Instr.trail_of_isPure hpure]
            exact (List.append_nil _).symm
          · dsimp only
            split <;> exact ih rest i w
        · exact ih rest i w

end Chain

/-! ### Sequences of instructions -/

namespace Pipeline

/-- Sends instructions through the pipeline one after another; the answers are in the same order.
    The first fault ends it. -/
def feedAll (p : Pipeline) (w : Workspace) :
    List Instr → Except Fault (List Handle × Pipeline × Workspace)
  | [] => .ok ([], p, w)
  | i :: is =>
    match p.feed i w with
    | (.error f, _, _) => .error f
    | (.ok h, p', w') => do
      let (hs, r) ← p'.feedAll w' is
      return (h :: hs, r)

theorem feedAll_cons_eq_ok {p q : Pipeline} {w v : Workspace} {i : Instr} {is : List Instr}
    {hs : List Handle} (h : p.feedAll w (i :: is) = .ok (hs, q, v)) :
    ∃ h' hs' p' w', p.feed i w = (.ok h', p', w') ∧ p'.feedAll w' is = .ok (hs', q, v) ∧
      hs = h' :: hs' := by
  rw [feedAll] at h
  split at h
  · cases h
  · rename_i h' p' w' hfeed
    cases hrest : p'.feedAll w' is with
    | error f => rw [hrest] at h; cases h
    | ok r =>
      obtain ⟨hs', q', v'⟩ := r
      rw [hrest] at h
      cases h
      exact ⟨h', hs', p', w', hfeed, hrest, rfl⟩

section

variable {p q : Pipeline} {w v : Workspace} {is : List Instr} {hs : List Handle}
  (h : p.feedAll w is = .ok (hs, q, v))

include h

/-- What a sequence of instructions leaves among the effects. -/
theorem effects_of_feedAll :
    v.buffer.effects = w.buffer.effects ++ (hs.zip is).filter fun r => !r.2.isPure := by
  induction is generalizing p w hs with
  | nil =>
    cases h
    rw [List.zip_nil_right, List.filter_nil, List.append_nil]
  | cons i is ih =>
    obtain ⟨h', hs', p', w', hfeed, hrest, rfl⟩ := feedAll_cons_eq_ok h
    have hone : w'.buffer.effects = w.buffer.effects ++ i.trail (.ok h') := by
      obtain ⟨hanswer, rfl, rfl⟩ := Prod.mk.injEq _ _ _ _ ▸ hfeed
      exact hanswer ▸ p.chain.feed_effects i w
    rw [ih hrest, hone, List.append_assoc, List.zip_cons_cons, List.filter_cons, Instr.trail]
    cases i.isPure <;> rfl

/-- There is an answer for each instruction. -/
theorem length_of_feedAll : hs.length = is.length := by
  induction is generalizing p w hs with
  | nil => cases h; rfl
  | cons i is ih =>
    obtain ⟨h', hs', p', w', -, hrest, rfl⟩ := feedAll_cons_eq_ok h
    rw [List.length_cons, List.length_cons, ih hrest]

end

/-- A pipeline of any stages in any order keeps effects. The instructions that are not pure are,
    in the buffer, the ones that were sent, in their order and unchanged, each at the place that
    its answer names. -/
theorem feedAll_effects (stages : List Stage) (id : Nat) (log : Log) (is : List Instr)
    {hs : List Handle} {q : Pipeline} {v : Workspace}
    (h : (ofStages stages).feedAll ⟨.empty id, log⟩ is = .ok (hs, q, v)) :
    v.buffer.effects = (hs.zip is).filter (fun r => !r.2.isPure) ∧
      (v.buffer.instrs.toList.filter fun i => !i.isPure) = is.filter fun i => !i.isPure := by
  have heffects := effects_of_feedAll h
  refine ⟨heffects, ?_⟩
  have hmap : ∀ (rs : List (Handle × Instr)),
      (rs.filter fun r => !r.2.isPure).map Prod.snd
        = (rs.map Prod.snd).filter fun i => !i.isPure := by
    intro rs
    rw [List.filter_map]
    rfl
  have hrecords : v.buffer.records.map Prod.snd = v.buffer.instrs.toList := by
    rw [Buffer.records, List.map_map]
    exact List.zipIdx_map_fst 0 _
  calc (v.buffer.instrs.toList.filter fun i => !i.isPure)
      = v.buffer.effects.map Prod.snd := by rw [Buffer.effects, hmap, hrecords]
    _ = ((hs.zip is).map Prod.snd).filter fun i => !i.isPure := by rw [heffects, ← hmap]; rfl
    _ = is.filter fun i => !i.isPure := by
      rw [List.map_snd_zip (Nat.le_of_eq (length_of_feedAll h).symm)]

/-- Stores eight times a parameter, with the constant eight made twice. -/
def scaledStore : List Instr :=
  [.plain .start [], ⟨.param, .empty, .param 0⟩, .const (.int64 8), .const (.int64 8),
    .plain (.arith .w64 .mul) [⟨0, 1⟩, ⟨0, 2⟩],
    ⟨.store (.value .int64), .ofList [⟨0, 4⟩, ⟨0, 1⟩], .disp 0⟩, .plain (.ret .int64) [⟨0, 4⟩]]

/-- The second constant is dropped and the multiplication becomes a shift; the rest stays. -/
theorem feedAll_effects_scaledStore :
    ∃ q v, (ofStages [.share .empty 0, .simplify 0, .check "end"]).feedAll ⟨.empty 0, #[]⟩
        scaledStore = .ok ([⟨0, 0⟩, ⟨0, 1⟩, ⟨0, 2⟩, ⟨0, 2⟩, ⟨0, 4⟩, ⟨0, 5⟩, ⟨0, 6⟩], q, v) ∧
      v.buffer.effects =
        [(⟨0, 0⟩, .plain .start []), (⟨0, 1⟩, ⟨.param, .empty, .param 0⟩),
          (⟨0, 5⟩, ⟨.store (.value .int64), .ofList [⟨0, 4⟩, ⟨0, 1⟩], .disp 0⟩),
          (⟨0, 6⟩, .plain (.ret .int64) [⟨0, 4⟩])] := by
  obtain ⟨q, v, h⟩ : ∃ q v,
      (ofStages [.share .empty 0, .simplify 0, .check "end"]).feedAll ⟨.empty 0, #[]⟩ scaledStore
        = .ok ([⟨0, 0⟩, ⟨0, 1⟩, ⟨0, 2⟩, ⟨0, 2⟩, ⟨0, 4⟩, ⟨0, 5⟩, ⟨0, 6⟩], q, v) := ⟨_, _, rfl⟩
  exact ⟨q, v, h, (feedAll_effects _ 0 #[] _ h).1⟩

end Pipeline

end JitBackend
