import JitBackend.Proofs.Blindness
import JitBackend.Proofs.Rendering

namespace JitBackend

/-!
# What is traced

A tracing stage reports the lines of the buffer that it has not reported yet, once an instruction
has come through. Stages in front of it may answer without it or send more than one instruction,
stages behind it only check. So whatever is sent, it has reported all lines of the buffer, each
once and in order.

* `Chain.Traces` — a chain with such a stage, which has reported so many lines;
* `Chain.feed_traced` — sending an instruction reports the lines that are new;
* `Buffer.Recorded` — the lines of a buffer that grows and changes, each as it stood when it was
  new.
-/

namespace Buffer

variable {b b' : Buffer} {n : Nat}

/-- The lines from a position on. -/
def linesFrom (b : Buffer) (n : Nat) : List String :=
  (List.range' n (b.size - n)).map b.line

theorem linesFrom_size (b : Buffer) : b.linesFrom b.size = [] := by
  rw [linesFrom, Nat.sub_self]
  rfl

theorem Extends.size_le (h : b.Extends b') : b.size ≤ b'.size := by
  refine Nat.le_of_not_lt fun hlt => ?_
  have hat := Array.getElem?_eq_getElem hlt
  have hlt' := (Array.getElem?_eq_some_iff.mp (h.instr _ _ hat)).1
  exact Nat.lt_irrefl _ hlt'

/-- Lines that are there stay when instructions are appended. -/
theorem Extends.line (h : b.Extends b') {k : Nat} (hk : k < b.size) : b'.line k = b.line k := by
  have hat := Array.getElem?_eq_getElem hk
  rw [Buffer.line, Buffer.line, h.instr _ _ hat, hat]
  show Instr.text _ _ = Instr.text _ _
  rw [handle, handle, h.id]

theorem Extends.linesFrom (h : b.Extends b') (hn : n ≤ b.size) :
    b'.linesFrom n = b.linesFrom n ++ b'.linesFrom b.size := by
  have hsize := h.size_le
  have hsplit : List.range' n (b'.size - n)
      = List.range' n (b.size - n) ++ List.range' b.size (b'.size - b.size) := by
    rw [show b'.size - n = (b.size - n) + (b'.size - b.size) by omega, ← List.range'_append_1,
      show n + (b.size - n) = b.size by omega]
  rw [Buffer.linesFrom, hsplit, List.map_append, Buffer.linesFrom, Buffer.linesFrom]
  congr 1
  refine List.map_congr_left fun k hk => h.line ?_
  have hk' := List.mem_range'_1.mp hk
  omega

end Buffer

/-! ### Chains -/

theorem Log.traced_append (l : Log) (es : List Event) :
    Log.traced (l ++ es) = Log.traced l ++ es.filterMap Event.line? := by
  rw [Log.traced, Log.traced, Array.toList_appendList, List.filterMap_append]

theorem Log.traced_lines (ls : List String) : (ls.map Event.appended).filterMap Event.line? = ls := by
  rw [List.filterMap_map]
  exact List.filterMap_some

/-- Whether the stage only checks. -/
def Stage.isCheck : Stage → Bool
  | .check _ => true
  | _ => false

namespace Chain

/-- The chain traces what it appends, and has traced `size` lines. Behind the stage that traces
    are only checks. -/
def Traces (size : Nat) : {n : Nat} → Chain n → Prop
  | _, .sink => False
  | _, .stage (.trace next) rest => next = size ∧ ∀ s ∈ rest.toList, s.isCheck = true
  | _, .stage _ rest => rest.Traces size

/-- Checks append an instruction, or do nothing. -/
theorem feed_checks {n : Nat} {c : Chain n} (hc : ∀ s ∈ c.toList, s.isCheck = true) (i : Instr)
    (w : Workspace) :
    (∃ f, c.feed i w = ⟨.error f, c, w⟩) ∨
      ∃ h, c.feed i w = ⟨.ok h, c, { w with buffer := (w.buffer.append i).2 }⟩ := by
  induction c with
  | sink => exact .inr ⟨_, rfl⟩
  | stage s rest ih =>
    obtain ⟨hs, hrest⟩ := List.forall_mem_cons.mp hc
    cases s with
    | check position =>
      rw [feed]
      cases i.check w.buffer with
      | error d => exact .inl ⟨_, rfl⟩
      | ok u =>
        rcases ih hrest with ⟨f, hfeed⟩ | ⟨h, hfeed⟩
        · exact .inl ⟨f, by rw [hfeed]; rfl⟩
        · exact .inr ⟨h, by rw [hfeed]; rfl⟩
    | simplify count => cases hs
    | share table hits => cases hs
    | trace next => cases hs

end Chain

/-- The lines that are new since `w` were traced, and no others. -/
structure Fed.Reported {n : Nat} (r : Fed n) (w : Workspace) : Prop where
  chain : r.chain.Traces r.space.buffer.size
  lines : Log.traced r.space.log
    = Log.traced w.log ++ r.space.buffer.linesFrom w.buffer.size

namespace Fed.Reported

variable {n : Nat} {r r' : Fed n} {w : Workspace}

/-- Nothing is new. -/
theorem answered {c : Chain n} (hc : c.Traces w.buffer.size) (a : Except Fault Handle) :
    (c.answer w a).Reported w := by
  refine ⟨hc, ?_⟩
  rw [Chain.answer, Buffer.linesFrom_size, List.append_nil]

/-- A report of another kind came before. -/
theorem report {e : Event} (h : r.Reported (w.report e)) (he : e.line? = none) : r.Reported w :=
  ⟨h.chain, h.lines.trans (by rw [Workspace.report, Log.traced_push he])⟩

/-- A second instruction was sent. -/
theorem trans (h : r.Reported w) (h' : r'.Reported r.space)
    (hw : w.buffer.Extends r.space.buffer) (hr : r.space.buffer.Extends r'.space.buffer) :
    r'.Reported w := by
  refine ⟨h'.chain, ?_⟩
  rw [h'.lines, h.lines, List.append_assoc, ← hr.linesFrom hw.size_le]

/-- Another stage stands in front of the one that traces. -/
theorem under (h : r.Reported w) {s : Stage} (hs : ∀ next, s ≠ .trace next) :
    (r.under s).Reported w := by
  refine ⟨?_, h.lines⟩
  cases s with
  | trace next => exact absurd rfl (hs next)
  | check | simplify | share => exact h.chain

end Fed.Reported

/-- Sending an instruction traces the lines that are new. -/
theorem Chain.feed_traced {n : Nat} {c : Chain n} {w : Workspace} (hc : c.Traces w.buffer.size)
    (i : Instr) : (c.feed i w).Reported w := by
  induction n generalizing i w with
  | zero => cases c with | sink => exact hc.elim
  | succ n ih =>
    cases c with | stage s rest =>
    cases s with
    | check position =>
      have hrest : rest.Traces w.buffer.size := hc
      rw [feed]
      split
      · exact (ih hrest i).under (by simp)
      · exact (Fed.Reported.answered hrest _).under (by simp)
    | trace next =>
      obtain ⟨rfl, hchecks⟩ := hc
      rw [feed]
      rcases feed_checks hchecks i w with ⟨f, hfeed⟩ | ⟨h, hfeed⟩
      · rw [hfeed]
        have htraces : (Chain.stage (.trace w.buffer.size) rest).Traces w.buffer.size :=
          ⟨rfl, hchecks⟩
        exact Fed.Reported.answered htraces _
      · rw [hfeed]
        have hsize := (Buffer.Extends.append w.buffer i).size_le
        refine ⟨⟨Nat.max_eq_right hsize, hchecks⟩, ?_⟩
        show Log.traced (w.log ++ List.map (Event.appended ∘ (w.buffer.append i).2.line) _) = _
        rw [Log.traced_append, ← List.map_map, Log.traced_lines]
        rfl
    | simplify count =>
      have hrest : rest.Traces w.buffer.size := hc
      rw [feed]
      cases hplan : i.simplify w.buffer with
      | error f => exact (Fed.Reported.answered hrest _).under (by simp)
      | ok plan =>
        cases plan with
        | keep j => exact (ih hrest j).under (by simp)
        | existing h =>
          have hsame : (rest.answer (w.report (.folded i.opcode h)) (.ok h)).Reported w :=
            .report (.answered (w := w.report _) hrest _) rfl
          exact hsame.under (by simp)
        | replace j =>
          have hj : (rest.feed j (w.report (.replaced i.opcode j.opcode))).Reported w :=
            .report (ih (w := w.report _) hrest j) rfl
          exact hj.under (by simp)
        | shiftLeft width a k =>
          have hhelper := ih hrest (.imm32 (BitVec.ofNat 32 k))
          dsimp only
          split
          · exact hhelper.under (by simp)
          · rename_i h _
            have hlast := ih (w := (rest.feed (.imm32 (BitVec.ofNat 32 k)) w).space.report
              (.replaced i.opcode (.shift width .shl))) hhelper.chain
              (.plain (.shift width .shl) [a, h])
            have hboth := hhelper.trans (hlast.report rfl) (rest.feed_extends _ w)
              (Chain.feed_extends _ _ (Workspace.report _ _))
            exact hboth.under (by simp)
    | share table hits =>
      have hrest : rest.Traces w.buffer.size := hc
      have hi := ih hrest i
      rw [feed]
      split
      · exact hi.under (by simp)
      · split
        · split
          · rename_i h _
            have hsame : (rest.answer (w.report (.reused i.opcode h)) (.ok h)).Reported w :=
              .report (.answered (w := w.report _) hrest _) rfl
            exact hsame.under (by simp)
          · dsimp only
            split
            · exact hi.under (by simp)
            · exact hi.under (by simp)
        · exact hi.under (by simp)

/-! ### Runs -/

namespace Buffer

/-- The line at a position, as it stands in the first of the buffers that has one there. -/
def firstLine (bs : List Buffer) (k : Nat) : Option String :=
  (bs.find? fun b => k < b.size).map fun b => b.line k

/-- The buffer has become each of `bs`, the last one with `n` instructions. `ls` are its lines, each
    as it stood when it was new. -/
structure Recorded (bs : List Buffer) (n : Nat) (ls : List String) : Prop where
  lines : ls.map some = (List.range n).map (firstLine bs)
  bound : ∀ b ∈ bs, b.size ≤ n
  reached : ∀ k < n, ∃ b ∈ bs, k < b.size

theorem Recorded.nil : Recorded [] 0 [] :=
  ⟨rfl, List.forall_mem_nil _, fun _ hk => absurd hk (Nat.not_lt_zero _)⟩

theorem Recorded.push {bs : List Buffer} {n : Nat} {ls : List String} (h : Recorded bs n ls)
    {b : Buffer} (hb : n ≤ b.size) : Recorded (bs ++ [b]) b.size (ls ++ b.linesFrom n) := by
  refine ⟨?_, ?_, fun k hk => ⟨b, by simp, hk⟩⟩
  · have hold : ∀ k ∈ List.range n, firstLine bs k = firstLine (bs ++ [b]) k := by
      intro k hk
      obtain ⟨b', hb', hlt⟩ := h.reached k (List.mem_range.mp hk)
      have hsome : (bs.find? fun b => decide (k < b.size)).isSome = true :=
        List.find?_isSome.mpr ⟨b', hb', decide_eq_true hlt⟩
      obtain ⟨b'', hfind⟩ := Option.isSome_iff_exists.mp hsome
      rw [firstLine, firstLine, List.find?_append, hfind, Option.some_or]
    have hnew : ∀ k ∈ List.range' n (b.size - n), some (b.line k) = firstLine (bs ++ [b]) k := by
      intro k hk
      have hk' := List.mem_range'_1.mp hk
      have hnone : bs.find? (fun b => decide (k < b.size)) = none := by
        refine List.find?_eq_none.mpr fun b' hb' => ?_
        have hle := h.bound b' hb'
        simp only [decide_eq_true_eq]
        omega
      have hlt : k < b.size := by omega
      rw [firstLine, List.find?_append, hnone, Option.none_or, List.find?_singleton,
        if_pos (decide_eq_true hlt)]
      rfl
    have hrange : List.range b.size = List.range n ++ List.range' n (b.size - n) := by
      rw [List.range_eq_range', List.range_eq_range', show b.size = n + (b.size - n) by omega,
        ← List.range'_append_1, Nat.zero_add, Nat.add_sub_cancel_left]
    rw [hrange, List.map_append, List.map_append, h.lines, List.map_congr_left hold, linesFrom,
      List.map_map]
    exact congrArg _ (List.map_congr_left hnew)
  · intro b' hb'
    rcases List.mem_append.mp hb' with hb' | hb'
    · exact Nat.le_trans (h.bound b' hb') hb
    · cases List.mem_singleton.mp hb'
      exact Nat.le_refl _

end Buffer

end JitBackend
