import JitBackend.Proofs.Finishing
import JitBackend.Proofs.References
import JitBackend.Proofs.Tracing

namespace JitBackend

/-!
# Diagnostics do not influence code

Checks and traces are stages of a pipeline like the others. A check lets an instruction pass as it
is or refuses it, a trace reports what reached the buffer. So as long as no check refuses anything,
pipelines that differ only in these stages do the same, and what is compiled is the same.

* `Chain.Sheds` — a chain without some of the checks of another one, traced or not;
* `Chain.Sheds.feed` — what the checks let pass is treated alike;
* `Draft` — a buffer that is written through a pipeline, in `Edit`s;
* `Building.Sheds` — a function that is built as another one is, with fewer checks;
* `Context.diagnostics_transparent` — whole runs do not depend on checks and traces, and a trace lists
  every instruction once.
-/

/-- Whether a check has refused an instruction. -/
def Fault.isInvalid : Fault → Bool
  | .invalid _ _ _ => true
  | _ => false

/-- Whether a check has refused an instruction. -/
def Stop.isInvalid {ε : Type} : Stop ε → Bool
  | .fault f => f.isInvalid
  | .error _ => false

/-- Whether a check has refused an instruction. -/
def Answer.isInvalid : Answer → Bool
  | .ok _ => false
  | .error e => e.isInvalid

namespace Config

/-- The settings without diagnostics. -/
def quiet (c : Config) : Config :=
  { c with verbose := false, validate := false }

/-- The settings with checks. -/
def checking (c : Config) : Config :=
  { c with validate := true }

end Config

/-! ### Chains -/

/-- The second chain is the first one without some of its checks. Each may be traced anywhere. -/
inductive Chain.Sheds : {n m : Nat} → Chain n → Chain m → Prop where
  | sink : Sheds .sink .sink
  | same {n m : Nat} {c : Chain n} {d : Chain m} (s : Stage) (hs : ∀ next, s ≠ .trace next)
      (h : Sheds c d) : Sheds (.stage s c) (.stage s d)
  | check {n m : Nat} {c : Chain n} {d : Chain m} (position : String) (h : Sheds c d) :
      Sheds (.stage (.check position) c) d
  | traced {n m : Nat} {c : Chain n} {d : Chain m} (next : Nat) (h : Sheds c d) :
      Sheds (.stage (.trace next) c) d
  | tracing {n m : Nat} {c : Chain n} {d : Chain m} (next : Nat) (h : Sheds c d) :
      Sheds c (.stage (.trace next) d)

/-- The outcomes are the same but for reports. -/
structure Fed.Sheds {n m : Nat} (r : Fed n) (r' : Fed m) : Prop where
  answer : r'.answer = r.answer
  buffer : r'.space.buffer = r.space.buffer
  chain : r.chain.Sheds r'.chain

/-- No check has refused the instruction. -/
def Fed.Valid {n : Nat} (r : Fed n) : Prop :=
  ∀ f, r.answer = .error f → f.isInvalid = false

namespace Fed.Sheds

variable {n m : Nat} {r : Fed n} {r' : Fed m}

theorem under (h : r.Sheds r') {s : Stage} (hs : ∀ next, s ≠ .trace next) :
    (r.under s).Sheds (r'.under s) :=
  ⟨h.answer, h.buffer, .same s hs h.chain⟩

theorem traced (h : r.Sheds r') (next : Nat) : (r.traced next).Sheds r' := by
  obtain ⟨next', hchain⟩ := r.chain_traced next
  refine ⟨?_, ?_, ?_⟩
  · rw [Fed.answer_traced, h.answer]
  · rw [Fed.buffer_traced, h.buffer]
  · rw [hchain]
    exact .traced next' h.chain

theorem tracing (h : r.Sheds r') (next : Nat) : r.Sheds (r'.traced next) := by
  obtain ⟨next', hchain⟩ := r'.chain_traced next
  refine ⟨?_, ?_, ?_⟩
  · rw [Fed.answer_traced, h.answer]
  · rw [Fed.buffer_traced, h.buffer]
  · rw [hchain]
    exact .tracing next' h.chain

end Fed.Sheds

namespace Chain.Sheds

variable {n m : Nat} {c : Chain n} {d : Chain m} {w w' : Workspace}

/-- Nothing is sent on. -/
theorem answer (h : c.Sheds d) (hw : w'.buffer = w.buffer) (a : Except Fault Handle) :
    (c.answer w a).Sheds (d.answer w' a) :=
  ⟨rfl, hw, h⟩

/-- All that the first chain accepts is treated alike by chains of these numbers of stages. -/
def Alike (n m : Nat) : Prop :=
  ∀ {c : Chain n} {d : Chain m} {i : Instr} {w w' : Workspace}, c.Sheds d →
    w'.buffer = w.buffer → (c.feed i w).Valid → (c.feed i w).Sheds (d.feed i w')

theorem feed_simplify (hrest : Alike n m) (h : c.Sheds d) {count : Nat} {i : Instr}
    (hw : w'.buffer = w.buffer) (hv : ((Chain.stage (.simplify count) c).feed i w).Valid) :
    ((Chain.stage (.simplify count) c).feed i w).Sheds
      ((Chain.stage (.simplify count) d).feed i w') := by
  rw [Chain.feed, Chain.feed, hw]
  rw [Chain.feed] at hv
  cases hplan : i.simplify w.buffer with
  | error f => exact (h.answer hw _).under (by simp)
  | ok plan =>
    rw [hplan] at hv
    cases plan with
    | keep j => exact (hrest h hw hv).under (by simp)
    | existing x =>
      refine Fed.Sheds.under (h.answer ?_ _) (by simp)
      exact hw
    | replace j =>
      refine Fed.Sheds.under (hrest h ?_ hv) (by simp)
      exact hw
    | shiftLeft width a k =>
      dsimp only at hv ⊢
      cases hanswer : (c.feed (.imm32 (BitVec.ofNat 32 k)) w).answer with
      | error f =>
        rw [hanswer] at hv
        have hhelper := hrest h hw hv
        rw [hhelper.answer, hanswer]
        exact hhelper.under (by simp)
      | ok x =>
        rw [hanswer] at hv
        have hhelper := hrest (i := .imm32 (BitVec.ofNat 32 k)) h hw
          fun f hf => by cases hanswer.symm.trans hf
        rw [hhelper.answer, hanswer]
        refine Fed.Sheds.under (hrest hhelper.chain ?_ hv) (by simp)
        exact hhelper.buffer

theorem feed_share (hrest : Alike n m) (h : c.Sheds d) {table : ShareTable} {hits : Nat}
    {i : Instr} (hw : w'.buffer = w.buffer)
    (hv : ((Chain.stage (.share table hits) c).feed i w).Valid) :
    ((Chain.stage (.share table hits) c).feed i w).Sheds
      ((Chain.stage (.share table hits) d).feed i w') := by
  rw [Chain.feed, Chain.feed]
  rw [Chain.feed] at hv
  split
  · rename_i hlabel
    rw [if_pos hlabel] at hv
    exact (hrest h hw hv).under (by simp)
  rename_i hlabel
  rw [if_neg hlabel] at hv
  split
  · rename_i hshare
    rw [if_pos hshare] at hv
    cases hfind : table.find? i.shareKey with
    | some x =>
      refine Fed.Sheds.under (h.answer ?_ _) (by simp)
      exact hw
    | none =>
      rw [hfind] at hv
      dsimp only at hv ⊢
      have hi : (c.feed i w).Sheds (d.feed i w') := by
        refine hrest h hw fun f hf => hv f ?_
        rw [hf]
        exact hf
      rw [hi.answer]
      cases (c.feed i w).answer with
      | ok x => exact hi.under (by simp)
      | error f => exact hi.under (by simp)
  · rename_i hshare
    rw [if_neg hshare] at hv
    exact (hrest h hw hv).under (by simp)

/-- An instruction that no check of the first chain refuses is treated alike by both chains. -/
theorem feed (h : c.Sheds d) (i : Instr) (hw : w'.buffer = w.buffer)
    (hv : (c.feed i w).Valid) : (c.feed i w).Sheds (d.feed i w') := by
  -- sending a helper instruction changes what is behind a stage, so by the number of stages
  obtain ⟨k, hk⟩ : ∃ k, n + m < k := ⟨_, Nat.lt_succ_self _⟩
  induction k generalizing n m c d i w w' with
  | zero => exact absurd hk (Nat.not_lt_zero _)
  | succ k ih =>
    cases h with
    | sink =>
      rw [Chain.feed, Chain.feed, hw]
      exact ⟨rfl, rfl, .sink⟩
    | traced next h =>
      refine (ih h i hw (fun f hf => hv f ?_) (by omega)).traced next
      rw [Chain.feed, Fed.answer_traced, hf]
    | tracing next h => exact (ih h i hw hv (by omega)).tracing next
    | check position h =>
      rw [Chain.feed] at hv ⊢
      cases hi : i.check w.buffer with
      | error defect =>
        rw [hi] at hv
        cases hv _ rfl
      | ok u =>
        rw [hi] at hv
        have hrest := ih h i hw hv (by omega)
        exact ⟨hrest.answer, hrest.buffer, .check position hrest.chain⟩
    | same s hs h =>
      rename_i n m c d
      have hrest : Alike n m := fun h hw hv => ih h _ hw hv (by omega)
      cases s with
      | trace next => exact absurd rfl (hs next)
      | simplify count => exact feed_simplify hrest h hw hv
      | share table hits => exact feed_share hrest h hw hv
      | check position =>
        rw [Chain.feed, Chain.feed, hw]
        rw [Chain.feed] at hv
        cases hi : i.check w.buffer with
        | error defect => exact (h.answer hw _).under hs
        | ok u =>
          rw [hi] at hv
          exact (hrest h hw hv).under hs

/-- What checks and traces do not count is the same. -/
theorem sum_eq (h : c.Sheds d) {f : Stage → Nat} (hcheck : ∀ position, f (.check position) = 0)
    (htrace : ∀ next, f (.trace next) = 0) :
    (c.toList.map f).sum = (d.toList.map f).sum := by
  induction h with
  | sink => rfl
  | same s hs h ih => simp only [toList, List.map_cons, List.sum_cons, ih]
  | check position h ih =>
    simp only [toList, List.map_cons, List.sum_cons, hcheck, Nat.zero_add, ih]
  | traced next h ih => simp only [toList, List.map_cons, List.sum_cons, htrace, Nat.zero_add, ih]
  | tracing next h ih => simp only [toList, List.map_cons, List.sum_cons, htrace, Nat.zero_add, ih]

end Chain.Sheds

/-! ### Pipelines -/

namespace Pipeline

/-- The second pipeline is the first one without some of its checks. -/
def Sheds (p q : Pipeline) : Prop :=
  p.chain.Sheds q.chain

theorem Sheds.hits {p q : Pipeline} (h : p.Sheds q) : p.hits = q.hits :=
  h.sum_eq (fun _ => rfl) fun _ => rfl

theorem Sheds.simplifications {p q : Pipeline} (h : p.Sheds q) :
    p.simplifications = q.simplifications :=
  h.sum_eq (fun _ => rfl) fun _ => rfl

/-- The chain of the stages that are asked for. -/
abbrev picked (l : List (Stage × Bool)) : Chain ((l.filter Prod.snd).map Prod.fst).length :=
  .ofList ((l.filter Prod.snd).map Prod.fst)

section Picked

variable {l l' : List (Stage × Bool)} (asked asked' : Bool)

theorem picked_same {s : Stage} (hs : ∀ next, s ≠ .trace next)
    (h : (picked l).Sheds (picked l')) :
    (picked ((s, asked) :: l)).Sheds (picked ((s, asked) :: l')) := by
  cases asked with
  | true => exact .same s hs h
  | false => exact h

theorem picked_check (position : String) (hasked : asked' = true → asked = true)
    (h : (picked l).Sheds (picked l')) :
    (picked ((.check position, asked) :: l)).Sheds (picked ((.check position, asked') :: l')) := by
  cases asked with
  | true =>
    cases asked' with
    | true => exact .same _ nofun h
    | false => exact .check position h
  | false =>
    cases asked' with
    | true => cases hasked rfl
    | false => exact h

theorem picked_trace (next : Nat) (h : (picked l).Sheds (picked l')) :
    (picked ((.trace next, asked) :: l)).Sheds (picked ((.trace next, asked') :: l')) := by
  have hleft : (picked ((.trace next, asked) :: l)).Sheds (picked l') := by
    cases asked with
    | true => exact .traced next h
    | false => exact h
  cases asked' with
  | true => exact .tracing next hleft
  | false => exact hleft

theorem picked_traces {s : Stage} (hs : ∀ next, s ≠ .trace next) {n : Nat}
    (h : (picked l).Traces n) : (picked ((s, asked) :: l)).Traces n := by
  cases asked with
  | false => exact h
  | true =>
    cases s with
    | trace next => exact absurd rfl (hs next)
    | check | simplify | share => exact h

end Picked

/-- With the settings of `c` and checks there are at least the checks that `d` asks for, and the
    other stages of `d`. -/
theorem sheds_ofConfig {c d : Config} (h : c.quiet = d.quiet) (optimize : Bool) :
    (ofConfig c.checking optimize).Sheds (ofConfig d optimize) := by
  have hshare : c.shareDuplicates = d.shareDuplicates := (congrArg Config.shareDuplicates h :)
  have hsimplify : c.simplify = d.simplify := (congrArg Config.simplify h :)
  show (picked (candidates c.checking optimize)).Sheds (picked (candidates d optimize))
  rw [candidates, candidates, Config.checking, hshare, hsimplify]
  refine picked_check _ _ _ (fun _ => rfl) (picked_same _ (by simp) (picked_same _ (by simp) ?_))
  refine picked_trace _ _ 0 (picked_check _ _ _ (fun hd => ?_) .sink)
  rw [(Bool.and_eq_true_iff.mp hd).1]
  rfl

/-- With tracing, all that is appended is traced from the start. -/
theorem traces_ofConfig {c : Config} (h : c.verbose = true) (optimize : Bool) :
    (ofConfig c optimize).chain.Traces 0 := by
  show (picked (candidates c optimize)).Traces 0
  rw [candidates, h]
  refine picked_traces (s := .check _) _ (by simp) (picked_traces (s := .simplify 0) _ (by simp) ?_)
  refine picked_traces (s := .share .empty 0) _ (by simp) ⟨rfl, ?_⟩
  cases optimize && c.validate with
  | true => exact List.forall_mem_singleton.mpr rfl
  | false => exact List.forall_mem_nil _

/-- Since `w` the new lines were traced, and no others. -/
structure Reports (p : Pipeline) (w w' : Workspace) : Prop where
  chain : p.chain.Traces w'.buffer.size
  grown : w.buffer.size ≤ w'.buffer.size
  lines : Log.traced w'.log = Log.traced w.log ++ w'.buffer.linesFrom w.buffer.size

section Reports

variable {p q : Pipeline} {w w' w'' : Workspace}

/-- There are no new lines. -/
theorem Reports.same (h : p.chain.Traces w.buffer.size) (hsize : w'.buffer.size = w.buffer.size)
    (hlog : Log.traced w'.log = Log.traced w.log) : p.Reports w w' := by
  refine ⟨hsize ▸ h, Nat.le_of_eq hsize.symm, ?_⟩
  rw [hlog, ← hsize, Buffer.linesFrom_size, List.append_nil]

theorem Reports.feed (h : p.chain.Traces w.buffer.size) (i : Instr) :
    (p.feed i w).2.1.Reports w (p.feed i w).2.2 :=
  have hfed := Chain.feed_traced h i
  ⟨hfed.chain, (p.chain.feed_extends i w).size_le, hfed.lines⟩

theorem Reports.trans (h : p.Reports w w') (h' : q.Reports w' w'')
    (hextends : w'.buffer.Extends w''.buffer) : q.Reports w w'' := by
  refine ⟨h'.chain, Nat.le_trans h.grown h'.grown, ?_⟩
  rw [h'.lines, h.lines, List.append_assoc, ← hextends.linesFrom h.grown]

/-- The buffer has become each of `bs`, and its lines were traced after the lines `ls`, each as it
    stood when it was new. -/
structure Tracked (p : Pipeline) (w : Workspace) (ls : List String) (bs : List Buffer) : Prop where
  chain : p.chain.Traces w.buffer.size
  lines : ∃ new, Log.traced w.log = ls ++ new ∧ Buffer.Recorded bs w.buffer.size new

theorem Tracked.push {ls : List String} {bs : List Buffer} (h : p.Tracked w ls bs)
    (h' : q.Reports w w') : q.Tracked w' ls (bs ++ [w'.buffer]) := by
  obtain ⟨new, hlog, hrecorded⟩ := h.lines
  refine ⟨h'.chain, _, ?_, hrecorded.push h'.grown⟩
  rw [h'.lines, hlog, List.append_assoc]

end Reports

end Pipeline

/-! ### Writing through a pipeline -/

/-- A step of writing a buffer through a pipeline. -/
inductive Edit where
  | send (i : Instr)
  | setTarget (branch label : Handle)
  | setTableTarget (table : Handle) (index : Nat) (label : Handle)
  deriving DecidableEq, Repr

/-- A buffer that is written through a pipeline. -/
structure Draft where
  pipeline : Pipeline
  space : Workspace

namespace Draft

/-- An empty buffer with the pipeline that the settings ask for. -/
def start (c : Config) (optimize : Bool) (id : Nat) (log : Log) : Draft :=
  ⟨.ofConfig c optimize, ⟨.empty id, log⟩⟩

/-- Changes the buffer, or refuses to. -/
def rebuffer (s : Draft) (b : Except BuildError Buffer) : Answer × Draft :=
  match b with
  | .ok b => (.ok none, { s with space := { s.space with buffer := b } })
  | .error e => (.error (.error e), s)

/-- The answer to a step, and what comes of it. -/
def edit (s : Draft) : Edit → Answer × Draft
  | .send i =>
    let (answer, pipeline, space) := s.pipeline.feed i s.space
    ((answer.mapError Stop.fault).map some, ⟨pipeline, space⟩)
  | .setTarget branch label => s.rebuffer (s.space.buffer.setTarget branch label)
  | .setTableTarget table index label =>
    s.rebuffer (s.space.buffer.setTableTarget table index label)

/-- The answers to steps, in order. -/
def answers (s : Draft) : List Edit → List Answer
  | [] => []
  | e :: es => (s.edit e).1 :: (s.edit e).2.answers es

/-- What comes of steps. -/
def afterAll (s : Draft) : List Edit → Draft
  | [] => s
  | e :: es => (s.edit e).2.afterAll es

/-- The buffer after each of the steps. -/
def buffers (s : Draft) : List Edit → List Buffer
  | [] => []
  | e :: es => (s.edit e).2.space.buffer :: (s.edit e).2.buffers es

/-- The second buffer is written as the first one is, with fewer checks. -/
structure Sheds (s t : Draft) : Prop where
  pipeline : s.pipeline.Sheds t.pipeline
  buffer : t.space.buffer = s.space.buffer

variable {s t : Draft}

theorem Sheds.rebuffer (h : s.Sheds t) (b : Except BuildError Buffer) :
    (t.rebuffer b).1 = (s.rebuffer b).1 ∧ (s.rebuffer b).2.Sheds (t.rebuffer b).2 := by
  cases b with
  | ok b => exact ⟨rfl, h.pipeline, rfl⟩
  | error e => exact ⟨rfl, h⟩

/-- A step that no check refuses has the same answer. -/
theorem Sheds.edit (h : s.Sheds t) {e : Edit} (hv : (s.edit e).1.isInvalid = false) :
    (t.edit e).1 = (s.edit e).1 ∧ (s.edit e).2.Sheds (t.edit e).2 := by
  cases e with
  | send i =>
    have hfed : (s.pipeline.chain.feed i s.space).Sheds (t.pipeline.chain.feed i t.space) := by
      refine h.pipeline.feed i h.buffer fun f hf => ?_
      rw [Draft.edit, Pipeline.feed, hf] at hv
      exact hv
    refine ⟨?_, hfed.chain, hfed.buffer⟩
    rw [Draft.edit, Draft.edit, Pipeline.feed, Pipeline.feed, hfed.answer]
  | setTarget branch label =>
    rw [Draft.edit, Draft.edit, h.buffer]
    exact h.rebuffer _
  | setTableTarget table index label =>
    rw [Draft.edit, Draft.edit, h.buffer]
    exact h.rebuffer _

/-- Steps that no check refuses have the same answers. -/
theorem Sheds.run (h : s.Sheds t) {es : List Edit}
    (hv : ∀ a ∈ s.answers es, a.isInvalid = false) :
    t.answers es = s.answers es ∧ (s.afterAll es).Sheds (t.afterAll es) := by
  induction es generalizing s t with
  | nil => exact ⟨rfl, h⟩
  | cons e es ih =>
    obtain ⟨hfirst, hrest⟩ := List.forall_mem_cons.mp hv
    obtain ⟨hanswer, hnext⟩ := h.edit hfirst
    obtain ⟨hanswers, hlast⟩ := ih hnext hrest
    exact ⟨by rw [answers, answers, hanswer, hanswers], hlast⟩

/-- The trace of what is written. -/
def Tracked (s : Draft) (ls : List String) (bs : List Buffer) : Prop :=
  s.pipeline.Tracked s.space ls bs

variable {ls : List String} {bs : List Buffer}

theorem reports_edit (h : s.pipeline.chain.Traces s.space.buffer.size) (e : Edit) :
    (s.edit e).2.pipeline.Reports s.space (s.edit e).2.space := by
  have hbind : ∀ b, (∀ b', b = .ok b' → b'.size = s.space.buffer.size) →
      (s.rebuffer b).2.pipeline.Reports s.space (s.rebuffer b).2.space := by
    intro b hsize
    cases b with
    | ok b' => exact .same h (hsize b' rfl) rfl
    | error e => exact .same h rfl rfl
  cases e with
  | send i => exact .feed h i
  | setTarget branch label =>
    exact hbind _ fun b' => Buffer.size_of_setTarget
  | setTableTarget table index label =>
    exact hbind _ fun b' => Buffer.size_of_setTableTarget

theorem Tracked.run (h : s.Tracked ls bs) (es : List Edit) :
    (s.afterAll es).Tracked ls (bs ++ s.buffers es) := by
  induction es generalizing s bs with
  | nil => rw [buffers, List.append_nil]; exact h
  | cons e es ih =>
    have hstep := Pipeline.Tracked.push h (reports_edit h.chain e)
    rw [buffers, List.append_cons]
    exact ih hstep

theorem tracked_start {c : Config} (h : c.verbose = true) (optimize : Bool) (id : Nat) (l : Log) :
    (start c optimize id l).Tracked (Log.traced l) [] :=
  ⟨Pipeline.traces_ofConfig h optimize, [], (List.append_nil _).symm, .nil⟩

end Draft

/-! ### Building a function -/

namespace Context

/-- The context without diagnostics. -/
def quiet (c : Context) : Context :=
  { c with config := c.config.quiet, log := #[] }

/-- The context with checks. -/
def checking (c : Context) : Context :=
  { c with config := c.config.checking }

end Context

namespace Building

/-- The second function is built as the first one is, with fewer checks. -/
structure Sheds (s t : Building) : Prop where
  context : s.context.quiet = t.context.quiet
  builder : { s.builder with pipeline := t.builder.pipeline } = t.builder
  pipeline : s.builder.pipeline.Sheds t.builder.pipeline

/-- From functions of which the second has fewer checks, the computation ends alike unless a check
    of the first one refuses an instruction. -/
abbrev Agrees {α : Type} (x : Build α) : Prop :=
  Step.Agrees (fun e => e.isInvalid = true) Sheds x

namespace Sheds

variable {s t : Building}

theorem buffer (h : s.Sheds t) : t.builder.buffer = s.builder.buffer := by
  rw [← h.builder]

theorem after {α : Type} {x : Build α} (h : Step.Alike Sheds (x s) (x t)) :
    (s.after x).Sheds (t.after x) := by
  unfold Building.after
  generalize x s = r, x t = r' at h
  cases h with
  | ok h => exact h
  | error h => exact h

/-- What is read of the function is not its pipeline. -/
theorem get_bind {α : Type} {f : Building → Build α}
    (hread : ∀ (c : Context) (b : Builder) (p : Pipeline),
      f ⟨c.quiet, { b with pipeline := p }⟩ = f ⟨c, b⟩)
    (hf : ∀ s, Agrees (f s)) : Agrees (get >>= f) := by
  refine Step.agrees_get_bind (fun s t h => ?_) hf
  rw [← hread s.context s.builder t.builder.pipeline, h.builder, h.context]
  exact hread t.context t.builder t.builder.pipeline

/-- What is changed of the function is not its pipeline. -/
theorem modifyBuilder {f : Builder → Builder}
    (hf : ∀ b p, f { b with pipeline := p } = { f b with pipeline := p }) :
    Agrees (Build.modifyBuilder f) := by
  have hkeep : ∀ b, (f b).pipeline = b.pipeline := fun b =>
    (congrArg Builder.pipeline (hf b b.pipeline) :)
  refine Step.agrees_modify fun s t h => ⟨h.context, ?_, ?_⟩
  · show { f s.builder with pipeline := (f t.builder).pipeline } = f t.builder
    rw [hkeep, ← hf, h.builder]
  · show (f s.builder).pipeline.Sheds (f t.builder).pipeline
    rw [hkeep, hkeep]
    exact h.pipeline

end Sheds

end Building

namespace Build

open Building (Agrees Sheds)

theorem report_agrees (e : Event) : Agrees (report e) :=
  Step.agrees_modify fun _ _ h => ⟨h.context, h.builder, h.pipeline⟩

theorem append_agrees (i : Instr) : Agrees (append i) := by
  intro s t h
  cases hi : s.builder.buffer.foreignOperand? i with
  | some x =>
    rw [append_of_foreign hi, append_of_foreign (h.buffer ▸ hi)]
    refine .inr (.ok ⟨h.context, ?_, h.pipeline⟩)
    rw [Building.rejecting, Building.rejecting, ← h.builder]
  | none =>
    rw [append_of_own hi, append_of_own (h.buffer ▸ hi)]
    by_cases hv : (s.sent i).Valid
    · have hsent : (s.sent i).Sheds (t.sent i) := h.pipeline.feed i h.buffer hv
      have hsending : (s.sending i).Sheds (t.sending i) := by
        have hbuilder := congrArg (fun b : Builder => { b with
          pipeline := (t.sending i).builder.pipeline, buffer := (t.sent i).space.buffer }) h.builder
        rw [hsent.buffer] at hbuilder
        refine ⟨h.context, hbuilder.trans ?_, hsent.chain⟩
        rw [← hsent.buffer]
        rfl
      rw [hsent.answer]
      cases (s.sent i).answer with
      | ok x => exact .inr (.ok hsending)
      | error f => exact .inr (.error hsending)
    · -- a check has refused the instruction
      simp only [Fed.Valid, not_forall, Bool.not_eq_false] at hv
      obtain ⟨f, hf, hinvalid⟩ := hv
      exact .inl ⟨.fault f, s.sending i, by rw [hf]; rfl, hinvalid⟩

theorem parameter_agrees : Agrees parameter := by
  refine Sheds.get_bind (fun _ _ _ => rfl) fun s => ?_
  refine Step.agrees_ite (Step.agrees_fail_bind _ _) ?_
  exact (Sheds.modifyBuilder fun _ _ => rfl).bind fun _ => append_agrees _

theorem returnValue_agrees (t : ValTy) (h : Handle) : Agrees (returnValue t h) :=
  (Sheds.modifyBuilder fun _ _ => rfl).bind fun _ => append_agrees _

theorem exit_agrees (record : BitVec 64) : Agrees (exit record) := by
  refine Sheds.get_bind (fun _ _ _ => rfl) fun s => ?_
  exact (Sheds.modifyBuilder fun _ _ => rfl).bind fun _ => append_agrees _

theorem leave_agrees (record : BitVec 64) : Agrees (leave record) :=
  (Sheds.modifyBuilder fun _ _ => rfl).bind fun _ => exit_agrees record

section

variable (callee : String) (op : Opcode) (abi : Abi) (args : List Handle)

theorem lowerCall_agrees : Agrees (lowerCall callee op abi args) := by
  refine Step.agrees_ite (Step.agrees_fail_bind _ _) ?_
  refine (Step.agrees_orFail _ _).bind fun result => Sheds.get_bind (fun _ _ _ => rfl) fun s => ?_
  refine Step.agrees_ite (Step.agrees_fail_bind _ _) ?_
  refine (Step.agrees_liftError _).bind fun target => (Step.agrees_liftError _).bind fun kinds => ?_
  refine (Step.agrees_orFail _ _).bind fun deduced => Step.agrees_ite (Step.agrees_pure _) ?_
  split
  · exact (report_agrees _).bind fun _ => Step.agrees_fault_bind _ _
  · exact Step.agrees_fail_bind _ _

theorem call_agrees : Agrees (call callee op abi args) :=
  (lowerCall_agrees callee op abi args).bind fun _ => append_agrees _

end

theorem rebuffer_agrees (f : Buffer → Except BuildError Buffer) : Agrees (rebuffer f) := by
  refine Sheds.get_bind (fun _ _ _ => rfl) fun s => ?_
  exact (Step.agrees_liftError _).bind fun _ => Sheds.modifyBuilder fun _ _ => rfl

theorem setTableTarget_agrees (table : Handle) (n : Nat) (label : Handle) :
    Agrees (setTableTarget table n label) := by
  refine Sheds.get_bind (fun _ _ _ => rfl) fun s => (Step.agrees_liftError _).bind fun cell => ?_
  refine (rebuffer_agrees _).bind fun _ => Step.agrees_modify fun s t h => ?_
  exact ⟨congrArg (Context.bound · [(cell.place, label)]) h.context, h.builder, h.pipeline⟩

theorem keepParam_agrees (index : Nat) : Agrees (keepParam index) := by
  refine Sheds.get_bind (fun _ _ _ => rfl) fun s => ?_
  split
  · exact (append_agrees _).bind fun _ => Step.agrees_pure _
  · exact Step.agrees_pure _

theorem close_agrees (record : BitVec 64) : Agrees (close record) := by
  refine Sheds.get_bind (fun _ _ _ => rfl) fun s => ?_
  refine (Step.Agrees.forM fun index _ => keepParam_agrees index).bind fun _ => ?_
  exact (exit_agrees record).bind fun _ => Step.agrees_pure ()

end Build

theorem Request.run_agrees (r : Request) : Building.Agrees r.run := by
  cases r with
  | parameter => exact Build.parameter_agrees.map _
  | append i => exact (Build.append_agrees i).map _
  | returnValue t h => exact (Build.returnValue_agrees t h).map _
  | leave record => exact (Build.leave_agrees record).map _
  | call callee op abi args => exact (Build.call_agrees callee op abi args).map _
  | setTarget branch label =>
    exact (Build.rebuffer_agrees _).bind fun _ => Step.agrees_pure none
  | setTableTarget table index label =>
    exact (Build.setTableTarget_agrees table index label).bind fun _ => Step.agrees_pure none

namespace Building

variable {s t : Building}

/-- Requests that no check refuses have the same answers. -/
theorem Sheds.run (h : s.Sheds t) {rs : List Request}
    (hv : ∀ a ∈ s.answers rs, a.isInvalid = false) :
    t.answers rs = s.answers rs ∧ (s.afterAll rs).Sheds (t.afterAll rs) := by
  induction rs generalizing s t with
  | nil => exact ⟨rfl, h⟩
  | cons r rs ih =>
    obtain ⟨hfirst, hrest⟩ := List.forall_mem_cons.mp hv
    have hstep : t.answer r = s.answer r ∧ (s.after r.run).Sheds (t.after r.run) := by
      unfold answer at *
      rcases r.run_agrees s t h with ⟨e, s', hs, he⟩ | hends
      · rw [hs] at hfirst
        exact absurd (he.symm.trans hfirst) (by simp)
      · refine ⟨?_, .after hends⟩
        generalize r.run s = x, r.run t = y at hends
        cases hends with
        | ok h => rfl
        | error h => rfl
    obtain ⟨hanswers, hlast⟩ := ih hstep.2 hrest
    exact ⟨by rw [answers, answers, hstep.1, hanswers], hlast⟩

/-- The function is checked, and all of it has passed. -/
def Guarded (s : Building) : Prop :=
  s.builder.pipeline.Guarded s.builder.buffer

/-- What passes the check is accepted. -/
theorem Guarded.append (h : s.Guarded) {i : Instr}
    (hown : s.builder.buffer.foreignOperand? i = none) (hi : i.check s.builder.buffer = .ok ()) :
    Step.Yields (Build.append i) s fun _ => Guarded := by
  obtain ⟨⟨x, hanswer, -⟩, -, -, -⟩ :=
    Chain.feed_typed (w := ⟨s.builder.buffer, s.context.log⟩) h.typed h.valid hi
  have hsent : (s.sent i).answer = .ok x := hanswer
  refine ⟨x, s.sending i, ?_, Pipeline.Guarded.feed (w := ⟨s.builder.buffer, s.context.log⟩) h i⟩
  rw [Build.append_of_own hown, hsent]
  rfl

theorem Guarded.preserves_append (i : Instr) : (Build.append i).Preserves Guarded := by
  refine preserves_iff.mpr fun s h => ?_
  rcases Build.after_append s i with ⟨x, -, heq⟩ | ⟨-, heq⟩
  · rw [heq]
    exact h
  · rw [heq]
    exact Pipeline.Guarded.feed (w := ⟨s.builder.buffer, s.context.log⟩) h i

theorem Guarded.preserves_run (r : Request) : r.run.Preserves Guarded := by
  refine preserves_iff.mpr fun s h => ?_
  refine after_run (P := Guarded) r (fun _ => h) (fun i t hsends => ?_) (fun t hbinds => ?_)
    (fun _ _ _ _ => h)
  · obtain ⟨returns, params, guards, rfl⟩ := hsends.counting
    exact preserves_iff.mp (preserves_append i) _ h
  · cases hbinds with
    | target hset => exact Pipeline.Guarded.setTarget h hset
    | entry hcell =>
      exact Pipeline.Guarded.setTableTarget h (Buffer.setTableTarget_iff.mpr ⟨_, hcell, rfl⟩)

end Building

/-- What is listed as a parameter is one. -/
theorem Buffer.Validated.refers_param {b : Buffer} (hb : b.Validated) {index : Nat} {h : Handle}
    (hparam : b.param? index = some h) : b.Refers b.size h (.val .int64) := by
  have hlisted : b.params[index]? = some (some h) := by
    rw [param?] at hparam
    cases hat : b.params[index]? with
    | none => rw [hat] at hparam; cases hparam
    | some o => rw [hat] at hparam; exact congrArg some hparam
  obtain ⟨hown, p, hpayload, -⟩ := hb.paramsListed.listed index h hlisted
  obtain ⟨i, hi, hp⟩ := Option.map_eq_some_iff.mp hpayload
  have hkind := (hb.fits hi).kind
  have hop : i.opcode = .param := by
    rw [hp] at hkind
    cases hop : i.opcode <;> rw [hop] at hkind <;> cases hkind
  refine ⟨hown, Buffer.lt_size hi, ?_⟩
  rw [resultAt, hi]
  show some i.opcode.result = _
  rw [hop]
  rfl

namespace Building

/-- A function that is checked can be closed. -/
theorem Guarded.close {s : Building} (h : s.Guarded) (record : BitVec 64) :
    Step.Yields (Build.close record) s fun _ => Guarded := by
  refine Build.close_yields (fun s index x hs hparam => ?_) (fun s hs => ?_) h
  · have hx := hs.valid.refers_param hparam
    obtain ⟨i, hi⟩ := hx.get?
    have hknown : s.builder.buffer.Knows (.plain (.live .int64) [x]) :=
      List.forall_mem_singleton.mpr (Buffer.contains_of_get? hi)
    exact hs.append (Buffer.foreignOperand?_eq_none.mpr hknown)
      (Instr.check_of_operands (.cons hx .nil) rfl rfl)
  · rw [Step.Yields, Build.exit_eq]
    let counted := s.counting s.builder.returns s.builder.params (s.builder.guards + 1)
    have hcounted : counted.Guarded := hs
    refine hcounted.append ?_ ?_
    · rfl
    · rfl

end Building

/-! ### Finishing a function -/

/-- The contexts differ in diagnostics only, and `ls` and `ls'` reached the buffer. -/
structure Context.Like (ls ls' : List String) (c d : Context) : Prop where
  quiet : c.quiet = d.quiet
  left : Log.traced c.log = ls
  right : Log.traced d.log = ls'

namespace Context.Like

variable {ls ls' : List String} {α : Type}

/-- Diagnostics are not read. -/
theorem get_bind {f : Context → Finish α} (hread : ∀ c : Context, f c.quiet = f c)
    (hf : ∀ c, (f c).Blind (Like ls ls')) : (get >>= f).Blind (Like ls ls') := by
  refine Step.agrees_get_bind (fun c d h => ?_) hf
  rw [← hread c, h.quiet, hread d]

/-- Diagnostics are left alone. -/
theorem modify {g : Context → Context} (hg : ∀ c, (g c).quiet = (g c.quiet).quiet)
    (hlog : ∀ c, (g c).log = c.log) : Step.Blind (Like ls ls') (modify g : Finish PUnit) := by
  refine Step.agrees_modify fun c d h => ⟨?_, ?_, ?_⟩
  · rw [hg, hg d, h.quiet]
  · rw [hlog, h.left]
  · rw [hlog, h.right]

/-- A part that is not diagnostics. -/
theorem within {ε ρ : Type} {part : Context → ρ} {put : ρ → Context → Context}
    {e : ε → FinishError} {x : Step ε ρ α} (hpart : ∀ c : Context, part c.quiet = part c)
    (hput : ∀ u c, (put u c).quiet = (put u c.quiet).quiet) (hlog : ∀ u c, (put u c).log = c.log) :
    (Step.within part put e x).Blind (Like ls ls') := by
  refine Step.agrees_within (P := Eq) (.of_eq (fun _ _ h => h) fun _ => rfl) (fun c d h => ?_) ?_
  · rw [← hpart c, h.quiet, hpart d]
  · rintro c d u _ h rfl
    refine ⟨?_, ?_, ?_⟩
    · rw [hput, hput u d, h.quiet]
    · rw [hlog, h.left]
    · rw [hlog, h.right]

end Context.Like

namespace Finish

open Context (Like)

variable {ls ls' : List String} (b : Builder)

theorem report_blind {e : Event} (h : e.line? = none) : (report e).Blind (Like ls ls') := by
  refine Step.agrees_modify fun c d hcd => ⟨hcd.quiet, ?_, ?_⟩
  · exact (Log.traced_push h).trans hcd.left
  · exact (Log.traced_push h).trans hcd.right

theorem recordCounters_blind (p : Pipeline) : (recordCounters p).Blind (Like ls ls') :=
  Like.within (fun _ => rfl) (fun _ _ => rfl) fun _ _ => rfl

/-- A function is declared in the same way whether this is traced or not. -/
theorem declare_blind : (declare b).Blind (Like ls ls') := by
  have htraced : Step.Blind (Like ls ls') (do
      if (← get).config.verbose then report (.finished b.name b.buffer.listing) : Finish Unit) := by
    intro c d h
    have hpush : ∀ c : Context, Log.traced
        (c.report (.finished b.name b.buffer.listing)).log = Log.traced c.log :=
      fun c => Log.traced_push rfl
    rw [Step.bind_get, Step.bind_get]
    refine .inr ?_
    split
    · split
      · exact .ok ⟨h.quiet, (hpush c).trans h.left, (hpush d).trans h.right⟩
      · exact .ok ⟨h.quiet, (hpush c).trans h.left, h.right⟩
    · split
      · exact .ok ⟨h.quiet, h.left, (hpush d).trans h.right⟩
      · exact .ok ⟨h.quiet, h.left, h.right⟩
  refine Like.get_bind (fun _ => rfl) fun c => ?_
  refine Step.Agrees.bind (Like.modify (fun _ => rfl) fun _ => rfl) fun _ => ?_
  exact Step.agrees_ite ((report_blind rfl).bind fun _ => htraced) htraced

variable [Machine.BlockEncoder]

theorem generate_blind : (generate b).Blind (Like ls ls') := by
  refine Like.get_bind (fun _ => rfl) fun c => Step.Blind.tryCatch ?_ fun e => ?_
  · refine Step.agrees_within (compile_blind b.buffer c.config.maxFrame ls ls') (fun c d h => ?_)
      (fun c d a a' h ha => ?_)
    · exact ⟨(congrArg (fun c : Context => c.session.stats) h.quiet :), h.left, h.right⟩
    · have hsession := congrArg (fun c : Context =>
        { c with session := { c.session with stats := a.stats } }) h.quiet
      refine ⟨hsession.trans ?_, ha.left, ha.right⟩
      rw [ha.stats]
      rfl
  · cases e with
    | fault f => exact Step.agrees_fault f
    | error e =>
      cases e with
      | assembly e => exact (report_blind rfl).bind fun _ => Step.agrees_fail _
      | build e | memory e => exact Step.agrees_fail _

omit [Machine.BlockEncoder] in
theorem install_blind (host : Host) (a : Assembly) : (install host b a).Blind (Like ls ls') := by
  refine Step.Agrees.bind (Like.within (fun _ => rfl) (fun _ _ => rfl) fun _ _ => rfl) fun _ => ?_
  refine Like.get_bind (fun _ => rfl) fun c => ?_
  refine Step.Agrees.bind (Like.modify (fun _ => rfl) fun _ => rfl) fun _ => ?_
  refine Step.Agrees.bind (Like.within (fun _ => rfl) (fun _ _ => rfl) fun _ _ => rfl) fun _ => ?_
  exact Step.agrees_pure _

theorem produce_blind (host : Host) (result : Option ArgKind) :
    (produce host b result).Blind (Like ls ls') := by
  refine (generate_blind b).bind fun a => (install_blind b host a).bind fun code => ?_
  refine Step.Agrees.bind (Like.modify (fun _ => rfl) fun _ => rfl) fun _ => ?_
  exact Step.agrees_pure _

theorem complete_blind (host : Host) : (complete host b).Blind (Like ls ls') := by
  refine (recordCounters_blind _).bind fun _ => ?_
  refine Step.Agrees.bind (Like.modify (fun _ => rfl) fun _ => rfl) fun _ => ?_
  refine (declare_blind b).bind fun _ => ?_
  unfold conclude
  cases b.returns.shape with
  | conflicting => exact (report_blind rfl).bind fun _ => Step.agrees_pure none
  | noReturn => exact (report_blind rfl).bind fun _ => produce_blind b host none
  | single k => exact produce_blind b host (some k)

/-- Of the pipeline only the counters matter. -/
theorem complete_congr {b : Builder} {p : Pipeline} (host : Host)
    (hhits : b.pipeline.hits = p.hits)
    (hsimplifications : b.pipeline.simplifications = p.simplifications) :
    complete host { b with pipeline := p } = complete host b := by
  unfold complete recordCounters
  rw [hhits, hsimplifications]
  rfl

end Finish

namespace Building

variable {s t : Building}

/-- The function when nothing more is added to it: closed, unless it cannot be finished. -/
def closed (s : Building) (record : BitVec 64) : Building :=
  match s.builder.error with
  | some _ => s
  | none => s.after (Build.close record)

/-- No line is traced after a function was closed. -/
theorem traced_finished [Machine.BlockEncoder] (s : Building) (supply : Supply) :
    Log.traced (s.finished supply).log = Log.traced (s.closed supply.record).context.log := by
  unfold finished closed
  rw [finish_eq]
  cases s.builder.error with
  | some e => rfl
  | none =>
    dsimp only
    rw [Building.after]
    cases hclose : Build.close supply.record s with
    | error e t => rfl
    | ok u t =>
      have hends := (Finish.complete_blind t.builder supply.toHost).alike
        (⟨rfl, rfl, rfl⟩ : t.context.Like _ _ t.context)
      dsimp only
      cases hrun : Finish.complete supply.toHost t.builder t.context <;> rw [hrun] at hends <;>
        cases hends
      · exact ‹Context.Like _ _ _ _›.left
      · exact ‹Context.Like _ _ _ _›.left

/-- A function with fewer checks is closed alike. -/
theorem Sheds.closed (h : s.Sheds t) (hs : s.Guarded) (record : BitVec 64) :
    (s.closed record).Sheds (t.closed record) := by
  unfold Building.closed
  have herror : t.builder.error = s.builder.error := by rw [← h.builder]
  rw [herror]
  cases s.builder.error with
  | some e => exact h
  | none =>
    obtain ⟨⟨⟩, s', hclose, -⟩ := hs.close record
    rcases Build.close_agrees record s t h with ⟨e, s'', hs'', -⟩ | hends
    · cases hclose.symm.trans hs''
    · exact .after hends

/-- A function with fewer checks is finished alike. -/
theorem Sheds.finish [Machine.BlockEncoder] (h : s.Sheds t) (hs : s.Guarded) (supply : Supply) :
    Step.Alike (fun c d => c.quiet = d.quiet) (s.finish supply) (t.finish supply) := by
  rw [finish_eq, finish_eq]
  have herror : t.builder.error = s.builder.error := by rw [← h.builder]
  rw [herror]
  cases s.builder.error with
  | some e => exact .error (congrArg (fun c : Context =>
      { c with session := { c.session with current := none } }) h.context)
  | none =>
    obtain ⟨⟨⟩, s', hclose, -⟩ := hs.close supply.record
    rcases Build.close_agrees supply.record s t h with ⟨e, s'', hs'', -⟩ | hends
    · cases hclose.symm.trans hs''
    · rw [hclose] at hends ⊢
      generalize Build.close supply.record t = y at hends
      cases hends with
      | ok h =>
        rename_i t'
        have hcomplete := Finish.complete_congr supply.toHost h.pipeline.hits
          h.pipeline.simplifications
        rw [h.builder] at hcomplete
        dsimp only
        rw [hcomplete]
        have hends := (Finish.complete_blind s'.builder supply.toHost).alike
          (⟨h.context, rfl, rfl⟩ : s'.context.Like _ _ t'.context)
        exact hends.mono fun _ _ h => h.quiet

/-- What the pipeline of the function works on. -/
def space (s : Building) : Workspace :=
  ⟨s.builder.buffer, s.context.log⟩

/-- The trace of the function. -/
def Tracked (s : Building) (ls : List String) (bs : List Buffer) : Prop :=
  s.builder.pipeline.Tracked s.space ls bs

/-- Since `w` the function has grown, and its new lines were traced. -/
def Reports (w : Workspace) (s : Building) : Prop :=
  s.builder.pipeline.Reports w s.space

variable {w : Workspace} {ls : List String} {bs : List Buffer}

section

variable (h : s.builder.pipeline.chain.Traces s.builder.buffer.size)

include h

theorem reports_append (i : Instr) : (s.after (Build.append i)).Reports s.space := by
  rcases Build.after_append s i with ⟨x, -, heq⟩ | ⟨-, heq⟩
  · rw [heq]
    exact .same h rfl (Log.traced_push rfl)
  · rw [heq]
    exact .feed h i

theorem reports_run (r : Request) : (s.after r.run).Reports s.space := by
  refine after_run (P := Reports s.space) r (fun _ => .same h rfl rfl) (fun i t hsends => ?_)
    (fun t hbinds => ?_) (fun _ _ _ _ => .same h rfl (Log.traced_push rfl))
  · obtain ⟨returns, params, guards, rfl⟩ := hsends.counting
    exact reports_append (s := s.counting returns params guards) h i
  · cases hbinds with
    | target hset => exact .same h (Buffer.size_of_setTarget hset) rfl
    | entry => exact .same h (Buffer.size_assign _ _ _) rfl

/-- Closing a function traces what it adds. -/
theorem reports_close (record : BitVec 64) : (s.after (Build.close record)).Reports s.space := by
  have happend : ∀ i, (Build.append i).Preserves (Reports s.space) := by
    refine fun i => preserves_iff.mpr fun t ht => ?_
    refine Pipeline.Reports.trans ht (reports_append ht.chain i) ?_
    exact preserves_iff.mp (extends_append _ i) t (.refl _)
  exact preserves_iff.mp (Build.preserves_close happend (fun _ _ h => h) record) s
    (.same h rfl rfl)

end

/-- The buffer after each of the requests. -/
def buffers (s : Building) : List Request → List Buffer
  | [] => []
  | r :: rs => (s.after r.run).builder.buffer :: (s.after r.run).buffers rs

theorem Tracked.run (h : s.Tracked ls bs) (rs : List Request) :
    (s.afterAll rs).Tracked ls (bs ++ s.buffers rs) := by
  induction rs generalizing s bs with
  | nil => rw [buffers, List.append_nil]; exact h
  | cons r rs ih =>
    have hstep := Pipeline.Tracked.push h (reports_run h.chain r)
    rw [buffers, List.append_cons]
    exact ih hstep

theorem Tracked.closed (h : s.Tracked ls bs) (record : BitVec 64) :
    (s.closed record).Tracked ls (bs ++ [(s.closed record).builder.buffer]) := by
  refine Pipeline.Tracked.push h ?_
  show (s.closed record).Reports s.space
  unfold Building.closed
  split
  · exact .same h.chain rfl rfl
  · exact reports_close h.chain record

end Building

/-! ### Whole runs -/

/-- The same code comes of two buffers, whatever was counted and reported before. -/
def SameCode [Machine.BlockEncoder] (b b' : Buffer) (maxFrame maxFrame' : Nat) : Prop :=
  ∀ stats l l', Step.Alike (fun a a' => a.stats = a'.stats)
    (compile b maxFrame ⟨stats, l⟩) (compile b' maxFrame' ⟨stats, l'⟩)

theorem sameCode [Machine.BlockEncoder] (b : Buffer) (maxFrame : Nat) :
    SameCode b b maxFrame maxFrame := by
  intro stats l l'
  have hends := (compile_blind b maxFrame (Log.traced l) (Log.traced l')).alike
    (⟨rfl, rfl, rfl⟩ : Account.Like _ _ ⟨stats, l⟩ ⟨stats, l'⟩)
  exact hends.mono fun _ _ h => h.stats

theorem Draft.sheds_start {c d : Config} (h : c.quiet = d.quiet) (optimize : Bool) (id : Nat)
    (l l' : Log) : (start c.checking optimize id l).Sheds (start d optimize id l') :=
  ⟨Pipeline.sheds_ofConfig h optimize, rfl⟩

namespace Context

section

variable (c : Context) (name : String) (optimize : Bool)

theorem startFunction_eq_after : c.startFunction name optimize
      = (c.opened name optimize).after (Build.append (.plain .start [])) :=
  rfl

theorem guarded_opened : (c.checking.opened name optimize).Guarded :=
  Pipeline.guarded_ofConfig (c := c.config.checking) rfl optimize c.nextBuffer

theorem guarded_built (rs : List Request) : (c.checking.built name optimize rs).Guarded := by
  refine built_induction ?_ Building.Guarded.preserves_run rs
  rw [← startFunction_eq]
  exact Building.preserves_iff.mp (Building.Guarded.preserves_append _) _
    (c.guarded_opened name optimize)

end

section

variable {c d : Context} (h : c.quiet = d.quiet) (name : String) (optimize : Bool)

include h

theorem sheds_opened : (c.checking.opened name optimize).Sheds (d.opened name optimize) := by
  have hbuffer : c.nextBuffer = d.nextBuffer := (congrArg Context.nextBuffer h :)
  refine ⟨(congrArg (fun c : Context => c.opening name) h :), ?_, ?_⟩
  · show Builder.mk _ _ _ (.empty c.nextBuffer) _ _ _ _
      = Builder.mk _ _ _ (.empty d.nextBuffer) _ _ _ _
    rw [hbuffer]
    rfl
  · exact Pipeline.sheds_ofConfig (congrArg Context.config h :) optimize

/-- The start of a function is not refused. -/
theorem sheds_start :
    (c.checking.startFunction name optimize).Sheds (d.startFunction name optimize) := by
  obtain ⟨x, s, happend, -⟩ := (c.guarded_opened name optimize).append
    (i := .plain .start []) rfl rfl
  rw [startFunction_eq_after, startFunction_eq_after]
  rcases Build.append_agrees (.plain .start []) _ _ (sheds_opened h name optimize)
    with ⟨e, s', hs', -⟩ | hends
  · cases happend.symm.trans hs'
  · exact .after hends

end

theorem tracked_start {c : Context} (h : c.config.verbose = true) (name : String)
    (optimize : Bool) :
    (c.startFunction name optimize).Tracked (Log.traced c.log)
      [(c.startFunction name optimize).builder.buffer] := by
  have hlog : Log.traced (c.opened name optimize).context.log = Log.traced c.log :=
    (Log.traced_push rfl).trans (Log.traced_push rfl)
  have hopened : (c.opened name optimize).Tracked (Log.traced c.log) [] :=
    ⟨Pipeline.traces_ofConfig h optimize, [], by rw [List.append_nil]; exact hlog, .nil⟩
  exact Pipeline.Tracked.push hopened (Building.reports_append hopened.chain _)

/-- Diagnostics do not influence code. Take contexts `c` and `d` that differ at most in tracing,
    checking and reports, and steps of which none is refused by a check when `c` is used with checks:
    either instructions are sent through a pipeline and jumps are bound in the buffer, or a function
    is built and finished. With `c` and with `d`, the answers to the steps are the same, and so are
    the buffers, the counters of the pipeline, and what compiling yields: an error, or code, exits
    and the size of the frame. The function is finished in the same way.

    If `d` asks for tracing, the lines that are traced with it are those of the buffer from its
    first instruction to its last, each as it stood after the step by which it came to be. -/
theorem diagnostics_transparent [Machine.BlockEncoder] {c d : Context} (h : c.quiet = d.quiet)
    (optimize : Bool) :
    (∀ (id : Nat) (l l' : Log) (es : List Edit),
      (∀ a ∈ (Draft.start c.config.checking optimize id l).answers es, a.isInvalid = false) →
      let s := Draft.start c.config optimize id l
      let t := Draft.start d.config optimize id l'
      s.answers es = t.answers es ∧
      (s.afterAll es).space.buffer = (t.afterAll es).space.buffer ∧
      (s.afterAll es).pipeline.hits = (t.afterAll es).pipeline.hits ∧
      (s.afterAll es).pipeline.simplifications = (t.afterAll es).pipeline.simplifications ∧
      SameCode (s.afterAll es).space.buffer (t.afterAll es).space.buffer
        c.config.maxFrame d.config.maxFrame ∧
      (d.config.verbose = true → ∃ lines,
        Log.traced (t.afterAll es).space.log = Log.traced l' ++ lines ∧
        Buffer.Recorded (t.buffers es) (t.afterAll es).space.buffer.size lines)) ∧
    (∀ (name : String) (rs : List Request) (supply : Supply),
      (∀ a ∈ (c.checking.startFunction name optimize).answers rs, a.isInvalid = false) →
      let s := c.startFunction name optimize
      let t := d.startFunction name optimize
      s.answers rs = t.answers rs ∧
      (s.afterAll rs).builder.buffer = (t.afterAll rs).builder.buffer ∧
      (s.afterAll rs).builder.pipeline.hits = (t.afterAll rs).builder.pipeline.hits ∧
      (s.afterAll rs).builder.pipeline.simplifications
        = (t.afterAll rs).builder.pipeline.simplifications ∧
      ((s.afterAll rs).closed supply.record).builder.buffer =
        ((t.afterAll rs).closed supply.record).builder.buffer ∧
      SameCode ((s.afterAll rs).closed supply.record).builder.buffer
        ((t.afterAll rs).closed supply.record).builder.buffer c.config.maxFrame d.config.maxFrame ∧
      Step.Alike (fun c d => c.quiet = d.quiet) ((s.afterAll rs).finish supply)
        ((t.afterAll rs).finish supply) ∧
      (d.config.verbose = true → ∃ lines,
        Log.traced ((t.afterAll rs).finished supply).log = Log.traced d.log ++ lines ∧
        Buffer.Recorded (t.builder.buffer :: t.buffers rs ++
            [((t.afterAll rs).closed supply.record).builder.buffer])
          ((t.afterAll rs).closed supply.record).builder.buffer.size lines)) := by
  have hconfig : c.config.quiet = d.config.quiet := (congrArg Context.config h :)
  have hframe : c.config.maxFrame = d.config.maxFrame := (congrArg Config.maxFrame hconfig :)
  refine ⟨fun id l l' es hv => ?_, fun name rs supply hv => ?_⟩
  · -- both are compared with the run that checks
    obtain ⟨hleft, hs⟩ := (Draft.sheds_start rfl optimize id l l).run hv
    obtain ⟨hright, ht⟩ := (Draft.sheds_start hconfig optimize id l l').run hv
    have hbuffer := hs.buffer.trans ht.buffer.symm
    refine ⟨hleft.trans hright.symm, hbuffer, hs.pipeline.hits.symm.trans ht.pipeline.hits,
      hs.pipeline.simplifications.symm.trans ht.pipeline.simplifications, ?_, fun hverbose => ?_⟩
    · rw [hbuffer, hframe]
      exact sameCode _ _
    · exact ((Draft.tracked_start hverbose optimize id l').run es).lines
  · have hguarded := c.guarded_built name optimize rs
    obtain ⟨hleft, hs⟩ := (sheds_start rfl name optimize).run hv
    obtain ⟨hright, ht⟩ := (sheds_start h name optimize).run hv
    have hclosed := (hs.closed hguarded supply.record).buffer.trans
      (ht.closed hguarded supply.record).buffer.symm
    refine ⟨hleft.trans hright.symm, hs.buffer.trans ht.buffer.symm,
      hs.pipeline.hits.symm.trans ht.pipeline.hits,
      hs.pipeline.simplifications.symm.trans ht.pipeline.simplifications, hclosed, ?_,
      .common (fun h h' => h.symm.trans h') (hs.finish hguarded supply) (ht.finish hguarded supply),
      fun hverbose => ?_⟩
    · rw [hclosed, hframe]
      exact sameCode _ _
    · rw [Building.traced_finished]
      exact (((tracked_start hverbose name optimize).run rs).closed supply.record).lines

/-- Returns eight times a parameter. -/
def scaledParam : List Request :=
  [.parameter, .append (.const (.int64 8)), .append (.plain (.arith .w64 .mul) [⟨0, 1⟩, ⟨0, 2⟩]),
    .returnValue .int64 ⟨0, 4⟩]

/-- A context that traces instead of checking. -/
def tracing : Context :=
  { standard with config := { Config.standard with verbose := true, validate := false } }

section

attribute [local instance] Machine.shrinking

/-- With checks nothing is refused, so tracing instead of checking makes no difference. The product
    becomes a shift, and two more instructions close the function, so that eight lines are
    traced. -/
theorem diagnostics_transparent_scaled :
    (∀ a ∈ (Draft.start standard.config.checking true 0 #[]).answers
        (Pipeline.scaledStore.map .send), a.isInvalid = false) ∧
      (Draft.start standard.config true 0 #[]).answers (Pipeline.scaledStore.map .send)
        = (Draft.start tracing.config true 0 #[]).answers (Pipeline.scaledStore.map .send) ∧
      (∀ a ∈ (standard.checking.startFunction "scaled" true).answers scaledParam,
        a.isInvalid = false) ∧
      Step.Alike (fun c d => c.quiet = d.quiet)
        ((standard.built "scaled" true scaledParam).finish (.granting 65536 1))
        ((tracing.built "scaled" true scaledParam).finish (.granting 65536 1)) ∧
      ∃ lines, Log.traced ((tracing.built "scaled" true scaledParam).finished
        (.granting 65536 1)).log = lines ∧ lines.length = 8 := by
  have hdraft : ∀ a ∈ (Draft.start standard.config.checking true 0 #[]).answers
      (Pipeline.scaledStore.map .send), a.isInvalid = false := by decide +kernel
  have hbuild : ∀ a ∈ (standard.checking.startFunction "scaled" true).answers scaledParam,
      a.isInvalid = false := by decide +kernel
  have hquiet : standard.quiet = tracing.quiet := rfl
  obtain ⟨hsends, hbuilds⟩ := diagnostics_transparent hquiet true
  have hsame := (hsends 0 #[] #[] _ hdraft).1
  obtain ⟨-, -, -, -, -, -, hfinish, htraced⟩ :=
    hbuilds "scaled" scaledParam (.granting 65536 1) hbuild
  obtain ⟨lines, hlines, hrecorded⟩ := htraced rfl
  have hsize : ((tracing.built "scaled" true scaledParam).closed 1).builder.buffer.size = 8 := by
    decide +kernel
  have hlength := congrArg List.length hrecorded.lines
  rw [List.length_map, List.length_map, List.length_range] at hlength
  have hnil : Log.traced tracing.log = [] := rfl
  rw [hnil, List.nil_append] at hlines
  exact ⟨hdraft, hsame, hbuild, hfinish, lines, hlines, hlength.trans hsize⟩

end

end Context

end JitBackend
