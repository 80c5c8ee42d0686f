import JitBackend.Finish
import JitBackend.Proofs.Run

namespace JitBackend

/-!
# Requests to a function under construction

A request is refused before anything has changed, or it counts something and adds one instruction,
or it binds a jump. What holds of a function under construction is shown by these cases.

* `Building.answers`, `Building.afterAll` — requests carried out one after another;
* `Build.append_of_foreign`, `Build.append_of_own` — what adding an instruction does;
* `Request.Sends` — which instruction a request adds, `Request.Binds` — which jump it binds;
* `Building.boundCells` — the entries of jump tables that requests bind, here and in other functions;
* `Request.run_outcome` — a request does one of these, or is refused, or gives up;
* `Context.built` — a function under construction after some requests.
-/

/-- A result, or why there is none. -/
abbrev Answer := Except (Stop BuildError) (Option Handle)

variable {P : Building → Prop} {α : Type}

namespace Building

/-- The answer to a request. -/
def answer (s : Building) (r : Request) : Answer :=
  match r.run s with
  | .ok a _ => .ok a
  | .error e _ => .error e

/-- The state after requests. What a request has changed before it stopped short stays. -/
def afterAll (s : Building) : List Request → Building
  | [] => s
  | r :: rs => (s.after r.run).afterAll rs

/-- The answers to requests, in order. -/
def answers (s : Building) : List Request → List Answer
  | [] => []
  | r :: rs => s.answer r :: (s.after r.run).answers rs

/-- What every request keeps holds after all of them. -/
theorem afterAll_induction (hstep : ∀ s r, P s → P (s.after (Request.run r))) {s : Building}
    (h : P s) (rs : List Request) : P (s.afterAll rs) := by
  induction rs generalizing s with
  | nil => exact h
  | cons r rs ih => exact ih (hstep s r h)

/-! ### States on the way -/

/-- The function with other counters. -/
def counting (s : Building) (returns : ReturnKinds) (params guards : Nat) : Building :=
  { s with builder := { s.builder with returns, params, guards } }

/-- The function with another buffer. -/
def withBuffer (s : Building) (b : Buffer) : Building :=
  { s with builder := { s.builder with buffer := b } }

/-- A cell was bound to a label, in all functions that share it. -/
def binding (s : Building) (place : BitVec 64) (label : Handle) : Building :=
  ⟨{ s.context with registry := s.context.registry.assign place label },
    { s.builder with buffer := s.builder.buffer.assign place label }⟩

/-- The instruction `i` was refused because of the handle `h`. -/
def rejecting (s : Building) (i : Instr) (h : Handle) : Building :=
  ⟨s.context.report (.rejected s.builder.name i.opcode (.foreignInstruction h)),
    { s.builder with error := s.builder.error <|> some (.foreignInstruction h) }⟩

/-- The outcome of sending an instruction through the pipeline. -/
def sent (s : Building) (i : Instr) : Fed s.builder.pipeline.depth :=
  s.builder.pipeline.chain.feed i ⟨s.builder.buffer, s.context.log⟩

/-- An instruction was sent through the pipeline. -/
def sending (s : Building) (i : Instr) : Building :=
  ⟨{ s.context with log := (s.sent i).space.log },
    { s.builder with pipeline := ⟨_, (s.sent i).chain⟩, buffer := (s.sent i).space.buffer }⟩

end Building

/-! ### Adding an instruction -/

namespace Build

variable {s : Building} {i : Instr}

theorem append_of_foreign {h : Handle} (hi : s.builder.buffer.foreignOperand? i = some h) :
    append i s = .ok h (s.rejecting i h) := by
  rw [append, Step.bind_get]
  simp only [hi]
  rfl

/-- The answer is that of the pipeline. -/
theorem append_of_own (hi : s.builder.buffer.foreignOperand? i = none) :
    append i s = Step.liftFault (s.sent i).answer (s.sending i) := by
  rw [append, Step.bind_get]
  simp only [hi]
  rfl

/-- The state after adding an instruction. -/
theorem after_append (s : Building) (i : Instr) :
    (∃ h, s.builder.buffer.foreignOperand? i = some h ∧ s.after (append i) = s.rejecting i h) ∨
      s.builder.buffer.foreignOperand? i = none ∧ s.after (append i) = s.sending i := by
  cases hi : s.builder.buffer.foreignOperand? i with
  | some h => exact .inl ⟨h, rfl, by rw [Building.after, append_of_foreign hi]⟩
  | none =>
    refine .inr ⟨rfl, ?_⟩
    rw [Building.after, append_of_own hi]
    cases (s.sent i).answer <;> rfl

/-- Adding an instruction is never refused with an error. -/
theorem append_ne_error (e : BuildError) (t : Building) : append i s ≠ .error (.error e) t := by
  cases hi : s.builder.buffer.foreignOperand? i with
  | some h => rw [append_of_foreign hi]; exact fun h => nomatch h
  | none =>
    rw [append_of_own hi]
    cases (s.sent i).answer <;> exact fun h => nomatch h

end Build

/-! ### Requests -/

namespace Request

/-- Whether the request can be refused. -/
def isRefusable : Request → Bool
  | .parameter | .call _ _ _ _ | .setTarget _ _ | .setTableTarget _ _ _ => true
  | .append _ | .returnValue _ _ | .leave _ => false

/-- The request adds the instruction `i` after it has counted what there is to count. -/
inductive Sends (s : Building) : Request → Instr → Building → Prop where
  | parameter (h : s.builder.params < maxParams) :
      Sends s .parameter ⟨.param, .empty, .param (BitVec.ofNat 8 s.builder.params)⟩
        (s.counting s.builder.returns (s.builder.params + 1) s.builder.guards)
  | append (i : Instr) : Sends s (.append i) i s
  | returnValue (t : ValTy) (h : Handle) :
      Sends s (.returnValue t h) (.plain (.ret t) [h])
        (s.counting (s.builder.returns.insert (.val t)) s.builder.params s.builder.guards)
  | leave (record : BitVec 64) :
      Sends s (.leave record)
        ⟨.exit, .empty, .guard ⟨BitVec.ofNat 32 s.builder.guards, s.builder.name, record⟩⟩
        (s.counting (s.builder.returns.insert .void) s.builder.params (s.builder.guards + 1))
  | call {callee : String} {op : Opcode} {abi : Abi} {args : List Handle} {site : CallSite}
      (h : Build.lowerCall callee op abi args s = .ok site s) :
      Sends s (.call callee op abi args) ⟨op, .empty, .call site⟩ s

/-- Requests change the counters only, before they add an instruction. -/
theorem Sends.counting {s t : Building} {r : Request} {i : Instr} (h : r.Sends s i t) :
    ∃ returns params guards, t = s.counting returns params guards := by
  cases h <;> exact ⟨_, _, _, rfl⟩

/-- The request binds a jump. -/
inductive Binds (s : Building) : Request → Building → Prop where
  | target {branch label : Handle} {b : Buffer}
      (h : s.builder.buffer.setTarget branch label = .ok b) :
      Binds s (.setTarget branch label) (s.withBuffer b)
  | entry {table label : Handle} {n : Nat} {cell : Cell}
      (h : s.builder.buffer.tableCell table n label = .ok cell) :
      Binds s (.setTableTarget table n label) (s.binding cell.place label)

/-- What a request does. -/
inductive Outcome (s : Building) :
    Request → EStateM.Result (Stop BuildError) Building (Option Handle) → Prop where
  /-- It is refused, and nothing changes. -/
  | refused {r : Request} {e : BuildError} (h : r.isRefusable = true) :
      Outcome s r (.error (.error e) s)
  /-- It adds an instruction. -/
  | added {r : Request} {i : Instr} {t : Building} (h : r.Sends s i t) :
      Outcome s r ((some <$> Build.append i) t)
  /-- It binds a jump. -/
  | bound {r : Request} {t : Building} (h : r.Binds s t) : Outcome s r (.ok none t)
  /-- The process is told to give up, which happens on a call alone. -/
  | aborted {callee : String} {op : Opcode} {abi : Abi} {args : List Handle}
      {declared deduced : Signature} (h : s.context.config.mismatch = .abort) :
      Outcome s (.call callee op abi args) (.error (.fault .aborted)
        { s with context := s.context.report (.mismatchAborted callee declared deduced) })

end Request

/-! ### Every request -/

namespace Build

/-- What is known of a call that can be lowered: who is called, the kinds of the arguments, and the
    signature of the call, which goes with that of the callee. -/
structure Deduced (s : Building) (callee : String) (op : Opcode) (args : List Handle)
    (target : Callee) (kinds : List ArgKind) (deduced : Signature) : Prop where
  resolved : s.context.registry.resolve callee = .ok target
  arguments : argKinds s.builder.buffer args = .ok kinds
  packed : ∃ result, op.callResult? = some result ∧
    Signature.ofKinds? (.ofTy result) kinds = some deduced
  compatible : deduced.isCompatible target.sig = true

/-- What lowering a call ends with. -/
inductive Lowering (s : Building) (callee : String) (op : Opcode) (abi : Abi)
    (args : List Handle) : EStateM.Result (Stop BuildError) Building CallSite → Prop where
  | refused {e : BuildError} : Lowering s callee op abi args (.error (.error e) s)
  | lowered {target : Callee} {kinds : List ArgKind} {deduced : Signature}
      (h : Deduced s callee op args target kinds deduced) :
      Lowering s callee op abi args (.ok (.ofArgs { target with sig := deduced, abi } args) s)
  | aborted {declared deduced : Signature} (h : s.context.config.mismatch = .abort) :
      Lowering s callee op abi args (.error (.fault .aborted)
        { s with context := s.context.report (.mismatchAborted callee declared deduced) })

/-- Nothing is changed before the last test of a call. -/
theorem lowerCall_lowering (callee : String) (op : Opcode) (abi : Abi) (args : List Handle)
    (s : Building) : Lowering s callee op abi args (lowerCall callee op abi args s) := by
  unfold lowerCall
  dsimp only
  by_cases hlen : maxArgs < args.length
  · rw [if_pos hlen]
    exact .refused
  rw [if_neg hlen]
  cases hop : op.callResult? with
  | none => exact .refused
  | some result =>
  rw [Step.bind_orFail, Step.bind_get]
  by_cases hname : callee = s.builder.name
  · rw [if_pos hname]
    exact .refused
  rw [if_neg hname]
  cases hcallee : s.context.registry.resolve callee with
  | error e => exact .refused
  | ok target =>
  rw [Step.bind_liftError]
  cases hargs : argKinds s.builder.buffer args with
  | error e => exact .refused
  | ok kinds =>
  rw [Step.bind_liftError]
  cases hsig : Signature.ofKinds? (.ofTy result) kinds with
  | none => exact .refused
  | some deduced =>
  rw [Step.bind_orFail]
  by_cases hsame : deduced.isCompatible target.sig = true
  · rw [if_pos hsame]
    exact .lowered ⟨hcallee, hargs, ⟨result, hop, hsig⟩, hsame⟩
  rw [if_neg hsame]
  cases hpolicy : s.context.config.mismatch with
  | abort => exact .aborted hpolicy
  | error => exact .refused

section

variable {callee : String} {op : Opcode} {abi : Abi} {args : List Handle} {s t : Building}
  {site : CallSite} (h : lowerCall callee op abi args s = .ok site t)

include h

/-- A call that is lowered is what it was deduced to be, and nothing has changed. -/
theorem lowerCall_deduced :
    t = s ∧ ∃ target kinds deduced, Deduced s callee op args target kinds deduced ∧
      site = .ofArgs { target with sig := deduced, abi } args := by
  have hout := lowerCall_lowering callee op abi args s
  rw [h] at hout
  cases hout with
  | lowered hd => exact ⟨rfl, _, _, _, hd, rfl⟩

/-- What is known of the callee and the arguments of a call that is lowered. -/
theorem lowerCall_eq_ok : ∃ target deduced kinds, s.context.registry.resolve callee = .ok target ∧
      argKinds s.builder.buffer args = .ok kinds ∧
      site = .ofArgs { target with sig := deduced, abi } args := by
  obtain ⟨-, target, kinds, deduced, hd, hsite⟩ := lowerCall_deduced h
  exact ⟨target, deduced, kinds, hd.resolved, hd.arguments, hsite⟩

end

/-- There is room for the next parameter, or nothing changes. -/
theorem parameter_eq (s : Building) :
    parameter s = if maxParams ≤ s.builder.params then
        .error (.error (.tooManyParameters s.builder.params maxParams)) s
      else append ⟨.param, .empty, .param (BitVec.ofNat 8 s.builder.params)⟩
        (s.counting s.builder.returns (s.builder.params + 1) s.builder.guards) := by
  rw [parameter, Step.bind_get]
  split <;> rfl

/-- The buffer is changed as asked, or nothing is. -/
theorem rebuffer_eq (f : Buffer → Except BuildError Buffer) (s : Building) :
    rebuffer f s = match f s.builder.buffer with
      | .ok b => .ok () (s.withBuffer b)
      | .error e => .error (.error e) s := by
  rw [rebuffer, Step.bind_get]
  cases f s.builder.buffer <;> rfl

/-- The cell is bound wherever it is, or nothing changes. -/
theorem setTableTarget_eq (table label : Handle) (n : Nat) (s : Building) :
    setTableTarget table n label s = match s.builder.buffer.tableCell table n label with
      | .ok cell => .ok () (s.binding cell.place label)
      | .error e => .error (.error e) s := by
  rw [setTableTarget, Step.bind_get]
  cases s.builder.buffer.tableCell table n label <;> rfl

end Build

/-- A jump that can be bound is bound. -/
theorem Request.Binds.run_eq {s t : Building} {r : Request} (h : r.Binds s t) :
    r.run s = .ok none t := by
  cases h with
  | @target branch label b hb =>
    have hrun := Build.rebuffer_eq (·.setTarget branch label) s
    rw [hb] at hrun
    exact Step.bind_ok hrun
  | @entry table label n cell hcell =>
    have hrun := Build.setTableTarget_eq table label n s
    rw [hcell] at hrun
    exact Step.bind_ok hrun

/-- A request does one of the things above. -/
theorem Request.run_outcome (r : Request) (s : Building) : r.Outcome s (r.run s) := by
  cases r with
  | parameter =>
    have hrun := Build.parameter_eq s
    by_cases hmax : maxParams ≤ s.builder.params
    · rw [if_pos hmax] at hrun
      rw [run, Step.map_error hrun]
      exact .refused rfl
    · rw [if_neg hmax] at hrun
      rw [run, Step.map_congr hrun]
      exact .added (.parameter (by omega))
  | append i => exact .added (.append i)
  | returnValue t h => exact .added (.returnValue t h)
  | leave record => exact .added (.leave record)
  | call callee op abi args =>
    rw [run]
    cases hlower : Build.lowerCall callee op abi args s with
    | ok site t =>
      have hrun : Build.call callee op abi args s = Build.append ⟨op, .empty, .call site⟩ t :=
        Step.bind_ok hlower
      have hout := Build.lowerCall_lowering callee op abi args s
      rw [Step.map_congr hrun]
      rw [hlower] at hout
      cases hout with
      | lowered h => exact .added (.call hlower)
    | error e t =>
      have hrun : Build.call callee op abi args s = .error e t := Step.bind_error hlower
      have hout := Build.lowerCall_lowering callee op abi args s
      rw [Step.map_error hrun]
      rw [hlower] at hout
      cases hout with
      | refused => exact .refused rfl
      | aborted h => exact .aborted h
  | setTarget branch label =>
    cases hb : s.builder.buffer.setTarget branch label with
    | ok b =>
      have hbinds : Binds s (.setTarget branch label) _ := .target hb
      rw [hbinds.run_eq]
      exact .bound hbinds
    | error e =>
      have hrun := Build.rebuffer_eq (·.setTarget branch label) s
      rw [hb] at hrun
      rw [run, Step.bind_error hrun]
      exact .refused rfl
  | setTableTarget table n label =>
    cases hcell : s.builder.buffer.tableCell table n label with
    | ok cell =>
      have hbinds : Binds s (.setTableTarget table n label) _ := .entry hcell
      rw [hbinds.run_eq]
      exact .bound hbinds
    | error e =>
      have hrun := Build.setTableTarget_eq table label n s
      rw [hcell] at hrun
      rw [run, Step.bind_error hrun]
      exact .refused rfl

namespace Building

theorem after_eq (s : Building) (x : Build α) : s.after x = x.after s := by
  unfold after Step.after
  cases x s <;> rfl

/-- What is preserved, said of the state after a step. -/
theorem preserves_iff {x : Build α} : x.Preserves P ↔ ∀ s : Building, P s → P (s.after x) :=
  forall₂_congr fun s _ => by rw [after_eq]

theorem after_map {β : Type} (s : Building) (f : α → β) (x : Build α) :
    s.after (f <$> x) = s.after x := by
  have h : (f <$> x) s = EStateM.map f x s := rfl
  unfold after
  rw [h, EStateM.map]
  cases x s <;> rfl

/-- What holds after a request, case by case. -/
theorem after_run {s : Building} (r : Request) (hrefused : r.isRefusable = true → P s)
    (hadded : ∀ i t, r.Sends s i t → P (t.after (Build.append i)))
    (hbound : ∀ t, r.Binds s t → P t)
    (haborted : r.isRefusable = true → ∀ callee declared deduced,
      P { s with context := s.context.report (.mismatchAborted callee declared deduced) }) :
    P (s.after r.run) := by
  have h := r.run_outcome s
  rw [after]
  generalize r.run s = x at h
  cases h with
  | refused hr => exact hrefused hr
  | added h =>
    have hafter := hadded _ _ h
    rw [← after_map _ some] at hafter
    exact hafter
  | bound h => exact hbound _ h
  | aborted => exact haborted rfl _ _ _

end Building

/-! ### Closing -/

namespace Build

theorem exit_eq (record : BitVec 64) (s : Building) :
    exit record s = append
      ⟨.exit, .empty, .guard ⟨BitVec.ofNat 32 s.builder.guards, s.builder.name, record⟩⟩
      (s.counting s.builder.returns s.builder.params (s.builder.guards + 1)) :=
  rfl

theorem keepParam_eq (index : Nat) (s : Building) :
    keepParam index s = match s.builder.buffer.param? index with
      | some h => (append (.plain (.live .int64) [h]) >>= fun _ => pure ()) s
      | none => .ok () s := by
  rw [keepParam, Step.bind_get]
  cases s.builder.buffer.param? index <;> rfl

theorem close_eq (record : BitVec 64) (s : Building) :
    close record s = ((List.range s.builder.params).forM keepParam >>= fun _ =>
      exit record >>= fun _ => pure ()) s :=
  rfl

end Build

/-- Closing a function only counts and adds instructions. -/
theorem Build.preserves_close (happend : ∀ i, (append i).Preserves P)
    (hcount : ∀ s guards, P s → P (s.counting s.builder.returns s.builder.params guards))
    (record : BitVec 64) : (close record).Preserves P := by
  have hparam : ∀ index, (keepParam index).Preserves P := by
    intro index s hs
    rw [Step.after, keepParam_eq]
    cases s.builder.buffer.param? index with
    | none => exact hs
    | some h => exact (happend _).bind (fun _ => Step.preserves_pure ()) s hs
  have hexit : (exit record).Preserves P := by
    intro s hs
    rw [Step.after, exit_eq]
    exact happend _ _ (hcount s _ hs)
  intro s hs
  rw [Step.after, close_eq]
  have hparams := Step.Preserves.forM hparam (List.range s.builder.params)
  exact hparams.bind (fun _ => hexit.bind fun _ => Step.preserves_pure ()) s hs

/-- A function can be closed if its parameters can be kept alive and it can be left. -/
theorem Build.close_yields {s : Building} {record : BitVec 64}
    (hlive : ∀ s index h, P s → s.builder.buffer.param? index = some h →
      Step.Yields (append (.plain (.live .int64) [h])) s fun _ => P)
    (hexit : ∀ s, P s → Step.Yields (exit record) s fun _ => P) (hs : P s) :
    Step.Yields (close record) s fun _ => P := by
  have hparam : ∀ index s, P s → Step.Yields (keepParam index) s fun _ => P := by
    intro index s hs
    rw [Step.Yields, keepParam_eq]
    cases hparam : s.builder.buffer.param? index with
    | none => exact ⟨(), s, rfl, hs⟩
    | some h => exact (hlive s index h hs hparam).andThen fun _ t ht => Step.yields_pure ht
  rw [Step.Yields, close_eq]
  refine Step.Yields.andThen (P := fun _ => P) ?_ fun _ t ht =>
    (hexit t ht).andThen fun _ u hu => Step.yields_pure hu
  exact .forM (fun _ => P) hs fun index _ t => hparam index t

/-! ### Functions under construction -/

/-- The buffer after cells were bound to labels, one after the other. -/
def Buffer.assignAll (b : Buffer) (cells : List (BitVec 64 × Handle)) : Buffer :=
  cells.foldl (fun b cell => b.assign cell.1 cell.2) b

/-- The function after cells were bound to labels, one after the other. -/
def Fragment.assignAll (f : Fragment) (cells : List (BitVec 64 × Handle)) : Fragment :=
  { f with buffer := f.buffer.map (·.assignAll cells) }

namespace Registry

/-- The functions after cells were bound to labels, one after the other. -/
def assignAll (r : Registry) (cells : List (BitVec 64 × Handle)) : Registry :=
  cells.foldl (fun r cell => r.assign cell.1 cell.2) r

theorem fragment?_assignAll (r : Registry) (cells : List (BitVec 64 × Handle)) (x : String) :
    (r.assignAll cells).fragment? x = (r.fragment? x).map (·.assignAll cells) := by
  induction cells generalizing r with
  | nil =>
    show r.fragment? x = _
    cases r.fragment? x with
    | none => rfl
    | some f => simp [Fragment.assignAll, Buffer.assignAll]
  | cons cell cells ih =>
    have hone : (r.assign cell.1 cell.2).fragment? x =
        (r.fragment? x).map (·.assign cell.1 cell.2) := List.find?_map
    refine (ih (r.assign cell.1 cell.2)).trans ?_
    rw [hone, Option.map_map]
    congr 1
    funext f
    simp [Fragment.assignAll, Buffer.assignAll, Fragment.assign, Function.comp_def]

theorem externs_assignAll (r : Registry) (cells : List (BitVec 64 × Handle)) :
    (r.assignAll cells).externs = r.externs := by
  induction cells generalizing r with
  | nil => rfl
  | cons cell cells ih => exact ih (r.assign cell.1 cell.2)

/-- Calls see the same functions. -/
theorem resolve_assignAll (r : Registry) (cells : List (BitVec 64 × Handle)) (x : String) :
    (r.assignAll cells).resolve x = r.resolve x := by
  rw [resolve, resolve, fragment?_assignAll, extern?, extern?, externs_assignAll]
  cases r.fragment? x <;> rfl

end Registry

/-- The context after cells were bound to labels. -/
def Context.bound (c : Context) (cells : List (BitVec 64 × Handle)) : Context :=
  { c with registry := c.registry.assignAll cells }

namespace Building

/-- The cell that a request binds, and the label. -/
def boundCell? (s : Building) : Request → Option (BitVec 64 × Handle)
  | .setTableTarget table n label =>
    (s.builder.buffer.tableCell table n label).toOption.map fun cell => (cell.place, label)
  | _ => none

/-- The cells that requests bind, in order. -/
def boundCells (s : Building) : List Request → List (BitVec 64 × Handle)
  | [] => []
  | r :: rs => (s.boundCell? r).toList ++ (s.after r.run).boundCells rs

/-- The function has this name, and is being built in the context `c` but for reports. -/
structure For (s : Building) (c : Context) (name : String) : Prop where
  context : { s.context with log := c.log } = c
  name : s.builder.name = name

namespace For

variable {s : Building} {c : Context} {name : String}

theorem report (h : s.For c name) (e : Event) :
    Building.For { s with context := s.context.report e } c name :=
  ⟨h.context, h.name⟩

theorem counting (h : s.For c name) (returns : ReturnKinds) (params guards : Nat) :
    (s.counting returns params guards).For c name :=
  ⟨h.context, h.name⟩

theorem append (i : Instr) : (Build.append i).Preserves fun s => s.For c name := by
  refine preserves_iff.mpr fun s h => ?_
  rcases Build.after_append s i with ⟨x, -, heq⟩ | ⟨-, heq⟩
  · rw [heq]; exact ⟨h.context, h.name⟩
  · rw [heq]; exact ⟨h.context, h.name⟩

/-- Only entries of jump tables are shared with other functions. -/
theorem run_of_unshared (h : s.For c name) {r : Request}
    (hr : ∀ table n label, r ≠ .setTableTarget table n label) : (s.after r.run).For c name := by
  refine after_run (P := fun t => t.For c name) r (fun _ => h) (fun i t hsends => ?_)
    (fun t hbinds => ?_) (fun _ _ _ _ => h.report _)
  · obtain ⟨returns, params, guards, rfl⟩ := hsends.counting
    exact preserves_iff.mp (append i) _ (h.counting returns params guards)
  · cases hbinds with
    | target => exact ⟨h.context, h.name⟩
    | entry => exact absurd rfl (hr _ _ _)

/-- A request changes the context only by the cell that it binds. -/
theorem run (h : s.For c name) (r : Request) :
    (s.after r.run).For (c.bound (s.boundCell? r).toList) name := by
  cases r with
  | setTableTarget table n label =>
    rw [after, boundCell?]
    cases hcell : s.builder.buffer.tableCell table n label with
    | error e =>
      have hrun := Build.setTableTarget_eq table label n s
      rw [hcell] at hrun
      rw [Request.run, Step.bind_error hrun]
      exact h
    | ok cell =>
      rw [(Request.Binds.entry hcell).run_eq]
      exact ⟨congrArg (Context.bound · [(cell.place, label)]) h.context, h.name⟩
  | parameter | append | returnValue | leave | call | setTarget => exact h.run_of_unshared (by simp)

theorem close (record : BitVec 64) : (Build.close record).Preserves fun s => s.For c name :=
  Build.preserves_close append (fun _ _ h => h.counting _ _ _) record

variable (h : s.For c name)

include h

theorem config : s.context.config = c.config := by
  rw [← h.context]

theorem session : s.context.session = c.session := by
  rw [← h.context]

theorem space : s.context.space = c.space := by
  rw [← h.context]

theorem registry : s.context.registry = c.registry := by
  rw [← h.context]

theorem installed : s.context.installed = c.installed := by
  rw [← h.context]

theorem records : s.context.records = c.records := by
  rw [← h.context]

/-- Requests change the context only by the cells that they bind. -/
theorem afterAll (rs : List Request) :
    (s.afterAll rs).For (c.bound (s.boundCells rs)) name := by
  induction rs generalizing s c with
  | nil => exact h
  | cons r rs ih =>
    rw [Building.afterAll, boundCells]
    have hrest := ih (h.run r)
    rwa [Context.bound, Context.bound, Registry.assignAll, Registry.assignAll,
      ← List.foldl_append] at hrest

end For

end Building

namespace Context

theorem pageSize_pos : 0 < pageSize := by decide

/-- A context with the default settings. -/
def standard : Context :=
  ⟨.standard, .fresh, ⟨pageSize, 65536, [], pageSize_pos⟩, .empty, 0, 0, [], #[]⟩

/-- The context while a function is being built. -/
def opening (c : Context) (name : String) : Context :=
  { c with
    session := { (c.session.intern name).2 with current := some name }
    nextBuffer := c.nextBuffer + 1 }

/-- A function without instructions. -/
def opened (c : Context) (name : String) (optimize : Bool) : Building :=
  let pipeline := Pipeline.ofConfig c.config optimize
  ⟨((c.opening name).report pipeline.built).report
      (.buildStarted name optimize pipeline.stageNames),
    { name, optimize, pipeline, buffer := .empty c.nextBuffer, returns := .none
      params := 0, guards := 0, error := none }⟩

/-- The start is the first instruction to be sent. -/
theorem startFunction_eq (c : Context) (name : String) (optimize : Bool) :
    c.startFunction name optimize = (c.opened name optimize).sending (.plain .start []) := by
  rcases Build.after_append (c.opened name optimize) (.plain .start []) with ⟨h, hh, -⟩ | ⟨-, h⟩
  · cases hh
  · exact h

/-- A function under construction after requests. -/
def built (c : Context) (name : String) (optimize : Bool) (rs : List Request) : Building :=
  (c.startFunction name optimize).afterAll rs

/-- What holds of a function without instructions, and is kept, holds of functions under
    construction. -/
theorem built_induction {c : Context} {name : String} {optimize : Bool}
    (hopened : P ((c.opened name optimize).sending (.plain .start [])))
    (hstep : ∀ r : Request, r.run.Preserves P) (rs : List Request) :
    P (c.built name optimize rs) := by
  rw [built, startFunction_eq]
  exact Building.afterAll_induction (fun s r => Building.preserves_iff.mp (hstep r) s) hopened rs

theorem built_for (c : Context) (name : String) (optimize : Bool) (rs : List Request) :
    (c.built name optimize rs).For
      ((c.opening name).bound ((c.startFunction name optimize).boundCells rs)) name := by
  have hstart : (c.startFunction name optimize).For (c.opening name) name := by
    rw [startFunction_eq]
    exact ⟨rfl, rfl⟩
  exact hstart.afterAll rs

end Context

end JitBackend
