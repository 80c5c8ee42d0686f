import JitBackend.Proofs.References

namespace JitBackend

/-!
# Failed requests

There are two ways for a request to a function under construction to fail. One that is refused with
an error has changed nothing, so it might as well not have been made. A raw instruction that refers
to another function is dropped: the function goes on as if it had not been sent, but can no longer
be finished, and what was there under its name stays.

* `Building.accepted` — requests without those that are refused;
* `Building.afterAll_accepted`, `Building.answers_accepted` — they might as well be left out;
* `Building.rejection?` — the handle because of which a raw instruction is dropped;
* `Building.error_afterAll` — the first of them is why the function cannot be finished;
* `Context.built_failures_traceless` — both, for whole runs.
-/

/-- Whether the answer is an error. -/
def Answer.isRefusal : Answer → Bool
  | .error (.error _) => true
  | _ => false

/-- The instruction that the caller of a request makes up. -/
def Request.raw? : Request → Option Instr
  | .append i => some i
  | .returnValue t h => some (.plain (.ret t) [h])
  | _ => none

namespace Building

variable {s t : Building} {r : Request} {i : Instr}

/-! ### Refused requests -/

/-- The requests without those that are refused. -/
def accepted (s : Building) : List Request → List Request
  | [] => []
  | r :: rs =>
    if r.isRefusable && (s.answer r).isRefusal then (s.after r.run).accepted rs
    else r :: (s.after r.run).accepted rs

/-- Only requests that can be refused are answered with an error, and then nothing changes. -/
theorem after_of_isRefusal (h : (s.answer r).isRefusal = true) :
    r.isRefusable = true ∧ s.after r.run = s := by
  have hout := r.run_outcome s
  rw [answer] at h
  rw [after]
  generalize r.run s = x at hout h
  cases hout with
  | refused hr => exact ⟨hr, rfl⟩
  | bound => cases h
  | aborted => cases h
  | added hsends =>
    rename_i i t
    cases hrun : Build.append i t with
    | ok a u => rw [Step.map_ok hrun] at h; cases h
    | error e u =>
      rw [Step.map_error hrun] at h
      cases e with
      | error e => exact absurd hrun (Build.append_ne_error _ _)
      | fault f => cases h

/-- Without the requests that are refused, the function is the same in the end. -/
theorem afterAll_accepted (s : Building) (rs : List Request) :
    s.afterAll (s.accepted rs) = s.afterAll rs := by
  induction rs generalizing s with
  | nil => rfl
  | cons r rs ih =>
    rw [accepted, afterAll]
    split
    · rename_i h
      rw [(after_of_isRefusal (Bool.and_eq_true_iff.mp h).2).2]
      exact ih s
    · exact ih (s.after r.run)

/-- The other requests are answered as before. -/
theorem answers_accepted (s : Building) (rs : List Request) :
    s.answers (s.accepted rs) = (s.answers rs).filter fun a => !a.isRefusal := by
  induction rs generalizing s with
  | nil => rfl
  | cons r rs ih =>
    rw [accepted, answers, List.filter_cons]
    cases h : (s.answer r).isRefusal with
    | true =>
      obtain ⟨hr, hsame⟩ := after_of_isRefusal h
      rw [hr, hsame]
      exact ih s
    | false =>
      rw [Bool.and_false]
      exact congrArg _ (ih (s.after r.run))

/-! ### Rejected instructions -/

/-- The handle of another function that makes the function drop the instruction asked for. -/
def rejection? (s : Building) (r : Request) : Option Handle :=
  r.raw?.bind s.builder.buffer.foreignOperand?

/-- The first such handle in a run. -/
def firstRejection? (s : Building) : List Request → Option Handle
  | [] => none
  | r :: rs => s.rejection? r <|> (s.after r.run).firstRejection? rs

/-- A dropped instruction leaves the buffer and the pipeline alone; the handle is the answer. -/
theorem run_of_rejection {h : Handle} (hr : s.rejection? r = some h) :
    s.answer r = .ok (some h) ∧ (s.after r.run).builder.buffer = s.builder.buffer ∧
      (s.after r.run).builder.pipeline = s.builder.pipeline := by
  cases r with
  | append i =>
    have hrun : Request.run (.append i) s = .ok (some h) (s.rejecting i h) :=
      Step.map_ok (Build.append_of_foreign hr)
    rw [answer, after, hrun]
    exact ⟨rfl, rfl, rfl⟩
  | returnValue t x =>
    have hrun : Request.run (.returnValue t x) s = .ok (some h) (Building.rejecting
        (s.counting (s.builder.returns.insert (.val t)) s.builder.params s.builder.guards) _ h) :=
      Step.map_ok (Build.append_of_foreign (s := s.counting _ _ _) hr)
    rw [answer, after, hrun]
    exact ⟨rfl, rfl, rfl⟩
  | parameter | leave | call | setTarget | setTableTarget => cases hr

/-- The arguments of a call have been looked up. -/
theorem contains_of_argKinds {b : Buffer} {args : List Handle} {kinds : List ArgKind}
    (h : Build.argKinds b args = .ok kinds) : ∀ x ∈ args, b.contains x = true := by
  induction args generalizing kinds with
  | nil => exact fun x hx => nomatch hx
  | cons y rest ih =>
    rw [Build.argKinds, List.mapM_cons, Except.bind_eq_ok] at h
    obtain ⟨kind, hy, h⟩ := h
    obtain ⟨kinds', hrest, -⟩ := Except.bind_eq_ok.mp h
    refine List.forall_mem_cons.mpr ⟨?_, ih hrest⟩
    split at hy
    · rename_i j hj
      exact Buffer.contains_of_get? hj
    · cases hy

/-- Instructions that are not made up by the caller are never dropped. -/
theorem rejection?_eq (h : r.Sends s i t) :
    s.rejection? r = s.builder.buffer.foreignOperand? i := by
  cases h with
  | append | returnValue | parameter | leave => rfl
  | call h =>
    obtain ⟨_, _, kinds, -, hargs, rfl⟩ := Build.lowerCall_eq_ok h
    refine (Buffer.foreignOperand?_eq_none.mpr fun x hx => ?_).symm
    exact contains_of_argKinds hargs x (List.mem_reverse.mp hx)

/-- A request adds what it drops to the error of the function, if it is the first. -/
theorem error_after (s : Building) (r : Request) : (s.after r.run).builder.error =
    (s.builder.error <|> (s.rejection? r).map BuildError.foreignInstruction) := by
  have hnone : r.raw? = none → s.builder.error =
      (s.builder.error <|> (s.rejection? r).map BuildError.foreignInstruction) := by
    intro h
    rw [rejection?, h]
    cases s.builder.error <;> rfl
  refine after_run (P := fun t => t.builder.error =
    (s.builder.error <|> (s.rejection? r).map BuildError.foreignInstruction)) r
    (fun hr => hnone ?_) (fun i t hsends => ?_) (fun t ht => ?_) (fun hr _ _ _ => hnone ?_)
  · cases r <;> first | rfl | cases hr
  · rw [rejection?_eq hsends]
    obtain ⟨returns, params, guards, rfl⟩ := hsends.counting
    rcases Build.after_append (s.counting returns params guards) i with ⟨h, hi, heq⟩ | ⟨hi, heq⟩
    · have hi : s.builder.buffer.foreignOperand? i = some h := hi
      rw [heq, hi]
      rfl
    · have hi : s.builder.buffer.foreignOperand? i = none := hi
      rw [heq, hi]
      show s.builder.error = _
      cases s.builder.error <;> rfl
  · cases ht with
    | target => exact hnone rfl
    | entry => exact hnone rfl
  · cases r <;> first | rfl | cases hr

theorem error_afterAll (s : Building) (rs : List Request) : (s.afterAll rs).builder.error =
    (s.builder.error <|> (s.firstRejection? rs).map BuildError.foreignInstruction) := by
  induction rs generalizing s with
  | nil =>
    rw [afterAll, firstRejection?]
    cases s.builder.error <;> rfl
  | cons r rs ih =>
    rw [afterAll, ih, error_after, firstRejection?]
    cases s.builder.error with
    | some e => rfl
    | none => cases s.rejection? r <;> rfl

end Building

/-- Statistics do not count names. -/
theorem Session.stats_intern (s : Session) (name : String) : (s.intern name).2.stats = s.stats := by
  rw [intern]
  split <;> rfl

namespace Context

/-- Failed requests leave no trace. With any settings and after any requests: requests that are
    refused with an error may be left out, and the function, its pipeline and its context are the
    same, as are the answers to the other requests and the outcome of finishing it. A raw
    instruction that refers to another function is answered with the handle in question and changes
    neither buffer nor pipeline. The first such handle of a run is the error with which finishing
    fails, whatever the system supplies. Finishing changes no function then, and building has
    changed none but for the cells that requests have bound; code space, statistics and records of
    guards are what they were before the function was begun, so that an earlier function of its name
    can still be called. -/
theorem built_failures_traceless [Machine.BlockEncoder] (c : Context) (name : String)
    (optimize : Bool) (rs : List Request) :
    (c.built name optimize ((c.startFunction name optimize).accepted rs) = c.built name optimize rs ∧
      (c.startFunction name optimize).answers ((c.startFunction name optimize).accepted rs) =
        ((c.startFunction name optimize).answers rs).filter (fun a => !a.isRefusal) ∧
      ∀ supply, (c.built name optimize ((c.startFunction name optimize).accepted rs)).finish supply =
        (c.built name optimize rs).finish supply) ∧
    (∀ r h, (c.built name optimize rs).rejection? r = some h →
      (c.built name optimize rs).answer r = .ok (some h) ∧
      ((c.built name optimize rs).after r.run).builder.buffer =
        (c.built name optimize rs).builder.buffer ∧
      ((c.built name optimize rs).after r.run).builder.pipeline =
        (c.built name optimize rs).builder.pipeline) ∧
    (∀ h, (c.startFunction name optimize).firstRejection? rs = some h → ∀ supply, ∃ d,
      (c.built name optimize rs).finish supply =
        .error (.error (.build (.foreignInstruction h))) d ∧
      d.registry = (c.built name optimize rs).context.registry ∧
      d.registry = c.registry.assignAll ((c.startFunction name optimize).boundCells rs) ∧
      d.space = c.space ∧ d.session.stats = c.session.stats ∧ d.installed = c.installed ∧
      d.records = c.records ∧ d.registry.resolve name = c.registry.resolve name) := by
  have hsame : c.built name optimize ((c.startFunction name optimize).accepted rs) =
      c.built name optimize rs := Building.afterAll_accepted _ rs
  refine ⟨⟨hsame, Building.answers_accepted _ rs, fun supply => by rw [hsame]⟩,
    fun r h hr => Building.run_of_rejection hr, fun h hfirst supply => ?_⟩
  have herror : (c.built name optimize rs).builder.error = some (.foreignInstruction h) := by
    rw [built, Building.error_afterAll, hfirst, startFunction_eq]
    rfl
  refine ⟨_, by rw [Building.finish, herror], ?_⟩
  have hfor := c.built_for name optimize rs
  have hstats : (c.built name optimize rs).context.session.stats = c.session.stats := by
    rw [hfor.session]
    exact c.session.stats_intern name
  exact ⟨rfl, hfor.registry, hfor.space, hstats, hfor.installed, hfor.records,
    (congrArg (Registry.resolve · name) hfor.registry).trans (Registry.resolve_assignAll ..)⟩

end Context

end JitBackend
