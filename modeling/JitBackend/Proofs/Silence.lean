import JitBackend.Codegen.Compile
import JitBackend.Proofs.EncoderCalls

namespace JitBackend

/-!
# Silent computations

While code is generated reports are added to a log, but nothing ever reads the log. From states that
differ in the log only, a computation that does not read it yields the same result and states that
differ in the log only.

* `Step.Agrees E R x` — from states related by `R`, the computation `x` ends alike unless it stops
  for one of the reasons `E`, with a rule for each way to compose computations;
* `Step.Blind R x` — the same without such reasons;
* `Log.traced` — the lines in a log about instructions that reached the buffer;
* `CodeState.Like` — the states differ in their logs only;
* `CodeState.Advances` — code was added, but neither an exit nor a compiled instruction;
* `Gen.Silent` — a computation that does not read the log and adds neither an exit nor a compiled
  instruction;
* `Gen.Silent.blind`, `Gen.Silent.advances` — what that comes to.
-/

namespace Step

variable {ε δ σ ρ α β : Type} {E : Stop ε → Prop} {R : σ → σ → Prop} {x : Step ε σ α}

/-- Two computations end alike: with the same value or the same stop, in related states. -/
inductive Alike (R : σ → σ → Prop) :
    EStateM.Result (Stop ε) σ α → EStateM.Result (Stop ε) σ α → Prop where
  | ok {a : α} {s t : σ} (h : R s t) : Alike R (.ok a s) (.ok a t)
  | error {e : Stop ε} {s t : σ} (h : R s t) : Alike R (.error e s) (.error e t)

theorem Alike.mono {R' : σ → σ → Prop} {x y : EStateM.Result (Stop ε) σ α} (h : Alike R x y)
    (hR : ∀ s t, R s t → R' s t) : Alike R' x y := by
  cases h with
  | ok h => exact .ok (hR _ _ h)
  | error h => exact .error (hR _ _ h)

/-- Computations that end as a third one does end alike. -/
theorem Alike.common {x y z : EStateM.Result (Stop ε) σ α}
    (hR : ∀ {s t u}, R s t → R s u → R t u) (hy : Alike R x y) (hz : Alike R x z) :
    Alike R y z := by
  cases hy with
  | ok h => cases hz with | ok h' => exact .ok (hR h h')
  | error h => cases hz with | error h' => exact .error (hR h h')

/-- The computation stops for one of the reasons. -/
def StopsFor (E : Stop ε → Prop) (r : EStateM.Result (Stop ε) σ α) : Prop :=
  ∃ e s, r = .error e s ∧ E e

/-- From related states the computation ends alike, unless it stops for one of the reasons `E` when
    run from the first one. -/
def Agrees (E : Stop ε → Prop) (R : σ → σ → Prop) (x : Step ε σ α) : Prop :=
  ∀ s t, R s t → StopsFor E (x s) ∨ Alike R (x s) (x t)

/-- From related states the computation ends alike. -/
def Blind (R : σ → σ → Prop) (x : Step ε σ α) : Prop :=
  Agrees (fun _ => False) R x

theorem Blind.alike (h : x.Blind R) {s t : σ} (hst : R s t) : Alike R (x s) (x t) :=
  (h s t hst).resolve_left fun ⟨_, _, _, hE⟩ => hE

theorem Agrees.of_eq (h : ∀ s t, R s t → s = t) (h' : ∀ s, R s s) : x.Agrees E R := by
  intro s t hst
  cases h s t hst
  cases hs : x s with
  | ok a s' => exact .inr (.ok (h' s'))
  | error e s' => exact .inr (.error (h' s'))

theorem agrees_pure (a : α) : Agrees E R (pure a : Step ε σ α) :=
  fun _ _ h => .inr (.ok h)

theorem agrees_fail (e : ε) : Agrees E R (fail e : Step ε σ α) :=
  fun _ _ h => .inr (.error h)

theorem agrees_fault (f : Fault) : Agrees E R (fault f : Step ε σ α) :=
  fun _ _ h => .inr (.error h)

/-- What would come next does not matter. -/
theorem agrees_fail_bind (e : ε) (f : α → Step ε σ β) : Agrees E R (fail e >>= f) :=
  fun _ _ h => .inr (.error h)

theorem agrees_fault_bind (f : Fault) (g : α → Step ε σ β) : Agrees E R (fault f >>= g) :=
  fun _ _ h => .inr (.error h)

theorem agrees_orFail (e : ε) (o : Option α) : Agrees E R (orFail e o : Step ε σ α) := by
  cases o with
  | none => exact agrees_fail e
  | some a => exact agrees_pure a

theorem agrees_liftFault (x : Except Fault α) : Agrees E R (liftFault x : Step ε σ α) := by
  cases x with
  | ok a => exact agrees_pure a
  | error f => exact agrees_fault f

theorem agrees_liftError (x : Except ε α) : Agrees E R (liftError x : Step ε σ α) := by
  cases x with
  | ok a => exact agrees_pure a
  | error e => exact agrees_fail e

theorem Agrees.bind {f : α → Step ε σ β} (hx : x.Agrees E R) (hf : ∀ a, (f a).Agrees E R) :
    (x >>= f).Agrees E R := by
  intro s t h
  rcases hx s t h with ⟨e, s', hs, he⟩ | hends
  · exact .inl ⟨e, s', bind_error hs, he⟩
  · cases hs : x s <;> cases ht : x t <;> rw [hs, ht] at hends <;> cases hends
    · rw [bind_ok hs, bind_ok ht]
      exact hf _ _ _ ‹_›
    · rw [bind_error hs, bind_error ht]
      exact .inr (.error ‹_›)

theorem Agrees.map (hx : x.Agrees E R) (f : α → β) : (f <$> x).Agrees E R :=
  hx.bind fun a => agrees_pure (f a)

theorem agrees_ite {c : Prop} [Decidable c] {y : Step ε σ α} (hx : x.Agrees E R) (hy : y.Agrees E R)
    : (if c then x else y).Agrees E R := by
  split
  · exact hx
  · exact hy

theorem agrees_get_bind {f : σ → Step ε σ α} (hread : ∀ s t, R s t → f s = f t)
    (hf : ∀ s, (f s).Agrees E R) : (get >>= f).Agrees E R := by
  intro s t h
  show StopsFor E (f s s) ∨ Alike R (f s s) (f t t)
  rw [hread s t h]
  exact hf t s t h

theorem agrees_modify {g : σ → σ} (h : ∀ s t, R s t → R (g s) (g t)) :
    Agrees E R (modify g : Step ε σ PUnit) :=
  fun s t hst => .inr (.ok (h s t hst))

theorem agrees_within {E : Stop δ → Prop} {part : σ → ρ} {put : ρ → σ → σ} {f : ε → δ}
    {x : Step ε ρ α} {P : ρ → ρ → Prop} (hx : x.Blind P)
    (hpart : ∀ s t, R s t → P (part s) (part t))
    (hput : ∀ s t u v, R s t → P u v → R (put u s) (put v t)) :
    (within part put f x).Agrees E R := by
  intro s t h
  have hends := hx.alike (hpart s t h)
  unfold within
  cases hs : x (part s) <;> cases ht : x (part t) <;> rw [hs, ht] at hends <;> cases hends
  · exact .inr (.ok (hput s t _ _ h ‹_›))
  · exact .inr (.error (hput s t _ _ h ‹_›))

theorem Agrees.forM {f : α → Step ε σ PUnit} {l : List α} (hf : ∀ a ∈ l, (f a).Agrees E R) :
    (l.forM f).Agrees E R := by
  induction l with
  | nil => exact agrees_pure _
  | cons a l ih =>
    have hrest := ih fun b hb => hf b (List.mem_cons_of_mem a hb)
    exact (hf a List.mem_cons_self).bind fun _ => hrest

theorem Blind.tryCatch {f : Stop ε → Step ε σ α} (hx : x.Blind R) (hf : ∀ e, (f e).Blind R) :
    Blind R (MonadExcept.tryCatch x f) := by
  intro s t h
  have hends := hx.alike h
  show StopsFor _ (EStateM.tryCatch x f s) ∨
    Alike R (EStateM.tryCatch x f s) (EStateM.tryCatch x f t)
  unfold EStateM.tryCatch
  cases hs : x s <;> cases ht : x t <;> rw [hs, ht] at hends <;> cases hends
  · exact .inr (.ok ‹_›)
  · exact hf _ _ _ ‹_›

end Step

/-! ### Logs -/

/-- The line of an instruction that reached the buffer. -/
def Event.line? : Event → Option String
  | .appended line => some line
  | _ => none

/-- The lines of the instructions that reached the buffer. -/
def Log.traced (l : Log) : List String :=
  l.toList.filterMap Event.line?

theorem Log.traced_push {l : Log} {e : Event} (h : e.line? = none) :
    Log.traced (l.push e) = Log.traced l := by
  simp [Log.traced, h]

/-- The states differ in their logs only, in which `ls` and `ls'` reached the buffer. -/
structure CodeState.Like (ls ls' : List String) (s t : CodeState) : Prop where
  same : { s with log := t.log } = t
  left : Log.traced s.log = ls
  right : Log.traced t.log = ls'

namespace CodeState.Like

variable {ls ls' : List String} {α : Type}

/-- Nothing but the log may be changed depending on the log. -/
theorem modify {g : CodeState → CodeState}
    (h : ∀ s l, g { s with log := l } = { g s with log := l }) :
    Step.Blind (Like ls ls') (modify g : Gen PUnit) := by
  refine Step.agrees_modify fun s t hst => ?_
  obtain ⟨hsame, hleft, hright⟩ := hst
  have hkeep : ∀ s, (g s).log = s.log := fun s =>
    (congrArg CodeState.log (h s s.log) :)
  rw [← hkeep] at hleft hright
  refine ⟨?_, hleft, hright⟩
  rw [hkeep t, ← h s t.log, hsame]

/-- The log is not read. -/
theorem get_bind {f : CodeState → Gen α} (hread : ∀ s l, f { s with log := l } = f s)
    (hf : ∀ s, (f s).Blind (Like ls ls')) : (get >>= f).Blind (Like ls ls') := by
  refine Step.agrees_get_bind (fun s t h => ?_) hf
  rw [← hread s t.log, h.same]

/-- A part of the state other than the log. -/
theorem within {ε ρ : Type} {part : CodeState → ρ} {put : ρ → CodeState → CodeState}
    {e : ε → AsmError} {x : Step ε ρ α}
    (hpart : ∀ s l, part { s with log := l } = part s)
    (hput : ∀ u s l, put u { s with log := l } = { put u s with log := l }) :
    (Step.within part put e x).Blind (Like ls ls') := by
  refine Step.agrees_within (P := Eq) (.of_eq (fun _ _ h => h) fun _ => rfl) (fun s t h => ?_) ?_
  · rw [← hpart s t.log, h.same]
  · rintro s t u _ ⟨hsame, hleft, hright⟩ rfl
    have hkeep : ∀ s, (put u s).log = s.log := fun s =>
      (congrArg CodeState.log (hput u s s.log) :)
    rw [← hkeep] at hleft hright
    refine ⟨?_, hleft, hright⟩
    rw [hkeep t, ← hput u s t.log, hsame]

end CodeState.Like

/-- The counters of compiled instructions. -/
def Stats.compiled (s : Stats) : Nat × List (String × Nat) :=
  (s.instructions, s.counts)

/-- The guard of an exit. -/
def Instr.exitGuard? (i : Instr) : Option Guard :=
  if i.opcode = .exit then i.guard? else none

/-- What a step may leave alone: code, exits, saved registers and the counters of compiled
    instructions. -/
def CodeState.outline (s : CodeState) :
    Machine.Emitter × Array (Guard × Nat) × List Reg × Nat × List (String × Nat) :=
  (s.emitter, s.exits, s.frame.saved, s.stats.compiled)

/-- Code was added, but neither an exit nor a compiled instruction. -/
structure CodeState.Advances (s t : CodeState) : Prop where
  emitter : s.emitter.Extends t.emitter
  exits : t.exits = s.exits
  saved : t.frame.saved = s.frame.saved
  compiled : t.stats.compiled = s.stats.compiled

namespace CodeState.Advances

variable {s t u : CodeState}

theorem of_outline (h : t.outline = s.outline) : s.Advances t := by
  simp only [outline, Prod.mk.injEq] at h
  obtain ⟨hemitter, hexits, hsaved, hcompiled⟩ := h
  exact ⟨hemitter ▸ .refl _, hexits, hsaved, hcompiled⟩

theorem trans (h : s.Advances t) (h' : t.Advances u) : s.Advances u :=
  ⟨h.emitter.trans h'.emitter, h'.exits.trans h.exits, h'.saved.trans h.saved,
    h'.compiled.trans h.compiled⟩

end CodeState.Advances

/-- A computation composed of steps that do not read the log, do not report an instruction that
    reached the buffer, and add neither an exit nor a compiled instruction. -/
inductive Gen.Silent : {α : Type} → Gen α → Prop where
  | pure {α : Type} (a : α) : Silent (pure a : Gen α)
  | fail {α : Type} (e : AsmError) : Silent (Step.fail e : Gen α)
  | fault {α : Type} (f : Fault) : Silent (Step.fault f : Gen α)
  | bind {α β : Type} {x : Gen α} {f : α → Gen β} (hx : Silent x) (hf : ∀ a, Silent (f a)) :
      Silent (x >>= f)
  | read {α : Type} {f : CodeState → Gen α} (hread : ∀ s l, f { s with log := l } = f s)
      (hf : ∀ s, Silent (f s)) : Silent (get >>= f)
  | emit {α : Type} {x : Machine.Emit α} (hx : ∀ e a e', x e = .ok a e' → e.Extends e') :
      Silent (Gen.emit x)
  | registers {α : Type} (x : Step RegError RegFile α) : Silent (Gen.registers x)
  | frame {α : Type} {f : Frame → Except Fault (α × Frame)}
      (hf : ∀ F a F', f F = .ok (a, F') → F'.saved = F.saved) : Silent (Gen.frame f)
  | modify {g : CodeState → CodeState} (hlog : ∀ s l, g { s with log := l } = { g s with log := l })
      (hkeep : ∀ s, (g s).outline = s.outline) : Silent (modify g : Gen PUnit)
  | report {e : Event} (h : e.line? = none) : Silent (Gen.report e)

namespace Gen

open Machine (Emitter)
open CodeState (Like)

variable {ls ls' : List String} {α : Type} {x : Gen α}

/-- A report that is not about an instruction that reached the buffer. -/
theorem report_blind {e : Event} (h : e.line? = none) : (report e).Blind (Like ls ls') := by
  refine Step.agrees_modify fun s t hst => ⟨?_, ?_, ?_⟩
  · rw [← hst.same]
  · exact (Log.traced_push h).trans hst.left
  · exact (Log.traced_push h).trans hst.right

theorem frame_eq_ok {f : Frame → Except Fault (α × Frame)} {s t : CodeState} {a : α}
    (h : frame f s = .ok a t) : ∃ F, f s.frame = .ok (a, F) ∧ { s with frame := F } = t := by
  rw [frame, Step.bind_get] at h
  obtain ⟨⟨b, F⟩, u, hlift, h⟩ := Step.bind_eq_ok.mp h
  obtain ⟨hf, rfl⟩ := Step.liftFault_eq_ok hlift
  cases h
  exact ⟨F, hf, rfl⟩

theorem frame_blind (f : Frame → Except Fault (α × Frame)) : (frame f).Blind (Like ls ls') := by
  refine Like.get_bind (fun _ _ => rfl) fun s => (Step.agrees_liftFault _).bind fun r => ?_
  exact (Like.modify fun _ _ => rfl).bind fun _ => Step.agrees_pure r.1

namespace Silent

/-- A silent computation is blind to the log. -/
theorem blind (h : x.Silent) : x.Blind (Like ls ls') := by
  induction h with
  | pure a => exact Step.agrees_pure a
  | fail e => exact Step.agrees_fail e
  | fault f => exact Step.agrees_fault f
  | bind _ _ ihx ihf => exact ihx.bind ihf
  | read hread _ ihf => exact Like.get_bind hread ihf
  | emit | registers => exact Like.within (fun _ _ => rfl) fun _ _ _ => rfl
  | frame => exact frame_blind _
  | modify hlog => exact Like.modify hlog
  | report h => exact report_blind h

/-- A silent computation only adds code. -/
theorem advances (h : x.Silent) {s t : CodeState} {a : α} (hx : x s = .ok a t) : s.Advances t := by
  induction h generalizing s t with
  | pure | report => cases hx; exact .of_outline rfl
  | fail | fault => cases hx
  | bind _ _ ihx ihf =>
    obtain ⟨b, u, hfirst, hrest⟩ := Step.bind_eq_ok.mp hx
    exact (ihx hfirst).trans (ihf b hrest)
  | read _ _ ihf => exact ihf s hx
  | emit hgrows =>
    obtain ⟨e, he, rfl⟩ := Step.within_eq_ok hx
    exact ⟨hgrows _ _ _ he, rfl, rfl, rfl⟩
  | registers =>
    obtain ⟨r, -, rfl⟩ := Step.within_eq_ok hx
    exact .of_outline rfl
  | frame hsaved =>
    obtain ⟨F, hf, rfl⟩ := frame_eq_ok hx
    exact ⟨.refl _, rfl, hsaved _ _ _ hf, rfl⟩
  | modify _ hkeep => cases hx; exact .of_outline (hkeep s)

theorem fail_bind {β : Type} (e : AsmError) (f : α → Gen β) : Silent (Step.fail e >>= f) :=
  .fail e

theorem orFail (e : AsmError) (o : Option α) : Silent (Step.orFail e o) := by
  cases o with
  | none => exact .fail e
  | some a => exact .pure a

theorem orFault (f : Fault) (o : Option α) : Silent (Step.orFault f o) := by
  cases o with
  | none => exact .fault f
  | some a => exact .pure a

theorem liftFault (x : Except Fault α) : Silent (Step.liftFault x) := by
  cases x with
  | ok a => exact .pure a
  | error f => exact .fault f

theorem liftError (x : Except AsmError α) : Silent (Step.liftError x) := by
  cases x with
  | ok a => exact .pure a
  | error e => exact .fail e

theorem ite {c : Prop} [Decidable c] {y : Gen α} (hx : x.Silent) (hy : y.Silent) :
    Silent (if c then x else y) := by
  split
  · exact hx
  · exact hy

theorem forM {f : α → Gen PUnit} {l : List α} (hf : ∀ a ∈ l, (f a).Silent) : Silent (l.forM f) := by
  induction l with
  | nil => exact .pure _
  | cons a l ih =>
    have hrest := ih fun b hb => hf b (List.mem_cons_of_mem a hb)
    exact (hf a List.mem_cons_self).bind fun _ => hrest

theorem mapM {β : Type} {f : α → Gen β} (hf : ∀ a, (f a).Silent) (l : List α) :
    Silent (l.mapM f) := by
  induction l with
  | nil => exact .pure _
  | cons a l ih =>
    rw [List.mapM_cons]
    exact (hf a).bind fun _ => ih.bind fun _ => .pure _

end Silent

/-! ### Parts of the state -/

theorem emit_silent (o : Emitter.Operation) : (emit o.run).Silent :=
  .emit fun _ _ _ h => (Emitter.took_of_run (c := .op o) h).grows

theorem newLabel_silent : (emit Emitter.newLabel).Silent :=
  .emit fun e _ _ h => by cases h; exact Emitter.extends_withLabel e

theorem bindLabel_silent (l : Nat) : (emit (Emitter.bind l)).Silent :=
  .emit fun _ _ _ h => (Emitter.took_of_run (c := .bind l) h).grows

theorem jmp_silent (l : Nat) : (emit (Emitter.jmp l)).Silent :=
  .emit fun _ _ _ h => (Emitter.took_of_run (c := .jump none l) h).grows

theorem jcc_silent (cond : Machine.Cond) (l : Nat) : (emit (Emitter.jcc cond l)).Silent :=
  .emit fun _ _ _ h => (Emitter.took_of_run (c := .jump (some cond) l) h).grows

/-- Counters other than those of compiled instructions may change. -/
theorem count_silent (f : Stats → Stats) (h : ∀ s, (f s).compiled = s.compiled) :
    (count f).Silent :=
  .modify (fun _ _ => rfl) fun s => by simp only [CodeState.outline, h]

/-- Taking a register is reported as an eviction. -/
theorem line?_of_mem_report {a : Allocation} {index : Nat} {e : Event} (h : e ∈ a.report index) :
    e.line? = none := by
  unfold Allocation.report at h
  split at h
  · cases List.mem_singleton.mp h
    rfl
  · cases h

end Gen

end JitBackend
