import JitBackend.Fault
import Mathlib.Data.List.Forall2

namespace Except

variable {ε α β : Type} {x : Except ε α}

theorem bind_eq_ok {f : α → Except ε β} {c : β} :
    (x >>= f) = .ok c ↔ ∃ a, x = .ok a ∧ f a = .ok c := by
  cases x with
  | error e => constructor <;> intro h <;> simp_all [bind, Except.bind]
  | ok a => simp [bind, Except.bind]

theorem toOption_eq_some {a : α} : x.toOption = some a ↔ x = .ok a := by
  cases x <;> simp [Except.toOption]

theorem mapError_eq_ok {δ : Type} {f : ε → δ} {a : α} : x.mapError f = .ok a ↔ x = .ok a := by
  cases x <;> simp [Except.mapError]

theorem mapM_eq_ok {f : α → Except ε β} {xs : List α} {ys : List β} :
    xs.mapM f = .ok ys ↔ List.Forall₂ (fun x y => f x = .ok y) xs ys := by
  induction xs generalizing ys with
  | nil =>
    rw [List.mapM_nil, List.forall₂_nil_left_iff]
    exact ⟨fun h => (Except.ok.inj h).symm, fun h => congrArg _ h.symm⟩
  | cons x xs ih =>
    simp only [List.mapM_cons, bind_eq_ok, ih, List.forall₂_cons_left_iff]
    constructor
    · rintro ⟨y, hy, ys', hys, heq⟩
      exact ⟨y, ys', hy, hys, (Except.ok.inj heq).symm⟩
    · rintro ⟨y, ys', hy, hys, rfl⟩
      exact ⟨y, hy, ys', hys, rfl⟩

end Except

namespace JitBackend.Step

/-!
# Runs of computations

How a computation over a state ends. A specification of a computation says from which states it
ends well, and what holds of the result and of the state afterwards.

* `Step.Yields x s Q` — `x` ends well from `s`, with a result and a state that satisfy `Q`;
* `Step.Fails x s e` — `x` stops from `s` with the error `e`;
* `Step.Ends x s Q E` — `x` ends well with `Q`, or stops for a reason that satisfies `E`;
* `Step.Preserves x P` — what holds before `x` holds after it, however it ends;
* `Yields.bind`, `Yields.forM` — the rules for sequences and loops.
-/

variable {ε σ α β δ τ : Type}
  {s s' t : σ} {x : Step ε σ α} {Q P : α → σ → Prop} {f : α → Step ε σ β} {a : α}
  {part : σ → τ} {put : τ → σ → σ} {e : ε}

/-- The computation ends well from `s`, with a result and a state that satisfy `Q`. -/
def Yields (x : Step ε σ α) (s : σ) (Q : α → σ → Prop) : Prop :=
  ∃ a s', x s = .ok a s' ∧ Q a s'

/-- The computation stops from `s` with the error `e`. -/
def Fails (x : Step ε σ α) (s : σ) (e : ε) : Prop :=
  ∃ s', x s = .error (.error e) s'

/-- The computation ends well from `s`, with a result and a state that satisfy `Q`, or it stops for
    a reason that satisfies `E`. -/
def Ends (x : Step ε σ α) (s : σ) (Q : α → σ → Prop) (E : Stop ε → Prop) : Prop :=
  match x s with
  | .ok a s' => Q a s'
  | .error e _ => E e

/-! ### Basic computations -/

theorem yields_pure (h : Q a s) : Yields (pure a : Step ε σ α) s Q :=
  ⟨a, s, rfl, h⟩

theorem yields_get {Q : σ → σ → Prop} (h : Q s s) : Yields (get : Step ε σ σ) s Q :=
  ⟨s, s, rfl, h⟩

theorem yields_modify {Q : PUnit → σ → Prop} {f : σ → σ} (h : Q ⟨⟩ (f s)) :
    Yields (modify f : Step ε σ PUnit) s Q :=
  ⟨⟨⟩, f s, rfl, h⟩

theorem yields_liftFault {x : Except Fault α} (hx : x = .ok a) (h : Q a s) :
    Yields (liftFault x : Step ε σ α) s Q := by
  subst hx; exact ⟨a, s, rfl, h⟩

/-- A computation on a part of the state changes that part alone. -/
theorem yields_within {f : ε → δ} {x : Step ε τ α}
    (h : Yields x (part s) fun a t => Q a (put t s)) : Yields (within part put f x) s Q := by
  obtain ⟨a, t, hx, hQ⟩ := h
  exact ⟨a, put t s, by simp only [within, hx], hQ⟩

theorem fails_within {f : ε → δ} {x : Step ε τ α} (h : Fails x (part s) e) :
    Fails (within part put f x) s (f e) := by
  obtain ⟨t, hx⟩ := h
  exact ⟨put t s, by simp only [within, hx, Stop.map]⟩

/-! ### Sequences -/

theorem bind_ok (h : x s = .ok a s') : (x >>= f) s = f a s' := by
  show EStateM.bind x f s = _
  simp only [EStateM.bind, h]

theorem bind_error {e : Stop ε} (h : x s = .error e s') : (x >>= f) s = .error e s' := by
  show EStateM.bind x f s = _
  simp only [EStateM.bind, h]

theorem bind_get (f : σ → Step ε σ β) (s : σ) : (get >>= f) s = f s s := rfl

theorem bind_modify (f : PUnit → Step ε σ β) (g : σ → σ) (s : σ) :
    (modify g >>= f) s = f ⟨⟩ (g s) := rfl

theorem bind_orFail (f : α → Step ε σ β) (e : ε) (a : α) (s : σ) :
    (orFail e (some a) >>= f) s = f a s := rfl

theorem bind_liftFault (f : α → Step ε σ β) (a : α) (s : σ) :
    (liftFault (.ok a) >>= f) s = f a s := rfl

theorem bind_liftError (f : α → Step ε σ β) (a : α) (s : σ) :
    (liftError (.ok a) >>= f) s = f a s := rfl

theorem map_ok {f : α → β} (h : x s = .ok a s') : (f <$> x) s = .ok (f a) s' := by
  show EStateM.map f x s = _
  simp only [EStateM.map, h]

theorem map_error {f : α → β} {e : Stop ε} (h : x s = .error e s') : (f <$> x) s = .error e s' := by
  show EStateM.map f x s = _
  simp only [EStateM.map, h]

/-- Results are mapped wherever they come from. -/
theorem map_congr {y : Step ε σ α} {f : α → β} (h : x s = y t) : (f <$> x) s = (f <$> y) t := by
  show EStateM.map f x s = EStateM.map f y t
  simp only [EStateM.map, h]

/-- A sequence ends well only if both parts do. -/
theorem bind_eq_ok {b : β} : (x >>= f) s = .ok b t ↔ ∃ a s', x s = .ok a s' ∧ f a s' = .ok b t := by
  constructor
  · intro h
    cases hx : x s with
    | ok a s' => exact ⟨a, s', rfl, by rwa [bind_ok hx] at h⟩
    | error e s' => rw [bind_error hx] at h; cases h
  · rintro ⟨a, s', hx, hf⟩
    rw [bind_ok hx, hf]

theorem within_eq_ok {f : ε → δ} {x : Step ε τ α} (h : within part put f x s = .ok a t) :
    ∃ u, x (part s) = .ok a u ∧ put u s = t := by
  unfold within at h
  split at h
  · cases h
    exact ⟨_, ‹_›, rfl⟩
  · cases h

theorem liftFault_eq_ok {x : Except Fault α} (h : (liftFault x : Step ε σ α) s = .ok a t) :
    x = .ok a ∧ s = t := by
  cases x with
  | ok b => cases h; exact ⟨rfl, rfl⟩
  | error f => cases h

theorem Yields.bind {Q : β → σ → Prop} (h : Yields x s fun a s' => Yields (f a) s' Q) :
    Yields (x >>= f) s Q := by
  obtain ⟨a, s', hx, b, t, hf, hQ⟩ := h
  exact ⟨b, t, by rw [bind_ok hx, hf], hQ⟩

theorem Yields.mono (h : Yields x s P) (hPQ : ∀ a s', P a s' → Q a s') : Yields x s Q := by
  obtain ⟨a, s', hx, hP⟩ := h
  exact ⟨a, s', hx, hPQ a s' hP⟩

/-- What is said of the end of a computation holds of the end that it has. -/
theorem Yields.of_ok (h : Yields x s Q) (hx : x s = .ok a s') : Q a s' := by
  obtain ⟨a', s'', hx', hQ⟩ := h
  rw [hx] at hx'
  cases hx'
  exact hQ

/-- A sequence, with what is known after its first part used for the second. -/
theorem Yields.andThen {Q : β → σ → Prop} (hx : Yields x s P)
    (hf : ∀ a s', P a s' → Yields (f a) s' Q) : Yields (x >>= f) s Q :=
  .bind (hx.mono hf)

/-- Sequences may be taken apart anywhere. -/
theorem Yields.assoc {γ : Type} {g : β → Step ε σ γ} {Q : γ → σ → Prop}
    (h : Yields (x >>= f >>= g) s Q) : Yields (x >>= fun a => f a >>= g) s Q := by
  rw [← bind_assoc]; exact h

theorem Fails.bind (h : Fails x s e) : Fails (x >>= f) s e := by
  obtain ⟨s', hx⟩ := h
  exact ⟨s', bind_error hx⟩

theorem Fails.after (h : Yields x s fun a s' => Fails (f a) s' e) : Fails (x >>= f) s e := by
  obtain ⟨a, s', hx, t, hf⟩ := h
  exact ⟨t, by rw [bind_ok hx, hf]⟩

/-! ### Both ways to end -/

section Ends

variable {E : Stop ε → Prop}

theorem Yields.ends (h : Yields x s Q) : Ends x s Q E := by
  obtain ⟨a, s', hx, hQ⟩ := h
  rw [Ends, hx]
  exact hQ

theorem Fails.ends (h : Fails x s e) (hE : E (.error e)) : Ends x s Q E := by
  obtain ⟨s', hx⟩ := h
  rw [Ends, hx]
  exact hE

theorem ends_fail (h : E (.error e)) : Ends (fail e : Step ε σ α) s Q E := h

theorem ends_liftFault {x : Except Fault α} (hok : ∀ a, x = .ok a → Q a s)
    (herr : ∀ f, x = .error f → E (.fault f)) : Ends (liftFault x : Step ε σ α) s Q E := by
  cases x with
  | ok a => exact hok a rfl
  | error f => exact herr f rfl

theorem Ends.bind {Q : β → σ → Prop} (h : Ends x s (fun a s' => Ends (f a) s' Q E) E) :
    Ends (x >>= f) s Q E := by
  unfold Ends at h
  cases hx : x s with
  | ok a s' => rw [hx] at h; rw [Ends, bind_ok hx]; exact h
  | error e s' => rw [hx] at h; rw [Ends, bind_error hx]; exact h

theorem Ends.mono {E' : Stop ε → Prop} (h : Ends x s P E) (hPQ : ∀ a s', P a s' → Q a s')
    (hE : ∀ e, E e → E' e) : Ends x s Q E' := by
  unfold Ends at h ⊢
  split
  · rename_i a s' hx; rw [hx] at h; exact hPQ a s' h
  · rename_i e s' hx; rw [hx] at h; exact hE e h

/-- A sequence, with what is known after its first part used for the second. -/
theorem Ends.andThen {Q : β → σ → Prop} (hx : Ends x s P E)
    (hf : ∀ a s', P a s' → Ends (f a) s' Q E) : Ends (x >>= f) s Q E :=
  .bind (hx.mono hf fun _ h => h)

theorem ends_within {f : δ → ε} {x : Step δ τ α}
    (h : Ends x (part s) (fun a t => Q a (put t s)) fun e => E (e.map f)) :
    Ends (within part put f x) s Q E := by
  unfold Ends at h
  rw [Ends, within]
  cases hx : x (part s) with
  | ok a t => rw [hx] at h; exact h
  | error e t => rw [hx] at h; exact h

theorem Ends.of_ok (h : Ends x s Q E) (hx : x s = .ok a s') : Q a s' := by
  rw [Ends, hx] at h; exact h

theorem Ends.of_error {e : Stop ε} (h : Ends x s Q E) (hx : x s = .error e s') : E e := by
  rw [Ends, hx] at h; exact h

end Ends

/-- Whether the computation ends well. -/
def succeeds (x : Step ε σ α) (s : σ) : Bool :=
  match x s with
  | .ok _ _ => true
  | .error _ _ => false

theorem exists_of_succeeds (h : x.succeeds s = true) : ∃ a s', x s = .ok a s' := by
  unfold succeeds at h
  split at h
  · rename_i a s' hx; exact ⟨a, s', hx⟩
  · cases h

/-! ### States that computations end in -/

/-- The state that the computation ends in, whether it stops short or not. -/
def after (x : Step ε σ α) (s : σ) : σ :=
  match x s with
  | .ok _ s' => s'
  | .error _ s' => s'

/-- What holds before the computation holds after it, however it ends. -/
def Preserves (x : Step ε σ α) (P : σ → Prop) : Prop :=
  ∀ s, P s → P (x.after s)

theorem after_ok (h : x s = .ok a s') : x.after s = s' := by
  rw [after, h]

theorem after_error {e : Stop ε} (h : x s = .error e s') : x.after s = s' := by
  rw [after, h]

theorem after_bind_ok (h : x s = .ok a s') : (x >>= f).after s = (f a).after s' := by
  rw [after, bind_ok h, after]

theorem after_bind_error {e : Stop ε} (h : x s = .error e s') : (x >>= f).after s = s' :=
  after_error (bind_error h)

theorem after_bind_get (f : σ → Step ε σ β) (s : σ) : (get >>= f).after s = (f s).after s := rfl

section Preserves

variable {P : σ → Prop}

theorem preserves_pure (a : α) : Preserves (pure a : Step ε σ α) P :=
  fun _ hs => hs

theorem Preserves.bind (hx : x.Preserves P) (hf : ∀ a, (f a).Preserves P) :
    Preserves (x >>= f) P := by
  intro s hs
  have hxs := hx s hs
  unfold after at hxs ⊢
  cases hrun : x s with
  | ok a t =>
    rw [hrun] at hxs
    rw [bind_ok hrun]
    exact hf a t hxs
  | error e t =>
    rw [hrun] at hxs
    rw [bind_error hrun]
    exact hxs

theorem Preserves.map {g : α → β} (hx : x.Preserves P) : Preserves (g <$> x) P :=
  hx.bind fun a => preserves_pure (g a)

theorem Preserves.forM {f : α → Step ε σ PUnit} (hf : ∀ a, (f a).Preserves P) (as : List α) :
    Preserves (as.forM f) P := by
  induction as with
  | nil => exact preserves_pure _
  | cons a as ih => exact (hf a).bind fun _ => ih

end Preserves

/-! ### Loops -/

/-- A loop over a list: what holds before the list and is kept by each element, given what is
    still ahead, holds at its end. -/
theorem Yields.forM {f : α → Step ε σ PUnit} (I : List α → σ → Prop) {xs : List α} (h0 : I xs s)
    (hstep : ∀ x rest t, I (x :: rest) t → Yields (f x) t fun _ t' => I rest t') :
    Yields (xs.forM f) s fun _ s' => I [] s' := by
  induction xs generalizing s with
  | nil => exact yields_pure h0
  | cons x rest ih =>
    show Yields (f x >>= fun _ => rest.forM f) s _
    exact (hstep x rest s h0).andThen fun _ t ht => ih ht

theorem forM_append (f : α → Step ε σ PUnit) (xs ys : List α) :
    (xs ++ ys).forM f = xs.forM f >>= fun _ => ys.forM f := by
  induction xs with
  | nil => rfl
  | cons x rest ih =>
    show (f x >>= fun _ => (rest ++ ys).forM f) = (f x >>= fun _ => rest.forM f) >>= fun _ => _
    rw [bind_assoc]
    congr 1
    funext _
    exact ih

/-- A loop over positions: what holds before the first and is kept by each holds at the end. -/
theorem Ends.forM_range {E : Stop ε → Prop} {f : Nat → Step ε σ PUnit} (I : Nat → σ → Prop)
    {n : Nat} (h0 : I 0 s)
    (hstep : ∀ k t, k < n → I k t → Ends (f k) t (fun _ t' => I (k + 1) t') E) :
    Ends ((List.range n).forM f) s (fun _ s' => I n s') E := by
  induction n with
  | zero => exact h0
  | succ n ih =>
    rw [List.range_succ, forM_append]
    refine (ih fun k t hk => hstep k t (by omega)).andThen fun _ t ht => ?_
    exact (hstep n t (by omega) ht).andThen fun _ t' ht' => ht'

/-- A loop ends well only if its first part does. -/
theorem forM_append_ok {f : α → Step ε σ PUnit} {xs ys : List α} {u : PUnit} :
    ((xs ++ ys).forM f) s = .ok u t ↔
      ∃ v s', (xs.forM f) s = .ok v s' ∧ (ys.forM f) s' = .ok u t := by
  rw [forM_append, bind_eq_ok]

end JitBackend.Step
