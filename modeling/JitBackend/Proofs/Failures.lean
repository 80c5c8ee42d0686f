import Mathlib.Tactic.IntervalCases
import JitBackend.Proofs.Branches
import JitBackend.Proofs.Frames

namespace JitBackend

/-!
# Why functions are refused

Code generation for a validated function has no internal failures. It ends well, or it names a
jump without a label, or a frame over the limit.

* `codeBound` — how many bytes the code can have;
* `Gen.Refusal` — the two reasons;
* `compile_outcome` — which of them applies, and that there are no others.
-/

/-- Number of bytes of the code of a function if all its jumps take the long form, zero if there is
    no code. -/
def codeBound (b : Buffer) (limit : Nat) (a : Account) : Nat :=
  match Gen.instructions b limit (CodeState.initial b a) with
  | .ok _ s => Machine.nearSize s.emitter.closed.toList
  | .error _ _ => 0

open Gen (Unbound Refusal)

variable {b : Buffer} {limit : Nat} {a : Account}

/-- The bytes of a function that was generated can be had. -/
theorem Gen.Generated.finish_yields [Machine.BlockEncoder] [Machine.BlockEncoder.Lawful]
    {l : Liveness} {s s' : CodeState} {e : Machine.Emitter} (h : Generated b limit l s e s')
    (hcode : Machine.nearSize s'.emitter.closed.toList < 2 ^ 31) :
    finish.Yields s' fun asm _ => asm.frameSize = s.frame.size := by
  obtain ⟨code, hassemble, hlen⟩ :=
    Machine.Emitter.exists_assemble (fun cond l hjump => h.jumps_bound hjump) hcode
  rw [Step.Yields, finish_eq h.exits_bound, hassemble]
  dsimp only
  rw [if_neg (Nat.not_le.mpr hlen), h.frame]
  exact ⟨_, _, rfl, rfl⟩

section

variable [Machine.BlockEncoder] [Machine.BlockEncoder.Lawful]

/-- A function is compiled, or refused for a reason. -/
theorem compile_ends (hb : b.Validated) (hargs : b.ArgsAreValues) (hneed : b.frameNeed < 2 ^ 31)
    (hcode : codeBound b limit a < 2 ^ 31) :
    (compile b limit).Ends a
      (fun asm _ => (∀ n, ¬ Unbound b n) ∧ b.frameNeed ≤ limit ∧ asm.frameSize = b.frameNeed - 40)
      (Refusal b limit) := by
  refine Step.ends_within ?_
  have hends : (Gen.instructions b limit).Ends _ _ _ := Gen.instructions_ends hb hargs a
  show Step.Ends (Gen.function b limit) (CodeState.initial b a) _ fun e => Refusal b limit (e.map id)
  rw [Gen.function_eq]
  unfold codeBound at hcode
  unfold Step.Ends at hends
  cases hx : Gen.instructions b limit (CodeState.initial b a) with
  | error e s =>
    rw [hx] at hends
    rw [Step.Ends, Step.bind_error hx]
    cases e <;> exact hends hneed
  | ok u s' =>
    rw [hx] at hends hcode
    obtain ⟨l, s, e, hG⟩ := hends
    obtain ⟨hlim, hsize⟩ := hG.opened.size hneed
    rw [Step.Ends, Step.bind_ok hx]
    refine ((hG.finish_yields hcode).mono fun asm _ hframe => ⟨?_, hlim, hframe.trans hsize⟩).ends
    rintro n ⟨i, hi, t, ht, hnot⟩
    exact hnot (hG.opened.targets n i hi t ht)

/-- Whether a function is compiled depends on its jumps and on the size of its frame only: the
    first jump without a label is reported, then a frame over the limit, and there is no other
    failure. -/
theorem compile_outcome (hb : b.Validated) (hargs : b.ArgsAreValues) (hneed : b.frameNeed < 2 ^ 31)
    (hcode : codeBound b limit a < 2 ^ 31) :
    (∀ h, (compile b limit).Fails a (.unknownBranch h) ↔
      ∃ n, Unbound b n ∧ (∀ m < n, ¬ Unbound b m) ∧ h = b.handle n) ∧
    (∀ required bound, (compile b limit).Fails a (.stackFull required bound) ↔
      (∀ n, ¬ Unbound b n) ∧ limit < b.frameNeed ∧ required = b.frameNeed ∧ bound = limit) ∧
    (∀ size, (compile b limit).Yields a (fun asm _ => asm.frameSize = size) ↔
      (∀ n, ¬ Unbound b n) ∧ b.frameNeed ≤ limit ∧ size = b.frameNeed - 40) ∧
    (∀ e, (compile b limit).Fails a e → (∃ h, e = .unknownBranch h) ∨
      ∃ required bound, e = .stackFull required bound) ∧
    ∀ f a', compile b limit a ≠ .error (.fault f) a' := by
  have hends := compile_ends hb hargs hneed hcode
  unfold Step.Ends at hends
  unfold Step.Fails Step.Yields
  cases hx : compile b limit a with
  | ok asm a' =>
    rw [hx] at hends
    obtain ⟨hbound, hlim, hsize⟩ := hends
    refine ⟨?_, ?_, ?_, ?_, ?_⟩
    · simp [hbound]
    · simp [hbound, Nat.not_lt.mpr hlim]
    · simp [hbound, hlim, hsize, eq_comm]
    · rintro e ⟨_, he⟩; cases he
    · intro f a' he; cases he
  | error e a' =>
    rw [hx] at hends
    obtain ⟨n, hn, hmin, rfl⟩ | ⟨hbound, hlim, rfl⟩ := hends
    · have hnot : ¬ ∀ n, ¬ Unbound b n := fun h => h n hn
      refine ⟨fun h => ⟨?_, ?_⟩, ?_, ?_, ?_, ?_⟩
      · rintro ⟨_, he⟩; cases he; exact ⟨n, hn, hmin, rfl⟩
      · rintro ⟨m, hm, hm', rfl⟩
        have hnm : m = n := Nat.le_antisymm (Nat.not_lt.mp fun h => hm' n h hn)
          (Nat.not_lt.mp fun h => hmin m h hm)
        exact ⟨a', by rw [hnm]⟩
      · intro required bound
        exact ⟨fun ⟨_, he⟩ => (nomatch he), fun h => absurd h.1 hnot⟩
      · intro size
        exact ⟨fun ⟨_, _, he, _⟩ => (nomatch he), fun h => absurd h.1 hnot⟩
      · rintro e ⟨_, he⟩; cases he; exact .inl ⟨_, rfl⟩
      · intro f a' he; cases he
    · refine ⟨fun h => ⟨?_, ?_⟩, fun required bound => ⟨?_, ?_⟩, fun size => ⟨?_, ?_⟩, ?_, ?_⟩
      · rintro ⟨_, he⟩; cases he
      · rintro ⟨m, hm, -, -⟩; exact absurd hm (hbound m)
      · rintro ⟨_, he⟩; cases he; exact ⟨hbound, hlim, rfl, rfl⟩
      · rintro ⟨-, -, rfl, rfl⟩; exact ⟨a', rfl⟩
      · rintro ⟨_, _, he, _⟩; cases he
      · rintro ⟨-, hle, -⟩; exact absurd hlim (Nat.not_lt.mpr hle)
      · rintro e ⟨_, he⟩; cases he; exact .inr ⟨_, _, rfl⟩
      · intro f a' he; cases he

end

/-- The jump of `Buffer.countdown` goes to its label. -/
theorem countdown_bound (n : Nat) : ¬ Unbound .countdown n := by
  rintro ⟨i, hi, t, ht, hnot⟩
  refine hnot ?_
  have hn : n < 13 := (Array.getElem?_eq_some_iff.mp hi).1
  interval_cases n <;> cases hi <;> cases ht
  · exact ⟨⟨0, 4⟩, rfl, rfl, by decide⟩
  · contradiction

section

attribute [local instance] Machine.shrinking Machine.shrinking_lawful

/-- The loop of `Buffer.countdown` needs a frame of 80 bytes, 40 of them below the preserved
    registers. -/
theorem compile_outcome_countdown :
    Buffer.countdown.frameNeed = 80 ∧
      (compile .countdown 80).Yields ⟨.zero, #[]⟩ (fun asm _ => asm.frameSize = 40) ∧
      (compile .countdown 79).Fails ⟨.zero, #[]⟩ (.stackFull 80 79) := by
  have hneed : Buffer.countdown.frameNeed = 80 := by decide +kernel
  have hlt : Buffer.countdown.frameNeed < 2 ^ 31 := by rw [hneed]; decide
  refine ⟨hneed, ?_, ?_⟩
  · exact ((compile_outcome Buffer.countdown_validated (by decide) hlt
      (by decide +kernel)).2.2.1 40).mpr ⟨countdown_bound, by rw [hneed], by rw [hneed]⟩
  · exact ((compile_outcome Buffer.countdown_validated (by decide) hlt
      (by decide +kernel)).2.1 80 79).mpr
      ⟨countdown_bound, by rw [hneed]; decide, by rw [hneed], rfl⟩

end

end JitBackend
