import JitBackend.Proofs.Agreement

namespace JitBackend

/-!
# Optimised code does what the code does

A function that is written through an optimising pipeline and one that is written as it is have the
same runs, whatever they are run in: the same loads, stores, calls and jumps with the same values,
and the same end at the same point.

* `Interp.Alike` — runs that cannot be told apart, `Interp.SameRuns` — code that cannot;
* `Interp.Agree.forth`, `Interp.Agree.back` — runs from states that agree;
* `optimised_run` — the two ways of writing a function.
-/

namespace Interp

variable {M : Type} {w : World M} {t : Writer} {B : Buffer} {s u : State M}

/-- Two runs have the same events, at positions that correspond, the same memory and the same end.
    A run that has ended is at the corresponding position. -/
structure Alike (place : Nat → Nat) (r r' : State M × Option Outcome) : Prop where
  outcome : r'.2 = r.2
  trace : r'.1.trace = r.1.trace.map fun e => (place e.1, e.2)
  mem : r'.1.mem = r.1.mem
  stop : r.2 ≠ none → r'.1.pc = place r.1.pc

/-- Each buffer has, from a state of memory, the runs of the other one. -/
structure SameRuns (w : World M) (place : Nat → Nat) (b b' : Buffer) (m : M) : Prop where
  forth : ∀ n, ∃ n', Alike place (run w b n (.initial m)) (run w b' n' (.initial m))
  back : ∀ n', ∃ n, Alike place (run w b n (.initial m)) (run w b' n' (.initial m))

theorem Agree.alike (ha : Agree w t B s u) : Alike t.placeOf (s, none) (u, none) :=
  ⟨rfl, ha.trace, ha.mem, fun h => absurd rfl h⟩

theorem Agree.alike_halt (ha : Agree w t B s u) (hpc : u.pc = t.placeOf s.pc) (o : Outcome) :
    Alike t.placeOf (s, some o) (u, some o) :=
  ⟨rfl, ha.trace, ha.mem, fun _ => hpc⟩

/-- What the function does, the writer's buffer does. -/
theorem Agree.forth (ha : Agree w t B s u) (h : t.Translates B) (hdef : B.DefinesBeforeUse)
    (n : Nat) : ∃ n', Alike t.placeOf (run w B n s) (run w t.buffer n' u) := by
  induction n generalizing s u with
  | zero => exact ⟨0, ha.alike⟩
  | succ n ih =>
    have hkeeps := ha.step h hdef
    cases hstep : Interp.step w B s with
    | halt o =>
      rw [hstep] at hkeeps
      obtain ⟨hhalt, hpc⟩ := hkeeps
      refine ⟨1, ?_⟩
      rw [run_halt hstep, run_halt hhalt]
      exact ha.alike_halt hpc o
    | go s' =>
      rw [hstep] at hkeeps
      obtain ⟨m, u', hrun, ha', -⟩ := hkeeps
      obtain ⟨n', hn'⟩ := ih ha'
      refine ⟨m + n', ?_⟩
      rw [run_add hrun, Nat.add_comm n 1, run_add (run_one hstep)]
      exact hn'

/-- What the writer's buffer does, the function does. Instructions that nothing was written for only
    bring the function closer to its end. -/
theorem Agree.back {s u : State M} (ha : Agree w t B s u) (h : t.Translates B)
    (hdef : B.DefinesBeforeUse) (n' : Nat) : ∃ n, Alike t.placeOf (run w B n s) (run w t.buffer n' u) := by
  have hkeeps := ha.step h hdef
  cases hstep : Interp.step w B s with
  | halt o =>
    rw [hstep] at hkeeps
    obtain ⟨hhalt, hpc⟩ := hkeeps
    cases n' with
    | zero => exact ⟨0, ha.alike⟩
    | succ n' =>
      refine ⟨1, ?_⟩
      rw [run_halt hstep, run_halt hhalt]
      exact ha.alike_halt hpc o
  | go s' =>
    rw [hstep] at hkeeps
    obtain ⟨m, u', hrun, ha', hzero, hquiet⟩ := hkeeps
    rcases Nat.lt_or_ge n' m with hlt | hge
    · -- within the stretch nothing can be observed
      obtain ⟨u'', hrun', htrace, hmem⟩ := hquiet n' hlt
      refine ⟨0, ?_⟩
      rw [hrun']
      exact ⟨rfl, htrace.trans ha.trace, hmem.trans ha.mem, fun h => absurd rfl h⟩
    · have hless : n' - m < n' ∨ n' - m = n' ∧ B.size - s'.pc < B.size - s.pc := by
        rcases Nat.eq_zero_or_pos m with hm | hm
        · have := hzero hm
          omega
        · omega
      obtain ⟨n, hn⟩ := ha'.back h hdef (n' - m)
      refine ⟨1 + n, ?_⟩
      rw [run_add (run_one hstep), ← Nat.add_sub_cancel' hge, run_add hrun]
      exact hn
termination_by (n', B.size - s.pc)
decreasing_by exact Prod.lex_def.mpr hless

end Interp

open Interp

/-- A function can be written with and without optimisation, and then the two buffers cannot be told
    apart by running them. -/
theorem optimised_run {id : Nat} {actions : List Action} {source : Buffer}
    (hsource : source? id actions = some source) (hdef : source.DefinesBeforeUse) (c : Config)
    (log : Log) :
    ∃ plain opt : Writer, (Writer.start c false id log).run actions = some plain ∧
      (Writer.start c true id log).run actions = some opt ∧ plain.buffer = source ∧
      ∀ {M : Type} (w : World M) (m : M), SameRuns w opt.placeOf plain.buffer opt.buffer m := by
  obtain ⟨plain, hplain, -⟩ := (Writer.typed_start c false id log).run hsource
  obtain ⟨opt, hopt, -⟩ := (Writer.typed_start c true id log).run hsource
  have hbuffer := ((Writer.plain_start c id log).run hsource hplain).buffer
  have htranslates := Writer.translates_of_run hsource hdef hopt
  refine ⟨plain, opt, hplain, hopt, hbuffer, fun w m => ?_⟩
  rw [hbuffer]
  have ha := Agree.start (w := w) htranslates m
  exact ⟨ha.forth htranslates hdef, ha.back htranslates hdef⟩

/-- Divides numbers in memory by eight times a parameter until a quotient is zero. The constant
    eight and the product are made twice. -/
def divideAll : List Action :=
  [.send (.plain .start []), .send ⟨.param, .empty, .param 0⟩, .send (.const (.int64 8)),
    .send (.const (.int64 8)), .send (.plain (.arith .w64 .mul) [⟨0, 1⟩, ⟨0, 2⟩]),
    .send (.plain .label []), .send ⟨.load (.value .int64), .ofList [⟨0, 1⟩], .disp 0⟩,
    .send (.plain (.arith .w64 .mul) [⟨0, 1⟩, ⟨0, 3⟩]),
    .send (.plain (.arith .w64 .div) [⟨0, 6⟩, ⟨0, 7⟩]),
    .send ⟨.store (.value .int64), .ofList [⟨0, 8⟩, ⟨0, 1⟩], .disp 0⟩,
    .send (.plain (.convert .q2i) [⟨0, 8⟩]),
    .send ⟨.branch true, .ofList [⟨0, 10⟩], .target none⟩, .bind 11 5,
    .send (.plain (.ret .int64) [⟨0, 4⟩])]

/-- The two buffers differ, and have the same runs. -/
theorem optimised_run_divideAll : ∃ source, source? 0 divideAll = some source ∧
    source.DefinesBeforeUse ∧ ∃ plain opt : Writer,
      (Writer.start .standard false 0 #[]).run divideAll = some plain ∧
      (Writer.start .standard true 0 #[]).run divideAll = some opt ∧ plain.buffer = source ∧
      opt.buffer ≠ source ∧
      ∀ {M : Type} (w : World M) (m : M), SameRuns w opt.placeOf plain.buffer opt.buffer m := by
  have hsource : source? 0 divideAll = some ((source? 0 divideAll).getD (.empty 0)) := by rfl
  have hpassed : ((source? 0 divideAll).getD (.empty 0)).Passed ((List.range 13).map List.range) := by
    decide +kernel
  have hdef := hpassed.definesBeforeUse (by decide +kernel)
  have hne : ((Writer.start .standard true 0 #[]).run divideAll).map Writer.buffer ≠
      source? 0 divideAll := by decide +kernel
  obtain ⟨plain, opt, hplain, hopt, hbuffer, hsame⟩ := optimised_run hsource hdef .standard #[]
  refine ⟨_, hsource, hdef, plain, opt, hplain, hopt, hbuffer, fun heq => hne ?_, hsame⟩
  rw [hopt, hsource]
  exact congrArg some heq

end JitBackend
