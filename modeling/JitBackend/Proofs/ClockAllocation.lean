import JitBackend.Proofs.RegisterCalls

namespace JitBackend.RegFile

/-!
# Which register is handed out

A request for a register of a bank is met whenever it can be: by the lowest free register that may
be handed out and, if all of those have owners, by the first one without locks at or after the
clock, going round the bank once. Only that register changes hands.

* `RegFile.Candidate f bank exclude r` — the request may be met with `r`, if it is not locked;
* `RegFile.Picked` — what a request that is met says and does;
* `RegFile.allocate_after_calls` — so it is after all sequences of calls.
-/

/-- A register of the bank that may be handed out and is not excluded. -/
structure Candidate (f : RegFile) (bank : Nat) (exclude : RegSet) (r : Reg) : Prop where
  bank : r.bank = bank
  allocatable : f.allocatable.contains r = true
  excluded : exclude.contains r = false

/-- A request that is met: which register it gets, what is said of its owner, where the clocks stand
    afterwards, and that nothing else has changed. -/
structure Picked (f : RegFile) (bank value : Nat) (exclude : RegSet) (a : Allocation)
    (g : RegFile) : Prop where
  candidate : f.Candidate bank exclude a.reg
  unlocked : f.lockCount a.reg = 0
  owner : g.owner? a.reg = some value
  lowest : (∃ r, f.Candidate bank exclude r ∧ f.owner? r = none) →
    f.owner? a.reg = none ∧ a.evicted = none ∧ g.clocks = f.clocks ∧
      ∀ r, f.Candidate bank exclude r → f.owner? r = none → a.reg.id ≤ r.id
  clocked : (∀ r, f.Candidate bank exclude r → f.owner? r ≠ none) →
    ∃ clock steps owner : Nat, f.clocks[bank]? = some clock ∧ steps < f.perBank ∧
      a.reg.id = (clock + steps) % f.perBank ∧
      (∀ j < steps, ∀ r : Reg, r.id = (clock + j) % f.perBank →
        f.Candidate bank exclude r → 0 < f.lockCount r) ∧
      f.owner? a.reg = some owner ∧ a.evicted = some owner ∧
      g.clocks = f.clocks.setIfInBounds bank ((a.reg.id + 1) % f.perBank)
  others : ∀ r, f.Has r → r ≠ a.reg → g.owner? r = f.owner? r ∧ g.lockCount r = f.lockCount r

variable {f g : RegFile} {bank value : Nat} {exclude : RegSet} {a : Allocation}

section

variable (hf : f.WellFormed)

include hf

/-- A register without an owner has no locks, so a free candidate is an available one. -/
theorem WellFormed.available_iff : f.Available bank exclude ↔
      ∃ r, f.Candidate bank exclude r ∧ (f.owner? r = none ∨ f.lockCount r = 0) := by
  constructor
  · rintro ⟨r, hbank, hall, hexclude, hlock⟩
    exact ⟨r, ⟨hbank, hall, hexclude⟩, .inr hlock⟩
  · rintro ⟨r, ⟨hbank, hall, hexclude⟩, hfree | hlock⟩
    · refine ⟨r, hbank, hall, hexclude, Nat.eq_zero_of_not_pos fun hpos => ?_⟩
      have howner := hf.owner_of_lock r (hf.allocatable_has r hall) hpos
      rw [hfree] at howner
      cases howner
    · exact ⟨r, hbank, hall, hexclude, hlock⟩

/-- If no register is found free, all candidates have owners. -/
theorem WellFormed.owner?_of_first?_eq_none
    (hfirst : f.allocatable.first? bank (f.used.union exclude) = none) {r : Reg}
    (hr : f.Candidate bank exclude r) : (f.owner? r).isSome := by
  obtain ⟨rfl, hall, hexclude⟩ := hr
  have hused := RegSet.first?_eq_none hfirst r.id hall
  rw [RegSet.contains_union, hexclude, Bool.or_false] at hused
  exact ((hf.used_iff r).mp hused).2

/-- A register that is found free is the lowest of the candidates without owners. -/
theorem WellFormed.le_of_first? {id : Nat}
    (hfirst : f.allocatable.first? bank (f.used.union exclude) = some id) {r : Reg}
    (hr : f.Candidate bank exclude r) (hfree : f.owner? r = none) : id ≤ r.id := by
  obtain ⟨rfl, hall, hexclude⟩ := hr
  refine RegSet.first?_le hfirst hall ?_
  rw [RegSet.contains_union, hexclude, hf.owned.not_used hfree]
  rfl

/-- Where the clock found a register: the candidates that it passed are locked. -/
theorem WellFormed.clocked_of_sweep {clock id next : Nat}
    (hfirst : f.allocatable.first? bank (f.used.union exclude) = none)
    (hclock : f.clocks[bank]? = some clock)
    (hsweep : sweep f.perBank (fun id => f.isEvictable exclude ⟨bank, id⟩) f.perBank clock
      = (some id, next)) :
    ∃ steps < f.perBank, id = (clock + steps) % f.perBank ∧ next = (id + 1) % f.perBank ∧
      ∀ j < steps, ∀ r : Reg, r.id = (clock + j) % f.perBank →
        f.Candidate bank exclude r → 0 < f.lockCount r := by
  have hpos : 0 < f.perBank := by
    refine Nat.pos_of_ne_zero fun hzero => ?_
    rw [hzero] at hsweep
    simp [sweep] at hsweep
  obtain ⟨steps, hsteps, hid, -, hpassed, hnext⟩ :=
    sweep_eq_some hsweep (hf.clock_lt bank clock hclock hpos)
  refine ⟨steps, hsteps, hid, hnext, fun j hj r hr hcand => Nat.pos_of_ne_zero fun hlock => ?_⟩
  -- without locks the clock would have stopped there
  have howner := hf.owner?_of_first?_eq_none hfirst hcand
  have hevict := hf.isEvictable_iff.mpr ⟨hcand.allocatable, hcand.excluded, howner, hlock⟩
  have hreg : (⟨bank, (clock + j) % f.perBank⟩ : Reg) = r := by rw [← hcand.bank, ← hr]
  have hnot := hpassed j hj
  rw [hreg, hevict] at hnot
  cases hnot

/-- A register that is found is the one that the request should get. -/
theorem Found.picked (h : Found f bank value exclude a g) : Picked f bank value exclude a g := by
  have hgot := h.allocated hf
  have hhas := hf.allocatable_has _ hgot.allocatable
  refine ⟨⟨hgot.bank, hgot.allocatable, hgot.excluded⟩, hgot.unlocked, ?_, ?_, ?_,
    fun r hr hne => ⟨?_, hgot.locks r hr⟩⟩
  · rw [hgot.owner _ hhas, if_pos rfl]
  · rintro ⟨r, hcand, hfree⟩
    cases h with
    | free hfirst =>
      exact ⟨(hf.of_first? hfirst).2.2.1, rfl, rfl, fun q hq hq' => hf.le_of_first? hfirst hq hq'⟩
    | taken hfirst =>
      have howner := hf.owner?_of_first?_eq_none hfirst hcand
      rw [hfree] at howner
      cases howner
  · intro howned
    cases h with
    | free hfirst =>
      exact absurd (hf.of_first? hfirst).2.2.1
        (howned _ ⟨hgot.bank, hgot.allocatable, hgot.excluded⟩)
    | taken hfirst hclock hsweep =>
      obtain ⟨steps, hsteps, hid, hnext, hpassed⟩ := hf.clocked_of_sweep hfirst hclock hsweep
      obtain ⟨owner, howner⟩ := Option.isSome_iff_exists.mp
        (hf.owner?_of_first?_eq_none hfirst ⟨hgot.bank, hgot.allocatable, hgot.excluded⟩)
      refine ⟨_, steps, owner, hclock, hsteps, hid, hpassed, howner, howner, ?_⟩
      rw [hnext]
      rfl
  · rw [hgot.owner r hr, if_neg hne]

end

/-- After any calls, a request for a register of a bank is met if and only if one of the registers
    that may be handed out, are in the bank and are not excluded is free or has no locks. The
    register given is one of them and has no locks; it is the lowest free one and clocks stand
    still, or, if all have owners, it is the first one without locks at or after the clock of the
    bank, its owner is reported and the clock moves just past it. All other registers keep owners
    and locks, and a request that is not met changes nothing. -/
theorem allocate_after_calls {perBank banks : Nat} {allocatable : RegSet}
    (hper : perBank ≤ maxPerBank) (hbanks : banks ≤ maxBanks)
    (hvalid : ∀ r, allocatable.contains r = true → r.id < perBank ∧ r.bank < banks) :
    ∃ start, create perBank banks allocatable = .ok start ∧
      ∀ (calls : List RegCall) (bank value : Nat) (exclude : RegSet),
        let f := start.afterAll calls
        f.perBank = perBank ∧ f.banks = banks ∧ f.allocatable = allocatable ∧
        ((∃ a g, allocate bank value exclude f = .ok a g) ↔
          ∃ r, f.Candidate bank exclude r ∧ (f.owner? r = none ∨ f.lockCount r = 0)) ∧
        (∀ a g, allocate bank value exclude f = .ok a g → Picked f bank value exclude a g) ∧
        ∀ stop g, allocate bank value exclude f = .error stop g →
          stop = .error .noneAvailable ∧ g = f := by
  obtain ⟨start, hcreate, hstart, hper', hbanks', hall'⟩ := Sound.create hper hbanks hvalid
  refine ⟨start, hcreate, fun calls bank value exclude => ?_⟩
  obtain ⟨hsound, hshape⟩ := hstart.afterAll calls
  have hf := hsound.toWellFormed
  refine ⟨hshape.perBank.trans hper', hshape.banks.trans hbanks',
    hshape.allocatable.trans hall', ?_⟩
  rw [← hf.available_iff]
  by_cases havail : (start.afterAll calls).Available bank exclude
  · obtain ⟨a, g, hrun, hfound⟩ : (allocate bank value exclude).Yields (start.afterAll calls)
      fun a g => Found (start.afterAll calls) bank value exclude a g := allocate_found hf havail
    rw [hrun]
    refine ⟨⟨fun _ => havail, fun _ => ⟨a, g, rfl⟩⟩, fun a' g' h => ?_, fun stop g' h => ?_⟩
    · cases h
      exact hfound.picked hf
    · cases h
  · rw [allocate_error hf havail]
    refine ⟨⟨?_, fun h => absurd h havail⟩, fun a g h => ?_, fun stop g h => ?_⟩
    · rintro ⟨a, g, h⟩
      cases h
    · cases h
    · cases h
      exact ⟨rfl, rfl⟩

/-- Three registers of a bank of eight, the lowest of them locked. The clock stands past the highest
    one, so it goes round, passes the lowest and takes the middle one from its owner. -/
theorem allocate_after_wrap : ∃ start,
    create 8 1 (.ofList [⟨0, 1⟩, ⟨0, 3⟩, ⟨0, 6⟩]) = .ok start ∧
      let f := start.afterAll [.allocate 0 1 .empty, .allocate 0 2 .empty, .allocate 0 3 .empty,
        .lock ⟨0, 1⟩, .allocate 0 4 .empty, .allocate 0 5 .empty]
      f.occupied = [(⟨0, 1⟩, 1), (⟨0, 3⟩, 4), (⟨0, 6⟩, 5)] ∧ f.clocks[0]? = some 7 ∧
      ∃ a g, allocate 0 9 .empty f = .ok a g ∧ Picked f 0 9 .empty a g ∧
        g.occupied = [(⟨0, 1⟩, 1), (⟨0, 3⟩, 9), (⟨0, 6⟩, 5)] ∧ g.clocks[0]? = some 4 := by
  have hvalid : ∀ r, (RegSet.ofList [⟨0, 1⟩, ⟨0, 3⟩, ⟨0, 6⟩]).contains r = true →
      r.id < 8 ∧ r.bank < 1 := by
    intro r h
    rw [RegSet.contains_ofList, decide_eq_true_iff] at h
    have hmem := h.1
    simp only [List.mem_cons, List.not_mem_nil, or_false] at hmem
    rcases hmem with rfl | rfl | rfl <;> decide
  obtain ⟨start, hcreate, hall⟩ := allocate_after_calls (by decide) (by decide) hvalid
  refine ⟨start, hcreate, ?_⟩
  obtain ⟨-, -, -, hmet, hpicked, -⟩ := hall [.allocate 0 1 .empty, .allocate 0 2 .empty,
    .allocate 0 3 .empty, .lock ⟨0, 1⟩, .allocate 0 4 .empty, .allocate 0 5 .empty] 0 9 .empty
  cases hcreate
  obtain ⟨a, g, hrun⟩ := hmet.mpr
    ⟨⟨0, 3⟩, ⟨rfl, by decide +kernel, by decide +kernel⟩, .inr (by decide +kernel)⟩
  have hg := Step.after_ok hrun
  refine ⟨by decide +kernel, by decide +kernel, a, g, hrun, hpicked a g hrun, ?_, ?_⟩
  · rw [← hg]
    decide +kernel
  · rw [← hg]
    decide +kernel

end JitBackend.RegFile
