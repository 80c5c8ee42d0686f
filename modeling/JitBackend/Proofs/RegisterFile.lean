import JitBackend.Proofs.RegisterSet
import JitBackend.Proofs.Run
import JitBackend.RegFile

namespace JitBackend.RegFile

/-!
# The register file as a map from registers to owners

What the operations of the register file do to its two views, the owner of each register and the
number of locks on it. The sets of used and locked registers repeat what the views say; they
stay in step in every well-formed file.

* `RegFile.Has f r` — `r` is a register of the file;
* `RegFile.WellFormed f` — sets and arrays agree, locked registers have owners;
* `allocate_yields`, `assign_yields`, `release_yields`, `lock_yields`, `unlock_yields`,
  `reset_wellFormed` — one specification for each operation.
-/

variable {f : RegFile} {r q : Reg} {next bank perBank clock steps value : Nat} {exclude : RegSet}
  {accept : Nat → Bool}

/-- The register is one of the file. -/
def Has (f : RegFile) (r : Reg) : Prop :=
  r.id < f.perBank ∧ r.bank < f.banks

/-- Number of locks on a register. -/
def lockCount (f : RegFile) (r : Reg) : Nat :=
  f.locks[r.linear f.perBank]?.getD 0

/-- The sets of used and locked registers agree with owners and lock counts. -/
structure WellFormed (f : RegFile) : Prop where
  perBank_le : f.perBank ≤ maxPerBank
  banks_le : f.banks ≤ maxBanks
  owners_size : f.owners.size = f.size
  locks_size : f.locks.size = f.size
  used_iff : ∀ r, f.used.contains r = true ↔ f.Has r ∧ (f.owner? r).isSome
  locked_iff : ∀ r, f.locked.contains r = true ↔ f.Has r ∧ 0 < f.lockCount r
  owner_of_lock : ∀ r, f.Has r → 0 < f.lockCount r → (f.owner? r).isSome
  allocatable_has : ∀ r, f.allocatable.contains r = true → f.Has r
  clock_lt : ∀ bank clock : Nat, f.clocks[bank]? = some clock → 0 < f.perBank → clock < f.perBank

/-- Owners alone agree with the set of used registers. -/
structure Owned (f : RegFile) : Prop where
  perBank_le : f.perBank ≤ maxPerBank
  banks_le : f.banks ≤ maxBanks
  owners_size : f.owners.size = f.size
  used_iff : ∀ r, f.used.contains r = true ↔ f.Has r ∧ (f.owner? r).isSome

theorem WellFormed.owned (hf : f.WellFormed) : f.Owned :=
  ⟨hf.perBank_le, hf.banks_le, hf.owners_size, hf.used_iff⟩

/-! ### Positions -/

theorem Has.linear_lt (h : f.Has r) : r.linear f.perBank < f.size := by
  have h1 : r.bank * f.perBank + f.perBank ≤ f.banks * f.perBank := by
    rw [← Nat.succ_mul]; exact Nat.mul_le_mul_right _ h.2
  have h2 := h.1
  simp only [Reg.linear, RegFile.size, Nat.mul_comm f.perBank]
  omega

theorem Has.position? (h : f.Has r) : f.position? r = some (r.linear f.perBank) := by
  rw [RegFile.position?, if_pos ⟨h.1, h.linear_lt⟩]

/-- Different registers of the file have different positions. -/
theorem linear_inj (hr : f.Has r) (hq : f.Has q) (h : r.linear f.perBank = q.linear f.perBank) :
    r = q := by
  obtain ⟨rb, ri⟩ := r
  obtain ⟨qb, qi⟩ := q
  have hri : ri < f.perBank := hr.1
  have hqi : qi < f.perBank := hq.1
  simp only [Reg.linear] at h
  have hb : rb = qb := by
    have h1 : (ri + f.perBank * rb) / f.perBank = rb := by
      rw [Nat.add_mul_div_left _ _ (by omega), Nat.div_eq_of_lt hri, Nat.zero_add]
    have h2 : (qi + f.perBank * qb) / f.perBank = qb := by
      rw [Nat.add_mul_div_left _ _ (by omega), Nat.div_eq_of_lt hqi, Nat.zero_add]
    rw [← h1, ← h2, Nat.mul_comm f.perBank rb, Nat.mul_comm f.perBank qb, Nat.add_comm ri,
      Nat.add_comm qi, h]
  subst hb
  have : ri = qi := by omega
  rw [this]

theorem Owned.fits (hf : f.Owned) (h : f.Has r) : r.Fits :=
  ⟨Nat.lt_of_lt_of_le h.2 hf.banks_le, Nat.lt_of_lt_of_le h.1 hf.perBank_le⟩

/-! ### Owners and locks after an update -/

theorem getElem?_set {α : Type} (hr : f.Has r) (hq : f.Has q) (xs : Array α) (x : α) :
    (xs.setIfInBounds (r.linear f.perBank) x)[q.linear f.perBank]? =
      if q = r then (if r.linear f.perBank < xs.size then some x else none)
      else xs[q.linear f.perBank]? := by
  rw [Array.getElem?_setIfInBounds]
  by_cases h : q = r
  · subst h
    rw [if_pos rfl, if_pos rfl]
  · rw [if_neg h, if_neg fun he => h (linear_inj hr hq he).symm]

theorem owner?_give (hsize : f.owners.size = f.size) (hr : f.Has r) (hq : f.Has q) (v : Nat) :
    (f.give r (r.linear f.perBank) v).owner? q = if q = r then some v else f.owner? q := by
  have hlt : r.linear f.perBank < f.owners.size := by rw [hsize]; exact hr.linear_lt
  simp only [owner?, give, getElem?_set hr hq, if_pos hlt]
  split <;> rfl

theorem lockCount_give (r q : Reg) (p v : Nat) : (f.give r p v).lockCount q = f.lockCount q := rfl

theorem owner?_vacate (hr : f.Has r) (hq : f.Has q) :
    (f.vacate r (r.linear f.perBank)).owner? q = if q = r then none else f.owner? q := by
  simp only [owner?, vacate, getElem?_set hr hq]
  split
  · split <;> rfl
  · rfl

theorem lockCount_vacate (hr : f.Has r) (hq : f.Has q) :
    (f.vacate r (r.linear f.perBank)).lockCount q = if q = r then 0 else f.lockCount q := by
  simp only [lockCount, vacate, getElem?_set hr hq]
  split
  · split <;> rfl
  · rfl

theorem Owned.give (hf : f.Owned) (hr : f.Has r) (v : Nat) :
    (f.give r (r.linear f.perBank) v).Owned where
  perBank_le := hf.perBank_le
  banks_le := hf.banks_le
  owners_size := by simp only [RegFile.give, Array.size_setIfInBounds]; exact hf.owners_size
  used_iff q := by
    show (f.used.insert r).contains q = true ↔ f.Has q ∧ _
    rw [RegSet.contains_insert, Bool.or_eq_true, hf.used_iff, decide_eq_true_iff]
    constructor
    · rintro (⟨hq, ho⟩ | ⟨rfl, -⟩)
      · refine ⟨hq, ?_⟩
        rw [owner?_give hf.owners_size hr hq]; split <;> simp [ho]
      · refine ⟨hr, ?_⟩
        rw [owner?_give hf.owners_size hr hr]; simp
    · rintro ⟨hq, ho⟩
      rw [owner?_give hf.owners_size hr hq] at ho
      by_cases h : q = r
      · exact .inr ⟨h, hf.fits hr⟩
      · rw [if_neg h] at ho; exact .inl ⟨hq, ho⟩

theorem WellFormed.give (hf : f.WellFormed) (hr : f.Has r) (v : Nat) :
    (f.give r (r.linear f.perBank) v).WellFormed where
  perBank_le := hf.perBank_le
  banks_le := hf.banks_le
  owners_size := (hf.owned.give hr v).owners_size
  used_iff := (hf.owned.give hr v).used_iff
  locks_size := hf.locks_size
  locked_iff := hf.locked_iff
  owner_of_lock q hq hl := by
    rw [owner?_give hf.owners_size hr hq]
    split
    · rfl
    · exact hf.owner_of_lock q hq hl
  allocatable_has := hf.allocatable_has
  clock_lt := hf.clock_lt

theorem Owned.vacate (hf : f.Owned) (hr : f.Has r) :
    (f.vacate r (r.linear f.perBank)).Owned where
  perBank_le := hf.perBank_le
  banks_le := hf.banks_le
  owners_size := by simp only [RegFile.vacate, Array.size_setIfInBounds]; exact hf.owners_size
  used_iff q := by
    show (f.used.erase r).contains q = true ↔ f.Has q ∧ _
    rw [RegSet.contains_erase, Bool.and_eq_true, hf.used_iff, decide_eq_true_iff, and_assoc]
    refine and_congr_right fun hq => ?_
    rw [owner?_vacate hr hq]
    split <;> simp_all

theorem WellFormed.vacate (hf : f.WellFormed) (hr : f.Has r) :
    (f.vacate r (r.linear f.perBank)).WellFormed where
  perBank_le := hf.perBank_le
  banks_le := hf.banks_le
  owners_size := (hf.owned.vacate hr).owners_size
  used_iff := (hf.owned.vacate hr).used_iff
  locks_size := by simp only [RegFile.vacate, Array.size_setIfInBounds]; exact hf.locks_size
  locked_iff q := by
    show (f.locked.erase r).contains q = true ↔ f.Has q ∧ _
    rw [RegSet.contains_erase, Bool.and_eq_true, hf.locked_iff, decide_eq_true_iff, and_assoc]
    refine and_congr_right fun hq => ?_
    rw [lockCount_vacate hr hq]
    split <;> simp_all
  owner_of_lock q hq hl := by
    rw [lockCount_vacate hr hq] at hl
    rw [owner?_vacate hr hq]
    by_cases h : q = r
    · simp [h] at hl
    · rw [if_neg h] at hl ⊢; exact hf.owner_of_lock q hq hl
  allocatable_has := hf.allocatable_has
  clock_lt := hf.clock_lt

/-! ### Operations -/

/-- The two files have the same registers and hand out the same ones. -/
structure SameShape (f g : RegFile) : Prop where
  perBank : g.perBank = f.perBank
  banks : g.banks = f.banks
  allocatable : g.allocatable = f.allocatable

theorem SameShape.trans {g h : RegFile} (hfg : SameShape f g) (hgh : SameShape g h) :
    SameShape f h :=
  ⟨hgh.perBank.trans hfg.perBank, hgh.banks.trans hfg.banks, hgh.allocatable.trans hfg.allocatable⟩

theorem positionOf_ok (hr : f.Has r) : positionOf r f = .ok (r.linear f.perBank) f := by
  rw [positionOf, Step.bind_get, hr.position?]
  rfl

theorem assignAny_ok (hr : f.Has r) (v : Nat) :
    assignAny r v f = .ok () (f.give r (r.linear f.perBank) v) := by
  rw [assignAny, Step.bind_ok (positionOf_ok hr)]; rfl

/-- A free register can be given to a value. -/
theorem assign_ok (hf : f.WellFormed) (hr : f.Has r) (hfree : f.owner? r = none) (v : Nat) :
    assign r v f = .ok () (f.give r (r.linear f.perBank) v) := by
  have hused : f.used.contains r = false := by
    rw [Bool.eq_false_iff]
    intro h
    simpa [hfree] using ((hf.used_iff r).mp h).2
  rw [assign, Step.bind_get]
  simp only [hused, Bool.false_eq_true, if_false]
  exact assignAny_ok hr v

/-- A register with an owner can be taken back. -/
theorem release_ok (hf : f.Owned) (hr : f.Has r) (howned : (f.owner? r).isSome) :
    release r f = .ok () (f.vacate r (r.linear f.perBank)) := by
  have hused : f.used.contains r = true := (hf.used_iff r).mpr ⟨hr, howned⟩
  rw [release, Step.bind_ok (positionOf_ok hr), Step.bind_get]
  simp only [hused, if_true]
  rfl

/-- The file with `n` locks on a register. -/
def withLocks (f : RegFile) (r : Reg) (n : Nat) (locked : RegSet) : RegFile :=
  { f with locks := f.locks.setIfInBounds (r.linear f.perBank) n, locked }

section

variable (hf : f.WellFormed) (hr : f.Has r)

include hf hr

theorem lockCount_withLocks (hq : f.Has q) (n : Nat) (locked : RegSet) :
    (f.withLocks r n locked).lockCount q = if q = r then n else f.lockCount q := by
  have hlt : r.linear f.perBank < f.locks.size := by rw [hf.locks_size]; exact hr.linear_lt
  simp only [lockCount, withLocks, getElem?_set hr hq, if_pos hlt]
  split <;> rfl

theorem WellFormed.withLocks {n : Nat} {locked : RegSet} (howned : 0 < n → (f.owner? r).isSome)
    (hlocked : ∀ q, locked.contains q = true ↔ f.Has q ∧ 0 < (if q = r then n else f.lockCount q)) :
    (f.withLocks r n locked).WellFormed where
  perBank_le := hf.perBank_le
  banks_le := hf.banks_le
  owners_size := hf.owners_size
  locks_size := by simp only [RegFile.withLocks, Array.size_setIfInBounds]; exact hf.locks_size
  used_iff := hf.used_iff
  locked_iff q := by
    show locked.contains q = true ↔ f.Has q ∧ _
    rw [hlocked]
    refine and_congr_right fun hq => ?_
    rw [lockCount_withLocks hf hr hq]
  owner_of_lock q hq hl := by
    rw [lockCount_withLocks hf hr hq] at hl
    by_cases h : q = r
    · subst h; rw [if_pos rfl] at hl; exact howned hl
    · rw [if_neg h] at hl; exact hf.owner_of_lock q hq hl
  allocatable_has := hf.allocatable_has
  clock_lt := hf.clock_lt

/-- A register with an owner can be locked once more. -/
theorem lock_yields (howned : (f.owner? r).isSome) (hmax : f.lockCount r < maxLocks) :
    (lock r).Yields f fun _ g => g.WellFormed ∧ SameShape f g ∧ (∀ q, g.owner? q = f.owner? q) ∧
      ∀ q, f.Has q → g.lockCount q = if q = r then f.lockCount r + 1 else f.lockCount q := by
  have hused : f.used.contains r = true := (hf.used_iff r).mpr ⟨hr, howned⟩
  have hrun : lock r f = .ok () (f.withLocks r (f.lockCount r + 1) (f.locked.insert r)) := by
    have hmax' : ¬ (f.locks[r.linear f.perBank]?.getD 0 ≥ maxLocks) := by
      have : f.locks[r.linear f.perBank]?.getD 0 < maxLocks := hmax
      omega
    rw [lock, Step.bind_ok (positionOf_ok hr), Step.bind_get]
    simp only [hused, if_true, if_neg hmax']
    rfl
  refine ⟨_, _, hrun, hf.withLocks hr (fun _ => howned) fun q => ?_, ⟨rfl, rfl, rfl⟩,
    fun q => rfl, fun q hq => lockCount_withLocks hf hr hq _ _⟩
  rw [RegSet.contains_insert, Bool.or_eq_true, hf.locked_iff, decide_eq_true_iff]
  by_cases h : q = r
  · subst h; simp [hr, hf.owned.fits hr]
  · simp [h]

/-- A locked register can be unlocked once. -/
theorem unlock_yields (hlocked : 0 < f.lockCount r) :
    (unlock r).Yields f fun _ g => g.WellFormed ∧ SameShape f g ∧ (∀ q, g.owner? q = f.owner? q) ∧
      ∀ q, f.Has q → g.lockCount q = if q = r then f.lockCount r - 1 else f.lockCount q := by
  have hcount : f.locks[r.linear f.perBank]?.getD 0 = f.lockCount r := rfl
  have hrun : unlock r f = .ok () (f.withLocks r (f.lockCount r - 1)
      (if f.lockCount r = 1 then f.locked.erase r else f.locked)) := by
    rw [unlock, Step.bind_ok (positionOf_ok hr), Step.bind_get]
    simp only [hcount, if_neg (Nat.pos_iff_ne_zero.mp hlocked)]
    rfl
  refine ⟨_, _, hrun, hf.withLocks hr (fun _ => hf.owner_of_lock r hr hlocked) fun q => ?_,
    ⟨rfl, rfl, rfl⟩, fun q => rfl, fun q hq => lockCount_withLocks hf hr hq _ _⟩
  by_cases hone : f.lockCount r = 1
  · rw [if_pos hone, RegSet.contains_erase, Bool.and_eq_true, hf.locked_iff, decide_eq_true_iff]
    by_cases h : q = r <;> simp [h, hone]
  · rw [if_neg hone, hf.locked_iff]
    by_cases h : q = r
    · subst h
      simp only [hr, hlocked, true_and, if_true, true_iff]
      omega
    · simp [h]

end

/-! ### Finding a register -/

/-- A clock stops at the first register that is accepted and moves just past it, or it moves by as
    many registers as it has steps and accepts none of them. -/
theorem sweep_spec (hclock : clock < perBank) :
    (∃ k < steps, accept ((clock + k) % perBank) = true ∧
      (∀ j < k, accept ((clock + j) % perBank) = false) ∧ sweep perBank accept steps clock
        = (some ((clock + k) % perBank), ((clock + k) % perBank + 1) % perBank)) ∨
    (∀ j < steps, accept ((clock + j) % perBank) = false) ∧
      sweep perBank accept steps clock = (none, (clock + steps) % perBank) := by
  induction steps generalizing clock with
  | zero => exact .inr ⟨by simp, by rw [sweep, Nat.add_zero, Nat.mod_eq_of_lt hclock]⟩
  | succ n ih =>
    have hhere : (clock + 0) % perBank = clock := Nat.mod_eq_of_lt hclock
    by_cases ha : accept clock = true
    · refine .inl ⟨0, Nat.succ_pos n, by rwa [hhere], by simp, ?_⟩
      rw [sweep, if_pos ha, hhere]
    · have hshift : ∀ j, ((clock + 1) % perBank + j) % perBank = (clock + (j + 1)) % perBank := by
        intro j
        rw [Nat.mod_add_mod, Nat.add_assoc, Nat.add_comm 1 j]
      have hlater : ∀ k, (∀ j < k, accept ((clock + (j + 1)) % perBank) = false) →
          ∀ j < k + 1, accept ((clock + j) % perBank) = false := by
        intro k hk j hj
        cases j with
        | zero => rwa [hhere, Bool.eq_false_iff]
        | succ j => exact hk j (by omega)
      have hnext : (clock + 1) % perBank < perBank := Nat.mod_lt _ (by omega)
      have hrest := ih hnext
      simp only [hshift] at hrest
      rw [sweep, if_neg ha]
      rcases hrest with ⟨k, hk, hacc, hbefore, hres⟩ | ⟨hnone, hres⟩
      · exact .inl ⟨k + 1, by omega, hacc, hlater k hbefore, hres⟩
      · exact .inr ⟨hlater n hnone, hres⟩

theorem sweep_eq_some {c : Nat} (h : sweep perBank accept steps clock = (some c, next))
    (hclock : clock < perBank) : ∃ k < steps, c = (clock + k) % perBank ∧ accept c = true ∧
      (∀ j < k, accept ((clock + j) % perBank) = false) ∧ next = (c + 1) % perBank := by
  rcases sweep_spec hclock with ⟨k, hk, hacc, hbefore, hres⟩ | ⟨-, hres⟩
  · cases hres.symm.trans h
    exact ⟨k, hk, rfl, hacc, hbefore, rfl⟩
  · cases hres.symm.trans h

theorem sweep_eq_none (h : sweep perBank accept steps clock = (none, next))
    (hclock : clock < perBank) :
    (∀ j < steps, accept ((clock + j) % perBank) = false) ∧ next = (clock + steps) % perBank := by
  rcases sweep_spec hclock with ⟨k, -, -, -, hres⟩ | ⟨hnone, hres⟩
  · cases hres.symm.trans h
  · cases hres.symm.trans h
    exact ⟨hnone, rfl⟩

/-- A clock stops at a register that is accepted. -/
theorem sweep_some {c : Nat} (h : sweep perBank accept steps clock = (some c, next))
    (hpos : 0 < perBank) (hclock : clock < perBank) :
    accept c = true ∧ c < perBank ∧ next < perBank := by
  obtain ⟨k, -, hc, hacc, -, hnext⟩ := sweep_eq_some h hclock
  exact ⟨hacc, hc ▸ Nat.mod_lt _ hpos, hnext ▸ Nat.mod_lt _ hpos⟩

/-- A clock that goes once round a bank without a hit has seen all of its registers. -/
theorem sweep_none_all (h : sweep perBank accept perBank clock = (none, next))
    (hclock : clock < perBank) (c : Nat) (hc : c < perBank) : accept c = false := by
  by_cases hle : clock ≤ c
  · have := (sweep_eq_none h hclock).1 (c - clock) (by omega)
    rwa [Nat.add_sub_cancel' hle, Nat.mod_eq_of_lt hc] at this
  · have := (sweep_eq_none h hclock).1 (perBank + c - clock) (by omega)
    rwa [show clock + (perBank + c - clock) = perBank + c by omega, Nat.add_mod_left,
      Nat.mod_eq_of_lt hc] at this

/-- What is known of a register handed out: it is free or was taken from the value reported, and
    it belongs to the new value now. -/
structure Allocated (f : RegFile) (bank value : Nat) (exclude : RegSet) (a : Allocation)
    (g : RegFile) : Prop where
  wellFormed : g.WellFormed
  shape : SameShape f g
  bank : a.reg.bank = bank
  allocatable : f.allocatable.contains a.reg = true
  excluded : exclude.contains a.reg = false
  unlocked : f.lockCount a.reg = 0
  evicted : a.evicted = f.owner? a.reg
  owner : ∀ q, f.Has q → g.owner? q = if q = a.reg then some value else f.owner? q
  locks : ∀ q, f.Has q → g.lockCount q = f.lockCount q

section

variable (hf : f.WellFormed)

include hf

/-- The file with the clock of a bank moved. -/
theorem WellFormed.withClock (hnext : 0 < f.perBank → next < f.perBank) :
    { f with clocks := f.clocks.setIfInBounds bank next }.WellFormed :=
  { hf with
    clock_lt := by
      intro b c hc hpos
      simp only [Vector.getElem?_setIfInBounds] at hc
      split at hc
      · split at hc
        · cases hc; exact hnext hpos
        · cases hc
      · exact hf.clock_lt b c hc hpos }

/-- The file after a clock has taken a register from its owner for a value. -/
def takeOver (f : RegFile) (r : Reg) (next value : Nat) : RegFile :=
  let moved := { f with clocks := f.clocks.setIfInBounds r.bank next }
  (moved.vacate r (r.linear f.perBank)).give r (r.linear f.perBank) value

/-- The two ways to find a register: the lowest free one, or else the first one that the clock may
    take from its owner. -/
inductive Found (f : RegFile) (bank value : Nat) (exclude : RegSet) : Allocation → RegFile → Prop where
  | free {id : Nat} (hfirst : f.allocatable.first? bank (f.used.union exclude) = some id) :
      Found f bank value exclude ⟨⟨bank, id⟩, none⟩
        (f.give ⟨bank, id⟩ (Reg.linear ⟨bank, id⟩ f.perBank) value)
  | taken {clock id next : Nat}
      (hfirst : f.allocatable.first? bank (f.used.union exclude) = none)
      (hclock : f.clocks[bank]? = some clock)
      (hsweep : sweep f.perBank (fun id => f.isEvictable exclude ⟨bank, id⟩) f.perBank clock
        = (some id, next)) :
      Found f bank value exclude ⟨⟨bank, id⟩, f.owner? ⟨bank, id⟩⟩
        (f.takeOver ⟨bank, id⟩ next value)

/-- A register that is found free may be handed out and has no owner. -/
theorem WellFormed.of_first? {id : Nat}
    (h : f.allocatable.first? bank (f.used.union exclude) = some id) :
    f.allocatable.contains ⟨bank, id⟩ = true ∧ exclude.contains ⟨bank, id⟩ = false ∧
      f.owner? ⟨bank, id⟩ = none ∧ f.lockCount ⟨bank, id⟩ = 0 := by
  have hin := RegSet.first?_eq_some h
  rw [RegSet.contains_union, Bool.or_eq_false_iff] at hin
  have hhas := hf.allocatable_has _ hin.1
  have hfree : f.owner? ⟨bank, id⟩ = none := by
    have := mt (hf.used_iff ⟨bank, id⟩).mpr (by simp [hin.2.1])
    simpa [hhas] using this
  refine ⟨hin.1, hin.2.2, hfree, Nat.eq_zero_of_not_pos fun hpos => ?_⟩
  have howner := hf.owner_of_lock _ hhas hpos
  rw [hfree] at howner
  cases howner

/-- A register may be taken from its owner if it may be handed out, has one and is not locked. -/
theorem WellFormed.isEvictable_iff :
    f.isEvictable exclude r = true ↔ f.allocatable.contains r = true ∧ exclude.contains r = false ∧
      (f.owner? r).isSome ∧ f.lockCount r = 0 := by
  simp only [isEvictable, Bool.and_eq_true, Bool.not_eq_true']
  constructor
  · rintro ⟨⟨⟨hall, hused⟩, hunlocked⟩, hex⟩
    refine ⟨hall, hex, ((hf.used_iff r).mp hused).2, Nat.eq_zero_of_not_pos fun hpos => ?_⟩
    rw [(hf.locked_iff r).mpr ⟨hf.allocatable_has r hall, hpos⟩] at hunlocked
    cases hunlocked
  · rintro ⟨hall, hex, howner, hlock⟩
    refine ⟨⟨⟨hall, (hf.used_iff r).mpr ⟨hf.allocatable_has r hall, howner⟩⟩, ?_⟩, hex⟩
    rw [Bool.eq_false_iff]
    intro hlocked
    have := ((hf.locked_iff r).mp hlocked).2
    omega

/-- If some register of a bank is neither excluded nor locked, one is found. -/
theorem allocate_found
    (havail : ∃ r : Reg, r.bank = bank ∧ f.allocatable.contains r = true ∧
      exclude.contains r = false ∧ f.lockCount r = 0) :
    (allocate bank value exclude).Yields f fun a g => Found f bank value exclude a g := by
  cases hfirst : f.allocatable.first? bank (f.used.union exclude) with
  | some id =>
    have hhas := hf.allocatable_has _ (hf.of_first? hfirst).1
    refine ⟨_, _, ?_, .free hfirst⟩
    rw [allocate, Step.bind_get]
    simp only [hfirst]
    rw [Step.bind_ok (assignAny_ok hhas value)]
    rfl
  | none =>
    obtain ⟨r, rfl, hr, hex, hlock⟩ := havail
    have hhas := hf.allocatable_has r hr
    obtain ⟨clock, hclock⟩ : ∃ clock, f.clocks[r.bank]? = some clock :=
      ⟨_, Vector.getElem?_eq_getElem (Nat.lt_of_lt_of_le hhas.2 hf.banks_le)⟩
    have hpos : 0 < f.perBank := by have := hhas.1; omega
    have hclock_lt := hf.clock_lt _ _ hclock hpos
    -- no register of the bank is free, so the one that is available can be taken
    have hevict : f.isEvictable exclude r = true := by
      have hused : (f.used.union exclude).contains r = true :=
        RegSet.first?_eq_none hfirst r.id hr
      rw [RegSet.contains_union, hex, Bool.or_false] at hused
      exact hf.isEvictable_iff.mpr ⟨hr, hex, ((hf.used_iff r).mp hused).2, hlock⟩
    obtain ⟨hit, next, hsweep⟩ : ∃ hit next,
        sweep f.perBank (fun id => f.isEvictable exclude ⟨r.bank, id⟩) f.perBank clock
          = (hit, next) := ⟨_, _, rfl⟩
    cases hit with
    | none =>
      have := sweep_none_all hsweep hclock_lt r.id hhas.1
      rw [hevict] at this; cases this
    | some id =>
      obtain ⟨hacc, -, hnext⟩ := sweep_some hsweep hpos hclock_lt
      obtain ⟨hall, -, howner, -⟩ := hf.isEvictable_iff.mp hacc
      let f' := { f with clocks := f.clocks.setIfInBounds r.bank next }
      have hf' : f'.WellFormed := hf.withClock fun _ => hnext
      have hv : f'.Has ⟨r.bank, id⟩ := hf.allocatable_has _ hall
      refine ⟨_, _, ?_, .taken hfirst hclock hsweep⟩
      have hvictim : clockVictim r.bank exclude f = .ok (some ⟨r.bank, id⟩) f' := by
        rw [clockVictim, Step.bind_get]
        simp only [hclock, hsweep]
        rfl
      rw [allocate, Step.bind_get]
      simp only [hfirst]
      rw [Step.bind_ok hvictim]
      simp only
      rw [Step.bind_get, Step.bind_ok (release_ok hf'.owned hv howner),
        Step.bind_ok (assignAny_ok (f := f'.vacate _ _) hv value)]
      rfl

/-- Either way, the register has one owner more or another one, and nothing else has changed. -/
theorem Found.allocated {a : Allocation} {g : RegFile} (h : Found f bank value exclude a g) :
    Allocated f bank value exclude a g := by
  cases h with
  | free hfirst =>
    obtain ⟨hall, hex, hfree, hlock⟩ := hf.of_first? hfirst
    have hhas := hf.allocatable_has _ hall
    exact ⟨hf.give hhas value, ⟨rfl, rfl, rfl⟩, rfl, hall, hex, hlock, hfree.symm,
      fun q hq => owner?_give hf.owners_size hhas hq value, fun q _ => rfl⟩
  | @taken clock id next hfirst hclock hsweep =>
    have hpos : 0 < f.perBank := by
      by_contra hzero
      rw [Nat.eq_zero_of_not_pos hzero] at hsweep
      simp [sweep] at hsweep
    obtain ⟨hacc, -, hnext⟩ := sweep_some hsweep hpos (hf.clock_lt _ _ hclock hpos)
    obtain ⟨hall, hex, -, hlock⟩ := hf.isEvictable_iff.mp hacc
    let f' := { f with clocks := f.clocks.setIfInBounds bank next }
    have hf' : f'.WellFormed := hf.withClock fun _ => hnext
    have hv : f'.Has ⟨bank, id⟩ := hf.allocatable_has _ hall
    have hvac := hf'.vacate hv
    refine ⟨hvac.give hv value, ⟨rfl, rfl, rfl⟩, rfl, hall, hex, hlock, rfl, fun q hq => ?_,
      fun q hq => ?_⟩
    · refine (owner?_give hvac.owners_size hv (q := q) hq value).trans ?_
      by_cases h : q = ⟨bank, id⟩
      · rw [if_pos h, if_pos h]
      · rw [if_neg h, if_neg h, owner?_vacate hv (q := q) hq, if_neg h]; rfl
    · refine (lockCount_vacate hv (q := q) hq).trans ?_
      by_cases h : q = ⟨bank, id⟩
      · rw [if_pos h, h, hlock]
      · rw [if_neg h]; rfl

theorem allocate_yields
    (havail : ∃ r : Reg, r.bank = bank ∧ f.allocatable.contains r = true ∧
      exclude.contains r = false ∧ f.lockCount r = 0) :
    (allocate bank value exclude).Yields f fun a g => Allocated f bank value exclude a g :=
  (allocate_found hf havail).mono fun _ _ h => h.allocated hf

end

/-! ### Registers with owners -/

theorem mem_occupied (hsize : f.owners.size = f.size) {v : Nat} :
    (r, v) ∈ f.occupied ↔ f.Has r ∧ f.owner? r = some v := by
  simp only [occupied, List.mem_filterMap, Prod.exists, List.mk_mem_zipIdx_iff_getElem?,
    Array.getElem?_toList, Option.map_eq_some_iff, Prod.mk.injEq]
  constructor
  · rintro ⟨o, i, hi, w, rfl, rfl, rfl⟩
    have hlt : i < f.size := by
      rw [← hsize]; exact (Array.getElem?_eq_some_iff.mp hi).1
    have hpos : 0 < f.perBank := by
      rcases Nat.eq_zero_or_pos f.perBank with h | h
      · simp [RegFile.size, h] at hlt
      · exact h
    have hlin : Reg.linear ⟨i / f.perBank, i % f.perBank⟩ f.perBank = i := by
      simp only [Reg.linear]; rw [Nat.mul_comm]; exact Nat.div_add_mod i f.perBank
    refine ⟨⟨Nat.mod_lt _ hpos, Nat.div_lt_of_lt_mul hlt⟩, ?_⟩
    simp [owner?, hlin, hi]
  · rintro ⟨hr, ho⟩
    have hri : r.id < f.perBank := hr.1
    have hdiv : r.linear f.perBank / f.perBank = r.bank := by
      simp only [Reg.linear]
      rw [Nat.mul_comm, Nat.add_comm, Nat.add_mul_div_left _ _ (by omega), Nat.div_eq_of_lt hri,
        Nat.zero_add]
    have hmod : r.linear f.perBank % f.perBank = r.id := by
      simp only [Reg.linear]
      rw [Nat.mul_comm, Nat.add_comm, Nat.add_mul_mod_self_left, Nat.mod_eq_of_lt hri]
    exact ⟨some v, r.linear f.perBank, Option.join_eq_some_iff.mp ho, v, rfl, by rw [hdiv, hmod],
      rfl⟩

/-! ### Starting over -/

theorem owner?_reset (f : RegFile) (r : Reg) : f.reset.owner? r = none := by
  simp only [owner?, reset, Array.getElem?_replicate]
  split <;> rfl

theorem lockCount_reset (f : RegFile) (r : Reg) : f.reset.lockCount r = 0 := by
  simp only [lockCount, reset, Array.getElem?_replicate]
  split <;> rfl

theorem Owned.reset (hf : f.Owned) : f.reset.Owned where
  perBank_le := hf.perBank_le
  banks_le := hf.banks_le
  owners_size := by simp only [RegFile.reset, Array.size_replicate]; exact hf.owners_size
  used_iff r := by
    show RegSet.empty.contains r = true ↔ _
    rw [RegSet.contains_empty, owner?_reset]
    simp

theorem reset_wellFormed (hf : f.WellFormed) : f.reset.WellFormed where
  perBank_le := hf.perBank_le
  banks_le := hf.banks_le
  owners_size := hf.owned.reset.owners_size
  locks_size := by simp only [reset, Array.size_replicate]; exact hf.locks_size
  used_iff := hf.owned.reset.used_iff
  locked_iff r := by
    show RegSet.empty.contains r = true ↔ _
    rw [RegSet.contains_empty, lockCount_reset]
    simp
  owner_of_lock r _ h := by rw [lockCount_reset] at h; omega
  allocatable_has := hf.allocatable_has
  clock_lt bank clock h hpos := by
    simp only [reset, Vector.getElem?_replicate] at h
    split at h
    · cases h; exact hpos
    · cases h

end JitBackend.RegFile
