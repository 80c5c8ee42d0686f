import JitBackend.Proofs.RegisterFile

namespace JitBackend

/-!
# Calls of a register file

A register file is used through six calls, in any order and with any arguments. A call that is
refused changes nothing, a call that is carried out keeps sets, owners, lock counts and clocks in
step, and the only fault is a lock too many.

* `RegCall` — a call, `RegCall.run` what it does, `RegFile.afterAll` a sequence of them;
* `RegFile.Sound` — what every call keeps;
* `RegCall.Outcome`, `RegCall.run_outcome` — how a call may end;
* `RegFile.Consistent` — what a reader of the file relies on;
* `RegFile.consistent_after_calls` — it holds after all sequences of calls.
-/

/-- A call of a register file. -/
inductive RegCall where
  | allocate (bank value : Nat) (exclude : RegSet)
  | assign (r : Reg) (value : Nat)
  | release (r : Reg)
  | lock (r : Reg)
  | unlock (r : Reg)
  | reset
  deriving DecidableEq, Repr

/-- Makes the call. Only an allocation has an answer. -/
def RegCall.run : RegCall → Step RegError RegFile (Option Allocation)
  | .allocate bank value exclude => some <$> RegFile.allocate bank value exclude
  | .assign r value => (fun _ => none) <$> RegFile.assign r value
  | .release r => (fun _ => none) <$> RegFile.release r
  | .lock r => (fun _ => none) <$> RegFile.lock r
  | .unlock r => (fun _ => none) <$> RegFile.unlock r
  | .reset => (fun _ => none) <$> modify RegFile.reset

namespace RegFile

/-- The file after a sequence of calls, however each of them ends. -/
def afterAll (f : RegFile) (calls : List RegCall) : RegFile :=
  calls.foldl (fun f call => call.run.after f) f

/-- What every call keeps: the file is well-formed, no register has more locks than are allowed, and
    clocks of banks without registers stand still. -/
structure Sound (f : RegFile) : Prop extends f.WellFormed where
  lockCount_le : ∀ r, f.Has r → f.lockCount r ≤ maxLocks
  clock_eq_zero : ∀ bank clock : Nat, f.clocks[bank]? = some clock → f.perBank = 0 → clock = 0

variable {r : Reg}

theorem SameShape.has_iff {f g : RegFile} (h : SameShape f g) : g.Has r ↔ f.Has r := by
  rw [Has, Has, h.perBank, h.banks]

theorem has_of_linear_lt {f : RegFile} (hid : r.id < f.perBank) (hlt : r.linear f.perBank < f.size)
    : f.Has r := by
  refine ⟨hid, Nat.lt_of_not_le fun hle => ?_⟩
  -- a bank beyond the last one starts where the file ends
  have hmul : f.banks * f.perBank ≤ r.bank * f.perBank := Nat.mul_le_mul_right _ hle
  simp only [Reg.linear, RegFile.size, Nat.mul_comm f.perBank] at hlt
  omega

theorem not_has_position? {f : RegFile} (hr : ¬ f.Has r) : f.position? r = none := by
  rw [RegFile.position?, if_neg]
  exact fun h => hr (has_of_linear_lt h.1 h.2)

theorem positionOf_error {f : RegFile} (hr : ¬ f.Has r) :
    positionOf r f = .error (.error .invalid) f := by
  rw [positionOf, Step.bind_get, not_has_position? hr]
  rfl

/-! ### What calls keep -/

/-- What is true of a file stays true whatever a call changes. -/
structure Lasting (P : RegFile → Prop) : Prop where
  give : ∀ {f r}, P f → f.Has r → ∀ v, P (f.give r (r.linear f.perBank) v)
  vacate : ∀ {f r}, P f → f.Has r → P (f.vacate r (r.linear f.perBank))
  put : ∀ {f}, P f → ∀ locked clocks locks, P { f with locked, clocks, locks }

/-- A call that asks for the position of a register first. -/
theorem preserves_of_position {α : Type} {P : RegFile → Prop} {x : Nat → Step RegError RegFile α}
    (hx : ∀ f, P f → f.Has r → P ((x (r.linear f.perBank)).after f)) :
    (positionOf r >>= x).Preserves P := by
  intro f hf
  by_cases hr : f.Has r
  · rw [Step.after_bind_ok (positionOf_ok hr)]
    exact hx f hf hr
  · rw [Step.after_bind_error (positionOf_error hr)]
    exact hf

namespace Lasting

variable {P : RegFile → Prop} (h : Lasting P)

include h

theorem assignAny (r : Reg) (v : Nat) : (RegFile.assignAny r v).Preserves P :=
  preserves_of_position fun _ hf hr => h.give hf hr v

theorem assign (r : Reg) (v : Nat) : (RegFile.assign r v).Preserves P := by
  intro f hf
  rw [RegFile.assign, Step.after_bind_get]
  split
  · exact hf
  · exact h.assignAny r v f hf

theorem release (r : Reg) : (RegFile.release r).Preserves P := by
  refine preserves_of_position fun f hf hr => ?_
  rw [Step.after_bind_get]
  split
  · exact h.vacate hf hr
  · exact hf

theorem lock (r : Reg) : (RegFile.lock r).Preserves P := by
  refine preserves_of_position fun f hf _ => ?_
  rw [Step.after_bind_get]
  split
  · dsimp only
    split
    · exact hf
    · exact h.put hf ..
  · exact hf

theorem unlock (r : Reg) : (RegFile.unlock r).Preserves P := by
  refine preserves_of_position fun f hf _ => ?_
  rw [Step.after_bind_get]
  dsimp only
  split
  · exact hf
  · exact h.put hf ..

theorem clockVictim (bank : Nat) (exclude : RegSet) :
    (RegFile.clockVictim bank exclude).Preserves P := by
  intro f hf
  rw [RegFile.clockVictim, Step.after_bind_get]
  split
  · exact hf
  · exact h.put hf ..

theorem allocate (bank value : Nat) (exclude : RegSet) :
    (RegFile.allocate bank value exclude).Preserves P := by
  intro f hf
  rw [RegFile.allocate, Step.after_bind_get]
  split
  · exact ((h.assignAny _ value).bind fun _ => Step.preserves_pure _) f hf
  · refine (h.clockVictim bank exclude).bind (fun victim => ?_) f hf
    cases victim with
    | none => exact fun g hg => hg
    | some r =>
      intro g hg
      exact (h.release r).bind
        (fun _ => (h.assignAny r value).bind fun _ => Step.preserves_pure _) g hg

end Lasting

/-! ### Refusals -/

theorem Owned.not_used {f : RegFile} (hf : f.Owned) (hr : f.owner? r = none) :
    f.used.contains r = false := by
  rw [Bool.eq_false_iff]
  intro h
  simpa [hr] using ((hf.used_iff r).mp h).2

/-- A register that has an owner is not given away. -/
theorem assign_error {f : RegFile} (hf : f.WellFormed) (hr : f.Has r → (f.owner? r).isSome)
    (v : Nat) : ∃ e, assign r v f = .error (.error e) f := by
  rw [assign, Step.bind_get]
  by_cases hused : f.used.contains r = true
  · simp only [hused, if_true]
    exact ⟨.inUse, rfl⟩
  · have hnot : ¬ f.Has r := fun h => hused ((hf.used_iff r).mpr ⟨h, hr h⟩)
    simp only [hused, Bool.false_eq_true, if_false]
    exact ⟨.invalid, Step.bind_error (positionOf_error hnot)⟩

/-- A register without an owner is not taken back. -/
theorem release_error {f : RegFile} (hf : f.Owned) (hr : f.Has r → f.owner? r = none) :
    ∃ e, release r f = .error (.error e) f := by
  by_cases hhas : f.Has r
  · have hused := hf.not_used (hr hhas)
    rw [release, Step.bind_ok (positionOf_ok hhas), Step.bind_get]
    simp only [hused, Bool.false_eq_true, if_false]
    exact ⟨.notAllocated, rfl⟩
  · exact ⟨.invalid, Step.bind_error (positionOf_error hhas)⟩

/-- A register without an owner is not locked. -/
theorem lock_error {f : RegFile} (hf : f.WellFormed) (hr : f.Has r → f.owner? r = none) :
    ∃ e, lock r f = .error (.error e) f := by
  by_cases hhas : f.Has r
  · have hused := hf.owned.not_used (hr hhas)
    rw [lock, Step.bind_ok (positionOf_ok hhas), Step.bind_get]
    simp only [hused, Bool.false_eq_true, if_false]
    exact ⟨.notAllocated, rfl⟩
  · exact ⟨.invalid, Step.bind_error (positionOf_error hhas)⟩

/-- One lock more than are allowed is a fault. -/
theorem lock_fault {f : RegFile} (hf : f.WellFormed) (hr : f.Has r) (howned : (f.owner? r).isSome)
    (hfull : maxLocks ≤ f.lockCount r) : lock r f = .error (.fault .overflow) f := by
  have hused : f.used.contains r = true := (hf.used_iff r).mpr ⟨hr, howned⟩
  have hfull' : f.locks[r.linear f.perBank]?.getD 0 ≥ maxLocks := hfull
  rw [lock, Step.bind_ok (positionOf_ok hr), Step.bind_get]
  simp only [hused, if_true, if_pos hfull']
  rfl

/-- A register without locks is not unlocked. -/
theorem unlock_error {f : RegFile} (hr : f.Has r → f.lockCount r = 0) :
    ∃ e, unlock r f = .error (.error e) f := by
  by_cases hhas : f.Has r
  · have hcount : f.locks[r.linear f.perBank]?.getD 0 = 0 := hr hhas
    rw [unlock, Step.bind_ok (positionOf_ok hhas), Step.bind_get]
    simp only [hcount, if_true]
    exact ⟨.lockUnderflow, rfl⟩
  · exact ⟨.invalid, Step.bind_error (positionOf_error hhas)⟩

/-- A clock that goes round a bank without a hit is back where it was. -/
theorem sweep_none_returns {perBank : Nat} {accept : Nat → Bool} {clock next : Nat}
    (h : sweep perBank accept perBank clock = (none, next))
    (hclock : 0 < perBank → clock < perBank) : next = clock := by
  by_cases hpos : 0 < perBank
  · rw [(sweep_eq_none h (hclock hpos)).2, Nat.add_mod_right, Nat.mod_eq_of_lt (hclock hpos)]
  · obtain rfl : perBank = 0 := by omega
    simp only [sweep, Prod.mk.injEq, true_and] at h
    exact h.symm

/-- Some register of the bank may be handed out: it is neither excluded nor locked. -/
def Available (f : RegFile) (bank : Nat) (exclude : RegSet) : Prop :=
  ∃ r : Reg, r.bank = bank ∧ f.allocatable.contains r = true ∧ exclude.contains r = false ∧
    f.lockCount r = 0

section

variable {f : RegFile} (hf : f.WellFormed) {exclude : RegSet} {bank : Nat}

include hf

/-- A register that may be taken from its owner is available. -/
theorem available_of_isEvictable (h : f.isEvictable exclude r = true) :
    f.Available r.bank exclude := by
  obtain ⟨hall, hexclude, -, hlock⟩ := hf.isEvictable_iff.mp h
  exact ⟨r, rfl, hall, hexclude, hlock⟩

/-- A free register that may be handed out is available. -/
theorem available_of_first? {id : Nat}
    (h : f.allocatable.first? bank (f.used.union exclude) = some id) :
    f.Available bank exclude := by
  obtain ⟨hall, hexclude, -, hlock⟩ := hf.of_first? h
  exact ⟨⟨bank, id⟩, rfl, hall, hexclude, hlock⟩

/-- If no register of the bank is available, the clock goes round it and stays where it was. -/
theorem clockVictim_none (hnone : ¬ f.Available bank exclude) :
    clockVictim bank exclude f = .ok none f := by
  rw [clockVictim, Step.bind_get]
  cases hclock : f.clocks[bank]? with
  | none => rfl
  | some clock =>
    obtain ⟨hit, next, hsweep⟩ : ∃ hit next,
        sweep f.perBank (fun id => f.isEvictable exclude ⟨bank, id⟩) f.perBank clock
          = (hit, next) := ⟨_, _, rfl⟩
    have hlt := hf.clock_lt bank clock hclock
    cases hit with
    | none =>
      have hsame : f.clocks.setIfInBounds bank next = f.clocks := by
        rw [sweep_none_returns hsweep hlt]
        ext i hi
        by_cases h : bank = i
        · subst h
          rw [Vector.getElem?_eq_getElem hi] at hclock
          simp [Option.some.inj hclock]
        · simp [h]
      simp only [hsweep, hsame]
      rfl
    | some id =>
      by_cases hpos : 0 < f.perBank
      · have haccept := (sweep_some hsweep hpos (hlt hpos)).1
        exact absurd (available_of_isEvictable hf haccept) hnone
      · obtain hzero : f.perBank = 0 := by omega
        rw [hzero] at hsweep
        simp [sweep] at hsweep

/-- If no register of the bank is available, the request is refused. -/
theorem allocate_error {value : Nat} (hnone : ¬ f.Available bank exclude) :
    allocate bank value exclude f = .error (.error .noneAvailable) f := by
  have hfirst : f.allocatable.first? bank (f.used.union exclude) = none := by
    cases h : f.allocatable.first? bank (f.used.union exclude) with
    | none => rfl
    | some id => exact absurd (available_of_first? hf h) hnone
  rw [allocate, Step.bind_get]
  simp only [hfirst]
  rw [Step.bind_ok (clockVictim_none hf hnone)]
  rfl

end

/-! ### One call -/

/-- A file of the same shape with allowed lock counts is sound if clocks stand still where there are
    no registers. -/
theorem Sound.of_wellFormed {f g : RegFile} (hf : f.Sound) (hg : g.WellFormed)
    (hshape : SameShape f g) (hlocks : ∀ r, f.Has r → g.lockCount r ≤ maxLocks)
    (hclocks : f.perBank = 0 → g.clocks = f.clocks) : g.Sound where
  toWellFormed := hg
  lockCount_le r hr := hlocks r (hshape.has_iff.mp hr)
  clock_eq_zero bank clock h hzero := by
    rw [hshape.perBank] at hzero
    rw [hclocks hzero] at h
    exact hf.clock_eq_zero bank clock h hzero

theorem Sound.reset {f : RegFile} (hf : f.Sound) : f.reset.Sound where
  toWellFormed := reset_wellFormed hf.toWellFormed
  lockCount_le r _ := by rw [lockCount_reset]; exact Nat.zero_le _
  clock_eq_zero bank clock h _ := by
    simp only [RegFile.reset, Vector.getElem?_replicate] at h
    split at h
    · exact (Option.some.inj h).symm
    · cases h

/-- A new file is sound if it hands out registers of its own. -/
theorem Sound.create {perBank banks : Nat} {allocatable : RegSet} (hper : perBank ≤ maxPerBank)
    (hbanks : banks ≤ maxBanks)
    (hvalid : ∀ r, allocatable.contains r = true → r.id < perBank ∧ r.bank < banks) :
    ∃ f, RegFile.create perBank banks allocatable = .ok f ∧ f.Sound ∧ f.perBank = perBank ∧
      f.banks = banks ∧ f.allocatable = allocatable := by
  refine ⟨_, by rw [RegFile.create, if_neg (by omega), if_neg (by omega)], ?_, rfl, rfl, rfl⟩
  refine ⟨⟨hper, hbanks, Array.size_replicate, Array.size_replicate, fun r => ?_, fun r => ?_,
    fun r _ hpos => ?_, hvalid, fun bank clock h hpos => ?_⟩, fun r _ => ?_,
    fun bank clock h _ => ?_⟩
  · simp [RegFile.owner?, Array.getElem?_replicate]
    split <;> simp
  · simp [RegFile.lockCount, Array.getElem?_replicate]
    split <;> simp
  · simp only [RegFile.lockCount, Array.getElem?_replicate] at hpos
    split at hpos <;> simp at hpos
  · simp only [Vector.getElem?_replicate] at h
    split at h
    · cases h; exact hpos
    · cases h
  · simp only [RegFile.lockCount, Array.getElem?_replicate]
    split <;> simp
  · simp only [Vector.getElem?_replicate] at h
    split at h
    · exact (Option.some.inj h).symm
    · cases h

end RegFile

namespace RegCall

/-- How a call may end. -/
inductive Outcome (f : RegFile) (call : RegCall) :
    EStateM.Result (Stop RegError) RegFile (Option Allocation) → Prop where
  | done {answer : Option Allocation} {g : RegFile} (hsound : g.Sound)
      (hshape : RegFile.SameShape f g) : Outcome f call (.ok answer g)
  /-- The call is refused and changes nothing. -/
  | refused {e : RegError} : Outcome f call (.error (.error e) f)
  /-- The register has as many locks as are allowed. -/
  | overflow {r : Reg} (hcall : call = .lock r) (hr : f.Has r)
      (hfull : f.lockCount r = maxLocks) : Outcome f call (.error (.fault .overflow) f)

variable {f : RegFile}

/-- A call without an answer ends as what it does. -/
theorem Outcome.of_map {call : RegCall} {x : Step RegError RegFile Unit}
    (h : (∃ g, x f = .ok () g ∧ g.Sound ∧ RegFile.SameShape f g) ∨
      ∃ e, x f = .error (.error e) f) :
    call.Outcome f (((fun _ => none) <$> x) f) := by
  rcases h with ⟨g, hrun, hsound, hshape⟩ | ⟨e, hrun⟩
  · rw [Step.map_ok hrun]
    exact .done hsound hshape
  · rw [Step.map_error hrun]
    exact .refused

theorem allocate_outcome (hf : f.Sound) (bank value : Nat) (exclude : RegSet) :
    Outcome f (.allocate bank value exclude) ((RegCall.allocate bank value exclude).run f) := by
  by_cases havail : f.Available bank exclude
  · obtain ⟨a, g, hrun, hgot⟩ : Step.Yields (RegFile.allocate bank value exclude) f
        (RegFile.Allocated f bank value exclude) :=
      RegFile.allocate_yields hf.toWellFormed havail
    obtain ⟨r, -, hall, -⟩ := havail
    rw [run, Step.map_ok hrun]
    refine .done (hf.of_wellFormed hgot.wellFormed hgot.shape (fun q hq => ?_) fun hzero => ?_)
      hgot.shape
    · rw [hgot.locks q hq]
      exact hf.lockCount_le q hq
    · -- there is a register to hand out, so the banks are not empty
      have hlt := (hf.allocatable_has r hall).1
      omega
  · rw [run, Step.map_error (RegFile.allocate_error hf.toWellFormed havail)]
    exact .refused

theorem assign_outcome (hf : f.Sound) (r : Reg) (value : Nat) :
    Outcome f (.assign r value) ((RegCall.assign r value).run f) := by
  by_cases hfree : f.Has r ∧ f.owner? r = none
  · obtain ⟨hr, howner⟩ := hfree
    refine .of_map (.inl ⟨_, RegFile.assign_ok hf.toWellFormed hr howner value, ?_, rfl, rfl, rfl⟩)
    exact hf.of_wellFormed (hf.give hr value) ⟨rfl, rfl, rfl⟩ hf.lockCount_le fun _ => rfl
  · refine .of_map (.inr (RegFile.assign_error hf.toWellFormed (fun hr => ?_) value))
    rw [Option.isSome_iff_ne_none]
    exact fun h => hfree ⟨hr, h⟩

theorem release_outcome (hf : f.Sound) (r : Reg) :
    Outcome f (.release r) ((RegCall.release r).run f) := by
  by_cases howned : f.Has r ∧ (f.owner? r).isSome
  · obtain ⟨hr, howner⟩ := howned
    refine .of_map (.inl ⟨_, RegFile.release_ok hf.owned hr howner, ?_, rfl, rfl, rfl⟩)
    refine hf.of_wellFormed (hf.vacate hr) ⟨rfl, rfl, rfl⟩ (fun q hq => ?_) fun _ => rfl
    rw [RegFile.lockCount_vacate hr hq]
    split
    · exact Nat.zero_le _
    · exact hf.lockCount_le q hq
  · refine .of_map (.inr (RegFile.release_error hf.owned fun hr => ?_))
    simpa using fun h => howned ⟨hr, h⟩

theorem lock_outcome (hf : f.Sound) (r : Reg) : Outcome f (.lock r) ((RegCall.lock r).run f) := by
  by_cases howned : f.Has r ∧ (f.owner? r).isSome
  · obtain ⟨hr, howner⟩ := howned
    by_cases hmax : f.lockCount r < maxLocks
    · obtain ⟨⟨⟩, g, hrun, hg, hshape, -, hlocks⟩ :=
        RegFile.lock_yields hf.toWellFormed hr howner hmax
      refine .of_map (.inl ⟨g, hrun, hf.of_wellFormed hg hshape (fun q hq => ?_) ?_, hshape⟩)
      · rw [hlocks q hq]
        split
        · exact hmax
        · exact hf.lockCount_le q hq
      · intro hzero
        have hlt := hr.1
        omega
    · have hle := hf.lockCount_le r hr
      rw [run, Step.map_error (RegFile.lock_fault hf.toWellFormed hr howner (by omega))]
      exact .overflow rfl hr (by omega)
  · refine .of_map (.inr (RegFile.lock_error hf.toWellFormed fun hr => ?_))
    simpa using fun h => howned ⟨hr, h⟩

theorem unlock_outcome (hf : f.Sound) (r : Reg) :
    Outcome f (.unlock r) ((RegCall.unlock r).run f) := by
  by_cases hlocked : f.Has r ∧ 0 < f.lockCount r
  · obtain ⟨hr, hpos⟩ := hlocked
    obtain ⟨⟨⟩, g, hrun, hg, hshape, -, hlocks⟩ := RegFile.unlock_yields hf.toWellFormed hr hpos
    refine .of_map (.inl ⟨g, hrun, hf.of_wellFormed hg hshape (fun q hq => ?_) ?_, hshape⟩)
    · rw [hlocks q hq]
      have hle := hf.lockCount_le
      split
      · exact Nat.le_trans (Nat.sub_le _ _) (hle r hr)
      · exact hle q hq
    · intro hzero
      have hlt := hr.1
      omega
  · refine .of_map (.inr (RegFile.unlock_error fun hr => Nat.eq_zero_of_not_pos fun h => ?_))
    exact hlocked ⟨hr, h⟩

/-- Every call is carried out, or is refused and changes nothing, or is a lock too many. -/
theorem run_outcome (hf : f.Sound) (call : RegCall) : call.Outcome f (call.run f) := by
  cases call with
  | allocate bank value exclude => exact allocate_outcome hf bank value exclude
  | assign r value => exact assign_outcome hf r value
  | release r => exact release_outcome hf r
  | lock r => exact lock_outcome hf r
  | unlock r => exact unlock_outcome hf r
  | reset => exact .done hf.reset ⟨rfl, rfl, rfl⟩

end RegCall

namespace RegFile

variable {f : RegFile}

/-! ### Sequences of calls -/

theorem Sound.after (hf : f.Sound) (call : RegCall) :
    (call.run.after f).Sound ∧ SameShape f (call.run.after f) := by
  have hout := call.run_outcome hf
  rw [Step.after]
  cases hrun : call.run f with
  | ok answer g =>
    rw [hrun] at hout
    cases hout with
    | done hsound hshape => exact ⟨hsound, hshape⟩
  | error e g =>
    rw [hrun] at hout
    cases hout with
    | refused | overflow => exact ⟨hf, rfl, rfl, rfl⟩

theorem Sound.afterAll (hf : f.Sound) (calls : List RegCall) :
    (f.afterAll calls).Sound ∧ SameShape f (f.afterAll calls) := by
  induction calls generalizing f with
  | nil => exact ⟨hf, rfl, rfl, rfl⟩
  | cons call rest ih =>
    obtain ⟨hafter, hshape⟩ := hf.after call
    obtain ⟨hrest, hshape'⟩ := ih hafter
    exact ⟨hrest, hshape.trans hshape'⟩

/-! ### What readers rely on -/

/-- Positions of the registers with owners increase along the list of them. -/
theorem occupied_pairwise (f : RegFile) :
    f.occupied.Pairwise fun p q => p.1.linear f.perBank < q.1.linear f.perBank := by
  rw [occupied]
  refine List.Pairwise.filterMap _ ?_ (R := fun p q : Option Nat × Nat => p.2 < q.2) ?_
  · rintro ⟨o, i⟩ ⟨o', i'⟩ hlt p hp q hq
    obtain ⟨v, -, rfl⟩ := Option.map_eq_some_iff.mp hp
    obtain ⟨w, -, rfl⟩ := Option.map_eq_some_iff.mp hq
    simp only [Reg.linear]
    rw [Nat.div_add_mod', Nat.div_add_mod']
    exact hlt
  · rw [← List.pairwise_map (f := Prod.snd) (R := (· < ·)), List.zipIdx_map_snd]
    exact List.pairwise_lt_range'

/-- What a reader of the file relies on: the sets of used and locked registers say which registers
    have owners and locks, the list of registers with owners is complete and in order, and clocks
    point at registers. A clock of a bank without registers is at zero. -/
structure Consistent (f : RegFile) : Prop where
  used_iff : ∀ r, f.Has r → (f.used.contains r = true ↔ (f.owner? r).isSome)
  locked_iff : ∀ r, f.Has r → (f.locked.contains r = true ↔ 0 < f.lockCount r)
  used_of_locked : ∀ r, f.locked.contains r = true → f.used.contains r = true
  mem_occupied_iff : ∀ r v, (r, v) ∈ f.occupied ↔
    f.Has r ∧ f.used.contains r = true ∧ f.owner? r = some v
  occupied_ordered : f.occupied.Pairwise fun p q => p.1.linear f.perBank < q.1.linear f.perBank
  clock_lt : ∀ bank clock : Nat, f.clocks[bank]? = some clock →
    clock < f.perBank ∨ f.perBank = 0 ∧ clock = 0

theorem Sound.consistent (hf : f.Sound) : f.Consistent where
  used_iff r hr := by simp [hf.used_iff, hr]
  locked_iff r hr := by simp [hf.locked_iff, hr]
  used_of_locked r h := by
    obtain ⟨hr, hpos⟩ := (hf.locked_iff r).mp h
    exact (hf.used_iff r).mpr ⟨hr, hf.owner_of_lock r hr hpos⟩
  mem_occupied_iff r v := by
    rw [mem_occupied hf.owners_size, hf.used_iff]
    constructor
    · rintro ⟨hr, howner⟩
      exact ⟨hr, ⟨hr, by simp [howner]⟩, howner⟩
    · rintro ⟨hr, -, howner⟩
      exact ⟨hr, howner⟩
  occupied_ordered := f.occupied_pairwise
  clock_lt bank clock h := by
    by_cases hpos : 0 < f.perBank
    · exact .inl (hf.clock_lt bank clock h hpos)
    · have hzero : f.perBank = 0 := by omega
      exact .inr ⟨hzero, hf.clock_eq_zero bank clock h hzero⟩

/-- Calls of a register file keep its parts in step, whatever the calls and their arguments. A
    register is used if and only if it has an owner and locked if and only if it has locks; locked
    registers are used; the used ones are listed with their owners, once each and by position;
    clocks stay within their banks, or at zero where banks have no registers. A call that is refused
    leaves the file as it was, and a call faults if and only if it locks a register that has as many
    locks as are allowed. -/
theorem consistent_after_calls {perBank banks : Nat} {allocatable : RegSet}
    (hper : perBank ≤ maxPerBank) (hbanks : banks ≤ maxBanks)
    (hvalid : ∀ r, allocatable.contains r = true → r.id < perBank ∧ r.bank < banks) :
    ∃ start, create perBank banks allocatable = .ok start ∧ ∀ calls : List RegCall,
      let f := start.afterAll calls
      f.perBank = perBank ∧ f.banks = banks ∧ f.allocatable = allocatable ∧ f.Consistent ∧
      ∀ call : RegCall,
        (∀ e g, call.run f = .error (.error e) g → g = f) ∧
        ((∃ fault g, call.run f = .error (.fault fault) g) ↔
          ∃ r, call = .lock r ∧ f.Has r ∧ f.lockCount r = maxLocks) := by
  obtain ⟨start, hcreate, hstart, hper', hbanks', hall'⟩ := Sound.create hper hbanks hvalid
  refine ⟨start, hcreate, fun calls => ?_⟩
  obtain ⟨hf, hshape⟩ := hstart.afterAll calls
  refine ⟨hshape.perBank.trans hper', hshape.banks.trans hbanks',
    hshape.allocatable.trans hall', hf.consistent, fun call => ⟨fun e g hrun => ?_, ?_, ?_⟩⟩
  · have hout := call.run_outcome hf
    rw [hrun] at hout
    cases hout
    rfl
  · rintro ⟨fault, g, hrun⟩
    have hout := call.run_outcome hf
    rw [hrun] at hout
    cases hout with
    | overflow hcall hr hfull => exact ⟨_, hcall, hr, hfull⟩
  · rintro ⟨r, rfl, hr, hfull⟩
    -- the register has locks, so it has an owner and the count alone decides
    have howner := hf.owner_of_lock r hr (by rw [hfull]; decide)
    exact ⟨_, _, Step.map_error (lock_fault hf.toWellFormed hr howner (Nat.le_of_eq hfull.symm))⟩

/-- Two registers in the first bank, one of them locked; the third value takes the other one from
    its owner, and a fourth value finds none. -/
theorem consistent_after_eviction : ∃ start,
    create 8 2 (.ofList [⟨0, 0⟩, ⟨0, 5⟩, ⟨1, 7⟩]) = .ok start ∧
      let f := start.afterAll [.allocate 0 1 .empty, .allocate 0 2 .empty, .lock ⟨0, 0⟩,
        .allocate 0 3 .empty, .lock ⟨0, 5⟩, .allocate 0 4 .empty]
      f.Consistent ∧ f.occupied = [(⟨0, 0⟩, 1), (⟨0, 5⟩, 3)] := by
  have hvalid : ∀ r, (RegSet.ofList [⟨0, 0⟩, ⟨0, 5⟩, ⟨1, 7⟩]).contains r = true →
      r.id < 8 ∧ r.bank < 2 := by
    intro r h
    rw [RegSet.contains_ofList, decide_eq_true_iff] at h
    have hmem := h.1
    simp only [List.mem_cons, List.not_mem_nil, or_false] at hmem
    rcases hmem with rfl | rfl | rfl <;> decide
  obtain ⟨start, hcreate, hall⟩ := consistent_after_calls (by decide) (by decide) hvalid
  refine ⟨start, hcreate, (hall _).2.2.2.1, ?_⟩
  cases hcreate
  decide +kernel

/-- Banks without registers have clocks too, which are not below the number of registers. -/
theorem clock_of_empty_bank : ∃ start, create 0 1 .empty = .ok start ∧
    ∃ clock, start.clocks[0]? = some clock ∧ ¬clock < start.perBank :=
  ⟨_, rfl, 0, rfl, by decide⟩

end RegFile

end JitBackend
