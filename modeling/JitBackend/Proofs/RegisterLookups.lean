import JitBackend.Proofs.RegisterCalls

namespace JitBackend

/-!
# Lookups of a register

The owner of a register is looked up by position, registers with owners are listed by bank and
number, and a register is taken back if it is in the set of used ones. A file may be asked about any
register, and it may have been told to hand out registers that it does not have. List and set agree
all the same. Positions do not tell a register from one that is not there: a number beyond the end
of a bank leads into the next one.

* `RegFile.Keeps` — the file has kept its size, and owners agree with the set of used registers;
* `RegCall.preserves_keeps` — so it is after every call;
* `RegFile.lookups_after_calls` — what the lookups find after all sequences of calls.
-/

variable {perBank banks : Nat}

namespace RegFile

/-- Owners and used registers agree in a file of this size. -/
structure Keeps (perBank banks : Nat) (f : RegFile) : Prop extends f.Owned where
  perBank_eq : f.perBank = perBank
  banks_eq : f.banks = banks

/-- Every call keeps owners and used registers in step. -/
theorem lasting_keeps : Lasting (Keeps perBank banks) where
  give hf hr v := ⟨hf.give hr v, hf.perBank_eq, hf.banks_eq⟩
  vacate hf hr := ⟨hf.vacate hr, hf.perBank_eq, hf.banks_eq⟩
  put hf _ _ _ :=
    ⟨⟨hf.perBank_le, hf.banks_le, hf.owners_size, hf.used_iff⟩, hf.perBank_eq, hf.banks_eq⟩

theorem Keeps.reset {f : RegFile} (hf : f.Keeps perBank banks) : f.reset.Keeps perBank banks :=
  ⟨hf.toOwned.reset, hf.perBank_eq, hf.banks_eq⟩

end RegFile

theorem RegCall.preserves_keeps (call : RegCall) :
    call.run.Preserves (RegFile.Keeps perBank banks) := by
  cases call with
  | allocate bank value exclude => exact (RegFile.lasting_keeps.allocate bank value exclude).map
  | assign r v => exact (RegFile.lasting_keeps.assign r v).map
  | release r => exact (RegFile.lasting_keeps.release r).map
  | lock r => exact (RegFile.lasting_keeps.lock r).map
  | unlock r => exact (RegFile.lasting_keeps.unlock r).map
  | reset => exact Step.Preserves.map fun f hf => hf.reset

namespace RegFile

theorem Keeps.create (hper : perBank ≤ maxPerBank) (hbanks : banks ≤ maxBanks)
    (allocatable : RegSet) :
    ∃ f, RegFile.create perBank banks allocatable = .ok f ∧ f.Keeps perBank banks := by
  refine ⟨_, by rw [RegFile.create, if_neg (by omega), if_neg (by omega)],
    ⟨⟨hper, hbanks, Array.size_replicate, fun r => ?_⟩, rfl, rfl⟩⟩
  simp [owner?, Array.getElem?_replicate]
  split <;> simp

variable {f : RegFile} {r : Reg}

theorem Keeps.afterAll (hf : f.Keeps perBank banks) (calls : List RegCall) :
    (f.afterAll calls).Keeps perBank banks := by
  induction calls generalizing f with
  | nil => exact hf
  | cons call rest ih => exact ih (call.preserves_keeps f hf)

/-! ### Lookups -/

/-- A register that has an owner by position and a number within its bank is one of the file. -/
theorem has_of_owner? (hsize : f.owners.size = f.size) {v : Nat} (hid : r.id < f.perBank)
    (h : f.owner? r = some v) : f.Has r :=
  has_of_linear_lt hid (hsize ▸ (Array.getElem?_eq_some_iff.mp (Option.join_eq_some_iff.mp h)).1)

/-- The owner found is that of the register in the same position. -/
theorem owner?_eq_some_iff (hsize : f.owners.size = f.size) {v : Nat} :
    f.owner? r = some v ↔ (⟨r.bank + r.id / f.perBank, r.id % f.perBank⟩, v) ∈ f.occupied := by
  have hlinear : Reg.linear ⟨r.bank + r.id / f.perBank, r.id % f.perBank⟩ f.perBank
      = r.linear f.perBank := by
    have hid := Nat.div_add_mod' r.id f.perBank
    simp only [Reg.linear, Nat.add_mul]
    omega
  have howner : f.owner? ⟨r.bank + r.id / f.perBank, r.id % f.perBank⟩ = f.owner? r := by
    rw [owner?, hlinear, owner?]
  rw [mem_occupied hsize, howner, iff_and_self]
  intro h
  have hpos : 0 < f.perBank := by
    have hlt := hsize ▸ (Array.getElem?_eq_some_iff.mp (Option.join_eq_some_iff.mp h)).1
    exact Nat.pos_of_mul_pos_right (Nat.zero_lt_of_lt hlt)
  exact has_of_owner? hsize (Nat.mod_lt _ hpos) (howner.trans h)

theorem Owned.release_iff (hf : f.Owned) :
    (∃ g, release r f = .ok () g) ↔ ∃ v, (r, v) ∈ f.occupied := by
  simp only [mem_occupied hf.owners_size, exists_and_left, ← Option.isSome_iff_exists]
  constructor
  · rintro ⟨g, hg⟩
    by_contra hnot
    obtain ⟨e, he⟩ := release_error hf (r := r) fun hr => by simpa using fun h => hnot ⟨hr, h⟩
    cases hg.symm.trans he
  · rintro ⟨hr, howner⟩
    exact ⟨_, release_ok hf hr howner⟩

/-- The list of registers with owners and the set of used ones say the same of every register, in
    the file or not: a register can be taken back if and only if it is listed. The owner found by
    position is the one listed, for numbers within a bank. A number beyond the end of a bank is
    never listed, and the owner found is that of the register which has the position. -/
theorem lookups_after_calls {perBank banks : Nat} (hper : perBank ≤ maxPerBank)
    (hbanks : banks ≤ maxBanks) (allocatable : RegSet) :
    ∃ start, create perBank banks allocatable = .ok start ∧ ∀ (calls : List RegCall) (r : Reg),
      let f := start.afterAll calls
      ((∃ g, release r f = .ok () g) ↔ ∃ v, (r, v) ∈ f.occupied) ∧
      (∀ v, (r, v) ∈ f.occupied ↔ r.id < perBank ∧ f.owner? r = some v) ∧
      ∀ v, f.owner? r = some v ↔ (⟨r.bank + r.id / perBank, r.id % perBank⟩, v) ∈ f.occupied := by
  obtain ⟨start, hcreate, hstart⟩ := Keeps.create hper hbanks allocatable
  refine ⟨start, hcreate, fun calls r => ?_⟩
  obtain ⟨hf, rfl, -⟩ := hstart.afterAll calls
  refine ⟨hf.release_iff, fun v => ?_, fun v => owner?_eq_some_iff hf.owners_size⟩
  rw [mem_occupied hf.owners_size]
  constructor
  · rintro ⟨hr, howner⟩
    exact ⟨hr.1, howner⟩
  · rintro ⟨hid, howner⟩
    exact ⟨has_of_owner? hf.owners_size hid howner, howner⟩

/-- A file that is told to hand out a register it does not have: the request that comes to it is
    refused, and the lookups agree. -/
theorem lookups_after_refusal : ∃ start,
    create 2 1 (.ofList [⟨0, 0⟩, ⟨0, 9⟩]) = .ok start ∧
      let f := start.afterAll [.allocate 0 5 .empty, .allocate 0 6 .empty]
      f.occupied = [(⟨0, 0⟩, 5)] ∧ (∃ g, release ⟨0, 0⟩ f = .ok () g) ∧
        f.owner? ⟨0, 9⟩ = none ∧ ¬ ∃ g, release ⟨0, 9⟩ f = .ok () g := by
  obtain ⟨start, hcreate, hlookup⟩ := lookups_after_calls (by decide : 2 ≤ maxPerBank)
    (by decide : 1 ≤ maxBanks) (.ofList [⟨0, 0⟩, ⟨0, 9⟩])
  have hlisted : (start.afterAll [.allocate 0 5 .empty, .allocate 0 6 .empty]).occupied
      = [(⟨0, 0⟩, 5)] := by
    cases hcreate
    decide +kernel
  refine ⟨start, hcreate, hlisted, (hlookup _ ⟨0, 0⟩).1.mpr ⟨5, ?_⟩, ?_, ?_⟩
  · rw [hlisted]
    exact List.mem_singleton_self _
  · rw [Option.eq_none_iff_forall_ne_some]
    intro v h
    rw [(hlookup _ ⟨0, 9⟩).2.2 v, hlisted] at h
    simp at h
  · rw [(hlookup _ ⟨0, 9⟩).1, hlisted]
    simp

/-- The register behind the last one of the first bank is not there. Its position is that of the
    first register of the second bank, and so is the owner found. -/
theorem owner_beyond_bank : ∃ start, create 8 2 .empty = .ok start ∧
    let f := start.afterAll [.assign ⟨1, 0⟩ 7]
    f.owner? ⟨0, 8⟩ = some 7 ∧ f.occupied = [(⟨1, 0⟩, 7)] ∧
      release ⟨0, 8⟩ f = .error (.error .invalid) f :=
  ⟨_, rfl, by decide +kernel, by decide +kernel, rfl⟩

end RegFile

end JitBackend
