import JitBackend.CodeSpace
import JitBackend.Proofs.Run

namespace JitBackend

/-!
# Blocks of code space

A block is taken from one free region, of a chunk that has room or of a new one, and no other region
is touched. Code gets a block too, which is taken back if it cannot be made executable.

* `CodeBlock.Disjoint`, `CodeSpace.InUse` — blocks that do not overlap, blocks that are handed out;
* `Chunk.carveRegions_eq_some`, `CodeSpace.carveFrom_eq_some` — which region is taken;
* `CodeSpace.Allotted` — the two ways to hand out a block;
* `CodeSpace.allotted_of_alloc`, `CodeSpace.alloc_eq_error` — what handing out a block does;
* `CodeSpace.install_eq` — what installing code does.
-/

/-- The blocks have no byte in common. -/
def CodeBlock.Disjoint (a b : CodeBlock) : Prop :=
  a.chunk ≠ b.chunk ∨ a.offset + a.size ≤ b.offset ∨ b.offset + b.size ≤ a.offset

/-! ### Regions of a chunk -/

namespace Chunk

variable {rs rs' : List Region} {size offset : Nat}

/-- What is left of a region of `r` after `size` bytes were taken from it. -/
def remainder (r : Region) (size : Nat) : List Region :=
  if size < r.size then [⟨r.offset + size, r.size - size, true⟩] else []

/-- A free region is replaced by the block and what remains of it. -/
theorem carveRegions_eq_some (h : carveRegions size rs = some (offset, rs')) :
    ∃ before r after, rs = before ++ r :: after ∧ r.free = true ∧ size ≤ r.size ∧
      offset = r.offset ∧ rs' = before ++ ⟨r.offset, size, false⟩ :: remainder r size ++ after := by
  induction rs generalizing offset rs' with
  | nil => cases h
  | cons r rest ih =>
    rw [carveRegions] at h
    split at h
    · rename_i hfit
      cases h
      exact ⟨[], r, rest, rfl, hfit.1, hfit.2, rfl, rfl⟩
    · obtain ⟨⟨offset', rest'⟩, hrest, heq⟩ := Option.map_eq_some_iff.mp h
      cases heq
      obtain ⟨before, s, after, rfl, hfree, hsize, rfl, rfl⟩ := ih hrest
      exact ⟨r :: before, s, after, rfl, hfree, hsize, rfl, rfl⟩

/-- A chunk that was mapped is one free region. -/
theorem map_eq_ok {mapped : Except Nat Nat} {c : Chunk} (h : map mapped size = .ok c) :
    ∃ base hbase, c = fresh base size hbase := by
  unfold map at h
  split at h
  · cases h
  · split at h
    · cases h
      exact ⟨_, _, rfl⟩
    · cases h

end Chunk

/-! ### The whole space -/

namespace CodeSpace

variable {s t : CodeSpace} {a b : CodeBlock} {n size : Nat} {mapped : Except Nat Nat}

/-- The block is handed out. -/
def InUse (s : CodeSpace) (b : CodeBlock) : Prop :=
  ∃ c, s.chunks[b.chunk]? = some c ∧ b.start = c.base + b.offset ∧
    ⟨b.offset, b.size, false⟩ ∈ c.regions

/-- What a new space is. -/
theorem createPaged_eq_ok {page chunkSize : Nat} {hpage : 0 < page}
    (h : createPaged page hpage chunkSize = .ok s) :
    s.page = page ∧ pages page (max chunkSize page) = .ok s.chunkSize ∧ s.chunks = [] := by
  unfold createPaged at h
  cases hpages : pages page (max chunkSize page) with
  | error f => rw [hpages] at h; cases h
  | ok n => rw [hpages] at h; cases h; exact ⟨rfl, rfl, rfl⟩

/-- The first chunk that has room gives the block. -/
theorem carveFrom_eq_some {index : Nat} {cs cs' : List Chunk}
    (h : carveFrom size index cs = some (b, cs')) :
    ∃ before c after c', cs = before ++ c :: after ∧ c.carve size = some (b.offset, c') ∧
      b = c'.block (index + before.length) b.offset size ∧ cs' = before ++ c' :: after := by
  induction cs generalizing index cs' with
  | nil => cases h
  | cons c rest ih =>
    rw [carveFrom] at h
    split at h
    · rename_i offset c' hcarve
      cases h
      exact ⟨[], c, rest, c', rfl, hcarve, rfl, rfl⟩
    · obtain ⟨⟨block, rest'⟩, hrest, heq⟩ := Option.map_eq_some_iff.mp h
      cases heq
      obtain ⟨before, d, after, d', rfl, hcarve, hblock, rfl⟩ := ih hrest
      refine ⟨c :: before, d, after, d', rfl, hcarve, ?_, rfl⟩
      rwa [List.length_cons, Nat.add_comm before.length, ← Nat.add_assoc]

theorem carveFrom_eq_none {index : Nat} {cs : List Chunk} :
    carveFrom size index cs = none ↔ ∀ c ∈ cs, c.carve size = none := by
  induction cs generalizing index with
  | nil => simp [carveFrom]
  | cons c rest ih =>
    rw [carveFrom]
    cases hc : c.carve size <;> simp [hc, ih]

/-- Sizes are rounded up. -/
theorem le_pages {page : Nat} (hpage : 0 < page) (h : pages page n = .ok size) (hn : 0 < n) :
    0 < size ∧ n ≤ size := by
  have hround : size = (n + page - 1) / page * page := by
    unfold pages checkWord at h
    split at h
    · cases h; rfl
    · cases h
  -- what rounding leaves out is less than a page
  have hdiv := Nat.div_add_mod (n + page - 1) page
  have hmod := Nat.mod_lt (n + page - 1) hpage
  rw [Nat.mul_comm, ← hround] at hdiv
  omega

/-- The tests in order; the space changes only after the last one. -/
theorem alloc_eq (mapped : Except Nat Nat) (n : Nat) (s : CodeSpace) :
    alloc mapped n s = if n = 0 then .error (.error .emptyBlock) s else
      match pages s.page n with
      | .error f => .error (.fault f) s
      | .ok size =>
        match carveFrom size 0 s.chunks with
        | some (b, cs) => .ok b { s with chunks := cs }
        | none =>
          match Chunk.map mapped (max size s.chunkSize) with
          | .error e => .error (.error e) s
          | .ok c =>
            match c.carve size with
            | some (offset, c) =>
              .ok (c.block s.chunks.length offset size) { s with chunks := s.chunks ++ [c] }
            | none => .error (.error .emptyBlock) s := by
  unfold alloc
  split
  · rfl
  dsimp only
  rw [Step.bind_get]
  cases pages s.page n with
  | error f => rfl
  | ok size =>
    dsimp only
    rw [Step.bind_liftFault]
    cases carveFrom size 0 s.chunks with
    | some p => rfl
    | none =>
      dsimp only
      cases Chunk.map mapped (max size s.chunkSize) with
      | error e => rfl
      | ok c =>
        rw [Step.bind_liftError]
        dsimp only
        cases c.carve size <;> rfl

/-- The two ways to hand out the block `b`: from a chunk that has room, or from a new one. -/
inductive Allotted (s : CodeSpace) (b : CodeBlock) : CodeSpace → Prop where
  | carved {before after : List Chunk} {c c' : Chunk} (hchunks : s.chunks = before ++ c :: after)
      (hcarve : c.carve b.size = some (b.offset, c'))
      (hb : b = c'.block before.length b.offset b.size) :
      Allotted s b { s with chunks := before ++ c' :: after }
  | mapped {base : Nat} {hbase : 0 < base} {c' : Chunk}
      (hfull : ∀ d ∈ s.chunks, d.carve b.size = none)
      (hcarve : (Chunk.fresh base (max b.size s.chunkSize) hbase).carve b.size = some (b.offset, c'))
      (hb : b = c'.block s.chunks.length b.offset b.size) :
      Allotted s b { s with chunks := s.chunks ++ [c'] }

/-- A block that is handed out has the size asked for, rounded up. -/
theorem allotted_of_alloc (h : alloc mapped n s = .ok b t) :
    0 < n ∧ pages s.page n = .ok b.size ∧ Allotted s b t := by
  rw [alloc_eq] at h
  split at h
  · cases h
  rename_i hn
  split at h
  · cases h
  rename_i size hsize
  refine ⟨Nat.pos_of_ne_zero hn, ?_⟩
  split at h
  · rename_i block cs hcarve
    cases h
    obtain ⟨before, c, after, c', heq, hc, hblock, rfl⟩ := carveFrom_eq_some hcarve
    rw [Nat.zero_add] at hblock
    obtain rfl : b.size = size := congrArg CodeBlock.size hblock
    exact ⟨hsize, .carved heq hc hblock⟩
  · rename_i hfull
    split at h
    · cases h
    rename_i c hmap
    split at h
    · rename_i offset c' hcarve
      cases h
      obtain ⟨base, hbase, rfl⟩ := Chunk.map_eq_ok hmap
      exact ⟨hsize, .mapped (carveFrom_eq_none.mp hfull) hcarve rfl⟩
    · cases h

/-- Nothing changes if there is no block to be had. -/
theorem alloc_eq_error {e : Stop CodeError} (h : alloc mapped n s = .error e t) : t = s := by
  rw [alloc_eq] at h
  split at h
  · cases h; rfl
  split at h
  · cases h; rfl
  split at h
  · cases h
  split at h
  · cases h; rfl
  split at h
  · cases h
  · cases h; rfl

/-- A block is handed out, and taken back if the system refuses to make it executable. -/
theorem install_eq (host : Host) (n : Nat) (s : CodeSpace) : install host n s =
    match alloc host.mapped n s with
    | .error e t => .error e t
    | .ok b t =>
      match host.refusal with
      | some errno => .error (.error (.protectFailed b.start errno)) ((t.free? b).getD t)
      | none => .ok b t := by
  cases halloc : alloc host.mapped n s with
  | error e t => exact Step.bind_error halloc
  | ok b t =>
    rw [install, Step.bind_ok halloc]
    cases host.refusal <;> rfl

end CodeSpace

end JitBackend
