import JitBackend.Checked

namespace JitBackend

/-!
# Code space

Bookkeeping of the memory for generated code. Memory is mapped in chunks and handed out in
blocks of whole pages: the first free block that is large enough is taken and split, and a block
given back is merged with free neighbours. Chunks are never merged. Where memory begins, and
whether there is any, is for the system to say.

* `Host` is what the system answers;
* `CodeSpace.alloc` and `CodeSpace.free?` hand out blocks and take them back;
* `CodeSpace.install` hands out a block for code and makes it executable;
* `CodeSpace.freeBytes` and `CodeSpace.totalBytes` sum up.
-/

-- the zero that sums of numbers start from
attribute [local instance (high)] Zero.ofOfNat0

/-- Bytes of a page, where the system does not say otherwise. -/
def pageSize : Nat := 4096

/-- What the system answers when code is installed. -/
structure Host where
  /-- Start of fresh memory, or the error number if there is none. -/
  mapped : Except Nat Nat
  /-- The error number, if memory cannot be made executable. -/
  refusal : Option Nat

/-- Why memory could not be had. -/
inductive CodeError where
  | mapFailed (size errno : Nat)
  | protectFailed (start errno : Nat)
  | emptyBlock
  deriving DecidableEq, Repr

/-- Wording of an error. -/
def CodeError.message : CodeError → String
  | .mapFailed size errno => s!"mmap of {size} bytes failed (errno {errno})"
  | .protectFailed start errno =>
    s!"mprotect of chunk at 0x{String.ofList (Nat.toDigits 16 start)} failed (errno {errno})"
  | .emptyBlock => "cannot allocate an empty code block"

/-- A region of a chunk. -/
structure Region where
  offset : Nat
  size : Nat
  free : Bool
  deriving DecidableEq, Repr

/-- A mapped chunk: its regions cover it, sorted by offset. -/
structure Chunk where
  /-- Address of the first byte. -/
  base : Nat
  size : Nat
  regions : List Region
  base_pos : 0 < base
  deriving DecidableEq, Repr

/-- A block that was handed out: its chunk, and where it lies there and in memory. -/
structure CodeBlock where
  chunk : Nat
  offset : Nat
  size : Nat
  /-- Address of the first byte. -/
  start : Nat
  start_pos : 0 < start
  deriving DecidableEq, Repr

/-- Whether the byte at an address lies inside. -/
def CodeBlock.contains (b : CodeBlock) (address : Nat) : Bool :=
  decide (b.start ≤ address ∧ address < b.start + b.size)

namespace Chunk

/-- A chunk with a single free region. -/
def fresh (base size : Nat) (h : 0 < base) : Chunk :=
  ⟨base, size, [⟨0, size, true⟩], h⟩

/-- A chunk of fresh memory, if the system has any. -/
def map (mapped : Except Nat Nat) (size : Nat) : Except CodeError Chunk :=
  match mapped with
  | .error errno => .error (.mapFailed size errno)
  | .ok base => if h : 0 < base then .ok (fresh base size h) else .error (.mapFailed size 0)

/-- The block of `size` bytes at an offset of the chunk, which has a number. -/
def block (c : Chunk) (number offset size : Nat) : CodeBlock where
  chunk := number
  offset
  size
  start := c.base + offset
  start_pos := Nat.add_pos_left c.base_pos offset

/-- Takes `size` bytes from the first free region that has them; yields the offset. -/
def carveRegions (size : Nat) : List Region → Option (Nat × List Region)
  | [] => none
  | r :: rest =>
    if r.free ∧ size ≤ r.size then
      let remainder := if size < r.size then [⟨r.offset + size, r.size - size, true⟩] else []
      some (r.offset, ⟨r.offset, size, false⟩ :: remainder ++ rest)
    else
      (carveRegions size rest).map fun (offset, rest) => (offset, r :: rest)

/-- Takes `size` bytes from the chunk. -/
def carve (c : Chunk) (size : Nat) : Option (Nat × Chunk) :=
  (carveRegions size c.regions).map fun (offset, regions) => (offset, { c with regions })

/-- Puts a free region in front of others, merged with the first one if that is free too. -/
def mergeNext (r : Region) : List Region → List Region
  | next :: rest =>
    if next.free then { r with size := r.size + next.size } :: rest else r :: next :: rest
  | [] => [r]

/-- Frees the region in use at an offset and merges it with free neighbours. -/
def releaseRegions (offset : Nat) : List Region → Option (List Region)
  | [] => none
  | r :: rest =>
    if r.offset = offset ∧ !r.free then
      some (mergeNext { r with free := true } rest)
    else
      (releaseRegions offset rest).map fun rest => if r.free then mergeNext r rest else r :: rest

/-- Frees the region in use at an offset. -/
def release (c : Chunk) (offset : Nat) : Option Chunk :=
  (releaseRegions offset c.regions).map fun regions => { c with regions }

/-- Bytes in free regions. -/
def freeBytes (c : Chunk) : Nat :=
  ((c.regions.filter Region.free).map Region.size).sum

end Chunk

/-- All mapped memory. -/
structure CodeSpace where
  /-- Bytes of a page. -/
  page : Nat
  /-- Least size of a chunk. -/
  chunkSize : Nat
  chunks : List Chunk
  page_pos : 0 < page
  deriving DecidableEq, Repr

namespace CodeSpace

/-- A size rounded up to whole pages. -/
def pages (page size : Nat) : Except Fault Nat :=
  checkWord (roundUp size page)

/-- A space of pages of the given size, whose chunks have at least `chunkSize` bytes. -/
def createPaged (page : Nat) (hpage : 0 < page) (chunkSize : Nat) : Except Fault CodeSpace := do
  return ⟨page, ← pages page (max chunkSize page), [], hpage⟩

/-- A space whose chunks have at least `chunkSize` bytes. -/
def create (chunkSize : Nat) : Except Fault CodeSpace :=
  createPaged pageSize (by decide) chunkSize

/-- Takes `size` bytes from the first chunk that has them, counting chunks from `index`. -/
def carveFrom (size index : Nat) : List Chunk → Option (CodeBlock × List Chunk)
  | [] => none
  | c :: rest =>
    match c.carve size with
    | some (offset, c) => some (c.block index offset size, c :: rest)
    | none => (carveFrom size (index + 1) rest).map fun (block, rest) => (block, c :: rest)

/-- Hands out a block of at least `size` bytes. -/
def alloc (mapped : Except Nat Nat) (size : Nat) : Step CodeError CodeSpace CodeBlock := do
  if size = 0 then
    Step.fail .emptyBlock
  let space ← get
  let size ← Step.liftFault (pages space.page size)
  match carveFrom size 0 space.chunks with
  | some (block, chunks) =>
    set { space with chunks }
    return block
  | none =>
    let chunk ← Step.liftError (Chunk.map mapped (max size space.chunkSize))
    match chunk.carve size with
    | some (offset, chunk) =>
      set { space with chunks := space.chunks ++ [chunk] }
      return chunk.block space.chunks.length offset size
    | none => Step.fail .emptyBlock

/-- Takes a block back; `none` if it is not in use. -/
def free? (s : CodeSpace) (b : CodeBlock) : Option CodeSpace := do
  let chunk ← s.chunks[b.chunk]?
  let chunk ← chunk.release b.offset
  return { s with chunks := s.chunks.set b.chunk chunk }

/-- Hands out an executable block of at least `size` bytes. If the system refuses to make it
    executable, it is taken back; a chunk that was mapped for it stays. -/
def install (host : Host) (size : Nat) : Step CodeError CodeSpace CodeBlock := do
  let block ← alloc host.mapped size
  match host.refusal with
  | some errno =>
    modify fun s => (s.free? block).getD s
    Step.fail (.protectFailed block.start errno)
  | none => return block

/-- Bytes in free regions. -/
def freeBytes (s : CodeSpace) : Nat :=
  (s.chunks.map Chunk.freeBytes).sum

/-- Bytes in all chunks. -/
def totalBytes (s : CodeSpace) : Nat :=
  (s.chunks.map Chunk.size).sum

/-- One-line summary. -/
def summary (s : CodeSpace) : String :=
  Text.record "CodeAlloc"
    [("chunks", toString s.chunks.length), ("total_bytes", toString s.totalBytes),
     ("free_bytes", toString s.freeBytes)]

end CodeSpace

end JitBackend
