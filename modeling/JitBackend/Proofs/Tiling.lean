import JitBackend.Proofs.CodeBlocks
import Mathlib.Data.List.Chain
import Mathlib.Data.List.Nodup

namespace JitBackend

/-!
# Tiled chunks

The regions of a chunk lie one after another and fill it. Each has some whole pages, and no two
free ones stand side by side. Handing out a block splits a free region in two; taking a block back
merges its region with free neighbours. Both keep the chunk tiled, so a chunk without blocks in use
is a single free region again, in whatever order its blocks came back.

* `Chunk.Tiles`, `Chunk.Merged` — lists of regions without gaps, without free neighbours;
* `Chunk.Tiles.carve`, `Chunk.Tiles.release` — what splitting and merging keep;
* `CodeSpace.blocks` — the blocks in use;
* `CodeSpace.Tiled.inUse_free?` — what taking one back changes;
* `CodeSpace.Call` — handing out and taking back, `CodeSpace.performAll` — any number of calls;
* `CodeSpace.performAll_partition` — what holds after any number of calls.
-/

-- the zero that sums of numbers start from
attribute [local instance (high)] Zero.ofOfNat0

/-! ### Regions -/

namespace Chunk

variable {page start stop size offset : Nat} {r : Region} {rs rs' xs ys : List Region} {c : Chunk}

/-- The regions lie one after another from `start` to `stop`, each of one or more pages. -/
inductive Tiles (page : Nat) : Nat → List Region → Nat → Prop where
  | nil (n : Nat) : Tiles page n [] n
  | cons {start stop : Nat} {r : Region} {rs : List Region} (hoffset : r.offset = start)
      (hpos : 0 < r.size) (hpages : page ∣ r.size) (hrest : Tiles page (start + r.size) rs stop) :
      Tiles page start (r :: rs) stop

/-- No two free regions are neighbours. -/
def Merged (rs : List Region) : Prop :=
  rs.IsChain fun r s => ¬(r.free = true ∧ s.free = true)

/-- The regions in use. -/
def used (rs : List Region) : List Region :=
  rs.filter fun r => !r.free

@[simp] theorem mem_used : r ∈ used rs ↔ r ∈ rs ∧ r.free = false := by
  simp [used]

theorem used_cons_of_free (hr : r.free = true) : used (r :: rs) = used rs := by
  simp [used, hr]

theorem used_cons (hr : r.free = false) : used (r :: rs) = r :: used rs := by
  simp [used, hr]

@[simp] theorem tiles_nil : Tiles page start [] stop ↔ start = stop :=
  ⟨fun h => by cases h; rfl, fun h => h ▸ .nil _⟩

@[simp] theorem tiles_cons : Tiles page start (r :: rs) stop ↔
    r.offset = start ∧ 0 < r.size ∧ page ∣ r.size ∧ Tiles page (start + r.size) rs stop :=
  ⟨fun h => by cases h with | cons ho hp hd hr => exact ⟨ho, hp, hd, hr⟩,
    fun ⟨ho, hp, hd, hr⟩ => .cons ho hp hd hr⟩

theorem tiles_append : Tiles page start (xs ++ ys) stop ↔
    ∃ mid, Tiles page start xs mid ∧ Tiles page mid ys stop := by
  induction xs generalizing start with
  | nil => simp
  | cons x xs ih =>
    simp only [List.cons_append, tiles_cons, ih]
    constructor
    · rintro ⟨ho, hp, hd, mid, hxs, hys⟩
      exact ⟨mid, ⟨ho, hp, hd, hxs⟩, hys⟩
    · rintro ⟨mid, ⟨ho, hp, hd, hxs⟩, hys⟩
      exact ⟨ho, hp, hd, mid, hxs, hys⟩

section

variable (h : Tiles page start rs stop)

include h

theorem Tiles.le : start ≤ stop := by
  induction h with
  | nil n => exact Nat.le_refl n
  | cons _ _ _ _ ih => omega

/-- Every region lies between the two ends. -/
theorem Tiles.bounds (hr : r ∈ rs) : start ≤ r.offset ∧ r.offset + r.size ≤ stop := by
  induction h with
  | nil n => cases hr
  | cons ho _ _ hrest ih =>
    rcases List.mem_cons.mp hr with rfl | hr
    · have := hrest.le
      omega
    · have := ih hr
      omega

/-- Every region begins on a page if the first one does. -/
theorem Tiles.paged (hstart : page ∣ start) (hr : r ∈ rs) :
    0 < r.size ∧ page ∣ r.offset ∧ page ∣ r.size := by
  induction h with
  | nil n => cases hr
  | cons ho hp hd _ ih =>
    rcases List.mem_cons.mp hr with rfl | hr
    · exact ⟨hp, ho ▸ hstart, hd⟩
    · exact ih (Nat.dvd_add hstart hd) hr

/-- The sizes add up to the distance between the ends. -/
theorem Tiles.sum : start + (rs.map Region.size).sum = stop := by
  induction h with
  | nil n => simp
  | cons _ _ _ _ ih => simp only [List.map_cons, List.sum_cons]; omega

theorem Tiles.sorted : rs.Pairwise fun r s => r.offset < s.offset := by
  induction h with
  | nil n => exact .nil
  | cons ho hp _ hrest ih =>
    refine .cons (fun s hs => ?_) ih
    have := (hrest.bounds hs).1
    omega

theorem Tiles.ordered : rs.Pairwise fun r s => r.offset + r.size ≤ s.offset := by
  induction h with
  | nil => exact .nil
  | cons ho _ _ hrest ih =>
    refine .cons (fun r hr => ?_) ih
    rw [ho]
    exact (hrest.bounds hr).1

theorem Tiles.contiguous : rs.IsChain fun r s => r.offset + r.size = s.offset := by
  induction h with
  | nil n => exact .nil
  | cons ho _ _ hrest ih =>
    refine List.isChain_cons.mpr ⟨fun s hs => ?_, ih⟩
    cases hrest with
    | nil => cases hs
    | cons ho' => cases hs; omega

end

/-! ### Splitting -/

/-- What is taken from a region and what remains of it cover the region. -/
theorem Tiles.split (h : Tiles page start (r :: rs) stop) (hpos : 0 < size) (hsize : size ≤ r.size)
    (hpages : page ∣ size) (free : Bool) :
    Tiles page start (⟨r.offset, size, free⟩ :: remainder r size ++ rs) stop := by
  obtain ⟨ho, -, hd, hrest⟩ := tiles_cons.mp h
  unfold remainder
  split
  · rename_i hlt
    simp only [List.cons_append, List.nil_append, tiles_cons]
    refine ⟨ho, hpos, hpages, by omega, by omega, Nat.dvd_sub hd hpages, ?_⟩
    rwa [Nat.add_assoc, Nat.add_sub_cancel' hsize]
  · obtain rfl : size = r.size := by omega
    simpa using ⟨ho, hpos, hpages, hrest⟩

theorem Tiles.carve (h : Tiles page start rs stop) (hpos : 0 < size) (hpages : page ∣ size)
    (hcarve : carveRegions size rs = some (offset, rs')) : Tiles page start rs' stop := by
  obtain ⟨before, r, after, rfl, -, hsize, -, rfl⟩ := carveRegions_eq_some hcarve
  obtain ⟨mid, hbefore, hr⟩ := tiles_append.mp h
  rw [List.append_assoc]
  exact tiles_append.mpr ⟨mid, hbefore, hr.split hpos hsize hpages false⟩

theorem Merged.carve (h : Merged rs) (hcarve : carveRegions size rs = some (offset, rs')) :
    Merged rs' := by
  obtain ⟨before, r, after, rfl, hfree, -, -, rfl⟩ := carveRegions_eq_some hcarve
  obtain ⟨hbefore, hafter⟩ := List.isChain_split.mp h
  have hrest := List.isChain_cons.mp hafter
  rw [List.append_assoc]
  refine List.isChain_split.mpr ⟨?_, List.isChain_cons.mpr ⟨by simp, ?_⟩⟩
  · exact List.isChain_append.mpr ⟨(List.isChain_append.mp hbefore).1, .singleton _, by simp⟩
  · -- what remains is free, and so was the region: the next one is in use
    unfold remainder
    split
    · exact List.isChain_cons.mpr ⟨fun s hs => by simpa [hfree] using hrest.1 s hs, hrest.2⟩
    · exact hrest.2

theorem carveRegions_eq_none : carveRegions size rs = none ↔
    ∀ r ∈ rs, r.free = true → r.size < size := by
  induction rs with
  | nil => simp [carveRegions]
  | cons r rs ih =>
    rw [carveRegions]
    split
    · rename_i hfit
      simp only [reduceCtorEq, false_iff]
      exact fun h => absurd (h r List.mem_cons_self hfit.1) (Nat.not_lt.mpr hfit.2)
    · rename_i hfit
      simp only [Option.map_eq_none_iff, ih, List.forall_mem_cons]
      exact ⟨fun h => ⟨fun hf => Nat.lt_of_not_le fun hle => hfit ⟨hf, hle⟩, h⟩, fun h => h.2⟩

/-! ### Merging -/

theorem Tiles.mergeNext (h : Tiles page start (r :: rs) stop) :
    Tiles page start (mergeNext r rs) stop := by
  unfold Chunk.mergeNext
  split
  · split
    · rename_i next rest _
      obtain ⟨ho, hp, hd, ho', hp', hd', hrest⟩ := by simpa only [tiles_cons] using h
      refine .cons ho (Nat.add_pos_left hp _) (Nat.dvd_add hd hd') ?_
      rwa [← Nat.add_assoc]
    · exact h
  · exact h

theorem Merged.mergeNext (h : Merged rs) (r : Region) : Merged (mergeNext r rs) := by
  unfold Chunk.mergeNext
  split
  · split
    · rename_i next rest hnext
      have hrest := List.isChain_cons.mp h
      exact List.isChain_cons.mpr ⟨fun s hs hfree => hrest.1 s hs ⟨hnext, hfree.2⟩, hrest.2⟩
    · rename_i next rest hnext
      exact List.isChain_cons_cons.mpr ⟨fun hfree => hnext hfree.2, h⟩
  · exact .singleton _

theorem used_mergeNext (hr : r.free = true) : used (mergeNext r rs) = used rs := by
  unfold Chunk.mergeNext
  split
  · split
    · rename_i next rest hnext
      rw [used_cons_of_free hnext]
      exact used_cons_of_free (r := { r with size := r.size + next.size }) hr
    · rw [used_cons_of_free hr]
  · rw [used_cons_of_free hr]

theorem Tiles.release (h : Tiles page start rs stop)
    (hrelease : releaseRegions offset rs = some rs') : Tiles page start rs' stop := by
  induction rs generalizing start rs' with
  | nil => cases hrelease
  | cons r rs ih =>
    rw [releaseRegions] at hrelease
    split at hrelease
    · cases hrelease
      obtain ⟨ho, hp, hd, htiles⟩ := tiles_cons.mp h
      exact Tiles.mergeNext (.cons ho hp hd htiles)
    · obtain ⟨rest, hrest, rfl⟩ := Option.map_eq_some_iff.mp hrelease
      obtain ⟨ho, hp, hd, htiles⟩ := tiles_cons.mp h
      have hnew : Tiles page start (r :: rest) stop := .cons ho hp hd (ih htiles hrest)
      split
      · exact hnew.mergeNext
      · exact hnew

theorem Merged.release (h : Merged rs) (hrelease : releaseRegions offset rs = some rs') :
    Merged rs' := by
  induction rs generalizing rs' with
  | nil => cases hrelease
  | cons r rs ih =>
    have htail : Merged rs := (List.isChain_cons.mp h).2
    rw [releaseRegions] at hrelease
    split at hrelease
    · cases hrelease
      exact htail.mergeNext _
    · obtain ⟨rest, hrest, rfl⟩ := Option.map_eq_some_iff.mp hrelease
      split
      · exact (ih htail hrest).mergeNext r
      · rename_i hfree
        exact List.isChain_cons.mpr ⟨fun _ _ hboth => hfree hboth.1, ih htail hrest⟩

/-- The region at the offset is no longer in use, the others are as before. -/
theorem Tiles.used_release (h : Tiles page start rs stop)
    (hrelease : releaseRegions offset rs = some rs') :
    used rs' = (used rs).filter fun r => r.offset ≠ offset := by
  induction rs generalizing start rs' with
  | nil => cases hrelease
  | cons r rs ih =>
    obtain ⟨ho, hp, -, htiles⟩ := tiles_cons.mp h
    rw [releaseRegions] at hrelease
    split at hrelease
    · rename_i hhit
      cases hrelease
      -- regions further on have larger offsets
      have hlater : ∀ q ∈ used rs, decide (q.offset ≠ offset) = true := by
        intro q hq
        have := (htiles.bounds (mem_used.mp hq).1).1
        exact decide_eq_true (by omega)
      rw [used_mergeNext rfl, used_cons (by simpa using hhit.2),
        List.filter_cons_of_neg (by simp [hhit.1]), List.filter_eq_self.mpr hlater]
    · rename_i hmiss
      obtain ⟨rest, hrest, rfl⟩ := Option.map_eq_some_iff.mp hrelease
      split
      · rename_i hfree
        rw [used_mergeNext hfree, ih htiles hrest, used_cons_of_free hfree]
      · rename_i hfree
        have hfree : r.free = false := by simpa using hfree
        have hne : r.offset ≠ offset := fun heq => hmiss ⟨heq, by simp [hfree]⟩
        rw [used_cons hfree, used_cons hfree, List.filter_cons_of_pos (by simpa using hne),
          ih htiles hrest]

theorem mergeNext_of_merged (h : Merged (r :: rs)) (hr : r.free = true) :
    Chunk.mergeNext r rs = r :: rs := by
  cases rs with
  | nil => rfl
  | cons next rest =>
    have hnext : ¬next.free = true := fun hnext => (List.isChain_cons_cons.mp h).1 ⟨hr, hnext⟩
    exact if_neg hnext

/-- Carving regions and releasing the one in use leaves them as they were. -/
theorem Tiles.releaseRegions_carve (h : Tiles page start rs stop) (hmerged : Merged rs)
    (hcarve : carveRegions size rs = some (offset, rs')) :
    releaseRegions offset rs' = some rs := by
  induction h generalizing rs' with
  | nil => cases hcarve
  | @cons start stop r rest ho hpos _ hrest ih =>
    rw [carveRegions] at hcarve
    split at hcarve
    · rename_i hfit
      cases hcarve
      obtain ⟨o, n, free⟩ := r
      obtain ⟨rfl, hsize⟩ : free = true ∧ size ≤ n := hfit
      rw [List.cons_append, releaseRegions, if_pos ⟨rfl, rfl⟩]
      dsimp only
      split
      · -- what remained is free, and is merged with the block again
        simp only [List.singleton_append, Chunk.mergeNext, if_true, Nat.add_sub_cancel' hsize]
      · obtain rfl : size = n := by omega
        rw [List.nil_append, mergeNext_of_merged hmerged rfl]
    · obtain ⟨⟨offset', rest'⟩, hrest', heq⟩ := Option.map_eq_some_iff.mp hcarve
      cases heq
      -- the block lies behind this region, which is not merged with the one that follows
      obtain ⟨before, q, after, hq, -, -, rfl, -⟩ := carveRegions_eq_some hrest'
      have hbehind := (hrest.bounds (hq ▸ List.mem_append_right before List.mem_cons_self)).1
      have hother : ¬(r.offset = q.offset ∧ (!r.free) = true) := fun heq => by omega
      rw [releaseRegions, if_neg hother, ih (List.isChain_cons.mp hmerged).2 hrest', Option.map_some]
      split
      · rw [mergeNext_of_merged hmerged ‹_›]
      · rfl

theorem releaseRegions_eq_none : releaseRegions offset rs = none ↔
    ∀ r ∈ used rs, r.offset ≠ offset := by
  induction rs with
  | nil => simp [releaseRegions, used]
  | cons r rs ih =>
    rw [releaseRegions]
    split
    · rename_i hhit
      simp only [reduceCtorEq, false_iff]
      exact fun h => h r (mem_used.mpr ⟨List.mem_cons_self, by simpa using hhit.2⟩) hhit.1
    · rename_i hmiss
      rw [Option.map_eq_none_iff, ih]
      simp only [mem_used, List.mem_cons]
      refine ⟨fun h s hs heq => ?_, fun h s hs => h s ⟨.inr hs.1, hs.2⟩⟩
      rcases hs.1 with rfl | hmem
      · exact hmiss ⟨heq, by simp [hs.2]⟩
      · exact h s ⟨hmem, hs.2⟩ heq

/-! ### Chunks -/

/-- The regions of the chunk fill it, and no two free ones are neighbours. -/
structure Tiled (page : Nat) (c : Chunk) : Prop where
  pos : 0 < c.size
  tiles : Tiles page 0 c.regions c.size
  merged : Merged c.regions

/-- The same, spelled out: the regions are sorted, begin at the start of the chunk, each where the
    one before it ends, and end at the end of the chunk. -/
structure Partition (page : Nat) (c : Chunk) : Prop where
  sorted : c.regions.Pairwise fun r s => r.offset < s.offset
  first : ∃ r, c.regions.head? = some r ∧ r.offset = 0
  contiguous : c.regions.IsChain fun r s => r.offset + r.size = s.offset
  last : ∃ r, c.regions.getLast? = some r ∧ r.offset + r.size = c.size
  nonempty : ∀ r ∈ c.regions, 0 < r.size
  paged : ∀ r ∈ c.regions, page ∣ r.offset ∧ page ∣ r.size
  merged : c.regions.IsChain fun r s => ¬(r.free = true ∧ s.free = true)

theorem Tiles.getLast? (h : Tiles page start rs stop) (hlt : start < stop) :
    ∃ r, rs.getLast? = some r ∧ r.offset + r.size = stop := by
  rcases List.eq_nil_or_concat' rs with rfl | ⟨xs, r, rfl⟩
  · exact absurd (tiles_nil.mp h) (Nat.ne_of_lt hlt)
  · obtain ⟨mid, -, hr⟩ := tiles_append.mp h
    obtain ⟨ho, -, -, hstop⟩ := tiles_cons.mp hr
    exact ⟨r, by simp, ho ▸ tiles_nil.mp hstop⟩

theorem Tiled.partition (h : c.Tiled page) : c.Partition page := by
  refine ⟨h.tiles.sorted, ?_, h.tiles.contiguous, h.tiles.getLast? h.pos, fun r hr => ?_,
    fun r hr => ?_, h.merged⟩
  · cases hrs : c.regions with
    | nil =>
      have htiles := h.tiles
      rw [hrs, tiles_nil] at htiles
      exact absurd htiles (Nat.ne_of_lt h.pos)
    | cons r rs =>
      have htiles := h.tiles
      rw [hrs, tiles_cons] at htiles
      exact ⟨r, rfl, htiles.1⟩
  · exact (h.tiles.paged (Nat.dvd_zero page) hr).1
  · exact (h.tiles.paged (Nat.dvd_zero page) hr).2

theorem tiled_fresh {base : Nat} {hbase : 0 < base} (hpos : 0 < size) (hpages : page ∣ size) :
    (fresh base size hbase).Tiled page :=
  ⟨hpos, .cons rfl hpos hpages (by simp [fresh]), .singleton _⟩

theorem Tiled.carve {c' : Chunk} (h : c.Tiled page) (hpos : 0 < size) (hpages : page ∣ size)
    (hcarve : c.carve size = some (offset, c')) : c'.Tiled page := by
  obtain ⟨⟨offset', rs'⟩, hrs, heq⟩ := Option.map_eq_some_iff.mp hcarve
  cases heq
  exact ⟨h.pos, h.tiles.carve hpos hpages hrs, h.merged.carve hrs⟩

theorem carve_eq_none : c.carve size = none ↔
    ∀ r ∈ c.regions, r.free = true → r.size < size := by
  rw [carve, Option.map_eq_none_iff, carveRegions_eq_none]

/-- A chunk that a block was carved out of has one region in use more. -/
theorem mem_carve {c' : Chunk} (h : c.carve size = some (offset, c'))
    {r : Region} (hr : r.free = false) :
    r ∈ c'.regions ↔ r ∈ c.regions ∨ r = ⟨offset, size, false⟩ := by
  obtain ⟨⟨offset', rs'⟩, hcarve, heq⟩ := Option.map_eq_some_iff.mp h
  cases heq
  obtain ⟨before, q, after, hrs, hfree, -, rfl, rfl⟩ := carveRegions_eq_some hcarve
  -- the region that is split and what remains of it are both free
  have hq : r ≠ q := by
    rintro rfl
    rw [hr] at hfree
    cases hfree
  have hrest : r ∉ remainder q size := by
    intro hmem
    unfold remainder at hmem
    split at hmem
    · cases List.mem_singleton.mp hmem
      cases hr
    · cases hmem
  simp only [hrs, List.mem_append, List.mem_cons, hq, hrest]
  tauto

theorem base_carve {c' : Chunk} (h : c.carve size = some (offset, c')) :
    c'.base = c.base := by
  obtain ⟨⟨offset', rs'⟩, -, heq⟩ := Option.map_eq_some_iff.mp h
  cases heq
  rfl

/-- What was carved out last is put back where it was. -/
theorem Tiled.release_carve {c' : Chunk} (h : c.Tiled page)
    (hcarve : c.carve size = some (offset, c')) : c'.release offset = some c := by
  obtain ⟨⟨offset', rs'⟩, hrs, heq⟩ := Option.map_eq_some_iff.mp hcarve
  cases heq
  rw [release, h.tiles.releaseRegions_carve h.merged hrs]
  rfl

theorem Tiled.release {c' : Chunk} (h : c.Tiled page) (hrelease : c.release offset = some c') :
    c'.Tiled page ∧ c'.size = c.size ∧ c'.base = c.base ∧
      used c'.regions = (used c.regions).filter fun r => r.offset ≠ offset := by
  obtain ⟨rs', hrs, rfl⟩ := Option.map_eq_some_iff.mp hrelease
  exact ⟨⟨h.pos, h.tiles.release hrs, h.merged.release hrs⟩, rfl, rfl, h.tiles.used_release hrs⟩

/-- Regions are told apart by their offsets. -/
theorem Tiled.eq_of_offset (h : c.Tiled page) {r q : Region} (hr : r ∈ c.regions)
    (hq : q ∈ c.regions) (heq : r.offset = q.offset) : r = q := by
  have hnodup : (c.regions.map Region.offset).Nodup :=
    h.tiles.sorted.map _ fun _ _ hlt => Nat.ne_of_lt hlt
  exact List.inj_on_of_nodup_map hnodup hr hq heq

/-- The chunk as it was when it was mapped, a single free region. -/
def emptied (c : Chunk) : Chunk :=
  fresh c.base c.size c.base_pos

/-- A chunk without regions in use is a single free region. -/
theorem Tiled.eq_emptied (h : c.Tiled page) (hused : used c.regions = []) : c = c.emptied := by
  obtain ⟨base, csize, rs, hbase⟩ := c
  obtain ⟨hpos, htiles, hmerged⟩ := h
  have hfree : ∀ r ∈ rs, r.free = true := by
    simpa [used, List.filter_eq_nil_iff] using hused
  cases htiles with
  | nil => exact absurd hpos (Nat.lt_irrefl 0)
  | @cons _ _ r rest ho _ _ hrest =>
    cases hrest with
    | nil =>
      have hr := hfree r List.mem_cons_self
      obtain ⟨offset, size, free⟩ := r
      simp_all [emptied, fresh]
    | cons =>
      -- a second region would be a free neighbour
      exact absurd ⟨hfree _ (by simp), hfree _ (by simp)⟩ (List.isChain_cons_cons.mp hmerged).1

/-- Free bytes and bytes in use make up the chunk. -/
theorem Tiled.freeBytes_add (h : c.Tiled page) :
    c.freeBytes + ((used c.regions).map Region.size).sum = c.size := by
  have hsum : ∀ rs : List Region, ((rs.filter Region.free).map Region.size).sum
      + ((used rs).map Region.size).sum = (rs.map Region.size).sum := by
    intro rs
    induction rs with
    | nil => rfl
    | cons r rs ih =>
      cases hr : r.free with
      | true => simp [used_cons_of_free hr, hr]; omega
      | false => simp [used_cons hr, hr]; omega
  rw [freeBytes, hsum]
  simpa using h.tiles.sum

end Chunk

/-! ### The whole space -/

namespace CodeSpace

variable {s t : CodeSpace} {a b : CodeBlock} {page n : Nat} {mapped : Except Nat Nat}

/-- The blocks in use of chunks that are numbered from `index` on. -/
def blocksFrom (index : Nat) : List Chunk → List CodeBlock
  | [] => []
  | c :: rest =>
    (Chunk.used c.regions).map (fun r => c.block index r.offset r.size) ++
      blocksFrom (index + 1) rest

/-- The blocks in use. -/
def blocks (s : CodeSpace) : List CodeBlock :=
  blocksFrom 0 s.chunks

theorem mem_blocksFrom {index : Nat} {cs : List Chunk} : b ∈ blocksFrom index cs ↔
    ∃ k c, b.chunk = index + k ∧ cs[k]? = some c ∧ b.start = c.base + b.offset ∧
      ⟨b.offset, b.size, false⟩ ∈ c.regions := by
  induction cs generalizing index with
  | nil => simp [blocksFrom]
  | cons c rest ih =>
    rw [blocksFrom, List.mem_append, ih]
    constructor
    · rintro (h | ⟨k, d, hk, hd, hstart, hmem⟩)
      · obtain ⟨⟨offset, size, free⟩, hr, rfl⟩ := List.mem_map.mp h
        obtain ⟨hr, rfl⟩ := Chunk.mem_used.mp hr
        exact ⟨0, c, rfl, rfl, rfl, hr⟩
      · exact ⟨k + 1, d, by omega, hd, hstart, hmem⟩
    · rintro ⟨k, d, hk, hd, hstart, hmem⟩
      cases k with
      | zero =>
        cases hd
        refine .inl (List.mem_map.mpr ⟨_, Chunk.mem_used.mpr ⟨hmem, rfl⟩, ?_⟩)
        cases b
        simp_all [Chunk.block]
      | succ k => exact .inr ⟨k, d, by omega, hd, hstart, hmem⟩

@[simp] theorem mem_blocks : b ∈ s.blocks ↔ s.InUse b := by
  rw [blocks, mem_blocksFrom, InUse]
  constructor
  · rintro ⟨k, c, hk, hc, hin⟩
    exact ⟨c, by rw [hk, Nat.zero_add]; exact hc, hin⟩
  · rintro ⟨c, hc, hin⟩
    exact ⟨b.chunk, c, (Nat.zero_add _).symm, hc, hin⟩

/-- The chunks are tiled, and a new one of the least size would be. -/
structure Tiled (s : CodeSpace) : Prop where
  least : s.page ∣ s.chunkSize
  chunks : ∀ c ∈ s.chunks, c.Tiled s.page

theorem dvd_pages {size : Nat} (h : pages page n = .ok size) : page ∣ size := by
  unfold pages checkWord at h
  split at h
  · cases h; exact Nat.dvd_mul_left _ _
  · cases h

theorem tiled_createPaged {chunkSize : Nat} {hpage : 0 < page}
    (h : createPaged page hpage chunkSize = .ok s) : s.Tiled := by
  obtain ⟨rfl, hleast, hnone⟩ := createPaged_eq_ok h
  exact ⟨dvd_pages hleast, by simp [hnone]⟩

/-- A chunk that is mapped for a block is tiled. -/
theorem Tiled.fresh {base size : Nat} {hbase : 0 < base} (h : s.Tiled) (hpos : 0 < size)
    (hpages : s.page ∣ size) : (Chunk.fresh base (max size s.chunkSize) hbase).Tiled s.page := by
  refine Chunk.tiled_fresh (by omega) ?_
  rcases Nat.le_total size s.chunkSize with hle | hle
  · rw [Nat.max_eq_right hle]; exact h.least
  · rw [Nat.max_eq_left hle]; exact hpages

theorem Tiled.alloc (h : s.Tiled) (halloc : alloc mapped n s = .ok b t) :
    t.Tiled ∧ t.page = s.page := by
  obtain ⟨hn, hsize, hallotted⟩ := allotted_of_alloc halloc
  have hpos := (le_pages s.page_pos hsize hn).1
  have hpages := dvd_pages hsize
  cases hallotted with
  | carved hchunks hcarve hb =>
    rename_i before after c c'
    refine ⟨⟨h.least, fun d hd => ?_⟩, rfl⟩
    have htiled : ∀ d ∈ before ++ c :: after, d.Tiled s.page := fun d hd =>
      h.chunks d (hchunks ▸ hd)
    rcases List.mem_append.mp hd with hd | hd
    · exact htiled d (List.mem_append_left _ hd)
    rcases List.mem_cons.mp hd with rfl | hd
    · exact (htiled c (by simp)).carve hpos hpages hcarve
    · exact htiled d (by simp [hd])
  | mapped hfull hcarve hb =>
    refine ⟨⟨h.least, fun d hd => ?_⟩, rfl⟩
    rcases List.mem_append.mp hd with hd | hd
    · exact h.chunks d hd
    · obtain rfl := List.mem_singleton.mp hd
      exact (h.fresh hpos hpages).carve hpos hpages hcarve

/-- The block that is handed out is in use afterwards, the others are as before. -/
theorem inUse_alloc (h : alloc mapped n s = .ok b t) :
    t.InUse a ↔ s.InUse a ∨ a = b := by
  have hblock : ∀ c : Chunk, b.start = c.base + b.offset → (a = b ↔ a.chunk = b.chunk ∧
      a.start = c.base + a.offset ∧
      (⟨a.offset, a.size, false⟩ : Region) = ⟨b.offset, b.size, false⟩) := by
    intro c hstart
    constructor
    · rintro rfl
      exact ⟨rfl, hstart, rfl⟩
    · rintro ⟨hchunk, hstart', heq⟩
      cases a
      cases b
      simp_all
  cases (allotted_of_alloc h).2.2 with
  | @carved before after c c' hchunks hcarve hb =>
    have hchunk : b.chunk = before.length := congrArg CodeBlock.chunk hb
    have hset : before ++ c' :: after = s.chunks.set b.chunk c' := by simp [hchunks, hchunk]
    have hc : s.chunks[b.chunk]? = some c := by simp [hchunks, hchunk]
    have hc' : (s.chunks.set b.chunk c')[b.chunk]? = some c' := by simp [hchunks, hchunk]
    rw [hblock c' (congrArg CodeBlock.start hb)]
    simp only [InUse, hset]
    by_cases heq : a.chunk = b.chunk
    · simp only [heq, hc, hc', Option.some.injEq, exists_eq_left', true_and,
        Chunk.mem_carve hcarve, Chunk.base_carve hcarve, and_or_left]
    · simp [heq, List.getElem?_set_ne (Ne.symm heq)]
  | @mapped base hbase c' hfull hcarve hb =>
    have hchunk : b.chunk = s.chunks.length := congrArg CodeBlock.chunk hb
    rw [hblock c' (congrArg CodeBlock.start hb), hchunk]
    simp only [InUse]
    rcases Nat.lt_trichotomy a.chunk s.chunks.length with hlt | heq | hgt
    · rw [List.getElem?_append_left hlt]
      simp [Nat.ne_of_lt hlt]
    · -- a new chunk is free but for the block
      simp [heq, Chunk.mem_carve hcarve, Chunk.fresh]
    · rw [List.getElem?_eq_none (by simp; omega), List.getElem?_eq_none (Nat.le_of_lt hgt)]
      simp [Nat.ne_of_gt hgt]

/-- Blocks come from a new chunk if and only if no region of the others is free and large enough. -/
theorem length_lt_iff_of_alloc (halloc : alloc mapped n s = .ok b t) :
    s.chunks.length < t.chunks.length ↔
      ∀ c ∈ s.chunks, ∀ r ∈ c.regions, r.free = true → r.size < b.size := by
  simp only [← Chunk.carve_eq_none]
  cases (allotted_of_alloc halloc).2.2 with
  | carved hchunks hcarve hb =>
    rename_i before after c c'
    simp only [hchunks, List.length_append, List.length_cons, Nat.lt_irrefl, false_iff]
    intro hnone
    rw [hnone c (by simp)] at hcarve
    cases hcarve
  | mapped hfull hcarve hb => simpa using hfull

/-! ### Blocks that come back -/

/-- A block is taken back from the chunk that its number names. -/
theorem free?_eq_some (h : s.free? b = some t) : ∃ c c', s.chunks[b.chunk]? = some c ∧
    c.release b.offset = some c' ∧ t = { s with chunks := s.chunks.set b.chunk c' } := by
  simp only [free?, Option.bind_eq_bind, Option.bind_eq_some_iff, Option.pure_def,
    Option.some.injEq] at h
  obtain ⟨c, hc, c', hc', rfl⟩ := h
  exact ⟨c, c', hc, hc', rfl⟩

theorem Tiled.free? (h : s.Tiled) (hfree : s.free? b = some t) :
    t.Tiled ∧ t.page = s.page ∧ t.chunks.map Chunk.emptied = s.chunks.map Chunk.emptied := by
  obtain ⟨c, c', hc, hrelease, rfl⟩ := free?_eq_some hfree
  obtain ⟨htiled, hsize, hbase, -⟩ := (h.chunks c (List.mem_of_getElem? hc)).release hrelease
  refine ⟨⟨h.least, fun d hd => ?_⟩, rfl, ?_⟩
  · rcases List.mem_or_eq_of_mem_set hd with hd | rfl
    · exact h.chunks d hd
    · exact htiled
  · obtain ⟨hlt, hget⟩ := List.getElem?_eq_some_iff.mp hc
    have hemptied : c'.emptied = c.emptied := by simp [Chunk.emptied, hsize, hbase]
    rw [List.map_set, hemptied, ← hget, ← List.map_set, List.set_getElem_self]

/-- Nothing is taken back if no block in use begins there. -/
theorem free?_eq_none : s.free? b = none ↔
    ∀ a, s.InUse a → a.chunk = b.chunk → a.offset ≠ b.offset := by
  simp only [free?, Option.bind_eq_bind, Option.pure_def]
  cases hc : s.chunks[b.chunk]? with
  | none =>
    simp only [Option.bind_none, true_iff]
    rintro a ⟨c, hc', -⟩ heq
    rw [heq, hc] at hc'
    cases hc'
  | some c =>
    have hnone : c.release b.offset = none ↔ ∀ r ∈ Chunk.used c.regions, r.offset ≠ b.offset := by
      rw [Chunk.release, Option.map_eq_none_iff, Chunk.releaseRegions_eq_none]
    rw [Option.bind_some, Option.bind_eq_none_iff]
    simp only [reduceCtorEq, imp_false, ← Option.eq_none_iff_forall_ne_some, hnone]
    constructor
    · rintro h a ⟨c', hc', -, hmem⟩ heq
      rw [heq, hc] at hc'
      cases hc'
      exact h _ (Chunk.mem_used.mpr ⟨hmem, rfl⟩)
    · rintro h ⟨offset, size, free⟩ hr
      obtain ⟨hr, rfl⟩ := Chunk.mem_used.mp hr
      exact h (c.block b.chunk offset size) ⟨c, hc, rfl, hr⟩ rfl

/-- The block that begins there is no longer in use, the others are as before. -/
theorem Tiled.inUse_free? (h : s.Tiled) (hfree : s.free? b = some t) :
    t.InUse a ↔ s.InUse a ∧ ¬(a.chunk = b.chunk ∧ a.offset = b.offset) := by
  obtain ⟨c, c', hc, hrelease, rfl⟩ := free?_eq_some hfree
  obtain ⟨-, -, hbase, hused⟩ := (h.chunks c (List.mem_of_getElem? hc)).release hrelease
  have hmem : ∀ {offset size : Nat}, ⟨offset, size, false⟩ ∈ c'.regions ↔
      ⟨offset, size, false⟩ ∈ c.regions ∧ offset ≠ b.offset := by
    intro offset size
    simpa using congrArg (⟨offset, size, false⟩ ∈ ·) hused
  have hlt : b.chunk < s.chunks.length := (List.getElem?_eq_some_iff.mp hc).1
  by_cases heq : a.chunk = b.chunk
  · have hat : (s.chunks.set b.chunk c')[b.chunk]? = some c' := by simp [hlt]
    simp only [InUse, heq, hat, hc, Option.some.injEq, exists_eq_left', true_and, hmem, ne_eq,
      hbase, and_assoc]
  · simp [InUse, heq, List.getElem?_set_ne (Ne.symm heq)]

/-- Blocks in use are told apart by where they begin. -/
theorem Tiled.eq_of_inUse (h : s.Tiled) (ha : s.InUse a) (hb : s.InUse b)
    (hchunk : a.chunk = b.chunk) (hoffset : a.offset = b.offset) : a = b := by
  obtain ⟨c, hc, hstart, hmem⟩ := ha
  obtain ⟨c', hc', hstart', hmem'⟩ := hb
  rw [hchunk, hc'] at hc
  cases hc
  have hregion := (h.chunks c (List.mem_of_getElem? hc')).eq_of_offset hmem hmem' hoffset
  cases a
  cases b
  simp_all

theorem Tiled.eq_or_disjoint (h : s.Tiled) (ha : s.InUse a) (hb : s.InUse b) :
    a = b ∨ a.Disjoint b := by
  by_cases hchunk : a.chunk = b.chunk
  · by_cases hoffset : a.offset = b.offset
    · exact .inl (h.eq_of_inUse ha hb hchunk hoffset)
    · obtain ⟨c, hc, -, hmem⟩ := ha
      obtain ⟨c', hc', -, hmem'⟩ := hb
      rw [hchunk, hc'] at hc
      cases hc
      let apart (r q : Region) : Prop := r.offset + r.size ≤ q.offset ∨ q.offset + q.size ≤ r.offset
      have hsymm : Std.Symm apart := ⟨fun _ _ => Or.symm⟩
      have hordered : c.regions.Pairwise apart :=
        (h.chunks c (List.mem_of_getElem? hc')).tiles.ordered.imp Or.inl
      exact .inr (.inr (hordered.forall hmem hmem' fun heq => hoffset (congrArg Region.offset heq)))
  · exact .inr (.inl hchunk)

/-- What handing out a block of at least `n` bytes does. -/
structure Handed (s : CodeSpace) (n : Nat) (b : CodeBlock) (t : CodeSpace) : Prop where
  room : n ≤ b.size
  tiled : t.Tiled
  taken : t.InUse b
  kept : ∀ a, s.InUse a → t.InUse a
  apart : ∀ a, s.InUse a → b.Disjoint a

theorem Tiled.handed (h : s.Tiled) (halloc : CodeSpace.alloc mapped n s = .ok b t) :
    s.Handed n b t := by
  obtain ⟨hn, hsize, hallotted⟩ := allotted_of_alloc halloc
  have htiled := (h.alloc halloc).1
  have htaken : t.InUse b := (inUse_alloc halloc).mpr (.inr rfl)
  have hkept : ∀ a, s.InUse a → t.InUse a := fun a ha => (inUse_alloc halloc).mpr (.inl ha)
  refine ⟨(le_pages s.page_pos hsize hn).2, htiled, htaken, hkept, fun a ha => ?_⟩
  refine (htiled.eq_or_disjoint htaken (hkept a ha)).resolve_left ?_
  rintro rfl
  -- where the block begins there was a free region, or no chunk at all
  obtain ⟨d, hd, -, hmem⟩ := ha
  cases hallotted with
  | @carved before after c c' hchunks hcarve hb =>
    have hchunk : b.chunk = before.length := congrArg CodeBlock.chunk hb
    have hc : s.chunks[b.chunk]? = some c := by simp [hchunks, hchunk]
    obtain rfl : c = d := Option.some.inj (hc.symm.trans hd)
    obtain ⟨⟨offset, rs'⟩, hrs, heq⟩ := Option.map_eq_some_iff.mp hcarve
    obtain ⟨before', r, after', hregions, hfree, -, hoffset, -⟩ := Chunk.carveRegions_eq_some hrs
    have hr : r ∈ c.regions := hregions ▸ List.mem_append_right _ List.mem_cons_self
    have hat : r.offset = b.offset := hoffset.symm.trans (congrArg Prod.fst heq)
    rw [(h.chunks c (List.mem_of_getElem? hc)).eq_of_offset hr hmem hat] at hfree
    cases hfree
  | mapped hfull hcarve hb =>
    rw [congrArg CodeBlock.chunk hb] at hd
    exact absurd (List.getElem?_eq_some_iff.mp hd).1 (Nat.lt_irrefl _)

/-- A block that is taken back at once leaves the space as it was, but for a chunk that was mapped
    for it: that stays, as one free region. -/
theorem Tiled.free?_alloc (h : s.Tiled) (halloc : CodeSpace.alloc mapped n s = .ok b t) :
    ∃ t', t.free? b = some t' ∧ (t' = s ∨ ∃ base hbase, t' = { s with
      chunks := s.chunks ++ [Chunk.fresh base (max b.size s.chunkSize) hbase] }) := by
  obtain ⟨hn, hsize, hallotted⟩ := allotted_of_alloc halloc
  cases hallotted with
  | @carved before after c c' hchunks hcarve hb =>
    have hchunk : b.chunk = before.length := congrArg CodeBlock.chunk hb
    have hrelease := (h.chunks c (by simp [hchunks])).release_carve hcarve
    refine ⟨s, ?_, .inl rfl⟩
    obtain ⟨page, chunkSize, chunks, hpage⟩ := s
    obtain rfl : chunks = _ := hchunks
    simp [CodeSpace.free?, hchunk, hrelease]
  | @mapped base hbase c' hfull hcarve hb =>
    have hchunk : b.chunk = s.chunks.length := congrArg CodeBlock.chunk hb
    have hfresh : (Chunk.fresh base (max b.size s.chunkSize) hbase).Tiled s.page :=
      h.fresh (le_pages s.page_pos hsize hn).1 (dvd_pages hsize)
    have hrelease := hfresh.release_carve hcarve
    refine ⟨_, ?_, .inr ⟨base, hbase, rfl⟩⟩
    simp [CodeSpace.free?, hchunk, hrelease]

theorem nodup_blocksFrom {cs : List Chunk} (h : ∀ c ∈ cs, c.Tiled page) (index : Nat) :
    (blocksFrom index cs).Nodup := by
  induction cs generalizing index with
  | nil => exact List.nodup_nil
  | cons c rest ih =>
    rw [blocksFrom, List.nodup_append']
    refine ⟨?_, ih (fun d hd => h d (by simp [hd])) _, fun b hb hb' => ?_⟩
    · -- regions of one chunk differ in their offsets
      have hsorted : (Chunk.used c.regions).Pairwise fun r s => r.offset < s.offset :=
        (h c (by simp)).tiles.sorted.filter _
      refine List.Pairwise.map _ (fun r q hlt heq => ?_) hsorted
      exact absurd (CodeBlock.mk.inj heq).2.1 (Nat.ne_of_lt hlt)
    · obtain ⟨r, -, rfl⟩ := List.mem_map.mp hb
      obtain ⟨k, -, hk, -⟩ := mem_blocksFrom.mp hb'
      change index = _ at hk
      omega

/-- Free bytes and the blocks in use make up all chunks. -/
theorem Tiled.freeBytes_add (h : s.Tiled) :
    s.freeBytes + (s.blocks.map CodeBlock.size).sum = s.totalBytes := by
  have hsum : ∀ (cs : List Chunk) (index : Nat), (∀ c ∈ cs, c.Tiled s.page) →
      (cs.map Chunk.freeBytes).sum + ((blocksFrom index cs).map CodeBlock.size).sum
        = (cs.map Chunk.size).sum := by
    intro cs
    induction cs with
    | nil => simp [blocksFrom]
    | cons c rest ih =>
      intro index hcs
      have hc := (hcs c (by simp)).freeBytes_add
      have hrest := ih (index + 1) fun d hd => hcs d (by simp [hd])
      have hsizes : (CodeBlock.size ∘ fun r : Region => c.block index r.offset r.size)
          = Region.size := rfl
      simp only [blocksFrom, List.map_cons, List.sum_cons, List.map_append, List.sum_append,
        List.map_map, hsizes]
      omega
  exact hsum s.chunks 0 h.chunks

/-- Once all blocks in use came back, in whatever order, every chunk is a single free region. -/
theorem Tiled.free_all {bs : List CodeBlock} (h : s.Tiled) (hnodup : bs.Nodup)
    (hbs : ∀ a, a ∈ bs ↔ s.InUse a) : ∃ t, bs.foldlM CodeSpace.free? s = some t ∧
      t.chunks = s.chunks.map Chunk.emptied := by
  induction bs generalizing s with
  | nil =>
    refine ⟨s, rfl, ?_⟩
    have hemptied : ∀ c ∈ s.chunks, c.emptied = c := by
      intro c hc
      refine ((h.chunks c hc).eq_emptied (List.eq_nil_iff_forall_not_mem.mpr ?_)).symm
      rintro ⟨offset, size, free⟩ hr
      obtain ⟨k, hk⟩ := List.mem_iff_getElem?.mp hc
      obtain ⟨hr, rfl⟩ := Chunk.mem_used.mp hr
      exact absurd ((hbs (c.block k offset size)).mpr ⟨c, hk, rfl, hr⟩) List.not_mem_nil
    exact ((List.map_congr_left hemptied).trans (List.map_id _)).symm
  | cons b bs ih =>
    obtain ⟨hb, hnodup⟩ := List.nodup_cons.mp hnodup
    have hin : s.InUse b := (hbs b).mp List.mem_cons_self
    cases hfree : s.free? b with
    | none => exact absurd rfl (free?_eq_none.mp hfree b hin rfl)
    | some t =>
      obtain ⟨htiled, -, hsame⟩ := h.free? hfree
      have hrest : ∀ a, a ∈ bs ↔ t.InUse a := by
        intro a
        rw [h.inUse_free? hfree, ← hbs a, List.mem_cons]
        refine ⟨fun ha => ⟨.inr ha, fun ⟨hchunk, hoffset⟩ => hb ?_⟩, fun ⟨ha, hne⟩ => ?_⟩
        · have hina : s.InUse a := (hbs a).mp (List.mem_cons_of_mem _ ha)
          exact h.eq_of_inUse hina hin hchunk hoffset ▸ ha
        · exact ha.resolve_left fun heq => hne (heq ▸ ⟨rfl, rfl⟩)
      obtain ⟨u, hu, hchunks⟩ := ih htiled hnodup hrest
      exact ⟨u, by rw [List.foldlM_cons, hfree]; exact hu, hchunks.trans hsame⟩

/-! ### Calls -/

/-- A call of the code space, with what the system answers if it is asked for memory. Any block may
    be given back, also one that is not in use. -/
inductive Call where
  | alloc (mapped : Except Nat Nat) (size : Nat)
  | free (b : CodeBlock)

/-- The space after a call. -/
def perform (s : CodeSpace) : Call → CodeSpace
  | .alloc mapped n => (CodeSpace.alloc mapped n).after s
  | .free b => (s.free? b).getD s

/-- The space after calls, one after the other. -/
def performAll (s : CodeSpace) (calls : List Call) : CodeSpace :=
  calls.foldl perform s

theorem Tiled.perform (h : s.Tiled) (c : Call) :
    (s.perform c).Tiled ∧ (s.perform c).page = s.page := by
  cases c with
  | alloc mapped n =>
    rw [CodeSpace.perform]
    cases halloc : CodeSpace.alloc mapped n s with
    | ok b t =>
      rw [Step.after_ok halloc]
      exact h.alloc halloc
    | error e t =>
      rw [Step.after_error halloc, alloc_eq_error halloc]
      exact ⟨h, rfl⟩
  | free b =>
    rw [CodeSpace.perform]
    cases hfree : s.free? b with
    | none => exact ⟨h, rfl⟩
    | some t => exact ⟨(h.free? hfree).1, (h.free? hfree).2.1⟩

theorem Tiled.performAll (h : s.Tiled) (calls : List Call) :
    (s.performAll calls).Tiled ∧ (s.performAll calls).page = s.page := by
  induction calls generalizing s with
  | nil => exact ⟨h, rfl⟩
  | cons c calls ih =>
    obtain ⟨htiled, hpage⟩ := h.perform c
    exact ⟨(ih htiled).1, (ih htiled).2.trans hpage⟩

/-- After any calls, whatever the size of a page and the least size of a chunk, the regions of
    every chunk divide it up into whole pages without free neighbours, and free bytes and blocks in
    use make up the whole. A chunk is added only for a block that no free region has room for. A
    block is taken back exactly if one in use begins there, and otherwise nothing changes. When
    all blocks in use come back, in any order, every chunk becomes a single free region. -/
theorem performAll_partition {page chunkSize : Nat} {hpage : 0 < page} {s t : CodeSpace}
    (hs : createPaged page hpage chunkSize = .ok s) (calls : List Call)
    (ht : s.performAll calls = t) :
    (∀ c ∈ t.chunks, c.Partition page) ∧
      t.freeBytes + (t.blocks.map CodeBlock.size).sum = t.totalBytes ∧
      (∀ mapped n b u, alloc mapped n t = .ok b u → (t.chunks.length < u.chunks.length ↔
        ∀ c ∈ t.chunks, ∀ r ∈ c.regions, r.free = true → r.size < b.size)) ∧
      (∀ mapped n e u, alloc mapped n t = .error e u → u = t) ∧
      (∀ b, t.free? b = none ↔ ∀ a ∈ t.blocks, a.chunk = b.chunk → a.offset ≠ b.offset) ∧
      (∀ b, t.free? b = none → t.perform (.free b) = t) ∧
      ∀ bs : List CodeBlock, bs.Perm t.blocks → ∃ u, bs.foldlM CodeSpace.free? t = some u ∧
        u.chunks = t.chunks.map Chunk.emptied := by
  obtain ⟨htiled, hsame⟩ := (tiled_createPaged hs).performAll calls
  rw [ht] at htiled hsame
  rw [(createPaged_eq_ok hs).1] at hsame
  refine ⟨fun c hc => hsame ▸ (htiled.chunks c hc).partition, htiled.freeBytes_add,
    fun mapped n b u => length_lt_iff_of_alloc, fun mapped n e u => alloc_eq_error, fun b => ?_,
    fun b hb => ?_, fun bs hbs => ?_⟩
  · simp only [mem_blocks]
    exact free?_eq_none
  · rw [CodeSpace.perform, hb, Option.getD_none]
  · exact htiled.free_all (hbs.nodup_iff.mpr (nodup_blocksFrom htiled.chunks 0)) fun a =>
      hbs.mem_iff.trans mem_blocks

/-- Three blocks of two chunks, the middle one given back twice, and a block for which the system
    has no memory. -/
def interleaved : List Call :=
  [.alloc (.ok 64) 5, .alloc (.ok 96) 3, .alloc (.ok 96) 9, .free ⟨0, 8, 4, 72, by decide⟩,
    .free ⟨0, 8, 4, 72, by decide⟩, .alloc (.error 12) 7]

/-- The blocks that are still in use then, the last one first. -/
def outstanding : List CodeBlock :=
  [⟨1, 0, 12, 96, by decide⟩, ⟨0, 0, 8, 64, by decide⟩]

/-- With pages of four bytes and chunks of twelve, the third block gets a chunk of its own. -/
theorem performAll_partition_interleaved :
    ∃ s t, createPaged 4 (by decide) 10 = .ok s ∧ s.performAll interleaved = t ∧
      t.chunks = [⟨64, 12, [⟨0, 8, false⟩, ⟨8, 4, true⟩], by decide⟩,
        ⟨96, 12, [⟨0, 12, false⟩], by decide⟩] ∧
      (∀ c ∈ t.chunks, c.Partition 4) ∧
      ∃ u, outstanding.foldlM CodeSpace.free? t = some u ∧
        u.chunks = [.fresh 64 12 (by decide), .fresh 96 12 (by decide)] := by
  obtain ⟨s, hs, hchunks, hperm⟩ : ∃ s, createPaged 4 (by decide) 10 = .ok s ∧
      (s.performAll interleaved).chunks = [⟨64, 12, [⟨0, 8, false⟩, ⟨8, 4, true⟩], by decide⟩,
        ⟨96, 12, [⟨0, 12, false⟩], by decide⟩] ∧
      outstanding.Perm (s.performAll interleaved).blocks :=
    ⟨_, rfl, by decide, by decide⟩
  obtain ⟨hpart, -, -, -, -, -, hall⟩ := performAll_partition hs interleaved rfl
  obtain ⟨u, hu, hfresh⟩ := hall _ hperm
  rw [hchunks] at hfresh
  exact ⟨s, _, hs, rfl, hchunks, hpart, u, hu, hfresh⟩

end CodeSpace

end JitBackend
