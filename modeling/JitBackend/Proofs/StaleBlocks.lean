import JitBackend.Proofs.Tiling

namespace JitBackend

/-!
# Blocks given back more than once

A block is a plain value: who gave it back still has it and can give it back again, and by then its
bytes may belong to somebody else. The space looks for the block by where it begins and never asks
for its size, nor whether it came from this space at all. So space and users agree on the blocks
that are held as long as nobody gives back a block where another one begins, and no longer.

* `CodeSpace.Ledger` — a space with the blocks that its users hold;
* `CodeSpace.Ledger.Clear` — no block is taken for another one on the way;
* `CodeSpace.Ledger.free?_after_clear` — then the blocks in use are those held, and which blocks
  are taken back;
* `CodeSpace.Ledger.free?_mistaken` — what happens otherwise.
-/

namespace CodeSpace

variable {s t : CodeSpace} {a b : CodeBlock}

/-- A space with the blocks that its users hold: handed out, and not given back since. -/
structure Ledger where
  space : CodeSpace
  held : List CodeBlock

namespace Ledger

/-- Space and blocks held after a call, whatever is said to it. -/
def perform (l : Ledger) : Call → Ledger
  | .alloc mapped n =>
    match CodeSpace.alloc mapped n l.space with
    | .ok b t => ⟨t, b :: l.held⟩
    | .error _ t => ⟨t, l.held⟩
  | .free b => ⟨l.space.perform (.free b), l.held.filter (· ≠ b)⟩

/-- Space and blocks held after calls, one after the other. -/
def performAll (l : Ledger) (calls : List Call) : Ledger :=
  calls.foldl perform l

/-- Where `b` begins, another block is held, and `b` is taken for that. -/
def Mistakes (l : Ledger) (b : CodeBlock) : Prop :=
  ∃ a ∈ l.held, a.chunk = b.chunk ∧ a.offset = b.offset ∧ a ≠ b

instance (l : Ledger) (b : CodeBlock) : Decidable (l.Mistakes b) :=
  inferInstanceAs (Decidable (∃ a ∈ l.held, _))

/-- The call does not give back a block that would be taken for another one. -/
def Admits (l : Ledger) : Call → Prop
  | .alloc .. => True
  | .free b => ¬ l.Mistakes b

instance (l : Ledger) (c : Call) : Decidable (l.Admits c) :=
  match c with
  | .alloc .. => inferInstanceAs (Decidable True)
  | .free b => inferInstanceAs (Decidable (¬ l.Mistakes b))

/-- No call of the sequence gives back a block that would be taken for another one. -/
def Clear (l : Ledger) : List Call → Prop
  | [] => True
  | c :: calls => l.Admits c ∧ (l.perform c).Clear calls

instance decidableClear : (l : Ledger) → (calls : List Call) → Decidable (l.Clear calls)
  | _, [] => inferInstanceAs (Decidable True)
  | l, c :: calls =>
    have := decidableClear (l.perform c) calls
    inferInstanceAs (Decidable (l.Admits c ∧ (l.perform c).Clear calls))

theorem perform_space (l : Ledger) (c : Call) : (l.perform c).space = l.space.perform c := by
  cases c with
  | alloc mapped n =>
    rw [perform, CodeSpace.perform, Step.after]
    cases CodeSpace.alloc mapped n l.space <;> rfl
  | free b => rfl

theorem performAll_space (l : Ledger) (calls : List Call) :
    (l.performAll calls).space = l.space.performAll calls := by
  induction calls generalizing l with
  | nil => rfl
  | cons c calls ih =>
    refine (ih (l.perform c)).trans ?_
    rw [perform_space]
    rfl

/-- The blocks in use are those held, and they do not overlap. -/
structure Agrees (l : Ledger) : Prop where
  tiled : l.space.Tiled
  inUse_iff : ∀ b, l.space.InUse b ↔ b ∈ l.held
  apart : l.held.Pairwise CodeBlock.Disjoint

variable {l : Ledger}

/-- A block that is not taken for another one is taken back if and only if it is held. -/
theorem Agrees.free?_isSome_iff (h : l.Agrees) (b : CodeBlock) : (l.space.free? b).isSome ↔
    ∃ a ∈ l.held, a.chunk = b.chunk ∧ a.offset = b.offset := by
  rw [Option.isSome_iff_ne_none, ne_eq, CodeSpace.free?_eq_none]
  simp [h.inUse_iff]

/-- Blocks held are told apart by where they begin. -/
theorem Agrees.eq_of_mem (h : l.Agrees) (ha : a ∈ l.held) (hb : b ∈ l.held)
    (hchunk : a.chunk = b.chunk) (hoffset : a.offset = b.offset) : a = b :=
  h.tiled.eq_of_inUse ((h.inUse_iff a).mpr ha) ((h.inUse_iff b).mpr hb) hchunk hoffset

theorem mem_iff_of_not_mistakes (hb : ¬ l.Mistakes b) :
    b ∈ l.held ↔ ∃ a ∈ l.held, a.chunk = b.chunk ∧ a.offset = b.offset := by
  constructor
  · exact fun h => ⟨b, h, rfl, rfl⟩
  · rintro ⟨a, ha, hchunk, hoffset⟩
    have heq : a = b := by
      by_contra hne
      exact hb ⟨a, ha, hchunk, hoffset, hne⟩
    exact heq ▸ ha

theorem Agrees.alloc (h : l.Agrees) (mapped : Except Nat Nat) (n : Nat) :
    (l.perform (.alloc mapped n)).Agrees := by
  rw [perform]
  cases halloc : CodeSpace.alloc mapped n l.space with
  | ok b t =>
    have hhanded := h.tiled.handed halloc
    refine ⟨hhanded.tiled, fun a => ?_, .cons (fun a ha => ?_) h.apart⟩
    · rw [inUse_alloc halloc, h.inUse_iff, List.mem_cons, or_comm]
    · exact hhanded.apart a ((h.inUse_iff a).mpr ha)
  | error e t =>
    obtain rfl := alloc_eq_error halloc
    exact h

/-- What is given back is the block held that begins there, if there is one. -/
theorem Agrees.inUse_free? (h : l.Agrees) (hfree : l.space.free? b = some t) :
    t.InUse a ↔ a ∈ l.held ∧ ¬(a.chunk = b.chunk ∧ a.offset = b.offset) := by
  rw [h.tiled.inUse_free? hfree, h.inUse_iff]

theorem Agrees.free (h : l.Agrees) (hb : ¬ l.Mistakes b) : (l.perform (.free b)).Agrees := by
  refine ⟨?_, fun a => ?_, h.apart.filter _⟩
  · rw [perform_space]
    exact (h.tiled.perform _).1
  · rw [perform, CodeSpace.perform, List.mem_filter, decide_eq_true_iff]
    cases hfree : l.space.free? b with
    | none =>
      have hnot : b ∉ l.held := by
        rw [mem_iff_of_not_mistakes hb, ← h.free?_isSome_iff, hfree]
        simp
      rw [Option.getD_none, h.inUse_iff]
      refine ⟨fun ha => ⟨ha, ?_⟩, fun ha => ha.1⟩
      rintro rfl
      exact hnot ha
    | some t =>
      have hheld : b ∈ l.held := by
        rw [mem_iff_of_not_mistakes hb, ← h.free?_isSome_iff, hfree]
        rfl
      rw [Option.getD_some, h.inUse_free? hfree]
      refine and_congr_right fun ha => not_congr ⟨fun hat => ?_, ?_⟩
      · exact h.eq_of_mem ha hheld hat.1 hat.2
      · rintro rfl
        exact ⟨rfl, rfl⟩

theorem Agrees.perform (h : l.Agrees) {c : Call} (hc : l.Admits c) : (l.perform c).Agrees := by
  cases c with
  | alloc mapped n => exact h.alloc mapped n
  | free b => exact h.free hc

theorem Agrees.performAll (h : l.Agrees) {calls : List Call} (hclear : l.Clear calls) :
    (l.performAll calls).Agrees := by
  induction calls generalizing l with
  | nil => exact h
  | cons c calls ih => exact ih (h.perform hclear.1) hclear.2

theorem agrees_createPaged {page chunkSize : Nat} {hpage : 0 < page}
    (hs : createPaged page hpage chunkSize = .ok s) : (⟨s, []⟩ : Ledger).Agrees := by
  refine ⟨tiled_createPaged hs, fun b => ?_, .nil⟩
  simp [InUse, (createPaged_eq_ok hs).2.2]

/-- As long as no block is given back where another one is held, the blocks in use are those that
    were handed out and not given back since, and they do not overlap. A block `b` is then taken
    back if and only if one that begins there is held, whatever its size: that one is no longer in
    use and the others are as before. So `b` is taken back if and only if it is held itself, unless
    another one is held there; and what is not taken back changes nothing. -/
theorem free?_after_clear {page chunkSize : Nat} {hpage : 0 < page}
    (hs : createPaged page hpage chunkSize = .ok s) (calls : List Call)
    (hclear : (⟨s, []⟩ : Ledger).Clear calls) :
    let l := (⟨s, []⟩ : Ledger).performAll calls
    l.space = s.performAll calls ∧ (∀ b, l.space.InUse b ↔ b ∈ l.held) ∧
      l.held.Pairwise CodeBlock.Disjoint ∧
      ∀ b, ((l.space.free? b).isSome ↔ ∃ a ∈ l.held, a.chunk = b.chunk ∧ a.offset = b.offset) ∧
        (((l.space.free? b).isSome ↔ b ∈ l.held) ↔ ¬ l.Mistakes b) ∧
        (l.space.free? b = none → l.space.perform (.free b) = l.space) ∧
        ∀ t a, l.space.free? b = some t →
          (t.InUse a ↔ a ∈ l.held ∧ ¬(a.chunk = b.chunk ∧ a.offset = b.offset)) := by
  have h := (agrees_createPaged hs).performAll hclear
  refine ⟨performAll_space _ calls, h.inUse_iff, h.apart, fun b => ⟨h.free?_isSome_iff b, ?_,
    fun hnone => ?_, fun t a hfree => h.inUse_free? hfree⟩⟩
  · rw [h.free?_isSome_iff]
    constructor
    · rintro hiff ⟨a, ha, hchunk, hoffset, hne⟩
      exact hne (h.eq_of_mem ha (hiff.mp ⟨a, ha, hchunk, hoffset⟩) hchunk hoffset)
    · exact fun hb => (mem_iff_of_not_mistakes hb).symm
  · rw [CodeSpace.perform, hnone, Option.getD_none]

/-- The block of `size` bytes at an offset of a chunk at address 64. -/
def blockAt (offset size : Nat) : CodeBlock :=
  (Chunk.fresh 64 16 (Nat.succ_pos 63)).block 0 offset size

/-- A block of one page is given back, and one of two pages begins there next. That one is given
    back as well before the first one is given back again, which then is taken for no other. -/
def reused : List Call :=
  [.alloc (.ok 64) 4, .free (blockAt 0 4), .alloc (.error 12) 8, .alloc (.error 12) 3,
    .free (blockAt 0 8), .free (blockAt 0 4), .alloc (.error 12) 5]

/-- With pages of four bytes, the block of two pages is handed out once more. -/
theorem free?_after_clear_reused : ∃ s, createPaged 4 (by decide) 16 = .ok s ∧
    (⟨s, []⟩ : Ledger).Clear reused ∧
    let l := (⟨s, []⟩ : Ledger).performAll reused
    l.held = [blockAt 0 8, blockAt 8 4] ∧ l.held.Pairwise CodeBlock.Disjoint ∧
      l.space.free? (blockAt 4 4) = none ∧
      ((l.space.free? (blockAt 8 4)).isSome ↔ blockAt 8 4 ∈ l.held) := by
  obtain ⟨s, hs, hclear, hheld, hnone, hmistakes⟩ : ∃ s, createPaged 4 (by decide) 16 = .ok s ∧
      (⟨s, []⟩ : Ledger).Clear reused ∧
      ((⟨s, []⟩ : Ledger).performAll reused).held = [blockAt 0 8, blockAt 8 4] ∧
      ((⟨s, []⟩ : Ledger).performAll reused).space.free? (blockAt 4 4) = none ∧
      ¬ ((⟨s, []⟩ : Ledger).performAll reused).Mistakes (blockAt 8 4) :=
    ⟨_, rfl, by decide, by decide, by decide, by decide⟩
  obtain ⟨-, -, hapart, hfree⟩ := free?_after_clear hs reused hclear
  exact ⟨s, hs, hclear, hheld, hapart, hnone, (hfree (blockAt 8 4)).2.1.mpr hmistakes⟩

/-- A block is given back and its page is handed out again as part of a block of two pages. The
    first block is given back once more: it is not held, yet it is taken back, and the block handed
    out next overlaps the one of two pages, which is still held. -/
theorem free?_mistaken : ∃ s, createPaged 4 (by decide) 16 = .ok s ∧
    let l := (⟨s, []⟩ : Ledger).performAll
      [.alloc (.ok 64) 4, .free (blockAt 0 4), .alloc (.error 12) 8]
    l.held = [blockAt 0 8] ∧ (l.space.free? (blockAt 0 4)).isSome ∧
      (l.performAll [.free (blockAt 0 4), .alloc (.error 12) 4]).held
        = [blockAt 0 4, blockAt 0 8] ∧
      ¬ (blockAt 0 4).Disjoint (blockAt 0 8) :=
  ⟨_, rfl, by decide, by decide, by decide, by simp [CodeBlock.Disjoint, blockAt, Chunk.block]⟩

end Ledger

end CodeSpace

end JitBackend
