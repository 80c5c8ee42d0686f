import JitBackend.Proofs.Blocks
import JitBackend.Proofs.Jumps

namespace JitBackend.Machine.Emitter

/-!
# Finished code

The items of an emitter in bytes. Whatever the block encoder is, a label has the offset that it
gives the item of the label. If it keeps the laws, code is made of pieces, one for each item, and
jumps go where they should.

* `assemble_eq_ok`, `labelOffset?_assemble` — what is made of the answer of the block encoder;
* `Assembled` — code in pieces, with labels and jumps resolved;
* `exists_assembled` — all code is like that;
* `exists_assemble` — there is code if the labels of jumps are bound and the items are not too many.
-/

variable {e : Emitter} {l : Nat}

theorem offsetOf_eq_ok {block : Encoded} {n o : Nat} :
    offsetOf block n = .ok o ↔ block.offsets[n]? = some (some o) ∧ o < 2 ^ 32 := by
  unfold offsetOf
  rcases block.offsets[n]? with _ | _ | offset
  · simp
  · simp
  · by_cases hlt : offset < 2 ^ 32
    · simp only [Option.join_some, if_pos hlt, Except.ok.injEq, Option.some.injEq]
      exact ⟨fun h => ⟨h, h ▸ hlt⟩, fun h => h.1⟩
    · simp only [Option.join_some, if_neg hlt, Option.some.injEq, reduceCtorEq, false_iff]
      rintro ⟨rfl, ho⟩
      exact hlt ho

theorem mapM_offsetOf_eq_ok {block : Encoded} {n : Nat} {bound : Option Nat} :
    (some n).mapM (offsetOf block) = .ok bound ↔ ∃ o, offsetOf block n = .ok o ∧ bound = some o := by
  show some <$> offsetOf block n = _ ↔ _
  cases offsetOf block n <;> simp [Functor.map, Except.map, eq_comm]

section

variable [BlockEncoder] {code : Code} {n : Nat}

/-- What the block encoder made of the items, with the offsets of the labels. -/
theorem assemble_eq_ok : e.assemble = .ok code ↔
    ∃ block, BlockEncoder.encode e.closed.toList e.targetOf = .ok block ∧ code.bytes = block.bytes ∧
      List.Forall₂ (fun bound offset => bound.mapM (offsetOf block) = .ok offset)
        e.labels.toList code.labels := by
  unfold assemble
  rw [not_waiting]
  show (_ >>= _) = _ ↔ _
  simp only [Except.bind_eq_ok, Except.mapError_eq_ok, Except.mapM_eq_ok]
  constructor
  · rintro ⟨block, hblock, labels, hlabels, heq⟩
    cases heq
    exact ⟨block, hblock, rfl, hlabels⟩
  · rintro ⟨block, hblock, hbytes, hlabels⟩
    exact ⟨block, hblock, code.labels, hlabels, by rw [← hbytes]; rfl⟩

/-- A label that is bound has the offset of its item, and no other label has one. -/
theorem labelOffset?_assemble (h : e.assemble = .ok code) : ∃ block,
    BlockEncoder.encode e.closed.toList e.targetOf = .ok block ∧ code.bytes = block.bytes ∧
      ∀ l, match e.labels[l]?.join with
        | some n => ∃ o, offsetOf block n = .ok o ∧ code.labelOffset? l = some o
        | none => code.labelOffset? l = none := by
  obtain ⟨block, hblock, hbytes, hlabels⟩ := assemble_eq_ok.mp h
  refine ⟨block, hblock, hbytes, fun l => ?_⟩
  have hlen := hlabels.length_eq
  rw [Code.labelOffset?, ← Array.getElem?_toList]
  by_cases hl : l < e.labels.toList.length
  · have hat := (List.forall₂_iff_get.mp hlabels).2 l hl (hlen ▸ hl)
    rw [List.getElem?_eq_getElem hl, List.getElem?_eq_getElem (hlen ▸ hl)]
    simp only [List.get_eq_getElem] at hat
    cases hbound : e.labels.toList[l] with
    | none =>
      rw [hbound] at hat
      exact (Except.ok.inj hat).symm
    | some n =>
      rw [hbound] at hat
      exact mapM_offsetOf_eq_ok.mp hat
  · rw [List.getElem?_eq_none (by omega), List.getElem?_eq_none (by omega)]
    rfl

end

theorem targetOf_bound {n : Nat} (hl : e.labels[l]? = some (some n)) : e.targetOf l = .item n := by
  rw [targetOf, hl]
  rfl

theorem mem_items_of_closed {cond : Option Cond} (h : .jump cond l ∈ e.closed) :
    .jump cond l ∈ e.items := by
  unfold closed at h
  split at h
  · simpa using h
  · exact h

/-- The pieces are the bytes of the items one by one, and a label has the offset of its item. -/
structure Assembled (e : Emitter) (code : Code) (pieces : List (List Byte)) : Prop
    extends Encodes e.closed.toList e.targetOf pieces where
  bytes : code.bytes = pieces.flatten
  label : ∀ l n : Nat, e.labels[l]? = some (some n) → code.labelOffset? l = some (offsetAt pieces n)
  unbound : ∀ l : Nat, e.labels[l]?.join = none → code.labelOffset? l = none

namespace Assembled

variable {code : Code} {pieces : List (List Byte)} {k n o : Nat} {cond : Option Cond}

theorem exists_bound (ha : Assembled e code pieces) (ho : code.labelOffset? l = some o) :
    ∃ n, e.labels[l]? = some (some n) := by
  cases hl : e.labels[l]?.join with
  | none => rw [ha.unbound l hl] at ho; cases ho
  | some n => exact ⟨n, Option.join_eq_some_iff.mp hl⟩

/-- A jump to a label that is bound goes to the offset of the label. -/
theorem jump_bound (ha : Assembled e code pieces) (hsize : code.bytes.length < 2 ^ 31)
    (hl : e.labels[l]? = some (some n)) (hk : e.closed.toList[k]? = some (.jump cond l)) :
    ∃ piece, pieces[k]? = some piece ∧
      IsJump cond ((offsetAt pieces n : Int) - offsetAt pieces (k + 1)) piece := by
  obtain ⟨piece, d, hpiece, hjump, hd⟩ := ha.jump k cond l hk
  rw [ha.bytes] at hsize
  rw [hd n (Array.length_toList ▸ place_lt hl) (targetOf_bound hl) hsize] at hjump
  exact ⟨piece, hpiece, hjump⟩

end Assembled

section

variable [BlockEncoder] [BlockEncoder.Lawful] {code : Code}

theorem exists_assembled (h : e.assemble = .ok code) : ∃ pieces, Assembled e code pieces := by
  obtain ⟨block, hblock, hbytes, hlabels⟩ := labelOffset?_assemble h
  obtain ⟨pieces, hflat, hencodes, hoffsets⟩ := BlockEncoder.Lawful.encodes _ _ _ hblock
  refine ⟨pieces, hencodes, hbytes.trans hflat, fun l n hl => ?_, fun l hl => ?_⟩
  · have hlabel := hlabels l
    rw [hl, Option.join_some] at hlabel
    obtain ⟨o, ho, hoffset⟩ := hlabel
    have hn := hoffsets n (Array.length_toList ▸ place_lt hl)
    rw [(offsetOf_eq_ok.mp ho).1] at hn
    rw [hoffset, Option.some.inj (Option.some.inj hn)]
  · have hlabel := hlabels l
    rwa [hl] at hlabel

/-- Code has bytes if its jumps go to labels that are bound, and if it cannot get too large. -/
theorem exists_assemble
    (hbound : ∀ cond l, .jump cond l ∈ e.items → ∃ n, e.labels[l]? = some (some n))
    (hsize : nearSize e.closed.toList < 2 ^ 31) :
    ∃ code, e.assemble = .ok code ∧ code.bytes.length < 2 ^ 31 := by
  have hjump : ∀ cond l, .jump cond l ∈ e.closed.toList →
      ∃ j < e.closed.toList.length, e.targetOf l = .item j := by
    intro cond l hmem
    obtain ⟨n, hn⟩ := hbound cond l (mem_items_of_closed (Array.mem_toList_iff.mp hmem))
    exact ⟨n, Array.length_toList ▸ place_lt hn, targetOf_bound hn⟩
  obtain ⟨block, hblock⟩ := BlockEncoder.Lawful.succeeds _ _ hjump hsize
  obtain ⟨pieces, hflat, hencodes, hoffsets⟩ := BlockEncoder.Lawful.encodes _ _ _ hblock
  have hlt : pieces.flatten.length < 2 ^ 31 := Nat.lt_of_le_of_lt hencodes.length_le hsize
  -- every label that is bound has an offset, within the code
  have hlabel : ∀ bound ∈ e.labels.toList,
      bound.mapM (offsetOf block) = .ok (bound.map (offsetAt pieces)) := by
    rintro (_ | n) hmem
    · rfl
    · obtain ⟨l, hl⟩ := List.mem_iff_getElem?.mp hmem
      rw [Array.getElem?_toList] at hl
      have hn := Nat.lt_of_lt_of_eq (place_lt hl) Array.length_toList.symm
      have hle := offsetAt_mono pieces (Nat.le_of_lt hn)
      rw [← hencodes.length, offsetAt_length] at hle
      exact mapM_offsetOf_eq_ok.mpr ⟨_, offsetOf_eq_ok.mpr ⟨hoffsets n hn, by omega⟩, rfl⟩
  refine ⟨⟨block.bytes, e.labels.toList.map (Option.map (offsetAt pieces))⟩,
    assemble_eq_ok.mpr ⟨block, hblock, rfl, ?_⟩, by rwa [hflat]⟩
  exact List.forall₂_map_right_iff.mpr (List.forall₂_same.mpr hlabel)

end

end JitBackend.Machine.Emitter
