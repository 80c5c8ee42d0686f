import JitBackend.Machine.Block
import Mathlib.Algebra.Order.Ring.Nat
import Mathlib.Data.List.Basic

namespace JitBackend.Machine

/-!
# Blocks in bytes

What code generation relies on in an encoder of blocks. Instructions have the bytes that they have
alone. A jump takes the short or the long form, whichever the encoder likes, and carries the
displacement from its own end to its target.

* `IsJump` — the bytes of a jump with the displacement that they carry;
* `Encodes` — the bytes of a block, item by item;
* `nearSize` — how large a block can get;
* `BlockEncoder.Lawful` — an encoder yields such bytes, and refuses no block that has its jumps
  inside and cannot get too large.
-/

/-! ### Bytes of jumps -/

/-- Bytes of a jump with a condition or without one, and the displacement that they carry: one byte
    or four, lowest first, read as a signed number. -/
inductive IsJump : Option Cond → Int → List Byte → Prop where
  | short (d : Byte) : IsJump none d.toInt [0xeb, d]
  | shortIf (cond : Cond) (d : Byte) : IsJump (some cond) d.toInt [(7 : BitVec 4) ++ cond.code, d]
  | near (a b c d : Byte) : IsJump none (d ++ c ++ b ++ a).toInt [0xe9, a, b, c, d]
  | nearIf (cond : Cond) (a b c d : Byte) :
      IsJump (some cond) (d ++ c ++ b ++ a).toInt [0x0f, (8 : BitVec 4) ++ cond.code, a, b, c, d]

/-! ### Instructions have bytes -/

theorem Form.bytes_ne_nil (f : Form) : f.bytes ≠ [] := by
  have hoperand : operandBytes f.reg f.rm ≠ [] := by
    unfold operandBytes
    split
    · simp
    · dsimp only
      split
      · simp
      · split <;> simp
  simp [bytes, hoperand]

theorem Inst.bytes_ne_nil (i : Inst) : i.bytes ≠ [] := by
  cases i with
  | resize result dst src => cases result <;> exact Form.bytes_ne_nil _
  | store width dst src => cases width <;> exact Form.bytes_ne_nil _
  | aluImm op w dst imm =>
    rw [Inst.bytes, aluImmBytes]
    split
    · simp
    · split <;> exact Form.bytes_ne_nil _
  | imulImm w dst src imm =>
    rw [Inst.bytes, imulImmBytes]
    split <;> exact Form.bytes_ne_nil _
  | shiftImm op w dst amount =>
    rw [Inst.bytes, shiftImmBytes]
    split <;> exact Form.bytes_ne_nil _
  | movImm32 | movImm64 | signExtend | push | pop => simp [Inst.bytes, shortForm]
  | ret | ud2 | nop => simp [Inst.bytes]
  | _ => exact Form.bytes_ne_nil _

/-! ### Pieces of code -/

/-- Number of bytes in front of the piece at an index. -/
def offsetAt (pieces : List (List Byte)) (k : Nat) : Nat :=
  (pieces.take k).flatten.length

theorem offsetAt_succ {pieces : List (List Byte)} {k : Nat} {piece : List Byte}
    (h : pieces[k]? = some piece) : offsetAt pieces (k + 1) = offsetAt pieces k + piece.length := by
  rw [offsetAt, List.take_add_one, h, offsetAt]
  simp

theorem offsetAt_length (pieces : List (List Byte)) :
    offsetAt pieces pieces.length = pieces.flatten.length := by
  rw [offsetAt, List.take_length]

theorem offsetAt_mono (pieces : List (List Byte)) {j k : Nat} (h : j ≤ k) :
    offsetAt pieces j ≤ offsetAt pieces k := by
  obtain ⟨n, rfl⟩ := Nat.exists_eq_add_of_le h
  rw [offsetAt, offsetAt, List.take_add, List.flatten_append, List.length_append]
  exact Nat.le_add_right _ _

theorem offsetAt_lt {pieces : List (List Byte)} (hne : ∀ piece ∈ pieces, piece ≠ []) {j k : Nat}
    (hjk : j < k) (hk : k ≤ pieces.length) : offsetAt pieces j < offsetAt pieces k := by
  have hj := List.getElem?_eq_getElem (Nat.lt_of_lt_of_le hjk hk)
  have hpos := List.length_pos_of_ne_nil (hne _ (List.mem_of_getElem? hj))
  calc offsetAt pieces j < offsetAt pieces (j + 1) := by rw [offsetAt_succ hj]; omega
    _ ≤ offsetAt pieces k := offsetAt_mono pieces hjk

/-- The code from the offset of a piece on. -/
theorem drop_offsetAt (pieces : List (List Byte)) (k : Nat) :
    pieces.flatten.drop (offsetAt pieces k) = (pieces.drop k).flatten := by
  have hsplit : pieces.flatten = (pieces.take k).flatten ++ (pieces.drop k).flatten := by
    rw [← List.flatten_append, List.take_append_drop]
  rw [hsplit, offsetAt, List.drop_left]

/-- The pieces are the bytes of the items one by one: those of an instruction are its own, and a jump
    to an item carries the displacement to it from the end of the jump. In code of two gigabytes a
    displacement need not fit. -/
structure Encodes (items : List Item) (targetOf : Nat → Target) (pieces : List (List Byte)) :
    Prop where
  length : pieces.length = items.length
  op : ∀ (k : Nat) (i : Inst), items[k]? = some (.op i) → pieces[k]? = some i.bytes
  jump : ∀ (k : Nat) (cond : Option Cond) (label : Nat), items[k]? = some (.jump cond label) →
    ∃ piece d, pieces[k]? = some piece ∧ IsJump cond d piece ∧
      ∀ j < items.length, targetOf label = .item j → pieces.flatten.length < 2 ^ 31 →
        d = (offsetAt pieces j : Int) - offsetAt pieces (k + 1)

/-- Size of an item whose jump takes the long form. -/
def Item.nearSize : Item → Nat
  | .op i => i.bytes.length
  | .jump none _ => 5
  | .jump (some _) _ => 6

/-- Size of a block all of whose jumps take the long form. -/
def nearSize : List Item → Nat
  | [] => 0
  | item :: items => item.nearSize + nearSize items

theorem nearSize_append (xs ys : List Item) : nearSize (xs ++ ys) = nearSize xs + nearSize ys := by
  induction xs with
  | nil => simp [nearSize]
  | cons x xs ih => rw [List.cons_append, nearSize, nearSize, ih, Nat.add_assoc]

theorem IsJump.size {cond : Option Cond} {d : Int} {piece : List Byte} {label : Nat}
    (h : IsJump cond d piece) :
    0 < piece.length ∧ piece.length ≤ (Item.jump cond label).nearSize := by
  cases h <;> simp [Item.nearSize]

namespace Encodes

variable {items : List Item} {targetOf : Nat → Target} {pieces : List (List Byte)} {k : Nat}

variable (h : Encodes items targetOf pieces)

include h

/-- A piece has some bytes, and at most those of the long form. -/
theorem size {item : Item} (hk : items[k]? = some item) :
    ∃ piece, pieces[k]? = some piece ∧ 0 < piece.length ∧ piece.length ≤ item.nearSize := by
  cases item with
  | op i => exact ⟨_, h.op k i hk, List.length_pos_of_ne_nil i.bytes_ne_nil, Nat.le_refl _⟩
  | jump cond label =>
    obtain ⟨piece, d, hpiece, hjump, -⟩ := h.jump k cond label hk
    exact ⟨piece, hpiece, hjump.size⟩

theorem nonempty : ∀ piece ∈ pieces, piece ≠ [] := by
  intro piece hmem
  obtain ⟨k, hk⟩ := List.mem_iff_getElem?.mp hmem
  have hlt := (List.getElem?_eq_some_iff.mp hk).1
  obtain ⟨piece', hpiece, hpos, -⟩ := h.size (List.getElem?_eq_getElem (h.length ▸ hlt))
  cases hk.symm.trans hpiece
  exact List.ne_nil_of_length_pos hpos

theorem length_le : pieces.flatten.length ≤ nearSize items := by
  suffices hk : ∀ k ≤ items.length, offsetAt pieces k ≤ nearSize (items.take k) by
    have := hk items.length (Nat.le_refl _)
    rwa [List.take_length, ← h.length, offsetAt_length] at this
  intro k
  induction k with
  | zero => simp [offsetAt]
  | succ k ih =>
    intro hle
    have hitem := List.getElem?_eq_getElem (Nat.lt_of_succ_le hle)
    obtain ⟨piece, hpiece, -, hsize⟩ := h.size hitem
    have := ih (Nat.le_of_succ_le hle)
    rw [offsetAt_succ hpiece, List.take_add_one, hitem, nearSize_append]
    simp only [Option.toList_some, nearSize]
    omega

/-- Instructions at the end of the code are its last pieces. -/
theorem drop_ops {is : List Inst} (hk : items.drop k = is.map .op) :
    pieces.drop k = is.map Inst.bytes := by
  refine List.ext_getElem? fun n => ?_
  have hn : items[k + n]? = (is[n]?).map .op := by
    rw [← List.getElem?_drop, hk, List.getElem?_map]
  rw [List.getElem?_drop, List.getElem?_map]
  cases hi : is[n]? with
  | some i =>
    rw [hi] at hn
    exact h.op (k + n) i hn
  | none =>
    rw [hi, Option.map_none, List.getElem?_eq_none_iff] at hn
    rw [Option.map_none, List.getElem?_eq_none_iff, h.length]
    exact hn

end Encodes

/-- What is known of an encoder of blocks. -/
class BlockEncoder.Lawful [BlockEncoder] : Prop where
  succeeds : ∀ (items : List Item) (targetOf : Nat → Target),
    (∀ cond label, .jump cond label ∈ items → ∃ j < items.length, targetOf label = .item j) →
    nearSize items < 2 ^ 31 → ∃ block, BlockEncoder.encode items targetOf = .ok block
  encodes : ∀ (items : List Item) (targetOf : Nat → Target) (block : Encoded),
    BlockEncoder.encode items targetOf = .ok block → ∃ pieces, block.bytes = pieces.flatten ∧
      Encodes items targetOf pieces ∧
      ∀ k < items.length, block.offsets[k]? = some (some (offsetAt pieces k))

end JitBackend.Machine
