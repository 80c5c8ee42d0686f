import JitBackend.ValueTable

namespace JitBackend

/-!
# Values by number

The state of each value after a change to the table.

* `get?_modify`, `get?_insert` — a change concerns one value alone;
* `consume_fst`, `get?_consume` — what counting a use does.
-/

/-- The state of a value after one of its uses. -/
def ValueState.consumed (x : ValueState) : ValueState :=
  if x.usesLeft ≤ 1 then { x with usesLeft := 0, modified := false, reg := none }
  else { x with usesLeft := x.usesLeft - 1 }

namespace ValueTable

theorem get?_empty (n v : Nat) : (ValueTable.empty n).get? v = none := by
  simp only [get?, empty, Array.getElem?_replicate]
  split <;> rfl

theorem get?_modify (t : ValueTable) (v u : Nat) (f : ValueState → ValueState) :
    (t.modify v f).get? u = if u = v then (t.get? v).map f else t.get? u := by
  simp only [get?, modify, Array.getElem?_modify]
  by_cases h : u = v
  · subst h
    cases t.states[u]? with
    | none => simp
    | some o => cases o <;> simp
  · rw [if_neg (Ne.symm h), if_neg h]

theorem get?_modify_self {t : ValueTable} {v : Nat} {x : ValueState} (h : t.get? v = some x)
    (f : ValueState → ValueState) : (t.modify v f).get? v = some (f x) := by
  rw [get?_modify, if_pos rfl, h]
  rfl

theorem get?_insert (t : ValueTable) (v u : Nat) (x : ValueState) :
    (t.insert v x).get? u = if u = v then some x else t.get? u := by
  simp only [get?, insert, Array.getElem?_setIfInBounds, Array.size_append, Array.size_replicate]
  by_cases h : u = v
  · subst h
    simp only [if_true]
    rw [if_pos (by omega)]
    rfl
  · rw [if_neg (Ne.symm h), if_neg h, Array.getElem?_append]
    split
    · rfl
    · rename_i hlt
      rw [Array.getElem?_eq_none (Nat.le_of_not_lt hlt), Array.getElem?_replicate]
      split <;> rfl

/-- Counting a use yields the register of a value that has no more uses. -/
theorem consume_fst {t : ValueTable} {v : Nat} {x : ValueState} (h : t.get? v = some x) :
    (t.consume v).1 = if x.usesLeft ≤ 1 then x.reg else none := by
  simp only [consume, h]; split <;> rfl

theorem get?_consume (t : ValueTable) (v u : Nat) :
    (t.consume v).2.get? u
      = if u = v then (t.get? v).map ValueState.consumed else t.get? u := by
  cases h : t.get? v with
  | none =>
    simp only [consume, h, Option.map_none]
    split
    · rename_i hu; rw [hu, h]
    · rfl
  | some x =>
    simp only [consume, h, Option.map_some, ValueState.consumed]
    split <;> rw [get?_modify, h] <;> rfl

end ValueTable

end JitBackend
