import JitBackend.Text.Quoted

namespace JitBackend

/-!
# Printed records

One-line summaries of values: a type name with its fields in braces, optional values, lists.

* `Text.record` prints a name with fields, `Text.optional` a value that may be missing,
  `Text.list` a list.
-/

namespace Text

/-- A type name followed by its fields in braces. -/
def record (name : String) (fields : List (String × String)) : String :=
  name ++ " \x7b " ++ ", ".intercalate (fields.map fun f => f.1 ++ ": " ++ f.2) ++ " \x7d"

/-- A value that may be missing. -/
def optional : Option String → String
  | some s => "Some(" ++ s ++ ")"
  | none => "None"

/-- A list in brackets. -/
def list (items : List String) : String :=
  "[" ++ ", ".intercalate items ++ "]"

/-- A truth value. -/
def bool : Bool → String
  | true => "true"
  | false => "false"

end Text

end JitBackend
