import JitBackend.Text.ExtendingMark
import JitBackend.Text.Graphic
import JitBackend.Text.Ignorable

namespace JitBackend

/-!
# Quoted text

Text between double quotes, as it appears inside printed records. A quote and a backslash get a
backslash, the common control characters their short escapes, and characters that do not stand on
the page by themselves are written by code point.

* `Text.quoted` is the quoted form of a text.
-/

namespace Text

/-- Whether a character is written by its code point: it is not graphic, leaves nothing on the
    page, or would join the character before it. -/
def isHidden (c : Char) : Bool :=
  !isGraphic c || isIgnorable c || isExtendingMark c

/-- Written form of one character. -/
def escaped (c : Char) : List Char :=
  match c with
  | '"' => ['\\', '"']
  | '\\' => ['\\', '\\']
  | '\n' => ['\\', 'n']
  | '\r' => ['\\', 'r']
  | '\t' => ['\\', 't']
  | '\x00' => ['\\', '0']
  | c =>
    if isHidden c then
      ['\\', 'u', '\x7b'] ++ Nat.toDigits 16 c.toNat ++ ['\x7d']
    else
      [c]

/-- A text between double quotes, with escapes. -/
def quoted (s : String) : String :=
  String.ofList ('"' :: s.toList.flatMap escaped ++ ['"'])

end Text

end JitBackend
