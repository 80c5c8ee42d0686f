import JitBackend.Text.CodeRange

namespace JitBackend

/-!
# Ignorable characters

A character is ignorable if a page that cannot show it leaves nothing in its place: joiners,
direction marks, variation selectors, and the fillers that stand for a missing letter of a Hangul
syllable. In the terms of the character database it has the property
`Default_Ignorable_Code_Point`.

* `Text.isIgnorable` is the property.
* `Text.ignorable` is its table.
-/

namespace Text

/-- Code points of the ignorable characters. -/
def ignorable : List CodeRange :=
  [⟨0x00ad, 0x00ad⟩, ⟨0x034f, 0x034f⟩, ⟨0x061c, 0x061c⟩, ⟨0x115f, 0x1160⟩, ⟨0x17b4, 0x17b5⟩,
   ⟨0x180b, 0x180f⟩, ⟨0x200b, 0x200f⟩, ⟨0x202a, 0x202e⟩, ⟨0x2060, 0x206f⟩, ⟨0x3164, 0x3164⟩,
   ⟨0xfe00, 0xfe0f⟩, ⟨0xfeff, 0xfeff⟩, ⟨0xffa0, 0xffa0⟩, ⟨0xfff0, 0xfff8⟩, ⟨0x1bca0, 0x1bca3⟩,
   ⟨0x1d173, 0x1d17a⟩, ⟨0xe0000, 0xe0fff⟩]

/-- Whether a character is ignorable. -/
def isIgnorable (c : Char) : Bool :=
  CodeRange.covers ignorable c

end Text

end JitBackend
