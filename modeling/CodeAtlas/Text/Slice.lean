/-!
# Byte ranges of a text

Positions in a text are byte offsets of its UTF-8 form. A range is readable when it lies inside the
text and both ends fall on character boundaries.

## Main definitions

* `slice?`: the text of a byte range, if the range is readable.
* `slice`, `before`, `after`: the same with the empty text for an unreadable range.
* `hasAscii`: a given character stands at an offset.
-/
namespace CodeAtlas.Text

/-- The text of the bytes from `start` up to but not including `stop`. There is none if the range
is inverted, leaves the text, or cuts a character. -/
def slice? (s : String) (start stop : Nat) : Option String :=
  match s.pos? ⟨start⟩, s.pos? ⟨stop⟩ with
  | some p, some q => if start ≤ stop then some (s.extract p q) else none
  | _, _ => none

/-- The part of `s` from `start` to `stop`, empty if the range is unreadable. -/
def slice (s : String) (start stop : Nat) : String :=
  (slice? s start stop).getD ""

/-- The part of `s` in front of `stop`. -/
def before (s : String) (stop : Nat) : String :=
  slice s 0 stop

/-- The part of `s` from `start` on. -/
def after (s : String) (start : Nat) : String :=
  slice s start s.utf8ByteSize

/-- The one-byte character `c` stands at the offset. -/
def hasAscii (s : String) (offset : Nat) (c : Char) : Bool :=
  slice? s offset (offset + 1) == some (String.singleton c)

end CodeAtlas.Text
