import CodeAtlas.Text.Blank
import CodeAtlas.Text.Slice

/-!
# Lines of a text

A line ends with a line feed. Its *segment* keeps the terminator, its *line* drops the line feed and
a carriage return directly in front of it.

## Main definitions

* `segments`, `lines`: the text cut after every line feed, with and without the terminators.
* `rowAt`: the number of line feeds in front of an offset.
* `lastLine`, `firstLine`: the part of a text after its last and in front of its first line feed.
* `indentAt`: the indentation of the line that starts something at an offset.
-/
namespace CodeAtlas.Text

/-! ## Cutting into lines -/

/-- Cuts a list of characters after every line feed. The last part is left out when it is empty. -/
def segmentChars : List Char → List (List Char)
  | [] => []
  | c :: cs =>
    if c = '\n' then ['\n'] :: segmentChars cs
    else
      match segmentChars cs with
      | [] => [[c]]
      | seg :: rest => (c :: seg) :: rest

@[simp] theorem flatten_segmentChars (cs : List Char) : (segmentChars cs).flatten = cs := by
  induction cs with
  | nil => rfl
  | cons c cs ih =>
    rw [segmentChars]
    split
    · next h => simp [ih, h]
    · split
      · next h => simp [h] at ih; simp [← ih]
      · next seg rest h => simp [h] at ih; simp [← ih]

/-- The text `s` cut after every line feed. -/
def segments (s : String) : List String :=
  (segmentChars s.toList).map String.ofList

/-- Drops the terminator of `seg`: the line feed and a carriage return in front of it. -/
def dropTerminator (seg : List Char) : List Char :=
  match seg.reverse with
  | '\n' :: '\r' :: rest => rest.reverse
  | '\n' :: rest => rest.reverse
  | _ => seg

/-- The lines of `s`, without terminators. -/
def lines (s : String) : List String :=
  (segmentChars s.toList).map fun seg => String.ofList (dropTerminator seg)

/-! ## Rows -/

/-- The number of line feeds among the characters that begin in the first `n` bytes. -/
def rowChars : Nat → List Char → Nat
  | _, [] => 0
  | 0, _ => 0
  | n, c :: cs => (if c = '\n' then 1 else 0) + rowChars (n - c.utf8Size) cs

/-- The row of the `offset`, counted from zero. -/
def rowAt (s : String) (offset : Nat) : Nat :=
  rowChars offset s.toList

/-! ## The line around an offset -/

/-- The part of `s` after its last line feed. -/
def lastLine (s : String) : String :=
  String.ofList (s.toList.reverse.takeWhile (· != '\n')).reverse

/-- The part of `s` in front of its first line feed. -/
def firstLine (s : String) : String :=
  String.ofList (s.toList.takeWhile (· != '\n'))

/-- The offset at which the line with this `offset` starts. -/
def lineStart (s : String) (offset : Nat) : Nat :=
  offset - (lastLine (before s offset)).utf8ByteSize

/-- What stands between the start of the line and the `offset`, if that is indentation only. -/
def indentAt (s : String) (offset : Nat) : String :=
  let lead := lastLine (before s offset)
  if lead.toList.all isIndent then lead else ""

/-- Takes one line terminator off the front of `s`. -/
def dropLeadingBreak? (s : String) : Option String :=
  match s.toList with
  | '\r' :: '\n' :: rest => some (String.ofList rest)
  | '\n' :: rest => some (String.ofList rest)
  | _ => none

end CodeAtlas.Text
