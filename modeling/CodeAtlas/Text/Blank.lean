/-!
# White space

White space is the Unicode property `White_Space`. Texts are trimmed and tested on their lists of
characters; the functions on `String` only wrap those on `List Char`.

## Main definitions

* `isBlank`: a character is white space.
* `isIndent`: a character is a space or a tab, the two that indent a line.
* `trimEndWhile`, `trim`: cutting characters off the ends of a list.
* `blank`: a text consists of white space only.
-/
namespace CodeAtlas.Text

/-- White space: the 25 code points of the Unicode property `White_Space`. -/
def isBlank (c : Char) : Bool :=
  let n := c.toNat
  (9 ≤ n && n ≤ 13) || n == 0x20 || n == 0x85 || n == 0xA0 || n == 0x1680 ||
    (0x2000 ≤ n && n ≤ 0x200A) || n == 0x2028 || n == 0x2029 || n == 0x202F || n == 0x205F ||
    n == 0x3000

/-- The character `c` indents a line. -/
def isIndent (c : Char) : Bool :=
  c == ' ' || c == '\t'

@[grind →] theorem isBlank_of_isIndent {c : Char} (h : isIndent c = true) : isBlank c = true := by
  simp only [isIndent, Bool.or_eq_true, beq_iff_eq] at h
  rcases h with rfl | rfl <;> decide

/-! ## Lists of characters -/

/-- Cuts off the longest suffix whose characters all satisfy `p`. -/
def trimEndWhile (p : Char → Bool) (cs : List Char) : List Char :=
  (cs.reverse.dropWhile p).reverse

/-- Cuts white space off both ends of `cs`. -/
def trimChars (cs : List Char) : List Char :=
  trimEndWhile isBlank (cs.dropWhile isBlank)

/-! ## Texts -/

/-- Cuts white space off both ends of `s`. -/
def trim (s : String) : String :=
  String.ofList (trimChars s.toList)

/-- Cuts spaces and tabs off the front of `s`. -/
def dropIndent (s : String) : String :=
  String.ofList (s.toList.dropWhile isIndent)

/-- Cuts characters that satisfy `p` off both ends of a text. -/
def trimBoth (p : Char → Bool) (s : String) : String :=
  String.ofList (trimEndWhile p (s.toList.dropWhile p))

/-- The text `s` is white space only, or empty. -/
def blank (s : String) : Bool :=
  s.toList.all isBlank

@[simp] theorem blank_empty : blank "" = true := rfl

/-- The text `s` without its white space. -/
def squeeze (s : String) : String :=
  String.ofList (s.toList.filter (!isBlank ·))

end CodeAtlas.Text
