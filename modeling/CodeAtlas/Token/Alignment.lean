import CodeAtlas.Text.Distance
import CodeAtlas.Token.Basic

/-!
# Comparing token streams

Two streams of tokens are aligned along a longest common subsequence, where *common* means similar.
The lengths of the longest common subsequences of all pairs of suffixes are kept in one flat table,
from which the alignment is read off. A table that would have more cells than a budget allows is not
made; then the streams count as replaced.

## Main definitions

* `Token.similar`: tokens that count as the same.
* `Change`: one step of an alignment.
* `LengthTable`: the table of lengths, addressed by a row and a column.
* `align`: the alignment of two streams.
-/
namespace CodeAtlas

/-! ## Similar tokens -/

/-- The settings of a comparison. -/
structure DiffSettings where
  /-- The largest number of cells of the table. -/
  budget : Nat := 2000000
  /-- Names more similar than this count as renamed. -/
  threshold : Float := 0.6
deriving Inhabited

/-- The tokens `a` and `b` are similar if they have one kind and the same text or, where the kind
allows other spellings, the same ordinal or texts that are similar enough for the `threshold`. -/
def Token.similar (threshold : Float) (a b : Token) : Bool :=
  a.kind == b.kind &&
    (a.text == b.text ||
      (a.kind.mayBeRenamed &&
        ((a.binding.isSome && a.binding == b.binding) ||
          threshold < Text.similarity a.text b.text)))

/-! ## Alignments -/

/-- One step of an alignment. -/
inductive Change where
  | unchanged (source target : Token)
  | inserted (token : Token)
  | removed (token : Token)
  /-- Streams of the given lengths are too large to compare. -/
  | replaced (sourceCount targetCount : Nat)
deriving DecidableEq, Inhabited

namespace Change

def isUnchanged : Change → Bool
  | unchanged _ _ => true
  | _ => false

/-- The token of the first stream that a step accounts for. -/
def source? : Change → Option Token
  | unchanged s _ => some s
  | removed s => some s
  | _ => none

/-- The token of the second stream that a step accounts for. -/
def target? : Change → Option Token
  | unchanged _ t => some t
  | inserted t => some t
  | _ => none

end Change

/-! ## The table of lengths -/

/-- The lengths of the longest common subsequences of suffixes of two streams, row by row. -/
structure LengthTable where
  /-- The number of columns. -/
  width : Nat
  cells : Array Nat

namespace LengthTable

/-- The place of the cell in this `row` and `column`. -/
def index (width row column : Nat) : Nat :=
  row * width + column

/-- The length for the suffixes from `row` and from `column` on. -/
def get (t : LengthTable) (row column : Nat) : Nat :=
  (t.cells[index t.width row column]?).getD 0

variable {α : Type}

/-- The row of the token `s`, given the row below it. The row below has one cell more than there are
targets. -/
def row (similar : α → α → Bool) (s : α) : List α → List Nat → List Nat
  | t :: ts, below :: rest =>
    let right := row similar s ts rest
    (if similar s t then rest.headD 0 + 1 else max below (right.headD 0)) :: right
  | _, _ => [0]

/-- All rows against `target`. The last is that of the empty suffix. -/
def rows (similar : α → α → Bool) (target : List α) : List α → List (List Nat)
  | [] => [List.replicate (target.length + 1) 0]
  | s :: source =>
    let below := rows similar target source
    row similar s target (below.headD []) :: below

/-- The table of the streams `source` and `target`. -/
def make (similar : α → α → Bool) (source target : List α) : LengthTable where
  width := target.length + 1
  cells := (rows similar target source).flatten.toArray

end LengthTable

/-! ## Reading the alignment off -/

/-- The alignment of the suffixes that start at `i` and `j`. -/
def alignFrom (similar : Token → Token → Bool) (table : LengthTable) (i j : Nat) :
    List Token → List Token → List Change
  | s :: source, t :: target =>
    if similar s t && table.get i j == table.get (i + 1) (j + 1) + 1 then
      .unchanged s t :: alignFrom similar table (i + 1) (j + 1) source target
    else if table.get i (j + 1) ≤ table.get (i + 1) j then
      .removed s :: alignFrom similar table (i + 1) j source (t :: target)
    else .inserted t :: alignFrom similar table i (j + 1) (s :: source) target
  | source, [] => source.map .removed
  | [], target => target.map .inserted
termination_by source target => source.length + target.length

/-- The number of cells that a comparison of `source` with `target` tokens needs. It is a 64-bit
word that does not exceed the largest one. -/
def cellCount (source target : Nat) : Nat :=
  min ((source + 1) * (target + 1)) (UInt64.size - 1)

/-- The alignment of the streams `source` and `target`, unless it takes more cells than the
`budget`. -/
def align (budget : Nat) (similar : Token → Token → Bool) (source target : List Token) :
    List Change :=
  if budget < cellCount source.length target.length then [.replaced source.length target.length]
  else alignFrom similar (.make similar source target) 0 0 source target

/-- The alignment of the streams `source` and `target`, which is given up if it is `cancelled`
before the first row of its table. Streams too large to compare, and an empty first stream, need no
row. -/
def align? (budget : Nat) (similar : Token → Token → Bool) (cancelled : Bool)
    (source target : List Token) : Option (List Change) :=
  if cancelled && !source.isEmpty && cellCount source.length target.length ≤ budget then none
  else some (align budget similar source target)

/-- The comparison of the streams `source` and `target` by the `settings`. -/
def compareTokens (settings : DiffSettings) (source target : List Token) : List Change :=
  align settings.budget (Token.similar settings.threshold) source target

end CodeAtlas
