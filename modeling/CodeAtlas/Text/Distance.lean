/-!
# Edit distance

The least number of insertions, deletions and replacements of characters that turn one text into
another, and the similarity of two texts that follows from it.

## Main definitions

* `editDistance`: the distance of two lists of characters.
* `similarity`: 1 for equal texts, less the share of the longer one that has to change.
-/
namespace CodeAtlas.Text

/-- One row of the table of distances. The row above starts with `diagonal` and goes on with
`above`; `left` is the distance in front of the row. The row holds the distances of a prefix that
ends in `a` to the non-empty prefixes of the second list. -/
def distanceRow (a : Char) (left diagonal : Nat) : List Char → List Nat → List Nat
  | b :: bs, up :: above =>
    let here := min (min (left + 1) (up + 1)) (if a = b then diagonal else diagonal + 1)
    here :: distanceRow a here up bs above
  | _, _ => []

/-- The distances of the list read so far and the rest of the first list to the prefixes of the
second. The distance to the empty prefix is `first`, those to the others are `row`. -/
def distanceRows (bs : List Char) (first : Nat) (row : List Nat) : List Char → Nat
  | [] => row.getLast?.getD first
  | a :: as => distanceRows bs (first + 1) (distanceRow a (first + 1) first bs row) as

/-- The least number of insertions, deletions and replacements that turn `as` into `bs`. -/
def editDistance (as bs : List Char) : Nat :=
  distanceRows bs 0 ((List.range bs.length).map (· + 1)) as

/-- How similar `a` and `b` are: 1, less their distance divided by the length of the longer one. -/
def similarity (a b : String) : Float :=
  if a.isEmpty && b.isEmpty then 1.0
  else
    1.0 - (editDistance a.toList b.toList).toFloat / (max a.length b.length).toFloat

end CodeAtlas.Text
