import CodeAtlas.Token.Alignment
import Mathlib.Data.List.Infix

/-!
# The table of lengths

The table of two streams is filled row by row from the last suffix on. Each of its cells holds the
value of a recursion on two lists, `commonLength`, at the suffixes that the row and the column
stand for.

## Main statements

* `LengthTable.rows_eq`: the rows of the table, as a function of the suffixes.
* `LengthTable.get_make`: the cells of the table.
-/
namespace CodeAtlas

variable {α : Type}

/-- The length of a longest common subsequence, by the recursion that fills the table: heads that
are `similar` are matched. -/
def commonLength (similar : α → α → Bool) : List α → List α → Nat
  | s :: source, t :: target =>
    if similar s t then commonLength similar source target + 1
    else max (commonLength similar source (t :: target)) (commonLength similar (s :: source) target)
  | _, _ => 0
termination_by source target => source.length + target.length

@[simp] theorem commonLength_nil_left (similar : α → α → Bool) (target : List α) :
    commonLength similar [] target = 0 := by
  simp [commonLength]

@[simp] theorem commonLength_nil_right (similar : α → α → Bool) (source : List α) :
    commonLength similar source [] = 0 := by
  cases source <;> simp [commonLength]

theorem commonLength_cons_cons (similar : α → α → Bool) (s t : α) (source target : List α) :
    commonLength similar (s :: source) (t :: target) =
      if similar s t then commonLength similar source target + 1
      else max (commonLength similar source (t :: target))
        (commonLength similar (s :: source) target) := by
  rw [commonLength]

namespace LengthTable

/-! ## Rows -/

@[simp] theorem headD_map_tails {β : Type} (f : List α → β) (l : List α) (d : β) :
    (l.tails.map f).headD d = f l := by
  cases l <;> simp

/-- If the row below holds the lengths for `source`, this row holds those for `s :: source`. -/
theorem row_eq (similar : α → α → Bool) (s : α) (source target : List α) :
    row similar s target (target.tails.map (commonLength similar source)) =
      target.tails.map (commonLength similar (s :: source)) := by
  induction target with
  | nil => simp [row]
  | cons t target ih =>
    simp only [List.tails, List.map_cons, row, ih, headD_map_tails, commonLength_cons_cons]

/-- The row of a suffix of `source` holds its lengths with all suffixes of `target`. -/
theorem rows_eq (similar : α → α → Bool) (source target : List α) :
    rows similar target source =
      source.tails.map fun suffix => target.tails.map (commonLength similar suffix) := by
  induction source with
  | nil =>
    have hzero : commonLength similar ([] : List α) = fun _ => 0 := by
      funext target
      simp
    simp [rows, hzero]
  | cons s source ih =>
    simp only [rows, ih, headD_map_tails, row_eq, List.tails, List.map_cons]

/-! ## Cells -/

/-- Reading a list of rows of one width as a flat list. -/
theorem getElem?_flatten_of_width {β : Type} {width : Nat} (rows : List (List β))
    (hwidth : ∀ r ∈ rows, r.length = width) (i : Nat) {j : Nat} (hj : j < width) :
    rows.flatten[index width i j]? = rows[i]?.bind (·[j]?) := by
  induction rows generalizing i with
  | nil => simp
  | cons r rows ih =>
    have hr : r.length = width := hwidth r (by simp)
    cases i with
    | zero => simp [index, List.getElem?_append_left, hr, hj]
    | succ i =>
      have hi : index width (i + 1) j = width + index width i j := by
        simp only [index, Nat.succ_mul]
        omega
      have := ih (fun r h => hwidth r (List.mem_cons_of_mem _ h)) i
      rw [List.flatten_cons, hi, List.getElem?_append_right (by omega), hr]
      simpa using this

theorem getElem?_tails {l : List α} {i : Nat} (hi : i ≤ l.length) :
    l.tails[i]? = some (l.drop i) := by
  have hlt : i < l.tails.length := by
    rw [List.length_tails]
    omega
  rw [List.getElem?_eq_getElem hlt, List.getElem_tails]

/-- Each cell of the table holds the length for the suffixes of its row and column. -/
theorem get_make (similar : α → α → Bool) (source target : List α) {i j : Nat}
    (hi : i ≤ source.length) (hj : j ≤ target.length) :
    (make similar source target).get i j =
      commonLength similar (source.drop i) (target.drop j) := by
  have hwidth : ∀ r ∈ rows similar target source, r.length = target.length + 1 := by
    simp [rows_eq]
  have hcell := getElem?_flatten_of_width _ hwidth i (Nat.lt_succ_of_le hj)
  have hrow : (rows similar target source)[i]? =
      some (target.tails.map (commonLength similar (source.drop i))) := by
    rw [rows_eq, List.getElem?_map, getElem?_tails hi, Option.map_some]
  simp only [get, make, List.getElem?_toArray, hcell, hrow, Option.bind_some, List.getElem?_map,
    getElem?_tails hj, Option.map_some, Option.getD_some]

end LengthTable

end CodeAtlas
