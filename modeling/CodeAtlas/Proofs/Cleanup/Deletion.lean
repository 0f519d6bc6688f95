import CodeAtlas.Proofs.Cleanup.Strict
import CodeAtlas.Proofs.Patch.Edit

/-!
# The ranges that are deleted

The ranges that are to be removed from a text may overlap, and so may the wider ranges that are
removed in their place. They are swept from left to right, and of each only what the earlier ones
have left is deleted. So the text loses ranges that follow each other; together they are the wider
ranges, which are the given ones and white space next to them.

## Main definitions

* `apartFrom`: what is left of each of some ranges by the earlier ones.
* `Span.deletion`: the edit that deletes a range.

## Main statements

* `rewritten_cutFrom`: the sweep deletes ranges that follow each other.
* `covered_apartFrom`: these are the given ranges.
* `removeSpans_congr`: it does not matter in which order the ranges are given.
* `removeSpans_deletes`: what the removal of ranges deletes.
-/
namespace CodeAtlas

open Text

variable {text : String} {s : Span} {spans spans' : List Span} {pos : Nat}

/-! ## The sweep -/

/-- The ranges with their overlaps cut off: none starts before `pos` or before the end of a range in
front of it. A range that lies wholly before that is left empty. -/
def apartFrom (pos : Nat) : List Span → List Span
  | [] => []
  | s :: rest => ⟨max pos s.start, max pos s.stop⟩ :: apartFrom (max pos s.stop) rest

/-- The edit that deletes the range `s`. -/
def Span.deletion (s : Span) : Edit :=
  { start := s.start, stop := s.stop, text := "" }

/-- The text between the last range and the next one, if there is any. -/
theorem slice?_max (hs : s.Valid text) (hpos : IsBoundary text pos) :
    slice? text pos (max pos s.start) =
      some (if pos < s.start then slice text pos s.start else "") := by
  have hmax := hpos.max hs.isBoundary_start
  obtain ⟨kept, hkept⟩ := exists_slice?_eq hpos hmax (Nat.le_max_left _ _)
  rw [hkept]
  split
  · next hlt =>
    rw [Nat.max_eq_right (Nat.le_of_lt hlt)] at hkept
    rw [slice_eq_of_slice? hkept]
  · next hge =>
    have hsize := size_of_slice? hkept
    rw [Nat.max_eq_left (Nat.not_lt.mp hge)] at hsize
    have hempty : kept = "" := String.utf8ByteSize_eq_zero_iff.mp (by omega)
    rw [hempty]

/-- The sweep deletes ranges that follow each other. -/
theorem rewritten_cutFrom (hspans : ∀ s ∈ spans, s.Valid text) (hpos : IsBoundary text pos) :
    Rewritten text pos ((apartFrom pos spans).map Span.deletion) (cutFrom text pos spans) := by
  induction spans generalizing pos with
  | nil =>
    rw [cutFrom, Nat.min_eq_left hpos.le]
    exact .rest (slice?_after hpos)
  | cons s spans ih =>
    obtain ⟨hs, hspans⟩ := List.forall_mem_cons.mp hspans
    have hle : max pos s.start ≤ max pos s.stop := by
      have := hs.start_le_stop
      omega
    have hrest := ih hspans (hpos.max hs.isBoundary_stop)
    have := Rewritten.edit (e := Span.deletion ⟨max pos s.start, max pos s.stop⟩)
      (slice?_max hs hpos) hle hrest
    rwa [Span.deletion, String.append_empty] at this

/-- What is left of ranges in order by those before them covers what they cover. -/
theorem covered_apartFrom (hspans : ∀ s ∈ spans, s.start ≤ s.stop)
    (hsorted : spans.Pairwise fun s w => s.start ≤ w.start) (o : Nat) :
    covered (apartFrom pos spans) o = true ↔ pos ≤ o ∧ covered spans o = true := by
  induction spans generalizing pos with
  | nil => simp [apartFrom, covered]
  | cons s spans ih =>
    obtain ⟨hs, hspans⟩ := List.forall_mem_cons.mp hspans
    obtain ⟨hfirst, hsorted⟩ := List.pairwise_cons.mp hsorted
    rw [apartFrom, covered_cons, covered_cons, Bool.or_eq_true, Bool.or_eq_true,
      ih hspans hsorted]
    simp only [Span.covers, Bool.and_eq_true, decide_eq_true_eq]
    by_cases hcovered : covered spans o = true
    · -- a later range that begins before the first one ends is covered by it up to there
      obtain ⟨w, hw, ho⟩ := List.any_eq_true.mp hcovered
      have hle := hfirst w hw
      simp only [Span.covers, Bool.and_eq_true, decide_eq_true_eq] at ho
      simp only [hcovered, and_true, or_true]
      omega
    · simp only [hcovered, and_false, or_false, Bool.false_eq_true]
      omega

/-! ## All ranges -/

theorem covered_congr (h : ∀ s, s ∈ spans' ↔ s ∈ spans) (o : Nat) :
    covered spans' o = covered spans o := by
  rw [covered, covered, Bool.eq_iff_iff, List.any_eq_true, List.any_eq_true]
  exact exists_congr fun s => and_congr_left' (h s)

/-- What is left of `text` depends on which ranges are removed, but not on their order in `spans`
and on how often they occur. -/
theorem removeSpans_congr (hspans : ∀ s ∈ spans, s.Valid text) (h : ∀ s, s ∈ spans' ↔ s ∈ spans) :
    removeSpans text spans' = removeSpans text spans := by
  have hwide (w : Span) : w ∈ spans'.map (widen text) ↔ w ∈ spans.map (widen text) := by
    rw [List.mem_map, List.mem_map]
    exact exists_congr fun s => and_congr_left' (h s)
  rw [← String.toList_inj, toList_removeSpans hspans,
    toList_removeSpans fun s hs => hspans s ((h s).mp hs)]
  exact keep_congr fun x _ => by rw [covered_congr hwide]

/-- The ranges of `text` that are deleted when `spans` are removed. -/
def deletedSpans (text : String) (spans : List Span) : List Span :=
  apartFrom 0 ((spans.map (widen text)).mergeSort Span.before)

theorem rewritten_removeSpans (h : ∀ s ∈ spans, s.Valid text) :
    Rewritten text 0 ((deletedSpans text spans).map Span.deletion) (removeSpans text spans) := by
  refine rewritten_cutFrom (fun w hw => ?_) (isBoundary_zero text)
  obtain ⟨s, hs, rfl⟩ := List.mem_map.mp (List.mem_mergeSort.mp hw)
  exact (widens_widen (h s hs)).valid

/-- Deleted is what the wider ranges cover. -/
theorem covered_deletedSpans (h : ∀ s ∈ spans, s.Valid text) (o : Nat) :
    covered (deletedSpans text spans) o = true ↔
      ∃ s ∈ spans, (widen text s).covers o = true := by
  have hmem (w : Span) : w ∈ (spans.map (widen text)).mergeSort Span.before ↔
      w ∈ spans.map (widen text) := List.mem_mergeSort
  have hle : ∀ w ∈ (spans.map (widen text)).mergeSort Span.before, w.start ≤ w.stop := by
    intro w hw
    obtain ⟨s, hs, rfl⟩ := List.mem_map.mp ((hmem w).mp hw)
    exact (widens_widen (h s hs)).valid.start_le_stop
  rw [deletedSpans, covered_apartFrom hle (pairwise_mergeSort_before _), covered_congr hmem,
    and_iff_right (Nat.zero_le o), covered, List.any_map, List.any_eq_true]
  simp only [Function.comp_apply]

/-- Removing valid `spans` of `text`, which may overlap, reads readable ranges only, and it does not
matter in which order they are given. The result is `text` without some ranges that follow each
other. They include all of `spans`, and what else they delete is white space: every deleted byte
lies in a range that is one of `spans` and white space around it. -/
theorem removeSpans_deletes (h : ∀ s ∈ spans, s.Valid text) :
    removeSpans? text spans = some (removeSpans text spans) ∧
    (∀ spans' : List Span, (∀ s, s ∈ spans' ↔ s ∈ spans) →
      removeSpans text spans' = removeSpans text spans) ∧
    ∃ deleted : List Span,
      Rewritten text 0 (deleted.map Span.deletion) (removeSpans text spans) ∧
      (∀ s ∈ spans, ∀ o, s.covers o = true → covered deleted o = true) ∧
      (∀ x ∈ offsets text, covered deleted x.1 = true → covered spans x.1 = false →
        isBlank x.2 = true) ∧
      ∀ o, covered deleted o = true → ∃ s ∈ spans, ∃ w, s.Widens text w ∧ w.covers o = true := by
  refine ⟨removeSpans?_eq h, fun _ hsame => removeSpans_congr h hsame, deletedSpans text spans,
    rewritten_removeSpans h, fun s hs o ho => ?_, fun x hx hdeleted houtside => ?_,
    fun o ho => ?_⟩
  · refine (covered_deletedSpans h o).mpr ⟨s, hs, ?_⟩
    have hwide := widens_widen (h s hs)
    have hstart := hwide.start_le
    have hstop := hwide.le_stop
    simp only [Span.covers, Bool.and_eq_true, decide_eq_true_eq] at ho ⊢
    omega
  · obtain ⟨s, hs, hcovers⟩ := (covered_deletedSpans h x.1).mp hdeleted
    refine (widens_widen (h s hs)).isBlank_of_covers x hx hcovers ?_
    exact Bool.eq_false_iff.mpr (List.any_eq_false.mp houtside s hs)
  · obtain ⟨s, hs, hcovers⟩ := (covered_deletedSpans h o).mp ho
    exact ⟨s, hs, widen text s, widens_widen (h s hs), hcovers⟩

/-- A range is valid if it is readable. -/
theorem Span.valid_iff : s.Valid text ↔ (slice? text s.start s.stop).isSome = true := by
  rw [Option.isSome_iff_exists]
  constructor
  · intro h
    exact exists_slice?_eq h.isBoundary_start h.isBoundary_stop h.start_le_stop
  · rintro ⟨t, ht⟩
    have hsize := size_of_slice? ht
    exact ⟨by omega, isBoundary_left ht, isBoundary_right ht⟩

instance (text : String) (s : Span) : Decidable (s.Valid text) :=
  decidable_of_iff' _ Span.valid_iff

/-- A line with a comment behind its code, and a line with a comment only. -/
def twoComments : String := "a /*é*/\n  // b\nc\n"

/-- Ranges in the two comments, out of order: two of them overlap, and one lies in another one. -/
def commentSpans : List Span := [⟨11, 15⟩, ⟨4, 8⟩, ⟨2, 6⟩, ⟨11, 13⟩]

/-- The second comment takes its line with it. The first one does not take the space in front of it,
since the range that is followed by nothing begins later. -/
theorem removeSpans_deletes_twoComments :
    (∀ s ∈ commentSpans, s.Valid twoComments) ∧
    removeSpans? twoComments commentSpans = some "a \nc\n" ∧
    removeSpans twoComments commentSpans.reverse = "a \nc\n" ∧
    ∃ deleted : List Span, Rewritten twoComments 0 (deleted.map Span.deletion) "a \nc\n" ∧
      ∀ s ∈ commentSpans, ∀ o, s.covers o = true → covered deleted o = true := by
  have hvalid : ∀ s ∈ commentSpans, s.Valid twoComments := by decide +kernel
  have hresult : removeSpans twoComments commentSpans = "a \nc\n" := by
    rw [← String.toList_inj, toList_removeSpans hvalid]
    decide +kernel
  obtain ⟨hread, horder, deleted, hrewritten, hall, -⟩ := removeSpans_deletes hvalid
  rw [hresult] at hread hrewritten
  exact ⟨hvalid, hread, (horder _ fun s => List.mem_reverse).trans hresult, deleted, hrewritten,
    hall⟩

end CodeAtlas
