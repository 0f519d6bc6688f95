import CodeAtlas.Cleanup
import CodeAtlas.Proofs.Text.Offset
import CodeAtlas.Proofs.Syntax.WellFormed

/-!
# What the removal of ranges leaves

A range that is removed is first widened by white space around it. So of the visible characters of a
text exactly those outside the given ranges are left, in whatever order the ranges are given and
however they overlap.

## Main definitions

* `Span.Valid`: a range between two boundaries of a text.
* `Span.Widens`: one range is another one and white space around it.
* `spare`, `coverage`: what is left of a list without its marked elements, and which visible
  characters of a text some ranges mark.

## Main statements

* `widens_widen`: a range is widened by white space.
* `toList_removeSpans`: the characters outside the widened ranges are left.
* `visible_removeSpans`: the visible characters outside the ranges are left.
-/
namespace CodeAtlas

open Text

variable {text : String} {s w : Span} {spans : List Span} {pos : Nat}

/-! ## Ranges of a text -/

namespace Span

/-- The `offset` lies in the range `s`. -/
def covers (s : Span) (offset : Nat) : Bool :=
  s.start ≤ offset && offset < s.stop

/-- The range `s` lies between two boundaries of `text`. -/
structure Valid (text : String) (s : Span) : Prop where
  start_le_stop : s.start ≤ s.stop
  isBoundary_start : IsBoundary text s.start
  isBoundary_stop : IsBoundary text s.stop

theorem Valid.exists_append (h : s.Valid text) : ∃ front middle back,
    text = front ++ middle ++ back ∧ front.utf8ByteSize = s.start ∧
      s.start + middle.utf8ByteSize = s.stop := by
  obtain ⟨t, ht⟩ := exists_slice?_eq h.isBoundary_start h.isBoundary_stop h.start_le_stop
  obtain ⟨l, r, hl, hsize, hsize'⟩ := slice?_eq_some_iff.mp ht
  exact ⟨l, t, r, hl, hsize, hsize'⟩

/-- The range `w` is `s` and white space around it. -/
structure Widens (text : String) (s w : Span) : Prop where
  valid : w.Valid text
  start_le : w.start ≤ s.start
  le_stop : s.stop ≤ w.stop
  isBlank_of_covers : ∀ x ∈ offsets text, w.covers x.1 = true → s.covers x.1 = false →
    isBlank x.2 = true

/-- Of a visible character, the wider range `w` covers no more than `s` does. -/
theorem Widens.covers_iff {x : Nat × Char} (h : s.Widens text w) (hx : x ∈ offsets text)
    (hvisible : isBlank x.2 = false) : w.covers x.1 = true ↔ s.covers x.1 = true := by
  constructor
  · intro hw
    by_contra hcovers
    have := h.isBlank_of_covers x hx hw (by simpa using hcovers)
    simp [hvisible] at this
  · have hstart := h.start_le
    have hstop := h.le_stop
    simp only [covers, Bool.and_eq_true, decide_eq_true_eq]
    omega

end Span

/-- One of the ranges `spans` covers the `offset`. -/
def covered (spans : List Span) (offset : Nat) : Bool :=
  spans.any (·.covers offset)

@[simp] theorem covered_cons (s : Span) (spans : List Span) (offset : Nat) :
    covered (s :: spans) offset = (s.covers offset || covered spans offset) :=
  rfl

/-! ## Widening -/

/-- A range together with blank texts in front of it and after it. -/
theorem Span.widens_of_append {front lead middle tail back : String}
    (htext : text = front ++ lead ++ middle ++ tail ++ back) (hlead : blank lead = true)
    (htail : blank tail = true) (hstart : s.start = front.utf8ByteSize + lead.utf8ByteSize)
    (hstop : s.stop = s.start + middle.utf8ByteSize) (hwstart : w.start = front.utf8ByteSize)
    (hwstop : w.stop = s.stop + tail.utf8ByteSize) : s.Widens text w := by
  have hfront : IsBoundary text w.start :=
    ⟨front, lead ++ middle ++ tail ++ back, by simp [htext, String.append_assoc], hwstart.symm⟩
  have hback : IsBoundary text w.stop :=
    ⟨front ++ lead ++ middle ++ tail, back, htext, by simp only [String.utf8ByteSize_append]; omega⟩
  refine ⟨⟨by omega, hfront, hback⟩, by omega, by omega, fun x hx hw hs => ?_⟩
  have hleads : slice? text w.start s.start = some lead := by
    refine slice?_eq_some_iff.mpr ⟨front, middle ++ tail ++ back, ?_, hwstart.symm, by omega⟩
    simp [htext, String.append_assoc]
  have htails : slice? text s.stop w.stop = some tail := by
    refine slice?_eq_some_iff.mpr ⟨front ++ lead ++ middle, back, ?_, ?_, hwstop.symm⟩
    · simp [htext, String.append_assoc]
    · simp only [String.utf8ByteSize_append]
      omega
  simp only [covers, Bool.and_eq_true, decide_eq_true_eq] at hw
  simp only [covers, Bool.and_eq_false_iff, decide_eq_false_iff_not] at hs
  rw [blank, List.all_eq_true] at hlead htail
  rcases hs with hs | hs
  · exact hlead _ (mem_of_mem_offsets hleads hx hw.1 (by omega))
  · exact htail _ (mem_of_mem_offsets htails hx (by omega) hw.2)

theorem Text.exists_eq_trimEndWhile_append (p : Char → Bool) (t : String) :
    ∃ cut, t = String.ofList (trimEndWhile p t.toList) ++ cut ∧ ∀ c ∈ cut.toList, p c = true := by
  have hsplit := List.takeWhile_append_dropWhile (p := p) (l := t.toList.reverse)
  refine ⟨String.ofList (t.toList.reverse.takeWhile p).reverse, ?_, fun c hc => ?_⟩
  · rw [← String.toList_inj, trimEndWhile, String.toList_append, String.toList_ofList,
      String.toList_ofList, ← List.reverse_append, hsplit, List.reverse_reverse]
  · rw [String.toList_ofList, List.mem_reverse] at hc
    exact List.mem_takeWhile_imp hc

/-- A range is widened by white space. -/
theorem widens_widen (h : s.Valid text) : s.Widens text (widen text s) := by
  obtain ⟨front, middle, back, htext, hstart, hstop⟩ := h.exists_append
  have hbefore : before text s.start = front := by
    rw [← hstart]
    exact before_eq (htext.trans String.append_assoc)
  have hafter : after text s.stop = back := by
    rw [← hstop, ← hstart, ← String.utf8ByteSize_append]
    exact after_eq htext
  obtain ⟨x, hx, -⟩ := exists_eq_append_lastLine front
  obtain ⟨rest, hrest, hends⟩ := exists_eq_firstLine_append back
  unfold widen
  rw [hbefore, hafter]
  dsimp only
  generalize lastLine front = lead at *
  generalize firstLine back = tail at *
  subst hx hrest
  have hsize := congrArg String.utf8ByteSize htext
  simp only [String.utf8ByteSize_append] at hsize hstart
  split
  · next hblank =>
    rw [Bool.and_eq_true] at hblank
    rcases hends with rfl | ⟨more, rfl⟩
    · have htext' : text = x ++ lead ++ middle ++ tail ++ "" := by
        simp [htext, String.append_assoc]
      refine Span.widens_of_append htext' hblank.1 hblank.2 hstart.symm hstop.symm ?_ ?_ <;>
      · dsimp only
        simp only [String.utf8ByteSize_empty] at hsize
        omega
    · -- the line feed after the range goes with it
      have htext' : text = x ++ lead ++ middle ++ (tail ++ "\n") ++ more := by
        simp [htext, String.append_assoc]
      have hfeed : blank (tail ++ "\n") = true := by
        rw [blank_append, hblank.2]
        rfl
      have hone : "\n".utf8ByteSize = 1 := by decide
      refine Span.widens_of_append htext' hblank.1 hfeed hstart.symm hstop.symm ?_ ?_ <;>
      · simp only [String.utf8ByteSize_append] at hsize ⊢
        omega
  · split
    · -- only the spaces and tabs in front of the range go with it
      obtain ⟨cut, hcut, hindent⟩ := exists_eq_trimEndWhile_append isIndent lead
      generalize String.ofList (trimEndWhile isIndent lead.toList) = kept at *
      subst hcut
      have htext' : text = x ++ kept ++ cut ++ middle ++ "" ++ (tail ++ rest) := by
        simp [htext, String.append_assoc]
      have hblank : blank cut = true :=
        List.all_eq_true.mpr fun c hc => isBlank_of_isIndent (hindent c hc)
      simp only [String.utf8ByteSize_append] at hstart
      refine Span.widens_of_append htext' hblank rfl ?_ hstop.symm ?_ rfl <;>
      · simp only [String.utf8ByteSize_append]
        omega
    · have htext' : text = (x ++ lead) ++ "" ++ middle ++ "" ++ (tail ++ rest) := by
        simp [htext, String.append_assoc]
      refine Span.widens_of_append htext' rfl rfl ?_ hstop.symm ?_ rfl <;>
      · simp only [String.utf8ByteSize_append, String.utf8ByteSize_empty]
        omega

/-! ## Removing -/

@[simp] theorem covered_eq_false_of_lt {offset : Nat} (h : ∀ s ∈ spans, offset < s.start) :
    covered spans offset = false := by
  refine List.any_eq_false.mpr fun s hs => ?_
  have := h s hs
  simp only [Span.covers, Bool.and_eq_true, decide_eq_true_eq]
  omega

/-- What is left in front of the first range: none of them begins there. -/
theorem toList_slice_start (hs : s.Valid text) (hfirst : ∀ w ∈ spans, s.start ≤ w.start)
    (hpos : IsBoundary text pos) :
    (if pos < s.start then slice text pos s.start else "").toList =
      keep (fun o => (pos ≤ o && !covered (s :: spans) o) && o < s.start) text := by
  split
  · next hlt =>
    obtain ⟨t, ht⟩ := exists_slice?_eq hpos hs.isBoundary_start (Nat.le_of_lt hlt)
    rw [slice_eq_of_slice? ht, ← keep_slice ht]
    refine keep_congr fun x _ => ?_
    by_cases hx : x.1 < s.start
    · have hnone : covered (s :: spans) x.1 = false := by
        refine covered_eq_false_of_lt (List.forall_mem_cons.mpr ⟨hx, fun w hw => ?_⟩)
        exact Nat.lt_of_lt_of_le hx (hfirst w hw)
      simp [hnone]
    · simp [hx]
  · next hge =>
    refine (keep_of_forall fun x _ => ?_).symm
    simp only [Bool.and_eq_false_iff, decide_eq_false_iff_not]
    omega

/-- From the start of the first range on, to be outside all of them is to be after that one and
outside the others. -/
theorem outside_cons (hs : s.start ≤ s.stop) (offset : Nat) :
    (decide (max pos s.stop ≤ offset) && !covered spans offset) =
      ((decide (pos ≤ offset) && !covered (s :: spans) offset) && decide (s.start ≤ offset)) := by
  rw [covered_cons]
  cases covered spans offset with
  | true => simp
  | false =>
    rw [Bool.or_false, Bool.not_false, Bool.and_true, Bool.eq_iff_iff]
    simp only [Span.covers, Bool.and_eq_true, Bool.not_eq_true', Bool.and_eq_false_iff,
      decide_eq_true_eq, decide_eq_false_iff_not]
    omega

/-- What is left from an offset on are the characters outside the ranges. -/
theorem toList_cutFrom (hspans : ∀ s ∈ spans, s.Valid text)
    (hsorted : spans.Pairwise fun s w => s.start ≤ w.start) (hpos : IsBoundary text pos) :
    (cutFrom text pos spans).toList = keep (fun o => pos ≤ o && !covered spans o) text := by
  induction spans generalizing pos with
  | nil =>
    rw [cutFrom, Nat.min_eq_left hpos.le, ← keep_after hpos]
    simp [covered]
  | cons s spans ih =>
    obtain ⟨hs, hspans⟩ := List.forall_mem_cons.mp hspans
    obtain ⟨hfirst, hsorted⟩ := List.pairwise_cons.mp hsorted
    have hmax := hpos.max hs.isBoundary_stop
    rw [keep_split (fun o => pos ≤ o && !covered (s :: spans) o) s.start, cutFrom,
      String.toList_append, ih hspans hsorted hmax, toList_slice_start hs hfirst hpos]
    congr 1
    exact keep_congr fun x _ => outside_cons hs.start_le_stop x.1

theorem pairwise_mergeSort_before (spans : List Span) :
    (spans.mergeSort Span.before).Pairwise fun s w => s.start ≤ w.start := by
  have htrans (a b c : Span) : a.before b → b.before c → a.before c := by
    simp only [Span.before, Bool.or_eq_true, Bool.and_eq_true, decide_eq_true_eq, beq_iff_eq]
    omega
  have htotal (a b : Span) : (a.before b || b.before a) = true := by
    simp only [Span.before, Bool.or_eq_true, Bool.and_eq_true, decide_eq_true_eq, beq_iff_eq]
    omega
  refine (List.pairwise_mergeSort htrans htotal spans).imp fun h => ?_
  simp only [Span.before, Bool.or_eq_true, Bool.and_eq_true, decide_eq_true_eq, beq_iff_eq] at h
  omega

/-- The characters outside the widened ranges are left. -/
theorem toList_removeSpans (h : ∀ s ∈ spans, s.Valid text) :
    (removeSpans text spans).toList =
      keep (fun o => !covered (spans.map (widen text)) o) text := by
  have hperm := List.mergeSort_perm (spans.map (widen text)) Span.before
  rw [removeSpans, toList_cutFrom _ (pairwise_mergeSort_before _) (isBoundary_zero text)]
  · refine keep_congr fun x _ => ?_
    rw [covered, hperm.any_eq, covered]
    simp
  · intro w hw
    obtain ⟨s, hs, rfl⟩ := List.mem_map.mp (hperm.mem_iff.mp hw)
    exact (widens_widen (h s hs)).valid

/-! ## Marks -/

section Spare

variable {α β : Type*}

/-- The elements of `l` that are not marked by `marks`. -/
def spare (marks : List Bool) (l : List α) : List α :=
  ((marks.zip l).filter (!·.1)).map Prod.snd

@[simp] theorem spare_nil_left (l : List α) : spare [] l = [] := rfl

@[simp] theorem spare_nil_right (marks : List Bool) : spare marks ([] : List α) = [] := by
  simp [spare]

@[simp] theorem spare_true_cons (marks : List Bool) (x : α) (l : List α) :
    spare (true :: marks) (x :: l) = spare marks l := rfl

@[simp] theorem spare_false_cons (marks : List Bool) (x : α) (l : List α) :
    spare (false :: marks) (x :: l) = x :: spare marks l := rfl

@[simp] theorem spare_map (l : List β) (f : β → Bool) (g : β → α) :
    spare (l.map f) (l.map g) = (l.filter (!f ·)).map g := by
  induction l with
  | nil => rfl
  | cons x l ih => cases h : f x <;> simp [h, ih]

end Spare

/-- Which of the visible characters of `text` lie in one of the ranges `spans`. -/
def coverage (spans : List Span) (text : String) : List Bool :=
  ((offsets text).filter (!isBlank ·.2)).map (covered spans ·.1)

theorem visible_eq_map_offsets (text : String) :
    visible text = ((offsets text).filter (!isBlank ·.2)).map Prod.snd := by
  have hchars : text.toList = (offsets text).map Prod.snd := (map_snd_offsetsFrom 0 _).symm
  rw [visible, hchars, List.filter_map]
  rfl

/-- What some ranges spare are the visible ones of the characters outside them. -/
theorem spare_coverage (spans : List Span) (text : String) :
    spare (coverage spans text) (visible text) =
      (keep (fun o => !covered spans o) text).filter (!isBlank ·) := by
  rw [visible_eq_map_offsets, coverage, spare_map, keep, List.filter_map, List.filter_filter,
    List.filter_filter]
  simp only [Function.comp_def, Bool.and_comm]

/-- Of a visible character the widened `spans` cover no more than `spans` do. -/
theorem covered_map_widen (h : ∀ s ∈ spans, s.Valid text) {x : Nat × Char} (hx : x ∈ offsets text)
    (hvisible : isBlank x.2 = false) :
    covered (spans.map (widen text)) x.1 = covered spans x.1 := by
  rw [covered, covered, List.any_map, Bool.eq_iff_iff, List.any_eq_true, List.any_eq_true]
  refine exists_congr fun s => and_congr_right fun hs => ?_
  rw [Function.comp_apply]
  exact (widens_widen (h s hs)).covers_iff hx hvisible

/-- The visible characters outside the ranges are left. -/
theorem visible_removeSpans (h : ∀ s ∈ spans, s.Valid text) :
    visible (removeSpans text spans) = spare (coverage spans text) (visible text) := by
  rw [spare_coverage, visible, toList_removeSpans h, keep, keep, List.filter_map, List.filter_map,
    List.filter_filter, List.filter_filter]
  congr 1
  refine List.filter_congr fun x hx => ?_
  rw [Function.comp_apply]
  by_cases hvisible : isBlank x.2 = true
  · simp [hvisible]
  · rw [covered_map_widen h hx (by simpa using hvisible)]

end CodeAtlas
