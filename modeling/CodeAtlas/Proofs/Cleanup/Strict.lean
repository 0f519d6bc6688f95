import CodeAtlas.Proofs.Cleanup.Body
import CodeAtlas.Proofs.Text.Edge

/-!
# Cutting a text at readable ranges only

The passes that cut a text read ranges of its bytes, and a range that is not readable gives them the
empty text. The functions here cut in the same way but have no result once they read such a range.
They have one wherever the ranges that they are given are valid, and it is the same.

## Main definitions

* `widen?`, `cutFrom?`, `removeSpans?`: removing ranges.
* `outdent?`: moving a text to the margin.
* `unwrapBody?`: replacing a namespace by its body.

## Main statements

* `removeSpans?_eq`: removing valid ranges reads readable ranges only.
* `outdent?_eq`: so does moving a text to the margin.
* `Tree.Wraps.unwrapBody?_eq`: so does replacing a namespace by its body.
-/
namespace CodeAtlas

open Text

variable {text line s : String} {t body : Tree} {spans : List Span} {pos : Nat}

/-- A list of which every element gives a result. -/
theorem mapM_eq_some {α β : Type*} {l : List α} {f : α → Option β} {g : α → β}
    (h : ∀ x ∈ l, f x = some (g x)) : l.mapM f = some (l.map g) := by
  induction l with
  | nil => rfl
  | cons x l ih =>
    rw [List.mapM_cons, h x (by simp), ih fun y hy => h y (by simp [hy])]
    rfl

/-! ## Removing ranges -/

/-- Widens the range `s` that is to be removed, if all that is read can be read. -/
def widen? (text : String) (s : Span) : Option Span := do
  let front ← slice? text 0 s.start
  let back ← slice? text s.stop text.utf8ByteSize
  let first := s.start - (lastLine front).utf8ByteSize
  let last := s.stop + (firstLine back).utf8ByteSize
  let lead ← slice? text first s.start
  let tail ← slice? text s.stop last
  if blank lead && blank tail then some ⟨first, min (last + 1) text.utf8ByteSize⟩
  else if blank tail then
    some ⟨first + (String.ofList (trimEndWhile isIndent lead.toList)).utf8ByteSize, s.stop⟩
  else some s

/-- The text from `pos` on without the given ranges, which are in order. -/
def cutFrom? (text : String) (pos : Nat) : List Span → Option String
  | [] => slice? text (min pos text.utf8ByteSize) text.utf8ByteSize
  | s :: rest =>
    (if pos < s.start then slice? text pos s.start else some "").bind fun part =>
      (cutFrom? text (max pos s.stop) rest).map (part ++ ·)

/-- The `text` without the ranges `spans`, if all that is read can be read. -/
def removeSpans? (text : String) (spans : List Span) : Option String := do
  let wide ← spans.mapM (widen? text)
  cutFrom? text 0 (wide.mergeSort Span.before)

@[simp] theorem widen?_eq {s : Span} (h : s.Valid text) : widen? text s = some (widen text s) := by
  have hstart := slice?_lineStart h.isBoundary_start
  have hstop := slice?_lineStop h.isBoundary_stop
  -- the trimmed lead is a part of the lead, which is a part of what stands in front
  have hlead : (lastLine (before text s.start)).utf8ByteSize ≤ s.start := by
    obtain ⟨l, hl, -⟩ := exists_eq_append_lastLine (before text s.start)
    have hfront := size_of_slice? (slice?_before h.isBoundary_start)
    have := congrArg String.utf8ByteSize hl
    rw [String.utf8ByteSize_append] at this
    omega
  have hkept : (String.ofList (trimEndWhile isIndent
      (lastLine (before text s.start)).toList)).utf8ByteSize ≤
        (lastLine (before text s.start)).utf8ByteSize := by
    obtain ⟨cut, hcut, -⟩ := exists_eq_trimEndWhile_append isIndent (lastLine (before text s.start))
    have := congrArg String.utf8ByteSize hcut
    rw [String.utf8ByteSize_append] at this
    omega
  rw [lineStart] at hstart
  rw [lineStop] at hstop
  rw [widen?, slice?_before h.isBoundary_start, slice?_after h.isBoundary_stop]
  simp only [Option.bind_eq_bind, Option.bind_some, hstart, hstop, widen]
  cases htail : blank (firstLine (after text s.stop)) with
  | false => simp only [Bool.and_false, Bool.false_eq_true, if_false]
  | true =>
    cases hblank : blank (lastLine (before text s.start)) with
    | true => simp only [Bool.and_true, if_true]
    | false =>
      simp only [Bool.and_true, Bool.false_eq_true, if_false, if_true, Option.some.injEq,
        Span.mk.injEq, and_true]
      omega

theorem cutFrom?_eq (hspans : ∀ s ∈ spans, s.Valid text) (hpos : IsBoundary text pos) :
    cutFrom? text pos spans = some (cutFrom text pos spans) := by
  induction spans generalizing pos with
  | nil => rw [cutFrom?, cutFrom, Nat.min_eq_left hpos.le, slice?_after hpos]
  | cons s spans ih =>
    have hs := hspans s (by simp)
    have hmax := hpos.max hs.isBoundary_stop
    have hpart : (if pos < s.start then slice? text pos s.start else some "") =
        some (if pos < s.start then slice text pos s.start else "") := by
      split
      · next hlt =>
        obtain ⟨part, hpart⟩ := exists_slice?_eq hpos hs.isBoundary_start (Nat.le_of_lt hlt)
        rw [slice_eq_of_slice? hpart, hpart]
      · rfl
    rw [cutFrom?, hpart, ih (fun w hw => hspans w (by simp [hw])) hmax, cutFrom]
    rfl

/-- Removing valid ranges reads readable ranges only. -/
@[simp] theorem removeSpans?_eq (h : ∀ s ∈ spans, s.Valid text) :
    removeSpans? text spans = some (removeSpans text spans) := by
  rw [removeSpans?, mapM_eq_some fun s hs => widen?_eq (h s hs), removeSpans]
  refine cutFrom?_eq (fun w hw => ?_) (isBoundary_zero text)
  obtain ⟨s, hs, rfl⟩ := List.mem_map.mp (List.mem_mergeSort.mp hw)
  exact (widens_widen (h s hs)).valid

/-! ## Moving a text to the margin -/

/-- Removes the indentation that all lines of `text` share, if all that is read can be read. -/
def outdent? (text : String) : Option String :=
  ((segments text).mapM fun line =>
    if blank line then some (dropIndent line)
    else slice? line (min (commonIndent text) line.utf8ByteSize) line.utf8ByteSize).map String.join

/-- Each character that indents a line has one byte. -/
@[simp] theorem utf8ByteSize_of_isIndent {cs : List Char} (h : ∀ c ∈ cs, isIndent c = true) :
    (String.ofList cs).utf8ByteSize = cs.length := by
  induction cs with
  | nil => rfl
  | cons c cs ih =>
    have hc : c.utf8Size = 1 := by
      have hindent := h c (by simp)
      rw [isIndent, Bool.or_eq_true, beq_iff_eq, beq_iff_eq] at hindent
      rcases hindent with rfl | rfl <;> decide
    rw [utf8ByteSize_ofList_cons, hc, ih fun d hd => h d (by simp [hd]), List.length_cons,
      Nat.add_comm]

/-- Columns of the indentation are bytes of the line. -/
theorem slice?_drop {width : Nat} (h : width ≤ indentWidth line) :
    slice? line (min width line.utf8ByteSize) line.utf8ByteSize =
      some (String.ofList (line.toList.drop width)) := by
  have hindent : ∀ c ∈ line.toList.take width, isIndent c = true := by
    intro c hc
    rw [← List.takeWhile_append_dropWhile (p := isIndent) (l := line.toList),
      List.take_append_of_le_length h] at hc
    exact List.mem_takeWhile_imp (List.mem_of_mem_take hc)
  have hline : String.ofList (line.toList.take width) ++ String.ofList (line.toList.drop width) =
      line := by
    rw [← String.ofList_append, List.take_append_drop, String.ofList_toList]
  have hlength : width ≤ line.toList.length := Nat.le_trans h (List.takeWhile_prefix _).length_le
  have hwidth : (String.ofList (line.toList.take width)).utf8ByteSize = width := by
    rw [utf8ByteSize_of_isIndent hindent, List.length_take, Nat.min_eq_left hlength]
  have hsize := congrArg String.utf8ByteSize hline
  rw [String.utf8ByteSize_append, hwidth] at hsize
  rw [Nat.min_eq_left (by omega)]
  exact slice?_eq_some_iff.mpr ⟨String.ofList (line.toList.take width), "",
    by rw [hline, String.append_empty], hwidth, hsize⟩

/-- Moving a text to the margin reads readable ranges only. -/
@[simp] theorem outdent?_eq (text : String) : outdent? text = some (outdent text) := by
  have hlines : ∀ line ∈ segments text,
      (if blank line then some (dropIndent line)
        else slice? line (min (commonIndent text) line.utf8ByteSize) line.utf8ByteSize) =
      some (if blank line then dropIndent line
        else String.ofList (line.toList.drop (commonIndent text))) := by
    intro line hline
    split
    · rfl
    · next hblank =>
      obtain ⟨seg, hseg, rfl⟩ := List.mem_map.mp hline
      refine slice?_drop ?_
      rw [indentWidth, String.toList_ofList]
      exact commonIndent_le hseg (by simpa using hblank)
  rw [outdent?, mapM_eq_some hlines, outdent]
  rfl

/-! ## Replacing a namespace by its body -/

/-- The text `s` without its last line if that is blank, and if all that is read can be read. -/
def dropBlankEnd? (s : String) : Option String := do
  let last ← slice? s (s.utf8ByteSize - (lastLine s).utf8ByteSize) s.utf8ByteSize
  if blank last then slice? s 0 (s.utf8ByteSize - (lastLine s).utf8ByteSize) else some s

/-- The text `inner` of a namespace body without what stands on the lines of its braces, if all that
is read can be read. -/
def bodyText? (inner : String) : Option String :=
  let inner := (dropLeadingBreak? inner).getD (dropIndent inner)
  if inner.toList.contains '\n' then dropBlankEnd? inner else some inner

/-- The `text` with the namespace `t` replaced by its `body`, if all that is read can be read. -/
def unwrapBody? (text : String) (t body : Tree) : Option String := do
  let inner ← slice? text (body.start + 1) (body.stop - 1)
  let inner ← bodyText? inner
  let inner ← outdent? inner
  let front ← slice? text 0 t.start
  let front ← dropBlankEnd? front
  let back ← slice? text body.stop text.utf8ByteSize
  some (front ++ inner ++ dropBreakAfter inner back)

@[simp] theorem dropBlankEnd?_eq (s : String) : dropBlankEnd? s = some (dropBlankLead s) := by
  obtain ⟨l, hl, -⟩ := exists_eq_append_lastLine s
  have hsize := congrArg String.utf8ByteSize hl
  rw [String.utf8ByteSize_append] at hsize
  have hlast : slice? s (s.utf8ByteSize - (lastLine s).utf8ByteSize) s.utf8ByteSize =
      some (lastLine s) :=
    slice?_eq_some_iff.mpr ⟨l, "", by rw [← hl, String.append_empty], by omega, by omega⟩
  rw [dropBlankEnd?, hlast, dropBlankLead]
  simp only [Option.bind_eq_bind, Option.bind_some]
  split
  · exact slice?_before (isBoundary_left hlast)
  · rfl

@[simp] theorem bodyText?_eq (inner : String) : bodyText? inner = some (bodyText inner) := by
  rw [bodyText?, bodyText]
  generalize (dropLeadingBreak? inner).getD (dropIndent inner) = s
  obtain ⟨l, hl, -, -, hdrop⟩ := dropBlankLastLine_eq s
  obtain ⟨l', hl', -, -, hlead⟩ := dropBlankLead_eq s
  obtain rfl : l = l' := String.append_left_inj (lastLine s) |>.mp (hl.symm.trans hl')
  rw [dropBlankEnd?_eq, hlead, hdrop]
  cases s.toList.contains '\n' with
  | true => rw [if_pos rfl, Bool.true_and]
  | false => rw [if_neg Bool.false_ne_true, Bool.false_and, if_neg Bool.false_ne_true]

/-- Replacing a namespace by its body reads readable ranges only. -/
theorem Tree.Wraps.unwrapBody?_eq (h : t.Wraps text body) :
    unwrapBody? text t body = unwrapNamespace? text t := by
  rw [unwrapBody?, h.slice?_inner, slice?_before h.isBoundary_start,
    slice?_after h.isBoundary_stop, h.unwrapNamespace?_eq]
  simp only [Option.bind_eq_bind, Option.bind_some, bodyText?_eq, outdent?_eq, dropBlankEnd?_eq]

end CodeAtlas
