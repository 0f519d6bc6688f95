import CodeAtlas.Proofs.Cleanup.Unwrapping

/-!
# A namespace and the text around it

A namespace with a body in braces cuts its text into what stands in front of it, its header, what
stands between the braces, and what follows. Unwrapping puts the first, third and fourth part
together. It leaves out white space at the seams and in front of the lines, so what it gives is
never longer than these parts.

## Main definitions

* `Tree.InBraces`, `Tree.Wraps`: a node in braces, and one with a body in braces.
* `innerText`: what stands between the braces.
* `dropBlankLead`, `dropBreakAfter`: what is left in front of the body and after it.
* `Tree.wrapperSpans`: the header of a namespace with the opening brace, and the closing brace.

## Main statements

* `Tree.Wraps.unwrapNamespace?_eq`: what a namespace is replaced by.
* `isSome_unwrapNamespace?_iff`: which namespaces are replaced.
* `visible_of_wraps`: the visible characters that are left.
* `visible_unwrapNamespace?`: the visible characters outside the wrapper are left.
* `Tree.Wraps.size_lt`: what is left is shorter than the text.
-/
namespace CodeAtlas

open Text

variable {text next front back inner s : String} {t body : Tree}

/-! ## Parts of the text -/

theorem slice?_of_hasAscii {offset : Nat} {c : Char} (h : hasAscii text offset c = true) :
    slice? text offset (offset + 1) = some (String.singleton c) := by
  simpa [hasAscii] using h

/-- The first byte of `body` is an opening and its last byte a closing brace of `text`. -/
structure Tree.InBraces (text : String) (body : Tree) : Prop where
  hasAscii_start : hasAscii text body.start '\x7b' = true
  hasAscii_stop : hasAscii text (body.stop - 1) '\x7d' = true

/-- The node `t` starts at a boundary of `text` and has the `body` in braces, which is not empty. -/
structure Tree.Wraps (text : String) (t body : Tree) : Prop where
  field?_eq : t.field? "body" = some body
  isBoundary_start : IsBoundary text t.start
  start_le : t.start ≤ body.start
  length_pos : 0 < body.length
  inBraces : body.InBraces text

/-- What stands between the braces of `body`. -/
def innerText (text : String) (body : Tree) : String :=
  slice text (body.start + 1) (body.stop - 1)

/-- The text `front` without its last line, if that is blank. -/
def dropBlankLead (front : String) : String :=
  if blank (lastLine front) then
    before front (front.utf8ByteSize - (lastLine front).utf8ByteSize)
  else front

/-- The text `back` that follows the body `inner`. It loses its first line terminator if the body
ends with one. -/
def dropBreakAfter (inner back : String) : String :=
  if inner.toList.getLast? == some '\n' then (dropLeadingBreak? back).getD back else back

/-- The braces are different ones. -/
theorem Tree.InBraces.ne (h : body.InBraces text) : body.start ≠ body.stop - 1 := by
  have hopen := slice?_of_hasAscii h.hasAscii_start
  have hclose := slice?_of_hasAscii h.hasAscii_stop
  intro heq
  rw [← heq, hopen] at hclose
  exact absurd hclose (by decide)

namespace Tree.Wraps

theorem stop_eq (h : t.Wraps text body) : body.stop - 1 + 1 = body.stop := by
  have hlength := h.length_pos
  have hstop : body.stop = body.start + body.length := rfl
  omega

theorem start_lt (h : t.Wraps text body) : body.start + 1 ≤ body.stop - 1 := by
  have hne := h.inBraces.ne
  have hlength := h.length_pos
  have hstop : body.stop = body.start + body.length := rfl
  omega

theorem slice?_inner (h : t.Wraps text body) :
    slice? text (body.start + 1) (body.stop - 1) = some (innerText text body) := by
  obtain ⟨inner, hinner⟩ :=
    exists_slice?_eq (isBoundary_right (slice?_of_hasAscii h.inBraces.hasAscii_start))
    (isBoundary_left (slice?_of_hasAscii h.inBraces.hasAscii_stop)) h.start_lt
  rw [innerText, slice_eq_of_slice? hinner, hinner]

theorem isBoundary_stop (h : t.Wraps text body) : IsBoundary text body.stop := by
  have hstop := isBoundary_right (slice?_of_hasAscii h.inBraces.hasAscii_stop)
  rwa [h.stop_eq] at hstop

theorem size_front (h : t.Wraps text body) : (before text t.start).utf8ByteSize = t.start := by
  simpa using size_of_slice? (slice?_before h.isBoundary_start)

end Tree.Wraps

/-! ## What a namespace is replaced by -/

/-- A text without its last line is what stands in front of that line. -/
theorem dropBlankLead_eq (front : String) :
    ∃ l, front = l ++ lastLine front ∧ (l = "" ∨ ∃ l', l = l' ++ "\n") ∧
      '\n' ∉ (lastLine front).toList ∧
      dropBlankLead front = if blank (lastLine front) then l else front := by
  obtain ⟨l, hl, hends, hfeed⟩ := exists_eq_append_lastLine front
  refine ⟨l, hl, hends, hfeed, ?_⟩
  have hsize := congrArg String.utf8ByteSize hl
  rw [String.utf8ByteSize_append] at hsize
  rw [dropBlankLead, hsize, Nat.add_sub_cancel, before_eq hl]

theorem Tree.Wraps.before_lineStart (h : t.Wraps text body) :
    before text (t.start - (lastLine (before text t.start)).utf8ByteSize) =
      before (before text t.start)
        ((before text t.start).utf8ByteSize - (lastLine (before text t.start)).utf8ByteSize) := by
  have hsize := h.size_front
  obtain ⟨x, rest, htext, hx⟩ := h.isBoundary_start
  have hfront : before text t.start = x := by
    rw [← hx]
    exact before_eq htext
  rw [hfront] at hsize ⊢
  obtain ⟨l, hl, -⟩ := exists_eq_append_lastLine x
  have hline : t.start - (lastLine x).utf8ByteSize = l.utf8ByteSize := by
    have := congrArg String.utf8ByteSize hl
    rw [String.utf8ByteSize_append] at this
    omega
  have htext' : text = l ++ (lastLine x ++ rest) := by
    rw [htext, ← String.append_assoc, ← hl]
  rw [hsize, hline, before_eq htext', before_eq hl]

/-- A namespace is replaced by its body, moved out to the margin. -/
theorem Tree.Wraps.unwrapNamespace?_eq (h : t.Wraps text body) :
    unwrapNamespace? text t = some (dropBlankLead (before text t.start) ++
      outdent (bodyText (innerText text body)) ++
      dropBreakAfter (outdent (bodyText (innerText text body))) (after text body.stop)) := by
  have hlength := h.length_pos
  have hstop : body.stop ≠ 0 := by
    have : body.stop = body.start + body.length := rfl
    omega
  rw [unwrapNamespace?, h.field?_eq]
  simp only [Option.bind_eq_bind, Option.bind_some]
  rw [if_neg (by simp [hstop, h.inBraces.hasAscii_start, h.inBraces.hasAscii_stop]),
    h.before_lineStart]
  rfl

/-- A namespace is replaced if and only if it has a body in braces. -/
theorem isSome_unwrapNamespace?_iff : (unwrapNamespace? text t).isSome = true ↔
    ∃ body, t.field? "body" = some body ∧ body.InBraces text := by
  cases hbody : t.field? "body" with
  | none => simp [unwrapNamespace?, hbody]
  | some body =>
    rw [unwrapNamespace?, hbody]
    simp only [Option.bind_eq_bind, Option.bind_some, Option.some.injEq, exists_eq_left']
    split
    · next h =>
      refine iff_of_false (by simp) fun hbraces => ?_
      have hne := hbraces.ne
      have hstop : body.stop = body.start + body.length := rfl
      simp [hbraces.hasAscii_start, hbraces.hasAscii_stop] at h
      omega
    · next h =>
      simp only [Bool.or_eq_true, Bool.not_eq_true', decide_eq_true_eq, not_or,
        Bool.not_eq_false] at h
      exact iff_of_true rfl ⟨h.1.2, h.2⟩

/-- A namespace that is replaced has a body in braces. -/
theorem Tree.exists_wraps (hstart : IsBoundary text t.start)
    (hinside : ∀ c ∈ t.children, t.start ≤ c.start)
    (hbody : ∀ body ∈ t.field? "body", 0 < body.length)
    (hnext : unwrapNamespace? text t = some next) : ∃ body, t.Wraps text body := by
  have hsome : (unwrapNamespace? text t).isSome = true := by simp [hnext]
  obtain ⟨body, hfield, hbraces⟩ := isSome_unwrapNamespace?_iff.mp hsome
  exact ⟨body, hfield, hstart, hinside body (mem_children_of_field? hfield), hbody body hfield,
    hbraces⟩

/-- The visible characters in front of a namespace, between the braces of its body and after it are
left. -/
theorem visible_of_wraps (h : t.Wraps text body) (hnext : unwrapNamespace? text t = some next) :
    visible next = visible (before text t.start) ++ visible (innerText text body) ++
      visible (after text body.stop) := by
  rw [h.unwrapNamespace?_eq] at hnext
  obtain rfl := Option.some.inj hnext
  have hfront : visible (dropBlankLead (before text t.start)) = visible (before text t.start) := by
    obtain ⟨l, hl, -, -, hdrop⟩ := dropBlankLead_eq (before text t.start)
    rw [hdrop]
    split
    · next hblank => exact visible_of_lastLine_blank hl hblank
    · rfl
  have hback (inner : String) : visible (dropBreakAfter inner (after text body.stop)) =
      visible (after text body.stop) := by
    unfold dropBreakAfter
    split
    · exact visible_getD_dropLeadingBreak? rfl
    · rfl
  rw [visible_append, visible_append, hfront, hback, visible_outdent, visible_bodyText]

/-- The header of the namespace `t` with the opening brace of its body, and the closing brace. -/
def Tree.wrapperSpans (t : Tree) : List Span :=
  match t.field? "body" with
  | none => []
  | some body => [⟨t.start, body.start + 1⟩, ⟨body.stop - 1, body.stop⟩]

/-- Outside the ranges from `a` to `b` and from `c` to `d` lie the parts of `text` in front of them,
between them and after them. -/
theorem keep_outside {a b c d : Nat} (hab : a ≤ b) (hbc : b ≤ c) (hcd : c ≤ d)
    (ha : IsBoundary text a) (hb : IsBoundary text b) (hc : IsBoundary text c)
    (hd : IsBoundary text d) :
    keep (fun o => !covered [⟨a, b⟩, ⟨c, d⟩] o) text =
      (before text a).toList ++ (slice text b c).toList ++ (after text d).toList := by
  obtain ⟨front, hfront⟩ := exists_slice?_eq (isBoundary_zero text) ha (Nat.zero_le a)
  obtain ⟨middle, hmiddle⟩ := exists_slice?_eq hb hc hbc
  have hcongr {p q : Nat → Bool} (hpq : ∀ o, p o = true ↔ q o = true) :
      keep p text = keep q text :=
    keep_congr fun x _ => Bool.eq_iff_iff.mpr (hpq x.1)
  rw [before, slice_eq_of_slice? hfront, slice_eq_of_slice? hmiddle, ← keep_slice hfront,
    ← keep_slice hmiddle, ← keep_after hd, keep_split _ c, keep_split _ a]
  -- each of the three parts is kept whole
  refine congrArg₂ _ (congrArg₂ _ (hcongr ?_) (hcongr ?_)) (hcongr ?_)
  all_goals
    intro o
    simp only [covered, Span.covers, List.any_cons, List.any_nil, Bool.or_false, Bool.and_eq_true,
      Bool.not_eq_true', Bool.or_eq_false_iff, Bool.and_eq_false_iff, decide_eq_true_eq,
      decide_eq_false_iff_not]
    omega

/-- The visible characters outside the wrapper are left. -/
theorem visible_unwrapNamespace? (h : t.WellFormed text)
    (hbody : ∀ body ∈ t.field? "body", 0 < body.length)
    (hnext : unwrapNamespace? text t = some next) :
    visible next = spare (coverage t.wrapperSpans text) (visible text) := by
  obtain ⟨body, hwraps⟩ := Tree.exists_wraps h.isBoundary_start
    (fun c hc => h.start_le hc) hbody hnext
  have hclose := slice?_of_hasAscii hwraps.inBraces.hasAscii_stop
  have hlt := hwraps.start_lt
  have hstart := hwraps.start_le
  rw [hwraps.stop_eq] at hclose
  have houtside := keep_outside (by omega) hlt (by omega) h.isBoundary_start
    (isBoundary_right (slice?_of_hasAscii hwraps.inBraces.hasAscii_start)) (isBoundary_left hclose)
    (isBoundary_right hclose)
  rw [Tree.wrapperSpans, hwraps.field?_eq, spare_coverage, houtside, List.filter_append,
    List.filter_append, visible_of_wraps hwraps hnext]
  rfl

/-! ## The size of what is left -/

theorem size_le_of_sublist {cs ds : List Char} (h : cs.Sublist ds) :
    (String.ofList cs).utf8ByteSize ≤ (String.ofList ds).utf8ByteSize := by
  induction h with
  | slnil => exact Nat.le_refl _
  | cons d _ ih =>
    rw [utf8ByteSize_ofList_cons]
    omega
  | cons_cons d _ ih =>
    rw [utf8ByteSize_ofList_cons, utf8ByteSize_ofList_cons]
    omega

theorem size_le (h : s.toList.Sublist inner.toList) : s.utf8ByteSize ≤ inner.utf8ByteSize := by
  have := size_le_of_sublist h
  rwa [String.ofList_toList, String.ofList_toList] at this

theorem sublist_dropLeadingBreak? (h : dropLeadingBreak? inner = some s) :
    s.toList.Sublist inner.toList := by
  unfold dropLeadingBreak? at h
  split at h
  · next rest hs =>
    obtain rfl := Option.some.inj h
    rw [hs, String.toList_ofList]
    exact .cons _ (.cons _ (.refl _))
  · next rest hs =>
    obtain rfl := Option.some.inj h
    rw [hs, String.toList_ofList]
    exact .cons _ (.refl _)
  · simp at h

theorem sublist_bodyText (inner : String) : (bodyText inner).toList.Sublist inner.toList := by
  have hlast (s : String) : (dropBlankLastLine s).toList.Sublist s.toList := by
    unfold dropBlankLastLine
    split
    · rw [String.toList_ofList]
      exact List.take_sublist _ _
    · exact .refl _
  apply (hlast _).trans
  cases hbreak : dropLeadingBreak? inner with
  | none =>
    rw [Option.getD_none, dropIndent, String.toList_ofList]
    exact List.dropWhile_sublist _
  | some s => exact sublist_dropLeadingBreak? hbreak

theorem sublist_outdent (text : String) : (outdent text).toList.Sublist text.toList := by
  have hline (width : Nat) (seg : List Char) : (outdentLine width seg).Sublist seg := by
    unfold outdentLine
    split
    · exact List.dropWhile_sublist _
    · exact List.drop_sublist _ _
  have hlines (width : Nat) (segs : List (List Char)) :
      (segs.map (outdentLine width)).flatten.Sublist segs.flatten := by
    induction segs with
    | nil => exact .refl _
    | cons seg segs ih => exact (hline width seg).append ih
  have := hlines (commonIndent text) (segmentChars text.toList)
  rwa [flatten_segmentChars, ← toList_outdent] at this

/-- What a namespace is replaced by is shorter than the text: the braces go. -/
theorem Tree.Wraps.size_lt (h : t.Wraps text body) (hnext : unwrapNamespace? text t = some next) :
    next.utf8ByteSize < text.utf8ByteSize := by
  rw [h.unwrapNamespace?_eq] at hnext
  obtain rfl := Option.some.inj hnext
  have hfront : (dropBlankLead (before text t.start)).utf8ByteSize ≤
      (before text t.start).utf8ByteSize := by
    obtain ⟨l, hl, -, -, hdrop⟩ := dropBlankLead_eq (before text t.start)
    have hsize := congrArg String.utf8ByteSize hl
    rw [String.utf8ByteSize_append] at hsize
    rw [hdrop]
    split <;> omega
  have hback (inner : String) : (dropBreakAfter inner (after text body.stop)).utf8ByteSize ≤
      (after text body.stop).utf8ByteSize := by
    unfold dropBreakAfter
    split
    · cases hbreak : dropLeadingBreak? (after text body.stop) with
      | none => exact Nat.le_refl _
      | some s => exact size_le (sublist_dropLeadingBreak? hbreak)
    · exact Nat.le_refl _
  have hback := hback (outdent (bodyText (innerText text body)))
  have hinner := size_le ((sublist_outdent _).trans (sublist_bodyText (innerText text body)))
  have hsizeFront := h.size_front
  have hsizeInner := size_of_slice? h.slice?_inner
  have hsizeBack := size_of_slice? (slice?_after h.isBoundary_stop)
  have hstart := h.start_le
  have hstop := h.stop_eq
  rw [String.utf8ByteSize_append, String.utf8ByteSize_append]
  omega

end CodeAtlas
