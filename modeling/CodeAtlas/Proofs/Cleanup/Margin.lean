import CodeAtlas.Proofs.Cleanup.Body
import CodeAtlas.Proofs.Text.Segment

/-!
# The lines of an unwrapped body

A line of the body of a namespace that shares its line with no brace is found again in what the
namespace is replaced by. All these lines lose the same columns, so code keeps its place relative to
the code of the other lines. There is one exception. Where something stands in front of the
namespace on its line and the opening brace ends a line, the break behind the brace is left out, and
the first line of the body goes on the line of what stands in front.

## Main definitions

* `OwnLine`: a line of a body with which no brace shares its line.
* `KeepIndent`: two lines hold their code as far apart as before.
* `seam`: what stands in front of a line of the body after unwrapping.

## Main statements

* `Tree.Wraps.getElem?_segments`: where the lines of the body are found again.
* `keepIndent_iff`: lines that lose the same columns hold their code as far apart as before.
* `unwrapNamespace?_keeps_code`: what unwrapping keeps of the code and of its layout.
-/
namespace CodeAtlas

open Text

variable {text next front inner s line x a b : String} {t body : Tree} {i width : Nat}

/-! ## Indentation -/

theorem length_eq_indentWidth_add (line : String) :
    line.length = indentWidth line + (dropIndent line).length := by
  rw [indentWidth, dropIndent, String.length_ofList, ← List.length_append,
    List.takeWhile_append_dropWhile, String.length_toList]

/-- The code of a line is at the end of what is left of the line without some of its indentation. -/
theorem dropIndent_isSuffix (h : width ≤ indentWidth line) :
    (dropIndent line).toList <:+ line.toList.drop width := by
  have hsplit := List.takeWhile_append_dropWhile (p := isIndent) (l := line.toList)
  rw [indentWidth] at h
  refine ⟨(line.toList.takeWhile isIndent).drop width, ?_⟩
  rw [dropIndent, String.toList_ofList, ← List.drop_append_of_le_length h, hsplit]

/-- The code of `a` and `b` is the end of `a'` and `b'`, and the columns at which it begins are as
far apart as before. -/
def KeepIndent (a b a' b' : String) : Prop :=
  (dropIndent a).toList <:+ a'.toList ∧ (dropIndent b).toList <:+ b'.toList ∧
    a'.length - (dropIndent a).length + indentWidth b =
      b'.length - (dropIndent b).length + indentWidth a

instance (a b a' b' : String) : Decidable (KeepIndent a b a' b') :=
  inferInstanceAs (Decidable (_ ∧ _ ∧ _))

/-- Lines that lose the same columns hold their code as far apart as before, unless something is put
in front of one of them. -/
theorem keepIndent_iff (ha : width ≤ indentWidth a) (hb : width ≤ indentWidth b) :
    KeepIndent a b (x ++ String.ofList (a.toList.drop width))
      (String.ofList (b.toList.drop width)) ↔ x = "" := by
  have hsuffix : (dropIndent a).toList <:+ (x ++ String.ofList (a.toList.drop width)).toList := by
    rw [String.toList_append, String.toList_ofList]
    exact (dropIndent_isSuffix ha).trans (List.suffix_append _ _)
  have hlengthA := length_eq_indentWidth_add a
  have hlengthB := length_eq_indentWidth_add b
  have hcolumns : (x ++ String.ofList (a.toList.drop width)).length - (dropIndent a).length +
        indentWidth b =
      (String.ofList (b.toList.drop width)).length - (dropIndent b).length + indentWidth a ↔
        x.length = 0 := by
    rw [String.length_append, String.length_ofList, String.length_ofList, List.length_drop,
      List.length_drop, String.length_toList, String.length_toList]
    omega
  have hb : (dropIndent b).toList <:+ (String.ofList (b.toList.drop width)).toList := by
    rw [String.toList_ofList]
    exact dropIndent_isSuffix hb
  rw [KeepIndent, hcolumns, String.length_eq_zero_iff]
  exact ⟨fun h => h.2.2, fun h => ⟨hsuffix, hb, h⟩⟩

/-! ## Lines that keep their line feeds -/

/-- What is left at the end of a line with a line feed is one too. -/
theorem Text.Terminated.of_isSuffix {seg rest : List Char} (h : Terminated seg)
    (hrest : rest <:+ seg) (hne : rest ≠ []) : Terminated rest := by
  obtain ⟨line, hline, rfl⟩ := h
  obtain ⟨lead, hlead⟩ := hrest
  rcases List.eq_nil_or_concat rest with rfl | ⟨init, c, rfl⟩
  · exact absurd rfl hne
  · rw [List.concat_eq_append, ← List.append_assoc] at hlead
    obtain ⟨rfl, hc⟩ := List.append_inj' hlead rfl
    obtain rfl := List.singleton_inj.mp hc
    exact ⟨init, fun hmem => hline (List.mem_append_right _ hmem), List.concat_eq_append ..⟩

/-- Moving a line to the margin leaves its line feed. -/
theorem Text.Terminated.outdentLine {seg : List Char} (h : Terminated seg)
    (hseg : seg ∈ segmentChars text.toList) :
    Terminated (outdentLine (commonIndent text) seg) := by
  unfold CodeAtlas.outdentLine
  split
  · apply h.of_isSuffix (List.dropWhile_suffix _)
    obtain ⟨line, -, rfl⟩ := h
    intro hnil
    exact absurd (List.dropWhile_eq_nil_iff.mp hnil '\n' (by simp)) (by decide)
  · next hblank =>
    apply h.of_isSuffix (List.drop_suffix _ _)
    intro hnil
    have hvisible := filter_drop_of_le (commonIndent_le hseg (by simpa using hblank))
    rw [hnil] at hvisible
    exact hblank (by simpa [blank] using hvisible.symm)

/-- A line that keeps its line feed when the text is moved to the margin. -/
theorem getElem?_segments_outdent (h : (segments text)[i]? = some line)
    (hline : Terminated line.toList) (hblank : blank line = false) (r : String) :
    (segments (outdent text ++ r))[i]? =
      some (String.ofList (line.toList.drop (commonIndent text))) := by
  rw [segments, List.getElem?_map] at h
  obtain ⟨seg, hseg, rfl⟩ := Option.map_eq_some_iff.mp h
  rw [String.toList_ofList] at hline ⊢
  have hrow := getElem?_segmentChars_flatten_map (segmented_segmentChars text.toList)
    (fun seg hseg h => h.outdentLine hseg) hseg hline r.toList
  rw [segments, List.getElem?_map, String.toList_append, toList_outdent, hrow, outdentLine,
    if_neg (by simp [hblank])]
  rfl

/-! ## Lines of a body -/

/-- The `line` with number `i` of the text `inner` between two braces is not blank, and neither of
the braces is on it. -/
structure OwnLine (inner : String) (i : Nat) (line : String) : Prop where
  pos : 0 < i
  getElem?_eq : (segments inner)[i]? = some line
  terminated : Terminated line.toList
  not_blank : blank line = false

/-- The number of line feeds at the front of `inner` that are left out behind an opening brace. -/
def breaksBehind (inner : String) : Nat :=
  if (dropLeadingBreak? inner).isSome then 1 else 0

theorem exists_segments_eq_cons (h : dropLeadingBreak? inner = some s) :
    ∃ first, segments inner = first :: segments s := by
  unfold dropLeadingBreak? at h
  split at h
  · next rest hs =>
    obtain rfl := Option.some.inj h
    exact ⟨"\r\n", by simp [segments, hs, segmentChars]⟩
  · next rest hs =>
    obtain rfl := Option.some.inj h
    exact ⟨"\n", by simp [segments, hs, segmentChars]⟩
  · simp at h

/-- Indentation in front of a text belongs to its first line. -/
theorem getElem?_segments_dropIndent (hi : 0 < i) (h : (segments inner)[i]? = some line) :
    (segments (dropIndent inner))[i]? = some line := by
  have hsplit := List.takeWhile_append_dropWhile (p := isIndent) (l := inner.toList)
  have hfeed : '\n' ∉ inner.toList.takeWhile isIndent := fun hmem =>
    absurd (List.mem_takeWhile_imp hmem) (by decide)
  obtain ⟨i, rfl⟩ := Nat.exists_eq_succ_of_ne_zero (Nat.ne_of_gt hi)
  rw [segments, dropIndent, String.toList_ofList]
  rw [segments, ← hsplit] at h
  cases hsegs : segmentChars (inner.toList.dropWhile isIndent) with
  | nil =>
    have hnil : inner.toList.dropWhile isIndent = [] := by
      by_contra hne
      exact segmentChars_ne_nil hne hsegs
    rw [hnil, List.append_nil] at h
    by_cases hne : inner.toList.takeWhile isIndent = []
    · simp [hne, segmentChars] at h
    · simp [segmentChars_of_not_mem hne hfeed] at h
  | cons seg segs =>
    rw [segmentChars_append_of_not_mem hfeed hsegs] at h
    exact h

/-- A blank last line is no line with a line feed. -/
theorem getElem?_segments_dropBlankLastLine (h : (segments s)[i]? = some line)
    (hline : Terminated line.toList) : (segments (dropBlankLastLine s))[i]? = some line := by
  obtain ⟨l, hs, hends, hfeed, hdrop⟩ := dropBlankLastLine_eq s
  rw [hdrop]
  split
  · rw [hs, segments_append hends] at h
    by_cases hi : i < (segments l).length
    · rwa [List.getElem?_append_left hi] at h
    · rw [List.getElem?_append_right (Nat.le_of_not_lt hi)] at h
      obtain ⟨seg, hseg, rfl⟩ := List.mem_map.mp (List.mem_of_getElem? h)
      obtain ⟨line, -, hterminated⟩ := hline
      refine absurd ?_ hfeed
      rw [← flatten_segmentChars (lastLine s).toList]
      refine List.mem_flatten.mpr ⟨seg, hseg, ?_⟩
      rw [← String.toList_ofList (l := seg), hterminated]
      simp
  · exact h

theorem OwnLine.getElem?_bodyText (h : OwnLine inner i line) :
    (segments (bodyText inner))[i - breaksBehind inner]? = some line := by
  have hi := h.pos
  refine getElem?_segments_dropBlankLastLine ?_ h.terminated
  cases hbreak : dropLeadingBreak? inner with
  | none =>
    rw [breaksBehind, hbreak]
    exact getElem?_segments_dropIndent hi h.getElem?_eq
  | some s =>
    obtain ⟨first, hsegments⟩ := exists_segments_eq_cons hbreak
    obtain ⟨i, rfl⟩ := Nat.exists_eq_succ_of_ne_zero (Nat.ne_of_gt hi)
    have hline := h.getElem?_eq
    rw [hsegments] at hline
    rw [breaksBehind, hbreak]
    exact hline

/-- The common indentation is part of every line of its own. -/
theorem OwnLine.commonIndent_le (h : OwnLine inner i line) :
    commonIndent (bodyText inner) ≤ indentWidth line := by
  have hmem := List.mem_of_getElem? h.getElem?_bodyText
  obtain ⟨seg, hseg, rfl⟩ := List.mem_map.mp hmem
  rw [indentWidth, String.toList_ofList]
  exact CodeAtlas.commonIndent_le hseg h.not_blank

/-! ## Lines of what is left -/

/-- What stands in front of line `i` of a body in what its namespace is replaced by. That is
nothing, save where the opening brace ends its line: there the first line of the body goes on the
line in front of the namespace, if that is not blank. -/
def seam (front inner : String) (i : Nat) : String :=
  if i = 1 ∧ (dropLeadingBreak? inner).isSome ∧ blank (lastLine front) = false then lastLine front
  else ""

@[simp] theorem lastLine_dropBlankLead (front : String) :
    lastLine (dropBlankLead front) = if blank (lastLine front) then "" else lastLine front := by
  obtain ⟨l, -, hends, -, hdrop⟩ := dropBlankLead_eq front
  rw [hdrop]
  split
  · rcases hends with rfl | ⟨l', rfl⟩
    · rfl
    · have := lastLine_append_lineFeed (x := "") l' (by simp)
      rwa [String.append_empty] at this
  · rfl

theorem seam_eq (front : String) (hi : 0 < i) :
    (if i - breaksBehind inner = 0 then lastLine (dropBlankLead front) else "") =
      seam front inner i := by
  rw [lastLine_dropBlankLead, seam, breaksBehind]
  grind

/-- Where a line of the body is found again. -/
theorem Tree.Wraps.getElem?_segments (h : t.Wraps text body)
    (hnext : unwrapNamespace? text t = some next) (hline : OwnLine (innerText text body) i line) :
    (segments next)[(dropBlankLead (before text t.start)).toList.count '\n' +
        (i - breaksBehind (innerText text body))]? =
      some (seam (before text t.start) (innerText text body) i ++
        String.ofList (line.toList.drop (commonIndent (bodyText (innerText text body))))) := by
  rw [h.unwrapNamespace?_eq, String.append_assoc] at hnext
  obtain rfl := Option.some.inj hnext
  rw [← seam_eq _ hline.pos]
  exact getElem?_segments_append (getElem?_segments_outdent hline.getElem?_bodyText
    hline.terminated hline.not_blank _)

theorem seam_eq_empty_iff : seam front inner i = "" ↔
    ¬ (i = 1 ∧ (dropLeadingBreak? inner).isSome ∧ blank (lastLine front) = false) := by
  rw [seam]
  split
  · next h =>
    refine iff_of_false (fun hempty => ?_) (not_not_intro h)
    rw [hempty] at h
    simp at h
  · next h => exact iff_of_true rfl h

/-- Unwrapping the namespace `t` keeps the visible characters in front of it, between the braces of
its `body` and after it. The lines of the body that are not blank and share their line with no brace
stand in the result in their order, all of them less the same columns. The code of two of them is as
far apart as before, unless one is the first line behind a brace that ends its line, and the line in
front of the namespace is not blank: then that line of the body goes on the line in front. -/
theorem unwrapNamespace?_keeps_code (h : t.Wraps text body) :
    ∃ next, unwrapNamespace? text t = some next ∧
      visible next = visible (before text t.start) ++ visible (innerText text body) ++
        visible (after text body.stop) ∧
      ∃ (row : Nat → Nat) (width : Nat), (∀ i j, 0 < i → i < j → row i < row j) ∧
        (∀ i line, OwnLine (innerText text body) i line → width ≤ indentWidth line ∧
          (segments next)[row i]? = some (seam (before text t.start) (innerText text body) i ++
            String.ofList (line.toList.drop width))) ∧
        ∀ i j a b, OwnLine (innerText text body) i a → OwnLine (innerText text body) j b → i < j →
          ∃ a' b', (segments next)[row i]? = some a' ∧ (segments next)[row j]? = some b' ∧
            (KeepIndent a b a' b' ↔
              ¬ (i = 1 ∧ (dropLeadingBreak? (innerText text body)).isSome ∧
                blank (lastLine (before text t.start)) = false)) := by
  obtain ⟨next, hnext⟩ : ∃ next, unwrapNamespace? text t = some next := ⟨_, h.unwrapNamespace?_eq⟩
  refine ⟨next, hnext, visible_of_wraps h hnext,
    fun i => (dropBlankLead (before text t.start)).toList.count '\n' +
      (i - breaksBehind (innerText text body)),
    commonIndent (bodyText (innerText text body)), ?_, ?_, ?_⟩
  · intro i j hi hj
    have hbreaks : breaksBehind (innerText text body) ≤ 1 := by
      unfold breaksBehind
      split <;> decide
    dsimp only
    omega
  · intro i line hline
    exact ⟨hline.commonIndent_le, h.getElem?_segments hnext hline⟩
  · intro i j a b ha hb hij
    refine ⟨_, _, h.getElem?_segments hnext ha, h.getElem?_segments hnext hb, ?_⟩
    -- only the first line can have something in front of it
    have hseam : seam (before text t.start) (innerText text body) j = "" :=
      seam_eq_empty_iff.mpr fun hj => by have := ha.pos; omega
    rw [hseam, String.empty_append, ← seam_eq_empty_iff]
    exact keepIndent_iff ha.commonIndent_le hb.commonIndent_le

/-- A namespace with two classes, the second of which is indented further. -/
def steppedText : String :=
  "namespace A\n\x7b\n\tclass B \x7b \x7d\n\t  class C \x7b \x7d\n\x7d\n"

/-- The namespace of `steppedText`. -/
def steppedBlock : Tree :=
  .ofBlock 0 43 [.ofClass 15 11 [], .ofClass 30 11 []]

/-- The two classes stay as far apart as they are. -/
theorem unwrapNamespace?_keeps_code_stepped : ∃ body next a b,
    steppedBlock.Wraps steppedText body ∧ unwrapNamespace? steppedText steppedBlock = some next ∧
      a ∈ segments next ∧ b ∈ segments next ∧
      KeepIndent "\tclass B \x7b \x7d\n" "\t  class C \x7b \x7d\n" a b := by
  have hwraps : steppedBlock.Wraps steppedText _ :=
    ⟨rfl, isBoundary_zero _, by decide, by decide, by decide +kernel, by decide +kernel⟩
  obtain ⟨next, hnext, -, row, -, -, -, hrows⟩ := unwrapNamespace?_keeps_code hwraps
  obtain ⟨a, b, ha, hb, hkeep⟩ := hrows 1 2 "\tclass B \x7b \x7d\n" "\t  class C \x7b \x7d\n"
    ⟨by decide, by decide +kernel, ⟨"\tclass B \x7b \x7d".toList, by decide, by decide⟩, by decide⟩
    ⟨by decide, by decide +kernel, ⟨"\t  class C \x7b \x7d".toList, by decide, by decide⟩,
      by decide⟩
    (by decide)
  exact ⟨_, next, a, b, hwraps, hnext, List.mem_of_getElem? ha, List.mem_of_getElem? hb,
    hkeep.mpr (by decide +kernel)⟩

/-- A class and, on its line, a namespace with two classes that are indented alike. -/
def crowdedText : String :=
  "class X \x7b \x7d namespace A\n\x7b\n  class B \x7b \x7d\n  class C \x7b \x7d\n\x7d\n"

/-- The namespace of `crowdedText`. -/
def crowdedBlock : Tree :=
  .ofBlock 12 43 [.ofClass 28 11 [], .ofClass 42 11 []]

/-- The first class of the namespace goes on the line of the class in front, and the second one
stands at the margin. -/
theorem unwrapNamespace?_joins_lines : ∃ body,
    crowdedBlock.Wraps crowdedText body ∧
      OwnLine (innerText crowdedText body) 1 "  class B \x7b \x7d\n" ∧
      OwnLine (innerText crowdedText body) 2 "  class C \x7b \x7d\n" ∧
      unwrapNamespace? crowdedText crowdedBlock =
        some "class X \x7b \x7d class B \x7b \x7d\nclass C \x7b \x7d\n" ∧
      ∀ a ∈ segments "class X \x7b \x7d class B \x7b \x7d\nclass C \x7b \x7d\n",
        ∀ b ∈ segments "class X \x7b \x7d class B \x7b \x7d\nclass C \x7b \x7d\n",
          ¬ KeepIndent "  class B \x7b \x7d\n" "  class C \x7b \x7d\n" a b := by
  have hstart : hasAscii crowdedText 12 'n' = true := by decide +kernel
  refine ⟨_, ⟨rfl, isBoundary_left (slice?_of_hasAscii hstart), by decide, by decide,
    by decide +kernel, by decide +kernel⟩, ?_, ?_, by decide +kernel, by decide +kernel⟩
  · exact ⟨by decide, by decide +kernel, ⟨"  class B \x7b \x7d".toList, by decide, by decide⟩,
      by decide⟩
  · exact ⟨by decide, by decide +kernel, ⟨"  class C \x7b \x7d".toList, by decide, by decide⟩,
      by decide⟩

end CodeAtlas
