import CodeAtlas.Proofs.Cleanup.Removal

/-!
# Moving the body of a namespace to the margin

The body of a namespace is moved to the margin and loses what shares a line with the braces, but
that is white space: its visible characters stay.

## Main statements

* `commonIndent_le`: the common indentation is part of every line that is not blank.
* `visible_outdent`: moving a text to the margin changes only white space.
* `visible_bodyText`: so does leaving out the lines of the braces.
-/
namespace CodeAtlas

open Text

variable {text : String}

namespace Text

variable {s : String}

/-! ## Cutting off white space -/

@[simp] theorem visible_ofList (cs : List Char) :
    visible (String.ofList cs) = cs.filter (!isBlank ·) := by
  rw [visible, String.toList_ofList]

@[simp] theorem visible_dropIndent (s : String) : visible (dropIndent s) = visible s := by
  rw [dropIndent, visible_ofList, visible]
  induction s.toList with
  | nil => rfl
  | cons c cs ih =>
    rw [List.dropWhile_cons]
    split
    · next hc => rw [ih, List.filter_cons_of_neg (by simp [isBlank_of_isIndent hc])]
    · rfl

theorem visible_of_dropLeadingBreak? {t : String} (h : dropLeadingBreak? s = some t) :
    visible t = visible s := by
  rw [visible]
  unfold dropLeadingBreak? at h
  split at h
  · next rest hs =>
    obtain rfl := Option.some.inj h
    rw [visible, hs, String.toList_ofList]
    rfl
  · next rest hs =>
    obtain rfl := Option.some.inj h
    rw [visible, hs, String.toList_ofList]
    rfl
  · simp at h

theorem visible_getD_dropLeadingBreak? {t : String} (ht : visible t = visible s) :
    visible ((dropLeadingBreak? s).getD t) = visible s := by
  cases h : dropLeadingBreak? s with
  | none => exact ht
  | some t => exact visible_of_dropLeadingBreak? h

/-- Characters that are cut off the indentation are no visible ones. -/
theorem filter_drop_of_le {n : Nat} {cs : List Char} (h : n ≤ (cs.takeWhile isIndent).length) :
    (cs.drop n).filter (!isBlank ·) = cs.filter (!isBlank ·) := by
  have hnone : (cs.take n).filter (!isBlank ·) = [] := by
    refine List.filter_eq_nil_iff.mpr fun c hc => ?_
    have hmem : c ∈ cs.takeWhile isIndent := by
      rw [← List.takeWhile_append_dropWhile (p := isIndent) (l := cs),
        List.take_append_of_le_length h] at hc
      exact List.mem_of_mem_take hc
    simp [isBlank_of_isIndent (List.mem_takeWhile_imp hmem)]
  calc (cs.drop n).filter (!isBlank ·)
      = (cs.take n).filter (!isBlank ·) ++ (cs.drop n).filter (!isBlank ·) := by
        rw [hnone, List.nil_append]
    _ = cs.filter (!isBlank ·) := by rw [← List.filter_append, List.take_append_drop]

/-- A segment is its line and a blank ending. -/
theorem exists_eq_dropTerminator_append (seg : List Char) :
    ∃ ending, seg = dropTerminator seg ++ ending ∧ ∀ c ∈ ending, isBlank c = true := by
  unfold dropTerminator
  split
  · next rest h =>
    exact ⟨['\r', '\n'], by simpa using congrArg List.reverse h, List.all_eq_true.mp (by decide)⟩
  · next rest _ h =>
    exact ⟨['\n'], by simpa using congrArg List.reverse h, List.all_eq_true.mp (by decide)⟩
  · exact ⟨[], by simp, by simp⟩

end Text

/-! ## Moving a text to the margin -/

/-- The common indentation is part of the indentation of every line that is not blank. -/
theorem commonIndent_le {seg : List Char} (hseg : seg ∈ segmentChars text.toList)
    (hblank : blank (String.ofList seg) = false) :
    commonIndent text ≤ (seg.takeWhile isIndent).length := by
  obtain ⟨ending, hending, hends⟩ := exists_eq_dropTerminator_append seg
  have hline : blank (String.ofList (dropTerminator seg)) = false := by
    rw [hending, String.ofList_append, blank_append] at hblank
    have hends : blank (String.ofList ending) = true := by
      rw [blank, String.toList_ofList]
      exact List.all_eq_true.mpr hends
    simpa [hends] using hblank
  have hmem : indentWidth (String.ofList (dropTerminator seg)) ∈
      ((lines text).filter (!blank ·)).map indentWidth := by
    refine List.mem_map.mpr ⟨_, List.mem_filter.mpr ⟨?_, by simp [hline]⟩, rfl⟩
    exact List.mem_map.mpr ⟨seg, hseg, rfl⟩
  have hcommon : commonIndent text ≤ indentWidth (String.ofList (dropTerminator seg)) := by
    rw [commonIndent]
    cases hmin : (((lines text).filter (!blank ·)).map indentWidth).min? with
    | none => exact Nat.zero_le _
    | some m => exact (List.min?_eq_some_iff.mp hmin).2 _ hmem
  refine Nat.le_trans hcommon ?_
  have hle : ((dropTerminator seg).takeWhile isIndent).length ≤
      ((dropTerminator seg ++ ending).takeWhile isIndent).length := by
    rw [List.takeWhile_append]
    split
    · next hall =>
      rw [List.length_append, hall]
      exact Nat.le_add_right _ _
    · exact Nat.le_refl _
  rw [← hending] at hle
  rwa [indentWidth, String.toList_ofList]

/-- What becomes of the line `seg` when its text is moved by `width` columns. -/
def outdentLine (width : Nat) (seg : List Char) : List Char :=
  if blank (String.ofList seg) then seg.dropWhile isIndent else seg.drop width

/-- A text is moved to the margin line by line. -/
theorem toList_outdent (text : String) : (outdent text).toList =
    ((segmentChars text.toList).map (outdentLine (commonIndent text))).flatten := by
  rw [outdent, String.toList_join, segments, List.map_map, List.flatMap_map, List.flatMap_def]
  congr 1
  refine List.map_congr_left fun seg _ => ?_
  rw [outdentLine, Function.comp_apply]
  split
  · rw [dropIndent, String.toList_ofList, String.toList_ofList]
  · rw [String.toList_ofList, String.toList_ofList]

/-- Moving a line to the margin changes only white space. -/
theorem filter_outdentLine {seg : List Char} (hseg : seg ∈ segmentChars text.toList) :
    (outdentLine (commonIndent text) seg).filter (!isBlank ·) = seg.filter (!isBlank ·) := by
  unfold outdentLine
  split
  · have := visible_dropIndent (String.ofList seg)
    rwa [dropIndent, visible_ofList, visible_ofList, String.toList_ofList] at this
  · next hblank => exact filter_drop_of_le (commonIndent_le hseg (by simpa using hblank))

/-- Moving a text to the margin changes only white space. -/
@[simp] theorem visible_outdent (text : String) : visible (outdent text) = visible text := by
  rw [visible, toList_outdent, List.filter_flatten, List.map_map, visible]
  calc ((segmentChars text.toList).map
        ((·.filter (!isBlank ·)) ∘ outdentLine (commonIndent text))).flatten
      = ((segmentChars text.toList).map (·.filter (!isBlank ·))).flatten :=
        congrArg List.flatten (List.map_congr_left fun seg hseg => filter_outdentLine hseg)
    _ = text.toList.filter (!isBlank ·) := by rw [← List.filter_flatten, flatten_segmentChars]

/-! ## The body of a namespace -/

/-- Nothing visible stands on a blank last line. -/
theorem visible_of_lastLine_blank {l : String} (hl : text = l ++ lastLine text)
    (hblank : blank (lastLine text) = true) : visible l = visible text := by
  have hvisible := congrArg visible hl
  rw [visible_append, visible_of_blank hblank, List.append_nil] at hvisible
  exact hvisible.symm

/-- What is left without a blank last line is what stands in front of that line. -/
theorem dropBlankLastLine_eq (text : String) :
    ∃ l, text = l ++ lastLine text ∧ (l = "" ∨ ∃ l', l = l' ++ "\n") ∧
      '\n' ∉ (lastLine text).toList ∧ dropBlankLastLine text =
        if text.toList.contains '\n' && blank (lastLine text) then l else text := by
  obtain ⟨l, hl, hends, hfeed⟩ := exists_eq_append_lastLine text
  refine ⟨l, hl, hends, hfeed, ?_⟩
  have htake : text.toList.take (text.length - (lastLine text).length) = l.toList := by
    generalize lastLine text = line at hl
    subst hl
    rw [String.length_append, Nat.add_sub_cancel, String.toList_append]
    exact List.take_left
  rw [dropBlankLastLine, htake, String.ofList_toList]

@[simp] theorem visible_dropBlankLastLine (text : String) :
    visible (dropBlankLastLine text) = visible text := by
  obtain ⟨l, hl, -, -, hdrop⟩ := dropBlankLastLine_eq text
  rw [hdrop]
  split
  · next h => exact visible_of_lastLine_blank hl (Bool.and_eq_true_iff.mp h).2
  · rfl

@[simp] theorem visible_bodyText (inner : String) : visible (bodyText inner) = visible inner := by
  rw [bodyText, visible_dropBlankLastLine]
  exact visible_getD_dropLeadingBreak? (visible_dropIndent inner)

end CodeAtlas
