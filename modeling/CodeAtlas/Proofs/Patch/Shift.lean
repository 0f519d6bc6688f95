import CodeAtlas.Proofs.Patch.Edit
import CodeAtlas.Proofs.Text.Line

/-!
# Moving lines to another indentation

A text is moved to another indentation line by line. Of every line after the first the indentation
is replaced and the rest stays, so the text is rewritten by edits each of which changes the
indentation of one line.

## Main definitions

* `shiftedIndent`: the indentation that a line is moved to.
* `indentEdits`: the edits by which a text is moved.
* `Edit.Reindents`: an edit that changes the indentation of a line.

## Main statements

* `shiftLine_eq`: a line is moved by replacing its indentation.
* `rewritten_shiftLines`: a text is moved by its edits.
* `reindents_indentEdits`: these change indentations only, one after the other.
-/
namespace CodeAtlas

open Text (Indents isIndent slice?)

variable {source target line : List Char} {lines : List (List Char)} {text : String} {e : Edit}
  {pos : Nat}

/-! ## One line -/

@[simp] theorem dropFront?_eq_some_iff {front rest : List Char} :
    dropFront? front line = some rest ↔ line = front ++ rest := by
  induction front generalizing line with
  | nil => simp [dropFront?, eq_comm]
  | cons d front ih =>
    cases line with
    | nil => simp [dropFront?]
    | cons d' line =>
      rw [dropFront?, List.cons_append, List.cons.injEq]
      split
      · next heq => rw [ih, and_iff_right heq.symm]
      · next hne => simp [Ne.symm hne]

/-- The indentation that a `line` gets when what is indented by `source` is moved to `target`. -/
def shiftedIndent (source target line : List Char) : List Char :=
  if line.all Text.isBlank then []
  else target ++ (dropFront? source (line.takeWhile isIndent)).getD []

/-- A line is moved by replacing its indentation. -/
theorem shiftLine_eq (hsource : ∀ c ∈ source, isIndent c = true) (target line : List Char) :
    shiftLine source target line = shiftedIndent source target line ++ line.dropWhile isIndent := by
  unfold shiftLine shiftedIndent
  split
  · rfl
  rw [List.append_assoc, List.append_cancel_left_eq]
  cases hdrop : dropFront? source line with
  | none =>
    have hnone : dropFront? source (line.takeWhile isIndent) = none := by
      rw [Option.eq_none_iff_forall_ne_some]
      intro rest hrest
      have hline := congrArg (· ++ line.dropWhile isIndent) (dropFront?_eq_some_iff.mp hrest)
      simp only [List.takeWhile_append_dropWhile, List.append_assoc] at hline
      rw [dropFront?_eq_some_iff.mpr hline] at hdrop
      cases hdrop
    simp [hnone]
  | some rest =>
    obtain rfl := dropFront?_eq_some_iff.mp hdrop
    rw [List.takeWhile_append_of_pos hsource, List.dropWhile_append_of_pos hsource,
      dropFront?_eq_some_iff.mpr rfl]
    simp

theorem isIndent_of_mem_takeWhile (line : List Char) {d : Char} (h : d ∈ line.takeWhile isIndent) :
    isIndent d = true :=
  List.all_eq_true.mp List.all_takeWhile d h

theorem isIndent_of_mem_shiftedIndent {d : Char} (htarget : ∀ c ∈ target, isIndent c = true)
    (h : d ∈ shiftedIndent source target line) : isIndent d = true := by
  unfold shiftedIndent at h
  split at h
  · simp at h
  rcases List.mem_append.mp h with h | h
  · exact htarget d h
  · cases hdrop : dropFront? source (line.takeWhile isIndent) with
    | none => simp [hdrop] at h
    | some rest =>
      have hrest : d ∈ rest := by simpa [hdrop] using h
      refine isIndent_of_mem_takeWhile line ?_
      rw [dropFront?_eq_some_iff.mp hdrop]
      exact List.mem_append_right _ hrest

/-! ## All lines -/

/-- Lines that are not empty, of which all but the last end with a line feed. -/
inductive Ended : List (List Char) → Prop where
  | nil : Ended []
  | last {line : List Char} (h : line ≠ []) : Ended [line]
  | cons (line : List Char) {next : List Char} {rest : List (List Char)} :
    Ended (next :: rest) → Ended ((line ++ ['\n']) :: next :: rest)

theorem Ended.tail (h : Ended (line :: lines)) : Ended lines := by
  cases h with
  | last => exact .nil
  | cons _ h => exact h

theorem ended_segmentChars (cs : List Char) : Ended (Text.segmentChars cs) := by
  induction cs with
  | nil => exact .nil
  | cons c cs ih =>
    rw [Text.segmentChars]
    split
    · cases hsegments : Text.segmentChars cs with
      | nil => exact .last (by simp)
      | cons next rest => exact .cons [] (hsegments ▸ ih)
    · split
      · exact .last (by simp)
      · next seg rest hsegments =>
        rw [hsegments] at ih
        cases ih with
        | last h => exact .last (by simp)
        | cons line h => exact .cons (c :: line) h

/-- The edits that move the lines from `pos` on. A line that stays as it is needs none. -/
def lineEdits (source target : List Char) (pos : Nat) : List (List Char) → List Edit
  | [] => []
  | line :: rest =>
    let old := line.takeWhile isIndent
    let new := shiftedIndent source target line
    let later := lineEdits source target (pos + (String.ofList line).utf8ByteSize) rest
    if old = new then later
    else
      { start := pos, stop := pos + (String.ofList old).utf8ByteSize, text := String.ofList new } ::
        later

/-- The edits that move `text` from the indentation `source` to `target`. Its first line stays where
it is. -/
def indentEdits (text source target : String) : List Edit :=
  let segments := Text.segmentChars text.toList
  lineEdits source.toList target.toList (String.ofList (segments.headD [])).utf8ByteSize
    segments.tail

/-- A line is its indentation and the rest. -/
theorem ofList_line (line : List Char) :
    String.ofList line =
      String.ofList (line.takeWhile isIndent) ++ String.ofList (line.dropWhile isIndent) := by
  rw [← String.ofList_append, List.takeWhile_append_dropWhile]

theorem size_ofList_line (line : List Char) :
    (String.ofList line).utf8ByteSize = (String.ofList (line.takeWhile isIndent)).utf8ByteSize +
      (String.ofList (line.dropWhile isIndent)).utf8ByteSize := by
  rw [← String.utf8ByteSize_append, ← ofList_line]

/-- Lines are moved by their edits, behind a part of the text that is kept. -/
theorem rewritten_lineEdits (hsource : ∀ c ∈ source, isIndent c = true) (target : List Char)
    (lines : List (List Char)) (front kept : String) :
    Rewritten (front ++ kept ++ String.ofList lines.flatten) front.utf8ByteSize
      (lineEdits source target (front.utf8ByteSize + kept.utf8ByteSize) lines)
      (kept ++ String.ofList (lines.map (shiftLine source target)).flatten) := by
  induction lines generalizing front kept with
  | nil =>
    refine .rest (Text.slice?_eq_some_iff.mpr ⟨front, "", ?_, rfl, ?_⟩) <;> simp
  | cons line rest ih =>
    rw [lineEdits, List.flatten_cons, List.map_cons, List.flatten_cons]
    split
    · next heq =>
      have hshift : shiftLine source target line = line := by
        rw [shiftLine_eq hsource, ← heq, List.takeWhile_append_dropWhile]
      have := ih front (kept ++ String.ofList line)
      rw [hshift, String.ofList_append, String.ofList_append]
      simpa [String.append_assoc, Nat.add_assoc] using this
    · have hrest := ih (front ++ kept ++ String.ofList (line.takeWhile isIndent))
        (String.ofList (line.dropWhile isIndent))
      have hsize := size_ofList_line line
      simp only [String.utf8ByteSize_append] at hrest
      rw [Nat.add_assoc (front.utf8ByteSize + kept.utf8ByteSize), ← hsize] at hrest
      have htext : front ++ kept ++ String.ofList (line ++ rest.flatten) =
          front ++ kept ++ String.ofList (line.takeWhile isIndent) ++
            String.ofList (line.dropWhile isIndent) ++ String.ofList rest.flatten := by
        rw [String.ofList_append, ofList_line line]
        simp only [String.append_assoc]
      have hout : kept ++ String.ofList (shiftLine source target line ++
            (rest.map (shiftLine source target)).flatten) =
          kept ++ String.ofList (shiftedIndent source target line) ++
            (String.ofList (line.dropWhile isIndent) ++
              String.ofList (rest.map (shiftLine source target)).flatten) := by
        rw [shiftLine_eq hsource]
        simp only [String.ofList_append, String.append_assoc]
      have hkept : slice? (front ++ kept ++ String.ofList (line ++ rest.flatten)) front.utf8ByteSize
          (front.utf8ByteSize + kept.utf8ByteSize) = some kept :=
        Text.slice?_eq_some_iff.mpr ⟨_, _, rfl, rfl, rfl⟩
      rw [hout]
      rw [htext] at hkept ⊢
      exact .edit hkept (Nat.le_add_right _ _) hrest

/-- A text is moved to another indentation by edits. -/
theorem rewritten_shiftLines {source : String} (hsource : Indents source) (text target : String) :
    Rewritten text 0 (indentEdits text source target) (shiftLines text source target) := by
  have htext := Text.flatten_segmentChars text.toList
  unfold shiftLines indentEdits
  dsimp only
  split
  · next hnil =>
    rw [hnil] at htext ⊢
    obtain rfl : text = "" := by simpa using htext.symm
    exact .rest (by decide +kernel)
  · next first rest hsegments =>
    rw [hsegments] at htext ⊢
    have := rewritten_lineEdits hsource target.toList rest "" (String.ofList first)
    rw [String.empty_append, ← String.ofList_append, ← String.ofList_append, ← List.flatten_cons,
      htext, String.ofList_toList] at this
    simpa using this

/-! ## Edits of indentations -/

/-- The text `s` does not start with indentation. -/
def Unindented (s : String) : Prop :=
  ∀ c ∈ s.toList.head?, isIndent c = false

/-- The edit `e` replaces the indentation of a line of `text` other than the first one by another
indentation. -/
structure Edit.Reindents (text : String) (e : Edit) : Prop where
  exists_line : ∃ front old rest, text = front ++ "\n" ++ old ++ rest ∧
    e.start = (front ++ "\n").utf8ByteSize ∧ e.stop = e.start + old.utf8ByteSize ∧
    Indents old ∧ Unindented rest ∧ old ≠ e.text
  indents : Indents e.text

@[grind →]
theorem le_start_of_mem_lineEdits (he : e ∈ lineEdits source target pos lines) : pos ≤ e.start := by
  induction lines generalizing pos with
  | nil => simp [lineEdits] at he
  | cons line rest ih =>
    rw [lineEdits] at he
    split at he
    · have := ih he
      omega
    · rcases List.mem_cons.mp he with rfl | he
      · exact Nat.le_refl _
      · have := ih he
        omega

theorem pairwise_lineEdits (h : Ended lines) :
    (lineEdits source target pos lines).Pairwise Edit.Before := by
  induction lines generalizing pos with
  | nil => exact .nil
  | cons line rest ih =>
    have hne : line ≠ [] := by
      cases h with
      | last h => exact h
      | cons => simp
    have hpos : (String.ofList line).utf8ByteSize ≠ 0 := by
      rw [Ne, String.utf8ByteSize_eq_zero_iff]
      simpa using hne
    rw [lineEdits]
    split
    · exact ih h.tail
    · refine List.pairwise_cons.mpr ⟨fun f hf => ?_, ih h.tail⟩
      have hle := le_start_of_mem_lineEdits hf
      have hsize := size_ofList_line line
      exact ⟨by dsimp only; omega, by dsimp only; omega⟩

theorem reindents_lineEdits (htarget : ∀ c ∈ target, isIndent c = true) (h : Ended lines)
    (front : String) (he : e ∈ lineEdits source target (front ++ "\n").utf8ByteSize lines) :
    e.Reindents (front ++ "\n" ++ String.ofList lines.flatten) := by
  induction lines generalizing front with
  | nil => simp [lineEdits] at he
  | cons line rest ih =>
    rw [lineEdits] at he
    -- the edits of later lines stand behind this line, which ends with a line feed
    have hlater (he : e ∈ lineEdits source target
        ((front ++ "\n").utf8ByteSize + (String.ofList line).utf8ByteSize) rest) :
        e.Reindents (front ++ "\n" ++ String.ofList (line :: rest).flatten) := by
      cases h with
      | last => simp [lineEdits] at he
      | cons line h =>
        have := ih h (front ++ "\n" ++ String.ofList line)
        simp only [List.flatten_cons, String.ofList_append, String.append_assoc] at this ⊢
        refine this ?_
        simpa [String.append_assoc, Nat.add_assoc] using he
    split at he
    · exact hlater he
    · next hne =>
      rcases List.mem_cons.mp he with rfl | he
      · refine ⟨⟨front, String.ofList (line.takeWhile isIndent),
          String.ofList (line.dropWhile isIndent ++ rest.flatten), ?_, rfl, rfl, ?_, ?_, ?_⟩, ?_⟩
        · rw [List.flatten_cons, String.ofList_append, ofList_line line, String.ofList_append]
          simp only [String.append_assoc]
        · intro c hc
          exact isIndent_of_mem_takeWhile line (by simpa using hc)
        · intro c hc
          rw [String.toList_ofList, List.head?_append] at hc
          cases hcontent : line.dropWhile isIndent with
          | cons d content =>
            have := List.head?_dropWhile_not isIndent line
            simp_all
          | nil =>
            -- a line that is all indentation has no line feed, so it is the last one
            have hall : ∀ d ∈ line, isIndent d = true := by simpa using hcontent
            cases h with
            | last => simp [hcontent] at hc
            | cons line _ => exact absurd (hall '\n' (by simp)) (by decide)
        · simpa [← String.toList_inj] using hne
        · intro c hc
          exact isIndent_of_mem_shiftedIndent htarget (by simpa using hc)
      · exact hlater he

/-- The edits that move `text` change indentations, one after the other. -/
theorem reindents_indentEdits {source target : String} (htarget : Indents target) :
    (indentEdits text source target).Pairwise Edit.Before ∧
      ∀ e ∈ indentEdits text source target, e.Reindents text := by
  have htext := Text.flatten_segmentChars text.toList
  have hended := ended_segmentChars text.toList
  unfold indentEdits
  dsimp only
  cases hsegments : Text.segmentChars text.toList with
  | nil => simp [lineEdits]
  | cons first rest =>
    rw [hsegments] at htext hended
    refine ⟨pairwise_lineEdits hended.tail, fun e he => ?_⟩
    have htext' : text = String.ofList first ++ String.ofList rest.flatten := by
      rw [← String.ofList_append, ← List.flatten_cons, htext, String.ofList_toList]
    cases hended with
    | last => simp [lineEdits] at he
    | cons line h =>
      rw [htext', String.ofList_append]
      rw [List.headD_cons, String.ofList_append] at he
      exact reindents_lineEdits htarget h _ he

end CodeAtlas
