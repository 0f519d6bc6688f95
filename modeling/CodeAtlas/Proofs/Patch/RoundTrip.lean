import CodeAtlas.Proofs.Patch.Merge
import CodeAtlas.Proofs.Patch.Shift
import CodeAtlas.Proofs.Text.Segment

/-!
# Moving lines there and back

If the lines of a text start with the indentation from which they are moved, nothing is lost: moved
back they are what they were. Blank lines have no indentation to give back, so they must have none.

A member that is pasted into its type is moved from its indentation in the fragment to that in the
type. If it stands in the type as it was copied, it is replaced by itself, and nothing changes.

## Main definitions

* `IndentedBy`: the lines of a text start with an indentation.
* `Fragment.Pastes`: a member of a fragment is a member of the text.

## Main statements

* `segmentChars_shiftLines`: the lines of a text that is moved.
* `shiftLines_shiftLines`, `shiftLines_self`: a text is moved there and back, or not at all.
* `applyEdits_eq_self`: edits that write what stands there change nothing.
* `indentation_round_trips`: moving there and back, and pasting what was copied.
-/
namespace CodeAtlas

open Text (Indents Segmented Terminated isIndent slice?)

variable {source target line : List Char} {lines : List (List Char)} {text own other : String}

/-! ## One line -/

/-- The `line` starts with `indent`, or it is blank and starts with no indentation. -/
def LineIndentedBy (indent line : List Char) : Prop :=
  (line.all Text.isBlank = true ∧ line.dropWhile isIndent = line) ∨
    (line.all Text.isBlank = false ∧ indent <+: line)

@[simp] theorem shiftLine_of_blank (source target : List Char) (h : line.all Text.isBlank = true) :
    shiftLine source target line = line.dropWhile isIndent :=
  if_pos h

@[simp] theorem shiftLine_append {rest : List Char} (source target : List Char)
    (h : (source ++ rest).all Text.isBlank = false) :
    shiftLine source target (source ++ rest) = target ++ rest := by
  rw [shiftLine, if_neg (by simp [h]), dropFront?_eq_some_iff.mpr rfl, Option.getD_some]

@[simp] theorem all_isBlank_append {indent : List Char} (h : ∀ c ∈ indent, isIndent c = true)
    (rest : List Char) : (indent ++ rest).all Text.isBlank = rest.all Text.isBlank := by
  have hblank : indent.all Text.isBlank = true :=
    List.all_eq_true.mpr fun c hc => Text.isBlank_of_isIndent (h c hc)
  rw [List.all_append, hblank, Bool.true_and]

/-- A line is moved to an indentation that it then starts with. -/
theorem LineIndentedBy.shiftLine (hsource : ∀ c ∈ source, isIndent c = true)
    (htarget : ∀ c ∈ target, isIndent c = true) (h : LineIndentedBy source line) :
    LineIndentedBy target (shiftLine source target line) ∧
      CodeAtlas.shiftLine target source (CodeAtlas.shiftLine source target line) = line := by
  rcases h with ⟨hblank, hdrop⟩ | ⟨hvisible, rest, rfl⟩
  · have hsame (a b : List Char) : CodeAtlas.shiftLine a b line = line := by
      rw [shiftLine_of_blank a b hblank, hdrop]
    rw [hsame, hsame]
    exact ⟨.inl ⟨hblank, hdrop⟩, rfl⟩
  · have hmoved : (target ++ rest).all Text.isBlank = false := by
      rw [all_isBlank_append htarget, ← all_isBlank_append hsource, hvisible]
    rw [shiftLine_append source target hvisible, shiftLine_append target source hmoved]
    exact ⟨.inr ⟨hmoved, List.prefix_append target rest⟩, rfl⟩

@[simp] theorem LineIndentedBy.shiftLine_self (h : LineIndentedBy source line) :
    CodeAtlas.shiftLine source source line = line := by
  rcases h with ⟨hblank, hdrop⟩ | ⟨hvisible, rest, rfl⟩
  · rw [shiftLine_of_blank source source hblank, hdrop]
  · exact shiftLine_append source source hvisible

/-! ## All lines -/

/-- Every line of `text` after the first starts with `indent`, or it is blank and starts with no
indentation. -/
def IndentedBy (indent text : String) : Prop :=
  ∀ line ∈ (Text.segments text).tail, (Text.blank line = true ∧ Unindented line) ∨
    (Text.blank line = false ∧ indent.toList <+: line.toList)

instance (s : String) : Decidable (Unindented s) :=
  Option.decidableForallMem _

instance (indent text : String) : Decidable (IndentedBy indent text) :=
  List.decidableBAll _ _

theorem dropWhile_eq_self_of_unindented {s : String} (h : Unindented s) :
    s.toList.dropWhile isIndent = s.toList := by
  rw [Unindented] at h
  cases hs : s.toList with
  | nil => rfl
  | cons c cs =>
    rw [hs] at h
    exact List.dropWhile_cons_of_neg (by simp [h c rfl])

theorem IndentedBy.lineIndentedBy {indent : String} (h : IndentedBy indent text)
    (hline : line ∈ (Text.segmentChars text.toList).tail) : LineIndentedBy indent.toList line := by
  have hmem : String.ofList line ∈ (Text.segments text).tail := by
    rw [Text.segments, ← List.map_tail]
    exact List.mem_map_of_mem hline
  rcases h _ hmem with ⟨hblank, hunindented⟩ | ⟨hvisible, hprefix⟩
  · have hdrop := dropWhile_eq_self_of_unindented hunindented
    rw [Text.blank, String.toList_ofList] at hblank
    rw [String.toList_ofList] at hdrop
    exact .inl ⟨hblank, hdrop⟩
  · rw [Text.blank, String.toList_ofList] at hvisible
    rw [String.toList_ofList] at hprefix
    exact .inr ⟨hvisible, hprefix⟩

/-- A line that is moved keeps its line feed. -/
theorem Text.Terminated.shiftLine (hsource : ∀ c ∈ source, isIndent c = true)
    (htarget : ∀ c ∈ target, isIndent c = true) (h : Terminated line) :
    Terminated (shiftLine source target line) := by
  obtain ⟨front, hfront, rfl⟩ := h
  have hdrop : (front ++ ['\n']).dropWhile isIndent = front.dropWhile isIndent ++ ['\n'] := by
    rw [List.dropWhile_append]
    split
    · next hempty => rw [List.isEmpty_iff.mp hempty]; rfl
    · rfl
  rw [shiftLine_eq hsource, hdrop, ← List.append_assoc]
  refine ⟨_, fun hmem => ?_, rfl⟩
  rcases List.mem_append.mp hmem with hmem | hmem
  · exact absurd (isIndent_of_mem_shiftedIndent htarget hmem) (by decide)
  · exact hfront ((List.dropWhile_sublist isIndent).subset hmem)

/-- Lines that are moved can be told apart as before. -/
theorem segmented_map_shiftLine (hsource : ∀ c ∈ source, isIndent c = true)
    (htarget : ∀ c ∈ target, isIndent c = true) (h : Segmented lines)
    (hlines : ∀ line ∈ lines, LineIndentedBy source line) :
    Segmented (lines.map (shiftLine source target)) := by
  induction h with
  | nil => exact .nil
  | @last line hne hfeed =>
    have hback := ((hlines line (by simp)).shiftLine hsource htarget).2
    refine .last (fun hnil => ?_) (fun hmem => ?_)
    · -- an empty line would be moved back to an empty one
      rw [hnil, shiftLine_of_blank _ _ rfl] at hback
      exact hne hback.symm
    · rw [shiftLine_eq hsource] at hmem
      rcases List.mem_append.mp hmem with hmem | hmem
      · exact absurd (isIndent_of_mem_shiftedIndent htarget hmem) (by decide)
      · exact hfeed ((List.dropWhile_sublist isIndent).subset hmem)
  | cons hline _ ih =>
    exact .cons (hline.shiftLine hsource htarget) (ih fun line hmem => hlines line (by simp [hmem]))

/-- The lines of a text that is moved: the first one stays and the others are moved. -/
theorem segmentChars_shiftLines {first : List Char} (hown : Indents own) (hother : Indents other)
    (htext : IndentedBy own text) (hlines : Text.segmentChars text.toList = first :: lines) :
    Text.segmentChars (shiftLines text own other).toList =
      first :: lines.map (shiftLine own.toList other.toList) := by
  have hindented : ∀ line ∈ lines, LineIndentedBy own.toList line := fun line hline =>
    htext.lineIndentedBy (by rw [hlines]; exact hline)
  have hsegmented : Segmented (first :: lines.map (shiftLine own.toList other.toList)) := by
    have h := Text.segmented_segmentChars text.toList
    rw [hlines] at h
    cases h with
    | last hne hfeed => exact .last hne hfeed
    | cons hfirst h => exact .cons hfirst (segmented_map_shiftLine hown hother h hindented)
  have hmoved : (shiftLines text own other).toList =
      (first :: lines.map (shiftLine own.toList other.toList)).flatten := by
    rw [shiftLines, hlines]
    exact String.toList_ofList
  rw [hmoved, Text.segmentChars_flatten hsegmented]

theorem shiftLines_of_segmentChars {first : List Char}
    (h : Text.segmentChars text.toList = first :: lines) (own other : String) :
    shiftLines text own other =
      String.ofList (first ++ (lines.map (shiftLine own.toList other.toList)).flatten) := by
  rw [shiftLines, h]

theorem ofList_flatten_segmentChars (text : String) :
    String.ofList (Text.segmentChars text.toList).flatten = text := by
  rw [Text.flatten_segmentChars, String.ofList_toList]

theorem eq_empty_of_segmentChars (h : Text.segmentChars text.toList = []) : text = "" := by
  rw [← ofList_flatten_segmentChars text, h]
  rfl

/-- Lines that are moved and moved back are what they were. -/
theorem shiftLines_shiftLines (hown : Indents own) (hother : Indents other)
    (htext : IndentedBy own text) : shiftLines (shiftLines text own other) other own = text := by
  cases hlines : Text.segmentChars text.toList with
  | nil =>
    obtain rfl := eq_empty_of_segmentChars hlines
    rfl
  | cons first lines =>
    have hback : (lines.map (shiftLine own.toList other.toList)).map
        (shiftLine other.toList own.toList) = lines := by
      rw [List.map_map]
      refine (List.map_congr_left fun line hline => ?_).trans (List.map_id lines)
      have hmem : line ∈ (Text.segmentChars text.toList).tail := by rw [hlines]; exact hline
      exact ((htext.lineIndentedBy hmem).shiftLine hown hother).2
    rw [shiftLines_of_segmentChars (segmentChars_shiftLines hown hother htext hlines), hback,
      ← List.flatten_cons, ← hlines, ofList_flatten_segmentChars]

/-- A text that is moved to where it is stays as it is. -/
@[simp] theorem shiftLines_self (htext : IndentedBy own text) : shiftLines text own own = text := by
  cases hlines : Text.segmentChars text.toList with
  | nil =>
    obtain rfl := eq_empty_of_segmentChars hlines
    rfl
  | cons first lines =>
    have hsame : lines.map (shiftLine own.toList own.toList) = lines := by
      refine (List.map_congr_left fun line hline => ?_).trans (List.map_id lines)
      have hmem : line ∈ (Text.segmentChars text.toList).tail := by rw [hlines]; exact hline
      exact (htext.lineIndentedBy hmem).shiftLine_self
    rw [shiftLines_of_segmentChars hlines, hsame, ← List.flatten_cons, ← hlines,
      ofList_flatten_segmentChars]

/-! ## Pasting what was copied -/

/-- Edits that write what stands there leave the rest of the text as it is, whether they are made or
passed over. -/
theorem editFrom_eq_after {edits : List Edit} {pos : Nat}
    (h : ∀ e ∈ edits, slice? text e.start e.stop = some e.text)
    (hpos : Text.IsBoundary text pos) : editFrom text pos edits = Text.after text pos := by
  induction edits generalizing pos with
  | nil => rfl
  | cons e edits ih =>
    obtain ⟨he, h⟩ := List.forall_mem_cons.mp h
    rw [editFrom]
    split
    · exact ih h hpos
    · next hle =>
      have hstop := Text.isBoundary_right he
      obtain ⟨front, hfront⟩ :=
        Text.exists_slice?_eq hpos (Text.isBoundary_left he) (Nat.not_lt.mp hle)
      have hrest : Text.after text pos = front ++ e.text ++ Text.after text e.stop :=
        Text.slice_eq_of_slice?
          (Text.slice?_trans (Text.slice?_trans hfront he) (Text.slice?_after hstop))
      rw [ih h hstop, Text.slice_eq_of_slice? hfront, hrest]

/-- Edits that write what stands there change nothing. -/
@[simp] theorem applyEdits_eq_self {edits : List Edit}
    (h : ∀ e ∈ edits, slice? text e.start e.stop = some e.text) : applyEdits text edits = text := by
  rw [applyEdits, editFrom_eq_after _ (Text.isBoundary_zero text)]
  · exact Text.after_eq (l := "") (by simp)
  · exact fun e he => h e (List.mem_mergeSort.mp he)

/-- The member `new` of a fragment is the member `old` of a text: it stands in the fragment as it
stands in the text, with the same indentation, or it is moved to the indentation of the fragment. If
it has comments, it is the member with its comments. -/
def Fragment.Pastes (f : Fragment) (text : String) (old new : Member) : Prop :=
  let start := if new.leadingComment?.isSome then old.startWithComments else old.start
  let own := Text.indentAt text start
  let other := Text.indentAt f.source new.startWithComments
  ∃ t ∈ slice? text start old.stop, IndentedBy own t ∧
    ∃ t' ∈ slice? f.source new.startWithComments new.stop,
      t' = t ∧ other = own ∨ t' = shiftLines t own other

instance (f : Fragment) (text : String) (old new : Member) : Decidable (f.Pastes text old new) :=
  Option.decidableExistsMem _

/-- A member that was copied is replaced by itself. -/
theorem Fragment.Pastes.slice?_replaceEdit {f : Fragment} {old new : Member}
    (h : f.Pastes text old new) :
    slice? text (replaceEdit text f old new).start (replaceEdit text f old new).stop =
      some (replaceEdit text f old new).text := by
  obtain ⟨t, ht, hindented, t', ht', hcopied⟩ := h
  have hwritten : (replaceEdit text f old new).text = t := by
    rw [replaceEdit, Fragment.textOf, Text.slice_eq_of_slice? ht']
    rcases hcopied with ⟨rfl, hsame⟩ | rfl
    · rw [hsame]
      exact shiftLines_self hindented
    · exact shiftLines_shiftLines (Text.indents_indentAt text _) (Text.indents_indentAt _ _)
        hindented
  rw [hwritten]
  exact ht

/-- A fragment whose members are all copied changes nothing. -/
theorem mergeFragment_eq_none_of_pastes {grammar : Grammar} {owner : Owner} {fragment : Fragment}
    (h : ∀ type, (grammar text).typeDeclaration? text owner = some type →
      appendedMembers text type fragment = [] ∧
        ∀ p ∈ replacedPairs text type fragment, fragment.Pastes text p.1 p.2) :
    mergeFragment grammar text owner fragment = none := by
  rw [Option.eq_none_iff_forall_ne_some]
  rintro ⟨out, report⟩ hmerge
  obtain ⟨type, body, htype, -, -, hchange, hout, -⟩ := mergeFragment_eq_some_iff.mp hmerge
  obtain ⟨happended, hpastes⟩ := h type htype
  refine hchange (hout.trans (applyEdits_eq_self fun e he => ?_))
  rcases mem_mergeEdits.mp he with ⟨p, hp, rfl⟩ | he
  · exact (hpastes p hp).slice?_replaceEdit
  · simp [insertion?, appendedTexts, happended] at he

/-- If the lines of `text` after the first start with the indentation `own`, or are blank and start
with none, it is what it was after it is moved to the indentation `other` and back, and it stays as
it is if it is moved to its own. So a `fragment` changes nothing if each of its members replaces the
one that it was copied from. -/
theorem indentation_round_trips (text : String) (hown : Indents own) (hother : Indents other)
    (htext : IndentedBy own text) :
    shiftLines (shiftLines text own other) other own = text ∧
    shiftLines text own own = text ∧
    ∀ (grammar : Grammar) (original : String) (owner : Owner) (fragment : Fragment),
      (∀ type, (grammar original).typeDeclaration? original owner = some type →
        appendedMembers original type fragment = [] ∧
          ∀ p ∈ replacedPairs original type fragment, fragment.Pastes original p.1 p.2) →
      mergeFragment grammar original owner fragment = none :=
  ⟨shiftLines_shiftLines hown hother htext, shiftLines_self htext,
    fun _ _ _ _ => mergeFragment_eq_none_of_pastes⟩

/-- The tree of a field `int n = 1;` that is broken behind the `=`, where the second line has an
indentation of `width` bytes. -/
def Tree.ofBrokenField (start width : Nat) : Tree :=
  .node { kind := "field_declaration", start, length := 10 + width }
    [.node { kind := "variable_declaration", start, length := 9 + width }
      [ofLeaf "predefined_type" "type" start 3,
        .node { kind := "variable_declarator", start := start + 4, length := 5 + width }
          [ofLeaf "identifier" "name" (start + 4) 1, ofToken "=" (start + 6),
            .node { kind := "integer_literal", start := start + 8 + width, length := 1 } []]],
      ofToken ";" (start + 9 + width)]

/-- A class with such a field. -/
def brokenField : String := "class C \x7b\n  int n =\n    1;\n\x7d"

def brokenFieldTree : Tree := .ofFile 28 [.ofBrokenField 12 4]

/-- The field in a fragment that is indented by tabs. -/
def tabbedField : Fragment where
  source := "class C \x7b\n\tint n =\n\t  1;\n\x7d"
  tree := .ofFile 26 [.ofBrokenField 11 3]
  container := some "C"

/-- The field is moved to the tab and back. -/
theorem indentation_round_trips_tabbedField :
    shiftLines "int n =\n    1;" "  " "\t" = "int n =\n\t  1;" ∧
    shiftLines (shiftLines "int n =\n    1;" "  " "\t") "\t" "  " = "int n =\n    1;" ∧
    (∃ p ∈ replacedPairs brokenField (.ofClass 0 28 [.ofBrokenField 12 4]) tabbedField,
      tabbedField.Pastes brokenField p.1 p.2) ∧
    mergeFragment (fun _ => brokenFieldTree) brokenField ⟨"C", "C", "C.cs", 0⟩ tabbedField =
      none := by
  have hindents : Indents "  " ∧ Indents "\t" :=
    ⟨List.all_eq_true.mp (by decide), List.all_eq_true.mp (by decide)⟩
  obtain ⟨hback, -, hmerge⟩ :=
    indentation_round_trips "int n =\n    1;" hindents.1 hindents.2 (by decide +kernel)
  refine ⟨by decide +kernel, hback, by decide +kernel, hmerge _ _ _ _ fun type htype => ?_⟩
  obtain rfl : Tree.ofClass 0 28 [.ofBrokenField 12 4] = type := Option.some.inj htype
  decide +kernel

end CodeAtlas
