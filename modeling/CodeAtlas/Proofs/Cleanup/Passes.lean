import CodeAtlas.Proofs.Cleanup.Body

/-!
# What the passes take out

Every pass takes some of the visible characters out of a text and leaves the others in their order.
The white space that is left depends on the order of the passes: a pass that cuts lines out can join
two runs of blank lines, which are shortened only if that pass comes first.

## Main definitions

* `CleanupPass`, `CleanupPass.run`: the passes, one by one.
* `Grammar.Lawful`: the trees of a grammar describe their texts.
* `CleanupPass.marks`: which visible characters a pass takes out.

## Main statements

* `visible_unwrapAll`: unwrapping round by round takes out what it marks.
* `visible_shortenBlankRuns`: shortening runs of blank lines takes nothing visible out.
* `CleanupPass.visible_run`: a pass takes out what it marks and nothing else.
* `CleanupPass.run_not_commute_commentedBlanks`: two passes whose order matters.
-/
namespace CodeAtlas

open Text

variable {grammar : Grammar} {text next : String} {t n : Tree}

/-! ## Sparing step by step -/

section Spare

variable {α : Type*}

/-- Without marks all is spared. -/
@[simp] theorem spare_map_false (l : List α) : spare (l.map fun _ => false) l = l := by
  induction l with
  | nil => rfl
  | cons x l ih => rw [List.map_cons, spare_false_cons, ih]

/-- Puts marks for what `f` spares into the free places of `f`. -/
def refill : List Bool → List Bool → List Bool
  | true :: f, g => true :: refill f g
  | false :: f, b :: g => b :: refill f g
  | _, _ => []

@[simp] theorem spare_refill (f g : List Bool) (l : List α) :
    spare (refill f g) l = spare g (spare f l) := by
  induction f generalizing g l with
  | nil => simp [refill]
  | cons b f ih =>
    cases l with
    | nil => simp
    | cons x l =>
      cases b with
      | true => simp [refill, ih]
      | false =>
        cases g with
        | nil => simp [refill]
        | cons c g => cases c <;> simp [refill, ih]

end Spare

/-! ## Laws of a grammar -/

/-- Every tree describes its text, and a namespace has no empty body. -/
structure Grammar.Lawful (grammar : Grammar) : Prop where
  wellFormed : ∀ text, (grammar text).WellFormed text
  length_body_pos : ∀ text, ∀ t ∈ (grammar text).preorder, t.isNamespace = true →
    ∀ body ∈ t.field? "body", 0 < body.length

/-! ## Cutting out nodes -/

namespace Tree

mutual

theorem exists_of_mem_spansOf {p : Tree → Bool} {s : Span} :
    ∀ {t : Tree}, s ∈ t.spansOf p → ∃ n ∈ t.preorder, s = n.span
  | node d cs, h => by
    rw [spansOf] at h
    split at h
    · exact ⟨_, mem_preorder_self _, List.mem_singleton.mp h⟩
    · obtain ⟨n, hn, rfl⟩ := exists_of_mem_spansIn h
      exact ⟨n, List.mem_cons_of_mem _ hn, rfl⟩

theorem exists_of_mem_spansIn {p : Tree → Bool} {s : Span} :
    ∀ {cs : List Tree}, s ∈ spansIn p cs → ∃ n ∈ preorderAll cs, s = n.span
  | [], h => by simp [spansIn] at h
  | c :: cs, h => by
    rw [spansIn, List.mem_append] at h
    rcases h with h | h
    · split at h
      · obtain ⟨n, hn, rfl⟩ := exists_of_mem_spansOf h
        exact ⟨n, List.mem_append_left _ hn, rfl⟩
      · simp at h
    · obtain ⟨n, hn, rfl⟩ := exists_of_mem_spansIn h
      exact ⟨n, List.mem_append_right _ hn, rfl⟩

end

@[grind →] theorem WellFormed.valid_span (h : t.WellFormed text) : t.span.Valid text :=
  ⟨t.start_le_stop, h.isBoundary_start, h.isBoundary_stop⟩

theorem WellFormed.valid_of_mem_spansOf {p : Tree → Bool} {s : Span} (h : t.WellFormed text)
    (hs : s ∈ t.spansOf p) : s.Valid text := by
  obtain ⟨n, hn, rfl⟩ := exists_of_mem_spansOf hs
  exact (h.of_mem hn).valid_span

/-- The header of a namespace ends with its semicolon or with the namespace. -/
theorem valid_headerSpan (ht : t.span.Valid text)
    (hchildren : ∀ c ∈ t.children, t.start ≤ c.start ∧ c.span.Valid text) :
    t.headerSpan.Valid text := by
  rw [headerSpan]
  cases hfind : t.children.find? (·.kind == ";") with
  | none => exact ht
  | some c =>
    obtain ⟨hstart, hc⟩ := hchildren c (List.mem_of_find?_eq_some hfind)
    exact ⟨Nat.le_trans hstart c.start_le_stop, ht.isBoundary_start, hc.isBoundary_stop⟩

@[grind →] theorem WellFormed.valid_headerSpan (h : t.WellFormed text) : t.headerSpan.Valid text :=
  Tree.valid_headerSpan h.valid_span fun _ hc => ⟨h.start_le hc, (h.child hc).valid_span⟩

/-! ## Unwrapping round by round -/

mutual

@[grind →] theorem mem_preorder_of_namespaceIn? :
    ∀ {t : Tree}, t.namespaceIn? = some n → n ∈ t.preorder ∧ n.isNamespace = true
  | node d cs, h => by
    rw [namespaceIn?] at h
    obtain ⟨hmem, hn⟩ := mem_preorderAll_of_namespaceAmong? h
    exact ⟨List.mem_cons_of_mem _ hmem, hn⟩

@[grind →] theorem mem_preorderAll_of_namespaceAmong? :
    ∀ {cs : List Tree}, namespaceAmong? cs = some n →
      n ∈ preorderAll cs ∧ n.isNamespace = true
  | [], h => by simp [namespaceAmong?] at h
  | c :: cs, h => by
    have hrest (h : namespaceAmong? cs = some n) :
        n ∈ preorderAll (c :: cs) ∧ n.isNamespace = true := by
      obtain ⟨hmem, hn⟩ := mem_preorderAll_of_namespaceAmong? h
      exact ⟨List.mem_append_right _ hmem, hn⟩
    rw [namespaceAmong?] at h
    split at h
    · exact hrest h
    · split at h
      · next hc =>
        obtain rfl := Option.some.inj h
        exact ⟨List.mem_append_left _ (mem_preorder_self _), hc⟩
      · split at h
        · cases hin : namespaceIn? c with
          | none => exact hrest (by rwa [hin] at h)
          | some found =>
            rw [hin] at h
            obtain ⟨hmem, hn⟩ := mem_preorder_of_namespaceIn? (hin.trans h)
            exact ⟨List.mem_append_left _ hmem, hn⟩
        · exact hrest h

end

/-- What goes when the namespace `t` is taken out: its header, or its wrapper if it has a body. -/
def outerSpans (t : Tree) : List Span :=
  if t.isFileScope then [t.headerSpan] else t.wrapperSpans

end Tree

/-- The ranges of `text` that one round takes out. -/
def roundSpans (grammar : Grammar) (text : String) : List Span :=
  ((grammar text).namespaceIn?.map Tree.outerSpans).getD []

/-- The round from `text` to `next` takes out the outer parts of a namespace. -/
theorem visible_unwrapOnce? (h : grammar.Lawful) (hnext : unwrapOnce? grammar text = some next) :
    visible next = spare (coverage (roundSpans grammar text) text) (visible text) := by
  unfold unwrapOnce? at hnext
  obtain ⟨t, ht, hnext⟩ := Option.bind_eq_some_iff.mp hnext
  obtain ⟨hmem, hnamespace⟩ := Tree.mem_preorder_of_namespaceIn? ht
  have hwell := (h.wellFormed text).of_mem hmem
  rw [roundSpans, ht, Option.map_some, Option.getD_some, Tree.outerSpans]
  split at hnext
  · next hscope =>
    obtain rfl := Option.some.inj hnext
    rw [if_pos hscope]
    refine visible_removeSpans fun s hs => ?_
    obtain rfl := List.mem_singleton.mp hs
    exact hwell.valid_headerSpan
  · next hscope =>
    rw [if_neg hscope]
    exact visible_unwrapNamespace? hwell (h.length_body_pos text t hmem hnamespace) hnext

/-- No visible character of `text` is marked. -/
def unmarked (text : String) : List Bool :=
  (visible text).map fun _ => false

@[simp]
theorem spare_unmarked (text : String) : spare (unmarked text) (visible text) = visible text :=
  spare_map_false _

/-- Which visible characters go in at most `fuel` rounds. -/
def unwrapMarks (grammar : Grammar) : (fuel : Nat) → String → List Bool
  | 0, text => unmarked text
  | fuel + 1, text =>
    match unwrapOnce? grammar text with
    | none => unmarked text
    | some next =>
      if next = text then unmarked text
      else refill (coverage (roundSpans grammar text) text) (unwrapMarks grammar fuel next)

/-- Unwrapping round by round takes out what it marks. -/
theorem visible_unwrapAll (h : grammar.Lawful) (fuel : Nat) (text : String) :
    visible (unwrapAll grammar fuel text) =
      spare (unwrapMarks grammar fuel text) (visible text) := by
  induction fuel generalizing text with
  | zero => exact (spare_unmarked text).symm
  | succ fuel ih =>
    rw [unwrapAll, unwrapMarks]
    cases hnext : unwrapOnce? grammar text with
    | none => exact (spare_unmarked text).symm
    | some next =>
      dsimp only
      split
      · exact (spare_unmarked text).symm
      · rw [ih, visible_unwrapOnce? h hnext, spare_refill]

/-! ## Blank lines -/

/-- A blank segment holds white space only. -/
theorem isBlank_of_isBlankSegment {seg : List Char} (h : isBlankSegment seg = true) :
    ∀ c ∈ seg, isBlank c = true := by
  have hend : ∀ c ∈ seg.dropWhile isIndent, isBlank c = true := by
    unfold isBlankSegment at h
    split at h
    · next heq =>
      rw [heq]
      exact List.all_eq_true.mp (by decide)
    · next heq =>
      rw [heq]
      exact List.all_eq_true.mp (by decide)
    · simp at h
  intro c hc
  rw [← List.takeWhile_append_dropWhile (p := isIndent) (l := seg), List.mem_append] at hc
  rcases hc with hc | hc
  · exact isBlank_of_isIndent (List.mem_takeWhile_imp hc)
  · exact hend c hc

theorem filter_flatten_of_blank {run : List (List Char)}
    (h : ∀ seg ∈ run, isBlankSegment seg = true) : run.flatten.filter (!isBlank ·) = [] := by
  refine List.filter_eq_nil_iff.mpr fun c hc => ?_
  obtain ⟨seg, hseg, hc⟩ := List.mem_flatten.mp hc
  simp [isBlank_of_isBlankSegment (h seg hseg) c hc]

theorem isBlankSegment_of_mem_writeRun {run : List (List Char)}
    (h : ∀ seg ∈ run, isBlankSegment seg = true) :
    ∀ seg ∈ writeRun run, isBlankSegment seg = true := by
  unfold writeRun
  split
  · exact h
  · decide

theorem filter_flatten_shortenRuns (segs : List (List Char)) {run : List (List Char)}
    (h : ∀ seg ∈ run, isBlankSegment seg = true) :
    (shortenRuns run segs).flatten.filter (!isBlank ·) = segs.flatten.filter (!isBlank ·) := by
  -- the run that the rest continues is blank throughout
  induction segs generalizing run with
  | nil => exact filter_flatten_of_blank (isBlankSegment_of_mem_writeRun h)
  | cons seg segs ih =>
    rw [shortenRuns, List.flatten_cons, List.filter_append]
    split
    · next hseg =>
      have hlonger : ∀ s ∈ run ++ [seg], isBlankSegment s = true :=
        List.forall_mem_append.mpr ⟨h, by simpa using hseg⟩
      have hblank : seg.filter (!isBlank ·) = [] :=
        List.filter_eq_nil_iff.mpr fun c hc => by simp [isBlank_of_isBlankSegment hseg c hc]
      rw [ih hlonger, hblank, List.nil_append]
    · have hrun := filter_flatten_of_blank (isBlankSegment_of_mem_writeRun h)
      rw [List.flatten_append, List.filter_append, hrun, List.nil_append, List.flatten_cons,
        List.filter_append, ih (by simp)]

/-- Shortening runs of blank lines takes nothing visible out. -/
@[simp] theorem visible_shortenBlankRuns (text : String) :
    visible (shortenBlankRuns text) = visible text := by
  rw [shortenBlankRuns, visible_ofList, filter_flatten_shortenRuns _ (by simp),
    flatten_segmentChars, visible]

/-! ## The passes -/

/-- The passes that a text can go through. -/
inductive CleanupPass where
  | comments
  | imports
  | namespaces
  | blankLines
deriving DecidableEq

namespace CleanupPass

/-- What a pass makes of a text. -/
def run (grammar : Grammar) : CleanupPass → String → String
  | comments => withoutComments grammar
  | imports => withoutImports grammar
  | namespaces => withoutNamespaces grammar
  | blankLines => shortenBlankRuns

/-- Which of the visible characters of a text a pass takes out. -/
def marks (grammar : Grammar) : CleanupPass → String → List Bool
  | comments, text => coverage ((grammar text).spansOf (·.kind == "comment")) text
  | imports, text =>
    coverage ((grammar text).spansOf fun t =>
      t.kind == "using_directive" || t.kind == "extern_alias_directive") text
  | namespaces, text => unwrapMarks grammar (text.utf8ByteSize + 1) text
  | blankLines, text => unmarked text

/-- A pass takes out what it marks and nothing else that is visible. -/
theorem visible_run (h : grammar.Lawful) (P : CleanupPass) (text : String) :
    visible (P.run grammar text) = spare (P.marks grammar text) (visible text) := by
  have hwell := h.wellFormed text
  cases P with
  | comments => exact visible_removeSpans fun s hs => hwell.valid_of_mem_spansOf hs
  | imports => exact visible_removeSpans fun s hs => hwell.valid_of_mem_spansOf hs
  | namespaces => exact visible_unwrapAll h _ text
  | blankLines => exact (visible_shortenBlankRuns text).trans (spare_unmarked text).symm

end CleanupPass

/-! ## Texts of a table -/

/-- The tree of a `text` in which the `nodes`, given by kind and range, lie side by side. -/
def Tree.ofNodes (text : String) (nodes : List (String × Span)) : Tree :=
  .node { kind := "compilation_unit", length := text.utf8ByteSize }
    (nodes.map fun x =>
      .node { kind := x.1, start := x.2.start, length := x.2.stop - x.2.start } [])

theorem Tree.wellFormed_ofNodes_nil (text : String) : (ofNodes text []).WellFormed text := by
  refine wellFormed_iff.mpr fun n hn => ?_
  simp only [ofNodes, List.map_nil, preorder, preorderAll, List.mem_singleton] at hn
  subst hn
  have hslice : slice? text 0 (0 + text.utf8ByteSize) = some text :=
    slice?_eq_some_iff.mpr ⟨"", "", by simp, rfl, rfl⟩
  refine ⟨?_, by simp, by simp, by simp⟩
  simp only [start, stop, length, data_node, hslice, Option.isSome_some]

/-- The grammar that finds the nodes of the texts in `table` and none in the others. -/
def Grammar.ofTable (table : List (String × List (String × Span))) : Grammar :=
  fun text => .ofNodes text ((table.lookup text).getD [])

/-- If the widened `spans` are in order already, they are removed one after the other. -/
theorem removeSpans_of_pairwise {spans : List Span}
    (h : (spans.map (widen text)).Pairwise fun s w => s.before w = true) :
    removeSpans text spans = cutFrom text 0 (spans.map (widen text)) := by
  rw [removeSpans, List.mergeSort_of_pairwise h]

namespace CleanupPass

/-- A comment with two blank lines in front of it and one after it. -/
def commentedBlanks : String := "\n\n// c\n\n"

/-- Without the comment the blank lines make a run of three. It is shortened only if the comment
goes first. -/
theorem run_not_commute_commentedBlanks :
    let grammar := Grammar.ofTable [(commentedBlanks, [("comment", ⟨2, 6⟩)])]
    comments.run grammar (blankLines.run grammar commentedBlanks) = "\n\n\n" ∧
    blankLines.run grammar (comments.run grammar commentedBlanks) = "\n\n" := by
  intro grammar
  have hblank : shortenBlankRuns commentedBlanks = commentedBlanks := by decide +kernel
  have hcomments : withoutComments grammar commentedBlanks = "\n\n\n" := by
    rw [withoutComments, removeSpans_of_pairwise (by decide +kernel)]
    decide +kernel
  refine ⟨?_, ?_⟩
  · rw [run, run, hblank, hcomments]
  · rw [run, run, hcomments]
    decide +kernel

end CleanupPass

end CodeAtlas
