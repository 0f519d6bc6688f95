import CodeAtlas.Proofs.Cleanup.Passes
import CodeAtlas.Proofs.Text.Edge
import Mathlib.Data.List.Pairwise
import Mathlib.Order.Monotone.Defs

/-!
# Words that comments keep apart

Without its comments a text still has all its words, and two words are apart as before if there is
white space between them that belongs to no comment. A comment that alone keeps two words apart is
not replaced by anything: without it they are one word.

The white space around a comment goes with it where its line is blank otherwise, and the spaces in
front of it go where nothing follows on its line. In both cases a line feed is left between the
words around the comment.

## Main definitions

* `Tree.words`: the leaves other than comments that have a text.
* `Tree.uncommented`: what stands between two offsets outside all comments.
* `Tree.Commented`: the laws of comments and of the words beside them.

## Main statements

* `Tree.Layered.disjoint_of_leaves`: two leaves of a tree do not overlap.
* `Tree.mem_spansOf_iff`: which ranges are found through named nodes.
* `Tree.Commented.not_covered_of_mem_words`: nothing of a word is removed.
* `Tree.Commented.exists_uncovered`: of white space between two words something is left.
* `withoutComments_separates`: the words of a text without its comments, and what is between them.
-/
namespace CodeAtlas

open Text

variable {text : String} {s : Span} {t n c : Tree} {x : Nat × Char}

/-! ## How far a range is widened -/

@[simp] theorem Span.covers_eq_true {offset : Nat} :
    s.covers offset = true ↔ s.start ≤ offset ∧ offset < s.stop := by
  simp [covers]

/-- A range is not widened beyond the start of its line, and not to the left at all unless it has
only white space after it on its line. -/
theorem widen_start (text : String) (s : Span) :
    lineStart text s.start ≤ (widen text s).start ∧ ((widen text s).start < s.start →
      blank (firstLine (after text s.stop)) = true) := by
  unfold widen lineStart
  dsimp only
  split
  · next hblank => exact ⟨Nat.le_refl _, fun _ => (Bool.and_eq_true_iff.mp hblank).2⟩
  · split
    · next hblank => exact ⟨by dsimp only; omega, fun _ => hblank⟩
    · exact ⟨Nat.sub_le _ _, fun hlt => absurd hlt (Nat.lt_irrefl _)⟩

/-- A range is not widened beyond the line feed at the end of its line, and not to the right at all
unless it has only white space around it on its lines. -/
theorem widen_stop (text : String) (s : Span) :
    (widen text s).stop ≤ lineStop text s.stop + 1 ∧ (s.stop < (widen text s).stop →
      blank (lastLine (before text s.start)) = true ∧
      blank (firstLine (after text s.stop)) = true) := by
  unfold widen lineStop
  dsimp only
  split
  · next hblank => exact ⟨Nat.min_le_left _ _, fun _ => Bool.and_eq_true_iff.mp hblank⟩
  · split
    · exact ⟨by dsimp only; omega, fun hlt => absurd hlt (Nat.lt_irrefl _)⟩
    · exact ⟨by omega, fun hlt => absurd hlt (Nat.lt_irrefl _)⟩

/-- What a range is widened by to the left is white space of its line. -/
theorem blank_of_widen_start_le (h : s.Valid text) (hx : x ∈ offsets text)
    (hstart : (widen text s).start ≤ x.1) (hlt : x.1 < s.start) :
    isBlank x.2 = true ∧ x.2 ≠ '\n' := by
  have hwidens := widens_widen h
  constructor
  · have hstop := hwidens.le_stop
    have hle := h.start_le_stop
    refine hwidens.isBlank_of_covers x hx (Span.covers_eq_true.mpr ⟨hstart, by omega⟩) ?_
    rw [← Bool.not_eq_true, Span.covers_eq_true]
    omega
  · intro hfeed
    have hmem := mem_of_mem_offsets (slice?_lineStart h.isBoundary_start) hx
      (Nat.le_trans (widen_start text s).1 hstart) hlt
    obtain ⟨-, -, -, hnone⟩ := exists_eq_append_lastLine (before text s.start)
    exact hnone (hfeed ▸ hmem)

namespace Tree

/-! ## Leaves -/

/-- Two leaves of a tree do not overlap. -/
theorem Layered.disjoint_of_leaves {m : Tree} (h : t.Layered) (hn : n ∈ t.preorder)
    (hm : m ∈ t.preorder) (hleaf : n.children = []) (hleaf' : m.children = []) (hne : n ≠ m) :
    n.stop ≤ m.start ∨ m.stop ≤ n.start := by
  induction t using childInduction with
  | inherit t ih =>
    rcases mem_preorder_iff.mp hn with rfl | ⟨c, hc, hn⟩
    · rcases mem_preorder_iff.mp hm with rfl | ⟨d, hd, -⟩
      · exact absurd rfl hne
      · simp [hleaf] at hd
    · rcases mem_preorder_iff.mp hm with rfl | ⟨d, hd, hm⟩
      · simp [hleaf'] at hc
      · by_cases hcd : c = d
        · subst hcd
          exact ih c hc (h.child hc) hn hm
        · -- leaves under different children are apart as these are
          have hn := (h.child hc).start_le_of_mem hn
          have hm := (h.child hd).start_le_of_mem hm
          have hsymm : Std.Symm fun c d : Tree => c.stop ≤ d.start ∨ d.stop ≤ c.start :=
            ⟨fun _ _ => Or.symm⟩
          have hapart : t.children.Pairwise fun c d => c.stop ≤ d.start ∨ d.stop ≤ c.start :=
            h.pairwise_children.imp .inl
          have := hapart.forall hc hd hcd
          omega

@[simp] theorem mem_spansIn_iff {p : Tree → Bool} {cs : List Tree} :
    s ∈ spansIn p cs ↔ ∃ c ∈ cs, c.named = true ∧ s ∈ c.spansOf p := by
  induction cs with
  | nil => simp [spansIn]
  | cons c cs ih =>
    rw [spansIn, List.mem_append, ih]
    by_cases hc : c.named = true <;> simp [hc]

/-- If what is looked for are named leaves and only leaves are unnamed, all of it is found. -/
theorem mem_spansOf_iff {p : Tree → Bool}
    (hnamed : ∀ n ∈ t.preorder, n.named = false → n.children = [] ∧ p n = false)
    (hleaf : ∀ n ∈ t.preorder, p n = true → n.children = []) :
    s ∈ t.spansOf p ↔ ∃ n ∈ t.preorder, p n = true ∧ s = n.span := by
  induction t using childInduction with
  | inherit t ih =>
    obtain ⟨d, cs⟩ := t
    rw [spansOf]
    split
    · next hp =>
      have hnil : cs = [] := hleaf _ (mem_preorder_self _) hp
      subst hnil
      simp [preorder, preorderAll, hp]
    · next hp =>
      have hsub {c : Tree} (hc : c ∈ cs) {n : Tree} (hn : n ∈ c.preorder) :
          n ∈ (node d cs).preorder := mem_preorder_iff.mpr (.inr ⟨c, hc, hn⟩)
      rw [mem_spansIn_iff]
      constructor
      · rintro ⟨c, hc, -, hs⟩
        obtain ⟨n, hn, hpn, rfl⟩ := (ih c hc (fun n hn => hnamed n (hsub hc hn))
          fun n hn => hleaf n (hsub hc hn)).mp hs
        exact ⟨n, hsub hc hn, hpn, rfl⟩
      · rintro ⟨n, hn, hpn, rfl⟩
        rcases mem_preorder_iff.mp hn with rfl | ⟨c, hc, hn⟩
        · exact absurd hpn hp
        · have hc' : c ∈ (node d cs).children := hc
          have hspan := (ih c hc' (fun n hn => hnamed n (hsub hc hn))
            fun n hn => hleaf n (hsub hc hn)).mpr ⟨n, hn, hpn, rfl⟩
          refine ⟨c, hc, ?_, hspan⟩
          by_contra hname
          -- an unnamed node would be the leaf itself
          obtain ⟨hnil, hpc⟩ := hnamed c (hsub hc (mem_preorder_self c)) (by simpa using hname)
          rcases mem_preorder_iff.mp hn with rfl | ⟨d, hd, -⟩
          · simp [hpc] at hpn
          · simp [hnil] at hd

/-! ## Comments and words -/

def comments (t : Tree) : List Tree :=
  t.preorder.filter (·.kind == "comment")

/-- A comment of `t` covers the `offset`. -/
def commentAt (t : Tree) (offset : Nat) : Bool :=
  t.comments.any (·.span.covers offset)

/-- The leaves of `t` other than comments that have a text. -/
def words (t : Tree) : List Tree :=
  t.preorder.filter fun n => n.children.isEmpty && n.kind != "comment" && 0 < n.length

/-- The characters of `text` between the offsets `a` and `b` that stand in no comment. -/
def uncommented (t : Tree) (text : String) (a b : Nat) : List Char :=
  keep (fun o => !t.commentAt o && (a ≤ o && o < b)) text

/-- The tree `t` describes `text`, comments and the inner nodes are named, and what can be seen of a
comment or of a word is not hidden at its edges: a comment begins and ends on lines that are not
blank, a word that has only spaces between it and a comment after it ends visibly, and a word that
has only spaces between it and a comment in front of it has something to see on its first line. -/
structure Commented (text : String) (t : Tree) : Prop where
  wellFormed : t.WellFormed text
  named : ∀ n ∈ t.preorder, n.named = false → n.children = [] ∧ n.kind ≠ "comment"
  firstLine_comment : ∀ c ∈ t.comments, blank (firstLine (c.text text)) = false
  lastLine_comment : ∀ c ∈ t.comments, blank (lastLine (c.text text)) = false
  endsVisibly : ∀ n ∈ t.words, ∀ c ∈ t.comments, n.stop ≤ c.start →
    spaced text n.stop c.start = true → EndsVisibly (n.text text)
  firstLine_word : ∀ n ∈ t.words, ∀ c ∈ t.comments, c.stop ≤ n.start →
    spaced text c.stop n.start = true → blank (firstLine (n.text text)) = false

@[simp] theorem mem_comments : c ∈ t.comments ↔ c ∈ t.preorder ∧ c.kind = "comment" := by
  simp [comments]

@[simp] theorem mem_words : n ∈ t.words ↔
    n ∈ t.preorder ∧ n.children = [] ∧ n.kind ≠ "comment" ∧ n.start < n.stop := by
  simp [words, stop, and_assoc]

theorem WellFormed.slice?_text (h : t.WellFormed text) (hn : n ∈ t.preorder) :
    slice? text n.start n.stop = some (n.text text) := by
  obtain ⟨s, hs⟩ := h.readable n hn
  rw [hs, Tree.text, slice_eq_of_slice? hs]

theorem commentAt_eq_false {offset : Nat} : t.commentAt offset = false ↔
    ∀ c ∈ t.comments, ¬ (c.start ≤ offset ∧ offset < c.stop) := by
  simp only [commentAt, List.any_eq_false, Span.covers_eq_true]
  rfl

/-- The ranges of `text` that go with the comments of `t`. -/
def commentSpans (t : Tree) (text : String) : List Span :=
  (t.spansOf (·.kind == "comment")).map (widen text)

/-- The characters of `text` between the offsets `a` and `b` that do not go with a comment. -/
def spared (t : Tree) (text : String) (a b : Nat) : List Char :=
  keep (fun o => !covered (t.commentSpans text) o && (a ≤ o && o < b)) text

namespace Commented

variable {a b : Tree} {offset : Nat}

/-- The ranges of the comments are removed and no others. -/
theorem any_spansOf (h : t.Commented text) (p : Span → Bool) :
    (t.spansOf (·.kind == "comment")).any p = t.comments.any fun c => p c.span := by
  have hmem (s : Span) : s ∈ t.spansOf (·.kind == "comment") ↔
      ∃ c ∈ t.preorder, (c.kind == "comment") = true ∧ s = c.span :=
    mem_spansOf_iff (fun n hn hname => by simpa using h.named n hn hname)
      fun n hn hkind => h.wellFormed.comment_leaf n hn (by simpa using hkind)
  rw [Bool.eq_iff_iff, List.any_eq_true, List.any_eq_true]
  constructor
  · rintro ⟨s, hs, hp⟩
    obtain ⟨c, hc, hkind, rfl⟩ := (hmem s).mp hs
    exact ⟨c, List.mem_filter.mpr ⟨hc, hkind⟩, hp⟩
  · rintro ⟨c, hc, hp⟩
    obtain ⟨hc, hkind⟩ := List.mem_filter.mp hc
    exact ⟨c.span, (hmem c.span).mpr ⟨c, hc, hkind, rfl⟩, hp⟩

theorem wellFormed_comment (h : t.Commented text) (hc : c ∈ t.comments) : c.WellFormed text :=
  h.wellFormed.of_mem (mem_comments.mp hc).1

theorem slice?_comment (h : t.Commented text) (hc : c ∈ t.comments) :
    slice? text c.start c.stop = some (c.text text) :=
  h.wellFormed.slice?_text (mem_comments.mp hc).1

theorem wellFormed_word (h : t.Commented text) (hn : n ∈ t.words) : n.WellFormed text :=
  h.wellFormed.of_mem (mem_words.mp hn).1

theorem slice?_word (h : t.Commented text) (hn : n ∈ t.words) :
    slice? text n.start n.stop = some (n.text text) :=
  h.wellFormed.slice?_text (mem_words.mp hn).1

theorem children_comment (h : t.Commented text) (hc : c ∈ t.comments) : c.children = [] :=
  h.wellFormed.comment_leaf c (mem_comments.mp hc).1 (mem_comments.mp hc).2

theorem disjoint (h : t.Commented text) (hn : n ∈ t.words) (hc : c ∈ t.comments) :
    n.stop ≤ c.start ∨ c.stop ≤ n.start := by
  obtain ⟨hmem, hleaf, hne, -⟩ := mem_words.mp hn
  obtain ⟨hc', hkind⟩ := mem_comments.mp hc
  refine h.wellFormed.layered.disjoint_of_leaves hmem hc' hleaf (h.children_comment hc) ?_
  rintro rfl
  exact hne hkind

theorem disjoint_comments (h : t.Commented text) {d : Tree} (hc : c ∈ t.comments)
    (hd : d ∈ t.comments) (hne : c ≠ d) : c.stop ≤ d.start ∨ d.stop ≤ c.start :=
  h.wellFormed.layered.disjoint_of_leaves (mem_comments.mp hc).1 (mem_comments.mp hd).1
    (h.children_comment hc) (h.children_comment hd) hne

/-! ## Words beside a comment -/

/-- A comment is not widened over the end of a word in front of it. -/
theorem lt_widen_start (h : t.Commented text) (hn : n ∈ t.words) (hc : c ∈ t.comments)
    (hle : n.stop ≤ c.start) (hx : x ∈ offsets text) (hlt : x.1 < n.stop) :
    x.1 < (widen text c.span).start := by
  have hvalid := (h.wellFormed_comment hc).valid_span
  by_contra hge
  -- only white space of the line would be left between the word and the comment
  have hspaced : spaced text n.stop c.start = true :=
    spaced_of_forall (h.wellFormed_word hn).isBoundary_stop
      (h.wellFormed_comment hc).isBoundary_start hle
      fun y hy hny hyc => blank_of_widen_start_le hvalid hy (by omega) hyc
  have hends := h.endsVisibly n hn c hc hle hspaced
  obtain ⟨y, hy, hxy, hyn, hvisible⟩ := hends.exists_mem_offsets (h.slice?_word hn) hx hlt
  have hblank := (blank_of_widen_start_le hvalid hy (by omega) (Nat.lt_of_lt_of_le hyn hle)).1
  simp [hvisible] at hblank

theorem stop_lt_lineStart (h : t.Commented text) (hn : n ∈ t.words) (hc : c ∈ t.comments)
    (hle : n.stop ≤ c.start) (hlead : blank (lastLine (before text c.start)) = true) :
    n.stop < lineStart text c.start := by
  have hstart := (h.wellFormed_comment hc).isBoundary_start
  by_contra hge
  have hspaced := spaced_of_lineStart_le hstart hlead (h.wellFormed_word hn).isBoundary_stop
    (by omega) hle
  have hends := h.endsVisibly n hn c hc hle hspaced
  exact hge (lt_lineStart hstart hlead (h.slice?_word hn) hends.blank_lastLine hle)

theorem lineStop_lt_start (h : t.Commented text) (hn : n ∈ t.words) (hc : c ∈ t.comments)
    (hle : c.stop ≤ n.start) (htail : blank (firstLine (after text c.stop)) = true) :
    lineStop text c.stop < n.start := by
  have hstop := (h.wellFormed_comment hc).isBoundary_stop
  by_contra hge
  have hspaced := spaced_of_le_lineStop hstop htail (h.wellFormed_word hn).isBoundary_start
    (by omega) hle
  have hfirst := h.firstLine_word n hn c hc hle hspaced
  exact hge (lineStop_lt hstop htail (h.slice?_word hn) hfirst hle)

/-- A comment is not widened over the start of a word after it. -/
theorem widen_stop_le (h : t.Commented text) (hn : n ∈ t.words) (hc : c ∈ t.comments)
    (hle : c.stop ≤ n.start) : (widen text c.span).stop ≤ n.start := by
  obtain ⟨hstop, hblank⟩ := widen_stop text c.span
  by_contra hlt
  have hnext := h.lineStop_lt_start hn hc hle (hblank (Nat.lt_of_le_of_lt hle (by omega))).2
  have hstop' : (widen text c.span).stop ≤ lineStop text c.stop + 1 := hstop
  omega

/-! ## What is removed -/

theorem covered_iff (h : t.Commented text) :
    covered (t.commentSpans text) offset = true ↔ ∃ c ∈ t.comments,
      (widen text c.span).start ≤ offset ∧ offset < (widen text c.span).stop := by
  rw [covered, commentSpans, List.any_map, h.any_spansOf, List.any_eq_true]
  simp only [Function.comp_apply, Span.covers_eq_true]

/-- Nothing of a word is removed. -/
theorem not_covered_of_mem_words (h : t.Commented text) (hn : n ∈ t.words)
    (hx : x ∈ offsets text) (hstart : n.start ≤ x.1) (hstop : x.1 < n.stop) :
    covered (t.commentSpans text) x.1 = false := by
  rw [← Bool.not_eq_true, h.covered_iff]
  rintro ⟨c, hc, hle, hlt⟩
  rcases h.disjoint hn hc with hbefore | hafter
  · have := h.lt_widen_start hn hc hbefore hx hstop
    omega
  · have := h.widen_stop_le hn hc hafter
    omega

theorem commentAt_of_not_covered (h : t.Commented text)
    (hout : covered (t.commentSpans text) offset = false) : t.commentAt offset = false := by
  rw [← Bool.not_eq_true, h.covered_iff] at hout
  refine commentAt_eq_false.mpr fun c hc hin => hout ⟨c, hc, ?_⟩
  have hwidens := widens_widen (h.wellFormed_comment hc).valid_span
  exact ⟨Nat.le_trans hwidens.start_le hin.1, Nat.lt_of_lt_of_le hin.2 hwidens.le_stop⟩

/-- What is removed between two words stands beside a comment between them. -/
theorem exists_comment_between (h : t.Commented text) (ha : a ∈ t.words) (hb : b ∈ t.words)
    (hle : a.stop ≤ offset) (hlt : offset < b.start)
    (hcovered : covered (t.commentSpans text) offset = true) (hout : t.commentAt offset = false) :
    ∃ c ∈ t.comments, a.stop ≤ c.start ∧ c.stop ≤ b.start ∧
      ((widen text c.span).start ≤ offset ∧ offset < c.start ∨
        c.stop ≤ offset ∧ offset < (widen text c.span).stop) := by
  obtain ⟨c, hc, hstart, hstop⟩ := h.covered_iff.mp hcovered
  have hside := commentAt_eq_false.mp hout c hc
  obtain ⟨-, -, -, hbpos⟩ := mem_words.mp hb
  refine ⟨c, hc, ?_, ?_, by omega⟩
  · have := a.start_le_stop
    rcases h.disjoint ha hc with hbefore | hafter
    · exact hbefore
    · have := h.widen_stop_le ha hc hafter
      omega
  · rcases h.disjoint hb hc with hbefore | hafter
    · -- the comment would reach over the first character of the word
      obtain ⟨d, hd⟩ : ∃ d, d ∈ (b.text text).toList := by
        refine List.exists_mem_of_ne_nil _ fun hnil => ?_
        have hsize := size_of_slice? (h.slice?_word hb)
        rw [String.toList_eq_nil_iff.mp hnil, String.utf8ByteSize_empty] at hsize
        omega
      obtain ⟨o, ho, hbo, hob⟩ := exists_mem_offsets (h.slice?_word hb) hd
      have := h.lt_widen_start hb hc hbefore ho hob
      dsimp only at this
      omega
    · exact hafter

/-! ## Line feeds that are left -/

/-- A line feed stands between a word and a comment with nothing in front of it on its line. -/
theorem exists_lineFeed_before (h : t.Commented text) (ha : a ∈ t.words) (hc : c ∈ t.comments)
    (hle : a.stop ≤ c.start) (hlead : blank (lastLine (before text c.start)) = true) :
    ∃ o, (o, '\n') ∈ offsets text ∧ a.stop ≤ o ∧ o < c.start ∧ t.commentAt o = false := by
  have hstart := (h.wellFormed_comment hc).isBoundary_start
  have hlt := h.stop_lt_lineStart ha hc hle hlead
  have hline := lineStart_le text c.start
  refine ⟨lineStart text c.start - 1, mem_offsets_lineStart hstart (by omega), by omega, by omega,
    commentAt_eq_false.mpr fun d hd hin => ?_⟩
  have hne : d ≠ c := by
    rintro rfl
    omega
  have hstop : d.stop ≤ c.start := by
    have := c.start_le_stop
    rcases h.disjoint_comments hd hc hne with hbefore | hafter <;> omega
  have := lt_lineStart hstart hlead (h.slice?_comment hd) (h.lastLine_comment d hd) hstop
  omega

/-- A line feed stands between a comment with nothing after it on its line and a word. -/
theorem exists_lineFeed_after (h : t.Commented text) (hb : b ∈ t.words) (hc : c ∈ t.comments)
    (hle : c.stop ≤ b.start) (htail : blank (firstLine (after text c.stop)) = true) :
    ∃ o, (o, '\n') ∈ offsets text ∧ c.stop ≤ o ∧ o < b.start ∧ t.commentAt o = false := by
  have hstop := (h.wellFormed_comment hc).isBoundary_stop
  have hlt := h.lineStop_lt_start hb hc hle htail
  have hline := le_lineStop text c.stop
  have hsize := (h.wellFormed_word hb).isBoundary_start.le
  refine ⟨lineStop text c.stop, mem_offsets_lineStop hstop (by omega), hline, hlt,
    commentAt_eq_false.mpr fun d hd hin => ?_⟩
  have hspan := c.start_le_stop
  have hne : d ≠ c := by
    rintro rfl
    omega
  have hstart : c.stop ≤ d.start := by
    rcases h.disjoint_comments hd hc hne with hbefore | hafter <;> omega
  have := lineStop_lt hstop htail (h.slice?_comment hd) (h.firstLine_comment d hd) hstart
  omega

/-- If there is a line feed outside the comments between two words, one is left. -/
theorem exists_uncovered_lineFeed (h : t.Commented text) (ha : a ∈ t.words) (hb : b ∈ t.words)
    (hfeed : (offset, '\n') ∈ offsets text) (hle : a.stop ≤ offset) (hlt : offset < b.start)
    (hout : t.commentAt offset = false) :
    ∃ o, (o, '\n') ∈ offsets text ∧ a.stop ≤ o ∧ o < b.start ∧
      covered (t.commentSpans text) o = false := by
  -- a line feed that goes with a comment has another one in front of the comment
  induction offset using Nat.strongRecOn with
  | ind offset ih =>
    by_cases hcovered : covered (t.commentSpans text) offset = true
    · obtain ⟨c, hc, hac, hcb, hleft | hright⟩ :=
        h.exists_comment_between ha hb hle hlt hcovered hout
      · have hvalid := (h.wellFormed_comment hc).valid_span
        exact absurd rfl (blank_of_widen_start_le hvalid hfeed hleft.1 hleft.2).2
      · have hlead := ((widen_stop text c.span).2 (Nat.lt_of_le_of_lt hright.1 hright.2)).1
        obtain ⟨o, ho, hao, hoc, hnone⟩ := h.exists_lineFeed_before ha hc hac hlead
        have := c.start_le_stop
        exact ih o (by omega) ho hao (by omega) hnone
    · exact ⟨offset, hfeed, hle, hlt, by simpa using hcovered⟩

/-- If there is white space outside the comments between two words, some is left. -/
theorem exists_uncovered (h : t.Commented text) (ha : a ∈ t.words) (hb : b ∈ t.words)
    (hx : x ∈ offsets text) (hblank : isBlank x.2 = true) (hle : a.stop ≤ x.1)
    (hlt : x.1 < b.start) (hout : t.commentAt x.1 = false) :
    ∃ y ∈ offsets text, isBlank y.2 = true ∧ a.stop ≤ y.1 ∧ y.1 < b.start ∧
      covered (t.commentSpans text) y.1 = false := by
  by_cases hcovered : covered (t.commentSpans text) x.1 = true
  · obtain ⟨c, hc, hac, hcb, hside⟩ := h.exists_comment_between ha hb hle hlt hcovered hout
    have hspan := c.start_le_stop
    obtain ⟨o, ho, hao, hob, hnone⟩ : ∃ o, (o, '\n') ∈ offsets text ∧ a.stop ≤ o ∧ o < b.start ∧
        t.commentAt o = false := by
      rcases hside with hleft | hright
      · have htail := (widen_start text c.span).2 (Nat.lt_of_le_of_lt hleft.1 hleft.2)
        obtain ⟨o, ho, hco, hob, hnone⟩ := h.exists_lineFeed_after hb hc hcb htail
        exact ⟨o, ho, by omega, hob, hnone⟩
      · have hlead := ((widen_stop text c.span).2 (Nat.lt_of_le_of_lt hright.1 hright.2)).1
        obtain ⟨o, ho, hao, hoc, hnone⟩ := h.exists_lineFeed_before ha hc hac hlead
        exact ⟨o, ho, hao, by omega, hnone⟩
    obtain ⟨o, ho, hao, hob, hnone⟩ := h.exists_uncovered_lineFeed ha hb ho hao hob hnone
    exact ⟨(o, '\n'), ho, (by decide : isBlank '\n' = true), hao, hob, hnone⟩
  · exact ⟨x, hx, hblank, hle, hlt, by simpa using hcovered⟩

/-- What is visible is removed only with a comment that it belongs to. -/
theorem covered_of_visible (h : t.Commented text) (hx : x ∈ offsets text)
    (hvisible : isBlank x.2 = false) : covered (t.commentSpans text) x.1 = t.commentAt x.1 := by
  have hvalid : ∀ s ∈ t.spansOf (·.kind == "comment"), s.Valid text :=
    fun s hs => h.wellFormed.valid_of_mem_spansOf hs
  rw [commentSpans, covered_map_widen hvalid hx hvisible, covered, h.any_spansOf]
  rfl

/-- All of a leaf other than a comment is left. -/
theorem spared_eq_text (h : t.Commented text) (hn : n ∈ t.preorder) (hleaf : n.children = [])
    (hkind : n.kind ≠ "comment") : t.spared text n.start n.stop = (n.text text).toList := by
  rw [spared, ← keep_slice (h.wellFormed.slice?_text hn)]
  refine keep_congr fun x hx => ?_
  by_cases hin : n.start ≤ x.1 ∧ x.1 < n.stop
  · have hword : n ∈ t.words := mem_words.mpr ⟨hn, hleaf, hkind, by omega⟩
    simp [h.not_covered_of_mem_words hword hx hin.1 hin.2]
  · have hout : (decide (n.start ≤ x.1) && decide (x.1 < n.stop)) = false := by
      simpa using hin
    rw [hout, Bool.and_false]

theorem filter_spared (h : t.Commented text) (i j : Nat) :
    (t.spared text i j).filter (!isBlank ·) = (t.uncommented text i j).filter (!isBlank ·) := by
  rw [spared, uncommented, keep, keep, List.filter_map, List.filter_map, List.filter_filter,
    List.filter_filter]
  congr 1
  refine List.filter_congr fun x hx => ?_
  rw [Function.comp_apply]
  by_cases hvisible : isBlank x.2 = true
  · simp [hvisible]
  · rw [h.covered_of_visible hx (by simpa using hvisible)]

theorem exists_blank_spared_iff (h : t.Commented text) (ha : a ∈ t.words) (hb : b ∈ t.words) :
    (∃ d ∈ t.spared text a.stop b.start, isBlank d = true) ↔
      ∃ d ∈ t.uncommented text a.stop b.start, isBlank d = true := by
  simp only [spared, uncommented, keep, List.mem_map, List.mem_filter, Bool.and_eq_true,
    Bool.not_eq_true', decide_eq_true_eq]
  constructor
  · rintro ⟨_, ⟨x, ⟨hx, hout, hin⟩, rfl⟩, hblank⟩
    exact ⟨x.2, ⟨x, ⟨hx, h.commentAt_of_not_covered hout, hin⟩, rfl⟩, hblank⟩
  · rintro ⟨_, ⟨x, ⟨hx, hout, hin⟩, rfl⟩, hblank⟩
    obtain ⟨y, hy, hyblank, hay, hyb, hyout⟩ :=
      h.exists_uncovered ha hb hx hblank hin.1 hin.2 hout
    exact ⟨y.2, ⟨y, ⟨hy, hyout, hay, hyb⟩, rfl⟩, hyblank⟩

end Commented

end Tree

/-- Without its comments `text` has all its other leaves, as they are and in their order. Between
two words `a` and `b` all is left that is visible and belongs to no comment, and white space is left
exactly if there is some outside the comments. So words with nothing but comments between them
become one. -/
theorem withoutComments_separates {grammar : Grammar} (h : (grammar text).Commented text) :
    ∃ place : Nat → Nat, Monotone place ∧
      (∀ n ∈ (grammar text).preorder, n.children = [] → n.kind ≠ "comment" →
        slice? (withoutComments grammar text) (place n.start) (place n.stop) =
          some (n.text text)) ∧
      ∀ a ∈ (grammar text).words, ∀ b ∈ (grammar text).words, a.stop ≤ b.start →
        ∃ gap, slice? (withoutComments grammar text) (place a.stop) (place b.start) = some gap ∧
          visible gap = ((grammar text).uncommented text a.stop b.start).filter (!isBlank ·) ∧
          ((∃ d ∈ gap.toList, isBlank d = true) ↔
            ∃ d ∈ (grammar text).uncommented text a.stop b.start, isBlank d = true) := by
  have hresult : withoutComments grammar text =
      String.ofList (keep (fun o => !covered ((grammar text).commentSpans text) o) text) := by
    rw [← String.toList_inj, String.toList_ofList, withoutComments,
      toList_removeSpans fun s hs => h.wellFormed.valid_of_mem_spansOf hs]
    rfl
  refine ⟨placeOf (fun o => !covered ((grammar text).commentSpans text) o) text,
    fun i j hij => placeOf_le_placeOf _ text hij, fun n hn hleaf hkind => ?_,
    fun a ha b hb hab => ⟨String.ofList ((grammar text).spared text a.stop b.start), ?_, ?_, ?_⟩⟩
  · rw [hresult, slice?_keep _ text n.start_le_stop, ← Tree.spared, h.spared_eq_text hn hleaf hkind,
      String.ofList_toList]
  · rw [hresult, slice?_keep _ text hab, Tree.spared]
  · rw [visible_ofList, h.filter_spared]
  · rw [String.toList_ofList]
    exact h.exists_blank_spared_iff ha hb

/-! ## A class between comments -/

theorem Tree.commented_iff : t.Commented text ↔ t.WellFormed text ∧
    (∀ n ∈ t.preorder, n.named = false → n.children = [] ∧ n.kind ≠ "comment") ∧
    (∀ c ∈ t.comments, blank (firstLine (c.text text)) = false) ∧
    (∀ c ∈ t.comments, blank (lastLine (c.text text)) = false) ∧
    (∀ n ∈ t.words, ∀ c ∈ t.comments, n.stop ≤ c.start →
      spaced text n.stop c.start = true → EndsVisibly (n.text text)) ∧
    ∀ n ∈ t.words, ∀ c ∈ t.comments, c.stop ≤ n.start →
      spaced text c.stop n.start = true → blank (firstLine (n.text text)) = false :=
  ⟨fun h => ⟨h.1, h.2, h.3, h.4, h.5, h.6⟩,
    fun h => ⟨h.1, h.2.1, h.2.2.1, h.2.2.2.1, h.2.2.2.2.1, h.2.2.2.2.2⟩⟩

instance (text : String) (t : Tree) : Decidable (t.Commented text) :=
  decidable_of_iff' _ Tree.commented_iff

/-- The tree of a class without members, with the comments `inner` in front of its name and `outer`
after it. The name has one byte at the offset `name`, and a space separates it from the body. -/
def Tree.ofCommentedClass (inner : List Span) (name : Nat) (outer : List Span) : Tree :=
  let comments (spans : List Span) : List Tree := spans.map fun s =>
    .node { kind := "comment", start := s.start, length := s.stop - s.start } []
  .node { kind := "compilation_unit", length := ((outer.map Span.stop).getLast?).getD (name + 4) }
    (.node { kind := "class_declaration", length := name + 4 }
      (ofToken "class" 0 :: comments inner ++
        [ofLeaf "identifier" "name" name 1,
          .node { kind := "declaration_list", label := some "body", start := name + 2, length := 2 }
            [ofToken "\x7b" (name + 2), ofToken "\x7d" (name + 3)]]) ::
      comments outer)

/-- A comment after the word on its line, one on a line of its own, and one right after the class:
the line feed between the first two is left. -/
theorem withoutComments_separates_commentedClass :
    let text := "class // c\n// d\nA \x7b\x7d/**/"
    let grammar : Grammar := fun _ => .ofCommentedClass [⟨6, 10⟩, ⟨11, 15⟩] 16 [⟨20, 24⟩]
    (grammar text).Commented text ∧ ∃ place : Nat → Nat,
      slice? (withoutComments grammar text) (place 0) (place 5) = some "class" ∧
      slice? (withoutComments grammar text) (place 16) (place 17) = some "A" ∧
      ∃ gap, slice? (withoutComments grammar text) (place 5) (place 16) = some gap ∧
        visible gap = [] ∧ ∃ d ∈ gap.toList, isBlank d = true := by
  intro text grammar
  have hcommented : (grammar text).Commented text := by decide +kernel
  have hwords : (grammar text).words = [.ofToken "class" 0, .ofLeaf "identifier" "name" 16 1,
      .ofToken "\x7b" 18, .ofToken "\x7d" 19] := rfl
  obtain ⟨place, -, hleaves, hgaps⟩ := withoutComments_separates hcommented
  have hclass : Tree.ofToken "class" 0 ∈ (grammar text).words := by simp [hwords]
  have hname : Tree.ofLeaf "identifier" "name" 16 1 ∈ (grammar text).words := by simp [hwords]
  obtain ⟨gap, hgap, hvisible, hblank⟩ := hgaps _ hclass _ hname (by decide +kernel)
  refine ⟨hcommented, place, ?_, ?_, gap, hgap, hvisible.trans (by decide +kernel), hblank.mpr ?_⟩
  · exact (hleaves _ (Tree.mem_words.mp hclass).1 rfl (by decide)).trans (by decide +kernel)
  · exact (hleaves _ (Tree.mem_words.mp hname).1 rfl (by decide)).trans (by decide +kernel)
  · exact ⟨' ', by decide +kernel, by decide⟩

/-- Where a comment alone keeps two words apart, they become one without it. -/
theorem withoutComments_joins_words :
    let text := "class/**/A \x7b\x7d"
    let grammar : Grammar := fun _ => .ofCommentedClass [⟨5, 9⟩] 9 []
    (grammar text).Commented text ∧
      (grammar text).words.map (·.text text) = ["class", "A", "\x7b", "\x7d"] ∧
      withoutComments grammar text = "classA \x7b\x7d" := by
  intro text grammar
  refine ⟨by decide +kernel, by decide +kernel, ?_⟩
  rw [withoutComments, removeSpans_of_pairwise (by decide +kernel)]
  decide +kernel

end CodeAtlas
