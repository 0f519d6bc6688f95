import CodeAtlas.Proofs.Patch.Merge
import CodeAtlas.Proofs.Patch.Shift

/-!
# The tokens of members that are moved

The members of a fragment are moved to the indentation of the type. Lines are lines of the text, not
of the program: if a token goes on over several lines, the indentation of these lines is part of the
token and changes with it. All other tokens are written as they were.

## Main definitions

* `Edit.Spares`: an edit leaves a range as it was.
* `Fragment.Parsed`: the laws of the trees that a parser makes of fragments.
* `Fragment.Keeps`: a node of a fragment stands in the text that is written for it.

## Main statements

* `Rewritten.kept_iff`: when edits of indentations leave a range of the text as it was.
* `Rewritten.place_le_of_spares`: what is left as it was stays in order.
* `merge_token_kept_iff`: the tokens of a fragment that are written as they were.
* `merge_changes_literal`: a literal of two lines is changed.
-/
namespace CodeAtlas

open Text (Indents isIndent slice?)

variable {text out t u : String} {e f : Edit} {edits : List Edit} {pos a b c : Nat}

/-! ## Edits of indentations -/

/-- A range that starts in front of an edited indentation and reaches it has a line feed. -/
theorem Edit.Reindents.lineFeed_mem (h : e.Reindents text) (ht : slice? text a b = some t)
    (hlt : a < e.start) (hle : e.start ≤ b) : '\n' ∈ t.toList := by
  obtain ⟨front, old, rest, htext, hstart, -⟩ := h.exists_line
  obtain ⟨l, r, htext', rfl, hsize⟩ := Text.slice?_eq_some_iff.mp ht
  have hcut : front ++ "\n" ++ (old ++ rest) = l ++ t ++ r := by
    rw [← String.append_assoc, ← htext, htext']
  obtain ⟨m, hm, -⟩ := Text.append_eq_append_of_le hcut
    (by rw [← hstart, String.utf8ByteSize_append, hsize]; exact hle)
  have hfront : l.utf8ByteSize ≤ front.utf8ByteSize := by
    rw [String.utf8ByteSize_append, show "\n".utf8ByteSize = 1 from rfl] at hstart
    omega
  rw [String.append_assoc] at hm
  obtain ⟨m', -, rfl⟩ := Text.append_eq_append_of_le hm hfront
  simp

/-! ## What stays -/

/-- What a text starts with shows the indentation of the text, if it goes on behind it. -/
theorem takeWhile_of_append_eq {x y w : String} (h : u ++ w = x ++ y) (hx : Indents x)
    (hy : Unindented y) (hu : ¬ Indents u) : u.toList.takeWhile isIndent = x.toList := by
  have hlist : u.toList ++ w.toList = x.toList ++ y.toList := by
    rw [← String.toList_append, h, String.toList_append]
  rcases List.append_eq_append_iff.mp hlist with ⟨m, hm, -⟩ | ⟨m, hm, hm'⟩
  · refine absurd (fun c hc => hx c ?_) hu
    rw [hm]
    exact List.mem_append_left _ hc
  · rw [hm, List.takeWhile_append_of_pos hx]
    cases m with
    | nil => simp
    | cons c m =>
      have hc : isIndent c = false := hy c (by simp [hm'])
      simp [hc]

/-- Indentation that a text starts with is part of the indentation of the text. -/
theorem exists_append_of_indents {x y w : String} (h : u ++ w = x ++ y) (hy : Unindented y)
    (hu : Indents u) : ∃ r, x = u ++ r := by
  have hlist : u.toList ++ w.toList = x.toList ++ y.toList := by
    rw [← String.toList_append, h, String.toList_append]
  rcases List.append_eq_append_iff.mp hlist with ⟨m, hm, -⟩ | ⟨m, hm, hm'⟩
  · exact ⟨String.ofList m, by simp [← String.toList_inj, hm]⟩
  · cases m with
    | nil => exact ⟨"", by simpa [← String.toList_inj] using hm.symm⟩
    | cons c m =>
      have hc : isIndent c = false := hy c (by simp [hm'])
      have hc' := hu c (by simp [hm])
      simp [hc] at hc'

/-- The edit `e` leaves the range from `a` to `b` as it was: it lies outside of it, or the range
ends in the old indentation and the new one begins like that. -/
def Edit.Spares (text : String) (a b : Nat) (e : Edit) : Prop :=
  e.stop ≤ a ∨ b ≤ e.start ∨ ∃ u r, slice? text e.start b = some u ∧ e.text = u ++ r

namespace Rewritten

/-- Behind an edit of an indentation the result goes on with the rest of the line. -/
theorem unindented {front rest : String} (h : Rewritten text pos edits out)
    (htext : text = front ++ rest) (hpos : front.utf8ByteSize = pos) (hrest : Unindented rest)
    (hnext : ∀ f ∈ edits, pos < f.start) : Unindented out := by
  subst hpos
  cases h with
  | rest htail =>
    obtain ⟨l, r, heq, hl, hr⟩ := Text.slice?_eq_some_iff.mp htail
    rw [htext] at heq hr
    rw [String.append_assoc] at heq
    obtain ⟨m, hm, hm'⟩ := Text.append_eq_append_of_le heq (by omega)
    have hsize := congrArg String.utf8ByteSize hm
    have hsize' := congrArg String.utf8ByteSize hm'
    simp only [String.utf8ByteSize_append] at hsize hsize' hr
    obtain rfl := String.utf8ByteSize_eq_zero_iff.mp (by omega : m.utf8ByteSize = 0)
    obtain rfl := String.utf8ByteSize_eq_zero_iff.mp (by omega : r.utf8ByteSize = 0)
    rw [String.empty_append, String.append_empty] at hm'
    rwa [← hm']
  | @edit pos f kept edits out hkept _ _ =>
    have hlt := hnext f List.mem_cons_self
    have hsize := Text.size_of_slice? hkept
    rw [htext, ← hsize] at hkept
    obtain ⟨r, rfl⟩ := Text.slice?_append_iff.mp hkept
    have hne : kept.toList ≠ [] := by
      intro hnil
      obtain rfl : kept = "" := by simpa using hnil
      rw [String.utf8ByteSize_empty] at hsize
      omega
    intro c hc
    refine hrest c ?_
    cases hchars : kept.toList with
    | nil => exact absurd hchars hne
    | cons d ds => simpa [hchars] using hc

end Rewritten

namespace Edit.Reindents

/-- Two edits of indentations have a line feed between them. -/
theorem stop_lt_start (he : e.Reindents text) (hf : f.Reindents text) (h : e.Before f) :
    e.stop < f.start := by
  obtain ⟨front, old, rest, htext, hstart, hstop, hold, -⟩ := he.exists_line
  refine Nat.lt_of_le_of_ne h.1 fun heq => ?_
  have hslice : slice? text e.start f.start = some old :=
    Text.slice?_eq_some_iff.mpr ⟨front ++ "\n", rest, htext, hstart.symm, by omega⟩
  exact absurd (hold '\n' (hf.lineFeed_mem hslice h.2 (Nat.le_refl _))) (by decide)

/-- No line starts in the midst of an indentation. -/
theorem le_start_of_indents (h : f.Reindents text) (hu : slice? text a b = some u)
    (hindents : Indents u) (hlt : a < f.start) : b ≤ f.start := by
  refine Nat.le_of_not_lt fun hb => ?_
  exact absurd (hindents '\n' (h.lineFeed_mem hu hlt hb.le)) (by decide)

/-- If a range goes on in a line, the result goes on like it only if the new indentation does. -/
theorem exists_append_iff (h : e.Reindents text) (hu : slice? text e.start b = some u)
    (hout : Unindented out) :
    (∃ r, e.text ++ out = u ++ r) ↔ ∃ r, e.text = u ++ r := by
  constructor
  · rintro ⟨r, hr⟩
    obtain ⟨front, old, rest, htext, hstart, -, hold, hrest, hne⟩ := h.exists_line
    have hsize := Text.size_of_slice? hu
    rw [htext, String.append_assoc, ← hsize, hstart] at hu
    obtain ⟨w, hw⟩ := Text.slice?_append_iff.mp hu
    -- otherwise both indentations could be read off the range
    have hindents : Indents u := by
      by_contra hindents
      have hnew := takeWhile_of_append_eq hr.symm h.indents hout hindents
      have hold := takeWhile_of_append_eq hw.symm hold hrest hindents
      exact hne (String.toList_inj.mp (hold.symm.trans hnew))
    exact exists_append_of_indents hr.symm hout hindents
  · rintro ⟨r, hr⟩
    exact ⟨r ++ out, by rw [hr, String.append_assoc]⟩

end Edit.Reindents

namespace Rewritten

/-- The part of a range in front of an edit is kept, so the result shows the range if it goes on
like it. -/
theorem slice?_iff_of_lt {kept : String} (hkept : slice? text pos e.start = some kept)
    (hpos : pos ≤ a) (hlt : a < e.start) (ht : slice? text a b = some t)
    (hu : slice? text e.start b = some u) :
    slice? (kept ++ e.text ++ out) (a - pos) (a - pos + t.utf8ByteSize) = some t ↔
      ∃ r, e.text ++ out = u ++ r := by
  obtain ⟨x, hx⟩ := Text.exists_slice?_eq (Text.isBoundary_left hkept) (Text.isBoundary_left ht)
    hpos
  obtain ⟨y, hy⟩ := Text.exists_slice?_eq (Text.isBoundary_left ht) (Text.isBoundary_left hu) hlt.le
  obtain rfl : kept = x ++ y := Option.some.inj (hkept.symm.trans (Text.slice?_trans hx hy))
  obtain rfl : t = y ++ u := Option.some.inj (ht.symm.trans (Text.slice?_trans hy hu))
  have hsize : a - pos = x.utf8ByteSize := by
    have := Text.size_of_slice? hx
    omega
  rw [hsize, String.append_assoc, String.append_assoc, Text.slice?_append_iff]
  simp only [String.append_assoc, String.append_right_inj]

theorem kept_iff_placeFrom (h : Rewritten text pos edits out)
    (hedits : ∀ e ∈ edits, e.Reindents text) (hbefore : edits.Pairwise Edit.Before)
    (hpos : pos ≤ a) (hstart : ∀ e ∈ edits, e.stop ≤ a ∨ a < e.start)
    (ht : slice? text a b = some t) :
    slice? out (placeFrom pos edits a) (placeFrom pos edits a + t.utf8ByteSize) = some t ↔
      ∀ e ∈ edits, e.Spares text a b := by
  have hab := Text.size_of_slice? ht
  induction h with
  | rest htail =>
    refine iff_of_true ?_ (by simp)
    have := (Rewritten.rest htail).slice?_placeFrom hpos (by simp [Untouched]) ht
    rwa [show b - a = t.utf8ByteSize by omega] at this
  | @edit pos e kept edits out hkept hle hrest ih =>
    obtain ⟨he, hedits⟩ := List.forall_mem_cons.mp hedits
    obtain ⟨hnext, hbefore⟩ := List.pairwise_cons.mp hbefore
    obtain ⟨hstarte, hstart⟩ := List.forall_mem_cons.mp hstart
    have hsize := Text.size_of_slice? hkept
    rw [List.forall_mem_cons]
    by_cases hstop : e.stop ≤ a
    · -- the range lies behind the edit
      have ih := ih hedits hbefore hstop hstart
      have hspares : e.Spares text a b := .inl hstop
      rw [and_iff_right hspares, placeFrom, if_pos hstop,
        show e.start - pos = kept.utf8ByteSize by omega, ← String.utf8ByteSize_append,
        Nat.add_assoc, Text.slice?_append_right_iff]
      exact ih
    have hlt : a < e.start := hstarte.resolve_left hstop
    by_cases hb : b ≤ e.start
    · -- it lies in front of the edit and of all later ones
      have hlater : ∀ f ∈ edits, b ≤ f.start := fun f hf => Nat.le_trans hb (hnext f hf).2.le
      have hun : Untouched (e :: edits) a b :=
        untouched_cons.mpr ⟨.inr hb, fun f hf => .inr (hlater f hf)⟩
      refine iff_of_true ?_ ⟨.inr (.inl hb), fun f hf => .inr (.inl (hlater f hf))⟩
      have := (Rewritten.edit hkept hle hrest).slice?_placeFrom hpos hun ht
      rwa [show b - a = t.utf8ByteSize by omega] at this
    · -- it goes on in the line of the edit
      obtain ⟨u, hu⟩ := Text.exists_slice?_eq (Text.isBoundary_right hkept)
        (Text.isBoundary_right ht) (by omega)
      have hout : Unindented out := by
        obtain ⟨front, old, rest, htext, hfront, hold, -, hcontent, -⟩ := he.exists_line
        have hnext' : ∀ f ∈ edits, e.stop < f.start := fun f hf =>
          he.stop_lt_start (hedits f hf) (hnext f hf)
        refine hrest.unindented htext ?_ hcontent hnext'
        rw [String.utf8ByteSize_append, hold, hfront]
      rw [placeFrom, if_neg hstop, slice?_iff_of_lt hkept hpos hlt ht hu,
        he.exists_append_iff hu hout]
      constructor
      · rintro ⟨r, hr⟩
        refine ⟨.inr (.inr ⟨u, r, hu, hr⟩), fun f hf => .inr (.inl ?_)⟩
        have hindents : Indents u := fun c hc => he.indents c (by simp [hr, hc])
        exact (hedits f hf).le_start_of_indents hu hindents (hnext f hf).2
      · rintro ⟨hspares, -⟩
        rcases hspares with hstop' | hb' | ⟨u', r, hu', hr⟩
        · exact absurd hstop' hstop
        · exact absurd hb' hb
        · exact ⟨r, by rw [hr, Option.some.inj (hu.symm.trans hu')]⟩

/-- Edits of indentations leave a range as it was if and only if each of them does. -/
theorem kept_iff (h : Rewritten text 0 edits out) (hedits : ∀ e ∈ edits, e.Reindents text)
    (hbefore : edits.Pairwise Edit.Before) (hstart : ∀ e ∈ edits, e.stop ≤ a ∨ a < e.start)
    (ht : slice? text a b = some t) :
    slice? out (place edits a) (place edits a + t.utf8ByteSize) = some t ↔
      ∀ e ∈ edits, e.Spares text a b :=
  h.kept_iff_placeFrom hedits hbefore (Nat.zero_le a) hstart ht

theorem placeFrom_le_of_spares (h : Rewritten text pos edits out) (hpos : pos ≤ a) (hab : a ≤ b)
    (hbc : b ≤ c) (hspares : ∀ e ∈ edits, e.Spares text a b)
    (hstart : ∀ e ∈ edits, e.stop ≤ c ∨ c < e.start) :
    placeFrom pos edits a + (b - a) ≤ placeFrom pos edits c := by
  induction h with
  | rest =>
    rw [placeFrom, placeFrom]
    omega
  | @edit pos e kept edits out hkept hle _ ih =>
    obtain ⟨hspares, hrest⟩ := List.forall_mem_cons.mp hspares
    obtain ⟨hstarte, hstart⟩ := List.forall_mem_cons.mp hstart
    have hsize := Text.size_of_slice? hkept
    rw [placeFrom, placeFrom]
    split
    · next hstop =>
      have := ih hstop hrest hstart
      rw [if_pos (by omega)]
      omega
    · next hstop =>
      rcases hspares.resolve_left hstop with hb | ⟨u, r, hu, hr⟩
      · split <;> omega
      · -- the new indentation is as long as the part of the old one that belongs to the range
        have hu := Text.size_of_slice? hu
        have hr := congrArg String.utf8ByteSize hr
        rw [String.utf8ByteSize_append] at hr
        split <;> omega

/-- A range that is left as it was ends in the result before anything does that starts later. -/
theorem place_le_of_spares (h : Rewritten text 0 edits out) (hab : a ≤ b) (hbc : b ≤ c)
    (hspares : ∀ e ∈ edits, e.Spares text a b) (hstart : ∀ e ∈ edits, e.stop ≤ c ∨ c < e.start) :
    place edits a + (b - a) ≤ place edits c :=
  h.placeFrom_le_of_spares (Nat.zero_le a) hab hbc hspares hstart

end Rewritten

namespace Edit.Reindents

/-- A range without a line feed is left as it was. -/
theorem spares_of_lineFeed_notMem (h : e.Reindents text) (hstart : e.stop ≤ a ∨ a < e.start)
    (ht : slice? text a b = some t) (hfeed : '\n' ∉ t.toList) : e.Spares text a b := by
  rcases hstart with hstop | hlt
  · exact .inl hstop
  exact .inr (.inl (Nat.le_of_not_lt fun hb => hfeed (h.lineFeed_mem ht hlt hb.le)))

/-- Where no indentation goes on, no edit of indentations reaches. -/
theorem stop_le_or_lt_start {source own : String} {s p q : Nat} (h : e.Reindents own)
    (hown : slice? source s q = some own) (hp : Text.IsBoundary source p) (hsp : s ≤ p)
    (hbegins : Text.beginsInIndent source p = false) : e.stop ≤ p - s ∨ p - s < e.start := by
  by_contra hinside
  obtain ⟨hlt, hle⟩ := not_or.mp hinside
  obtain ⟨front, old, rest, rfl, hstart, hstop, hold, -⟩ := h.exists_line
  obtain ⟨l, r, hsource, rfl, -⟩ := Text.slice?_eq_some_iff.mp hown
  obtain ⟨x, y, hcut, rfl⟩ := hp
  have hlines : l ++ front ++ "\n" ++ (old ++ (rest ++ r)) = x ++ y := by
    rw [← hcut, hsource]
    simp only [String.append_assoc]
  simp only [String.utf8ByteSize_append] at hstart
  -- the offset cuts the old indentation in two
  obtain ⟨m, rfl, hm⟩ := Text.append_eq_append_of_le hlines
    (by simp only [String.utf8ByteSize_append]; omega)
  simp only [String.utf8ByteSize_append] at hlt hle
  obtain ⟨m', rfl, rfl⟩ := Text.append_eq_append_of_le hm.symm (by omega)
  rw [String.utf8ByteSize_append] at hstop
  cases hchars : m'.toList with
  | nil =>
    obtain rfl : m' = "" := by simpa using hchars
    rw [String.utf8ByteSize_empty] at hstop
    omega
  | cons d ds =>
    have hbegins' := Text.beginsInIndent_of_append (l := l ++ front) (x := m) (d := d) hcut
      (fun c hc => hold c (by simp [hc])) (by simp [hchars]) (hold d (by simp [hchars]))
    rw [hbegins] at hbegins'
    cases hbegins'

end Edit.Reindents

/-! ## The tokens of a fragment -/

/-- The leaf `n` is a token of the program: comments are none, and neither is what the parser adds
without a text. -/
def Tree.isLexeme (n : Tree) (source : String) : Bool :=
  n.isLeaf && n.kind != "comment" && n.text source != ""

/-- The laws of the trees that a parser makes of the fragment `f`. White space in front of a token
does not belong to it, so no token starts in the indentation of a line. -/
structure Fragment.Parsed (f : Fragment) : Prop where
  wellFormed : f.tree.WellFormed f.source
  begins : ∀ n ∈ f.tree.preorder, n.isLexeme f.source = true →
    Text.beginsInIndent f.source n.start = false

/-- The node `n` of the member `m` stands in the text `written` for the member, as it was and where
the `edits` of this text move it. -/
def Fragment.Keeps (f : Fragment) (m : Member) (edits : List Edit) (written : String) (n : Tree) :
    Prop :=
  slice? written (place edits (n.start - m.startWithComments))
    (place edits (n.start - m.startWithComments) + (n.text f.source).utf8ByteSize) =
      some (n.text f.source)

namespace Fragment.Parsed

variable {fragment : Fragment} {m : Member} {n : Tree} {own : String}

theorem placed (h : fragment.Parsed) (hm : m ∈ fragment.members) :
    m.Placed fragment.source fragment.tree.start fragment.tree.stop :=
  Tree.placed_of_mem_members h.wellFormed (List.mem_filter.mp hm).1

/-- A member can be cut out with its comments. -/
theorem exists_slice? (h : fragment.Parsed) (hm : m ∈ fragment.members) :
    ∃ own, slice? fragment.source m.startWithComments m.stop = some own := by
  have hplaced := h.placed hm
  exact Text.exists_slice?_eq hplaced.isBoundary_startWithComments
    hplaced.wellFormed.isBoundary_stop
    (Nat.le_trans hplaced.startWithComments_le m.start_le_stop)

theorem startWithComments_le (h : fragment.Parsed) (hm : m ∈ fragment.members)
    (hn : n ∈ m.tree.preorder) : m.startWithComments ≤ n.start ∧ n.stop ≤ m.stop := by
  have hplaced := h.placed hm
  obtain ⟨hstart, hstop⟩ := hplaced.wellFormed.layered.start_le_of_mem hn
  exact ⟨Nat.le_trans hplaced.startWithComments_le hstart, hstop⟩

/-- A node of a member is a part of it. -/
theorem slice?_own (h : fragment.Parsed) (hm : m ∈ fragment.members)
    (hown : slice? fragment.source m.startWithComments m.stop = some own)
    (hn : n ∈ m.tree.preorder) :
    slice? own (n.start - m.startWithComments) (n.stop - m.startWithComments) =
      some (n.text fragment.source) := by
  obtain ⟨t, ht⟩ := ((h.placed hm).wellFormed.of_mem hn).exists_slice?
  obtain ⟨hstart, hstop⟩ := h.startWithComments_le hm hn
  rw [Tree.text, Text.slice_eq_of_slice? ht]
  exact Text.slice?_sub hown ht hstart hstop

/-- No edit of indentations reaches to where a token starts. -/
theorem stop_le_or_lt_start (h : fragment.Parsed) (hm : m ∈ fragment.members)
    (hown : slice? fragment.source m.startWithComments m.stop = some own)
    (he : e.Reindents own) (hn : n ∈ m.tree.preorder)
    (hlexeme : n.isLexeme fragment.source = true) :
    e.stop ≤ n.start - m.startWithComments ∨ n.start - m.startWithComments < e.start := by
  have hmem : m.tree ∈ fragment.tree.preorder :=
    Tree.tree_mem_of_mem_membersAt (List.mem_filter.mp hm).1
  exact he.stop_le_or_lt_start hown ((h.placed hm).wellFormed.of_mem hn).isBoundary_start
    (h.startWithComments_le hm hn).1 (h.begins n (Tree.mem_preorder_trans hmem hn) hlexeme)

end Fragment.Parsed

/-- Every member `m` of the `fragment` is written with the indentation of some lines replaced and
nothing else changed. A token `n` is kept if and only if no such line starts in it, or the token
ends in the indentation and the new one begins like that; tokens that lie on one line always are. A
token that is kept stands in front of every token that followed it. -/
theorem merge_token_kept_iff {grammar : Grammar} {target : Owner} {fragment : Fragment}
    {report : MergeReport} (hparsed : (grammar text).Parsed text)
    (hbraced : (grammar text).TargetBraced text target) (hfragment : fragment.Parsed)
    (hmerge : mergeFragment grammar text target fragment = some (out, report)) :
    ∀ m ∈ fragment.members, ∃ (indent l r own written : String) (edits : List Edit),
      Indents indent ∧ written = fragment.textOf m indent ∧ out = l ++ written ++ r ∧
      slice? fragment.source m.startWithComments m.stop = some own ∧
      Rewritten own 0 edits written ∧ (∀ e ∈ edits, e.Reindents own) ∧
      (∀ n ∈ m.tree.preorder, n.isLexeme fragment.source = true →
        (fragment.Keeps m edits written n ↔ ∀ e ∈ edits,
          e.Spares own (n.start - m.startWithComments) (n.stop - m.startWithComments)) ∧
        ('\n' ∉ (n.text fragment.source).toList → fragment.Keeps m edits written n)) ∧
      ∀ n ∈ m.tree.preorder, n.isLexeme fragment.source = true → fragment.Keeps m edits written n →
        ∀ n' ∈ m.tree.preorder, n'.isLexeme fragment.source = true → n.stop ≤ n'.start →
          place edits (n.start - m.startWithComments) + (n.text fragment.source).utf8ByteSize ≤
            place edits (n'.start - m.startWithComments) := by
  obtain ⟨type, body, htype, hbody, -, -, rfl, -⟩ := mergeFragment_eq_some_iff.mp hmerge
  have h : EditSite text type body := hparsed.editSite hbraced htype hbody
  intro m hm
  obtain ⟨indent, hindent, l, r, hout⟩ :=
    h.exists_indents_of_mem (h.insertsAtGap fragment) h.isSome_insertion? hm
  obtain ⟨own, hown⟩ := hfragment.exists_slice? hm
  have hsource := Text.indents_indentAt fragment.source m.startWithComments
  obtain ⟨hbefore, hedits⟩ := reindents_indentEdits hindent
  have hrewritten := rewritten_shiftLines hsource own indent
  have htext : fragment.textOf m indent =
      shiftLines own (Text.indentAt fragment.source m.startWithComments) indent := by
    rw [Fragment.textOf, Text.slice_eq_of_slice? hown]
  rw [← htext] at hrewritten
  have hiff {n : Tree} (hn : n ∈ m.tree.preorder) (hlexeme : n.isLexeme fragment.source = true) :=
    hrewritten.kept_iff hedits hbefore
      (fun e he => hfragment.stop_le_or_lt_start hm hown (hedits e he) hn hlexeme)
      (hfragment.slice?_own hm hown hn)
  refine ⟨indent, l, r, own, fragment.textOf m indent, _, hindent, rfl, hout, hown, hrewritten,
    hedits, ?_, ?_⟩
  · intro n hn hlexeme
    refine ⟨hiff hn hlexeme, fun hfeed => (hiff hn hlexeme).mpr fun e he => ?_⟩
    exact (hedits e he).spares_of_lineFeed_notMem
      (hfragment.stop_le_or_lt_start hm hown (hedits e he) hn hlexeme)
      (hfragment.slice?_own hm hown hn) hfeed
  · intro n hn hlexeme hkeeps n' hn' hlexeme' hle
    have hsize := Text.size_of_slice? (hfragment.slice?_own hm hown hn)
    have hle := hrewritten.place_le_of_spares (by omega) (by omega) ((hiff hn hlexeme).mp hkeeps)
      (fun e he => hfragment.stop_le_or_lt_start hm hown (hedits e he) hn' hlexeme')
    rwa [← hsize, Nat.add_sub_cancel_left] at hle

/-- A class whose member is indented. -/
def indentedText : String := "class C \x7b\n  void A(int n);\n\x7d"

def indentedTree : Tree := .ofFile 28 [.ofOverload 12 3]

/-- A field with a literal of two lines. -/
def literalField : Fragment where
  source := "class C \x7b string s = @\"a\nb\"; \x7d"
  tree := .ofFile 30
    [.node { kind := "field_declaration", start := 10, length := 18 }
      [.node { kind := "variable_declaration", start := 10, length := 17 }
        [.ofLeaf "predefined_type" "type" 10 6,
          .node { kind := "variable_declarator", start := 17, length := 10 }
            [.ofLeaf "identifier" "name" 17 1, .ofToken "=" 19,
              .node { kind := "verbatim_string_literal", start := 21, length := 6 } []]],
        .ofToken ";" 27]]
  container := some "C"

/-- The text of the class with the field. -/
def literalMerged : String :=
  "class C \x7b\n  void A(int n);\n\n  string s = @\"a\n  b\";\n\x7d"

theorem mergeFragment_literalField :
    mergeFragment (fun _ => indentedTree) indentedText ⟨"C", "C", "C.cs", 0⟩ literalField =
      some (literalMerged, { replaced := [], appended := ["s"] }) := by
  refine mergeFragment_eq_some_iff.mpr
    ⟨_, _, rfl, rfl, by decide +kernel, by decide +kernel, ?_, ?_⟩
  · rw [applyEdits_of_pairwise (by decide +kernel)]
    decide +kernel
  · decide +kernel

theorem parsed_literalField : literalField.Parsed :=
  ⟨by decide +kernel, by decide +kernel⟩

/-- The token behind the literal is kept. -/
theorem merge_token_kept_literalField :
    ∃ (l r written : String) (edits : List Edit), literalMerged = l ++ written ++ r ∧
      Rewritten "string s = @\"a\nb\";" 0 edits written ∧
      slice? written (place edits 17) (place edits 17 + 1) = some ";" := by
  obtain ⟨m, hm, hstart, hstop, n, hn, hlexeme, hnstart, htext⟩ :
      ∃ m ∈ literalField.members, m.startWithComments = 10 ∧ m.stop = 28 ∧
        ∃ n ∈ m.tree.preorder, n.isLexeme literalField.source = true ∧ n.start = 27 ∧
          n.text literalField.source = ";" := by decide +kernel
  obtain ⟨-, l, r, own, written, edits, -, -, hout, hown, hrewritten, -, hkeeps, -⟩ :=
    merge_token_kept_iff (by decide +kernel) (by decide +kernel) parsed_literalField
      mergeFragment_literalField m hm
  rw [hstart, hstop] at hown
  obtain rfl : "string s = @\"a\nb\";" = own :=
    Option.some.inj ((show slice? literalField.source 10 28 = _ by decide +kernel).symm.trans hown)
  have hkept := (hkeeps n hn hlexeme).2 (by rw [htext]; decide)
  rw [Fragment.Keeps, htext, hstart, hnstart] at hkept
  exact ⟨l, r, written, edits, hout, hrewritten, hkept⟩

/-- The second line of the literal is indented, so that the literal is another one. -/
theorem merge_changes_literal :
    indentedTree.Parsed indentedText ∧
    indentedTree.TargetBraced indentedText ⟨"C", "C", "C.cs", 0⟩ ∧ literalField.Parsed ∧
    mergeFragment (fun _ => indentedTree) indentedText ⟨"C", "C", "C.cs", 0⟩ literalField =
      some (literalMerged, { replaced := [], appended := ["s"] }) ∧
    ∃ m ∈ literalField.members, ∃ n ∈ m.tree.preorder, n.isLexeme literalField.source = true ∧
      n.text literalField.source = "@\"a\nb\"" ∧
      ¬ (n.text literalField.source).toList <:+: literalMerged.toList :=
  ⟨by decide +kernel, by decide +kernel, parsed_literalField, mergeFragment_literalField,
    by decide +kernel⟩

end CodeAtlas
