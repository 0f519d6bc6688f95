import CodeAtlas.Proofs.Patch.Edit
import CodeAtlas.Proofs.Patch.Matching
import CodeAtlas.Proofs.Patch.Site

/-!
# What a merge changes

Every edit of a merge either replaces a direct member of the type, with or without the comments in
front of it, or inserts the new members at a gap of the body. Such edits keep apart, so all of them
are made and nothing else changes.

## Main definitions

* `Edit.Replaces`: an edit that replaces a member.
* `InOrder`: some texts stand one after the other in a text.
* `replacedPairs`, `appendedMembers`, `insertion?`: what a merge replaces and appends.
* `KeptRange`: the members that are not replaced and what lies outside of the type.

## Main statements

* `TypeSite.exists_rewritten`: the edits of a merge are all made.
* `merge_keeps_rest`: what is not replaced stays, in order.
* `merge_report_holds`: what the report says has been written if the type has its braces.
* `merge_appends_nothing`: what is written if the type has no closing brace.
-/
namespace CodeAtlas

open EditSite (Gap)
open Text (IsBoundary slice?)

variable {text out : String} {type body : Tree} {m old : Member} {e f : Edit} {ts : List String}
  {s : String}

/-! ## Edits that replace members -/

/-- The edit `e` replaces the member `m`, with or without the comments in front of it. -/
def Edit.Replaces (e : Edit) (m : Member) : Prop :=
  e.stop = m.stop ∧ (e.start = m.start ∨ e.start = m.startWithComments)

theorem replaces_replaceEdit (text : String) (fragment : Fragment) (old new : Member) :
    (replaceEdit text fragment old new).Replaces old := by
  refine ⟨rfl, ?_⟩
  unfold replaceEdit
  dsimp only
  split
  · exact .inr rfl
  · exact .inl rfl

/-- At most comments in front of the member go with it. -/
theorem Edit.Replaces.start_eq (h : e.Replaces m) :
    e.start = m.start ∨ ∃ c ∈ m.comments, e.start = c.start := by
  rcases h.2 with heq | heq <;> rw [heq]
  · exact .inl rfl
  · exact m.startWithComments_eq

@[grind →]
theorem mem_members_of_mem_direct (hm : m ∈ type.directMembers text) : m ∈ type.members text :=
  (List.mem_filter.mp hm).1

namespace TypeSite

theorem pairwise_directMembers (h : TypeSite text type body) :
    (type.directMembers text).Pairwise fun a b => a.stop ≤ b.startWithComments :=
  (Tree.pairwise_members h.wellFormed).filter _

theorem start_of_replaces (h : TypeSite text type body) (hm : m ∈ type.members text)
    (he : e.Replaces m) : m.startWithComments ≤ e.start ∧ e.start ≤ m.start := by
  have hle := (h.placed hm).startWithComments_le
  rcases he.2 with heq | heq <;> omega

theorem readable_of_replaces (h : TypeSite text type body) (hm : m ∈ type.members text)
    (he : e.Replaces m) : e.Readable text := by
  have hplaced := h.placed hm
  refine ⟨?_, ?_, ?_⟩
  · rcases he.2 with heq | heq <;> rw [heq]
    · exact hplaced.wellFormed.isBoundary_start
    · exact hplaced.isBoundary_startWithComments
  · rw [he.1]
    exact hplaced.wellFormed.isBoundary_stop
  · rw [he.1]
    exact Nat.le_trans (h.start_of_replaces hm he).2 m.start_le_stop

/-- Members that follow each other are replaced by edits that do. -/
theorem before_of_replaces (h : TypeSite text type body) (hm : m ∈ type.members text)
    (he : e.Replaces m) (hold : old ∈ type.members text) (hf : f.Replaces old)
    (hle : m.stop ≤ old.startWithComments) : e.Before f := by
  have hstart := h.start_of_replaces hm he
  have hstart' := h.start_of_replaces hold hf
  have hlt := h.start_lt_stop hm
  have hstop := he.1
  exact ⟨by omega, by omega⟩

/-- An insertion at a gap keeps apart from the edits that replace members. -/
theorem apart_of_gap (h : TypeSite text type body) (hm : m ∈ type.members text)
    (he : e.Replaces m) (hf : f.start = f.stop) (hgap : Gap text type body f.start) :
    e.Apart f := by
  have hstart := h.start_of_replaces hm he
  have hlt := h.start_lt_stop hm
  have hstop := he.1
  rcases hgap.outside m hm with hle | hle
  · exact .inl ⟨by omega, by omega⟩
  · exact .inr ⟨by omega, by omega⟩

end TypeSite

/-! ## Appended members -/

/-- Some texts stand one after the other in a text. -/
inductive InOrder : List String → String → Prop where
  | nil (s : String) : InOrder [] s
  | cons (gap t : String) {ts : List String} {s : String} :
      InOrder ts s → InOrder (t :: ts) (gap ++ t ++ s)

theorem InOrder.append_left (l : String) (h : InOrder ts s) : InOrder ts (l ++ s) := by
  cases h with
  | nil => exact .nil _
  | cons gap t h =>
    rw [← String.append_assoc, ← String.append_assoc]
    exact .cons (l ++ gap) t h

theorem InOrder.append_right (r : String) (h : InOrder ts s) : InOrder ts (s ++ r) := by
  induction h with
  | nil s => exact .nil _
  | cons gap t _ ih =>
    rw [String.append_assoc]
    exact .cons gap t ih

theorem InOrder.exists_append {t : String} (h : InOrder ts s) (ht : t ∈ ts) :
    ∃ l r, s = l ++ t ++ r := by
  induction h with
  | nil => simp at ht
  | @cons gap u ts s _ ih =>
    rcases List.mem_cons.mp ht with rfl | ht
    · exact ⟨gap, s, rfl⟩
    · obtain ⟨l, r, rfl⟩ := ih ht
      exact ⟨gap ++ u ++ l, r, by simp [String.append_assoc]⟩

theorem inOrder_appendedText (indent : String) (separate : Bool) (ts : List String) :
    InOrder ts (appendedText indent separate ts) := by
  induction ts generalizing separate with
  | nil => exact .nil _
  | cons t ts ih =>
    rw [appendedText, String.append_assoc]
    exact .cons _ t ((ih true).append_left "\n")

/-! ## All edits -/

/-- The members of `type` that the `fragment` replaces, each with its replacement. -/
def replacedPairs (text : String) (type : Tree) (fragment : Fragment) : List (Member × Member) :=
  replacements (type.directMembers text)
    (matchMembers (type.directMembers text) [] fragment.members)

/-- The members of the `fragment` that replace none of `type`. -/
def appendedMembers (text : String) (type : Tree) (fragment : Fragment) : List Member :=
  additions (matchMembers (type.directMembers text) [] fragment.members)

/-- The texts of the appended members with the indentation of `body`. -/
def appendedTexts (text : String) (type body : Tree) (fragment : Fragment) : List String :=
  (appendedMembers text type fragment).map
    (fragment.textOf · (bodyIndent text (type.directMembers text) body))

/-- The edit that inserts the appended members at the end of `body`. -/
def insertion? (text : String) (type body : Tree) (fragment : Fragment) : Option Edit :=
  if (appendedTexts text type body fragment).isEmpty then none
  else additionEdit? text body (type.directMembers text) (appendedTexts text type body fragment)

theorem indents_bodyIndent (text : String) (existing : List Member) (body : Tree) :
    Text.Indents (bodyIndent text existing body) := by
  unfold bodyIndent
  split
  · exact Text.indents_indentAt text _
  · intro c hc
    rw [String.toList_append, List.mem_append] at hc
    rcases hc with hc | hc
    · exact Text.indents_indentAt text _ c hc
    · exact List.all_eq_true.mp (by decide) c hc

theorem mergeEdits_eq (text : String) (type body : Tree) (fragment : Fragment) :
    mergeEdits text type body fragment =
      ((replacedPairs text type fragment).map (fun p => replaceEdit text fragment p.1 p.2) ++
          (insertion? text type body fragment).toList,
        { replaced := (replacedPairs text type fragment).map (·.2.signature)
          appended := (appendedMembers text type fragment).map (·.signature) }) :=
  rfl

theorem mem_mergeEdits {fragment : Fragment} :
    e ∈ (mergeEdits text type body fragment).1 ↔
      (∃ p ∈ replacedPairs text type fragment, replaceEdit text fragment p.1 p.2 = e) ∨
        e ∈ insertion? text type body fragment := by
  rw [mergeEdits_eq, List.mem_append, List.mem_map, Option.mem_toList]
  exact Iff.rfl

@[grind →]
theorem mem_directMembers_of_mem_replacedPairs {fragment : Fragment} {p : Member × Member}
    (hp : p ∈ replacedPairs text type fragment) : p.1 ∈ type.directMembers text :=
  fst_mem_of_mem_replacements hp

/-- An insertion is made at one point, and holds the new texts in order. -/
theorem insertion_spec {fragment : Fragment} (he : e ∈ insertion? text type body fragment) :
    e.start = e.stop ∧ InOrder (appendedTexts text type body fragment) e.text := by
  rw [insertion?] at he
  split at he
  · simp at he
  · obtain ⟨hpoint, l, r, htext⟩ := additionEdit?_spec he
    refine ⟨hpoint, ?_⟩
    rw [htext]
    exact ((inOrder_appendedText _ _ _).append_left l).append_right r

/-- Without new members nothing is inserted. -/
@[simp]
theorem insertion?_eq_none {fragment : Fragment} (h : appendedMembers text type fragment = []) :
    insertion? text type body fragment = none := by
  rw [insertion?, if_pos (by simp [appendedTexts, h])]

/-- What the `fragment` inserts, if anything, is inserted at a gap of `body`. -/
def InsertsAtGap (text : String) (type body : Tree) (fragment : Fragment) : Prop :=
  ∀ e ∈ insertion? text type body fragment, Gap text type body e.start

namespace TypeSite

variable {fragment : Fragment}

theorem readable_of_mem_mergeEdits (h : TypeSite text type body)
    (hgaps : InsertsAtGap text type body fragment)
    (he : e ∈ (mergeEdits text type body fragment).1) : e.Readable text := by
  rcases mem_mergeEdits.mp he with ⟨p, hp, rfl⟩ | he
  · exact h.readable_of_replaces
      (mem_members_of_mem_direct (mem_directMembers_of_mem_replacedPairs hp))
      (replaces_replaceEdit text fragment p.1 p.2)
  · have hpoint := (insertion_spec he).1
    have hgap := hgaps e he
    exact ⟨hgap.isBoundary, hpoint ▸ hgap.isBoundary, Nat.le_of_eq hpoint⟩

/-- Different members are replaced, so the edits that replace them keep apart, and the insertion
lies in a gap. -/
theorem pairwise_apart_mergeEdits (h : TypeSite text type body)
    (hgaps : InsertsAtGap text type body fragment) :
    (mergeEdits text type body fragment).1.Pairwise Edit.Apart := by
  have hmem {p : Member × Member} (hp : p ∈ replacedPairs text type fragment) :
      p.1 ∈ type.members text :=
    mem_members_of_mem_direct (mem_directMembers_of_mem_replacedPairs hp)
  have hreplaces (p : Member × Member) := replaces_replaceEdit text fragment p.1 p.2
  rw [mergeEdits_eq, List.pairwise_append]
  refine ⟨?_, ?_, ?_⟩
  · rw [List.pairwise_map]
    refine (pairwise_replacements h.pairwise_directMembers).imp_of_mem fun {p q} hp hq hpq => ?_
    rcases hpq with hle | hle
    · exact .inl (h.before_of_replaces (hmem hp) (hreplaces p) (hmem hq) (hreplaces q) hle)
    · exact .inr (h.before_of_replaces (hmem hq) (hreplaces q) (hmem hp) (hreplaces p) hle)
  · cases insertion? text type body fragment <;> simp
  · intro e he f hf
    obtain ⟨p, hp, rfl⟩ := List.mem_map.mp he
    have hf := Option.mem_toList.mp hf
    exact h.apart_of_gap (hmem hp) (hreplaces p) (insertion_spec hf).1 (hgaps f hf)

/-- The edits of a merge are all made. -/
theorem exists_rewritten (h : TypeSite text type body)
    (hgaps : InsertsAtGap text type body fragment) :
    ∃ edits, edits.Perm (mergeEdits text type body fragment).1 ∧
      Rewritten text 0 edits (applyEdits text (mergeEdits text type body fragment).1) :=
  exists_rewritten_applyEdits (fun _ he => h.readable_of_mem_mergeEdits hgaps he)
    (h.pairwise_apart_mergeEdits hgaps)

/-- Every member of the fragment is written with some indentation, if there is an insertion for
those that replace none. -/
theorem exists_indents_of_mem {new : Member} (h : TypeSite text type body)
    (hgaps : InsertsAtGap text type body fragment)
    (hsome : appendedMembers text type fragment ≠ [] →
      (insertion? text type body fragment).isSome)
    (hnew : new ∈ fragment.members) :
    ∃ indent, Text.Indents indent ∧ ∃ l r,
      applyEdits text (mergeEdits text type body fragment).1 =
        l ++ fragment.textOf new indent ++ r := by
  obtain ⟨edits, hperm, hrewritten⟩ := h.exists_rewritten hgaps
  obtain ⟨-, -, hall⟩ := perm_replacements_additions (type.directMembers text) fragment.members []
  rcases List.mem_append.mp (hall.mem_iff.mpr hnew) with hmem | hmem
  · obtain ⟨p, hp, rfl⟩ := List.mem_map.mp hmem
    have he : replaceEdit text fragment p.1 p.2 ∈ edits :=
      hperm.mem_iff.mpr (mem_mergeEdits.mpr (.inl ⟨p, hp, rfl⟩))
    obtain ⟨l, r, hout⟩ := hrewritten.exists_append he
    exact ⟨_, Text.indents_indentAt text _, l, r, hout⟩
  · obtain ⟨e, hins⟩ := Option.isSome_iff_exists.mp (hsome (List.ne_nil_of_mem hmem))
    have he : e ∈ edits := hperm.mem_iff.mpr (mem_mergeEdits.mpr (.inr hins))
    obtain ⟨l, r, hout⟩ := hrewritten.exists_append he
    obtain ⟨l', r', htext⟩ := (insertion_spec hins).2.exists_append (List.mem_map_of_mem hmem)
    refine ⟨bodyIndent text (type.directMembers text) body, indents_bodyIndent _ _ _, l ++ l',
      r' ++ r, ?_⟩
    rw [hout, htext]
    simp only [String.append_assoc]

end TypeSite

namespace EditSite

/-- There is an insertion if there is something to append. -/
theorem isSome_insertion? {fragment : Fragment} (h : EditSite text type body)
    (hne : appendedMembers text type fragment ≠ []) :
    (insertion? text type body fragment).isSome := by
  obtain ⟨e, he, -⟩ := h.exists_insertion (type.directMembers text)
    (appendedTexts text type body fragment)
  have hempty : ¬ (appendedTexts text type body fragment).isEmpty := by
    simpa [appendedTexts] using hne
  rw [insertion?, if_neg hempty, he]
  rfl

theorem insertsAtGap (h : EditSite text type body) (fragment : Fragment) :
    InsertsAtGap text type body fragment := by
  intro e he
  rw [insertion?] at he
  split at he
  · simp at he
  · obtain ⟨f, hf, hgap⟩ := h.exists_insertion (type.directMembers text)
      (appendedTexts text type body fragment)
    obtain rfl : f = e := Option.some.inj (hf.symm.trans he)
    exact hgap

end EditSite

/-! ## What stays -/

/-- The ranges of `text` that a merge leaves alone: the direct members of `type` that are not
`replaced`, and what lies in front of the type and behind it. -/
inductive KeptRange (text : String) (type : Tree) (replaced : List Member) : Nat → Nat → Prop where
  | member {m : Member} (hm : m ∈ type.directMembers text) (hnot : m ∉ replaced) :
      KeptRange text type replaced m.start m.stop
  | front : KeptRange text type replaced 0 type.start
  | back : KeptRange text type replaced type.stop text.utf8ByteSize

namespace TypeSite

variable {fragment : Fragment}

theorem exists_slice?_of_kept {replaced : List Member} {a b : Nat}
    (h : TypeSite text type body) (hkept : KeptRange text type replaced a b) :
    ∃ t, slice? text a b = some t := by
  cases hkept with
  | member hm => exact (h.placed (mem_members_of_mem_direct hm)).wellFormed.exists_slice?
  | front =>
    exact Text.exists_slice?_eq (Text.isBoundary_zero text) h.wellFormed.isBoundary_start
      (Nat.zero_le _)
  | back =>
    have hstop := h.wellFormed.isBoundary_stop
    exact Text.exists_slice?_eq hstop (Text.isBoundary_utf8ByteSize text) hstop.le

/-- Of the different direct members `m` and `n`, one ends before the comments of the other start. -/
theorem stop_le_of_ne {n : Member} (h : TypeSite text type body)
    (hm : m ∈ type.directMembers text) (hn : n ∈ type.directMembers text) (hne : m ≠ n) :
    m.stop ≤ n.startWithComments ∨ n.stop ≤ m.startWithComments := by
  obtain ⟨i, hi, rfl⟩ := List.mem_iff_getElem.mp hm
  obtain ⟨j, hj, rfl⟩ := List.mem_iff_getElem.mp hn
  have hpair := List.pairwise_iff_getElem.mp h.pairwise_directMembers
  rcases Nat.lt_trichotomy i j with hlt | rfl | hlt
  · exact .inl (hpair i j hi hj hlt)
  · exact absurd rfl hne
  · exact .inr (hpair j i hj hi hlt)

theorem nodup_replacedPairs (h : TypeSite text type body) :
    ((replacedPairs text type fragment).map (·.1)).Nodup := by
  rw [List.Nodup, List.pairwise_map]
  refine (pairwise_replacements h.pairwise_directMembers).imp_of_mem fun {p q} hp _ hpq heq => ?_
  have hm := mem_members_of_mem_direct (fst_mem_of_mem_replacements hp)
  have hlt := h.start_lt_stop hm
  have hle := (h.placed hm).startWithComments_le
  rw [← heq] at hpq
  omega

end TypeSite

namespace EditSite

variable {fragment : Fragment}

/-- The edits of a merge touch no range that is kept. -/
theorem untouched_mergeEdits {a b : Nat} (h : EditSite text type body)
    (hkept : KeptRange text type ((replacedPairs text type fragment).map (·.1)) a b) :
    Untouched (mergeEdits text type body fragment).1 a b := by
  intro e he
  have hbody := h.wellFormed.start_le h.body_mem
  have hbody' := h.wellFormed.stop_le h.body_mem
  rcases mem_mergeEdits.mp he with ⟨p, hp, rfl⟩ | he
  · have hdirect := mem_directMembers_of_mem_replacedPairs hp
    have hplaced := h.placed (mem_members_of_mem_direct hdirect)
    have hreplaces := replaces_replaceEdit text fragment p.1 p.2
    have hstart := h.start_of_replaces (mem_members_of_mem_direct hdirect) hreplaces
    have hstop := hreplaces.1
    have hlo := hplaced.lo_le_startWithComments
    have hhi := hplaced.le_hi
    cases hkept with
    | @member n hn hnot =>
      have hne : p.1 ≠ n := fun heq => hnot (heq ▸ List.mem_map_of_mem hp)
      have hn' := (h.placed (mem_members_of_mem_direct hn)).startWithComments_le
      have := h.stop_le_of_ne hdirect hn hne
      omega
    | front => exact .inr (by omega)
    | back => exact .inl (by omega)
  · have hpoint := (insertion_spec he).1
    have hgap := h.insertsAtGap fragment e he
    have hlt := hgap.start_lt
    have hlt' := hgap.lt_stop
    cases hkept with
    | @member n hn hnot =>
      have hn' := (h.placed (mem_members_of_mem_direct hn)).startWithComments_le
      have := hgap.outside n (mem_members_of_mem_direct hn)
      omega
    | front => exact .inr (by omega)
    | back => exact .inl (by omega)

end EditSite

/-- A merge into `text` replaces ranges that do not overlap, each of them a direct member of the
type with comments in front of it at most, and inserts at one point of its body at most. What it
does not replace stays byte for byte and in order. -/
theorem merge_keeps_rest {grammar : Grammar} {target : Owner} {fragment : Fragment}
    {report : MergeReport} (hwf : (grammar text).WellFormed text)
    (hends : ∀ n ∈ (grammar text).preorder, n.memberKind?.isSome → Text.EndsVisibly (n.text text))
    (hbraced : ∀ type body, (grammar text).typeDeclaration? text target = some type →
      type.field? "body" = some body → body.Braced text)
    (hmerge : mergeFragment grammar text target fragment = some (out, report)) :
    ∃ (type body : Tree) (edits : List Edit) (replaced : List (Member × Edit))
      (insertion : Option Edit),
      (grammar text).typeDeclaration? text target = some type ∧ type.field? "body" = some body ∧
      Rewritten text 0 edits out ∧ edits.Perm (replaced.map (·.2) ++ insertion.toList) ∧
      (replaced.map (·.1)).Nodup ∧
      (∀ m e, (m, e) ∈ replaced → m ∈ type.directMembers text ∧ e.stop = m.stop ∧
        (e.start = m.start ∨ ∃ c ∈ m.comments, e.start = c.start)) ∧
      (∀ e ∈ insertion, e.start = e.stop ∧ body.start < e.start ∧ e.stop < body.stop) ∧
      (∀ a b, KeptRange text type (replaced.map (·.1)) a b →
        ∃ t, slice? text a b = some t ∧
          slice? out (place edits a) (place edits a + (b - a)) = some t) ∧
      ∀ a b c, KeptRange text type (replaced.map (·.1)) a b → b ≤ c →
        place edits a + (b - a) ≤ place edits c := by
  obtain ⟨type, body, htype, hbody, -, -, rfl, -⟩ := mergeFragment_eq_some_iff.mp hmerge
  have hparsed : (grammar text).Parsed text :=
    ⟨hwf, fun n hn hkind => (hends n hn hkind).endsCleanly⟩
  have h : EditSite text type body :=
    ⟨hparsed.typeSite htype hbody, hbraced type body htype hbody⟩
  obtain ⟨edits, hperm, hrewritten⟩ := h.exists_rewritten (h.insertsAtGap fragment)
  let replaced := (replacedPairs text type fragment).map fun p =>
    (p.1, replaceEdit text fragment p.1 p.2)
  have hmembers : replaced.map (·.1) = (replacedPairs text type fragment).map (·.1) := List.map_map
  have hedits : (mergeEdits text type body fragment).1 =
      replaced.map (·.2) ++ (insertion? text type body fragment).toList := by
    rw [mergeEdits_eq, List.map_map]
    rfl
  have hun {a b : Nat} (hkept : KeptRange text type (replaced.map (·.1)) a b) :
      Untouched edits a b := by
    rw [hmembers] at hkept
    exact fun e he => h.untouched_mergeEdits hkept e (hperm.mem_iff.mp he)
  refine ⟨type, body, edits, replaced, insertion? text type body fragment, htype, hbody, hrewritten,
    hedits ▸ hperm, hmembers ▸ h.nodup_replacedPairs, ?_, ?_, ?_, ?_⟩
  · intro m e hme
    obtain ⟨p, hp, heq⟩ := List.mem_map.mp hme
    obtain ⟨rfl, rfl⟩ := Prod.mk.inj heq
    have hreplaces := replaces_replaceEdit text fragment p.1 p.2
    exact ⟨mem_directMembers_of_mem_replacedPairs hp, hreplaces.1, hreplaces.start_eq⟩
  · intro e he
    have hpoint := (insertion_spec he).1
    have hgap := h.insertsAtGap fragment e he
    exact ⟨hpoint, hgap.start_lt, hpoint ▸ hgap.lt_stop⟩
  · intro a b hkept
    obtain ⟨t, ht⟩ := h.exists_slice?_of_kept hkept
    exact ⟨t, ht, hrewritten.slice?_place (hun hkept) ht⟩
  · intro a b c hkept hle
    obtain ⟨t, ht⟩ := h.exists_slice?_of_kept hkept
    have := Text.size_of_slice? ht
    exact hrewritten.place_le (hun hkept) (by omega) hle

/-- A member is replaced and another one inserted. -/
theorem merge_keeps_rest_newFirst :
    ∃ (edits : List Edit) (replaced : List (Member × Edit)) (insertion : Option Edit),
      Rewritten oneOverload 0 edits "class C \x7b void A(long n); \n\nvoid A(int n);\n\x7d" ∧
      edits.Perm (replaced.map (·.2) ++ insertion.toList) := by
  obtain ⟨-, -, edits, replaced, insertion, -, -, hrewritten, hperm, -⟩ :=
    merge_keeps_rest (by decide +kernel) (by decide +kernel)
      (fun type body htype hbody => by
        obtain rfl : oneOverloadClass = type := Option.some.inj htype
        obtain rfl := Option.some.inj hbody
        decide +kernel)
      mergeFragment_newFirst
  exact ⟨edits, replaced, insertion, hrewritten, hperm⟩

/-! ## What is reported -/

/-- The members of a fragment that replace a member, each with the edit that does so, and those that
replace none are what a merge reports. -/
theorem exists_reported (text : String) (type body : Tree) (fragment : Fragment) :
    ∃ replaced : List (Member × Edit × Member),
      (replaced.map (·.2.2)).Sublist fragment.members ∧
      (appendedMembers text type fragment).Sublist fragment.members ∧
      (replaced.map (·.2.2) ++ appendedMembers text type fragment).Perm fragment.members ∧
      (mergeEdits text type body fragment).2 =
        { replaced := replaced.map (·.2.2.signature)
          appended := (appendedMembers text type fragment).map (·.signature) } ∧
      (mergeEdits text type body fragment).1 =
        replaced.map (·.2.1) ++ (insertion? text type body fragment).toList ∧
      ∀ old e new, (old, e, new) ∈ replaced → old ∈ type.directMembers text ∧ e.Replaces old ∧
        e.text = fragment.textOf new (Text.indentAt text e.start) := by
  obtain ⟨hsub, hsub', hall⟩ :=
    perm_replacements_additions (type.directMembers text) fragment.members []
  let replaced := (replacedPairs text type fragment).map fun p =>
    (p.1, replaceEdit text fragment p.1 p.2, p.2)
  have hnews : replaced.map (·.2.2) = (replacedPairs text type fragment).map (·.2) := List.map_map
  have hsignatures : replaced.map (·.2.2.signature) =
      (replacedPairs text type fragment).map (·.2.signature) := List.map_map
  refine ⟨replaced, hnews ▸ hsub, hsub', hnews ▸ hall, ?_, ?_, ?_⟩
  · rw [mergeEdits_eq, hsignatures]
  · rw [mergeEdits_eq, List.map_map]
    rfl
  · intro old e new hmem
    obtain ⟨p, hp, heq⟩ := List.mem_map.mp hmem
    simp only [Prod.mk.injEq] at heq
    obtain ⟨rfl, rfl, rfl⟩ := heq
    exact ⟨mem_directMembers_of_mem_replacedPairs hp, replaces_replaceEdit text fragment p.1 p.2,
      rfl⟩

/-- What the `report` of a merge says has been done if the `target` has its braces, or nothing is
appended: the members of the `fragment` are those it says are replaced and those it says are
appended. The former stand in the place of a member of the type each, and the latter stand one after
the other at a point outside of every member. -/
theorem merge_report_holds {grammar : Grammar} {target : Owner} {fragment : Fragment}
    {report : MergeReport} (hparsed : (grammar text).Parsed text)
    (hbraced : report.appended ≠ [] → (grammar text).TargetBraced text target)
    (hmerge : mergeFragment grammar text target fragment = some (out, report)) :
    ∃ (type body : Tree) (edits : List Edit) (replaced : List (Member × Edit × Member))
      (appended : List Member) (insertion : Option Edit),
      (grammar text).typeDeclaration? text target = some type ∧ type.field? "body" = some body ∧
      (replaced.map (·.2.2)).Sublist fragment.members ∧ appended.Sublist fragment.members ∧
      (replaced.map (·.2.2) ++ appended).Perm fragment.members ∧
      report.replaced = replaced.map (·.2.2.signature) ∧
      report.appended = appended.map (·.signature) ∧
      Rewritten text 0 edits out ∧ edits.Perm (replaced.map (·.2.1) ++ insertion.toList) ∧
      (∀ old e new, (old, e, new) ∈ replaced → old ∈ type.directMembers text ∧ e.Replaces old ∧
        e.text = fragment.textOf new (Text.indentAt text e.start)) ∧
      (appended ≠ [] → insertion.isSome) ∧
      (∀ e ∈ insertion, e.start = e.stop ∧
        (∀ m ∈ type.members text, m.stop ≤ e.start ∨ e.stop ≤ m.start) ∧
        InOrder (appended.map
          (fragment.textOf · (bodyIndent text (type.directMembers text) body))) e.text) ∧
      ∀ new ∈ fragment.members, ∃ indent l r, out = l ++ fragment.textOf new indent ++ r := by
  obtain ⟨type, body, htype, hbody, -, -, rfl, rfl⟩ := mergeFragment_eq_some_iff.mp hmerge
  have h : TypeSite text type body := hparsed.typeSite htype hbody
  obtain ⟨replaced, hsub, hsub', hall, hreport, hedits, hreplaced⟩ :=
    exists_reported text type body fragment
  have hinsertion : InsertsAtGap text type body fragment ∧
      (appendedMembers text type fragment ≠ [] →
        (insertion? text type body fragment).isSome) := by
    by_cases hnil : appendedMembers text type fragment = []
    · refine ⟨fun e he => ?_, fun hne => absurd hnil hne⟩
      simp [insertion?_eq_none hnil] at he
    · have hsite := hparsed.editSite (hbraced (by simpa [hreport] using hnil)) htype hbody
      exact ⟨hsite.insertsAtGap fragment, hsite.isSome_insertion?⟩
  obtain ⟨hgaps, hsome⟩ := hinsertion
  obtain ⟨edits, hperm, hrewritten⟩ := h.exists_rewritten hgaps
  rw [hreport]
  refine ⟨type, body, edits, replaced, appendedMembers text type fragment,
    insertion? text type body fragment, htype, hbody, hsub, hsub', hall, rfl, rfl, hrewritten,
    hedits ▸ hperm, hreplaced, hsome, fun e he => ?_, fun new hnew => ?_⟩
  · obtain ⟨hpoint, htexts⟩ := insertion_spec he
    refine ⟨hpoint, fun m hm => ?_, htexts⟩
    have hle := (h.placed hm).startWithComments_le
    have := (hgaps e he).outside m hm
    omega
  · obtain ⟨indent, -, hout⟩ := h.exists_indents_of_mem hgaps hsome hnew
    exact ⟨indent, hout⟩

/-- If the body of the type does not end in a closing brace, only the replacements are written. The
other members of the fragment are reported as appended all the same. -/
theorem merge_appends_nothing {grammar : Grammar} {target : Owner} {fragment : Fragment}
    {report : MergeReport} (hparsed : (grammar text).Parsed text)
    (hopen : ∀ type ∈ (grammar text).typeDeclaration? text target, ∀ body ∈ type.field? "body",
      Text.hasAscii text (body.stop - 1) '\x7d' = false)
    (hmerge : mergeFragment grammar text target fragment = some (out, report)) :
    ∃ (type : Tree) (edits : List Edit) (replaced : List (Member × Edit × Member))
      (appended : List Member),
      (grammar text).typeDeclaration? text target = some type ∧
      (replaced.map (·.2.2) ++ appended).Perm fragment.members ∧
      report.replaced = replaced.map (·.2.2.signature) ∧
      report.appended = appended.map (·.signature) ∧
      Rewritten text 0 edits out ∧ edits.Perm (replaced.map (·.2.1)) ∧
      ∀ old e new, (old, e, new) ∈ replaced → old ∈ type.directMembers text ∧ e.Replaces old ∧
        e.text = fragment.textOf new (Text.indentAt text e.start) := by
  obtain ⟨type, body, htype, hbody, -, -, rfl, rfl⟩ := mergeFragment_eq_some_iff.mp hmerge
  obtain ⟨replaced, -, -, hall, hreport, hedits, hreplaced⟩ :=
    exists_reported text type body fragment
  have hnone : insertion? text type body fragment = none := by
    rw [insertion?]
    split
    · rfl
    · rw [additionEdit?, if_pos (by simp [hopen type htype body hbody])]
  have hgaps : InsertsAtGap text type body fragment := fun e he => by simp [hnone] at he
  obtain ⟨edits, hperm, hrewritten⟩ := (hparsed.typeSite htype hbody).exists_rewritten hgaps
  rw [hedits, hnone, Option.toList_none, List.append_nil] at hperm
  rw [hreport]
  exact ⟨type, edits, replaced, _, htype, hall, rfl, rfl, hrewritten, hperm, hreplaced⟩

/-- A class whose closing brace is missing. -/
def openClass : String := "class C \x7b void A(int n); "

def openClassTree : Tree :=
  .node { kind := "compilation_unit", length := 25 }
    [.node { kind := "class_declaration", length := 24 }
      [.ofToken "class" 0, .ofLeaf "identifier" "name" 6 1,
        .node { kind := "declaration_list", label := some "body", start := 8, length := 16 }
          [.ofToken "\x7b" 8, .ofOverload 10 3]]]

/-- The method that is reported as appended stands nowhere in the result. -/
theorem mergeFragment_openClass :
    openClassTree.Parsed openClass ∧
    mergeFragment (fun _ => openClassTree) openClass ⟨"C", "C", "C.cs", 0⟩ newFirst =
      some ("class C \x7b void A(long n); ",
        { replaced := ["A(long)"], appended := ["A(int)"] }) := by
  refine ⟨by decide +kernel, mergeFragment_eq_some_iff.mpr
    ⟨_, _, rfl, rfl, by decide +kernel, by decide +kernel, ?_, ?_⟩⟩
  · rw [applyEdits_of_pairwise (by decide +kernel)]
    decide +kernel
  · decide +kernel

end CodeAtlas
