import CodeAtlas.Proofs.Patch.Merge
import Mathlib.Data.List.Nodup

/-!
# Comments behind members

A comment that stands behind a member on the same line belongs to that member. The comments in front
of a member are all comments up to the sibling before it, whatever lines they stand on. So a
replacement that brings comments of its own takes along the comment behind the member before it.
That is the only way for such a comment to get lost.

## Main definitions

* `Trails`: a comment behind a member.
* `TakesComment`: a replacement takes a comment along.

## Main statements

* `EditSite.stop_le_insertion`: members are appended behind every comment of the body.
* `EditSite.untouched_trailing`: no edit touches a comment that no replacement takes along.
* `merge_trailing_comments`: what comes of a comment behind a member that is not replaced.
* `merge_loses_trailing_comment`: a comment gets lost.
-/
namespace CodeAtlas

open Text (slice?)

variable {text out : String} {type body c : Tree} {m : Member} {e : Edit} {fragment : Fragment}
  {p : Member × Member}

/-- The comment `c` in the body stands behind the member `m` on the same line, with no other member
of the type in between. -/
structure Trails (text : String) (type body : Tree) (m : Member) (c : Tree) : Prop where
  isComment : c.kind = "comment"
  mem_body : c ∈ body.preorder
  after : m.stop ≤ c.start
  sameLine : '\n' ∉ (Text.slice text m.stop c.start).toList
  alone : ∀ n ∈ type.directMembers text, n.stop ≤ m.stop ∨ c.stop ≤ n.start

/-- The pair `p` is a replacement behind `m` that has comments of its own, and those in front of the
old member begin before the comment `c` ends. -/
structure TakesComment (m : Member) (c : Tree) (p : Member × Member) : Prop where
  commented : p.2.leadingComment?.isSome
  behind : m.stop ≤ p.1.startWithComments
  takes : p.1.startWithComments < c.stop

namespace EditSite

/-! ## Where edits are made -/

/-- A comment of the body ends in front of the closing brace. -/
theorem stop_le_of_comment (h : EditSite text type body) (hc : c ∈ body.preorder)
    (hkind : c.kind = "comment") : c.stop ≤ body.stop - 1 := by
  obtain ⟨left, inner, right, hchildren, -, -, hright, hstop⟩ := h.braced.exists_braces
  have hsize := Text.size_of_slice? hright.slice?_eq
  rw [show "\x7d".utf8ByteSize = 1 by decide] at hsize
  have hbody : body.kind ≠ "comment" :=
    h.body_wellFormed.kind_ne_comment (hchildren ▸ List.mem_cons_self)
  rcases Tree.mem_preorder_iff.mp hc with rfl | ⟨d, hd, hcd⟩
  · exact absurd hkind hbody
  have hinside := ((h.body_wellFormed.child hd).layered.start_le_of_mem hcd).2
  have hord := h.body_wellFormed.pairwise_children
  rw [hchildren, ← List.cons_append] at hd hord
  rcases List.mem_append.mp hd with hd | hd
  · have hle : d.stop ≤ right.start :=
      (List.pairwise_append.mp hord).2.2 d hd right (List.mem_singleton_self _)
    omega
  · -- the closing brace has no comment in it
    obtain rfl := List.mem_singleton.mp hd
    rcases Tree.mem_preorder_iff.mp hcd with rfl | ⟨x, hx, -⟩
    · rw [hright.kind_eq] at hkind
      exact absurd hkind (by decide)
    · simp [hright.leaf] at hx

/-- Members are appended at the closing brace, or at the start of its line if that is blank. -/
theorem insertion_start (he : e ∈ insertion? text type body fragment) :
    e.start = body.stop - 1 ∨
      Text.blank (Text.lastLine (Text.before text (body.stop - 1))) = true ∧
        e.start = Text.lineStart text (body.stop - 1) := by
  rw [insertion?] at he
  split at he
  · simp at he
  rw [additionEdit?] at he
  split at he
  · simp at he
  dsimp only at he
  split at he
  · next hblank =>
    obtain rfl := Option.some.inj he
    exact .inr ⟨hblank, rfl⟩
  · obtain rfl := Option.some.inj he
    exact .inl rfl

/-- Members are appended behind every comment of the body. -/
theorem stop_le_insertion (h : EditSite text type body)
    (he : e ∈ insertion? text type body fragment) (hc : c ∈ body.preorder)
    (hkind : c.kind = "comment") (hclean : Text.endsCleanly (c.text text) = true) :
    c.stop ≤ e.start := by
  have hle := h.stop_le_of_comment hc hkind
  rcases insertion_start he with heq | ⟨hblank, heq⟩
  · omega
  · rw [heq]
    obtain ⟨t, ht⟩ := (h.body_wellFormed.of_mem hc).exists_slice?
    rw [Tree.text, Text.slice_eq_of_slice? ht] at hclean
    exact Text.le_lineStart ht hclean (Text.isBoundary_left h.braces.2.1) hle hblank

/-! ## Comments that stay -/

@[simp] theorem start_replaceEdit (text : String) (fragment : Fragment) (old new : Member) :
    (replaceEdit text fragment old new).start =
      if new.leadingComment?.isSome then old.startWithComments else old.start :=
  rfl

theorem text_replaceEdit (text : String) (fragment : Fragment) (old new : Member) :
    (replaceEdit text fragment old new).text =
      fragment.textOf new (Text.indentAt text (replaceEdit text fragment old new).start) :=
  rfl

/-- A member that is not replaced and a comment behind it are not touched, unless a replacement
takes the comment along. -/
theorem untouched_trailing (h : EditSite text type body) (hm : m ∈ type.directMembers text)
    (hnot : m ∉ (replacedPairs text type fragment).map (·.1)) (hc : Trails text type body m c)
    (hclean : Text.endsCleanly (c.text text) = true)
    (hfree : ∀ p ∈ replacedPairs text type fragment, ¬ TakesComment m c p) :
    Untouched (mergeEdits text type body fragment).1 m.start c.stop := by
  intro e he
  rcases mem_mergeEdits.mp he with ⟨p, hp, rfl⟩ | he
  · have hdirect := mem_directMembers_of_mem_replacedPairs hp
    have hne : m ≠ p.1 := fun heq => hnot (heq ▸ List.mem_map_of_mem hp)
    have hstop := (replaces_replaceEdit text fragment p.1 p.2).1
    rcases h.stop_le_of_ne hm hdirect hne with hbehind | hle
    · -- the member lies behind, so it starts behind the comment
      have hlt := h.start_lt_stop (mem_members_of_mem_direct hdirect)
      have hle := (h.placed (mem_members_of_mem_direct hdirect)).startWithComments_le
      have halone := (hc.alone p.1 hdirect).resolve_left (by omega)
      rw [start_replaceEdit]
      split
      · next hcommented =>
        have hnot : ¬ p.1.startWithComments < c.stop := fun htakes =>
          hfree p hp ⟨hcommented, hbehind, htakes⟩
        exact .inr (by omega)
      · exact .inr halone
    · have hstart := (h.placed (mem_members_of_mem_direct hm)).startWithComments_le
      exact .inl (by omega)
  · exact .inr (h.stop_le_insertion he hc.mem_body hc.isComment hclean)

/-! ## Comments that are taken along -/

theorem eq_of_fst_eq {q : Member × Member} (h : EditSite text type body)
    (hp : p ∈ replacedPairs text type fragment) (hq : q ∈ replacedPairs text type fragment)
    (heq : p.1 = q.1) : p = q :=
  List.inj_on_of_nodup_map h.nodup_replacedPairs hp hq heq

/-- Between the member and the replacement that takes its comment along nothing else is edited. -/
theorem apart_of_takesComment (h : EditSite text type body) (hm : m ∈ type.directMembers text)
    (hnot : m ∉ (replacedPairs text type fragment).map (·.1)) (hc : Trails text type body m c)
    (hclean : Text.endsCleanly (c.text text) = true) (hp : p ∈ replacedPairs text type fragment)
    (htakes : TakesComment m c p) :
    ∀ f ∈ (mergeEdits text type body fragment).1, f = replaceEdit text fragment p.1 p.2 ∨
      f.stop ≤ m.start ∨ p.1.stop ≤ f.start := by
  intro f hf
  have hmstart := (h.placed (mem_members_of_mem_direct hm)).startWithComments_le
  have htake := htakes.takes
  rcases mem_mergeEdits.mp hf with ⟨q, hq, rfl⟩ | hf
  · by_cases heq : q.1 = p.1
    · exact .inl (by rw [h.eq_of_fst_eq hq hp heq])
    · have hdirect := mem_directMembers_of_mem_replacedPairs hq
      have hreplaces := replaces_replaceEdit text fragment q.1 q.2
      have hstart := h.start_of_replaces (mem_members_of_mem_direct hdirect) hreplaces
      have hstop := hreplaces.1
      have hlt := h.start_lt_stop (mem_members_of_mem_direct hdirect)
      have hne : m ≠ q.1 := fun heq => hnot (heq ▸ List.mem_map_of_mem hq)
      have hmq := h.stop_le_of_ne hm hdirect hne
      have hqp := h.stop_le_of_ne hdirect (mem_directMembers_of_mem_replacedPairs hp) heq
      have halone := hc.alone q.1 hdirect
      right
      omega
  · have hpoint := (insertion_spec hf).1
    have hgap := h.insertsAtGap fragment f hf
    have hbehind := h.stop_le_insertion hf hc.mem_body hc.isComment hclean
    have := hgap.outside p.1 (mem_members_of_mem_direct (mem_directMembers_of_mem_replacedPairs hp))
    right
    omega

end EditSite

/-- What comes of a comment `c` behind a member `m` that is not replaced. If no replacement takes it
along, the member and the comment stand in `out` as they did in `text`. If a replacement does, what
stands behind the member is the text up to the comments in front of the replaced member, and right
behind that the new one. -/
theorem merge_trailing_comments {grammar : Grammar} {target : Owner} {report : MergeReport}
    (hparsed : (grammar text).Parsed text) (hbraced : (grammar text).TargetBraced text target)
    (hcomments : ∀ n ∈ (grammar text).preorder, n.kind = "comment" →
      Text.endsCleanly (n.text text) = true)
    (hmerge : mergeFragment grammar text target fragment = some (out, report)) :
    ∃ (type body : Tree) (edits : List Edit),
      (grammar text).typeDeclaration? text target = some type ∧ type.field? "body" = some body ∧
      Rewritten text 0 edits out ∧
      ∀ m ∈ type.directMembers text, m ∉ (replacedPairs text type fragment).map (·.1) →
        ∀ c, Trails text type body m c →
        ((∀ p ∈ replacedPairs text type fragment, ¬ TakesComment m c p) →
          ∃ t, slice? text m.start c.stop = some t ∧
            slice? out (place edits m.start) (place edits m.start + t.utf8ByteSize) = some t) ∧
        ∀ p ∈ replacedPairs text type fragment, TakesComment m c p →
          ∃ t new, slice? text m.start p.1.startWithComments = some t ∧
            new = fragment.textOf p.2 (Text.indentAt text p.1.startWithComments) ∧
            slice? out (place edits m.start) (place edits m.start + (t ++ new).utf8ByteSize) =
              some (t ++ new) := by
  obtain ⟨type, body, htype, hbody, -, -, rfl, -⟩ := mergeFragment_eq_some_iff.mp hmerge
  have h : EditSite text type body := hparsed.editSite hbraced htype hbody
  obtain ⟨edits, hperm, hrewritten⟩ := h.exists_rewritten (h.insertsAtGap fragment)
  refine ⟨type, body, edits, htype, hbody, hrewritten, fun m hm hnot c hc => ?_⟩
  have hclean : Text.endsCleanly (c.text text) = true := by
    have hmem := Tree.mem_preorder_trans (Tree.mem_preorder_of_mem_children h.body_mem) hc.mem_body
    exact hcomments c (Tree.mem_preorder_trans (Tree.mem_of_typeDeclaration? htype).1 hmem)
      hc.isComment
  have hboundary : Text.IsBoundary text m.start :=
    (h.placed (mem_members_of_mem_direct hm)).wellFormed.isBoundary_start
  refine ⟨fun hfree => ?_, fun p hp htakes => ?_⟩
  · have hle := hc.after
    have hstart := m.start_le_stop
    have hstop := c.start_le_stop
    obtain ⟨t, ht⟩ := Text.exists_slice?_eq hboundary
      (h.body_wellFormed.of_mem hc.mem_body).isBoundary_stop (by omega)
    have hsize := Text.size_of_slice? ht
    have hun : Untouched edits m.start c.stop := fun e he =>
      h.untouched_trailing hm hnot hc hclean hfree e (hperm.mem_iff.mp he)
    have hout := hrewritten.slice?_place hun ht
    rw [show c.stop - m.start = t.utf8ByteSize by omega] at hout
    exact ⟨t, ht, hout⟩
  · have hdirect := mem_members_of_mem_direct (mem_directMembers_of_mem_replacedPairs hp)
    have hstart : (replaceEdit text fragment p.1 p.2).start = p.1.startWithComments := by
      rw [EditSite.start_replaceEdit, if_pos htakes.commented]
    have hstop := (replaces_replaceEdit text fragment p.1 p.2).1
    have hlt := h.start_lt_stop (mem_members_of_mem_direct hm)
    have hbehind := htakes.behind
    have hle := (h.placed hdirect).startWithComments_le
    have hlt' := h.start_lt_stop hdirect
    obtain ⟨t, ht⟩ := Text.exists_slice?_eq hboundary
      (h.placed hdirect).isBoundary_startWithComments (by omega)
    have he : replaceEdit text fragment p.1 p.2 ∈ edits :=
      hperm.mem_iff.mpr (mem_mergeEdits.mpr (.inl ⟨p, hp, rfl⟩))
    refine ⟨t, (replaceEdit text fragment p.1 p.2).text, ht, ?_, ?_⟩
    · rw [EditSite.text_replaceEdit, hstart]
    · refine hrewritten.slice?_place_edit he (by omega) (by omega) (fun f hf => ?_) (hstart ▸ ht)
      rw [hstop]
      exact h.apart_of_takesComment hm hnot hc hclean hp htakes f (hperm.mem_iff.mp hf)

/-- A class with a comment behind the first of two methods. -/
def trailedText : String := "class C \x7b void A(int n); // d\nvoid A(long n); \x7d"

def trailedMembers : List Tree :=
  [.ofOverload 10 3, .node { kind := "comment", start := 25, length := 4 } [], .ofOverload 30 4]

def trailedTree : Tree := .ofFile 47 trailedMembers

def trailedClass : Tree := .ofClass 0 47 trailedMembers

def trailedBody : Tree :=
  .node { kind := "declaration_list", label := some "body", start := 8, length := 39 }
    (.ofToken "\x7b" 8 :: (trailedMembers ++ [.ofToken "\x7d" 46]))

/-- The comment trails the first method, which no replacement of the second one replaces. -/
theorem trails_trailedMembers (fragment : Fragment)
    (h : ∀ p ∈ replacedPairs trailedText trailedClass fragment, p.1.start = 30) :
    ∃ m ∈ trailedClass.directMembers trailedText,
      m ∉ (replacedPairs trailedText trailedClass fragment).map (·.1) ∧ m.start = 10 ∧
      ∃ c, c.stop = 29 ∧ Trails trailedText trailedClass trailedBody m c := by
  obtain ⟨m, hm, hstart, c, hc, hstop, hkind, hafter, hline, halone⟩ :
      ∃ m ∈ trailedClass.directMembers trailedText, m.start = 10 ∧
        ∃ c ∈ trailedBody.preorder, c.stop = 29 ∧ c.kind = "comment" ∧ m.stop ≤ c.start ∧
          '\n' ∉ (Text.slice trailedText m.stop c.start).toList ∧
          ∀ n ∈ trailedClass.directMembers trailedText, n.stop ≤ m.stop ∨ c.stop ≤ n.start := by
    decide +kernel
  refine ⟨m, hm, fun hmem => ?_, hstart, c, hstop, hkind, hc, hafter, hline, halone⟩
  obtain ⟨p, hp, rfl⟩ := List.mem_map.mp hmem
  exact absurd (hstart.symm.trans (h p hp)) (by decide)

/-- The second method with another parameter. -/
def plainMethod : Fragment where
  source := "class C \x7b void A(long k); \x7d"
  tree := .ofFile 27 [.ofOverload 10 4]
  container := some "C"

theorem mergeFragment_plainMethod :
    mergeFragment (fun _ => trailedTree) trailedText ⟨"C", "C", "C.cs", 0⟩ plainMethod =
      some ("class C \x7b void A(int n); // d\nvoid A(long k); \x7d",
        { replaced := ["A(long)"], appended := [] }) := by
  refine mergeFragment_eq_some_iff.mpr
    ⟨_, _, rfl, rfl, by decide +kernel, by decide +kernel, ?_, ?_⟩
  · rw [applyEdits_of_pairwise (by decide +kernel)]
    decide +kernel
  · decide +kernel

/-- A replacement without comments leaves the comment where it was. -/
theorem merge_trailing_comments_plainMethod :
    ∃ edits, Rewritten trailedText 0 edits
        "class C \x7b void A(int n); // d\nvoid A(long k); \x7d" ∧
      slice? "class C \x7b void A(int n); // d\nvoid A(long k); \x7d" (place edits 10)
        (place edits 10 + 19) = some "void A(int n); // d" := by
  obtain ⟨type, body, edits, htype, hbody, hrewritten, hall⟩ :=
    merge_trailing_comments (by decide +kernel) (by decide +kernel) (by decide +kernel)
      mergeFragment_plainMethod
  obtain rfl : trailedClass = type := Option.some.inj htype
  obtain rfl : trailedBody = body := Option.some.inj hbody
  obtain ⟨m, hm, hnot, hstart, c, hstop, hc⟩ :=
    trails_trailedMembers plainMethod (by decide +kernel)
  have hplain : ∀ p ∈ replacedPairs trailedText trailedClass plainMethod,
      p.2.leadingComment?.isSome = false := by decide +kernel
  obtain ⟨t, ht, hout⟩ := (hall m hm hnot c hc).1 fun p hp htakes =>
    absurd htakes.commented (by simp [hplain p hp])
  rw [hstart, hstop] at ht
  obtain rfl : "void A(int n); // d" = t :=
    Option.some.inj ((show slice? trailedText 10 29 = _ by decide +kernel).symm.trans ht)
  rw [hstart] at hout
  exact ⟨edits, hrewritten, hout⟩

/-- The second method with a comment of its own. -/
def commentedMethod : Fragment where
  source := "class C \x7b // e\nvoid A(long k); \x7d"
  tree := .ofFile 32
    [.node { kind := "comment", start := 10, length := 4 } [], .ofOverload 15 4]
  container := some "C"

/-- The comment behind the first method is lost when the second one is replaced. -/
theorem merge_loses_trailing_comment :
    mergeFragment (fun _ => trailedTree) trailedText ⟨"C", "C", "C.cs", 0⟩ commentedMethod =
      some ("class C \x7b void A(int n); // e\nvoid A(long k); \x7d",
        { replaced := ["A(long)"], appended := [] }) ∧
    ∃ m ∈ trailedClass.directMembers trailedText,
      m ∉ (replacedPairs trailedText trailedClass commentedMethod).map (·.1) ∧
      ∃ c, Trails trailedText trailedClass trailedBody m c ∧
        slice? trailedText m.start c.stop = some "void A(int n); // d" ∧
        ¬ "// d".toList <:+: "class C \x7b void A(int n); // e\nvoid A(long k); \x7d".toList := by
  constructor
  · refine mergeFragment_eq_some_iff.mpr
      ⟨_, _, rfl, rfl, by decide +kernel, by decide +kernel, ?_, ?_⟩
    · rw [applyEdits_of_pairwise (by decide +kernel)]
      decide +kernel
    · decide +kernel
  · obtain ⟨m, hm, hnot, hstart, c, hstop, hc⟩ :=
      trails_trailedMembers commentedMethod (by decide +kernel)
    refine ⟨m, hm, hnot, c, hc, ?_, by decide +kernel⟩
    rw [hstart, hstop]
    decide +kernel

end CodeAtlas
