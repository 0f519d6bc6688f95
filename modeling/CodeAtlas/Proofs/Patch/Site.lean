import CodeAtlas.Patch.Merge
import CodeAtlas.Proofs.Syntax.Members
import CodeAtlas.Proofs.Text.Line

/-!
# The type that is edited

The members of a type can be replaced if its tree is well formed and its members end cleanly. If
its body also stands between braces of its own, members can be appended: a point in front of the
closing brace, or at the start of its line if only white space precedes it there, lies in the body
and in no member.

## Main definitions

* `Tree.Parsed`: the laws of the trees that a parser makes, also of incomplete code.
* `Tree.TargetBraced`: the type that is edited has both braces of its body.
* `TypeSite`: a type whose members can be replaced, and its body.
* `EditSite`: a type to which members can also be appended.

## Main statements

* `Tree.mem_of_typeDeclaration?`: the type that is found is a node of the tree.
* `EditSite.stop_le_or_stop_le`: a member ends before the closing brace or starts after it.
* `EditSite.exists_insertion`, `additionEdit?_spec`: where members are appended, and how.
-/
namespace CodeAtlas

open Text (IsBoundary slice?)

variable {text source : String} {type body : Tree} {m : Member}

/-! ## Finding the type -/

namespace Tree

@[simp]
theorem memberKind?_of_typeKind? {t : Tree} (h : t.typeKind?.isSome) : t.memberKind? = none := by
  unfold typeKind? at h
  split at h <;> simp_all [memberKind?]

mutual

@[grind →] theorem mem_of_mem_typesNamed {name : String} {u : Tree} : ∀ {t : Tree},
    u ∈ typesNamed source name t → u ∈ t.preorder ∧ u.typeKind?.isSome
  | node d cs, hu => by
    rw [typesNamed, List.mem_append] at hu
    rcases hu with hu | hu
    · split at hu
      · next hkind =>
        obtain rfl := List.mem_singleton.mp hu
        exact ⟨mem_preorder_self _, (Bool.and_eq_true_iff.mp hkind).1⟩
      · simp at hu
    · obtain ⟨hmem, hkind⟩ := mem_of_mem_typesNamedIn hu
      exact ⟨List.mem_cons_of_mem _ hmem, hkind⟩

@[grind →] theorem mem_of_mem_typesNamedIn {name : String} {u : Tree} : ∀ {cs : List Tree},
    u ∈ typesNamedIn source name cs → u ∈ preorderAll cs ∧ u.typeKind?.isSome
  | [], hu => by simp [typesNamedIn] at hu
  | c :: cs, hu => by
    rw [typesNamedIn, List.mem_append] at hu
    rw [preorderAll, List.mem_append]
    rcases hu with hu | hu
    · split at hu
      · obtain ⟨hmem, hkind⟩ := mem_of_mem_typesNamed hu
        exact ⟨.inl hmem, hkind⟩
      · simp at hu
    · obtain ⟨hmem, hkind⟩ := mem_of_mem_typesNamedIn hu
      exact ⟨.inr hmem, hkind⟩

end

/-- The type that is found is declared by a node of the tree. -/
@[grind →] theorem mem_of_typeDeclaration? {t : Tree} {target : Owner}
    (h : t.typeDeclaration? source target = some type) :
    type ∈ t.preorder ∧ type.typeKind?.isSome := by
  have hmem : type ∈ t.typesNamed source target.typeName := by
    rw [typeDeclaration?, Option.orElse_eq_orElse, Option.orElse_eq_or] at h
    rcases Option.or_eq_some_iff.mp h with hfind | ⟨-, hhead⟩
    · exact List.mem_of_find?_eq_some hfind
    · exact List.mem_of_head? hhead
  exact mem_of_mem_typesNamed hmem

end Tree

/-! ## Sites -/

/-- The laws of a tree `t` that a parser makes of `text`, also where it had to recover from an
error: a member ends in a token or with the line of a directive. -/
structure Tree.Parsed (text : String) (t : Tree) : Prop where
  wellFormed : t.WellFormed text
  endsCleanly : ∀ n ∈ t.preorder, n.memberKind?.isSome → Text.endsCleanly (n.text text) = true

instance (text : String) (t : Tree) : Decidable (t.Parsed text) :=
  decidable_of_iff (t.WellFormed text ∧
      ∀ n ∈ t.preorder, n.memberKind?.isSome → Text.endsCleanly (n.text text) = true)
    ⟨fun h => ⟨h.1, h.2⟩, fun h => ⟨h.wellFormed, h.endsCleanly⟩⟩

/-- The body of the type that `target` names stands between braces of its own. -/
def Tree.TargetBraced (t : Tree) (text : String) (target : Owner) : Prop :=
  ∀ type ∈ t.typeDeclaration? text target, ∀ body ∈ type.field? "body", body.Braced text

instance (t : Tree) (text : String) (target : Owner) : Decidable (t.TargetBraced text target) :=
  inferInstanceAs (Decidable (∀ type ∈ t.typeDeclaration? text target, _))

/-- The type `type`, whose members can be replaced, with its body. -/
structure TypeSite (text : String) (type body : Tree) : Prop where
  wellFormed : type.WellFormed text
  isType : type.typeKind?.isSome
  field?_eq : type.field? "body" = some body
  endsCleanly : ∀ n ∈ type.preorder, n.memberKind?.isSome → Text.endsCleanly (n.text text) = true

/-- The type `type`, to which members can also be appended, with its body. -/
structure EditSite (text : String) (type body : Tree) : Prop extends TypeSite text type body where
  braced : body.Braced text

theorem Tree.Parsed.typeSite {t : Tree} {target : Owner} (h : t.Parsed text)
    (htype : t.typeDeclaration? text target = some type) (hbody : type.field? "body" = some body) :
    TypeSite text type body := by
  obtain ⟨hmem, hkind⟩ := Tree.mem_of_typeDeclaration? htype
  exact
    { wellFormed := h.wellFormed.of_mem hmem
      isType := hkind
      field?_eq := hbody
      endsCleanly := fun n hn => h.endsCleanly n (Tree.mem_preorder_trans hmem hn) }

theorem Tree.Parsed.editSite {t : Tree} {target : Owner} (h : t.Parsed text)
    (hbraced : t.TargetBraced text target) (htype : t.typeDeclaration? text target = some type)
    (hbody : type.field? "body" = some body) : EditSite text type body :=
  ⟨h.typeSite htype hbody, hbraced type htype body hbody⟩

namespace TypeSite

@[grind →] theorem body_mem (h : TypeSite text type body) : body ∈ type.children :=
  Tree.mem_children_of_field? h.field?_eq

@[grind →] theorem body_wellFormed (h : TypeSite text type body) : body.WellFormed text :=
  h.wellFormed.child h.body_mem

theorem placed (h : TypeSite text type body) (hm : m ∈ type.members text) :
    m.Placed text type.start type.stop :=
  Tree.placed_of_mem_members h.wellFormed hm

/-- A member has a text that ends cleanly. -/
theorem exists_slice? (h : TypeSite text type body) (hm : m ∈ type.members text) :
    ∃ t, slice? text m.start m.stop = some t ∧ Text.endsCleanly t = true := by
  have hplaced := h.placed hm
  obtain ⟨t, ht⟩ := hplaced.wellFormed.exists_slice?
  have hend := h.endsCleanly m.tree (Tree.tree_mem_of_mem_membersAt hm) hplaced.isMember
  rw [Tree.text, Text.slice_eq_of_slice? ht] at hend
  exact ⟨t, ht, hend⟩

theorem start_lt_stop (h : TypeSite text type body) (hm : m ∈ type.members text) :
    m.start < m.stop := by
  obtain ⟨t, ht, hend⟩ := h.exists_slice? hm
  have hsize := Text.size_of_slice? ht
  have hne : t.utf8ByteSize ≠ 0 := by
    intro hzero
    obtain rfl := String.utf8ByteSize_eq_zero_iff.mp hzero
    exact absurd hend (by decide)
  omega

end TypeSite

namespace EditSite

/-! ## Braces and members -/

/-- The opening brace stands in front of the closing one, which is the last byte of the body. -/
theorem braces (h : EditSite text type body) :
    slice? text body.start (body.start + 1) = some "\x7b" ∧
      slice? text (body.stop - 1) body.stop = some "\x7d" ∧ body.start + 1 ≤ body.stop - 1 := by
  obtain ⟨left, inner, right, hchildren, hleft, hstart, hright, hstop⟩ := h.braced.exists_braces
  have hl := Text.size_of_slice? hleft.slice?_eq
  have hr := Text.size_of_slice? hright.slice?_eq
  rw [show "\x7b".utf8ByteSize = 1 by decide] at hl
  rw [show "\x7d".utf8ByteSize = 1 by decide] at hr
  have hord := h.body_wellFormed.pairwise_children
  rw [hchildren] at hord
  have hle : left.stop ≤ right.start := List.rel_of_pairwise_cons hord (by simp)
  refine ⟨?_, ?_, by omega⟩
  · rw [← hstart, hl]
    exact hleft.slice?_eq
  · rw [← hstop, show right.stop - 1 = right.start by omega]
    exact hright.slice?_eq

/-- The members of the body end before the closing brace. -/
theorem stop_le_of_mem_body {containers : List String} {preceding : List Tree}
    (h : EditSite text type body) (hm : m ∈ Tree.membersAt text containers preceding body) :
    m.stop ≤ body.stop - 1 := by
  obtain ⟨left, inner, right, hchildren, hleft, hstart, hright, hstop⟩ := h.braced.exists_braces
  have hr := Text.size_of_slice? hright.slice?_eq
  rw [show "\x7d".utf8ByteSize = 1 by decide] at hr
  obtain ⟨types, htypes⟩ := Tree.exists_membersAt_eq h.braced.memberKind?_eq
  have hnone : right.memberKind? = none := by simp [Tree.memberKind?, hright.kind_eq]
  rw [htypes, hchildren, ← List.cons_append, Tree.membersIn_append] at hm
  have hm : m ∈ Tree.membersIn text types [] (left :: inner) := by
    simpa [Tree.membersIn, Tree.membersAt_leaf hnone hright.leaf] using hm
  have hord := h.body_wellFormed.pairwise_children
  have hwf : ∀ c ∈ body.children, c.WellFormed text := fun c hc => h.body_wellFormed.child hc
  rw [hchildren, ← List.cons_append] at hord hwf
  have hplaced := Tree.placed_before (fun c hc => hwf c (List.mem_append_left _ hc)) hord hm
  have := hplaced.le_hi
  omega

/-- A member ends before the closing brace or starts, with its comments, after it. -/
theorem stop_le_or_stop_le (h : EditSite text type body) (hm : m ∈ type.members text) :
    m.stop ≤ body.stop - 1 ∨ body.stop ≤ m.startWithComments := by
  obtain ⟨types, htypes⟩ := Tree.exists_membersAt_eq (Tree.memberKind?_of_typeKind? h.isType)
  obtain ⟨front, back, hchildren⟩ := List.append_of_mem h.body_mem
  have hord := h.wellFormed.pairwise_children
  have hwf : ∀ c ∈ type.children, c.WellFormed text := fun c hc => h.wellFormed.child hc
  rw [hchildren] at hord hwf
  rw [Tree.members, htypes, hchildren, Tree.membersIn_append, Tree.membersIn] at hm
  rcases List.mem_append.mp hm with hm | hm
  · have hplaced := Tree.placed_before (fun c hc => hwf c (List.mem_append_left _ hc)) hord hm
    have := hplaced.le_hi
    have := h.braces.2.2
    omega
  · rcases List.mem_append.mp hm with hm | hm
    · split at hm
      · exact .inl (h.stop_le_of_mem_body hm)
      · simp at hm
    · have hcomment : body.kind ≠ "comment" := by
        obtain ⟨left, inner, right, hinner, -⟩ := h.braced.exists_braces
        exact h.body_wellFormed.kind_ne_comment (hinner ▸ List.mem_cons_self)
      have hord := (List.pairwise_append.mp hord).2.1
      have hplaced := Tree.placed_after hcomment (fun d hd => hwf d (by simp [hd])) hord hm
      exact .inr hplaced.lo_le_startWithComments

/-! ## Appending -/

/-- A point `p` of `body` in front of the closing brace that lies in no member and not between a
member and its comments. -/
structure Gap (text : String) (type body : Tree) (p : Nat) : Prop where
  isBoundary : IsBoundary text p
  start_lt : body.start < p
  lt_stop : p < body.stop
  outside : ∀ m ∈ type.members text, m.stop ≤ p ∨ p < m.startWithComments

/-- The place of the closing brace is a gap. -/
theorem gap_closing (h : EditSite text type body) : Gap text type body (body.stop - 1) := by
  obtain ⟨-, hclose, hlt⟩ := h.braces
  refine ⟨Text.isBoundary_left hclose, by omega, by omega, fun m hm => ?_⟩
  have := h.stop_le_or_stop_le hm
  omega

/-- So is the start of its line if only white space stands before the brace. -/
theorem gap_lineStart (h : EditSite text type body)
    (hblank : Text.blank (Text.lastLine (Text.before text (body.stop - 1))) = true) :
    Gap text type body (Text.lineStart text (body.stop - 1)) := by
  obtain ⟨hopen, hclose, hlt⟩ := h.braces
  have hboundary := Text.isBoundary_left hclose
  have hle := Text.lineStart_le text (body.stop - 1)
  have hstart := Text.le_lineStart hopen (by decide) hboundary hlt hblank
  refine ⟨Text.isBoundary_lineStart hboundary, by omega, by omega, fun m hm => ?_⟩
  obtain ⟨t, ht, hend⟩ := h.exists_slice? hm
  rcases h.stop_le_or_stop_le hm with hstop | hstop
  · exact .inl (Text.le_lineStart ht hend hboundary hstop hblank)
  · exact .inr (by omega)

/-- Members can be appended, and what is appended is inserted at a gap. -/
theorem exists_insertion (h : EditSite text type body) (existing : List Member)
    (texts : List String) :
    ∃ e, additionEdit? text body existing texts = some e ∧ Gap text type body e.start := by
  obtain ⟨-, hclose, hlt⟩ := h.braces
  have hascii : Text.hasAscii text (body.stop - 1) '\x7d' = true := by
    rw [Text.hasAscii, show body.stop - 1 + 1 = body.stop by omega, hclose]
    rfl
  rw [additionEdit?, if_neg (by simp [hascii]; omega)]
  dsimp only
  split
  · next hblank => exact ⟨_, rfl, h.gap_lineStart hblank⟩
  · exact ⟨_, rfl, h.gap_closing⟩

end EditSite

/-- Appended members are inserted at one point, and stand there in order. -/
theorem additionEdit?_spec {existing : List Member} {texts : List String} {e : Edit}
    (he : additionEdit? text body existing texts = some e) :
    e.start = e.stop ∧ ∃ l r, e.text =
      l ++ appendedText (bodyIndent text existing body) (!existing.isEmpty) texts ++ r := by
  rw [additionEdit?] at he
  dsimp only at he
  split at he
  · simp at he
  · split at he
    · obtain rfl := Option.some.inj he
      exact ⟨rfl, "", "", by simp⟩
    · obtain rfl := Option.some.inj he
      exact ⟨rfl, "\n", _, rfl⟩

end CodeAtlas
