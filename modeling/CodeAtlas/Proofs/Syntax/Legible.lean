import CodeAtlas.Proofs.Syntax.Members
import CodeAtlas.Proofs.Syntax.Skeleton

/-!
# Signatures and skeletons

The signature of a member is read off the text of its name and of the types of its parameters, as
they are written. In a *legible* tree nothing that a skeleton leaves out takes part in that: a
look-up finds no comment and no missing node, a name is spelled by its leaves, and there is no
comment in the type of a parameter. The members of two legible trees of the same skeleton then have
the same signatures, one after the other.

## Main definitions

* `Tree.Legible`: the trees whose signatures are told by their skeletons.
* `Tree.Alike`, `Tree.AlikeFiles`: legible trees of the same skeleton.
* `Member.summary`: what a comparison of members reads of a member.

## Main statements

* `Tree.Alike.signature?_eq`: alike nodes have the same signature.
* `Tree.AlikeFiles.map_summary_members`: alike files have members of the same summaries.
-/
namespace CodeAtlas

/-! ## Related options and lists -/

section Relations

variable {α β γ : Type} {R : α → β → Prop}

theorem rel_orElse {x x' : Option α} {y y' : Option β} (h : Option.Rel R x y)
    (h' : Option.Rel R x' y') : Option.Rel R (x <|> x') (y <|> y') := by
  cases h with
  | some h => exact .some h
  | none => exact h'

theorem rel_head? {xs : List α} {ys : List β} (h : List.Forall₂ R xs ys) :
    Option.Rel R xs.head? ys.head? := by
  cases h with
  | nil => exact .none
  | cons h _ => exact .some h

theorem map_eq_map_of_rel {x : Option α} {y : Option β} {f : α → γ} {g : β → γ}
    (h : Option.Rel R x y) (hfg : ∀ a ∈ x, ∀ b ∈ y, R a b → f a = g b) : x.map f = y.map g := by
  cases h with
  | some h => exact congrArg some (hfg _ rfl _ rfl h)
  | none => rfl

theorem flatMap_filter_of_nil {xs : List α} {p : α → Bool} {f : α → List γ}
    (h : ∀ x ∈ xs, p x = false → f x = []) : (xs.filter p).flatMap f = xs.flatMap f := by
  induction xs with
  | nil => rfl
  | cons x xs ih =>
    obtain ⟨hx, hxs⟩ := List.forall_mem_cons.mp h
    cases hp : p x with
    | true => simp [hp, ih hxs]
    | false => simp [hp, hx hp, ih hxs]

end Relations

/-- The form in which signatures show a type does not depend on white space. -/
theorem TypeName.normalized_congr {x y : String} (h : Text.squeeze x = Text.squeeze y) :
    TypeName.normalized x = TypeName.normalized y := by
  rw [TypeName.normalized, TypeName.normalized, String.ofList_injective h]

namespace Tree

variable {s s' : String} {a b c t : Tree} {kind field : String}

/-! ## Legible trees -/

/-- The node `t` introduces a name that is part of a signature or stands around one. -/
def introducesName (t : Tree) : Bool :=
  t.memberKind?.isSome || t.typeKind?.isSome || t.kind == "variable_declarator"

/-- The node `t` spells the name that its parent introduces. -/
def spellsName (t : Tree) : Bool :=
  t.kind == "identifier" || t.label == some "name" || t.label == some "operator"

/-- The node `t` has a type that is part of a signature. -/
def isTyped (t : Tree) : Bool :=
  t.kind == "parameter" || t.memberKind? == some .operator

/-- The tree `t` has the names and types of its signatures without comments, and what a skeleton
leaves out takes no part in them. -/
structure Legible (source : String) (t : Tree) : Prop where
  comment_leaf : ∀ n ∈ t.preorder, n.kind = "comment" → n.children = []
  missing_unnamed : ∀ n ∈ t.preorder, n.missing = true → n.named = false
  trivia_unlabelled : ∀ n ∈ t.preorder, ∀ c ∈ n.children, c.isTrivia = true → c.label = none
  look_up : ∀ n ∈ t.preorder, n.kind ≠ "ERROR" → n.data.overrides = []
  name_text : ∀ n ∈ t.preorder, n.introducesName = true → ∀ c ∈ n.children, c.spellsName = true →
    c.text source = c.flatText source
  type_text : ∀ n ∈ t.preorder, n.isTyped = true → ∀ c ∈ n.children, c.label = some "type" →
    Text.squeeze (c.text source) = Text.squeeze (c.flatText source)

theorem legible_iff {source : String} :
    t.Legible source ↔ ∀ n ∈ t.preorder, (n.kind = "comment" → n.children = []) ∧
      (n.missing = true → n.named = false) ∧
      (∀ c ∈ n.children, c.isTrivia = true → c.label = none) ∧
      (n.kind ≠ "ERROR" → n.data.overrides = []) ∧
      (n.introducesName = true → ∀ c ∈ n.children, c.spellsName = true →
        c.text source = c.flatText source) ∧
      (n.isTyped = true → ∀ c ∈ n.children, c.label = some "type" →
        Text.squeeze (c.text source) = Text.squeeze (c.flatText source)) := by
  constructor
  · intro h n hn
    exact ⟨h.comment_leaf n hn, h.missing_unnamed n hn, h.trivia_unlabelled n hn, h.look_up n hn,
      h.name_text n hn, h.type_text n hn⟩
  · intro h
    exact ⟨fun n hn => (h n hn).1, fun n hn => (h n hn).2.1, fun n hn => (h n hn).2.2.1,
      fun n hn => (h n hn).2.2.2.1, fun n hn => (h n hn).2.2.2.2.1, fun n hn => (h n hn).2.2.2.2.2⟩

instance (source : String) (t : Tree) : Decidable (t.Legible source) :=
  decidable_of_iff' _ legible_iff

theorem kind_ne_error_of_introducesName (h : t.introducesName = true) : t.kind ≠ "ERROR" := by
  intro hkind
  simp [introducesName, memberKind?, typeKind?, hkind] at h

theorem filter_parts {p : Tree → Bool}
    (h : ∀ c ∈ t.children, p c = true → c.isTrivia = false) :
    t.parts.filter p = t.children.filter p := by
  rw [parts, List.filter_filter]
  refine List.filter_congr fun c hc => ?_
  cases hpc : p c with
  | true => simp [h c hc hpc]
  | false => simp

namespace Legible

theorem child (h : t.Legible s) (hc : c ∈ t.children) : c.Legible s := by
  have hmem {n : Tree} (hn : n ∈ c.preorder) : n ∈ t.preorder :=
    mem_preorder_trans (mem_preorder_of_mem_children hc) hn
  exact ⟨fun n hn => h.comment_leaf n (hmem hn), fun n hn => h.missing_unnamed n (hmem hn),
    fun n hn => h.trivia_unlabelled n (hmem hn), fun n hn => h.look_up n (hmem hn),
    fun n hn => h.name_text n (hmem hn), fun n hn => h.type_text n (hmem hn)⟩

/-- A named node that does not count is a comment. -/
theorem kind_of_isTrivia (h : t.Legible s) (hc : c ∈ t.children) (htrivia : c.isTrivia = true)
    (hnamed : c.named = true) : c.kind = "comment" := by
  rcases Bool.or_eq_true_iff.mp htrivia with hkind | hmissing
  · exact eq_of_beq hkind
  · have := h.missing_unnamed c (mem_preorder_of_mem_children hc) hmissing
    simp [this] at hnamed

/-- A look-up follows the labels of the parts. -/
theorem field?_eq (h : t.Legible s) (hkind : t.kind ≠ "ERROR") (field : String) :
    t.field? field = (t.parts.filter (·.label == some field)).head? := by
  have hparts : t.parts.filter (·.label == some field) =
      t.children.filter (·.label == some field) := by
    refine filter_parts fun c hc hlabel => Bool.eq_false_iff.mpr fun htrivia => ?_
    simp [h.trivia_unlabelled t (mem_preorder_self t) c hc htrivia] at hlabel
  rw [hparts, List.head?_filter, List.find?_eq_bind_findIdx?_getElem?, Tree.field?, fieldIndex?,
    h.look_up t (mem_preorder_self t) hkind, List.lookup_nil]

theorem of_field? (h : t.Legible s) (hkind : t.kind ≠ "ERROR") (hc : t.field? field = some c) :
    c ∈ t.children ∧ c.label = some field := by
  refine ⟨mem_children_of_field? hc, ?_⟩
  rw [h.field?_eq hkind, List.head?_filter] at hc
  simpa using List.find?_some hc

theorem filter_namedChildren (h : t.Legible s) (hkind : kind ≠ "comment") :
    t.namedChildren.filter (·.kind == kind) =
      t.parts.filter fun c => c.kind == kind && c.named := by
  rw [filter_parts, namedChildren, List.filter_filter]
  intro c hc hp
  obtain ⟨hck, hnamed⟩ := Bool.and_eq_true_iff.mp hp
  refine Bool.eq_false_iff.mpr fun htrivia => hkind ?_
  rw [← eq_of_beq hck, h.kind_of_isTrivia hc htrivia hnamed]

end Legible

@[grind →]
theorem of_firstOfKind? (hc : t.firstOfKind? kind = some c) : c ∈ t.children ∧ c.kind = kind := by
  have hmem := List.mem_of_find?_eq_some hc
  have hkind := List.find?_some hc
  exact ⟨(List.mem_filter.mp hmem).1, eq_of_beq hkind⟩

/-! ## Alike trees -/

/-- The trees `a` and `b` are legible and have the same skeleton. -/
structure Alike (s s' : String) (a b : Tree) : Prop where
  skeleton_eq : a.skeleton s = b.skeleton s'
  left : a.Legible s
  right : b.Legible s'

/-- The parts of legible trees are alike if they have the same skeletons. -/
theorem forall₂_alike (h : a.parts.map (skeleton s) = b.parts.map (skeleton s'))
    (ha : a.Legible s) (hb : b.Legible s') :
    List.Forall₂ (Alike s s') a.parts b.parts := by
  rw [← List.forall₂_eq_eq_eq, List.forall₂_map_left_iff, List.forall₂_map_right_iff] at h
  obtain ⟨hlength, hzip⟩ := List.forall₂_iff_zip.mp h
  refine List.forall₂_iff_zip.mpr ⟨hlength, fun {c d} hcd => ⟨hzip hcd, ?_, ?_⟩⟩
  · exact ha.child (List.mem_filter.mp (List.of_mem_zip hcd).1).1
  · exact hb.child (List.mem_filter.mp (List.of_mem_zip hcd).2).1

namespace Alike

section

variable (h : Alike s s' a b)

include h

@[grind →] theorem kind_eq : a.kind = b.kind :=
  (sameHead_of_skeleton_eq h.skeleton_eq).kind_eq

@[grind →] theorem named_eq : a.named = b.named :=
  (sameHead_of_skeleton_eq h.skeleton_eq).named_eq

@[grind →] theorem label_eq : a.label = b.label :=
  (sameHead_of_skeleton_eq h.skeleton_eq).label_eq

@[grind →] theorem memberKind?_eq : a.memberKind? = b.memberKind? := by
  rw [memberKind?, memberKind?, h.kind_eq]

@[grind →] theorem typeKind?_eq : a.typeKind? = b.typeKind? := by
  rw [typeKind?, typeKind?, h.kind_eq]

@[grind →] theorem introducesName_eq : a.introducesName = b.introducesName := by
  rw [introducesName, introducesName, h.memberKind?_eq, h.typeKind?_eq, h.kind_eq]

@[grind →] theorem isTyped_eq : a.isTyped = b.isTyped := by
  rw [isTyped, isTyped, h.memberKind?_eq, h.kind_eq]

theorem forall₂_parts : List.Forall₂ (Alike s s') a.parts b.parts :=
  forall₂_alike (parts_eq_of_skeleton_eq h.skeleton_eq) h.left h.right

/-- Induction on alike trees, from the parts to the nodes. -/
theorem induction {P : Tree → Tree → Prop}
    (step : ∀ a b, Alike s s' a b →
      List.Forall₂ (fun c d => Alike s s' c d ∧ P c d) a.parts b.parts → P a b) : P a b := by
  refine skeleton_induction (P := fun a b => Alike s s' a b → P a b) ?_ h.skeleton_eq h
  intro a b _ hparts h
  exact step a b h (List.Forall₂.mp (fun c d hcd hc => ⟨hcd, hc.2 hcd⟩) h.forall₂_parts hparts)

theorem forall₂_filter_parts {p : Tree → Bool} (hp : ∀ {c d}, Alike s s' c d → p c = p d) :
    List.Forall₂ (Alike s s') (a.parts.filter p) (b.parts.filter p) :=
  List.rel_filter (fun _ _ hcd => by simp [hp hcd]) h.forall₂_parts

theorem field? (hkind : a.kind ≠ "ERROR") (field : String) :
    Option.Rel (Alike s s') (a.field? field) (b.field? field) := by
  rw [h.left.field?_eq hkind, h.right.field?_eq (h.kind_eq ▸ hkind)]
  exact rel_head? (h.forall₂_filter_parts fun hcd => by rw [hcd.label_eq])

theorem filter_namedChildren (hkind : kind ≠ "comment") :
    List.Forall₂ (Alike s s') (a.namedChildren.filter (·.kind == kind))
      (b.namedChildren.filter (·.kind == kind)) := by
  rw [h.left.filter_namedChildren hkind, h.right.filter_namedChildren hkind]
  exact h.forall₂_filter_parts fun hcd => by rw [hcd.kind_eq, hcd.named_eq]

theorem firstOfKind? (hkind : kind ≠ "comment") :
    Option.Rel (Alike s s') (a.firstOfKind? kind) (b.firstOfKind? kind) := by
  rw [Tree.firstOfKind?, Tree.firstOfKind?, ← List.head?_filter, ← List.head?_filter]
  exact rel_head? (h.filter_namedChildren hkind)

/-! ## Names -/

/-- The names that alike nodes introduce are spelled alike. -/
theorem text_eq_of_spellsName (ha : a.introducesName = true) {c d : Tree} (hcd : Alike s s' c d)
    (hc : c ∈ a.children) (hd : d ∈ b.children) (hname : c.spellsName = true) :
    c.text s = d.text s' := by
  have hname' : d.spellsName = true := by
    rwa [spellsName, hcd.kind_eq, hcd.label_eq] at hname
  rw [h.left.name_text a (mem_preorder_self a) ha c hc hname,
    h.right.name_text b (mem_preorder_self b) (h.introducesName_eq ▸ ha) d hd hname',
    flatText_congr hcd.skeleton_eq]

theorem textIn?_eq (ha : a.introducesName = true) (hfield : field = "name" ∨ field = "operator") :
    a.textIn? field s = b.textIn? field s' := by
  have hkind := kind_ne_error_of_introducesName ha
  refine map_eq_map_of_rel (h.field? hkind field) fun c hc d hd hcd => ?_
  obtain ⟨hmem, hlabel⟩ := h.left.of_field? hkind hc
  refine h.text_eq_of_spellsName ha hcd hmem (mem_children_of_field? hd) ?_
  rcases hfield with rfl | rfl <;> simp [spellsName, hlabel]

theorem plainName?_eq (ha : a.introducesName = true) : a.plainName? s = b.plainName? s' := by
  have hleading : a.leadingIdentifier?.map (·.text s) = b.leadingIdentifier?.map (·.text s') := by
    refine map_eq_map_of_rel (h.firstOfKind? (by decide)) fun c hc d hd hcd => ?_
    obtain ⟨hmem, hkind⟩ := of_firstOfKind? hc
    exact h.text_eq_of_spellsName ha hcd hmem (of_firstOfKind? hd).1 (by simp [spellsName, hkind])
  rw [plainName?, plainName?, h.textIn?_eq ha (.inl rfl), hleading]

/-- The types in alike nodes are shown alike. -/
theorem normalized_type_eq (ha : a.isTyped = true) (hkind : a.kind ≠ "ERROR") :
    (a.textIn? "type" s).map TypeName.normalized =
      (b.textIn? "type" s').map TypeName.normalized := by
  rw [textIn?, textIn?, Option.map_map, Option.map_map]
  refine map_eq_map_of_rel (h.field? hkind "type") fun c hc d hd hcd => ?_
  obtain ⟨hmem, hlabel⟩ := h.left.of_field? hkind hc
  obtain ⟨hmem', hlabel'⟩ := h.right.of_field? (h.kind_eq ▸ hkind) hd
  refine TypeName.normalized_congr ?_
  rw [h.left.type_text a (mem_preorder_self a) ha c hmem hlabel,
    h.right.type_text b (mem_preorder_self b) (h.isTyped_eq ▸ ha) d hmem' hlabel',
    flatText_congr hcd.skeleton_eq]

end

end Alike

/-! ## Declarators -/

/-- The variable declarators that a child `c` adds to those of its parent. -/
def ownDeclarators (c : Tree) : List Tree :=
  if !c.named then []
  else if c.kind == "variable_declarator" then [c]
  else if c.kind == "variable_declaration" then c.declarators
  else []

theorem declaratorsIn_eq (cs : List Tree) : declaratorsIn cs = cs.flatMap ownDeclarators := by
  induction cs with
  | nil => rfl
  | cons c cs ih => rw [declaratorsIn, ih, List.flatMap_cons]; rfl

theorem Legible.declarators_eq (h : t.Legible s) :
    t.declarators = t.parts.flatMap ownDeclarators := by
  rw [parts, flatMap_filter_of_nil]
  · obtain ⟨d, cs⟩ := t
    exact declaratorsIn_eq cs
  · intro c hc htrivia
    cases hnamed : c.named with
    | false => simp [ownDeclarators, hnamed]
    | true =>
      have hkind := h.kind_of_isTrivia hc (by simpa using htrivia) hnamed
      simp [ownDeclarators, hkind]

theorem Alike.forall₂_declarators (h : Alike s s' a b) :
    List.Forall₂ (fun c d => Alike s s' c d ∧ c.kind = "variable_declarator")
      a.declarators b.declarators := by
  refine h.induction (P := fun a b => List.Forall₂
    (fun c d => Alike s s' c d ∧ c.kind = "variable_declarator") a.declarators b.declarators) ?_
  intro a b h hparts
  rw [h.left.declarators_eq, h.right.declarators_eq]
  refine List.rel_flatMap hparts fun c d hcd => ?_
  obtain ⟨hcd, ih⟩ := hcd
  rw [ownDeclarators, ownDeclarators, ← hcd.named_eq, ← hcd.kind_eq]
  split
  · exact .nil
  split
  · next hkind => exact .cons ⟨hcd, eq_of_beq hkind⟩ .nil
  split
  · exact ih
  · exact .nil

/-- The declarators of a node are named as single declarations are. -/
theorem declaratorNames_eq (t : Tree) (source : String) :
    t.declaratorNames source = t.declarators.filterMap (·.plainName? source) := by
  rw [declaratorNames, List.map_filterMap]
  congr 1
  funext c
  simp [boundName?, plainName?, textIn?, Option.map_or]

/-! ## Signatures -/

namespace Alike

section

variable (h : Alike s s' a b)

include h

theorem declaratorNames_eq : a.declaratorNames s = b.declaratorNames s' := by
  rw [Tree.declaratorNames_eq, Tree.declaratorNames_eq, ← List.forall₂_eq_eq_eq]
  refine List.rel_filterMap (fun c d hcd => ?_) h.forall₂_declarators
  obtain ⟨hcd, hkind⟩ := hcd
  rw [hcd.plainName?_eq (by simp [introducesName, hkind])]
  cases d.plainName? s' with
  | none => exact .none
  | some name => exact .some rfl

theorem operatorLabel_eq (hkind : a.memberKind? = some .operator) :
    a.operatorLabel s = b.operatorLabel s' := by
  have ha : a.introducesName = true := by simp [introducesName, hkind]
  have htype := h.normalized_type_eq (by simp [isTyped, hkind]) (kind_ne_error_of_introducesName ha)
  rw [operatorLabel, operatorLabel, h.textIn?_eq ha (.inr rfl)]
  cases b.textIn? "operator" s' with
  | some sign => rfl
  | none =>
    cases hx : a.textIn? "type" s <;> cases hy : b.textIn? "type" s' <;> simp_all

theorem memberName?_eq {kind : MemberKind} (hkind : a.memberKind? = some kind) :
    a.memberName? s kind = b.memberName? s' kind := by
  have ha : a.introducesName = true := by simp [introducesName, hkind]
  have hlist : a.declaresList kind = b.declaresList kind := by
    have hfield := h.field? (kind_ne_error_of_introducesName ha) "name"
    rw [declaresList, declaresList]
    cases hx : a.field? "name" <;> cases hy : b.field? "name" <;> simp_all
  unfold memberName?
  rw [hlist, h.declaratorNames_eq, h.plainName?_eq ha]
  split
  · rfl
  · cases kind with
    | operator => exact congrArg some (h.operatorLabel_eq hkind)
    | _ => rfl

theorem declaredName?_eq (ha : a.memberKind?.isSome ∨ a.typeKind?.isSome) :
    a.declaredName? s = b.declaredName? s' := by
  rw [declaredName?, declaredName?, ← h.memberKind?_eq, ← h.typeKind?_eq]
  cases hkind : a.memberKind? with
  | some kind => exact h.memberName?_eq hkind
  | none =>
    have htype : a.typeKind?.isSome = true := by simpa [hkind] using ha
    simpa [htype] using h.textIn?_eq (by simp [introducesName, htype]) (.inl rfl)

theorem parameterTypes_eq (hkind : a.kind ≠ "ERROR") :
    a.parameterTypes s = b.parameterTypes s' := by
  have hlist : Option.Rel (Alike s s') a.parameterList? b.parameterList? :=
    rel_orElse (h.field? hkind _)
      (rel_orElse (h.firstOfKind? (by decide)) (h.firstOfKind? (by decide)))
  unfold parameterTypes
  generalize a.parameterList? = x, b.parameterList? = y at hlist
  cases hlist with
  | none => rfl
  | @some params params' hparams =>
    have hkinds : ∀ c ∈ params.namedChildren.filter (·.kind == "parameter"),
        c.kind = "parameter" := fun c hc => eq_of_beq (List.mem_filter.mp hc).2
    refine map_eq_map_of_forall₂ ((List.forall₂_and_left _ _).mpr
      ⟨hkinds, hparams.filter_namedChildren (by decide)⟩) fun c d hcd => ?_
    obtain ⟨hkind, hcd⟩ := hcd
    have htype := hcd.normalized_type_eq (by simp [isTyped, hkind]) (by simp [hkind])
    cases hx : c.textIn? "type" s <;> cases hy : d.textIn? "type" s' <;> simp_all

theorem signature?_eq : a.signature? s = b.signature? s' := by
  unfold signature?
  rw [← h.memberKind?_eq]
  cases hkind : a.memberKind? with
  | none => rfl
  | some kind =>
    have ha : a.introducesName = true := by simp [introducesName, hkind]
    rw [h.declaredName?_eq (.inl (by simp [hkind])),
      h.parameterTypes_eq (kind_ne_error_of_introducesName ha)]

end

end Alike

end Tree

/-! ## Members -/

/-- What a comparison of members reads of `m`: the types around it, its signature and its
content. -/
def Member.summary (source : String) (m : Member) : List String × String × Content :=
  (m.containers, m.signature, m.tree.content source)

namespace Tree

variable {s s' : String} {a b t : Tree} {containers : List String}

theorem membersAt_of_memberKind? {preceding : List Tree} {kind : MemberKind}
    (h : t.memberKind? = some kind) :
    membersAt s containers preceding t = (t.member? s containers preceding kind).toList := by
  obtain ⟨d, cs⟩ := t
  rw [membersAt, h]

/-- A summary does not tell the siblings of a member. -/
theorem map_summary_membersAt (preceding : List Tree) (t : Tree) :
    (membersAt s containers preceding t).map (Member.summary s) =
      (membersAt s containers [] t).map (Member.summary s) := by
  obtain ⟨d, cs⟩ := t
  rw [membersAt, membersAt]
  split
  · next kind hkind =>
    unfold member?
    split
    · rfl
    · split <;> rfl
  · rfl

/-- The summaries of the members in the named node `t`, inside the types `containers`. -/
def summariesAt (source : String) (containers : List String) (t : Tree) :
    List (List String × String × Content) :=
  if t.named then (membersAt source containers [] t).map (Member.summary source) else []

theorem map_summary_membersIn (preceding : List Tree) (cs : List Tree) :
    (membersIn s containers preceding cs).map (Member.summary s) =
      cs.flatMap (summariesAt s containers) := by
  induction cs generalizing preceding with
  | nil => rfl
  | cons c cs ih =>
    rw [membersIn, List.map_append, ih, List.flatMap_cons, summariesAt]
    split
    · rw [map_summary_membersAt]
    · rfl

/-- The types around the members in `t`, where `containers` are those around `t` itself. -/
def containersIn (source : String) (containers : List String) (t : Tree) : List String :=
  if t.typeKind?.isSome then containers ++ [(t.declaredName? source).getD ""] else containers

theorem Legible.map_summary_membersAt (h : t.Legible s) (hkind : t.memberKind? = none) :
    (membersAt s containers [] t).map (Member.summary s) =
      t.parts.flatMap (summariesAt s (t.containersIn s containers)) := by
  rw [parts, flatMap_filter_of_nil]
  · obtain ⟨d, cs⟩ := t
    rw [membersAt, hkind]
    exact map_summary_membersIn [] cs
  · intro c hc htrivia
    unfold summariesAt
    split
    · next hnamed =>
      have hcomment := h.kind_of_isTrivia hc (by simpa using htrivia) hnamed
      rw [membersAt_leaf (by simp [memberKind?, hcomment])
        (h.comment_leaf c (mem_preorder_of_mem_children hc) hcomment), List.map_nil]
    · rfl

namespace Alike

theorem containersIn_eq (h : Alike s s' a b) :
    a.containersIn s containers = b.containersIn s' containers := by
  unfold containersIn
  rw [← h.typeKind?_eq]
  split
  · next htype => rw [h.declaredName?_eq (.inr htype)]
  · rfl

theorem map_summary_membersAt (h : Alike s s' a b) (containers : List String) :
    (membersAt s containers [] a).map (Member.summary s) =
      (membersAt s' containers [] b).map (Member.summary s') := by
  revert containers
  refine h.induction (P := fun a b => ∀ containers,
    (membersAt s containers [] a).map (Member.summary s) =
      (membersAt s' containers [] b).map (Member.summary s')) ?_
  intro a b h hparts containers
  cases hkind : a.memberKind? with
  | none =>
    rw [h.left.map_summary_membersAt hkind,
      h.right.map_summary_membersAt (h.memberKind?_eq ▸ hkind), ← List.forall₂_eq_eq_eq]
    refine List.rel_flatMap hparts fun c d hcd => ?_
    obtain ⟨hcd, ih⟩ := hcd
    rw [List.forall₂_eq_eq_eq, summariesAt, summariesAt, h.containersIn_eq, hcd.named_eq, ih]
  | some kind =>
    rw [membersAt_of_memberKind? hkind, membersAt_of_memberKind? (h.memberKind?_eq ▸ hkind)]
    unfold member? isLocalFunction
    rw [h.kind_eq, h.declaredName?_eq (.inl (by simp [hkind])), h.signature?_eq]
    split
    · rfl
    · split
      · simp [Member.summary, content_congr h.skeleton_eq]
      · rfl

end Alike

/-- The legible trees `a` and `b` of two files differ in layout and comments only. A file without
parts is like one that has nothing but comments, so the roots are not compared themselves. -/
structure AlikeFiles (s s' : String) (a b : Tree) : Prop where
  skeletons_eq : a.parts.map (skeleton s) = b.parts.map (skeleton s')
  left : a.Legible s
  right : b.Legible s'
  left_file : a.memberKind? = none ∧ a.typeKind? = none
  right_file : b.memberKind? = none ∧ b.typeKind? = none

theorem AlikeFiles.map_summary_members (h : AlikeFiles s s' a b) :
    (a.members s).map (Member.summary s) = (b.members s').map (Member.summary s') := by
  rw [members, members, h.left.map_summary_membersAt h.left_file.1,
    h.right.map_summary_membersAt h.right_file.1, containersIn, containersIn, h.left_file.2,
    h.right_file.2, ← List.forall₂_eq_eq_eq]
  refine List.rel_flatMap (forall₂_alike h.skeletons_eq h.left h.right) fun c d hcd => ?_
  rw [List.forall₂_eq_eq_eq, summariesAt, summariesAt, hcd.named_eq, hcd.map_summary_membersAt]
  rfl

end Tree

end CodeAtlas
