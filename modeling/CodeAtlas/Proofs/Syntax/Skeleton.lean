import CodeAtlas.Proofs.Syntax.Content
import Mathlib.Data.List.Forall2

/-!
# Skeletons of syntax trees

The skeleton of a tree is the tree without its layout, its comments and its missing nodes: the kinds
and fields of its nodes in their shape, and the texts of its leaves. Two texts whose trees have the
same skeleton differ in layout and comments only. A node is a leaf in its skeleton if it has no
children at all, not even a comment. A skeleton says more than a content, which forgets the fields.

## Main definitions

* `Skeleton`, `Tree.skeleton`: skeletons.
* `Tree.parts`: the children of a node that are in its skeleton.

## Main statements

* `Tree.skeleton_induction`: induction on two trees of the same skeleton.
* `Tree.content_congr`, `Tree.flatText_congr`: what depends on the skeleton only.
-/
namespace CodeAtlas

theorem map_eq_map_of_forall₂ {α β γ : Type} {R : α → β → Prop} {xs : List α} {ys : List β}
    {f : α → γ} {g : β → γ} (h : List.Forall₂ R xs ys) (hfg : ∀ a b, R a b → f a = g b) :
    xs.map f = ys.map g := by
  rw [← List.forall₂_eq_eq_eq, List.forall₂_map_left_iff, List.forall₂_map_right_iff]
  exact h.imp hfg

/-- What a node says apart from its place. -/
structure NodeHead where
  kind : String
  named : Bool
  missing : Bool
  label : Option String
deriving DecidableEq

def NodeData.head (d : NodeData) : NodeHead where
  kind := d.kind
  named := d.named
  missing := d.missing
  label := d.label

/-- A tree of node heads. -/
abbrev Skeleton := LabelledTree NodeHead

namespace Tree

variable {s s' : String} {a b t : Tree}

/-- The children of `t` other than comments and missing nodes. -/
def parts (t : Tree) : List Tree :=
  t.children.filter (!·.isTrivia)

@[simp] theorem parts_of_isLeaf (h : t.isLeaf = true) : t.parts = [] := by
  rw [isLeaf, List.isEmpty_iff] at h
  rw [parts, h, List.filter_nil]

/-- The skeleton of the tree `t`. -/
def skeleton (source : String) (t : Tree) : Skeleton :=
  t.labelled NodeData.head source

section Labelled

variable {α : Type} (label : NodeData → α) (source : String)

theorem labelledAll_eq (cs : List Tree) :
    labelledAll label source cs = (cs.filter (!·.isTrivia)).map (labelled label source) := by
  induction cs with
  | nil => simp [labelledAll]
  | cons c cs ih => cases h : c.isTrivia <;> simp [labelledAll, h, ih]

/-- A node with children has the labels of its parts. -/
theorem labelled_eq (t : Tree) : t.labelled label source =
    if t.isLeaf then .leaf (label t.data) (t.text source)
    else .branch (label t.data) (t.parts.map (labelled label source)) := by
  obtain ⟨d, cs⟩ := t
  rw [labelled, labelledAll_eq]
  rfl

end Labelled

/-- The node `a` of `s` and the node `b` of `s'` say the same apart from their places. -/
structure SameHead (s s' : String) (a b : Tree) : Prop where
  head_eq : a.data.head = b.data.head
  isLeaf_eq : a.isLeaf = b.isLeaf
  text_eq : a.isLeaf = true → a.text s = b.text s'

/-- Two nodes have the same skeleton if they say the same and so do their parts, one by one. -/
theorem skeleton_eq_iff : a.skeleton s = b.skeleton s' ↔
    SameHead s s' a b ∧ a.parts.map (skeleton s) = b.parts.map (skeleton s') := by
  rw [skeleton, skeleton, labelled_eq, labelled_eq]
  cases ha : a.isLeaf <;> cases hb : b.isLeaf
  · simp only [Bool.false_eq_true, if_false, LabelledTree.branch.injEq]
    exact ⟨fun h => ⟨⟨h.1, by rw [ha, hb], by simp [ha]⟩, h.2⟩, fun h => ⟨h.1.head_eq, h.2⟩⟩
  · exact iff_of_false (by simp) fun h => by simpa [ha, hb] using h.1.isLeaf_eq
  · exact iff_of_false (by simp) fun h => by simpa [ha, hb] using h.1.isLeaf_eq
  · simp only [if_true, LabelledTree.leaf.injEq, parts_of_isLeaf ha, parts_of_isLeaf hb]
    exact ⟨fun h => ⟨⟨h.1, by rw [ha, hb], fun _ => h.2⟩, rfl⟩,
      fun h => ⟨h.1.head_eq, h.1.text_eq ha⟩⟩

theorem sameHead_of_skeleton_eq (h : a.skeleton s = b.skeleton s') : SameHead s s' a b :=
  (skeleton_eq_iff.mp h).1

theorem parts_eq_of_skeleton_eq (h : a.skeleton s = b.skeleton s') :
    a.parts.map (skeleton s) = b.parts.map (skeleton s') :=
  (skeleton_eq_iff.mp h).2

/-! ## Induction -/

/-- A step of an induction for `P` on two trees of the same skeleton: from the parts, pair by pair,
to the nodes. -/
def SkeletonStep (s s' : String) (P : Tree → Tree → Prop) : Prop :=
  ∀ a b, SameHead s s' a b →
    List.Forall₂ (fun c d => c.skeleton s = d.skeleton s' ∧ P c d) a.parts b.parts → P a b

-- The parts of the second tree are given as a list of their own, since its comments need not stand
-- where those of the first tree do.
mutual

theorem skeleton_induction {P : Tree → Tree → Prop} (step : SkeletonStep s s' P) :
    ∀ {a b : Tree}, a.skeleton s = b.skeleton s' → P a b
  | node d cs, b, h => by
    refine step _ _ (sameHead_of_skeleton_eq h) ?_
    exact skeleton_induction_all step (parts_eq_of_skeleton_eq h)

theorem skeleton_induction_all {P : Tree → Tree → Prop} (step : SkeletonStep s s' P) :
    ∀ {cs ds : List Tree}, (cs.filter (!·.isTrivia)).map (skeleton s) = ds.map (skeleton s') →
      List.Forall₂ (fun c d => c.skeleton s = d.skeleton s' ∧ P c d) (cs.filter (!·.isTrivia)) ds
  | [], ds, h => by
    obtain rfl : ds = [] := by simpa using h
    exact .nil
  | c :: cs, ds, h => by
    cases hc : c.isTrivia with
    | true =>
      have hfilter : (c :: cs).filter (!·.isTrivia) = cs.filter (!·.isTrivia) := by simp [hc]
      rw [hfilter] at h ⊢
      exact skeleton_induction_all step h
    | false =>
      have hfilter : (c :: cs).filter (!·.isTrivia) = c :: cs.filter (!·.isTrivia) := by simp [hc]
      rw [hfilter] at h ⊢
      cases ds with
      | nil => simp at h
      | cons d ds =>
        obtain ⟨hd, hds⟩ := List.cons.inj h
        exact .cons ⟨hd, skeleton_induction step hd⟩ (skeleton_induction_all step hds)

end

/-! ## Contents and texts -/

namespace SameHead

variable (h : SameHead s s' a b)

include h

@[grind →] theorem kind_eq : a.kind = b.kind := congrArg NodeHead.kind h.head_eq

@[grind →] theorem named_eq : a.named = b.named := congrArg NodeHead.named h.head_eq

@[grind →] theorem label_eq : a.label = b.label := congrArg NodeHead.label h.head_eq

@[grind →] theorem isTrivia_eq : a.isTrivia = b.isTrivia := by
  have hmissing : a.missing = b.missing := congrArg NodeHead.missing h.head_eq
  rw [isTrivia, isTrivia, h.kind_eq, hmissing]

end SameHead

/-- A node with children has the contents of its parts. -/
theorem content_eq (source : String) (t : Tree) : t.content source =
    if t.isLeaf then .leaf t.kind (t.text source)
    else .branch t.kind (t.parts.map (content source)) :=
  labelled_eq _ source t

@[grind →]
theorem content_congr (h : a.skeleton s = b.skeleton s') : a.content s = b.content s' := by
  refine skeleton_induction (P := fun a b => a.content s = b.content s') ?_ h
  intro a b hhead hparts
  have hcontents : a.parts.map (content s) = b.parts.map (content s') :=
    map_eq_map_of_forall₂ hparts fun c d hcd => hcd.2
  rw [content_eq, content_eq, hcontents, hhead.kind_eq, ← hhead.isLeaf_eq]
  split
  · next hleaf => rw [hhead.text_eq hleaf]
  · rfl

theorem flatText_eq (source : String) (t : Tree) : t.flatText source =
    if t.isTrivia then "" else if t.isLeaf then t.text source
    else flatTexts source t.parts := by
  have hparts (cs : List Tree) :
      flatTexts source (cs.filter (!·.isTrivia)) = flatTexts source cs := by
    induction cs with
    | nil => rfl
    | cons c cs ih =>
      cases hc : c.isTrivia with
      | false => simp [hc, flatTexts, ih]
      | true =>
        have hempty : c.flatText source = "" := by
          obtain ⟨d, ds⟩ := c
          simp [flatText, hc]
        simp [hc, flatTexts, ih, hempty]
  obtain ⟨d, cs⟩ := t
  rw [parts, children_node, hparts, flatText]
  rfl

@[grind →]
theorem flatText_congr (h : a.skeleton s = b.skeleton s') : a.flatText s = b.flatText s' := by
  refine skeleton_induction (P := fun a b => a.flatText s = b.flatText s') ?_ h
  intro a b hhead hparts
  have htexts : flatTexts s a.parts = flatTexts s' b.parts := by
    generalize a.parts = cs, b.parts = ds at hparts
    induction hparts with
    | nil => rfl
    | cons hcd _ ih => rw [flatTexts, flatTexts, hcd.2, ih]
  rw [flatText_eq, flatText_eq, htexts, hhead.isTrivia_eq, ← hhead.isLeaf_eq]
  cases hleaf : a.isLeaf with
  | true => simp [hhead.text_eq hleaf]
  | false => simp

end Tree

end CodeAtlas
