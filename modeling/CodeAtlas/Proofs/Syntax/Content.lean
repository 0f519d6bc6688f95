import CodeAtlas.Proofs.Syntax.WellFormed
import CodeAtlas.Syntax.Content
import Mathlib.Data.List.Nodup

/-!
# Contents, outlines and numbered nodes

The content of a node holds the contents of all its descendants that count, so a content that occurs
in a tree brings everything inside it along. The *outline* of a tree is what is left of it without
its comments and missing nodes. A content says more than the outline: it tells a childless node from
one whose children all do not count.

The nodes of a tree that count are numbered in pre-order, and the numbers of the descendants of a
node follow its own.

## Main definitions

* `Content.preorder`: a content and those inside it.
* `Outline`, `Tree.outline`: what is left of a tree without comments and missing nodes.
* `Tree.IsAbove`: proper ancestors among numbered nodes.

## Main statements

* `Content.eq_iff_outline`: what a content says besides the outline.
* `Tree.map_content_visibleFrom`: the contents of the nodes of a tree are those inside its content.
* `Tree.pairwise_visibleFrom`, `Tree.bounds_of_mem_visibleFrom`: the numbers of the nodes.
-/
namespace CodeAtlas

/-- A tree of kinds and leaf texts. -/
inductive Outline where
  | node (kind text : String) (parts : List Outline)

namespace Content

variable {a b c : Content}

def kind : Content → String
  | .leaf k _ => k
  | .branch k _ => k

def isLeaf : Content → Bool
  | .leaf _ _ => true
  | .branch _ _ => false

/-! ## Contents inside a content -/

mutual

/-- A content and those inside it, each before what it holds. -/
def preorder : Content → List Content
  | .leaf k t => [.leaf k t]
  | .branch k ps => .branch k ps :: preorderAll ps

/-- The same for several contents, one after the other. -/
def preorderAll : List Content → List Content
  | [] => []
  | c :: cs => preorder c ++ preorderAll cs

end

theorem mem_preorder_self (c : Content) : c ∈ c.preorder := by
  cases c <;> simp [preorder]

mutual

theorem mem_preorder_trans : ∀ {c : Content}, b ∈ c.preorder → a ∈ b.preorder → a ∈ c.preorder
  | .leaf k t, hb, ha => by
    obtain rfl : b = .leaf k t := by simpa [preorder] using hb
    exact ha
  | .branch k ps, hb, ha => by
    simp only [preorder, List.mem_cons] at hb
    rcases hb with rfl | hb
    · exact ha
    · exact List.mem_cons_of_mem _ (mem_preorderAll_trans hb ha)

theorem mem_preorderAll_trans :
    ∀ {cs : List Content}, b ∈ preorderAll cs → a ∈ b.preorder → a ∈ preorderAll cs
  | [], hb, _ => by simp [preorderAll] at hb
  | c :: cs, hb, ha => by
    rw [preorderAll, List.mem_append] at hb ⊢
    rcases hb with hb | hb
    · exact .inl (mem_preorder_trans hb ha)
    · exact .inr (mem_preorderAll_trans hb ha)

end

/-! ## Outlines -/

mutual

def outline : Content → Outline
  | .leaf k t => .node k t []
  | .branch k ps => .node k "" (outlines ps)

def outlines : List Content → List Outline
  | [] => []
  | c :: cs => outline c :: outlines cs

end

-- Both lists of flags are read from the front, so the rests behind them have to agree as well.
mutual

theorem eq_of_outline_eq : ∀ {a b : Content} {xs ys : List Bool}, a.outline = b.outline →
    a.preorder.map isLeaf ++ xs = b.preorder.map isLeaf ++ ys → a = b ∧ xs = ys
  | .leaf k t, .leaf k' t', xs, ys, ho, hf => by
    simp only [outline, Outline.node.injEq, and_true] at ho
    obtain ⟨rfl, rfl⟩ := ho
    exact ⟨rfl, by simpa [preorder] using hf⟩
  | .leaf k t, .branch k' ps', xs, ys, ho, hf => by simp [preorder, isLeaf] at hf
  | .branch k ps, .leaf k' t', xs, ys, ho, hf => by simp [preorder, isLeaf] at hf
  | .branch k ps, .branch k' ps', xs, ys, ho, hf => by
    simp only [outline, Outline.node.injEq, true_and] at ho
    simp only [preorder, List.map_cons, List.cons_append, List.cons.injEq] at hf
    obtain ⟨rfl, hrest⟩ := eq_of_outlines_eq ho.2 hf.2
    exact ⟨by rw [ho.1], hrest⟩

theorem eq_of_outlines_eq : ∀ {as bs : List Content} {xs ys : List Bool},
    outlines as = outlines bs →
    (preorderAll as).map isLeaf ++ xs = (preorderAll bs).map isLeaf ++ ys → as = bs ∧ xs = ys
  | [], [], xs, ys, _, hf => ⟨rfl, by simpa [preorderAll] using hf⟩
  | [], _ :: _, _, _, ho, _ => by simp [outlines] at ho
  | _ :: _, [], _, _, ho, _ => by simp [outlines] at ho
  | a :: as, b :: bs, xs, ys, ho, hf => by
    simp only [outlines, List.cons.injEq] at ho
    simp only [preorderAll, List.map_append, List.append_assoc] at hf
    obtain ⟨rfl, hflags⟩ := eq_of_outline_eq ho.1 hf
    obtain ⟨rfl, hrest⟩ := eq_of_outlines_eq ho.2 hflags
    exact ⟨rfl, hrest⟩

end

/-- Two contents are equal if their outlines are and the same nodes are leaves. -/
theorem eq_iff_outline :
    a = b ↔ a.outline = b.outline ∧ a.preorder.map isLeaf = b.preorder.map isLeaf := by
  constructor
  · rintro rfl
    exact ⟨rfl, rfl⟩
  · rintro ⟨ho, hf⟩
    exact (eq_of_outline_eq ho (congrArg (· ++ []) hf)).1

end Content

namespace Tree

variable {source : String} {n : Nat} {t : Tree} {cs : List Tree} {a p : Nat × Tree}

theorem content_node (d : NodeData) (cs : List Tree) : (node d cs).content source =
    if cs.isEmpty then .leaf d.kind ((node d cs).text source)
    else .branch d.kind (contents source cs) := by
  rw [content, labelled, contents]

@[simp] theorem contents_nil : contents source [] = [] := by
  rw [contents, labelledAll]

theorem contents_cons (c : Tree) (cs : List Tree) : contents source (c :: cs) =
    if c.isTrivia then contents source cs else c.content source :: contents source cs := by
  rw [contents, labelledAll, contents, content]

mutual

/-- What is left of a tree of `source` without comments and missing nodes. A node with children has
no text of its own. -/
def outline (source : String) : Tree → Outline
  | node d cs =>
    .node d.kind (if cs.isEmpty then (node d cs).text source else "") (outlines source cs)

/-- What is left of several trees of `source`. -/
def outlines (source : String) : List Tree → List Outline
  | [] => []
  | c :: cs => if c.isTrivia then outlines source cs else outline source c :: outlines source cs

end

mutual

@[simp] theorem outline_content : ∀ t : Tree, (t.content source).outline = t.outline source
  | node d [] => by simp [content_node, outline, outlines, Content.outline]
  | node d (c :: cs) => by
    have hparts := outlines_contents (c :: cs)
    simp [content_node, outline, Content.outline, hparts]

@[simp] theorem outlines_contents : ∀ cs : List Tree,
    Content.outlines (contents source cs) = outlines source cs
  | [] => by simp [outlines, Content.outlines]
  | c :: cs => by
    rw [contents_cons, outlines]
    split
    · exact outlines_contents cs
    · rw [Content.outlines, outline_content c, outlines_contents cs]

end

/-! ## The nodes that count -/

@[simp] theorem kind_content (t : Tree) : (t.content source).kind = t.kind := by
  cases t with
  | node d cs => cases cs <;> rfl

@[simp] theorem isLeaf_content (t : Tree) : (t.content source).isLeaf = t.isLeaf := by
  cases t with
  | node d cs => cases cs <;> rfl

@[simp] theorem visibleFrom_of_isTrivia (h : t.isTrivia = true) : visibleFrom n t = [] := by
  cases t with
  | node d cs => simp [visibleFrom, h]

@[simp] theorem visibleFrom_of_not_isTrivia (h : t.isTrivia = false) :
    visibleFrom n t = (n, t) :: visibleAll (n + 1) t.children := by
  cases t with
  | node d cs => simp [visibleFrom, h]

mutual

theorem map_content_visibleFrom : ∀ {t : Tree} {n : Nat}, t.isTrivia = false →
    (visibleFrom n t).map (·.2.content source) = (t.content source).preorder
  | node d [], n, h => by
    simp [visibleFrom_of_not_isTrivia h, visibleAll, content_node, Content.preorder]
  | node d (c :: cs), n, h => by
    have hparts := @map_content_visibleAll (c :: cs) (n + 1)
    rw [visibleFrom_of_not_isTrivia h, List.map_cons, children_node, hparts]
    simp [content_node, Content.preorder]

theorem map_content_visibleAll : ∀ {cs : List Tree} {n : Nat},
    (visibleAll n cs).map (·.2.content source) = Content.preorderAll (contents source cs)
  | [], n => by simp [visibleAll, Content.preorderAll]
  | c :: cs, n => by
    rw [visibleAll, List.map_append, map_content_visibleAll, contents_cons]
    cases h : c.isTrivia with
    | true => simp [visibleFrom_of_isTrivia h]
    | false => simp [map_content_visibleFrom h, Content.preorderAll]

end

/-- What is inside the content of a node that counts is the content of such a node. -/
theorem mem_contents_visible {c : Content} (hp : p ∈ t.visible)
    (hc : c ∈ (p.2.content source).preorder) : c ∈ t.visible.map (·.2.content source) := by
  cases h : t.isTrivia with
  | true => simp [visible, visibleFrom_of_isTrivia h] at hp
  | false =>
    have hroot : p.2.content source ∈ (t.content source).preorder := by
      rw [← map_content_visibleFrom (n := 0) h]
      exact List.mem_map_of_mem hp
    rw [visible, map_content_visibleFrom h]
    exact Content.mem_preorder_trans hroot hc

mutual

@[grind →] theorem mem_preorder_of_mem_visibleFrom :
    ∀ {t : Tree} {n : Nat}, p ∈ visibleFrom n t → p.2 ∈ t.preorder
  | node d cs, n, hp => by
    unfold visibleFrom at hp
    split at hp
    · simp at hp
    · rcases List.mem_cons.mp hp with rfl | hp
      · exact mem_preorder_self _
      · exact List.mem_cons_of_mem _ (mem_preorderAll_of_mem_visibleAll hp)

@[grind →] theorem mem_preorderAll_of_mem_visibleAll :
    ∀ {cs : List Tree} {n : Nat}, p ∈ visibleAll n cs → p.2 ∈ preorderAll cs
  | [], n, hp => by simp [visibleAll] at hp
  | c :: cs, n, hp => by
    rw [visibleAll, List.mem_append] at hp
    rw [preorderAll, List.mem_append]
    exact hp.imp mem_preorder_of_mem_visibleFrom mem_preorderAll_of_mem_visibleAll

end

/-! ## Numbers -/

theorem size_eq (t : Tree) : t.size = sizeAll t.children + 1 := by
  cases t with
  | node d cs => rfl

mutual

/-- The numbers of the nodes of a subtree are those of an interval. -/
@[grind →] theorem bounds_of_mem_visibleFrom : ∀ {t : Tree} {n : Nat}, p ∈ visibleFrom n t →
    n ≤ p.1 ∧ p.1 + p.2.size ≤ n + t.size
  | node d cs, n, hp => by
    unfold visibleFrom at hp
    split at hp
    · simp at hp
    · rcases List.mem_cons.mp hp with rfl | hp
      · simp
      · have := bounds_of_mem_visibleAll hp
        simp only [size]
        omega

@[grind →] theorem bounds_of_mem_visibleAll : ∀ {cs : List Tree} {n : Nat}, p ∈ visibleAll n cs →
    n ≤ p.1 ∧ p.1 + p.2.size ≤ n + sizeAll cs
  | [], n, hp => by simp [visibleAll] at hp
  | c :: cs, n, hp => by
    rw [visibleAll, List.mem_append] at hp
    simp only [sizeAll]
    rcases hp with hp | hp
    · have := bounds_of_mem_visibleFrom hp
      omega
    · have := bounds_of_mem_visibleAll hp
      omega

end

mutual

theorem pairwise_visibleFrom :
    ∀ {t : Tree} {n : Nat}, (visibleFrom n t).Pairwise (·.1 < ·.1)
  | node d cs, n => by
    unfold visibleFrom
    split
    · exact .nil
    · refine List.pairwise_cons.mpr ⟨fun p hp => ?_, pairwise_visibleAll⟩
      have := bounds_of_mem_visibleAll hp
      show n < p.1
      omega

theorem pairwise_visibleAll :
    ∀ {cs : List Tree} {n : Nat}, (visibleAll n cs).Pairwise (·.1 < ·.1)
  | [], n => by simp [visibleAll]
  | c :: cs, n => by
    rw [visibleAll, List.pairwise_append]
    refine ⟨pairwise_visibleFrom, pairwise_visibleAll, fun p hp q hq => ?_⟩
    have := bounds_of_mem_visibleFrom hp
    have := bounds_of_mem_visibleAll hq
    have := size_eq p.2
    omega

end

theorem nodup_visible (t : Tree) : (t.visible.map (·.1)).Nodup := by
  rw [List.Nodup, List.pairwise_map]
  exact (pairwise_visibleFrom (t := t) (n := 0)).imp Nat.ne_of_lt

/-- A node of a tree is known by its number. -/
theorem eq_of_mem_visible {q : Nat × Tree} (hp : p ∈ t.visible) (hq : q ∈ t.visible)
    (h : p.1 = q.1) : p = q :=
  List.inj_on_of_nodup_map (nodup_visible t) hp hq h

/-! ## Ancestors -/

/-- The numbered node `a` is a proper ancestor of `p`, and no node between them is trivial. -/
def IsAbove (a p : Nat × Tree) : Prop :=
  p ∈ visibleAll (a.1 + 1) a.2.children

@[grind →] theorem IsAbove.lt (h : IsAbove a p) : a.1 < p.1 ∧ p.1 < a.1 + a.2.size := by
  have := bounds_of_mem_visibleAll h
  have := size_eq a.2
  have := size_eq p.2
  omega

theorem content_mem_preorder_of_isAbove (h : IsAbove a p) :
    p.2.content source ∈ (a.2.content source).preorder := by
  obtain ⟨n, d, cs⟩ := a
  have hmem : p.2.content source ∈ Content.preorderAll (contents source cs) := by
    rw [← map_content_visibleAll (n := n + 1)]
    exact List.mem_map_of_mem h
  cases cs with
  | nil => simp [Content.preorderAll] at hmem
  | cons c cs =>
    rw [content_node, List.isEmpty_cons, if_neg (by simp), Content.preorder]
    exact List.mem_cons_of_mem _ hmem

mutual

theorem mem_visibleFrom_of_isAbove : ∀ {t : Tree} {n : Nat}, a ∈ visibleFrom n t → IsAbove a p →
    p ∈ visibleFrom n t
  | node d cs, n, ha, h => by
    unfold visibleFrom at ha ⊢
    split at ha
    · simp at ha
    · next htrivia =>
      rw [if_neg htrivia]
      rcases List.mem_cons.mp ha with rfl | ha
      · exact List.mem_cons_of_mem _ h
      · exact List.mem_cons_of_mem _ (mem_visibleAll_of_isAbove ha h)

theorem mem_visibleAll_of_isAbove : ∀ {cs : List Tree} {n : Nat}, a ∈ visibleAll n cs →
    IsAbove a p → p ∈ visibleAll n cs
  | [], n, ha, _ => by simp [visibleAll] at ha
  | c :: cs, n, ha, h => by
    rw [visibleAll, List.mem_append] at ha ⊢
    exact ha.imp (mem_visibleFrom_of_isAbove · h) (mem_visibleAll_of_isAbove · h)

end

end Tree

end CodeAtlas
