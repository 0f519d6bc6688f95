import CodeAtlas.Proofs.Text.Slice
import CodeAtlas.Symbol.Signature

/-!
# Well-formed syntax trees

A syntax tree is well formed for a text if every node covers a readable part of the text, the
children of a node follow each other inside it, and comments have no parts. Trees of broken code are
well formed too: what error recovery supplies is empty but has its place.

## Main definitions

* `Tree.Within`: a node of a tree with its ancestors.
* `Tree.WellFormed`: well-formed trees.
* `Tree.Layered`: the part of well-formedness that does not depend on the text.
* `Tree.IsToken`: a leaf that stands for a fixed text.
* `Tree.Braced`: a body between braces of its own.
* `Tree.ofFile`, `Tree.ofClass`, `Tree.ofOverload`: the trees of a class with overloads of a method.

## Main statements

* `Tree.childInduction`: induction over a tree and its children.
* `Tree.WellFormed.of_mem`: every node of a well-formed tree is the root of one.
-/
namespace CodeAtlas.Tree

variable {text : String} {t u n : Tree}

/-! ## The nodes of a tree -/

@[simp]
theorem mem_preorderAll {cs : List Tree} : n ∈ preorderAll cs ↔ ∃ c ∈ cs, n ∈ c.preorder := by
  induction cs with
  | nil => simp [preorderAll]
  | cons c cs ih => simp [preorderAll, ih]

theorem mem_preorder_iff : n ∈ t.preorder ↔ n = t ∨ ∃ c ∈ t.children, n ∈ c.preorder := by
  cases t with
  | node d cs => simp [preorder, mem_preorderAll]

theorem mem_preorder_self (t : Tree) : t ∈ t.preorder :=
  mem_preorder_iff.mpr (.inl rfl)

@[grind →] theorem mem_preorder_of_mem_children {c : Tree} (h : c ∈ t.children) : c ∈ t.preorder :=
  mem_preorder_iff.mpr (.inr ⟨c, h, mem_preorder_self c⟩)

mutual

theorem mem_preorder_trans : ∀ {t : Tree}, u ∈ t.preorder → n ∈ u.preorder → n ∈ t.preorder
  | node d cs, hu, hn => by
    simp only [preorder, List.mem_cons] at hu
    rcases hu with rfl | hu
    · exact hn
    · exact List.mem_cons_of_mem _ (mem_preorderAll_trans hu hn)

theorem mem_preorderAll_trans :
    ∀ {cs : List Tree}, u ∈ preorderAll cs → n ∈ u.preorder → n ∈ preorderAll cs
  | [], hu, _ => by simp [preorderAll] at hu
  | c :: cs, hu, hn => by
    rw [preorderAll, List.mem_append] at hu ⊢
    rcases hu with hu | hu
    · exact .inl (mem_preorder_trans hu hn)
    · exact .inr (mem_preorderAll_trans hu hn)

end

@[grind →] theorem mem_children_of_field? {field : String} (h : t.field? field = some n) :
    n ∈ t.children := by
  obtain ⟨i, -, hi⟩ := Option.bind_eq_some_iff.mp h
  exact List.mem_of_getElem? hi

theorem sizeOf_lt_of_mem_children (h : n ∈ t.children) : sizeOf n < sizeOf t := by
  obtain ⟨d, cs⟩ := t
  have hlt : sizeOf n < sizeOf cs := List.sizeOf_lt_of_mem h
  rw [node.sizeOf_spec]
  omega

/-- What a tree inherits from its children holds of every tree. -/
@[elab_as_elim]
theorem childInduction {P : Tree → Prop} (inherit : ∀ t, (∀ c ∈ t.children, P c) → P t)
    (t : Tree) : P t := by
  induction hsize : sizeOf t using Nat.strongRecOn generalizing t with
  | ind size ih =>
    subst hsize
    exact inherit t fun c hc => ih (sizeOf c) (sizeOf_lt_of_mem_children hc) c rfl

/-! ## Nodes with their ancestors -/

/-- A node of `root` with its ancestors, nearest first. -/
inductive Within (root : Tree) : List Tree → Tree → Prop
  | root : Within root [] root
  | child {above : List Tree} {t c : Tree} (h : Within root above t) (hc : c ∈ t.children) :
      Within root (t :: above) c

@[grind →] theorem Within.mem_preorder {root : Tree} {above : List Tree} (h : Within root above t) :
    t ∈ root.preorder := by
  induction h with
  | root => exact mem_preorder_self root
  | child _ hc ih => exact mem_preorder_trans ih (mem_preorder_of_mem_children hc)

/-- The ancestors of a node are nodes of the tree with the ancestors that are left. -/
theorem Within.ancestor {root : Tree} {front back : List Tree}
    (h : Within root (front ++ u :: back) t) : Within root back u := by
  induction front generalizing t with
  | nil =>
    cases h with
    | child h _ => exact h
  | cons n front ih =>
    cases h with
    | child h _ => exact ih h

/-! ## Well-formed trees -/

/-- The node `b` starts where `a` stops, or after that. -/
def Precedes (a b : Tree) : Prop :=
  a.stop ≤ b.start

/-- The tree `t` describes `text`: its nodes are readable, the children of a node lie inside it one
after the other, and a comment has no children. -/
structure WellFormed (text : String) (t : Tree) : Prop where
  readable : ∀ n ∈ t.preorder, ∃ s, Text.slice? text n.start n.stop = some s
  inside : ∀ n ∈ t.preorder, ∀ c ∈ n.children, n.start ≤ c.start ∧ c.stop ≤ n.stop
  ordered : ∀ n ∈ t.preorder, n.children.Pairwise Precedes
  comment_leaf : ∀ n ∈ t.preorder, n.kind = "comment" → n.children = []

theorem start_le_stop (t : Tree) : t.start ≤ t.stop :=
  Nat.le_add_right _ _

/-- The children of every node of `t` lie inside it one after the other. -/
structure Layered (t : Tree) : Prop where
  inside : ∀ n ∈ t.preorder, ∀ c ∈ n.children, n.start ≤ c.start ∧ c.stop ≤ n.stop
  ordered : ∀ n ∈ t.preorder, n.children.Pairwise Precedes

namespace Layered

theorem of_mem (h : t.Layered) (hu : u ∈ t.preorder) : u.Layered where
  inside n hn := h.inside n (mem_preorder_trans hu hn)
  ordered n hn := h.ordered n (mem_preorder_trans hu hn)

theorem child {c : Tree} (h : t.Layered) (hc : c ∈ t.children) : c.Layered :=
  h.of_mem (mem_preorder_of_mem_children hc)

theorem start_le {c : Tree} (h : t.Layered) (hc : c ∈ t.children) : t.start ≤ c.start :=
  (h.inside t (mem_preorder_self t) c hc).1

theorem stop_le {c : Tree} (h : t.Layered) (hc : c ∈ t.children) : c.stop ≤ t.stop :=
  (h.inside t (mem_preorder_self t) c hc).2

theorem pairwise_children (h : t.Layered) : t.children.Pairwise Precedes :=
  h.ordered t (mem_preorder_self t)

/-- Every node of a layered tree lies inside its root. -/
theorem start_le_of_mem (h : t.Layered) (hn : n ∈ t.preorder) :
    t.start ≤ n.start ∧ n.stop ≤ t.stop := by
  induction t using childInduction with
  | inherit t ih =>
    rcases mem_preorder_iff.mp hn with rfl | ⟨c, hc, hn⟩
    · exact ⟨Nat.le_refl _, Nat.le_refl _⟩
    · obtain ⟨hstart, hstop⟩ := ih c hc (h.child hc) hn
      exact ⟨Nat.le_trans (h.start_le hc) hstart, Nat.le_trans hstop (h.stop_le hc)⟩

end Layered

@[grind →] theorem WellFormed.layered (h : t.WellFormed text) : t.Layered :=
  ⟨h.inside, h.ordered⟩

namespace WellFormed

theorem of_mem (h : t.WellFormed text) (hu : u ∈ t.preorder) : u.WellFormed text where
  readable n hn := h.readable n (mem_preorder_trans hu hn)
  inside n hn := h.inside n (mem_preorder_trans hu hn)
  ordered n hn := h.ordered n (mem_preorder_trans hu hn)
  comment_leaf n hn := h.comment_leaf n (mem_preorder_trans hu hn)

theorem child {c : Tree} (h : t.WellFormed text) (hc : c ∈ t.children) : c.WellFormed text :=
  h.of_mem (mem_preorder_of_mem_children hc)

theorem start_le {c : Tree} (h : t.WellFormed text) (hc : c ∈ t.children) : t.start ≤ c.start :=
  (h.inside t (mem_preorder_self t) c hc).1

theorem stop_le {c : Tree} (h : t.WellFormed text) (hc : c ∈ t.children) : c.stop ≤ t.stop :=
  (h.inside t (mem_preorder_self t) c hc).2

theorem pairwise_children (h : t.WellFormed text) : t.children.Pairwise Precedes :=
  h.ordered t (mem_preorder_self t)

theorem exists_slice? (h : t.WellFormed text) : ∃ s, Text.slice? text t.start t.stop = some s :=
  h.readable t (mem_preorder_self t)

@[grind →] theorem isBoundary_start (h : t.WellFormed text) : Text.IsBoundary text t.start := by
  obtain ⟨s, hs⟩ := h.exists_slice?
  exact Text.isBoundary_left hs

@[grind →] theorem isBoundary_stop (h : t.WellFormed text) : Text.IsBoundary text t.stop := by
  obtain ⟨s, hs⟩ := h.exists_slice?
  exact Text.isBoundary_right hs

end WellFormed

/-- A node with children is no comment. -/
theorem WellFormed.kind_ne_comment {c : Tree} (h : t.WellFormed text) (hc : c ∈ t.children) :
    t.kind ≠ "comment" := by
  intro hkind
  have hleaf := h.comment_leaf t (mem_preorder_self t) hkind
  simp [hleaf] at hc

/-! ## Braces -/

/-- The node `t` is a leaf that stands for the fixed text `token`. -/
structure IsToken (text token : String) (t : Tree) : Prop where
  leaf : t.children = []
  kind_eq : t.kind = token
  slice?_eq : Text.slice? text t.start t.stop = some token

/-- The node `body` is no member, and it begins with an opening and ends with a closing brace, both
of them its own. -/
structure Braced (text : String) (body : Tree) : Prop where
  memberKind?_eq : body.memberKind? = none
  exists_braces : ∃ left inner right, body.children = left :: (inner ++ [right]) ∧
    left.IsToken text "\x7b" ∧ left.start = body.start ∧
    right.IsToken text "\x7d" ∧ right.stop = body.stop

/-! ## Checking the laws of a tree -/

instance (a b : Tree) : Decidable (Precedes a b) :=
  inferInstanceAs (Decidable (_ ≤ _))

theorem wellFormed_iff :
    t.WellFormed text ↔ ∀ n ∈ t.preorder, (Text.slice? text n.start n.stop).isSome ∧
      (∀ c ∈ n.children, n.start ≤ c.start ∧ c.stop ≤ n.stop) ∧ n.children.Pairwise Precedes ∧
      (n.kind = "comment" → n.children = []) := by
  constructor
  · intro h n hn
    exact ⟨Option.isSome_iff_exists.mpr (h.readable n hn), h.inside n hn, h.ordered n hn,
      h.comment_leaf n hn⟩
  · intro h
    exact ⟨fun n hn => Option.isSome_iff_exists.mp (h n hn).1, fun n hn => (h n hn).2.1,
      fun n hn => (h n hn).2.2.1, fun n hn => (h n hn).2.2.2⟩

instance (text : String) (t : Tree) : Decidable (t.WellFormed text) :=
  decidable_of_iff' _ wellFormed_iff

instance (t : Tree) : Decidable t.Layered :=
  decidable_of_iff ((∀ n ∈ t.preorder, ∀ c ∈ n.children, n.start ≤ c.start ∧ c.stop ≤ n.stop) ∧
      ∀ n ∈ t.preorder, n.children.Pairwise Precedes)
    ⟨fun h => ⟨h.1, h.2⟩, fun h => ⟨h.inside, h.ordered⟩⟩

instance (text token : String) (t : Tree) : Decidable (t.IsToken text token) :=
  decidable_of_iff (t.children = [] ∧ t.kind = token ∧
      Text.slice? text t.start t.stop = some token)
    ⟨fun h => ⟨h.1, h.2.1, h.2.2⟩, fun h => ⟨h.leaf, h.kind_eq, h.slice?_eq⟩⟩

theorem braced_iff {body : Tree} :
    body.Braced text ↔ body.memberKind? = none ∧
      (∃ left ∈ body.children.head?, left.IsToken text "\x7b" ∧ left.start = body.start) ∧
      ∃ right ∈ body.children.tail.getLast?,
        right.IsToken text "\x7d" ∧ right.stop = body.stop := by
  constructor
  · rintro ⟨hkind, left, inner, right, hchildren, hleft, hstart, hright, hstop⟩
    exact ⟨hkind, ⟨left, by simp [hchildren], hleft, hstart⟩, right, by simp [hchildren], hright,
      hstop⟩
  · rintro ⟨hkind, ⟨left, hhead, hleft, hstart⟩, right, hlast, hright, hstop⟩
    obtain ⟨rest, hrest⟩ := List.head?_eq_some_iff.mp hhead
    rw [hrest, List.tail_cons] at hlast
    obtain ⟨inner, rfl⟩ := List.getLast?_eq_some_iff.mp hlast
    exact ⟨hkind, left, inner, right, hrest, hleft, hstart, hright, hstop⟩

instance (text : String) (body : Tree) : Decidable (body.Braced text) :=
  decidable_of_iff' _ braced_iff

/-! ## Trees of a class -/

/-- The tree of a `token` at `start`. -/
def ofToken (token : String) (start : Nat) : Tree :=
  .node { kind := token, named := false, start, length := token.utf8ByteSize } []

/-- The tree of a name or of a built-in type that fills the field `label`. -/
def ofLeaf (kind label : String) (start length : Nat) : Tree :=
  .node { kind, label := some label, start, length } []

/-- The tree of `void A(T n);` at an offset, where the name of the type `T` has `width` bytes. -/
def ofOverload (start width : Nat) : Tree :=
  .node { kind := "method_declaration", start, length := 11 + width }
    [ofLeaf "predefined_type" "returns" start 4, ofLeaf "identifier" "name" (start + 5) 1,
      .node { kind := "parameter_list", label := some "parameters", start := start + 6,
              length := 4 + width }
        [ofToken "(" (start + 6),
          .node { kind := "parameter", start := start + 7, length := 2 + width }
            [ofLeaf "predefined_type" "type" (start + 7) width,
              ofLeaf "identifier" "name" (start + 8 + width) 1],
          ofToken ")" (start + 9 + width)],
      ofToken ";" (start + 10 + width)]

/-- The tree of `class C` with a body on the same line, of `length` bytes in all. -/
def ofClass (start length : Nat) (members : List Tree) : Tree :=
  .node { kind := "class_declaration", start, length }
    [ofToken "class" start, ofLeaf "identifier" "name" (start + 6) 1,
      .node { kind := "declaration_list", label := some "body", start := start + 8,
              length := length - 8 }
        (ofToken "\x7b" (start + 8) :: (members ++ [ofToken "\x7d" (start + length - 1)]))]

/-- The tree of a text that is all of a class with the given `members`. -/
def ofFile (length : Nat) (members : List Tree) : Tree :=
  .node { kind := "compilation_unit", length } [ofClass 0 length members]

/-- The tree of a text that is all of a part of a partial class with the given `members`. -/
def ofPart (length : Nat) (members : List Tree) : Tree :=
  .node { kind := "compilation_unit", length }
    [.node { kind := "class_declaration", length }
      [.node { kind := "modifier", length := 7 } [], ofToken "class" 8,
        ofLeaf "identifier" "name" 14 1,
        .node { kind := "declaration_list", label := some "body", start := 16,
                length := length - 16 }
          (ofToken "\x7b" 16 :: (members ++ [ofToken "\x7d" (length - 1)]))]]

/-- The tree of a namespace with a name of one byte and a body on the same line, of `length` bytes
in all. -/
def ofBlock (start length : Nat) (members : List Tree) : Tree :=
  .node { kind := "namespace_declaration", start, length }
    [ofToken "namespace" start, ofLeaf "identifier" "name" (start + 10) 1,
      .node { kind := "declaration_list", label := some "body", start := start + 12,
              length := length - 12 }
        (ofToken "\x7b" (start + 12) :: (members ++ [ofToken "\x7d" (start + length - 1)]))]

example : (ofFile 26 [ofOverload 10 3]).WellFormed "class C \x7b void A(int n); \x7d" := by
  decide +kernel

end CodeAtlas.Tree
