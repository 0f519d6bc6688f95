import CodeAtlas.Syntax.Tree

/-!
# Contents of syntax trees

The content of a tree is what remains of it when layout, comments and missing nodes are left out:
the kinds of its nodes in their shape, and the texts of its leaves. Two trees of the same content
mean the same.

## Main definitions

* `LabelledTree`: trees of labels with texts at the leaves, with decidable equality.
* `Tree.isTrivia`: nodes that do not count.
* `Tree.labelled`: the nodes of a tree that count, each with a label.
* `Content`, `Tree.content`: the content of a tree, whose labels are kinds.
* `Tree.flatText`: the texts of the leaves, joined.
-/
namespace CodeAtlas

/-- A tree with a label at each node and a text at each leaf. -/
inductive LabelledTree (α : Type) where
  | leaf (label : α) (text : String)
  | branch (label : α) (parts : List (LabelledTree α))

namespace LabelledTree

variable {α : Type} [DecidableEq α]

mutual

/-- Decides whether `a` and `b` are the same tree. -/
def decEq : (a b : LabelledTree α) → Decidable (a = b)
  | leaf l t, leaf l' t' =>
    if h : l = l' ∧ t = t' then isTrue (by rw [h.1, h.2])
    else isFalse fun e => h (by injection e; exact ⟨‹_›, ‹_›⟩)
  | branch l ps, branch l' ps' =>
    if hl : l = l' then
      match decEqAll ps ps' with
      | isTrue hp => isTrue (by rw [hl, hp])
      | isFalse hp => isFalse fun e => hp (by injection e)
    else isFalse fun e => hl (by injection e)
  | leaf _ _, branch _ _ => isFalse fun e => by injection e
  | branch _ _, leaf _ _ => isFalse fun e => by injection e

/-- Decides whether `as` and `bs` are the same trees in the same order. -/
def decEqAll : (as bs : List (LabelledTree α)) → Decidable (as = bs)
  | [], [] => isTrue rfl
  | a :: as, b :: bs =>
    match decEq a b with
    | isFalse h => isFalse fun e => h (by injection e)
    | isTrue h =>
      match decEqAll as bs with
      | isTrue hs => isTrue (by rw [h, hs])
      | isFalse hs => isFalse fun e => hs (by injection e)
  | [], _ :: _ => isFalse fun e => by injection e
  | _ :: _, [] => isFalse fun e => by injection e

end

instance : DecidableEq (LabelledTree α) := decEq

end LabelledTree

/-- The content of a tree. -/
abbrev Content := LabelledTree String

namespace Tree

/-- The node `t` does not count: it is a comment, or missing. -/
def isTrivia (t : Tree) : Bool :=
  t.kind == "comment" || t.missing

section Labelled

variable {α : Type} (label : NodeData → α) (source : String)

mutual

/-- The nodes of a tree that count, each with its `label`. A node whose children all do not count is
still no leaf. -/
def labelled : Tree → LabelledTree α
  | node d cs =>
    if cs.isEmpty then .leaf (label d) ((node d cs).text source)
    else .branch (label d) (labelledAll cs)

/-- The trees `cs` that count, each with labels. -/
def labelledAll : List Tree → List (LabelledTree α)
  | [] => []
  | c :: cs => if c.isTrivia then labelledAll cs else labelled c :: labelledAll cs

end

end Labelled

/-- The content of the tree `t`. -/
def content (source : String) (t : Tree) : Content :=
  t.labelled (·.kind) source

/-- The contents of the trees `cs` that count. -/
def contents (source : String) (cs : List Tree) : List Content :=
  labelledAll (·.kind) source cs

mutual

/-- The texts in `source` of the leaves that count, joined. -/
def flatText (source : String) : Tree → String
  | node d cs =>
    if (node d cs).isTrivia then ""
    else if cs.isEmpty then (node d cs).text source
    else flatTexts source cs

/-- The texts in `source` of the leaves of several trees, joined. -/
def flatTexts (source : String) : List Tree → String
  | [] => ""
  | c :: cs => flatText source c ++ flatTexts source cs

end

mutual

/-- The nodes that count and do not lie below one that does not, each with its number in pre-order.
The number of the tree itself is `n`. -/
def visibleFrom (n : Nat) : Tree → List (Nat × Tree)
  | node d cs =>
    if (node d cs).isTrivia then [] else (n, node d cs) :: visibleAll (n + 1) cs

/-- The nodes of several trees in a row that count, numbered from `n` on. -/
def visibleAll (n : Nat) : List Tree → List (Nat × Tree)
  | [] => []
  | c :: cs => visibleFrom n c ++ visibleAll (n + c.size) cs

end

/-- The nodes of `t` that count, each with its number in pre-order. -/
def visible (t : Tree) : List (Nat × Tree) :=
  visibleFrom 0 t

end Tree

end CodeAtlas
