import CodeAtlas.Syntax.Content
import CodeAtlas.Text.Line

/-!
# Comparing syntax trees

Two trees are compared by a key of their nodes, such as the content. A node whose key occurs
anywhere in the other tree is not reported, nor is anything below it. The others are paired by
position: the nodes of one grammar name that start at one offset are paired in order. A paired node
of the new tree is *modified* and its children are compared in turn, one without a counterpart is
*added*; a node of the old tree without a counterpart is *removed*. Only named nodes are reported.

## Main definitions

* `Tree.counterpart?`: the node that a node is paired with.
* `ComparedTree`: a tree whose nodes have keys.
* `TreeReport`, `Tree.newSide`, `Tree.oldSide`: the reported nodes of two trees.
* `NodeReport`, `TreeComparison`, `compareStructure`: the comparison of two texts, with places and
  texts of the nodes.
-/
namespace CodeAtlas

/-- How a node was modified. -/
inductive ModificationKind where
  | kindMismatch | contentChanged | internalStructureChanged
deriving DecidableEq, Inhabited

def ModificationKind.name : ModificationKind → String
  | kindMismatch => "KindMismatch"
  | contentChanged => "ContentChanged"
  | internalStructureChanged => "InternalStructureChanged"

/-! ## Comparing trees -/

namespace Tree

/-- The nodes `a` and `b` can be counterparts. -/
def samePosition (a b : Tree) : Bool :=
  a.start == b.start && a.grammarName == b.grammarName

/-- The number of nodes among `own`, the nodes of its tree, that stand in front of the node `t` with
number `n` and could be paired with the same nodes. -/
def rank (own : List (Nat × Tree)) (n : Nat) (t : Tree) : Nat :=
  own.countP fun (m, u) => m < n && u.samePosition t

/-- The counterpart of the node with number `n`: of the nodes at its position in the other tree, the
one of the same rank. -/
def counterpart? (own other : List (Nat × Tree)) (n : Nat) (t : Tree) : Option (Nat × Tree) :=
  (other.filter fun (_, u) => u.samePosition t)[rank own n t]?

end Tree

/-- One side of a comparison. A node is recognized in the other tree by its key. -/
structure ComparedTree (κ : Type) where
  source : String
  tree : Tree
  key : Tree → κ
  /-- The nodes that count, with their numbers. -/
  nodes : List (Nat × Tree) := tree.visible
  nodes_eq : nodes = tree.visible := by rfl
  /-- The keys of these nodes. -/
  keys : List κ := nodes.map fun p => key p.2
  keys_eq : keys = nodes.map fun p => key p.2 := by rfl

namespace ComparedTree

variable {κ : Type}

/-- A `tree` whose nodes are recognized by a `key`. -/
def ofKey (source : String) (tree : Tree) (key : Tree → κ) : ComparedTree κ where
  source := source
  tree := tree
  key := key

@[simp] theorem source_ofKey (source : String) (tree : Tree) (key : Tree → κ) :
    (ofKey source tree key).source = source :=
  rfl

@[simp] theorem tree_ofKey (source : String) (tree : Tree) (key : Tree → κ) :
    (ofKey source tree key).tree = tree :=
  rfl

/-- A `tree` of the text `source` whose nodes are recognized by their contents. -/
def make (source : String) (tree : Tree) : ComparedTree Content :=
  ofKey source tree (Tree.content source)

/-- The `key` occurs in the tree. -/
def has [DecidableEq κ] (c : ComparedTree κ) (key : κ) : Bool :=
  c.keys.contains key

end ComparedTree

/-- The reported nodes of two trees, each with its number. -/
structure TreeReport where
  added : List (Nat × Tree) := []
  /-- Pairs of an old and a new node. -/
  modified : List ((Nat × Tree) × (Nat × Tree)) := []

/-- The report `a` and after it `b`. -/
def TreeReport.append (a b : TreeReport) : TreeReport :=
  { added := a.added ++ b.added, modified := a.modified ++ b.modified }

instance : Append TreeReport := ⟨TreeReport.append⟩

namespace Tree

variable {κ : Type} [DecidableEq κ]

mutual

/-- What is reported of a node of the new tree and of its descendants. The number of the node is
`n`. -/
def newSide (old new : ComparedTree κ) (n : Nat) : Tree → TreeReport
  | node d cs =>
    let t := node d cs
    if t.isTrivia || old.has (new.key t) then {}
    else
      match counterpart? new.nodes old.nodes n t with
      | some u =>
        { modified := if t.named then [(u, (n, t))] else [] } ++ newSideAll old new (n + 1) cs
      | none => { added := if t.named then [(n, t)] else [] }

/-- What is reported of several nodes of the tree `new` in a row, numbered from `n` on. -/
def newSideAll (old new : ComparedTree κ) (n : Nat) : List Tree → TreeReport
  | [] => {}
  | c :: cs => newSide old new n c ++ newSideAll old new (n + c.size) cs

end

mutual

/-- The removed nodes among a node of the tree `old` with number `n` and its descendants, with their
numbers. -/
def oldSide (old new : ComparedTree κ) (n : Nat) : Tree → List (Nat × Tree)
  | node d cs =>
    let t := node d cs
    if t.isTrivia || new.has (old.key t) then []
    else if (counterpart? old.nodes new.nodes n t).isSome then oldSideAll old new (n + 1) cs
    else if t.named then [(n, t)]
    else []

/-- The removed nodes among several nodes of the tree `old` in a row, numbered from `n` on. -/
def oldSideAll (old new : ComparedTree κ) (n : Nat) : List Tree → List (Nat × Tree)
  | [] => []
  | c :: cs => oldSide old new n c ++ oldSideAll old new (n + c.size) cs

end

/-- How the node `old` was modified into `new`. -/
def modification (oldSource newSource : String) (old new : Tree) : ModificationKind :=
  if old.kind != new.kind then .kindMismatch
  else if old.flatText oldSource != new.flatText newSource then .contentChanged
  else .internalStructureChanged

end Tree

/-! ## Comparing texts -/

/-- A node with its place in the text. Lines are counted from one. -/
structure NodeReport where
  kind : String
  start : Nat
  stop : Nat
  startLine : Nat
  stopLine : Nat
  text : String
deriving DecidableEq, Inhabited

def Tree.report (t : Tree) (source : String) : NodeReport where
  kind := t.kind
  start := t.start
  stop := t.stop
  startLine := Text.rowAt source t.start + 1
  stopLine := Text.rowAt source t.stop + 1
  text := t.text source

/-- A modified node. -/
structure Modification where
  old : NodeReport
  new : NodeReport
  kind : ModificationKind
deriving DecidableEq, Inhabited

/-- The comparison of two texts. -/
structure TreeComparison where
  added : List NodeReport
  removed : List NodeReport
  modified : List Modification
deriving DecidableEq, Inhabited

def TreeComparison.isEmpty (d : TreeComparison) : Bool :=
  d.added.isEmpty && d.removed.isEmpty && d.modified.isEmpty

/-- The comparison of two texts with the trees `old` and `new`. -/
def compareTrees {κ : Type} [DecidableEq κ] (old new : ComparedTree κ) : TreeComparison :=
  let report := new.tree.newSide old new 0
  { added := report.added.map fun t => t.2.report new.source
    removed := (old.tree.oldSide old new 0).map fun u => u.2.report old.source
    modified := report.modified.map fun (u, t) =>
      { old := u.2.report old.source
        new := t.2.report new.source
        kind := Tree.modification old.source new.source u.2 t.2 } }

/-- The comparison of the texts `old` and `new` by the contents of their nodes. -/
def compareStructure (grammar : Grammar) (old new : String) : TreeComparison :=
  compareTrees (.make old (grammar old)) (.make new (grammar new))

end CodeAtlas
