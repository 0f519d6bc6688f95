import CodeAtlas.Text.Slice

/-!
# Concrete syntax trees

A syntax tree describes one text. Every node has a kind, a byte range of the text and an ordered
list of children; a child may carry the label of the field that it fills in its parent. *Named*
nodes stand for rules of the grammar, the others for its punctuation and keywords. A *missing* node
was supplied by error recovery and has no text.

A node has no identity apart from its place: a child is addressed by its position among its
siblings, and a node of a tree by the number of nodes in front of it in pre-order.

## Main definitions

* `Tree`: syntax trees.
* `Tree.fieldIndex?`, `Tree.field?`: the child that fills a field.
* `Tree.namedChildren`, `Tree.firstOfKind?`: children that stand for rules of the grammar.
* `Tree.preorder`, `Tree.size`: all nodes of a tree.
* `Tree.text`: the text of a node.
-/
namespace CodeAtlas

/-- What a syntax tree says about one node. -/
structure NodeData where
  /-- The kind under which the node is read. -/
  kind : String
  /-- The name of the rule that produced the node. It differs from `kind` where the grammar gives
  the same rule another name in some place. -/
  grammarName : String := kind
  /-- The node stands for a rule of the grammar. -/
  named : Bool := true
  /-- The node was supplied by error recovery. -/
  missing : Bool := false
  /-- The field that the node fills in its parent. -/
  label : Option String := none
  /-- The offset of the node's first byte. -/
  start : Nat := 0
  /-- The number of bytes of the node. -/
  length : Nat := 0
  /-- Fields of this node whose look-up does not follow the labels of the children, each with the
  position of the child that it finds. Below a node made by error recovery a look-up finds
  nothing. -/
  overrides : List (String × Option Nat) := []

/-- Concrete syntax trees. -/
inductive Tree where
  | node (data : NodeData) (children : List Tree)

namespace Tree

/-! ## Reading a node -/

def data : Tree → NodeData
  | node d _ => d

def children : Tree → List Tree
  | node _ cs => cs

@[simp] theorem data_node (d : NodeData) (cs : List Tree) : (node d cs).data = d := rfl
@[simp] theorem children_node (d : NodeData) (cs : List Tree) : (node d cs).children = cs := rfl

def kind (t : Tree) : String := t.data.kind
def grammarName (t : Tree) : String := t.data.grammarName
def named (t : Tree) : Bool := t.data.named
def missing (t : Tree) : Bool := t.data.missing
def label (t : Tree) : Option String := t.data.label
def start (t : Tree) : Nat := t.data.start
def length (t : Tree) : Nat := t.data.length

/-- The offset after the last byte of `t`. -/
def stop (t : Tree) : Nat := t.start + t.length

/-- The node `t` has no children. -/
def isLeaf (t : Tree) : Bool := t.children.isEmpty

/-- The part of `source` that `t` covers, empty if there is no such part. -/
def text (t : Tree) (source : String) : String :=
  Text.slice source t.start t.stop

/-! ## Reading the children -/

/-- The position of the child of `t` that fills `field`. -/
def fieldIndex? (t : Tree) (field : String) : Option Nat :=
  match t.data.overrides.lookup field with
  | some answer => answer
  | none => t.children.findIdx? (·.label == some field)

/-- The child of `t` that fills `field`. -/
def field? (t : Tree) (field : String) : Option Tree :=
  (t.fieldIndex? field).bind (t.children[·]?)

/-- The text of the child of `t` that fills `field`. -/
def textIn? (t : Tree) (field source : String) : Option String :=
  (t.field? field).map (·.text source)

/-- The children of `t` that stand for rules of the grammar. -/
def namedChildren (t : Tree) : List Tree :=
  t.children.filter (·.named)

/-- The position of the first named child that satisfies `p`. -/
def namedIndex? (t : Tree) (p : Tree → Bool) : Option Nat :=
  t.children.findIdx? fun c => c.named && p c

/-- The position of the first named child of `t` of this `kind`. -/
def kindIndex? (t : Tree) (kind : String) : Option Nat :=
  t.namedIndex? (·.kind == kind)

/-- The first named child of `t` of this `kind`. -/
def firstOfKind? (t : Tree) (kind : String) : Option Tree :=
  t.namedChildren.find? (·.kind == kind)

/-- The first named child of `t` that is an identifier. -/
def leadingIdentifier? (t : Tree) : Option Tree :=
  t.firstOfKind? "identifier"

/-! ## All nodes -/

mutual

/-- The nodes of a tree, each before its descendants, in the order of the text. -/
def preorder : Tree → List Tree
  | node d cs => node d cs :: preorderAll cs

/-- The nodes of several trees, one tree after the other. -/
def preorderAll : List Tree → List Tree
  | [] => []
  | c :: cs => preorder c ++ preorderAll cs

end

mutual

/-- The number of nodes of a tree. -/
def size : Tree → Nat
  | node _ cs => sizeAll cs + 1

/-- The number of nodes of several trees. -/
def sizeAll : List Tree → Nat
  | [] => 0
  | c :: cs => size c + sizeAll cs

end

end Tree

/-- A grammar gives every text its syntax tree. Reading never fails: where a text breaks the rules
the tree says so by missing nodes and nodes of kind `ERROR`. -/
abbrev Grammar := String → Tree

end CodeAtlas
