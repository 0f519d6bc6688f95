import CodeAtlas.Graph.Node
import CodeAtlas.Project.Path
import Std.Data.TreeMap

/-!
# The symbol graph

The symbols of a project by id and by file, and the implementers of each interface.

## Main definitions

* `SymbolGraph`: the graph.
* `SymbolGraph.insert`, `SymbolGraph.implement`, `SymbolGraph.arrange`: building it.
* `SymbolGraph.node?`, `SymbolGraph.symbolsIn`, `SymbolGraph.named`, `SymbolGraph.enclosingType?`:
  reading it.
* `SymbolGraph.summary`: counting it.
-/
namespace CodeAtlas

/-- The symbols of a project. -/
structure SymbolGraph where
  /-- The symbols by id. -/
  nodes : Std.TreeMap String Symbol := ∅
  /-- The symbols by normalized path. -/
  files : Std.TreeMap String (List Symbol) := ∅
  /-- The ids of the types that implement an interface, by the id of the interface. -/
  implementations : Std.TreeMap String (List String) := ∅

/-- The size of a graph in numbers. -/
structure GraphSummary where
  files : Nat
  nodes : Nat
  declarations : Nat
  links : Nat
  /-- The number of links of each kind that occurs. -/
  linksByKind : List (LinkKind × Nat)
  interfacesImplemented : Nat

/-- Adds `x` at the end of `xs` unless it is there already. -/
def addOnce (x : String) (xs : List String) : List String :=
  if xs.contains x then xs else xs ++ [x]

namespace SymbolGraph

/-- The graph without symbols. -/
def empty : SymbolGraph := {}

/-! ## Building -/

/-- Adds the symbol `n`. It takes the place of an earlier symbol with its id, but not in the list of
a file. -/
def insert (g : SymbolGraph) (n : Symbol) : SymbolGraph :=
  { g with
    nodes := g.nodes.insert n.id n
    files := g.files.alter (Path.normalize n.path) fun list => some (list.getD [] ++ [n]) }

/-- Records that the type `implementer` implements `interface`. -/
def implement (g : SymbolGraph) (interface implementer : String) : SymbolGraph :=
  { g with
    implementations := g.implementations.alter interface fun list =>
      some (addOnce implementer (list.getD [])) }

/-- In a file, `a` is listed before `b`: symbols are listed by start, and an outer one before those
that start with it. -/
def comesFirst (a b : Symbol) : Bool :=
  a.start < b.start || (a.start == b.start && b.length ≤ a.length)

/-- Puts the symbols of every file in order. -/
def arrange (g : SymbolGraph) : SymbolGraph :=
  { g with files := g.files.map fun _ list => list.mergeSort comesFirst }

/-! ## Reading -/

def node? (g : SymbolGraph) (id : String) : Option Symbol :=
  g.nodes[id]?

def isEmpty (g : SymbolGraph) : Bool :=
  g.nodes.isEmpty

/-- The symbols of the file at `path`. -/
def symbolsIn (g : SymbolGraph) (path : String) : List Symbol :=
  (g.files[Path.normalize path]?).getD []

/-- The symbols called `name`, and of the given `kind` if there is one, by id. -/
def named (g : SymbolGraph) (name : String) (kind : Option SymbolKind) : List Symbol :=
  g.nodes.values.filter fun n => n.name == name && kind.all (n.kind == ·)

/-- The ids of the types that implement `interface`. -/
def implementers (g : SymbolGraph) (interface : String) : List String :=
  (g.implementations[interface]?).getD []

/-- The innermost type of the same file around the symbol `n`, which is the first of the
shortest. -/
def enclosingType? (g : SymbolGraph) (n : Symbol) : Option Symbol :=
  ((g.symbolsIn n.path).filter fun m => m.kind.isType && m.id != n.id && n.within m).minOn?
    (·.length)

/-! ## Counting -/

/-- The links of all symbols. -/
def allLinks (g : SymbolGraph) : List Link :=
  g.nodes.values.flatMap (·.links)

/-- The number of links of each kind that occurs. -/
def linksByKind (g : SymbolGraph) : List (LinkKind × Nat) :=
  (LinkKind.all.map fun k => (k, g.allLinks.countP (·.kind == k))).filter (·.2 != 0)

def summary (g : SymbolGraph) : GraphSummary where
  files := g.files.size
  nodes := g.nodes.size
  declarations := g.nodes.values.countP (·.kind.isDeclaration)
  links := g.allLinks.length
  linksByKind := g.linksByKind
  interfacesImplemented := g.implementations.size

end SymbolGraph

end CodeAtlas
