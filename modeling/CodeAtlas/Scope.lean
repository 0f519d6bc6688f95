import CodeAtlas.Symbol.Signature

/-!
# Scopes of a file

Types, members and control-flow constructs of a file are scopes. They are collected in an arena in
the order in which they appear: each gets its position as id, and is listed by the scope around it.

## Main definitions

* `Opening`, `Scope`: a scope as it is opened, and as it is kept.
* `ScopeForest`, `ScopeForest.push`: the arena, and how it grows.
* `ScopeForest.addScopes`: the scopes of a syntax tree are added.
* `ScopeForest.at?`, `ScopeForest.chain`: the scopes around an offset.
-/
namespace CodeAtlas

/-- What is known of a scope when it is opened. -/
structure Opening where
  name : String
  kind : SymbolKind
  start : Nat
  length : Nat
  /-- The id of the scope around this one. -/
  parent : Option Nat
deriving DecidableEq, Inhabited

namespace Opening

/-- The offset after the last byte of the scope `o`. -/
def stop (o : Opening) : Nat := o.start + o.length

/-- The `offset` lies in the scope `o` or directly after it. -/
def covers (o : Opening) (offset : Nat) : Bool :=
  o.start ≤ offset && offset ≤ o.stop

end Opening

/-- A type, a member or a control-flow construct. -/
structure Scope extends Opening where
  id : Nat
  path : String
  /-- The ids of the scopes directly inside this one. -/
  children : List Nat
deriving DecidableEq, Inhabited

instance : Coe Scope Opening := ⟨Scope.toOpening⟩

/-! ## What a node opens -/

namespace Tree

/-- The kind and the name of the scope that the node `t` opens. Fields and events open none. -/
def scope? (t : Tree) (source : String) : Option (SymbolKind × String) :=
  match t.typeKind?, t.controlFlow?, t.memberKind? with
  | some kind, _, _ => some (kind, (t.declaredName? source).getD "")
  | none, some keyword, _ => some (.controlFlow, keyword)
  | none, none, some .field => none
  | none, none, some .event => none
  | none, none, some kind => some (kind.symbolKind, (t.declaredName? source).getD "")
  | none, none, none => none

/-- The scope that the node `t` opens inside `parent`. -/
def opening? (t : Tree) (source : String) (parent : Option Nat) : Option Opening :=
  (t.scope? source).map fun s =>
    { name := s.2, kind := s.1, start := t.start, length := t.length, parent }

/-- The scope of the `else` of `conditional`, from its keyword to the end of `branch`. -/
def elseOpening (conditional branch : Tree) (parent : Option Nat) : Opening :=
  let start := ((conditional.children.find? (·.kind == "else")).map (·.start)).getD branch.start
  { name := "else", kind := .controlFlow, start, length := branch.stop - start, parent }

end Tree

/-! ## The arena -/

/-- The scopes of the file at `path` in the order of appearance. -/
structure ScopeForest where
  path : String
  nodes : Array Scope := #[]
  /-- The ids of the scopes that lie in no other. -/
  roots : List Nat := []
deriving DecidableEq, Inhabited

namespace ScopeForest

/-- Adds the scope `o`. It is listed by its parent, or as a root if there is none. -/
def push (f : ScopeForest) (o : Opening) : ScopeForest :=
  let id := f.nodes.size
  let nodes := f.nodes.push { o with id, path := f.path, children := [] }
  match o.parent.filter (· < nodes.size) with
  | some p => { f with nodes := nodes.modify p fun s => { s with children := s.children ++ [id] } }
  | none => { f with nodes, roots := f.roots ++ [id] }

/-- Adds the scope that a node opens, if it opens one. What lies in the node then lies in the second
component, which is `parent` if there is no such scope. -/
def enter (f : ScopeForest) (parent : Option Nat) : Option Opening → ScopeForest × Option Nat
  | some o => (f.push o, some f.nodes.size)
  | none => (f, parent)

mutual

/-- Adds the scopes of a node that lies in `parent`. The branch of an `else` lies in a scope of its
own unless it is another conditional. -/
def addScopes (source : String) (parent : Option Nat) (f : ScopeForest) : Tree → ScopeForest
  | .node d cs =>
    let t := Tree.node d cs
    let (f, inner) := f.enter parent (t.opening? source parent)
    if t.kind == "if_statement" then
      let alternative := t.fieldIndex? "alternative"
      let f := addScopesIn source inner f alternative 0 cs
      match alternative, alternative.bind (cs[·]?) with
      | some i, some branch =>
        if branch.kind == "if_statement" then addScopesNth source inner f i cs
        else
          addScopesNth source (some f.nodes.size) (f.push (t.elseOpening branch inner)) i cs
      | _, _ => f
    else addScopesIn source inner f none 0 cs

/-- Adds the scopes of the named nodes of a list, of which the first stands at position `i`, but for
the one at position `skip`. -/
def addScopesIn (source : String) (parent : Option Nat) (f : ScopeForest) (skip : Option Nat)
    (i : Nat) : List Tree → ScopeForest
  | [] => f
  | c :: cs =>
    if c.named && skip != some i then
      addScopesIn source parent (addScopes source parent f c) skip (i + 1) cs
    else addScopesIn source parent f skip (i + 1) cs

/-- Adds the scopes of the node at position `i` of a list. -/
def addScopesNth (source : String) (parent : Option Nat) (f : ScopeForest) :
    (i : Nat) → List Tree → ScopeForest
  | _, [] => f
  | 0, c :: _ => addScopes source parent f c
  | i + 1, _ :: cs => addScopesNth source parent f i cs

end

/-- The scopes of the file at `path`. -/
def ofText (grammar : Grammar) (text path : String) : ScopeForest :=
  addScopes text none { path } (grammar text)

/-! ## Reading the arena -/

def scopes (f : ScopeForest) : List Scope :=
  f.nodes.toList

def get? (f : ScopeForest) (i : Nat) : Option Scope :=
  f.nodes[i]?

/-- The ids of the scopes directly inside scope `i`. -/
def children (f : ScopeForest) (i : Nat) : List Nat :=
  ((f.get? i).map (·.children)).getD []

/-- The scope around scope `i`. -/
def parent? (f : ScopeForest) (i : Nat) : Option Scope := do
  let s ← f.get? i
  f.get? (← s.parent)

/-- The id of the first of the shortest scopes around the `offset`. -/
def at? (f : ScopeForest) (offset : Nat) : Option Nat :=
  ((f.scopes.filter (·.covers offset)).minOn? (·.length)).map (·.id)

/-- A scope and the scopes around it, of which at most `fuel` are listed. -/
def ancestors (f : ScopeForest) : (fuel : Nat) → Option Nat → List Nat
  | 0, _ => []
  | _, none => []
  | fuel + 1, some i =>
    match f.get? i with
    | none => []
    | some s => i :: ancestors f fuel s.parent

/-- The scopes around the `offset`, innermost first. -/
def chain (f : ScopeForest) (offset : Nat) : List Nat :=
  f.ancestors f.nodes.size (f.at? offset)

end ScopeForest

end CodeAtlas
