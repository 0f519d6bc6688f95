import CodeAtlas.Declaration.Table

/-!
# Resolving references

A reference is bound by name. What cannot be bound unambiguously is not bound at all.

## Main definitions

* `Table.denotedType`: the type that a type reference denotes.
* `Table.ancestry`: a type and its base types, nearest first.
* `Table.nearestMembers`: the members of a name on the nearest type of the chain that has one.
* `Table.calledMethod`, `Table.calledConstructor`, `Table.dataMember`: what a call, an object
  creation and a read of a member denote.
-/
namespace CodeAtlas.Table

/-! ## Types -/

/-- The only element of a list. -/
def unique? : List Nat → Option Nat
  | [i] => some i
  | _ => none

/-- The id of `e` is the name `dotted`, or ends in a dot and that name. -/
def answersTo (e : Entry) (dotted : String) : Bool :=
  e.id == dotted || e.id.endsWith ("." ++ dotted)

/-- The candidates that satisfy `p`. -/
def select (t : Table) (candidates : List Nat) (p : Entry → Bool) : List Nat :=
  candidates.filter fun i => (t.entries[i]?).any p

/-- The first of the `candidates` that the dotted reference `text` names. -/
def qualifiedMatch? (t : Table) (candidates : List Nat) (text : String) : Option Nat :=
  let dotted := TypeName.qualified text
  if dotted.contains '.' then (t.select candidates (answersTo · dotted)).head? else none

/-- The type that the reference `text` denotes inside the namespace `ns`. A single type of that
simple name is taken; of several, the one that a dotted reference names, else the only one of the
same namespace, else the only one whose namespace is not empty and `ns` starts with. -/
def denotedType (t : Table) (text ns : String) : Option Nat :=
  let name := TypeName.simple text
  if name.isEmpty || t.isPredefined name then none
  else
    let candidates := t.typesNamed name
    unique? candidates <|>
      t.qualifiedMatch? candidates text <|>
      unique? (t.select candidates (·.namespace == ns)) <|>
      unique? (t.select candidates fun e => !e.namespace.isEmpty && ns.startsWith e.namespace)

/-- The types that the base list of the entry at `i` denotes. -/
def bases (t : Table) (i : Nat) : List Nat :=
  match t.entries[i]? with
  | none => []
  | some e => e.baseTypes.filterMap (t.denotedType · e.namespace)

/-- Visits the pending types depth first, appending each new one and its bases. At most `fuel` new
types are visited. -/
def chainFrom (t : Table) : (fuel : Nat) → (visited pending : List Nat) → List Nat
  | 0, visited, _ => visited
  | fuel + 1, visited, pending =>
    match pending.dropWhile visited.contains with
    | [] => visited
    | i :: rest => chainFrom t fuel (visited ++ [i]) (t.bases i ++ rest)

/-- The type at position `type` and all its base types, nearest first. -/
def ancestry (t : Table) (type : Nat) : List Nat :=
  t.chainFrom (t.size + 1) [] [t.leadPart type]

/-- The first base type of `type` that is a class. -/
def superclass? (t : Table) (type : Nat) : Option Nat :=
  (t.bases (t.leadPart type)).find? fun i => (t.entries[i]?).any (·.kind == .class)

/-! ## Members -/

/-- The members of the one type `type` that go by `name` and that `accept` takes. -/
def membersNamed (t : Table) (type : Nat) (name : String) (accept : Entry → Bool) : List Nat :=
  t.select (t.membersOf type) fun e => e.names.contains name && accept e

/-- The members called `name` that `accept` takes, on the nearest type of the chain of `type` that
has one. -/
def nearestMembers (t : Table) (type : Nat) (name : String) (accept : Entry → Bool) : List Nat :=
  ((t.ancestry type).map (t.membersNamed · name accept)).find? (!·.isEmpty) |>.getD []

/-- The first of the `candidates` that takes `args` arguments, else the first of all. -/
def bestOverload (t : Table) (candidates : List Nat) (args : Nat) : Option Nat :=
  match candidates with
  | [] => none
  | [only] => some only
  | many => (t.select many (·.paramCount == args)).head? <|> many.head?

/-- The method that a call of `name` with `args` arguments denotes. With a `receiver` the call binds
to a method of its type or not at all. Without one it binds to a method of the enclosing type
`context`, else to the methods of that name in the project if they all belong to one type. -/
def calledMethod (t : Table) (name : String) (receiver context : Option Nat) (args : Nat) :
    Option Nat :=
  let isMethod (e : Entry) : Bool := e.kind == .method
  match receiver with
  | some type => t.bestOverload (t.nearestMembers type name isMethod) args
  | none =>
    (context.bind fun type => t.bestOverload (t.nearestMembers type name isMethod) args) <|>
      let everywhere := t.methodsNamed name
      let owners := (everywhere.map fun i => (t.entries[i]?).bind t.owner?).eraseDups
      if owners.length = 1 then t.bestOverload everywhere args else none

/-- The constructor of `type` that takes `args` arguments. -/
def calledConstructor (t : Table) (type : Nat) (args : Nat) : Option Nat :=
  (t.select (t.membersOf (t.leadPart type)) fun e =>
    e.kind == .constructor && e.paramCount == args).head?

/-- The property or field called `name` on `type` or its bases. -/
def dataMember (t : Table) (type : Nat) (name : String) : Option Nat :=
  (t.nearestMembers type name (·.kind.isData)).head?

/-- The type of the value that the member at position `i` yields. -/
def valueType? (t : Table) (i : Nat) : Option Nat := do
  let e ← t.entries[i]?
  let text ← e.valueType
  t.denotedType text e.namespace

end CodeAtlas.Table
