import CodeAtlas.Graph.Basic
import CodeAtlas.Patch.Fragment

/-!
# The type that a fragment belongs to

The owner of a fragment is sought among the types of the project in three ways, one after the other:
by the type that the fragment declares, by the name of its first constructor, and by its first
method whose name occurs in one type only.

## Main definitions

* `OwnerSearch`: the outcome of one way.
* `ownerByContainer`, `ownerByConstructor`, `ownerByMethod`: the three ways.
* `findOwner?`: the owner of a fragment.
-/
namespace CodeAtlas

/-- A type of the project that a fragment is to be merged into. -/
structure Owner where
  typeId : String
  typeName : String
  path : String
  start : Nat
deriving DecidableEq, Inhabited

def Owner.ofNode (n : Symbol) : Owner where
  typeId := n.id
  typeName := n.name
  path := n.path
  start := n.start

/-- The outcome of a search for the owner of a fragment. -/
inductive OwnerSearch where
  | found (target : Owner)
  | ambiguous
  | notFound
deriving DecidableEq, Inhabited

/-- An id without a suffix `#N`. -/
def withoutOrdinal (id : String) : String :=
  let digits := (id.toList.reverse.takeWhile (· != '#')).reverse
  if digits.length < id.length && !digits.isEmpty && digits.all Char.isDigit then
    String.ofList (id.toList.take (id.length - digits.length - 1))
  else id

/-- One of the `names` of members is already declared directly in `type`. -/
def declaresMember (g : SymbolGraph) (names : List String) (type : Symbol) : Bool :=
  (g.symbolsIn type.path).any fun n =>
    n.kind.isDeclaration && !n.kind.isType && names.contains n.name &&
      (g.enclosingType? n).any (·.id == type.id)

/-- The type called `name`. The parts of a partial type count as one type: the part that already
declares a member of `fragment` is taken, else the first part. -/
def ownerNamed (g : SymbolGraph) (fragment : Fragment) (name : String) : OwnerSearch :=
  match (g.named name none).filter (·.kind.isType) with
  | [] => .notFound
  | first :: rest =>
    let types := first :: rest
    let root := withoutOrdinal first.id
    if types.any (withoutOrdinal ·.id != root) then .ambiguous
    else
      let names := fragment.members.map (·.name)
      let part := types.find? (declaresMember g names) <|> types.find? (·.id == root)
      .found (.ofNode (part.getD first))

/-- The type that `fragment` declares. -/
def ownerByContainer (g : SymbolGraph) (fragment : Fragment) : OwnerSearch :=
  match fragment.container with
  | some name => ownerNamed g fragment name
  | none => .notFound

/-- The type that the first constructor of `fragment` is named after, if it is a bare list of
members. -/
def ownerByConstructor (g : SymbolGraph) (fragment : Fragment) : OwnerSearch :=
  if fragment.container.isSome then .notFound
  else
    match fragment.members.find? (·.kind == .constructor) with
    | some m => ownerNamed g fragment m.name
    | none => .notFound

/-- The ids of the types of `g` that declare a method called `name`. -/
def methodOwners (g : SymbolGraph) (name : String) : List String :=
  (((g.named name (some .method)).filterMap g.enclosingType?).map (·.id)).eraseDups

/-- The only type that declares a method of the first name in a list that has one. Names with
several owners are passed over; `sawAmbiguous` says that there were some. -/
def firstOwner (g : SymbolGraph) (sawAmbiguous : Bool) : List String → OwnerSearch
  | [] => if sawAmbiguous then .ambiguous else .notFound
  | name :: rest =>
    match methodOwners g name with
    | [] => firstOwner g sawAmbiguous rest
    | [owner] =>
      match g.node? owner with
      | some n => .found (.ofNode n)
      | none => firstOwner g sawAmbiguous rest
    | _ => firstOwner g true rest

/-- The only type that declares a method of `fragment`. -/
def ownerByMethod (g : SymbolGraph) (fragment : Fragment) : OwnerSearch :=
  if fragment.container.isSome then .notFound
  else firstOwner g false ((fragment.members.filter (·.kind == .method)).map (·.name))

/-- The owner of `fragment`: what the first way finds that finds something. -/
def findOwner? (g : SymbolGraph) (fragment : Fragment) : Option Owner :=
  [ownerByContainer, ownerByConstructor, ownerByMethod].findSome? fun way =>
    match way g fragment with
    | .found target => some target
    | _ => none

end CodeAtlas
