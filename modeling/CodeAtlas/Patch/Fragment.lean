import CodeAtlas.Member

/-!
# Fragments

A fragment is code without a place: either it declares the type that its members belong to, or it is
a bare list of members and is read inside a class made for that purpose.

## Main definitions

* `Fragment`: a fragment with its text as it was read.
* `Fragment.parse`: reading a fragment.
* `Fragment.members`: the members that a fragment brings.
-/
namespace CodeAtlas

/-- The name of the class in which a bare list of members is read. -/
def hostName : String := "__FragmentHost__"

namespace Tree

mutual

/-- The name in `source` of the first type declared in a node. Only namespaces, their bodies and
nodes made by error recovery are looked into. -/
def containerIn? (source : String) : Tree → Option String
  | node _ cs => containerAmong? source cs

/-- The name in `source` of the first type declared among the named nodes of a list. A type without
a name ends the search. -/
def containerAmong? (source : String) : List Tree → Option String
  | [] => none
  | c :: cs =>
    if !c.named then containerAmong? source cs
    else if c.typeKind?.isSome then c.declaredName? source
    else if c.isNamespace || c.kind == "declaration_list" || c.kind == "ERROR" then
      match containerIn? source c with
      | some found => some found
      | none => containerAmong? source cs
    else containerAmong? source cs

end

end Tree

/-- A fragment. -/
structure Fragment where
  /-- The text as it was read. -/
  source : String
  tree : Tree
  /-- The name of the type that the fragment declares. -/
  container : Option String

namespace Fragment

/-- The text of a class around the bare list of members `text`. -/
def wrap (text : String) : String :=
  "class " ++ hostName ++ "\n\x7b\n" ++ text ++ "\n\x7d\n"

/-- Reads the fragment `text`. -/
def parse (grammar : Grammar) (text : String) : Fragment :=
  let tree := grammar text
  match tree.containerIn? text with
  | some name => { source := text, tree, container := some name }
  | none => { source := wrap text, tree := grammar (wrap text), container := none }

/-- The type around the members of `f` that count. -/
def owner (f : Fragment) : String :=
  f.container.getD hostName

/-- The members directly in the type that `f` declares or is read in. -/
def members (f : Fragment) : List Member :=
  (f.tree.members f.source).filter (·.containers == [f.owner])

end Fragment

end CodeAtlas
