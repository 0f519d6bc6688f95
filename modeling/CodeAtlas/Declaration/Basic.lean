import CodeAtlas.Symbol.Signature

/-!
# Declarations of one file

The declarations of a file are its types and their members, in the order of the text. Namespaces and
type bodies are looked into, everything else is not: a member outside a type and a function inside a
member are no declarations.

## Main definitions

* `Declaration`: one type or member as its file declares it.
* `Tree.declarations`: the declarations of a file.
-/
namespace CodeAtlas

/-- One type or member as its file declares it. -/
structure Declaration where
  /-- The last part of the declaration's id: the signature of a member, the name of a nested type,
  the namespace and name of any other type. -/
  segment : String
  name : String
  /-- The names by which the declaration can be addressed, several for `int a, b;`. -/
  names : List String
  kind : SymbolKind
  memberKind : Option MemberKind
  path : String
  start : Nat
  length : Nat
  «namespace» : String
  /-- The position of the enclosing type in the list that holds the declaration. -/
  parent : Option Nat
  /-- The type of a field or property, or the type that a method returns, as written. -/
  valueType : Option String
  /-- The entries of the base list, as written. -/
  baseTypes : List String
  paramCount : Nat
  /-- The type is declared `partial`. -/
  isPartial : Bool
deriving DecidableEq, Inhabited

namespace Declaration

/-- The offset after the last byte of the declaration. -/
def stop (d : Declaration) : Nat := d.start + d.length

/-- The declaration of a type called `name`. -/
def ofType (t : Tree) (source path ns name : String) (kind : SymbolKind) (parent : Option Nat) :
    Declaration where
  segment := if parent.isSome then name else qualify ns name
  name := name
  names := [name]
  kind := kind
  memberKind := none
  path := path
  start := t.start
  length := t.length
  «namespace» := ns
  parent := parent
  valueType := none
  baseTypes := t.baseTypes.map (·.text source)
  paramCount := 0
  isPartial := t.hasModifier source "partial"

/-- The type of the value that a member `t` of that `kind` yields. -/
def yieldedType? (t : Tree) (kind : MemberKind) : Option Tree :=
  match kind with
  | .method | .operator => t.returnType?
  | .constructor | .destructor => none
  | _ => t.declaredType?

/-- The declaration of a member of the type at position `parent`. -/
def ofMember? (t : Tree) (source path ns : String) (kind : MemberKind) (parent : Nat) :
    Option Declaration := do
  let name ← t.declaredName? source
  let signature ← t.signature? source
  return {
    segment := signature
    name := name
    names := if t.declaresList kind then t.declaratorNames source else [name]
    kind := kind.symbolKind
    memberKind := some kind
    path := path
    start := t.start
    length := t.length
    «namespace» := ns
    parent := some parent
    valueType := (yieldedType? t kind).map (·.text source)
    baseTypes := []
    paramCount := (t.parameterTypes source).length
    isPartial := false }

end Declaration

namespace Tree

mutual

/-- The declarations that a node contributes, the first of which gets position `next`. -/
def declarationsAt (source path ns : String) (parent : Option Nat) (next : Nat) :
    Tree → List Declaration
  | node d cs =>
    let t := node d cs
    if t.isNamespace then
      let inner := qualify ns ((t.declaredName? source).getD "")
      declarationsOf source path inner parent next (t.fieldIndex? "body") cs
    else
      match t.typeKind?, t.memberKind?, parent with
      | some kind, _, _ =>
        match t.declaredName? source with
        | none => []
        | some name =>
          Declaration.ofType t source path ns name kind parent ::
            declarationsOf source path ns (some next) (next + 1) (t.fieldIndex? "body") cs
      | none, some kind, some owner =>
        if t.isLocalFunction then []
        else (Declaration.ofMember? t source path ns kind owner).toList
      | _, _, _ => []

/-- The declarations inside the child at a given position, in the namespace `ns` and the type at
position `parent`. The first of them gets the position `next`. -/
def declarationsOf (source path ns : String) (parent : Option Nat) (next : Nat) :
    Option Nat → List Tree → List Declaration
  | none, _ => []
  | some _, [] => []
  | some 0, node _ cs :: _ => declarationsIn source path ns parent next cs
  | some (i + 1), _ :: cs => declarationsOf source path ns parent next (some i) cs

/-- The declarations among some siblings, in the namespace `ns` and the type at position `parent`,
from position `next` on. A file-scoped namespace applies to what it holds and to all siblings that
follow it. -/
def declarationsIn (source path ns : String) (parent : Option Nat) (next : Nat) :
    List Tree → List Declaration
  | [] => []
  | node d kids :: cs =>
    let c := node d kids
    if !c.named then declarationsIn source path ns parent next cs
    else if c.isFileScope then
      let inner := ((c.declaredName? source).map (qualify ns)).getD ns
      let held := declarationsIn source path inner parent next kids
      held ++ declarationsIn source path inner parent (next + held.length) cs
    else
      let own := declarationsAt source path ns parent next c
      own ++ declarationsIn source path ns parent (next + own.length) cs

end

/-- The declarations of the file at `path`. The parent of each stands earlier in the list. -/
def declarations (t : Tree) (source path : String) : List Declaration :=
  declarationsIn source path "" none 0 t.children

end Tree

end CodeAtlas
