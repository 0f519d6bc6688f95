import CodeAtlas.Symbol.Signature

/-!
# Members of a text

The members of a text, each with the types around it. Unlike the declarations of a project they need
not lie in a type, and a list of declarators is one member.

## Main definitions

* `Member`: a member declaration and its surroundings.
* `Tree.members`: the members in a syntax tree.
* `Tree.directMembers`: the members of a type itself.
* `Member.leadingComment?`: where the comments directly above a member start.
-/
namespace CodeAtlas

/-- A member declaration and its surroundings. -/
structure Member where
  tree : Tree
  kind : MemberKind
  name : String
  signature : String
  /-- The names of the types around the member, outermost first. -/
  containers : List String
  /-- The siblings in front of the member, nearest first. -/
  preceding : List Tree

namespace Member

def start (m : Member) : Nat := m.tree.start
def stop (m : Member) : Nat := m.tree.stop

/-- The start of the first of the comments that directly precede the member. -/
def leadingComment? (m : Member) : Option Nat :=
  ((m.preceding.takeWhile (·.kind == "comment")).getLast?).map (·.start)

/-- The start of the member together with the comments that directly precede it. -/
def startWithComments (m : Member) : Nat :=
  m.leadingComment?.getD m.start

end Member

namespace Tree

/-- The member of that `kind` which `t` declares inside the types `containers` and behind the
siblings `preceding`. Local functions are no members. -/
def member? (t : Tree) (source : String) (containers : List String) (preceding : List Tree)
    (kind : MemberKind) : Option Member :=
  if t.isLocalFunction then none
  else
    match t.declaredName? source, t.signature? source with
    | some name, some signature => some { tree := t, kind, name, signature, containers, preceding }
    | _, _ => none

mutual

/-- The members in a node that lies in the types `containers` and behind the siblings `preceding`. A
member is not looked into. -/
def membersAt (source : String) (containers : List String) (preceding : List Tree) :
    Tree → List Member
  | node d cs =>
    let t := node d cs
    match t.memberKind? with
    | some kind => (t.member? source containers preceding kind).toList
    | none =>
      let inner :=
        if t.typeKind?.isSome then containers ++ [(t.declaredName? source).getD ""] else containers
      membersIn source inner [] cs

/-- The members in the named nodes of a list, which lie in the types `containers` and behind the
siblings `preceding`. -/
def membersIn (source : String) (containers : List String) (preceding : List Tree) :
    List Tree → List Member
  | [] => []
  | c :: cs =>
    (if c.named then membersAt source containers preceding c else []) ++
      membersIn source containers (c :: preceding) cs

end

/-- The members in `t`, in the order of the text. -/
def members (t : Tree) (source : String) : List Member :=
  membersAt source [] [] t

/-- The members of the type `t` that are not in a type inside it. -/
def directMembers (t : Tree) (source : String) : List Member :=
  (t.members source).filter (·.containers.length == 1)

end Tree

end CodeAtlas
