import CodeAtlas.Member
import CodeAtlas.Syntax.Content
import CodeAtlas.Text.Line

/-!
# Comparing members

The lines of a new text are marked that belong to a member whose logic changed: one that the old
text does not have, or has with another content. Layout and comments do not count. Contents can be
compared by a key, such as a digest.

## Main definitions

* `LineReport`: a line of the new text.
* `Member.counterpart?`: the member of the old text that a member is compared with.
* `compareMembersBy`, `compareMembers`: the marked lines of the new text.
-/
namespace CodeAtlas

/-- A line of the new text. Lines are counted from one. -/
structure LineReport where
  number : Nat
  text : String
  /-- The line belongs to a member whose logic changed. -/
  changed : Bool
deriving DecidableEq, Inhabited

namespace Member

/-- The members `a` and `b` have one signature and lie in types of the same names. -/
def sameIdentity (a b : Member) : Bool :=
  a.containers == b.containers && a.signature == b.signature

/-- The member among `old` that `m` is compared with: the first with its identity, else the only one
with its signature. -/
def counterpart? (old : List Member) (m : Member) : Option Member :=
  match old.find? (·.sameIdentity m) with
  | some found => some found
  | none =>
    match old.filter (·.signature == m.signature) with
    | [only] => some only
    | _ => none

/-- The member `m` has a counterpart among `old` whose content has the same `key`. -/
def isUnchanged {κ : Type} [DecidableEq κ] (key : Content → κ) (oldSource newSource : String)
    (old : List Member) (m : Member) : Bool :=
  (m.counterpart? old).any fun o =>
    key (o.tree.content oldSource) == key (m.tree.content newSource)

/-- The member `m` touches the given `row` of its text. -/
def touches (source : String) (m : Member) (row : Nat) : Bool :=
  Text.rowAt source m.start ≤ row && row ≤ Text.rowAt source m.stop

end Member

/-- The lines of the text `new`; those of members whose contents have got another `key` since `old`
are marked. -/
def compareMembersBy {κ : Type} [DecidableEq κ] (key : Content → κ) (grammar : Grammar)
    (old new : String) : List LineReport :=
  let oldMembers := (grammar old).members old
  let changed := ((grammar new).members new).filter (!·.isUnchanged key old new oldMembers)
  (Text.lines new).zipIdx.map fun (text, row) =>
    { number := row + 1, text, changed := changed.any (·.touches new row) }

/-- The lines of the text `new`; those of members that changed since `old` are marked. -/
def compareMembers (grammar : Grammar) (old new : String) : List LineReport :=
  compareMembersBy id grammar old new

end CodeAtlas
