import CodeAtlas.Declaration.Resolution
import CodeAtlas.Text.Word

/-!
# The types of expressions

The receiver of a member access decides which member is meant, so the references in a body are read
with a guess at the static type of every expression. A type is a position in the table of
declarations.

The type of an expression follows from that of at most one other expression, which is mostly a part
of it. Only for a call whose function is a member binding it is the condition of the conditional
access around the call, which may hold the call itself: on such a tree the search for the type goes
round in a circle. It is therefore told how many steps it may take, and a search that would need
more has no outcome.

## Main definitions

* `Reader`: what a walk through one file looks things up in.
* `Place`, `Locals`: where in the file the walk is, and which names are bound there.
* `Reader.typeOf`: the type of an expression.
* `Reader.callTarget?`: the method that a call denotes.
-/
namespace CodeAtlas

/-- Where a walk through a file is. -/
structure Place where
  /-- The entry that references are attributed to. -/
  node : Option Nat := none
  /-- The entry of the enclosing type. -/
  type : Option Nat := none
  /-- The namespace in which types are looked up. -/
  «namespace» : String := ""
deriving DecidableEq, Inhabited

/-- The names bound inside a member with the types of their values, the latest first. -/
abbrev Locals := List (String × Option Nat)

namespace Locals

def binds (ls : Locals) (name : String) : Bool :=
  (ls.lookup name).isSome

/-- Binds `name` to a value of this `type`, which hides earlier bindings of the name. -/
def bind (ls : Locals) (name : String) (type : Option Nat) : Locals :=
  (name, type) :: ls

end Locals

/-- What a walk through one file looks things up in. -/
structure Reader where
  table : Table
  /-- The text of the file. -/
  source : String
  /-- The path of the file, as its declarations have it. -/
  path : String
  /-- Whether parameters, locals, literals, keywords and control flow are symbols too. -/
  granular : Bool
  /-- How many steps the search for the type of an expression may take. -/
  steps : Nat

/-! ## Parts of expressions -/

namespace Tree

/-- The identifier of the simple or generic name `t`. -/
def nameSite (t : Tree) : Tree :=
  if t.kind == "generic_name" then t.leadingIdentifier?.getD t else t

/-- The expression whose value the conditional access `t` tests. -/
def condition? (t : Tree) : Option Tree :=
  t.field? "condition" <|> t.namedChildren.head?

/-- The condition of the innermost conditional access among some ancestors, nearest first, with the
ancestors of that condition. -/
def conditionAbove? : List Tree → Option (Tree × List Tree)
  | [] => none
  | a :: above =>
    if a.kind == "conditional_access_expression" then a.condition?.map (·, a :: above)
    else conditionAbove? above

/-- The number of arguments of the call or object creation `t`. -/
def argumentCount (t : Tree) : Nat :=
  match t.field? "arguments" with
  | some args => args.namedChildren.countP (·.kind == "argument")
  | none => 0

end Tree

/-- How the function of a call is named. -/
inductive Callee where
  /-- By its name alone. -/
  | plain (site : Tree)
  /-- As a member of a receiver, which is given with its ancestors. -/
  | member (receiver : Tree) (above : List Tree) (site : Tree)

/-- Reads the function of `call`, whose ancestors are `above`. -/
def Tree.callee? (above : List Tree) (call : Tree) : Option Callee := do
  let function ← call.field? "function"
  match function.kind with
  | "identifier" | "generic_name" => return .plain function.nameSite
  | "member_access_expression" =>
    let name ← function.field? "name"
    let receiver ← function.field? "expression"
    return .member receiver (function :: call :: above) name.nameSite
  | "member_binding_expression" =>
    let name ← function.field? "name"
    let (receiver, around) ← conditionAbove? above
    return .member receiver around name.nameSite
  | "conditional_access_expression" =>
    let binding ← function.namedChildren.reverse.find? (·.kind == "member_binding_expression")
    let name ← binding.field? "name"
    let receiver ← function.condition?
    return .member receiver (function :: call :: above) name.nameSite
  | _ => none

namespace Reader

def text (r : Reader) (t : Tree) : String :=
  t.text r.source

/-- The type that the node `t` names as a type reference. -/
def named? (r : Reader) (place : Place) (t : Tree) : Option Nat :=
  r.table.denotedType (r.text t) place.namespace

/-- The type that a dotted expression such as `App.Models.Order` names. Its first segment must not
be bound, and it may hold nothing but letters, numbers, underscores, dots and white space. -/
def dottedType? (r : Reader) (place : Place) (locals : Locals) (t : Tree) : Option Nat :=
  let text := r.text t
  let dotted := text.toList.all fun c =>
    Text.isAlphanumeric c || c == '_' || c == '.' || Text.isBlank c
  let head := String.ofList (Text.trimChars (text.toList.takeWhile (· != '.')))
  if dotted && !locals.binds head then r.table.denotedType text place.namespace else none

/-- The type of the name `t` used as an expression: that of the local of this name, else that of the
member of the enclosing type, else the type of this name. -/
def identifierType (r : Reader) (place : Place) (locals : Locals) (t : Tree) : Option Nat :=
  let name := r.text t
  match locals.lookup name with
  | some type => type
  | none =>
    match place.type.bind (r.table.dataMember · name) with
    | some member => r.table.valueType? member
    | none => r.table.denotedType name place.namespace

/-- The method that a `call` by the plain name `site` denotes. A bound name denotes none. -/
def plainCall? (r : Reader) (place : Place) (locals : Locals) (call site : Tree) : Option Nat :=
  let name := r.text site
  if locals.binds name then none
  else r.table.calledMethod name none place.type call.argumentCount

/-- The type of an expression, found in at most `fuel` steps. The outcome is `none` if that is too
few, and `some none` if the type is unknown. -/
def typeOf (r : Reader) (place : Place) (locals : Locals) :
    (fuel : Nat) → (above : List Tree) → Tree → Option (Option Nat)
  | 0, _, _ => none
  | fuel + 1, above, t =>
    match t.kind with
    | "identifier" => some (r.identifierType place locals t)
    | "this_expression" | "this" => some place.type
    | "base_expression" | "base" => some (place.type.bind r.table.superclass?)
    | "member_access_expression" =>
      match t.field? "expression", t.field? "name" with
      | some receiver, some name =>
        (typeOf r place locals fuel (t :: above) receiver).map fun type =>
          match type with
          | some type => (r.table.dataMember type (r.text name.nameSite)).bind r.table.valueType?
          | none => r.dottedType? place locals t
      | _, _ => some none
    | "invocation_expression" =>
      match t.callee? above with
      | none => some none
      | some (.plain site) => some ((r.plainCall? place locals t site).bind r.table.valueType?)
      | some (.member receiver around site) =>
        (typeOf r place locals fuel around receiver).map fun type => do
          let type ← type
          let called ← r.table.calledMethod (r.text site) (some type) none t.argumentCount
          r.table.valueType? called
    | "object_creation_expression" | "cast_expression" =>
      some ((t.field? "type").bind (r.named? place))
    | "as_expression" => some ((t.field? "right").bind (r.named? place))
    | "generic_name" | "qualified_name" => some (r.named? place t)
    | "parenthesized_expression" | "equals_value_clause" | "await_expression"
    | "postfix_unary_expression" =>
      match t.namedChildren.head? with
      | some inner => typeOf r place locals fuel (t :: above) inner
      | none => some none
    | _ => some none

/-- The type of the expression `t` with the ancestors `above`, unknown if the search for it takes
too long. -/
def typeOf? (r : Reader) (place : Place) (locals : Locals) (above : List Tree) (t : Tree) :
    Option Nat :=
  (r.typeOf place locals r.steps above t).join

/-- The method that `call` denotes and the node that names it. -/
def callTarget? (r : Reader) (place : Place) (locals : Locals) (above : List Tree) (call : Tree) :
    Option (Nat × Tree) := do
  match ← call.callee? above with
  | .plain site => (r.plainCall? place locals call site).map (·, site)
  | .member receiver around site =>
    let type ← r.typeOf? place locals around receiver
    (r.table.calledMethod (r.text site) (some type) none call.argumentCount).map (·, site)

end Reader

end CodeAtlas
