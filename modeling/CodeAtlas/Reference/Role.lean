import CodeAtlas.Graph.Node
import CodeAtlas.Reference.Expression

/-!
# What a node contributes

A node is read in a *role*: as code, as a type reference, as the function of a call, and so on. The
role and the kind of a node decide what it contributes itself, which names it binds, and in which
role each of its children is read. All this is said by a *plan*, which never looks further than the
node needs; the walk through the file only follows the plans.

## Main definitions

* `Contribution`: a link, an implemented interface or a granular symbol.
* `Role`: how a node is read.
* `Plan`, `Reader.plan`: what a node contributes in a role, and how its children are read.
-/
namespace CodeAtlas

/-- Something that a file adds to the symbol graph. -/
inductive Contribution where
  /-- A link of the entry `source`. -/
  | link (source : Nat) (link : Link)
  /-- A type that implements an interface, both by id. -/
  | implementation (interface implementer : String)
  /-- A symbol that is not a declaration. -/
  | granular (kind : SymbolKind) (name : String) (start length : Nat)
deriving DecidableEq, Inhabited

/-- How a node is read. -/
inductive Role where
  /-- Not at all. -/
  | skipped
  /-- As a declaration, statement or expression. -/
  | code
  /-- As a list of code in which a file-scoped namespace applies to what follows it. -/
  | sequence
  /-- As a file-scoped namespace in such a list. -/
  | fileScope
  /-- As a type reference. -/
  | type
  /-- As a name of which only the type arguments count. -/
  | arguments
  /-- As a list of type references. -/
  | types
  /-- As the base list of a type. -/
  | bases
  /-- As an entry of a base list that passes arguments on. -/
  | primaryBase
  /-- As a type in a base list. -/
  | base
  /-- As the body of a type. -/
  | body
  /-- As the function of a call. -/
  | callee
  /-- As a list of parameters. -/
  | parameters
  /-- As a parameter. -/
  | parameter
  /-- As a declaration of variables, which are bound if they are local. -/
  | variables (isLocal : Bool)
  /-- As a declarator of variables with the given declared type. -/
  | declarator (declared : Option Nat) (isLocal : Bool)
  /-- As the initializer of an object of the given type. -/
  | initializer (created : Option Nat)
  /-- As an assignment in such an initializer. -/
  | assignment (created : Option Nat)
  /-- As a name that is bound to a value of the given type and shows as a local variable or not. -/
  | binder (type : Option Nat) (shown : Bool)
deriving DecidableEq, Inhabited

/-- What a node contributes, and how its children are read. -/
structure Plan where
  /-- What the node itself contributes. -/
  own : List Contribution := []
  /-- The place of the children. -/
  place : Place
  /-- The names bound for the first child. -/
  locals : Locals
  /-- The role of a child, by its position. -/
  role : Nat → Tree → Role := fun _ _ => .skipped
  /-- The names bound after the node, if they are not those bound after its last child. -/
  after : Option Locals := none

/-! ## Roles of the children -/

namespace Role

/-- A named child `c` is code. -/
def eachCode (_ : Nat) (c : Tree) : Role :=
  if c.named then .code else .skipped

/-- A named child `c` is part of a sequence. -/
def eachInSequence (_ : Nat) (c : Tree) : Role :=
  if !c.named then .skipped else if c.isFileScope then .fileScope else .code

/-- A part `c` of a namespace, unless it is its name. -/
def ofNamespace (_ : Nat) (c : Tree) : Role :=
  if !c.named || c.label == some "name" then .skipped
  else if c.kind == "declaration_list" then .sequence
  else .code

/-- A named child `c` is a type. -/
def eachType (_ : Nat) (c : Tree) : Role :=
  if c.named then .type else .skipped

/-- The child at this `position` has this `role`, the others have none. -/
def only (position : Option Nat) (role : Role) (i : Nat) (_ : Tree) : Role :=
  if position == some i then role else .skipped

/-- The child at this `position` has this `role`, the others have the roles of `rest`. -/
def first (position : Option Nat) (role : Role) (rest : Nat → Tree → Role) (i : Nat) (c : Tree) :
    Role :=
  if position == some i then role else rest i c

/-- The type arguments of `List<T>` or `A.B<T>`. -/
def ofArguments (t : Tree) : Nat → Tree → Role :=
  match t.kind with
  | "generic_name" => only (t.kindIndex? "type_argument_list") .types
  | "qualified_name" | "alias_qualified_name" =>
    if (t.field? "name").any (·.kind == "generic_name") then only (t.fieldIndex? "name") .arguments
    else fun _ _ => .skipped
  | _ => fun _ _ => .skipped

/-- A part `c` of a member. -/
def ofMember (_ : Nat) (c : Tree) : Role :=
  if !c.named || c.label == some "name" then .skipped
  else
    match c.kind with
    | "attribute_list" | "modifier" | "explicit_interface_specifier" | "type_parameter_list"
    | "type_parameter_constraints_clause" => .skipped
    | kind =>
      if c.label == some "returns" || c.label == some "type" then .type
      else
        match kind with
        | "parameter_list" | "bracketed_parameter_list" => .parameters
        | "variable_declaration" => .variables false
        | _ => .code

/-- The parts of the type declaration `t`: its parameters, its bases and its body. -/
def ofTypeDeclaration (t : Tree) : Nat → Tree → Role :=
  first (t.fieldIndex? "parameters" <|> t.kindIndex? "parameter_list") .parameters <|
    first (t.kindIndex? "base_list") .bases <|
      only (t.fieldIndex? "body") .body

/-- An entry `c` of a base list. -/
def ofBases (_ : Nat) (c : Tree) : Role :=
  if !c.named then .skipped
  else
    match c.kind with
    | "primary_constructor_base_type" => .primaryBase
    | "argument_list" | "comment" => .skipped
    | _ => .base

/-- The type and the arguments of the entry `t` of a base list. -/
def ofPrimaryBase (t : Tree) : Nat → Tree → Role :=
  first (t.fieldIndex? "type" <|> t.namedIndex? fun _ => true) .base <|
    only (t.kindIndex? "argument_list") .code

/-- The parts of the parameter `t` that are code: those in no field. -/
def ofParameter (t : Tree) : Nat → Tree → Role :=
  first (t.fieldIndex? "type") .type fun _ c =>
    if c.named && c.label.isNone && c.kind != "attribute_list" && c.kind != "modifier" then .code
    else .skipped

/-- A part `c` of a lambda. Its untyped parameters are bound to values of unknown type. -/
def ofLambda (_ : Nat) (c : Tree) : Role :=
  if !c.named then .skipped
  else if c.kind == "implicit_parameter" ||
    (c.kind == "identifier" && c.label == some "parameters") then .binder none false
  else .code

/-- The parts of a `foreach`, whose variable has the given type. -/
def ofForeach (type : Option Nat) (_ : Nat) (c : Tree) : Role :=
  if !c.named then .skipped
  else if c.label == some "type" then .type
  else if c.label == some "left" then .binder type true
  else .code

/-- A part `c` of a pattern whose variables have this `type`. -/
def ofPattern (type : Option Nat) (_ : Nat) (c : Tree) : Role :=
  if !c.named then .skipped
  else if c.label == some "type" then .type
  else if c.label == some "name" || c.kind == "single_variable_designation" then .binder type true
  else .code

/-- A part `c` of an expression with a type operand. -/
def ofTypeOperand (_ : Nat) (c : Tree) : Role :=
  if !c.named then .skipped else if c.label == some "type" then .type else .code

/-- A node of this `kind` can be the right side of a type test. -/
def isTypeReference (kind : String) : Bool :=
  ["identifier", "generic_name", "qualified_name", "predefined_type", "array_type", "nullable_type",
    "tuple_type"].contains kind

/-- A part `c` of a type test. -/
def ofTypeTest (_ : Nat) (c : Tree) : Role :=
  if !c.named then .skipped
  else if c.label == some "right" && isTypeReference c.kind then .type
  else .code

/-- A part `c` of an accessor or labelled statement, unless it is its name. -/
def ofLabelled (_ : Nat) (c : Tree) : Role :=
  if c.named && c.label != some "name" && c.kind != "identifier" then .code else .skipped

/-- The type arguments of the name, and the receiver, of the member access `t`. -/
def ofMemberAccess (t : Tree) : Nat → Tree → Role :=
  first (t.fieldIndex? "name") .arguments <| only (t.fieldIndex? "expression") .code

/-- The function and the arguments of the call `t`. -/
def ofCall (t : Tree) : Nat → Tree → Role :=
  first (t.fieldIndex? "function") .callee <| only (t.fieldIndex? "arguments") .code

/-- The parts of the object creation `t`, which makes an object of the type `created`. -/
def ofCreation (t : Tree) (created : Option Nat) : Nat → Tree → Role :=
  first (t.fieldIndex? "type") .type <|
    first (t.fieldIndex? "arguments") .code <|
      only (t.fieldIndex? "initializer" <|> t.kindIndex? "initializer_expression")
        (.initializer created)

/-- An entry `c` of an initializer for an object of the type `created`. -/
def ofInitializer (created : Option Nat) (_ : Nat) (c : Tree) : Role :=
  if !c.named then .skipped
  else if c.kind == "assignment_expression" then .assignment created
  else .code

end Role

/-! ## Plans -/

namespace Reader

/-- A link from `place` to the entry at position `target`. Nothing links to itself, and no part of a
type to another part. -/
def linkTo (r : Reader) (place : Place) (target : Nat) (kind : LinkKind) (site : Tree) :
    List Contribution :=
  match place.node, r.table.entries[target]? with
  | some source, some entry =>
    if r.table.leadPart source = r.table.leadPart target then []
    else [.link source ⟨entry.id, kind, site.start, site.length⟩]
  | _, _ => []

/-- A granular symbol called `name` at `t`, if such symbols are wanted. -/
def granularAt (r : Reader) (kind : SymbolKind) (name : String) (t : Tree) : List Contribution :=
  if r.granular then [.granular kind name t.start t.length] else []

/-- A link at `site` to the type that `t` names. -/
def typeUse (r : Reader) (place : Place) (t site : Tree) : List Contribution :=
  match r.named? place t with
  | some target => r.linkTo place target .usesType site
  | none => []

/-- A link from the type at `place` to its base `t`. An interface is implemented, a class inherited
from. -/
def baseUse (r : Reader) (place : Place) (t : Tree) : List Contribution :=
  match r.named? place t with
  | none => []
  | some target =>
    match r.table.entries[target]? with
    | none => []
    | some entry =>
      if entry.kind == .interface then
        let implementer := (place.type.map r.table.leadPart).filter (· != target)
        r.linkTo place target .implements t.nameSite ++
          match implementer.bind (r.table.entries[·]?) with
          | some self => [.implementation entry.id self.id]
          | none => []
      else r.linkTo place target .inherits t.nameSite

/-- What the name `t` used as an expression contributes: an access to a member of the enclosing
type, else a use of a type. A bound name contributes nothing. -/
def identifierUse (r : Reader) (place : Place) (locals : Locals) (t : Tree) : List Contribution :=
  let name := r.text t
  if locals.binds name then []
  else
    match place.type.bind (r.table.dataMember · name) with
    | some member => r.linkTo place member .accesses t
    | none =>
      match r.table.denotedType name place.namespace with
      | some target => r.linkTo place target .usesType t
      | none => []

/-- The plan for the type reference `t`. -/
def typePlan (r : Reader) (place : Place) (locals : Locals) (t : Tree) : Plan :=
  match t.kind with
  | "predefined_type" | "implicit_type" | "array_rank_specifier" | "comment" => { place, locals }
  | "identifier" => { own := r.typeUse place t t, place, locals }
  | "generic_name" =>
    { own := r.typeUse place t t.nameSite, place, locals, role := Role.ofArguments t }
  | "qualified_name" | "alias_qualified_name" =>
    { own := r.typeUse place t t, place, locals, role := Role.ofArguments t }
  | "tuple_element" => { place, locals, role := Role.only (t.fieldIndex? "type") .type }
  | _ => { place, locals, role := Role.eachType }

/-- The plan for the declaration `t` of variables. -/
def variablesPlan (r : Reader) (place : Place) (locals : Locals) (t : Tree) (isLocal : Bool) :
    Plan :=
  let declared := ((t.field? "type").filter (·.kind != "implicit_type")).bind (r.named? place)
  { place, locals
    role := Role.first (t.fieldIndex? "type") .type fun _ c =>
      if c.named && c.kind == "variable_declarator" then .declarator declared isLocal
      else .skipped }

/-- The plan for a list of parameters at `place`. -/
def parametersPlan (place : Place) (locals : Locals) : Plan :=
  { place, locals
    role := fun _ c =>
      if !c.named then .skipped else if c.kind == "parameter" then .parameter else .code }

/-- The plan for the parameter `t`, which is bound to a value of its type. -/
def parameterPlan (r : Reader) (place : Place) (locals : Locals) (t : Tree) : Plan :=
  let type := (t.field? "type").bind (r.named? place)
  match t.field? "name" with
  | some name =>
    { own := r.granularAt .parameter (r.text name) t
      place, locals := locals.bind (r.text name) type, role := Role.ofParameter t }
  | none => { place, locals, role := Role.ofParameter t }

/-- The plan for the type declaration `t`, if it is in the table: its references are its own, and
what its parameters bind ends with it. -/
def typeDeclarationPlan (r : Reader) (place : Place) (locals : Locals) (t : Tree) : Plan :=
  match r.table.at? r.path t.start with
  | none => { place, locals }
  | some i =>
    { place := { place with node := some i, type := some i }
      locals, role := Role.ofTypeDeclaration t, after := some locals }

/-- The plan for a member. A local function is bound around itself and keeps the place of the member
that it stands in. Accessors find the value that they are given under the name `value`. -/
def memberPlan (r : Reader) (place : Place) (locals : Locals) (t : Tree) (kind : MemberKind) :
    Plan :=
  let outer :=
    match t.isLocalFunction, t.field? "name" with
    | true, some name => locals.bind (r.text name) none
    | _, _ => locals
  let entry := if t.isLocalFunction then none else r.table.at? r.path t.start
  let inner :=
    match kind with
    | .property | .indexer | .event => outer.bind "value" (entry.bind r.table.valueType?)
    | _ => outer
  { place := { place with node := entry <|> place.node }
    locals := inner, role := Role.ofMember, after := some outer }

/-- The plan for the member access `t`. If the type of its receiver is unknown it may name a type
itself. -/
def memberAccessPlan (r : Reader) (place : Place) (locals : Locals) (above : List Tree) (t : Tree) :
    Plan :=
  let receiver := (t.field? "expression").bind (r.typeOf? place locals (t :: above))
  match receiver with
  | some type =>
    let own :=
      match t.field? "name" with
      | some name =>
        match r.table.dataMember type (r.text name.nameSite) with
        | some member => r.linkTo place member .accesses name.nameSite
        | none => []
      | none => []
    { own, place, locals, role := Role.ofMemberAccess t }
  | none =>
    match r.dottedType? place locals t with
    | some target => { own := r.linkTo place target .usesType t, place, locals }
    | none => { place, locals, role := Role.ofMemberAccess t }

/-- The plan for the object creation `t`, which calls a constructor of its type. -/
def creationPlan (r : Reader) (place : Place) (locals : Locals) (t : Tree) : Plan :=
  let created := (t.field? "type").bind (r.named? place)
  let own :=
    match t.field? "type", created.bind (r.table.calledConstructor · t.argumentCount) with
    | some type, some target => r.linkTo place target .calls type
    | _, _ => []
  { own, place, locals, role := Role.ofCreation t created }

/-- The plan for an assignment `t` in an initializer. A name on its left is a member of the object,
whose type is `created`. -/
def assignmentPlan (r : Reader) (place : Place) (locals : Locals) (t : Tree)
    (created : Option Nat) : Plan :=
  let right := Role.only (t.fieldIndex? "right") .code
  match t.field? "left" with
  | none => { place, locals, role := right }
  | some left =>
    if left.kind == "identifier" then
      let own :=
        match created.bind (r.table.dataMember · (r.text left)) with
        | some member => r.linkTo place member .accesses left
        | none => []
      { own, place, locals, role := right }
    else { place, locals, role := Role.first (t.fieldIndex? "left") .code right }

/-- The plan for the statement or expression `t` by its kind. -/
def statementPlan (r : Reader) (place : Place) (locals : Locals) (above : List Tree) (t : Tree) :
    Plan :=
  match t.kind with
  | "comment" | "using_directive" | "extern_alias_directive" | "attribute_list"
  | "type_parameter_list" | "type_parameter_constraints_clause" | "name_colon" | "name_equals"
  | "member_binding_expression" | "goto_statement" | "predefined_type" | "implicit_type" =>
    { place, locals }
  | "invocation_expression" =>
    let own :=
      match r.callTarget? place locals above t with
      | some (target, site) => r.linkTo place target .calls site
      | none => []
    { own, place, locals, role := Role.ofCall t }
  | "member_access_expression" => r.memberAccessPlan place locals above t
  | "object_creation_expression" => r.creationPlan place locals t
  | "identifier" => { own := r.identifierUse place locals t, place, locals }
  | "generic_name" | "qualified_name" | "alias_qualified_name" | "array_type" | "nullable_type"
  | "tuple_type" | "pointer_type" | "type_argument_list" => r.typePlan place locals t
  | "variable_declaration" => r.variablesPlan place locals t true
  | "parameter_list" | "bracketed_parameter_list" => parametersPlan place locals
  | "lambda_expression" | "anonymous_method_expression" =>
    { place, locals, role := Role.ofLambda, after := some locals }
  | "foreach_statement" =>
    let type := ((t.field? "type").filter (·.kind != "implicit_type")).bind (r.named? place)
    { place, locals, role := Role.ofForeach type, after := some locals }
  | "catch_declaration" =>
    match t.field? "type", t.field? "name" with
    | some type, some name =>
      { place, locals := locals.bind (r.text name) (r.named? place type)
        role := Role.only (t.fieldIndex? "type") .type }
    | _, _ => { place, locals, role := Role.only (t.fieldIndex? "type") .type }
  | "declaration_expression" | "declaration_pattern" | "recursive_pattern" =>
    { place, locals, role := Role.ofPattern ((t.field? "type").bind (r.named? place)) }
  | "cast_expression" | "typeof_expression" | "default_expression" | "sizeof_expression" =>
    { place, locals, role := Role.ofTypeOperand }
  | "as_expression" | "is_expression" => { place, locals, role := Role.ofTypeTest }
  | "enum_member_declaration" => { place, locals, role := Role.only (t.fieldIndex? "value") .code }
  | "accessor_declaration" | "labeled_statement" => { place, locals, role := Role.ofLabelled }
  | "return_statement" =>
    { own := r.granularAt .statement "return" t, place, locals, role := Role.eachInSequence }
  | "throw_statement" =>
    { own := r.granularAt .statement "throw" t, place, locals, role := Role.eachInSequence }
  | "yield_statement" =>
    { own := r.granularAt .statement "yield" t, place, locals, role := Role.eachInSequence }
  | "string_literal" | "verbatim_string_literal" | "raw_string_literal" | "character_literal"
  | "interpolated_string_expression" =>
    { own := r.granularAt .stringLiteral (r.text t) t, place, locals, role := Role.eachInSequence }
  | "integer_literal" | "real_literal" =>
    { own := r.granularAt .numericLiteral (r.text t) t, place, locals }
  | "this_expression" | "base_expression" | "null_literal" | "boolean_literal" | "this" | "base" =>
    { own := r.granularAt .keyword (r.text t) t, place, locals }
  | _ => { place, locals, role := Role.eachInSequence }

/-- The place inside the namespace declaration `t`, which stands at `place`. -/
def enter (r : Reader) (place : Place) (t : Tree) : Place :=
  match t.textIn? "name" r.source with
  | none => place
  | some name =>
    { place with
      «namespace» := if place.namespace.isEmpty then name else place.namespace ++ "." ++ name }

/-- The plan for the node `t` read as code. -/
def codePlan (r : Reader) (place : Place) (locals : Locals) (above : List Tree) (t : Tree) : Plan :=
  if t.kind == "namespace_declaration" then
    { place := r.enter place t, locals, role := Role.ofNamespace }
  else if t.isFileScope then { place, locals, role := Role.eachInSequence }
  else if t.typeKind?.isSome then r.typeDeclarationPlan place locals t
  else
    match t.memberKind? with
    | some kind => r.memberPlan place locals t kind
    | none =>
      let plan := r.statementPlan place locals above t
      match t.controlFlow? with
      | some keyword => { plan with own := r.granularAt .controlFlow keyword t ++ plan.own }
      | none => plan

/-- The plan for the function `t` of a call. The link to it is the call's. -/
def calleePlan (r : Reader) (place : Place) (locals : Locals) (above : List Tree) (t : Tree) :
    Plan :=
  match t.kind with
  | "identifier" => { place, locals }
  | "generic_name" => { place, locals, role := Role.ofArguments t }
  | "member_access_expression" => { place, locals, role := Role.ofMemberAccess t }
  | _ => r.codePlan place locals above t

/-- What the node `t` contributes in this `role`, and how its children are read. -/
def plan (r : Reader) (role : Role) (place : Place) (locals : Locals) (above : List Tree)
    (t : Tree) : Plan :=
  match role with
  | .skipped => { place, locals }
  | .code => r.codePlan place locals above t
  | .sequence => { place, locals, role := Role.eachInSequence }
  | .fileScope => { place, locals, role := Role.ofNamespace }
  | .type => r.typePlan place locals t
  | .arguments => { place, locals, role := Role.ofArguments t }
  | .types => { place, locals, role := Role.eachType }
  | .bases => { place, locals, role := Role.ofBases }
  | .primaryBase => { place, locals, role := Role.ofPrimaryBase t }
  | .base => { own := r.baseUse place t, place, locals, role := Role.ofArguments t }
  | .body => { place, locals, role := Role.eachCode }
  | .callee => r.calleePlan place locals above t
  | .parameters => parametersPlan place locals
  | .parameter => r.parameterPlan place locals t
  | .variables isLocal => r.variablesPlan place locals t isLocal
  | .declarator _ _ => { place, locals, role := Role.eachCode }
  | .initializer created => { place, locals, role := Role.ofInitializer created }
  | .assignment created => r.assignmentPlan place locals t created
  | .binder type shown =>
    { own := if shown then r.granularAt .localVariable (r.text t) t else []
      place, locals := locals.bind (r.text t) type }

end Reader

end CodeAtlas
