import CodeAtlas.Symbol.Kind
import CodeAtlas.Symbol.TypeName
import CodeAtlas.Syntax.Tree

/-!
# Declarations in a syntax tree

Which nodes declare types, members and namespaces, what they are called, and the *signature* by
which two members are the same: `Name(T1, T2)` for methods, `.ctor(T1)` for constructors, `this[T]`
for indexers and the bare name for properties, fields and events.

## Main definitions

* `Tree.typeKind?`, `Tree.memberKind?`, `Tree.isNamespace`, `Tree.controlFlow?`: what a node is.
* `Tree.declaredName?`: the name that a declaration introduces.
* `Tree.parameterTypes`, `Tree.signature?`: the signature of a member.
* `Tree.baseTypes`: the types in the base list of a type.
-/
namespace CodeAtlas.Tree

/-! ## What a node declares -/

/-- The category of the member declaration `t`. Local functions are methods. -/
def memberKind? (t : Tree) : Option MemberKind :=
  match t.kind with
  | "method_declaration" | "local_function_statement" => some .method
  | "constructor_declaration" => some .constructor
  | "destructor_declaration" => some .destructor
  | "property_declaration" => some .property
  | "indexer_declaration" => some .indexer
  | "field_declaration" => some .field
  | "event_declaration" | "event_field_declaration" => some .event
  | "operator_declaration" | "conversion_operator_declaration" => some .operator
  | _ => none

/-- The kind of symbol that the type declaration `t` introduces. All types but interfaces count as
classes. -/
def typeKind? (t : Tree) : Option SymbolKind :=
  match t.kind with
  | "class_declaration" | "struct_declaration" | "record_declaration" | "record_struct_declaration"
  | "enum_declaration" => some .class
  | "interface_declaration" => some .interface
  | _ => none

def isLocalFunction (t : Tree) : Bool :=
  t.kind == "local_function_statement"

/-- The node `t` is a namespace declaration that applies to the rest of its file. -/
def isFileScope (t : Tree) : Bool :=
  t.kind == "file_scoped_namespace_declaration"

def isNamespace (t : Tree) : Bool :=
  t.kind == "namespace_declaration" || t.isFileScope

/-- The keyword of the control-flow construct `t`. -/
def controlFlow? (t : Tree) : Option String :=
  match t.kind with
  | "if_statement" => some "if"
  | "for_statement" => some "for"
  | "foreach_statement" => some "foreach"
  | "while_statement" => some "while"
  | "do_statement" => some "do"
  | "switch_statement" => some "switch"
  | "try_statement" => some "try"
  | "catch_clause" => some "catch"
  | "finally_clause" => some "finally"
  | _ => none

/-- The declaration carries a modifier such as `partial`. -/
def hasModifier (t : Tree) (source modifier : String) : Bool :=
  t.namedChildren.any fun c => c.kind == "modifier" && c.text source == modifier

/-! ## Names -/

mutual

/-- The variable declarators of a field, event or local declaration. -/
def declarators : Tree → List Tree
  | node _ cs => declaratorsIn cs

/-- The variable declarators among some nodes and inside the variable declarations among them. -/
def declaratorsIn : List Tree → List Tree
  | [] => []
  | c :: cs =>
    let here :=
      if !c.named then []
      else if c.kind == "variable_declarator" then [c]
      else if c.kind == "variable_declaration" then declarators c
      else []
    here ++ declaratorsIn cs

end

/-- The position of the name of the variable declarator `t`. -/
def declaratorNameIndex? (t : Tree) : Option Nat :=
  t.fieldIndex? "name" <|> t.kindIndex? "identifier"

/-- The name of the variable declarator `t`. -/
def boundName? (t : Tree) : Option Tree :=
  t.field? "name" <|> t.leadingIdentifier?

/-- The names declared by the declarators of `t`. -/
def declaratorNames (t : Tree) (source : String) : List String :=
  (t.declarators.filterMap (·.boundName?)).map (·.text source)

/-- The type written in the field, event or local declaration `t`. -/
def declaredType? (t : Tree) : Option Tree :=
  t.field? "type" <|> (t.firstOfKind? "variable_declaration").bind (·.field? "type")

/-- The type that the method `t` returns. -/
def returnType? (t : Tree) : Option Tree :=
  t.field? "returns" <|> t.field? "type"

/-- The name of the operator `t`: its sign, or the type that a conversion leads to. -/
def operatorLabel (t : Tree) (source : String) : String :=
  match t.textIn? "operator" source, t.textIn? "type" source with
  | some sign, _ => "operator " ++ sign
  | none, some type => "operator " ++ TypeName.normalized type
  | none, none => "operator"

/-- The text of the name field of `t`, or of its first identifier. -/
def plainName? (t : Tree) (source : String) : Option String :=
  t.textIn? "name" source <|> t.leadingIdentifier?.map (·.text source)

/-- The member `t` is a field or event that declares its names in a list of declarators. -/
def declaresList (t : Tree) (kind : MemberKind) : Bool :=
  (kind == .field || kind == .event) && (t.field? "name").isNone

/-- The name of the member `t` of this `kind`. A list of declarators is named by all its names. -/
def memberName? (t : Tree) (source : String) (kind : MemberKind) : Option String :=
  if t.declaresList kind then
    match t.declaratorNames source with
    | [] => none
    | names => some (", ".intercalate names)
  else
    match kind with
    | .indexer => some "this"
    | .operator => some (t.operatorLabel source)
    | .destructor => (t.plainName? source).map ("~" ++ ·)
    | _ => t.plainName? source

/-- The name of the member, type or namespace declaration `t`. -/
def declaredName? (t : Tree) (source : String) : Option String :=
  match t.memberKind? with
  | some kind => t.memberName? source kind
  | none => if t.typeKind?.isSome || t.isNamespace then t.textIn? "name" source else none

/-! ## Signatures -/

/-- The list of parameters of the declaration `t`. -/
def parameterList? (t : Tree) : Option Tree :=
  t.field? "parameters" <|> t.firstOfKind? "parameter_list" <|>
    t.firstOfKind? "bracketed_parameter_list"

/-- The types of the parameters; a parameter without a type counts as `?`. -/
def parameterTypes (t : Tree) (source : String) : List String :=
  match t.parameterList? with
  | none => []
  | some params =>
    (params.namedChildren.filter (·.kind == "parameter")).map fun p =>
      match p.textIn? "type" source with
      | some type => TypeName.normalized type
      | none => "?"

/-- The signature of the member `t`, which does not depend on the types around it. -/
def signature? (t : Tree) (source : String) : Option String := do
  let kind ← t.memberKind?
  let name ← t.declaredName? source
  let types := ", ".intercalate (t.parameterTypes source)
  return match kind with
    | .method | .operator | .destructor => name ++ "(" ++ types ++ ")"
    | .constructor => ".ctor(" ++ types ++ ")"
    | .indexer => "this[" ++ types ++ "]"
    | .property | .field | .event => name

/-! ## Base lists -/

/-- The type named by an `entry` of a base list. -/
def baseTypeOf? (entry : Tree) : Option Tree :=
  if entry.kind == "primary_constructor_base_type" then
    entry.field? "type" <|> entry.namedChildren.head?
  else if entry.kind == "argument_list" || entry.kind == "comment" then none
  else some entry

/-- The types in the base list of the type declaration `t`. -/
def baseTypes (t : Tree) : List Tree :=
  match t.firstOfKind? "base_list" with
  | none => []
  | some bases => bases.namedChildren.filterMap baseTypeOf?

end CodeAtlas.Tree
