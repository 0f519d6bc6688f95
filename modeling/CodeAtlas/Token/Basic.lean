import CodeAtlas.Symbol.Signature

/-!
# Tokens

A text is cut into the leaves of its syntax tree, without comments and missing nodes; a string
literal is one token. Names declared inside a member carry an ordinal: the number of names that the
member declared before them. So two names of the same ordinal denote the same variable in two
versions of a member, however they are spelled.

## Main definitions

* `Token`, `TokenKind`: tokens.
* `Bindings`: the names declared so far.
* `Tree.tokens`: the tokens of a syntax tree.
-/
namespace CodeAtlas

/-- What a token is. -/
inductive TokenKind where
  | keyword | identifier | typeName | methodName | localVariable | parameter
  | stringLiteral | numericLiteral | punctuation | operator
deriving DecidableEq, Inhabited

namespace TokenKind

def all : List TokenKind :=
  [keyword, identifier, typeName, methodName, localVariable, parameter, stringLiteral,
    numericLiteral, punctuation, operator]

theorem mem_all (k : TokenKind) : k ∈ all := by
  cases k <;> decide

def name : TokenKind → String
  | keyword => "keyword"
  | identifier => "identifier"
  | typeName => "type_name"
  | methodName => "method_name"
  | localVariable => "local_variable"
  | parameter => "parameter"
  | stringLiteral => "string_literal"
  | numericLiteral => "numeric_literal"
  | punctuation => "punctuation"
  | operator => "operator"

/-- The kind of token with the name `s`. -/
def ofName? (s : String) : Option TokenKind :=
  all.find? (·.name == s)

/-- Kinds of names that may be spelled otherwise without a change of meaning. -/
def mayBeRenamed : TokenKind → Bool
  | localVariable | parameter | methodName => true
  | _ => false

end TokenKind

/-- A leaf of a syntax tree, or a string literal. -/
structure Token where
  kind : TokenKind
  text : String
  start : Nat
  length : Nat
  /-- The ordinal of the declaration that the token refers to. -/
  binding : Option Nat
deriving DecidableEq, Inhabited

namespace Token

/-- A token of this `kind` and `text` that stands nowhere. -/
def make (kind : TokenKind) (text : String) (binding : Option Nat) : Token :=
  { kind, text, start := 0, length := text.utf8ByteSize, binding }

/-- The offset after the last byte of `t`. -/
def stop (t : Token) : Nat := t.start + t.length

end Token

/-! ## Names in scope -/

/-- The names declared in a type or member so far. -/
structure Bindings where
  /-- The declared names with their kinds and ordinals, the latest first. -/
  names : List (String × TokenKind × Nat) := []
  /-- The ordinal of the next declaration. -/
  next : Nat := 0
deriving DecidableEq, Inhabited

/-- How an identifier is classified: its kind, its ordinal, and whether it declares a name. -/
inductive NameUse where
  | declares (kind : TokenKind)
  | refers (kind : TokenKind) (binding : Option Nat)
deriving DecidableEq, Inhabited

namespace Bindings

/-- Declares `name`. -/
def declare (b : Bindings) (name : String) (kind : TokenKind) : Bindings :=
  { names := (name, kind, b.next) :: b.names, next := b.next + 1 }

end Bindings

/-! ## Classifying leaves -/

namespace Tree

/-- An ancestor and the position of the child that leads to the node in question. -/
abbrev Crumb := Tree × Nat

/-- The node that the `crumb` leads to fills `field` of the ancestor. -/
def fills (crumb : Crumb) (field : String) : Bool :=
  crumb.1.fieldIndex? field == some crumb.2

/-- The identifier is the function of a call: `Foo()`, `x.Foo()` or `Foo<T>()`. -/
def isCallee (crumbs : List Crumb) : Bool :=
  let crumbs :=
    match crumbs with
    | (parent, _) :: rest => if parent.kind == "generic_name" then rest else crumbs
    | [] => []
  match crumbs with
  | crumb :: rest =>
    match crumb.1.kind with
    | "invocation_expression" => fills crumb "function"
    | "member_access_expression" =>
      fills crumb "name" &&
        rest.head?.any fun outer =>
          outer.1.kind == "invocation_expression" && fills outer "function"
    | _ => false
  | [] => false

/-- An identifier at the `crumb` stands where a type is named. -/
def standsForType (crumb : Crumb) : Bool :=
  fills crumb "type" || fills crumb "returns" ||
    ["generic_name", "qualified_name", "base_list", "type_argument_list", "array_type",
      "nullable_type", "type_parameter", "type_parameter_constraint",
      "primary_constructor_base_type"].contains crumb.1.kind

/-- A declarator below `above` belongs to a field or an event. -/
def isMemberField (above : List Crumb) : Bool :=
  match above with
  | _ :: (owner, _) :: _ =>
    owner.kind == "field_declaration" || owner.kind == "event_field_declaration"
  | _ => false

/-- What an identifier at the `crumb`, below `above`, does if its place alone tells. -/
def placedUse? (crumb : Crumb) (above : List Crumb) : Option NameUse :=
  let parent := crumb.1
  match parent.kind with
  | "parameter" => if fills crumb "name" then some (.declares .parameter) else none
  | "variable_declarator" =>
    if isMemberField above then some (.refers .identifier none) else some (.declares .localVariable)
  | "foreach_statement" => if fills crumb "left" then some (.declares .localVariable) else none
  | "catch_declaration" => if fills crumb "name" then some (.declares .localVariable) else none
  | "single_variable_designation" => some (.declares .localVariable)
  | "method_declaration" | "local_function_statement" =>
    if fills crumb "name" then some (.refers .methodName none) else none
  | "constructor_declaration" | "destructor_declaration" => some (.refers .typeName none)
  | _ =>
    if parent.typeKind?.isSome && fills crumb "name" then some (.refers .typeName none) else none

/-- What the identifier `text` does. A name declared in `b` refers to its latest declaration, unless
it is the name in a member access. -/
def nameUse (text : String) (b : Bindings) (crumbs : List Crumb) : NameUse :=
  match crumbs with
  | [] => .refers .identifier none
  | crumb :: above =>
    match placedUse? crumb above with
    | some use => use
    | none =>
      let isMemberName := crumb.1.kind == "member_access_expression" && fills crumb "name"
      match if isMemberName then none else b.names.lookup text with
      | some (kind, ordinal) => .refers kind (some ordinal)
      | none =>
        if isCallee crumbs then .refers .methodName none
        else if standsForType crumb then .refers .typeName none
        else .refers .identifier none

/-- The node `t` is a literal that is one token. -/
def isStringLiteral (t : Tree) : Bool :=
  ["string_literal", "verbatim_string_literal", "raw_string_literal", "character_literal",
    "interpolated_string_expression"].contains t.kind

def isNumericLiteral (t : Tree) : Bool :=
  t.kind == "integer_literal" || t.kind == "real_literal"

/-- The node `t` is a named leaf that is a keyword. -/
def isKeywordLeaf (t : Tree) : Bool :=
  ["predefined_type", "implicit_type", "boolean_literal", "null_literal", "this_expression",
    "base_expression", "this", "base", "modifier"].contains t.kind

/-- The kind of the leaf `t`, which is no identifier. -/
def leafKind (t : Tree) : TokenKind :=
  if t.isKeywordLeaf ||
    (!t.named && t.kind.toList.all fun c => c.isAlpha || c == '_') then .keyword
  else if ["(", ")", "\x7b", "\x7d", "[", "]", ";", ",", ".", ":", "::"].contains t.kind then
    .punctuation
  else if t.named then .identifier
  else .operator

/-- The token of the node `t`. A node without text has none. -/
def token (t : Tree) (source : String) (kind : TokenKind) (binding : Option Nat) : List Token :=
  let text := t.text source
  if text.isEmpty then []
  else [{ kind, text, start := t.start, length := text.utf8ByteSize, binding }]

/-- The names declared in front of `t`, a type or a member other than a local function, do not hold
in it, and those declared in it do not hold after it. -/
def opensBindings (t : Tree) : Bool :=
  (t.memberKind?.isSome && !t.isLocalFunction) || t.typeKind?.isSome

mutual

/-- The tokens in a node reached through `crumbs`, and the names declared after it, where `b` are
those before it. -/
def tokensAt (source : String) (crumbs : List Crumb) (b : Bindings) : Tree → Bindings × List Token
  | node d cs =>
    let t := node d cs
    if t.kind == "comment" || t.missing then (b, [])
    else if t.opensBindings then (b, (tokensIn source t crumbs 0 {} cs).2)
    else if t.isStringLiteral then (b, t.token source .stringLiteral none)
    else if t.isNumericLiteral then (b, t.token source .numericLiteral none)
    else if !cs.isEmpty then tokensIn source t crumbs 0 b cs
    else if t.kind == "identifier" then
      match nameUse (t.text source) b crumbs with
      | .declares kind => (b.declare (t.text source) kind, t.token source kind (some b.next))
      | .refers kind binding => (b, t.token source kind binding)
    else (b, t.token source t.leafKind none)

/-- The tokens in the children of `parent` from position `i` on. -/
def tokensIn (source : String) (parent : Tree) (crumbs : List Crumb) (i : Nat) (b : Bindings) :
    List Tree → Bindings × List Token
  | [] => (b, [])
  | c :: cs =>
    let (b, own) := tokensAt source ((parent, i) :: crumbs) b c
    let (b, rest) := tokensIn source parent crumbs (i + 1) b cs
    (b, own ++ rest)

end

/-- The tokens of the tree `t`. -/
def tokens (t : Tree) (source : String) : List Token :=
  (tokensAt source [] {} t).2

end Tree

/-- The tokens of `text`. -/
def tokenize (grammar : Grammar) (text : String) : List Token :=
  (grammar text).tokens text

end CodeAtlas
