/-!
# Kinds of symbols, links and members

## Main definitions

* `SymbolKind`: what a vertex of the symbol graph or a scope stands for.
* `LinkKind`: how one declaration refers to another.
* `MemberKind`: the categories by which members of two texts are matched.
-/
namespace CodeAtlas

/-! ## Symbols -/

/-- What a vertex of the symbol graph or a scope stands for. -/
inductive SymbolKind where
  | «class» | interface | method | property | field | constructor
  | localVariable | parameter | controlFlow | statement | keyword | stringLiteral | numericLiteral
deriving DecidableEq, Inhabited

namespace SymbolKind

/-- All kinds, declarations first. -/
def all : List SymbolKind :=
  [«class», interface, method, property, field, constructor, localVariable, parameter, controlFlow,
    statement, keyword, stringLiteral, numericLiteral]

def name : SymbolKind → String
  | «class» => "class"
  | interface => "interface"
  | method => "method"
  | property => "property"
  | field => "field"
  | constructor => "constructor"
  | localVariable => "local_variable"
  | parameter => "parameter"
  | controlFlow => "control_flow"
  | statement => "statement"
  | keyword => "keyword"
  | stringLiteral => "string_literal"
  | numericLiteral => "numeric_literal"

/-- The kind of symbol with the name `s`. -/
def ofName? (s : String) : Option SymbolKind :=
  all.find? (·.name == s)

/-- Declarations have an id that only depends on where and how they are declared. -/
def isDeclaration : SymbolKind → Bool
  | «class» | interface | method | property | field | constructor => true
  | _ => false

def isType : SymbolKind → Bool
  | «class» | interface => true
  | _ => false

def isCallable : SymbolKind → Bool
  | method | constructor => true
  | _ => false

/-- Values that are read, as opposed to called. -/
def isData : SymbolKind → Bool
  | property | field => true
  | _ => false

@[grind →] theorem isDeclaration_of_isType {k : SymbolKind} (h : k.isType = true) :
    k.isDeclaration = true := by
  cases k <;> simp_all [isType, isDeclaration]

end SymbolKind

/-! ## Links -/

/-- How one declaration refers to another. -/
inductive LinkKind where
  | inherits | implements | calls | accesses | usesType
deriving DecidableEq, Inhabited

namespace LinkKind

/-- All kinds, in the order in which links are listed. -/
def all : List LinkKind :=
  [inherits, implements, calls, accesses, usesType]

def name : LinkKind → String
  | inherits => "inherits"
  | implements => "implements"
  | calls => "calls"
  | accesses => "accesses"
  | usesType => "uses_type"

/-- The kind of link with the name `s`. -/
def ofName? (s : String) : Option LinkKind :=
  all.find? (·.name == s)

/-- The place of a kind in the list of all kinds. -/
def rank : LinkKind → Nat
  | inherits => 0
  | implements => 1
  | calls => 2
  | accesses => 3
  | usesType => 4

@[grind →] theorem rank_injective {a b : LinkKind} (h : a.rank = b.rank) : a = b := by
  cases a <;> cases b <;> simp_all [rank]

/-- Dependencies are followed through deep links; the target of any other link is a leaf. -/
def isDeep : LinkKind → Bool
  | calls | implements => true
  | _ => false

end LinkKind

/-! ## Members -/

/-- The categories by which members of two texts are matched. -/
inductive MemberKind where
  | method | constructor | destructor | property | indexer | field | event | operator
deriving DecidableEq, Inhabited

namespace MemberKind

def name : MemberKind → String
  | method => "Method"
  | constructor => "Constructor"
  | destructor => "Destructor"
  | property => "Property"
  | indexer => "Indexer"
  | field => "Field"
  | event => "Event"
  | operator => "Operator"

/-- What a member of this category stands for in the symbol graph. -/
def symbolKind : MemberKind → SymbolKind
  | method | destructor | operator => .method
  | constructor => .constructor
  | property | indexer => .property
  | field | event => .field

@[simp] theorem isDeclaration_symbolKind (k : MemberKind) : k.symbolKind.isDeclaration = true := by
  cases k <;> rfl

@[simp] theorem isType_symbolKind (k : MemberKind) : k.symbolKind.isType = false := by
  cases k <;> rfl

end MemberKind

end CodeAtlas
