import CodeAtlas.Syntax.Tree
import Std.Data.HashMap

/-!
# Banks of syntax trees

A bank holds the trees of known texts in a flat form, five numbers for each node in pre-order: the
symbol, the field, the first byte, the number of bytes and the number of children. A text is known
by its size and a checksum.

## Main definitions

* `Bank`: a bank.
* `textKey`: what a text is known by.
* `Bank.grammar`: the grammar that looks trees up in a bank.
* `Bank.parse`: a bank from its lines.
-/
namespace CodeAtlas

/-! ## Keys -/

/-- The FNV-1a checksum of `bytes`, of 64 bits. -/
def checksum (bytes : ByteArray) : UInt64 :=
  bytes.foldl (fun h b => (h ^^^ b.toUInt64) * 0x100000001b3) 0xcbf29ce484222325

/-- Hexadecimal digits, at least `width` of them. -/
def hexText (width n : Nat) : String :=
  let ds := Nat.toDigits 16 n
  String.ofList (List.replicate (width - ds.length) '0' ++ ds)

/-- What `text` is known by. -/
def textKey (text : String) : String :=
  toString text.utf8ByteSize ++ ":" ++ hexText 16 (checksum text.toUTF8).toNat

/-! ## Banks -/

/-- What a bank says about the nodes of one symbol. -/
structure BankSymbol where
  kind : String
  grammarName : String
  named : Bool
  missing : Bool
deriving DecidableEq, Inhabited

/-- A field whose look-up in a node does not follow the labels: the number of the node in pre-order,
the field, and the position of the child that is found. -/
structure BankOverride where
  number : Nat
  field : String
  child : Option Nat
deriving DecidableEq, Inhabited

/-- The trees of known texts. -/
structure Bank where
  symbols : Array BankSymbol := #[]
  fields : Array String := #[]
  trees : Std.HashMap String (List Nat) := ∅
  overrides : Std.HashMap String (List BankOverride) := ∅

namespace Bank

/-- What is known about the node with this `number`. A zero as `field` means that it fills none. -/
def nodeData (b : Bank) (overrides : List BankOverride) (number symbol field start length : Nat) :
    NodeData :=
  let s := b.symbols.getD symbol default
  { kind := s.kind, grammarName := s.grammarName, named := s.named, missing := s.missing
    label := if field = 0 then none else b.fields[field - 1]?
    start, length
    overrides := (overrides.filter (·.number == number)).map fun o => (o.field, o.child) }

mutual

/-- Reads the tree of the node with this `number`, and the numbers after it. -/
def readTree (b : Bank) (overrides : List BankOverride) : (fuel number : Nat) → List Nat →
    Option (Tree × Nat × List Nat)
  | fuel + 1, number, symbol :: field :: start :: length :: count :: rest => do
    let (children, next, rest) ← readTrees b overrides fuel count (number + 1) rest
    return (.node (b.nodeData overrides number symbol field start length) children, next, rest)
  | _, _, _ => none

/-- Reads `count` trees in a row, from the node with this `number` on. -/
def readTrees (b : Bank) (overrides : List BankOverride) : (fuel count number : Nat) → List Nat →
    Option (List Tree × Nat × List Nat)
  | _, 0, number, rest => some ([], number, rest)
  | fuel + 1, count + 1, number, cells => do
    let (t, number, rest) ← readTree b overrides fuel number cells
    let (ts, number, rest) ← readTrees b overrides fuel count number rest
    return (t :: ts, number, rest)
  | 0, _ + 1, _, _ => none

end

/-- The tree of a text that is not known. -/
def unknown : Tree :=
  .node { kind := "compilation_unit" } []

/-- The tree of `text`. -/
def tree? (b : Bank) (text : String) : Option Tree := do
  let key := textKey text
  let cells ← b.trees[key]?
  let (t, _, _) ← readTree b (b.overrides.getD key []) (2 * cells.length + 1) 0 cells
  return t

/-- The grammar that looks trees up in `b`. -/
def grammar (b : Bank) : Grammar := fun text =>
  (b.tree? text).getD unknown

/-! ## Reading a bank -/

def ofFlags (kind grammarName : String) (flags : Nat) : BankSymbol :=
  { kind, grammarName, named := flags % 2 == 1, missing := flags / 2 % 2 == 1 }

/-- What `line` adds to `b`. Its parts are separated by tabs, numbers in a part by blanks. -/
def addLine (b : Bank) (line : String) : Bank :=
  let numbers (s : String) : List Nat := (s.splitOn " ").filterMap (·.toNat?)
  match line.splitOn "\t" with
  | ["symbol", kind, grammarName, flags] =>
    { b with symbols := b.symbols.push (ofFlags kind grammarName (flags.toNat?.getD 0)) }
  | ["field", name] => { b with fields := b.fields.push name }
  | ["tree", key, cells] => { b with trees := b.trees.insert key (numbers cells) }
  | ["lookup", key, number, field, child] =>
    let o : BankOverride := { number := number.toNat?.getD 0, field, child := child.toNat? }
    { b with overrides := b.overrides.insert key (b.overrides.getD key [] ++ [o]) }
  | _ => b

/-- The bank that `text` describes. -/
def parse (text : String) : Bank :=
  (text.splitOn "\n").foldl addLine {}

end Bank

end CodeAtlas
