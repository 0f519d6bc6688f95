/-!
# JSON values

Values in the form in which other programs read them, and their text over several lines.

## Main definitions

* `JsonValue`: the values.
* `JsonValue.quote`: the text of a string.
* `JsonValue.pretty`: the text of a value, two blanks for each level.
-/
namespace CodeAtlas

/-- Values to be written. Members keep their order. -/
inductive JsonValue where
  | null
  | boolean (value : Bool)
  | number (value : Nat)
  | string (value : String)
  | array (items : List JsonValue)
  | object (members : List (String × JsonValue))
deriving Inhabited

namespace JsonValue

/-- The value that `f` gives for something that may be missing. -/
def ofOption {α : Type} (f : α → JsonValue) : Option α → JsonValue
  | some a => f a
  | none => null

/-- The values that `f` gives for the elements of `xs`. -/
def ofList {α : Type} (f : α → JsonValue) (xs : List α) : JsonValue :=
  array (xs.map f)

/-! ## Text -/

def hexDigit (n : Nat) : Char :=
  "0123456789abcdef".toList.getD n '0'

/-- The characters that stand for `c` between quotation marks. -/
def escape (c : Char) : List Char :=
  if c = '"' then ['\\', '"']
  else if c = '\\' then ['\\', '\\']
  else if c = '\n' then ['\\', 'n']
  else if c = '\r' then ['\\', 'r']
  else if c = '\t' then ['\\', 't']
  else if c = '\x08' then ['\\', 'b']
  else if c = '\x0c' then ['\\', 'f']
  else if c.toNat < 32 then ['\\', 'u', '0', '0', hexDigit (c.toNat / 16), hexDigit (c.toNat % 16)]
  else [c]

/-- The text of the string `s`. -/
def quote (s : String) : String :=
  "\"" ++ String.ofList (s.toList.flatMap escape) ++ "\""

/-- The indentation of a `level`. -/
def indent (level : Nat) : String :=
  String.ofList (List.replicate (2 * level) ' ')

/-- The `parts` between `opening` and `closing`, each on a line of its own one step further in than
`level`. -/
def block (opening closing : String) (level : Nat) (parts : List String) : String :=
  if parts.isEmpty then opening ++ closing
  else
    opening ++ "\n" ++ ",\n".intercalate (parts.map (indent (level + 1) ++ ·)) ++ "\n" ++
      indent level ++ closing

mutual

/-- The text of a value at a `level`. -/
def prettyAt (level : Nat) : JsonValue → String
  | null => "null"
  | boolean b => if b then "true" else "false"
  | number n => toString n
  | string s => quote s
  | array items => block "[" "]" level (prettyItems (level + 1) items)
  | object members => block "\x7b" "\x7d" level (prettyMembers (level + 1) members)

def prettyItems (level : Nat) : List JsonValue → List String
  | [] => []
  | v :: vs => prettyAt level v :: prettyItems level vs

def prettyMembers (level : Nat) : List (String × JsonValue) → List String
  | [] => []
  | (name, v) :: rest => (quote name ++ ": " ++ prettyAt level v) :: prettyMembers level rest

end

/-- The text of `v`. -/
def pretty (v : JsonValue) : String :=
  prettyAt 0 v

end JsonValue

end CodeAtlas
