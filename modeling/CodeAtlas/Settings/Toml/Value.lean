/-!
# Values of a settings file

A settings file is a table of values. A table is defined at most once: by a header, by an inline
value, or piece by piece through dotted keys. A table that only lies on the way to others may still
get a header of its own.

## Main definitions

* `Toml`: the values.
* `Toml.descend`: changing the table at the end of a path of keys.
* `Toml.insert`, `Toml.openTable`, `Toml.openItem`: what the lines of a file do to a table.
-/
namespace CodeAtlas

/-- How a table came to be. -/
inductive TableOrigin where
  /-- It has a header, or is the file itself. -/
  | header
  /-- It lies on the way to a table with a header. -/
  | implied
  /-- It is made by dotted keys. -/
  | dotted
  /-- It is written as a value. -/
  | inline
deriving DecidableEq, Inhabited

/-- The values of a settings file. -/
inductive Toml where
  | text (value : String)
  | integer (value : Int)
  | float (value : Float)
  | boolean (value : Bool)
  /-- A date, a time or both. -/
  | moment
  | list (items : List Toml)
  | table (origin : TableOrigin) (entries : List (String × Toml))
  /-- A list of tables, each with a header of its own. -/
  | tables (items : List (List (String × Toml)))
deriving Inhabited

namespace Toml

/-- The entries of a table. -/
abbrev Entries := List (String × Toml)

/-- Puts `value` under `key`. -/
def put (entries : Entries) (key : String) (value : Toml) : Entries :=
  entries.filter (·.1 != key) ++ [(key, value)]

/-- The change of a table. There is none if the table must not be changed that way. -/
abbrev Change := TableOrigin → Entries → Option (TableOrigin × Entries)

/-- Applies `change` to the table at the end of a `path` of keys. Tables that are missing on the way
are made; of a list of tables the last one is meant. Dotted keys do not lead into a table with a
header, and nothing leads into a value. -/
def descend (dotted : Bool) (change : Change) : (path : List String) → Change
  | [], origin, entries => change origin entries
  | key :: path, origin, entries => do
    let changed ←
      match entries.lookup key with
      | none => do
        let (o, es) ← descend dotted change path (if dotted then .dotted else .implied) []
        pure (table o es)
      | some (.table o es) => do
        if o = .inline || (dotted && o = .header) then none
        let (o, es) ← descend dotted change path o es
        pure (table o es)
      | some (.tables items) => do
        let last ← items.getLast?
        let (_, es) ← descend dotted change path .header last
        pure (tables (items.dropLast ++ [es]))
      | some _ => none
    return (origin, put entries key changed)

/-- Enters `value` under the dotted `key`, which is given by its parts. No key is defined twice, and
a dotted key adds only to tables made by dotted keys. -/
def insert (key : List String) (value : Toml) : Change := fun origin entries => do
  let last ← key.getLast?
  let path := key.dropLast
  descend true
    (fun origin entries =>
      if (origin == .dotted) == path.isEmpty || (entries.lookup last).isSome then none
      else some (origin, put entries last value))
    path origin entries

/-- Opens the table with the header `key`. -/
def openTable (key : List String) : Change := fun origin entries => do
  let last ← key.getLast?
  descend false
    (fun origin entries =>
      match entries.lookup last with
      | none => some (origin, put entries last (.table .header []))
      | some (.table .implied es) => some (origin, put entries last (.table .header es))
      | some _ => none)
    key.dropLast origin entries

/-- Opens a new table in the list of tables at `key`. -/
def openItem (key : List String) : Change := fun origin entries => do
  let last ← key.getLast?
  descend false
    (fun origin entries =>
      match entries.lookup last with
      | none => some (origin, put entries last (.tables [[]]))
      | some (.tables items) => some (origin, put entries last (.tables (items ++ [[]])))
      | some _ => none)
    key.dropLast origin entries

end Toml

end CodeAtlas
