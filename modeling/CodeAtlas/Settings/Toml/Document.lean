import CodeAtlas.Settings.Toml.Number

/-!
# Settings files

A settings file is a list of lines: keys with values, which belong to the table of the last header,
and headers of tables.

## Main definitions

* `readValue?`: values.
* `Line`, `readLine?`: the lines of a file.
* `parse?`: the table that a file describes.
-/
namespace CodeAtlas.Toml

/-! ## Values -/

mutual

/-- Reads a value. Lists and inline tables are nested at most `depth` deep. -/
def readValue? : (fuel depth : Nat) → List Char → Option (Toml × List Char)
  | 0, _, _ => none
  | _, _, 't' :: 'r' :: 'u' :: 'e' :: rest => some (.boolean true, rest)
  | _, _, 'f' :: 'a' :: 'l' :: 's' :: 'e' :: rest => some (.boolean false, rest)
  | fuel + 1, depth + 1, '[' :: rest =>
    (readItems? fuel depth rest).map fun (items, rest) => (.list items, rest)
  | fuel + 1, depth + 1, '\x7b' :: rest =>
    match skipBlanks rest with
    | '\x7d' :: rest => some (.table .inline [], rest)
    | rest =>
      (readPairs? fuel depth [] rest).map fun (entries, rest) => (.table .inline entries, rest)
  | _, _, cs =>
    ((readText? cs).map fun (s, rest) => (.text s, rest)) <|> readMoment? cs <|> readNumber? cs

/-- Reads the rest of a list. A comma may follow the last item. -/
def readItems? : (fuel depth : Nat) → List Char → Option (List Toml × List Char)
  | 0, _, _ => none
  | fuel + 1, depth, cs =>
    match skipTrivia false cs with
    | ']' :: rest => some ([], rest)
    | cs => do
      let (item, rest) ← readValue? fuel depth cs
      match skipTrivia false rest with
      | ']' :: rest => return ([item], rest)
      | ',' :: rest =>
        let (items, rest) ← readItems? fuel depth rest
        return (item :: items, rest)
      | _ => none

/-- Reads the rest of an inline table, given the entries in front. -/
def readPairs? : (fuel depth : Nat) → Entries → List Char → Option (Entries × List Char)
  | 0, _, _, _ => none
  | fuel + 1, depth, entries, cs => do
    let (key, rest) ← readKey? cs
    let rest ← take? '=' (skipBlanks rest)
    let (value, rest) ← readValue? fuel depth (skipBlanks rest)
    let (_, entries) ← insert key value .inline entries
    match skipBlanks rest with
    | '\x7d' :: rest => return (entries, rest)
    | ',' :: rest => readPairs? fuel depth entries rest
    | _ => none

end

/-! ## Lines -/

/-- A line of a settings file. -/
inductive Line where
  | empty
  | pair (key : List String) (value : Toml)
  | header (key : List String)
  | item (key : List String)

/-- Reads a line from `cs`, without its end. -/
def readLine? (cs : List Char) : Option (Line × List Char) :=
  match skipBlanks cs with
  | [] => some (.empty, [])
  | '#' :: rest => some (.empty, '#' :: rest)
  | '\n' :: rest => some (.empty, '\n' :: rest)
  | '\r' :: rest => some (.empty, '\r' :: rest)
  | '[' :: '[' :: rest => do
    let (key, rest) ← readKey? rest
    return (.item key, ← take? ']' (← take? ']' rest))
  | '[' :: rest => do
    let (key, rest) ← readKey? rest
    return (.header key, ← take? ']' rest)
  | cs => do
    let (key, rest) ← readKey? cs
    let rest ← take? '=' rest
    let (value, rest) ← readValue? (2 * rest.length + 2) depthLimit (skipBlanks rest)
    return (.pair key value, rest)

/-- A file that has been read in part: its table, and the key of the last header. -/
structure Draft where
  entries : Entries := []
  current : List String := []

/-- What a line does to `p`. -/
def Draft.add? (p : Draft) : Line → Option Draft
  | .empty => some p
  | .pair key value => do
    let (_, entries) ← descend false (insert key value) p.current .header p.entries
    return { p with entries }
  | .header key => do
    let (_, entries) ← openTable key .header p.entries
    return { entries, current := key }
  | .item key => do
    let (_, entries) ← openItem key .header p.entries
    return { entries, current := key }

/-- Reads at most `fuel` lines. -/
def readLines? : (fuel : Nat) → Draft → List Char → Option Draft
  | _, p, [] => some p
  | 0, _, _ :: _ => none
  | fuel + 1, p, c :: cs => do
    let (line, rest) ← readLine? (c :: cs)
    readLines? fuel (← p.add? line) (← endLine? rest)

/-- The table that `text` describes. A byte order mark in front is dropped. -/
def parse? (text : String) : Option Entries := do
  let cs :=
    match text.toList with
    | '\ufeff' :: cs => cs
    | cs => cs
  let p ← readLines? (cs.length + 1) {} cs
  return p.entries

end CodeAtlas.Toml
