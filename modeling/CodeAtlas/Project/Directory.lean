import CodeAtlas.Project.Path

/-!
# Directories

What a program can see of a directory and everything below it, as a value. Entries are addressed by
the names that lead to them; a path is a text that is followed name by name.

## Main definitions

* `Directory`: the entries below a directory.
* `Directory.write`, `Directory.makeFolder`, `Directory.delete`: changing them.
* `Directory.locate`: following a path.
* `Directory.readText`, `Directory.isFile`, `Directory.openFolder`: reading.
-/
namespace CodeAtlas

/-- Why a file or a directory cannot be read. -/
inductive ReadError where
  | notFound
  | notDirectory
  | isDirectory
  | notText
deriving DecidableEq, Inhabited

/-- The words for the reason. -/
def ReadError.message : ReadError → String
  | notFound => "No such file or directory (os error 2)"
  | notDirectory => "Not a directory (os error 20)"
  | isDirectory => "Is a directory (os error 21)"
  | notText => "stream did not contain valid UTF-8"

/-- An entry of a directory. -/
inductive FileEntry where
  | file (bytes : ByteArray)
  | folder
deriving Inhabited

/-- The entries below a directory, by the names that lead to them. -/
structure Directory where
  /-- The absolute path of the directory. Relative paths start there. -/
  root : String
  entries : List (List String × FileEntry) := []

namespace Directory

/-! ## Changing entries -/

/-- The entry at the end of `names`. -/
def entry? (d : Directory) (names : List String) : Option FileEntry :=
  if names.isEmpty then some .folder else d.entries.lookup names

/-- Puts the entry `e` at the end of `names`. -/
def put (d : Directory) (names : List String) (e : FileEntry) : Directory :=
  { d with entries := d.entries.filter (·.1 != names) ++ [(names, e)] }

/-- Makes the directory at the end of `names` and those it lies in, where they do not exist. -/
def makeFolder (d : Directory) (names : List String) : Directory :=
  (List.range (names.length + 1)).foldl
    (fun d n => if (d.entry? (names.take n)).isSome then d else d.put (names.take n) .folder) d

/-- Writes a file with the given `bytes` at the end of `names`, making the directories it lies
in. -/
def write (d : Directory) (names : List String) (bytes : ByteArray) : Directory :=
  (d.makeFolder names.dropLast).put names (.file bytes)

/-- Deletes the file at the end of `names`. -/
def delete (d : Directory) (names : List String) : Directory :=
  { d with entries := d.entries.filter (·.1 != names) }

/-! ## Following paths -/

/-- Follows some parts of a path from the entry at the end of `names`. Only directories can be gone
through. -/
def follow (d : Directory) (names : List String) : List String → Except ReadError (List String)
  | [] => .ok names
  | part :: rest =>
    match d.entry? names with
    | none => .error .notFound
    | some (.file _) => .error .notDirectory
    | some .folder =>
      if part.isEmpty || part == "." then d.follow names rest
      else if part != ".." then d.follow (names ++ [part]) rest
      else if names.isEmpty then .error .notFound
      else d.follow names.dropLast rest

/-- The parts of `path` below the directory `d`. Nothing is known outside of it. -/
def partsBelow? (d : Directory) (path : String) : Option (List String) :=
  let parts := (Path.splitSlash path.toList).map String.ofList
  let base := (Path.splitSlash d.root.toList).map String.ofList
  if path.isEmpty then none
  else if !Path.isAbsolute path then some parts
  else if base.isPrefixOf parts then some (parts.drop base.length)
  else none

/-- The names at the end of which `path` leads to something. -/
def locate (d : Directory) (path : String) : Except ReadError (List String) :=
  match d.partsBelow? path with
  | some parts => d.follow [] parts
  | none => .error .notFound

/-! ## Reading -/

/-- The text of the file at `path`. -/
def readText (d : Directory) (path : String) : Except ReadError String := do
  let names ← d.locate path
  match d.entry? names with
  | none => .error .notFound
  | some .folder => .error .isDirectory
  | some (.file bytes) =>
    match String.fromUTF8? bytes with
    | some text => .ok text
    | none => .error .notText

/-- The `path` leads to a file. -/
def isFile (d : Directory) (path : String) : Bool :=
  match d.locate path with
  | .ok names =>
    match d.entry? names with
    | some (.file _) => true
    | _ => false
  | .error _ => false

/-- The names that lead to the directory at `path`. -/
def openFolder (d : Directory) (path : String) : Except ReadError (List String) := do
  let names ← d.locate path
  match d.entry? names with
  | none => .error .notFound
  | some (.file _) => .error .notDirectory
  | some .folder => .ok names

end Directory

end CodeAtlas
