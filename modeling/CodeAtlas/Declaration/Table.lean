import CodeAtlas.Declaration.Basic

/-!
# The declarations of a project

The table lists the declarations of all files, each under an id of its own. A declaration is named
after the type around it; where a name comes up again, the later ones get a suffix `#2`, `#3` and so
on. The parts of a `partial` type are separate entries that stand for one type: that of the first
part, which takes over the base types of the others, and under whose id all members are named.

## Main definitions

* `Entry`: a declaration together with its id.
* `Table`: the entries of a project and the names that count as built in.
* `Table.ofFiles`: the table of the declarations of some files.
* `Table.leadPart`: the first part of a partial type.
* `Table.typesNamed`, `Table.membersOf`, `Table.methodsNamed`, `Table.at?`: the entries found by
  name, by owner and by place.
-/
namespace CodeAtlas

/-- Names of the standard library. A reference to one of them is never a reference into the
project. -/
def predefinedNames : List String :=
  ["Object", "String", "Int16", "Int32", "Int64", "UInt16", "UInt32", "UInt64", "Byte", "SByte",
    "Boolean", "Char", "Single", "Double", "Decimal", "DateTime", "DateTimeOffset", "TimeSpan",
    "Guid", "Uri", "Type", "Array", "Enum", "Nullable", "Lazy", "Tuple", "ValueTuple",
    "Task", "ValueTask", "CancellationToken", "Exception", "ArgumentException",
    "ArgumentNullException", "InvalidOperationException", "NotImplementedException",
    "NotSupportedException", "List", "IList", "IReadOnlyList", "ICollection",
    "IReadOnlyCollection", "IEnumerable", "IEnumerator", "IAsyncEnumerable", "Dictionary",
    "IDictionary", "IReadOnlyDictionary", "HashSet", "ISet", "Queue", "Stack", "KeyValuePair",
    "Func", "Action", "Predicate", "EventHandler", "EventArgs", "IDisposable",
    "IAsyncDisposable", "IComparable", "IEquatable", "Span", "ReadOnlySpan", "Memory",
    "ReadOnlyMemory", "StringBuilder", "Console", "Math", "Enumerable", "Stream", "Regex",
    "Attribute", "Environment", "Encoding"]

/-- A declaration in the table of its project. -/
structure Entry extends Declaration where
  /-- The id as far as it follows from the declaration and the types around it. -/
  baseId : String
  /-- The id, with a suffix if an earlier entry has the same `baseId`. -/
  id : String
  /-- For a later part of a partial type, the position of the first part. -/
  firstPart : Option Nat
deriving DecidableEq, Inhabited

/-- The id under which the members of `e` are named. -/
def Entry.scope (e : Entry) : String :=
  if e.firstPart.isSome then e.baseId else e.id

/-- The declarations of a project. -/
structure Table where
  entries : Array Entry
  /-- The names that count as built in. -/
  builtins : List String
deriving Inhabited

namespace Table

/-! ## Building the table -/

/-- The table of a project without declarations, in which `extraBuiltins` count as built in. -/
def empty (extraBuiltins : List String) : Table where
  entries := #[]
  builtins := predefinedNames ++ extraBuiltins

/-- The first entry with a given `baseId`, if that entry is partial. -/
def partialNamed? (t : Table) (baseId : String) : Option Nat := do
  let i ← t.entries.findIdx? (·.baseId == baseId)
  let e ← t.entries[i]?
  if e.isPartial then some i else none

/-- Adds the entries of `more` that `bases` does not have, each once. -/
def mergeBases (bases more : List String) : List String :=
  more.foldl (fun acc b => if acc.contains b then acc else acc ++ [b]) bases

/-- The id that `d` has before suffixes; its parent is already in the table. -/
def baseIdOf (t : Table) (d : Declaration) : String :=
  match d.parent.bind (t.entries[·]?) with
  | some owner => owner.scope ++ "." ++ d.segment
  | none => d.segment

/-- Adds the declaration `d` at the end of the table. -/
def add (t : Table) (d : Declaration) : Table :=
  let baseId := t.baseIdOf d
  let earlier := (t.entries.filter (·.baseId == baseId)).size
  let id := if earlier = 0 then baseId else baseId ++ "#" ++ toString (earlier + 1)
  let firstPart := if d.isPartial then t.partialNamed? baseId else none
  let entry : Entry := { d with baseId, id, firstPart }
  match firstPart with
  | none => { t with entries := t.entries.push entry }
  | some first =>
    let merged := t.entries.modify first fun e =>
      { e with baseTypes := mergeBases e.baseTypes d.baseTypes }
    { t with entries := merged.push entry }

/-- Adds the declarations of a `file`, which refer to their parents by positions in the file's
list. -/
def addFile (t : Table) (file : List Declaration) : Table :=
  let offset := t.entries.size
  file.foldl (fun t d => t.add { d with parent := d.parent.map (· + offset) }) t

/-- The table of the declarations of `files`. -/
def ofFiles (files : List (List Declaration)) (extraBuiltins : List String) : Table :=
  files.foldl addFile (empty extraBuiltins)

/-! ## Looking entries up -/

def size (t : Table) : Nat := t.entries.size

/-- All entries with their positions. -/
def indexed (t : Table) : List (Nat × Entry) :=
  t.entries.toList.zipIdx.map fun (e, i) => (i, e)

/-- The positions of the entries that satisfy `p`, in order. -/
def positions (t : Table) (p : Entry → Bool) : List Nat :=
  (t.indexed.filter fun (_, e) => p e).map (·.1)

/-- The first part of the partial type at `i`, or `i` itself. -/
def leadPart (t : Table) (i : Nat) : Nat :=
  ((t.entries[i]?).bind (·.firstPart)).getD i

/-- The entry whose id is `id`. -/
def find? (t : Table) (id : String) : Option Nat :=
  t.entries.findIdx? (·.id == id)

/-- The entry whose declaration starts at the offset `start` of the file at `path`; of several, the
last. -/
def at? (t : Table) (path : String) (start : Nat) : Option Nat :=
  (t.positions fun e => e.path == path && e.start == start).getLast?

def isPredefined (t : Table) (name : String) : Bool :=
  t.builtins.contains name

/-- The types whose simple name is `name`. Later parts of a partial type are not among them. -/
def typesNamed (t : Table) (name : String) : List Nat :=
  t.positions fun e => e.kind.isType && e.firstPart.isNone && e.name == name

/-- The type that `e` belongs to, by its first part. -/
def owner? (t : Table) (e : Entry) : Option Nat :=
  e.parent.map t.leadPart

/-- The entries declared inside any part of the type at position `type`. -/
def membersOf (t : Table) (type : Nat) : List Nat :=
  t.positions fun e => t.owner? e == some type

/-- The methods of the project called `name`. -/
def methodsNamed (t : Table) (name : String) : List Nat :=
  t.positions fun e => e.kind == .method && e.name == name

end Table

end CodeAtlas
