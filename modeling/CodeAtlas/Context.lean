import CodeAtlas.Cleanup
import CodeAtlas.Graph.Basic

/-!
# Context blocks

A selection of files and declarations is turned into one text with a section per file. A section
shows either the whole file, cleaned up, or exactly the selected declarations.

## Main definitions

* `SelectedItem`: one selected file or declaration.
* `Grouping`, `itemsByFile`: the items of a selection by file.
* `SymbolGraph.selected`, `declarationsText?`: the text of the selected declarations of a file.
* `contextBlock`: the text of a selection.
-/
namespace CodeAtlas

/-! ## Selections -/

/-- Splits at the first `::`. -/
def splitAtColons : List Char → Option (List Char × List Char)
  | [] => none
  | ':' :: ':' :: rest => some ([], rest)
  | c :: rest => (splitAtColons rest).map fun (front, back) => (c :: front, back)

/-- One selected file or declaration. The path may be followed by `::` and the id of a
declaration. -/
structure SelectedItem where
  path : String
  declarationId : Option String := none
  isWholeFile : Bool := false
deriving DecidableEq, Inhabited

namespace SelectedItem

/-- The path in front of the first `::`. -/
def filePath (item : SelectedItem) : String :=
  match splitAtColons item.path.toList with
  | some (front, _) => String.ofList front
  | none => item.path

/-- The id of the selected declaration: the given one, else what follows the first `::`. -/
def target? (item : SelectedItem) : Option String :=
  match item.declarationId, splitAtColons item.path.toList with
  | some id, _ => some id
  | none, some (_, c :: back) => some (String.ofList (c :: back))
  | none, _ => none

/-- The `item` selects its whole file. -/
def selectsFile (item : SelectedItem) : Bool :=
  item.isWholeFile || item.target?.isNone

/-- The item that the command-line argument `text` stands for. -/
def ofArgument (text : String) : SelectedItem :=
  match splitAtColons text.toList with
  | some (front, c :: back) =>
    { path := String.ofList front, declarationId := some (String.ofList (c :: back)) }
  | _ => { path := text, isWholeFile := true }

end SelectedItem

/-- The part of a selection that is read: its items by file, and the place of each path among the
groups. -/
structure Grouping where
  groups : Array (String × List SelectedItem) := #[]
  places : Std.TreeMap String Nat := ∅

/-- Adds an `item` to the group of its file. The first item of a file opens a new group. -/
def Grouping.add (g : Grouping) (item : SelectedItem) : Grouping :=
  match g.places[item.filePath]? with
  | some place =>
    { g with groups := g.groups.modify place fun group => (group.1, group.2 ++ [item]) }
  | none =>
    { groups := g.groups.push (item.filePath, [item])
      places := g.places.insert item.filePath g.groups.size }

/-- The items of a `selection` by file, in the order in which the paths first appear. -/
def itemsByFile (selection : List SelectedItem) : List (String × List SelectedItem) :=
  (selection.foldl Grouping.add {}).groups.toList

/-! ## Declarations of a file -/

/-- The paths `a` and `b` denote one file as far as the shorter one tells. -/
def sameFile (a b : String) : Bool :=
  a == b || a.endsWith ("/" ++ b) || b.endsWith ("/" ++ a)

/-- Keeps the first of the symbols `nodes` of each id. -/
def firstById (nodes : List Symbol) : List Symbol :=
  nodes.foldl (fun kept n => if kept.any (·.id == n.id) then kept else kept ++ [n]) []

/-- The symbols of `g` with one of the `ids` that lie in the file at `fullPath`, each once, by
start. -/
def SymbolGraph.selected (g : SymbolGraph) (ids : List String) (fullPath : String) :
    List Symbol :=
  let key := Path.normalize fullPath
  let found := (ids.filterMap g.node?).filter fun n => sameFile (Path.normalize n.path) key
  (firstById found).mergeSort fun a b => a.start ≤ b.start

/-- The texts of the symbols with one of the `ids` that lie in the file at `fullPath`, cut out of
its `content`, if there are any. -/
def declarationsText? (graph : Option SymbolGraph) (ids : List String) (fullPath content : String) :
    Option String := do
  let g ← graph
  match (g.selected ids fullPath).filterMap (·.slice? content) with
  | [] => none
  | slices => some ("\n\n".intercalate slices)

/-! ## Sections -/

def isLineBreak (c : Char) : Bool := c == '\r' || c == '\n'

/-- The section of the file at `fullPath`, named as seen from `root`, with the text `body`. -/
def sectionText (root fullPath body : String) : String :=
  "// File: " ++ Path.normalize (Path.relativeTo root fullPath) ++ "\n" ++
    Text.trimBoth isLineBreak body ++ "\n"

/-- The section of the items of `group`, which are selected in one file, if `read` gives the file
and it has something to show. -/
def fileSection? (grammar : Grammar) (read : String → Option String) (graph : Option SymbolGraph)
    (root : String) (flags : CleanupFlags) (group : String × List SelectedItem) :
    Option String := do
  let fullPath := Path.join root group.1
  let content ← read fullPath
  let body ←
    if group.2.any (·.selectsFile) then some (cleanUp grammar flags content)
    else declarationsText? graph (group.2.filterMap (·.target?)) fullPath content
  return sectionText root fullPath body

/-- The text of a selection. Paths are taken from `root`. Without a graph there are no
declarations. -/
def contextBlock (grammar : Grammar) (read : String → Option String) (graph : Option SymbolGraph)
    (root : String) (flags : CleanupFlags) (selection : List SelectedItem) : String :=
  "\n".intercalate ((itemsByFile selection).filterMap (fileSection? grammar read graph root flags))

end CodeAtlas
