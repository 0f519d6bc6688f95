import CodeAtlas.Graph.Basic
import CodeAtlas.Reference.Walk

/-!
# Building the symbol graph

The graph of a project is built from the syntax trees of its files in two rounds: the declarations
of all files go into one table, then every file is walked against that table. Every declaration
becomes a symbol under its id, with the links that the walks found for it.

## Main definitions

* `IndexSettings`: what the graph is to hold besides declarations and under which ids, and which
  further names are built in.
* `SourceFile`: a text with its path and its syntax tree.
* `SymbolGraph.ofFiles`: the graph of some files.
-/
namespace CodeAtlas

/-- The `n`-th id of a supply that counts. It starts with a blank, which no declared name does. -/
def numberedId (n : Nat) : String :=
  " " ++ toString n

/-- What a graph is to hold. -/
structure IndexSettings where
  /-- Parameters, locals, literals, keywords and control flow are symbols too. -/
  granular : Bool := false
  /-- Names that count as built in, besides those of the standard library. -/
  extraBuiltins : List String := []
  /-- The supply of ids for granular symbols, which are not named by a declaration. -/
  granularId : Nat → String := numberedId

/-- A text with its path and its syntax tree. -/
structure SourceFile where
  path : String
  text : String
  tree : Tree

namespace SourceFile

/-- The file of a `text` under the normalized `path`. -/
def parse (grammar : Grammar) (path text : String) : SourceFile where
  path := Path.normalize path
  text := text
  tree := grammar text

def declarations (f : SourceFile) : List Declaration :=
  f.tree.declarations f.text f.path

/-- The reader of the file `f`. The search for a type may visit every node of the file once. -/
def reader (f : SourceFile) (table : Table) (options : IndexSettings) : Reader where
  table := table
  source := f.text
  path := f.path
  granular := options.granular
  steps := f.tree.size

end SourceFile

/-- The table of the declarations of `files`. -/
def tableOf (files : List SourceFile) (options : IndexSettings) : Table :=
  Table.ofFiles (files.map (·.declarations)) options.extraBuiltins

/-- What `files` contribute against `table`, together with the path of the file it comes from. -/
def contributionsOf (files : List SourceFile) (table : Table) (options : IndexSettings) :
    List (String × Contribution) :=
  files.flatMap fun f => ((f.reader table options).contributions f.tree).map (f.path, ·)

namespace SymbolGraph

/-- The links of `found` that belong to the entry at position `i`. -/
def linksOf (found : List (String × Contribution)) (i : Nat) : List Link :=
  found.filterMap fun
    | (_, .link source l) => if source = i then some l else none
    | _ => none

/-- The symbol of the entry `e` at position `i` with the links of `found` that belong to it. -/
def declarationNode (found : List (String × Contribution)) (i : Nat) (e : Entry) : Symbol :=
  (linksOf found i).foldl Symbol.link
    { id := e.id, name := e.name, kind := e.kind, path := e.path
      start := e.start, length := e.length }

/-- The granular symbols that were found. The `n`-th one gets the `n`-th of the `ids`. -/
def granularNodes (ids : Nat → String) (found : List (String × Contribution)) : List Symbol :=
  let parts := found.filterMap fun
    | (path, .granular kind name start length) => some (path, kind, name, start, length)
    | _ => none
  parts.zipIdx.map fun ((path, kind, name, start, length), n) =>
    { id := ids n, name, kind, path, start, length }

/-- The implementations in `found`, as pairs of an interface and a type. -/
def implementationsOf (found : List (String × Contribution)) : List (String × String) :=
  found.filterMap fun
    | (_, .implementation interface implementer) => some (interface, implementer)
    | _ => none

/-- The graph of a `table` and of what was `found` in its files. Granular symbols get their ids from
the supply `ids`. -/
def assemble (ids : Nat → String) (table : Table) (found : List (String × Contribution)) :
    SymbolGraph :=
  let declared := table.indexed.map fun (i, e) => declarationNode found i e
  let g := (declared ++ granularNodes ids found).foldl insert empty
  let g := (implementationsOf found).foldl (fun g (interface, type) => g.implement interface type) g
  g.arrange

/-- The graph of `files`. -/
def ofFiles (files : List SourceFile) (options : IndexSettings) : SymbolGraph :=
  let table := tableOf files options
  assemble options.granularId table (contributionsOf files table options)

/-- The graph of the texts `sources`, each with its path. -/
def ofSources (grammar : Grammar) (sources : List (String × String)) (options : IndexSettings) :
    SymbolGraph :=
  ofFiles (sources.map fun (path, text) => SourceFile.parse grammar path text) options

end SymbolGraph

end CodeAtlas
