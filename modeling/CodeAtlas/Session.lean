import CodeAtlas.Context
import CodeAtlas.Graph.Progress
import CodeAtlas.Patch.Proposal
import CodeAtlas.Project.Sources
import CodeAtlas.Settings.Basic

/-!
# Sessions

A session answers requests about projects. It keeps the graph of the last project that was asked
for; another project takes its place, and a project that cannot be read leaves nothing behind.

## Main definitions

* `RootCache`: a place for one graph.
* `indexRoot`: the graph of a project.
* `Session`: settings with a cache.
* `Session.index`, `Session.context`, `Session.patch`: requests.
* `readSource`: the tree of one file.
-/
namespace CodeAtlas

/-! ## The cache -/

/-- A place for what belongs to one root. -/
structure RootCache (γ : Type) where
  /-- What is kept, with its root. -/
  slot : Option (String × γ) := none
  /-- What others see. -/
  published : Option γ := none

namespace RootCache

variable {γ ε : Type}

/-- The paths `a` and `b` denote one root. -/
def sameRoot (a b : String) : Bool :=
  Path.components a == Path.components b

/-- What `c` keeps for `root`. -/
def hit? (c : RootCache γ) (root : String) : Option γ :=
  match c.slot with
  | some (kept, g) => if sameRoot kept root then some g else none
  | none => none

/-- What belongs to `root`: what is kept for it, else what `build` gives now. The cache is empty
while something is built, and stays empty if that fails. -/
def get (c : RootCache γ) (root : String) (build : Unit → Except ε γ) :
    Except ε γ × RootCache γ :=
  match c.hit? root with
  | some g => (.ok g, c)
  | none =>
    match build () with
    | .ok g => (.ok g, { slot := some (root, g), published := some g })
    | .error e => (.error e, {})

end RootCache

/-! ## Projects -/

/-- The graph of a project, with the counters of the pass that built it. -/
structure ProjectIndex where
  graph : SymbolGraph
  progress : Progress

/-- The text of the file at `path`, if it can be read. -/
def Directory.text? (d : Directory) (path : String) : Option String :=
  (d.readText path).toOption

/-- The graph of the files at `paths`. Those that cannot be read are left out. -/
def indexFiles (grammar : Grammar) (d : Directory) (options : IndexSettings) (paths : List String) :
    ProjectIndex :=
  let sources := paths.filterMap fun path => (d.text? path).map (path, ·)
  let graph := SymbolGraph.ofSources grammar sources options
  { graph, progress := .ofPass sources.length (paths.length - sources.length) graph.nodes.size }

/-- The graph of the project at `root`. -/
def indexRoot (grammar : Grammar) (d : Directory) (options : IndexSettings) (root : String) :
    Except Problem ProjectIndex :=
  match d.sources root with
  | .ok paths => .ok (indexFiles grammar d options paths)
  | .error reason => .error (.unreadableRoot root reason)

/-- A file with its language and its tree. -/
structure LanguageFile where
  language : Language
  text : String
  tree : Tree

/-- Reads the file at `path`, which has to be in a known language. -/
def readSource (grammar : Grammar) (d : Directory) (path : String) : Except Problem LanguageFile :=
  match Language.ofPath? path with
  | none => .error (.unsupported path)
  | some language =>
    match d.readText path with
    | .ok text => .ok { language, text, tree := grammar text }
    | .error reason => .error (.unreadable reason)

/-! ## Requests -/

/-- Settings with the graph of the last project. -/
structure Session where
  settings : Settings
  cache : RootCache ProjectIndex := {}
  /-- The counters of the last pass over a project. -/
  progress : Progress := {}

namespace Session

/-- The graph that others see during the session `s`. -/
def current? (s : Session) : Option SymbolGraph :=
  s.cache.published.map (·.graph)

/-- The graph of the project at `root`, and the session after it was asked for. -/
def index (s : Session) (grammar : Grammar) (d : Directory) (root : String) :
    Except Problem SymbolGraph × Session :=
  let (outcome, cache) := s.cache.get root fun _ => indexRoot grammar d s.settings.index root
  match outcome with
  | .ok i => (.ok i.graph, { s with cache, progress := i.progress })
  | .error e => (.error e, { s with cache })

/-- The text of a `selection`. The project is indexed only if a declaration is selected. -/
def context (s : Session) (grammar : Grammar) (d : Directory) (root : String) (flags : CleanupFlags)
    (selection : List SelectedItem) : Except Problem String × Session :=
  let block (g : Option SymbolGraph) := contextBlock grammar d.text? g root flags selection
  if selection.all (·.selectsFile) then (.ok (block none), s)
  else
    let (g, s) := s.index grammar d root
    (g.map fun g => block (some g), s)

/-- The patch that a `fragment` proposes in the project at `root`. -/
def patch (s : Session) (grammar : Grammar) (d : Directory) (root fragment : String) :
    Except Problem (Option Proposal) × Session :=
  let (g, s) := s.index grammar d root
  (g.map fun g => proposePatch? grammar d.text? g root fragment, s)

end Session

end CodeAtlas
