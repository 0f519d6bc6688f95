import CodeAtlas.CommandLine.Arguments
import CodeAtlas.Graph.Closure
import CodeAtlas.Output.Encoding
import CodeAtlas.Session

/-!
# Running a command line

What a command line prints, given a directory to work in, the text on standard input and a grammar.

## Main definitions

* `Outcome`: exit code, output and error output.
* `Complaint`: a problem in its circumstances.
* `run`: the outcome of a command line.
-/
namespace CodeAtlas.CommandLine

/-! ## Outcomes -/

/-- What a command line leads to. -/
structure Outcome where
  code : Nat := 0
  output : String := ""
  errors : String := ""
deriving DecidableEq, Inhabited

/-- A problem in its circumstances: what was tried, and what lies behind it. -/
structure Complaint where
  message : String
  causes : List String := []
deriving DecidableEq, Inhabited

/-- The lines about what lies behind a complaint. Several causes are numbered. -/
def causeLines : List String → List String
  | [] => []
  | [cause] => ["", "Caused by:", "    " ++ cause]
  | causes =>
    ["", "Caused by:"] ++
      causes.zipIdx.map fun (cause, i) => "    " ++ toString i ++ ": " ++ cause

/-- The text of some `lines`, each ended. -/
def unlines (lines : List String) : String :=
  String.join (lines.map (· ++ "\n"))

def Complaint.outcome (c : Complaint) : Outcome where
  code := 1
  errors := unlines (("Error: " ++ c.message) :: causeLines c.causes)

/-- The problem `p` by itself. -/
def Complaint.ofProblem (p : Problem) : Complaint := { message := p.message }

/-- The chain of reasons behind a problem. -/
def reasons : Problem → List String
  | .unreadable reason => [(Problem.unreadable reason).message, reason.message]
  | p => [p.message]

/-! ## The surroundings of a command -/

/-- What a command works with. -/
structure Surroundings where
  grammar : Grammar
  directory : Directory
  input : String

/-- The `path` asks for standard input. -/
def isInput (path : String) : Bool :=
  Path.components path == ["-"]

/-- The text of the file at `path`, or what is left of standard input, which can be read once. -/
def readText (s : Surroundings) (path : String) : Except Complaint (String × Surroundings) :=
  if isInput path then .ok (s.input, { s with input := "" })
  else
    match s.directory.readText path with
    | .ok text => .ok (text, s)
    | .error reason => .error { message := "Failed to read " ++ path, causes := [reason.message] }

/-- A session with the settings of the file `config` if one is given, else of the `project`. -/
def openSession (s : Surroundings) (config : Option String) (project : String) :
    Except Complaint Session :=
  let (found, place) :=
    match config with
    | some path => (Settings.ofFile s.directory path, " " ++ path)
    | none => (Settings.ofProject s.directory project, " under " ++ project)
  match found with
  | .ok settings => .ok { settings }
  | .error p => .error { message := "Failed to load config" ++ place, causes := reasons p }

/-- The graph of the project at `path`, and the `session` after it was indexed. -/
def indexed (s : Surroundings) (session : Session) (path : String) :
    Except Complaint (SymbolGraph × Session) :=
  match session.index s.grammar s.directory path with
  | (.ok g, session) => .ok (g, session)
  | (.error p, _) => .error (.ofProblem p)

/-! ## Reports -/

/-- The JSON value `v` as output. -/
def jsonOutput (v : JsonValue) : Outcome where
  output := v.pretty ++ "\n"

/-- The `lines` as output. -/
def lineOutput (lines : List String) : Outcome where
  output := unlines lines

/-- The report on a graph with this `summary`, of which `failed` files were left out. -/
def summaryLines (summary : GraphSummary) (failed : Nat) : List String :=
  let kinds := (summary.linksByKind.map fun (k, n) => (k.name, n)).mergeSort fun a b => a.1 ≤ b.1
  ["Index Statistics:", "  Files: " ++ toString summary.files] ++
    (if failed > 0 then ["  Skipped files: " ++ toString failed] else []) ++
    ["  Nodes: " ++ toString summary.nodes,
      "  Declarations: " ++ toString summary.declarations,
      "  Links: " ++ toString summary.links] ++
    (if kinds.isEmpty then []
      else
        ["", "  Links by kind:"] ++
          kinds.map fun (name, n) => "    " ++ name ++ ": " ++ toString n) ++
    ["  Implemented interfaces: " ++ toString summary.interfacesImplemented]

/-- The line about the declaration `id` of `g`. -/
def nodeLine (g : SymbolGraph) (id : String) : String :=
  match g.node? id with
  | some n => id ++ " (" ++ n.kind.name ++ ") - " ++ n.path ++ ":" ++ toString n.start
  | none => id

/-- The lines about some scopes and those in them, which lie at most `fuel` deep. -/
def scopeLines (t : ScopeForest) : (fuel depth : Nat) → List Nat → List String
  | 0, _, _ => []
  | fuel + 1, depth, ids => ids.flatMap fun i =>
    match t.get? i with
    | none => []
    | some s =>
      (String.ofList (List.replicate (2 * depth) ' ') ++ s.kind.name ++ " " ++ s.name ++
        " [" ++ toString s.start ++ ".." ++ toString s.stop ++ "]") ::
        scopeLines t fuel (depth + 1) (t.children i)

def changeLine : Change → String
  | .unchanged _ target => "  " ++ target.text
  | .inserted token => "+ " ++ token.text
  | .removed token => "- " ++ token.text
  | .replaced source target =>
    "~ inputs too large to compare (" ++ toString source ++ " x " ++ toString target ++ " tokens)"

def reportLine (mark : String) (r : NodeReport) : String :=
  mark ++ " " ++ r.kind ++ " lines " ++ toString r.startLine ++ "-" ++ toString r.stopLine

def treeComparisonLines (d : TreeComparison) : List String :=
  d.added.map (reportLine "+") ++ d.removed.map (reportLine "-") ++
    d.modified.map fun m => reportLine "~" m.new ++ " (" ++ m.kind.name ++ ")"

/-- The number `n`, which takes at least five places. -/
def padNumber (n : Nat) : String :=
  let digits := toString n
  String.ofList (List.replicate (5 - digits.length) ' ') ++ digits

def lineReportLine (l : LineReport) : String :=
  (if l.changed then "+" else " ") ++ padNumber l.number ++ " " ++ l.text

/-! ## Commands -/

def runIndex (s : Surroundings) (session : Session) (path : String) (json : Bool) :
    Except Complaint Outcome := do
  let (g, session) ← indexed s session path
  return if json then jsonOutput g.summary.toJson
    else lineOutput (summaryLines g.summary session.progress.failed.toNat)

def runDeps (s : Surroundings) (session : Session) (symbol path : String) (json : Bool) :
    Except Complaint Outcome := do
  let (g, _) ← indexed s session path
  if (g.node? symbol).isNone then .error { message := "Unknown declaration: " ++ symbol }
  else
    let ids := (g.dependencies symbol).mergeSort (· ≤ ·)
    return if json then jsonOutput (.ofList .string ids) else lineOutput (ids.map (nodeLine g))

def runScopes (s : Surroundings) (file : String) (json : Bool) : Except Complaint Outcome := do
  let (text, s) ← readText s file
  let t := ScopeForest.ofText s.grammar text file
  return if json then jsonOutput t.toJson
    else lineOutput (scopeLines t (t.scopes.length + 1) 0 t.roots)

/-- The `flags` without what is to be `kept`. -/
def Kept.apply (kept : Kept) (flags : CleanupFlags) : CleanupFlags where
  omitImports := flags.omitImports && !kept.imports
  omitNamespaces := flags.omitNamespaces && !kept.namespaces
  omitComments := flags.omitComments && !kept.comments
  omitBlankLines := flags.omitBlankLines && !kept.blankLines

def runContext (s : Surroundings) (session : Session) (path : String) (select : List String)
    (kept : Kept) : Except Complaint Outcome :=
  let flags := kept.apply session.settings.cleanup
  match session.context s.grammar s.directory path flags (select.map SelectedItem.ofArgument) with
  | (.ok text, _) => .ok { output := text }
  | (.error p, _) => .error (.ofProblem p)

def runDiff (s : Surroundings) (session : Session) (comparison : Comparison) (old new : String)
    (json : Bool) : Except Complaint Outcome := do
  let (old, s) ← readText s old
  let (new, s) ← readText s new
  match comparison with
  | .tokens =>
    let changes :=
      compareTokens session.settings.diff (tokenize s.grammar old) (tokenize s.grammar new)
    return if json then jsonOutput (.ofList Change.toJson changes)
      else lineOutput (changes.map changeLine)
  | .tree =>
    let d := compareStructure s.grammar old new
    return if json then jsonOutput d.toJson else lineOutput (treeComparisonLines d)
  | .semantic =>
    let lines := compareMembers s.grammar old new
    return if json then jsonOutput (.ofList LineReport.toJson lines)
      else lineOutput (lines.map lineReportLine)

def runPatch (s : Surroundings) (session : Session) (path fragment : String) (json : Bool) :
    Except Complaint Outcome := do
  let (text, s) ← readText s fragment
  match session.patch s.grammar s.directory path text with
  | (.error p, _) => .error (.ofProblem p)
  | (.ok none, _) => return { errors := "No patch: owner not found or nothing to change\n" }
  | (.ok (some p), _) =>
    if json then return jsonOutput p.toJson
    else
      return {
        output := p.patched
        errors := p.path ++ ": " ++ toString p.status.replaced.length ++ " replaced, " ++
          toString p.status.appended.length ++ " appended\n" }

/-- The project whose settings count for a command. -/
def projectOf : Command → String
  | .index path | .deps _ path | .context path .. | .patch path _ => path
  | .scopes file => (Path.parent? file).getD "."
  | .diff .. => "."

/-- Runs the command of `i` in the surroundings `s`. -/
def runCommand (s : Surroundings) (i : Invocation) : Except Complaint Outcome := do
  let session ← openSession s i.config (projectOf i.command)
  match i.command with
  | .index path => runIndex s session path i.json
  | .deps symbol path => runDeps s session symbol path i.json
  | .scopes file => runScopes s file i.json
  | .context path select kept => runContext s session path select kept
  | .diff comparison old new => runDiff s session comparison old new i.json
  | .patch path fragment => runPatch s session path fragment i.json

def usage : String :=
  "Usage: code-context [OPTIONS] <COMMAND>\n"

/-- The outcome of the command line `args` in the surroundings `s`. -/
def run (s : Surroundings) (args : List String) : Outcome :=
  match Request.parse args with
  | .help => { output := usage }
  | .version => { output := "code-context 0.1.0\n" }
  | .misuse => { code := 2, errors := usage }
  | .run invocation =>
    match runCommand s invocation with
    | .ok outcome => outcome
    | .error complaint => complaint.outcome

end CodeAtlas.CommandLine
