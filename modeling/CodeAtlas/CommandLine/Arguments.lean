/-!
# Arguments of the command line

A command line names a command, with nested commands for comparisons. Options may stand anywhere
after the command they belong to; those that say how to answer may stand in front of it too. An
option takes its value from the next argument or after an equals sign. After `--` nothing is an
option.

## Main definitions

* `Command`, `Invocation`: what is asked for.
* `Arg`, `classify`: arguments by their form.
* `Invocation.parse`: reading the arguments.
-/
namespace CodeAtlas.CommandLine

/-! ## What is asked for -/

/-- How two versions are compared. -/
inductive Comparison where
  | tokens
  | tree
  | semantic
deriving DecidableEq, Inhabited

/-- What a whole file keeps of what would be left out. -/
structure Kept where
  imports : Bool := false
  namespaces : Bool := false
  comments : Bool := false
  blankLines : Bool := false
deriving DecidableEq, Inhabited

/-- What is to be done. -/
inductive Command where
  | index (path : String)
  | deps (symbol path : String)
  | scopes (file : String)
  | context (path : String) (select : List String) (kept : Kept)
  | diff (comparison : Comparison) (old new : String)
  | patch (path fragment : String)
deriving DecidableEq, Inhabited

/-- A command with what says how to answer it. -/
structure Invocation where
  command : Command
  config : Option String
  json : Bool
deriving DecidableEq, Inhabited

/-- The outcome of reading the arguments. -/
inductive Request where
  | run (invocation : Invocation)
  | help
  | version
  /-- The arguments do not make sense. -/
  | misuse
deriving DecidableEq, Inhabited

/-! ## Arguments by their form -/

/-- The form of an argument. -/
inductive Arg where
  /-- `--name` or `--name=value`. -/
  | option (name : String) (value : Option String)
  /-- A dash and letters. -/
  | letters (names : List Char)
  /-- `--` alone. -/
  | stop
  | plain (text : String)
deriving DecidableEq, Inhabited

/-- The form of the argument `arg`. A dash alone is plain. -/
def classify (arg : String) : Arg :=
  match arg.toList with
  | ['-', '-'] => .stop
  | '-' :: '-' :: rest =>
    match rest.dropWhile (· != '=') with
    | [] => .option (String.ofList rest) none
    | _ :: value => .option (String.ofList (rest.takeWhile (· != '='))) (some (String.ofList value))
  | '-' :: c :: rest => .letters (c :: rest)
  | _ => .plain arg

/-! ## Options -/

/-- The kinds of options. -/
inductive OptionKind where
  /-- It takes no value and is given at most once. -/
  | flag
  /-- It takes a value and is given at most once. -/
  | single
  /-- It takes a value and may be given again. -/
  | repeated
deriving DecidableEq, Inhabited

/-- What a command takes. -/
structure Shape where
  options : List (String × OptionKind)
  /-- The number of plain arguments that it may have. -/
  most : Nat
  /-- The plain arguments are paths. -/
  takesPaths : Bool := true

/-- The options that every command takes. -/
def sharedOptions : List (String × OptionKind) :=
  [("config", .single), ("format", .single)]

/-- Arguments that have been sorted. -/
structure Sorted where
  options : List (String × String) := []
  plain : List String := []
deriving DecidableEq, Inhabited

namespace Sorted

def has (s : Sorted) (name : String) : Bool :=
  s.options.any (·.1 == name)

/-- The values that `s` has for the option `name`. -/
def values (s : Sorted) (name : String) : List String :=
  (s.options.filter (·.1 == name)).map (·.2)

def value? (s : Sorted) (name : String) : Option String :=
  s.options.lookup name

def addOption (s : Sorted) (name value : String) : Sorted :=
  { s with options := s.options ++ [(name, value)] }

def addPlain (s : Sorted) (text : String) : Sorted :=
  { s with plain := s.plain ++ [text] }

end Sorted

/-- Why sorting stopped early. -/
inductive Interruption where
  | help
  | version
  | misuse
deriving DecidableEq, Inhabited

/-- An option without its value. -/
inductive OptionUse where
  /-- Its value is given with it, or it has none. -/
  | complete (name value : String)
  /-- Its value is the next argument. -/
  | awaiting (name : String)

/-- How the option `name` is used after the arguments in `s`. An option given too often is a misuse,
as is a flag with a value. -/
def useOption (options : List (String × OptionKind)) (s : Sorted) (name : String)
    (value : Option String) : Except Interruption OptionUse :=
  match options.lookup name, value with
  | none, _ => .error (if name == "help" && value.isNone then .help else .misuse)
  | some .flag, some _ => .error .misuse
  | some kind, value =>
    if kind != .repeated && s.has name then .error .misuse
    else
      match kind, value with
      | .flag, _ => .ok (.complete name "")
      | _, some v => .ok (.complete name v)
      | _, none => .ok (.awaiting name)

/-- The text `value` makes sense for the option `name`: paths are not empty, and there are two
formats. -/
def isValue (name value : String) : Bool :=
  if name == "config" || name == "path" then !value.isEmpty
  else if name == "format" then value == "text" || value == "json"
  else true

/-- Gives the option `name` its `value`. -/
def Sorted.give (s : Sorted) (name value : String) : Except Interruption Sorted :=
  if isValue name value then .ok (s.addOption name value) else .error .misuse

/-- Takes the plain argument `text`, as far as `shape` has room for it. -/
def Sorted.take (s : Sorted) (shape : Shape) (text : String) : Except Interruption Sorted :=
  if s.plain.length < shape.most && !(shape.takesPaths && text.isEmpty) then .ok (s.addPlain text)
  else .error .misuse

/-- What letters after a dash ask for. -/
def useLetters : List Char → Interruption
  | 'h' :: _ => .help
  | _ => .misuse

/-- Sorts the arguments of a command without nested commands. The option `waiting` still lacks its
value. -/
def sortArguments (shape : Shape) (s : Sorted) : (waiting : Option String) → List String →
    Except Interruption Sorted
  | some _, [] => .error .misuse
  | none, [] => .ok s
  | some name, arg :: rest =>
    match classify arg with
    | .plain text => do sortArguments shape (← s.give name text) none rest
    | _ => .error .misuse
  | none, arg :: rest =>
    match classify arg with
    | .stop => rest.foldlM (fun s text => s.take shape text) s
    | .letters names => .error (useLetters names)
    | .plain text => do sortArguments shape (← s.take shape text) none rest
    | .option name value => do
      match ← useOption shape.options s name value with
      | .complete name value => sortArguments shape (← s.give name value) none rest
      | .awaiting name => sortArguments shape s (some name) rest

/-- The options in front of a nested command, the command, and the arguments after it. The option
`waiting` still lacks its value. -/
def sortLeading (isTop : Bool) (s : Sorted) : (waiting : Option String) → List String →
    Except Interruption (Sorted × String × List String)
  | _, [] => .error .misuse
  | some name, arg :: rest =>
    match classify arg with
    | .plain text => do sortLeading isTop (← s.give name text) none rest
    | _ => .error .misuse
  | none, arg :: rest =>
    match classify arg with
    | .stop => .error .misuse
    | .letters ('V' :: _) => .error (if isTop then .version else .misuse)
    | .letters names => .error (useLetters names)
    | .plain text => .ok (s, text, rest)
    | .option "version" none => .error (if isTop then .version else .misuse)
    | .option name value => do
      match ← useOption sharedOptions s name value with
      | .complete name value => sortLeading isTop (← s.give name value) none rest
      | .awaiting name => sortLeading isTop s (some name) rest

/-! ## Commands -/

/-- What the commands without nested commands take. -/
def shapeOf : List String → Option Shape
  | ["index"] => some { options := sharedOptions, most := 1 }
  | ["deps"] =>
    some { options := ("path", .single) :: sharedOptions, most := 1, takesPaths := false }
  | ["scopes"] => some { options := sharedOptions, most := 1 }
  | ["context"] =>
    some {
      options :=
        [("select", .repeated), ("keep-imports", .flag), ("keep-namespaces", .flag),
          ("keep-comments", .flag), ("keep-blank-lines", .flag)] ++ sharedOptions
      most := 1 }
  | ["patch"] => some { options := sharedOptions, most := 2 }
  | ["diff", "tokens"] | ["diff", "tree"] | ["diff", "semantic"] =>
    some { options := sharedOptions, most := 2 }
  | _ => none

/-- The command of that `name` which the sorted arguments `s` make up. -/
def commandOf? (name : List String) (s : Sorted) : Option Command :=
  match name, s.plain with
  | ["index"], plain => some (.index (plain.headD "."))
  | ["deps"], [symbol] => some (.deps symbol ((s.value? "path").getD "."))
  | ["scopes"], [file] => some (.scopes file)
  | ["context"], plain =>
    match s.values "select" with
    | [] => none
    | select =>
      some (.context (plain.headD ".") select {
        imports := s.has "keep-imports", namespaces := s.has "keep-namespaces",
        comments := s.has "keep-comments", blankLines := s.has "keep-blank-lines" })
  | ["patch"], [path, fragment] => some (.patch path fragment)
  | ["diff", "tokens"], [old, new] => some (.diff .tokens old new)
  | ["diff", "tree"], [old, new] => some (.diff .tree old new)
  | ["diff", "semantic"], [old, new] => some (.diff .semantic old new)
  | _, _ => none

/-- The nested commands of comparisons. -/
def comparisonNames : List (String × List String) :=
  [("tokens", []), ("tree", []), ("semantic", []), ("help", [])]

/-- The commands with their nested commands. -/
def commandNames : List (String × List String) :=
  [("index", []), ("deps", []), ("scopes", []), ("context", []),
    ("diff", comparisonNames.map (·.1)), ("patch", []), ("help", [])]

/-- The value of the option `name`, which may be given at several `levels`, the innermost first. -/
def innermost? (levels : List Sorted) (name : String) : Option String :=
  levels.findSome? (·.value? name)

/-- Reads the arguments `args` of the command `name`, given the options in front of it as
`outer`. -/
def readCommand (name : List String) (outer : List Sorted) (args : List String) :
    Except Interruption Invocation := do
  match shapeOf name with
  | none => .error .misuse
  | some shape =>
    let s ← sortArguments shape {} none args
    match commandOf? name s with
    | none => .error .misuse
    | some command =>
      let levels := s :: outer
      return {
        command
        config := innermost? levels "config"
        json := innermost? levels "format" == some "json" }

/-- A request for help on one of the `commands`, or on one of its nested commands. -/
def helpOn (commands : List (String × List String)) : List String → Interruption
  | [] => .help
  | [name] => if commands.any (·.1 == name) then .help else .misuse
  | [name, nested] => if ((commands.lookup name).getD []).contains nested then .help else .misuse
  | _ => .misuse

/-- Reads all arguments `args`. -/
def readArguments (args : List String) : Except Interruption Invocation := do
  let (top, name, rest) ← sortLeading true {} none args
  if name == "help" then .error (helpOn commandNames rest)
  else if name == "diff" then
    let (inner, kind, rest) ← sortLeading false {} none rest
    if kind == "help" then .error (helpOn comparisonNames rest)
    else readCommand ["diff", kind] [inner, top] rest
  else readCommand [name] [top] rest

/-- What the arguments `args` ask for. -/
def Request.parse (args : List String) : Request :=
  match readArguments args with
  | .ok invocation => .run invocation
  | .error .help => .help
  | .error .version => .version
  | .error .misuse => .misuse

end CodeAtlas.CommandLine
