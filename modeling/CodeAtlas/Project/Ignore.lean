import CodeAtlas.Project.Directory
import CodeAtlas.Project.Glob
import CodeAtlas.Text.Line

/-!
# Files to leave out

A directory may hold lists of rules that say which of the files below it count. The rules of
`.ignore` come before those of a work tree: `.gitignore` and `.git/info/exclude`, which count only
where a directory above, or the directory itself, holds `.git`. In each kind of list the nearest
directory with an opinion wins, and in one list the last rule that applies.

## Main definitions

* `IgnoreRule`, `IgnoreRule.ofLine?`: the rules.
* `verdict?`: what a list of rules says about a path.
* `Directory.skips`: the entry is left out.
-/
namespace CodeAtlas

/-! ## Rules -/

/-- A rule about the paths that a pattern describes. -/
structure IgnoreRule where
  pattern : List Glob.Piece
  /-- The paths are kept. -/
  keeps : Bool
  /-- The rule is about directories only. -/
  foldersOnly : Bool

/-- The text of the rule `line` without blanks at its end, except for one that is escaped. -/
def dropTrailingBlanks (line : List Char) : List Char :=
  if ['\\', ' '].isSuffixOf line then line else Text.trimEndWhile Text.isBlank line

/-- Takes off a mark that says that the rule keeps paths. -/
def takeKeepMark : List Char → Bool × List Char
  | '!' :: rest => (true, rest)
  | line => (false, line)

/-- Takes off a leading slash, which binds the rule to its own directory. -/
def takeAnchor : List Char → Bool × List Char
  | '/' :: rest => (true, rest)
  | line => (false, line)

/-- Takes a trailing slash off `line`, which makes the rule one about directories. -/
def takeFolderMark (line : List Char) : Bool × List Char :=
  match line.reverse with
  | '/' :: '\\' :: rest => (true, rest.reverse)
  | '/' :: rest => (true, rest.reverse)
  | _ => (false, line)

/-- The pattern of the rule `text`. A rule without a slash that is not `anchored` is about entries
at any depth, and one that ends in any parts is not about the directory itself. -/
def rulePattern (anchored : Bool) (text : String) : String :=
  let deep := !anchored && !text.contains '/' && !(text.startsWith "**/" || text == "**")
  let text := if deep then "**/" ++ text else text
  if text.endsWith "/**" then text ++ "/*" else text

/-- Reads one `line` of a list. Comments, empty lines and lines with a faulty pattern have no
rule. -/
def IgnoreRule.ofLine? (line : String) : Option IgnoreRule := do
  if line.startsWith "#" then none
  let line := dropTrailingBlanks line.toList
  if line.isEmpty then none
  let (keeps, anchored, body) :=
    match line with
    | '\\' :: '!' :: _ | '\\' :: '#' :: _ => (false, false, line.tail)
    | _ =>
      let (keeps, line) := takeKeepMark line
      let (anchored, line) := takeAnchor line
      (keeps, anchored, line)
  let (foldersOnly, body) := takeFolderMark body
  let pattern ← Glob.parse? (rulePattern anchored (String.ofList body))
  return { pattern, keeps, foldersOnly }

/-- What the list `rules` says about `path`: whether it is left out. -/
def verdict? (rules : List IgnoreRule) (path : String) (isFolder : Bool) : Option Bool :=
  (rules.reverse.find? fun r => Glob.describes r.pattern path && (isFolder || !r.foldersOnly)).map
    (!·.keeps)

/-! ## Lists of rules -/

/-- The parts of some bytes between line feeds. -/
def splitLines : List UInt8 → List (List UInt8)
  | [] => [[]]
  | b :: bs =>
    if b = 10 then [] :: splitLines bs
    else
      match splitLines bs with
      | [] => [[b]]
      | line :: rest => (b :: line) :: rest

/-- The lines in `bytes`, up to the first one that is not text. -/
def ruleLines (bytes : ByteArray) : List String :=
  let texts := (splitLines bytes.toList).map fun line => String.fromUTF8? ⟨line.toArray⟩
  let lines := (texts.takeWhile (·.isSome)).filterMap id
  let lines := lines.map fun line => if line.endsWith "\r" then (line.dropEnd 1).toString else line
  match lines with
  | first :: rest => String.ofList (first.toList.dropWhile (· == '\ufeff')) :: rest
  | [] => []

namespace Directory

/-- The rules in the file at the end of `names`, none if there is no such file. -/
def rulesIn (d : Directory) (names : List String) : List IgnoreRule :=
  match d.entry? names with
  | some (.file bytes) => (ruleLines bytes).filterMap IgnoreRule.ofLine?
  | _ => []

/-- The directories above the entry at the end of `names`, the nearest first. -/
def foldersAbove (names : List String) : List (List String) :=
  ((List.range names.length).map names.take).reverse

/-- What the nearest of the `folders` says about the entry at the end of `names` that has an opinion
in its list called `list`. -/
def nearestVerdict? (d : Directory) (list names : List String) (isFolder : Bool)
    (folders : List (List String)) : Option Bool :=
  folders.findSome? fun folder =>
    verdict? (d.rulesIn (folder ++ list)) ("/".intercalate (names.drop folder.length)) isFolder

/-- The directory `folder` is the top of a work tree. -/
def isWorkTree (d : Directory) (folder : List String) : Bool :=
  (d.entry? (folder ++ [".git"])).isSome

/-- The directories above the entry at the end of `names` up to the top of its work tree, none if it
does not lie in one. -/
def workTreeAbove (d : Directory) (names : List String) : List (List String) :=
  let folders := foldersAbove names
  match folders.findIdx? d.isWorkTree with
  | some i => folders.take (i + 1)
  | none => []

/-- The entry at the end of `names` is left out: a rule says so, or no rule speaks of it and its
name starts with a dot. -/
def skips (d : Directory) (names : List String) (isFolder : Bool) : Bool :=
  let tree := d.workTreeAbove names
  let said := d.nearestVerdict? [".ignore"] names isFolder (foldersAbove names) <|>
    d.nearestVerdict? [".gitignore"] names isFolder tree <|>
    d.nearestVerdict? [".git", "info", "exclude"] names isFolder tree
  said.getD (names.getLast?.any (·.startsWith "."))

end Directory

end CodeAtlas
