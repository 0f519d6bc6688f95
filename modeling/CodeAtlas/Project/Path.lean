/-!
# Paths

Paths are texts. As keys they are *normalized*: slashes only, no two in a row, and without one
leading `./`. As places in a directory they are read by their components, which leave out repeated
slashes and dots.

## Main definitions

* `Path.normalize`: the form of a path under which a file is listed.
* `Path.components`, `Path.join`, `Path.relativeTo`: paths as places.
* `Path.extension?`: the extension of the last component.
-/
namespace CodeAtlas.Path

/-! ## Normal form -/

/-- Two slashes stand in a row. -/
def hasSlashPair : List Char → Bool
  | '/' :: '/' :: _ => true
  | _ :: cs => hasSlashPair cs
  | [] => false

/-- Replaces two slashes in a row by one, from left to right. -/
def mergeSlashPairs : List Char → List Char
  | '/' :: '/' :: cs => '/' :: mergeSlashPairs cs
  | c :: cs => c :: mergeSlashPairs cs
  | [] => []

theorem length_mergeSlashPairs_le (cs : List Char) :
    (mergeSlashPairs cs).length ≤ cs.length := by
  fun_induction mergeSlashPairs cs <;> grind

theorem length_mergeSlashPairs_lt {cs : List Char} (h : hasSlashPair cs = true) :
    (mergeSlashPairs cs).length < cs.length := by
  fun_induction mergeSlashPairs cs with
  | case1 cs ih => grind [length_mergeSlashPairs_le]
  | case2 c cs hpair ih => grind [hasSlashPair]
  | case3 => simp [hasSlashPair] at h

/-- Replaces pairs of slashes until no two slashes of `cs` stand in a row. -/
def collapseSlashes (cs : List Char) : List Char :=
  if _h : hasSlashPair cs = true then collapseSlashes (mergeSlashPairs cs) else cs
termination_by cs.length
decreasing_by exact length_mergeSlashPairs_lt _h

/-- Drops one leading `./`. -/
def dropHere : List Char → List Char
  | '.' :: '/' :: cs => cs
  | cs => cs

def normalizeChars (cs : List Char) : List Char :=
  dropHere (collapseSlashes (cs.map fun c => if c = '\\' then '/' else c))

/-- The form of `path` under which a file is listed. -/
def normalize (path : String) : String :=
  String.ofList (normalizeChars path.toList)

/-! ## Components -/

/-- The parts of a text between slashes. -/
def splitSlash : List Char → List (List Char)
  | [] => [[]]
  | '/' :: cs => [] :: splitSlash cs
  | c :: cs =>
    match splitSlash cs with
    | [] => [[c]]
    | part :: rest => (c :: part) :: rest

/-- The parts of `path` between its slashes. -/
def parts (path : String) : List String :=
  (splitSlash path.toList).map String.ofList

/-- The `part` of a path is a step: it is not empty, and not the dot that stays where it is. -/
def isStep (part : String) : Bool :=
  !part.isEmpty && part != "."

def isAbsolute (path : String) : Bool :=
  path.toList.head? == some '/'

/-- The components of a path. The first is `/` for an absolute path, and a leading `.` counts; all
other dots and all empty parts are left out. -/
def components (path : String) : List String :=
  match parts path with
  | [] => []
  | first :: rest =>
    let rest := rest.filter isStep
    if isAbsolute path then "/" :: rest
    else if first.isEmpty then rest
    else first :: rest

/-- The path of `path` as seen from `root`. -/
def join (root path : String) : String :=
  if isAbsolute path || root.isEmpty then path
  else if root.toList.getLast? == some '/' then root ++ path
  else root ++ "/" ++ path

/-- The components of a path, joined again. -/
def ofComponents : List String → String
  | [] => ""
  | "/" :: rest => "/" ++ "/".intercalate rest
  | parts => "/".intercalate parts

/-- Drops the parts up to the `n`-th step. -/
def dropSteps : Nat → List String → List String
  | 0, parts => parts
  | _ + 1, [] => []
  | n + 1, part :: rest => dropSteps (if isStep part then n else n + 1) rest

/-- Drops what is no step off the end of `parts`. -/
def dropEnd (parts : List String) : List String :=
  (parts.reverse.dropWhile (!isStep ·)).reverse

/-- Drops what is no step off both ends of `parts`. -/
def trimSteps (parts : List String) : List String :=
  dropEnd (parts.dropWhile (!isStep ·))

/-- The `path` without what is no step at its end. -/
def withoutEnd (path : String) : String :=
  match parts path with
  | [] => ""
  | first :: rest =>
    if isAbsolute path && (dropEnd rest).isEmpty then "/"
    else "/".intercalate (first :: dropEnd rest)

/-- What remains of `path` below `root`, in the words of `path`: dots and empty parts stay where
steps stand on both sides of them. -/
def relativeTo? (root path : String) : Option String :=
  let base := components root
  if !base.isPrefixOf (components path) then none
  else if base.isEmpty then some (withoutEnd path)
  else some ("/".intercalate (trimSteps (dropSteps (base.length - 1) (parts path).tail)))

/-- The path as seen from `root`, or the whole path if it does not lie below it. -/
def relativeTo (root path : String) : String :=
  (relativeTo? root path).getD path

/-- The last component of `path`, if it names something. -/
def fileName? (path : String) : Option String :=
  match (components path).getLast? with
  | some "/" | some "." | some ".." | none => none
  | some name => some name

/-- What follows the last dot of the file name of `path`, unless the name starts with that dot. -/
def extension? (path : String) : Option String := do
  let name ← fileName? path
  let tail := (name.toList.reverse.takeWhile (· != '.')).reverse
  if tail.length + 1 < name.length then some (String.ofList tail) else none

/-- The directory that `path` lies in. -/
def parent? (path : String) : Option String :=
  match components path with
  | [] | ["/"] => none
  | parts => some (ofComponents parts.dropLast)

end CodeAtlas.Path
