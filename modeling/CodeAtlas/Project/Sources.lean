import CodeAtlas.Language
import CodeAtlas.Project.Ignore

/-!
# Source files of a project

The files below a directory that are written in a known language and are not left out.

## Main definitions

* `Directory.sourceNames`: the names that lead to the source files.
* `Directory.sources`: their paths.
-/
namespace CodeAtlas.Directory

/-- Nothing on the way from `folder` to the entry at the end of `below` is left out. -/
def reaches (d : Directory) (folder below : List String) : Bool :=
  (List.range below.length).all fun n =>
    !d.skips (folder ++ below.take (n + 1)) (n + 1 < below.length)

/-- The entry at the end of `names` is a file in a known language. -/
def isSource (names : List String) : FileEntry → Bool
  | .file _ => (names.getLast?.bind Language.ofPath?).isSome
  | .folder => false

/-- Compares the names `a` and `b` in order. -/
def namesLe (a b : List String) : Bool :=
  !decide (b < a)

/-- The names that lead from `folder` to the source files below it, in order. -/
def sourceNames (d : Directory) (folder : List String) : List (List String) :=
  let found := d.entries.filterMap fun (names, e) =>
    if folder.isPrefixOf names && isSource names e && d.reaches folder (names.drop folder.length)
    then some (names.drop folder.length) else none
  found.mergeSort namesLe

/-- The paths of the source files below `root`. -/
def sources (d : Directory) (root : String) : Except ReadError (List String) := do
  let folder ← d.openFolder root
  return (d.sourceNames folder).map fun names => Path.join root ("/".intercalate names)

end CodeAtlas.Directory
