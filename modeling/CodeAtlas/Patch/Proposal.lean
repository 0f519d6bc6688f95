import CodeAtlas.Patch.Merge

/-!
# Proposed patches

What a fragment would change in the file of its owner. Nothing is written.

## Main definitions

* `Proposal`: a proposed patch.
* `proposePatch?`: the patch of a fragment.
-/
namespace CodeAtlas

/-- A proposed patch of a file. -/
structure Proposal where
  path : String
  /-- The text of the file as it is. -/
  current : String
  patched : String
  status : MergeReport
deriving DecidableEq, Inhabited

/-- The patch that a fragment proposes. There is none if no type of the project owns the fragment,
if the file of the owner cannot be read, or if nothing changes. Paths are taken from `root`. -/
def proposePatch? (grammar : Grammar) (read : String → Option String) (g : SymbolGraph)
    (root fragment : String) : Option Proposal := do
  let f := Fragment.parse grammar fragment
  let target ← findOwner? g f
  let current ← read (Path.join root target.path)
  let (patched, status) ← mergeFragment grammar current target f
  return { path := target.path, current, patched, status }

end CodeAtlas
