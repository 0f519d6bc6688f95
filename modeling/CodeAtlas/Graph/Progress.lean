/-!
# Progress of indexing

Counters of one pass over the files of a project. They are 64-bit words.

## Main definitions

* `Progress`: the counters.
* `Progress.percent`: the share of the files that are done.
-/
namespace CodeAtlas

/-- Counters of one pass over the files of a project. -/
structure Progress where
  isActive : Bool := false
  total : UInt64 := 0
  parsed : UInt64 := 0
  failed : UInt64 := 0
  nodes : UInt64 := 0
deriving DecidableEq, Inhabited

namespace Progress

/-- A new pass over `total` files. -/
def start (total : UInt64) : Progress :=
  { isActive := true, total }

/-- A file has been parsed. -/
def fileParsed (p : Progress) : Progress :=
  { p with parsed := p.parsed + 1 }

/-- A file has been given up. -/
def fileFailed (p : Progress) : Progress :=
  { p with failed := p.failed + 1 }

/-- Another `count` symbols have been added to the graph. -/
def symbolsAdded (p : Progress) (count : UInt64) : Progress :=
  { p with nodes := p.nodes + count }

/-- The pass is over. -/
def finish (p : Progress) : Progress :=
  { p with isActive := false }

/-- The counters after a pass over some files of which `failed` were given up. -/
def ofPass (parsed failed nodes : Nat) : Progress :=
  { isActive := false, total := (parsed + failed).toUInt64, parsed := parsed.toUInt64,
    failed := failed.toUInt64, nodes := nodes.toUInt64 }

/-- The share of the files that are done, in percent; zero if there are no files. -/
def percent (p : Progress) : Float :=
  if p.total = 0 then 0.0 else (p.parsed + p.failed).toFloat / p.total.toFloat * 100.0

end Progress

end CodeAtlas
