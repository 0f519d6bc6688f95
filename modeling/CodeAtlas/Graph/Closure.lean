import CodeAtlas.Graph.Basic

/-!
# Dependencies of a symbol

The dependencies of a symbol are collected breadth first. Deep links are followed; the targets of
the other links are collected and not followed. A target that was collected through a shallow link
first is not followed later.

## Main definitions

* `SymbolGraph.dependencies`: the ids that a symbol depends on, itself included.
* `SymbolGraph.DeepPath`: the symbols that deep links lead to.
-/
namespace CodeAtlas.SymbolGraph

/-- The state of the search: what has been collected and what is still to be followed. -/
structure Frontier where
  collected : List String
  queue : List String

namespace Frontier

/-- Collects the target of `l`. Only a new target of a deep link is to be followed. -/
def visit (f : Frontier) (l : Link) : Frontier :=
  if f.collected.contains l.target then f
  else
    { collected := f.collected ++ [l.target]
      queue := if l.kind.isDeep then f.queue ++ [l.target] else f.queue }

end Frontier

/-- The links that leave `id`. -/
def linksFrom (g : SymbolGraph) (id : String) : List Link :=
  ((g.node? id).map (·.links)).getD []

/-- Follows at most `fuel` ids of the queue. -/
def search (g : SymbolGraph) : (fuel : Nat) → Frontier → List String
  | 0, f => f.collected
  | fuel + 1, f =>
    match f.queue with
    | [] => f.collected
    | id :: queue => search g fuel ((g.linksFrom id).foldl Frontier.visit { f with queue })

/-- The ids that the symbol `start` depends on, itself included. An unknown symbol depends on
nothing. Every id is followed at most once, and every id but the first is the target of a link. -/
def dependencies (g : SymbolGraph) (start : String) : List String :=
  if (g.node? start).isSome then
    g.search (g.allLinks.length + 1) { collected := [start], queue := [start] }
  else []

/-- The outcome of a search from `start` that can be called off. It is called off when the first id
is followed, so a search from an unknown symbol still ends with nothing. -/
def dependencies? (g : SymbolGraph) (start : String) (cancelled : Bool) : Option (List String) :=
  if cancelled && (g.node? start).isSome then none else some (g.dependencies start)

/-- A path of deep links between symbols of the graph. -/
inductive DeepPath (g : SymbolGraph) (start : String) : String → Prop where
  | refl : (g.node? start).isSome → DeepPath g start start
  | step {id : String} {n : Symbol} {l : Link} :
      DeepPath g start id → g.node? id = some n → l ∈ n.links → l.kind.isDeep = true →
      (g.node? l.target).isSome → DeepPath g start l.target

end CodeAtlas.SymbolGraph
