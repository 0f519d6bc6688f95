import CodeAtlas.Symbol.Kind
import CodeAtlas.Text.Slice

/-!
# Symbols and links

A link records that one symbol refers to another, and where. The links of a symbol form a set,
listed by target, kind and place.

## Main definitions

* `Link`, `Link.compare`: links and their order.
* `LinkSet.insert`: adding a link to an ordered list of links.
* `Symbol`, `Symbol.link`: symbols, and adding a link to one.
-/
namespace CodeAtlas

/-- A reference to another symbol. The range is that of the reference, not of its target. -/
structure Link where
  target : String
  kind : LinkKind
  start : Nat
  length : Nat
deriving DecidableEq, Inhabited

namespace Link

/-- The order in which `a` and `b` are listed: by target, then kind, then start, then length. -/
def compare (a b : Link) : Ordering :=
  (Ord.compare a.target b.target).then <|
    (Ord.compare a.kind.rank b.kind.rank).then <|
      (Ord.compare a.start b.start).then (Ord.compare a.length b.length)

/-- The offset after the last byte of the reference. -/
def stop (l : Link) : Nat := l.start + l.length

end Link

/-- A set of links as a list without repetitions, in the order of `Link.compare`. -/
abbrev LinkSet := List Link

/-- Adds `l` to an ordered list of links. -/
def LinkSet.insert (l : Link) : LinkSet → LinkSet
  | [] => [l]
  | m :: rest =>
    match l.compare m with
    | .lt => l :: m :: rest
    | .eq => m :: rest
    | .gt => m :: LinkSet.insert l rest

/-- A vertex of the symbol graph. -/
structure Symbol where
  id : String
  name : String
  kind : SymbolKind
  path : String
  start : Nat
  length : Nat
  links : LinkSet := []
deriving DecidableEq, Inhabited

namespace Symbol

/-- The offset after the last byte of the symbol. -/
def stop (n : Symbol) : Nat := n.start + n.length

/-- The link `l` may be added if it leads elsewhere and is not there yet. -/
def accepts (n : Symbol) (l : Link) : Bool :=
  l.target != n.id && !n.links.contains l

/-- Adds `l`, unless it leads back to the symbol itself. -/
def link (n : Symbol) (l : Link) : Symbol :=
  if l.target = n.id then n else { n with links := LinkSet.insert l n.links }

/-- The part of `text` that the symbol covers. -/
def slice? (n : Symbol) (text : String) : Option String :=
  Text.slice? text n.start n.stop

/-- The symbol lies inside the range of `outer`. -/
def within (n outer : Symbol) : Bool :=
  outer.start ≤ n.start && n.stop ≤ outer.stop

end Symbol

end CodeAtlas
