import CodeAtlas.Reference.Role

/-!
# References of a file

The walk through a file follows the plan of each node and collects what the nodes contribute, in the
order of the text. Names stay bound from where they are bound to the end of the construct that
restores the names from before it: a type, a member, a lambda or a `foreach`.

## Main definitions

* `Reader.walk`: what a node and its descendants contribute, and the names bound after it.
* `Reader.contributions`: what a file contributes.
-/
namespace CodeAtlas.Reader

/-- The place of the child `c` and of the siblings after it. -/
def placeOf (r : Reader) (role : Role) (place : Place) (c : Tree) : Place :=
  if role = .fileScope then r.enter place c else place

mutual

/-- What a node and its descendants contribute when it is read in this `role`, and the names bound
after it. -/
def walk (r : Reader) (role : Role) (place : Place) (above : List Tree) (locals : Locals) :
    Tree → Locals × List Contribution
  | .node d cs =>
    let t := Tree.node d cs
    match role with
    | .skipped => (locals, [])
    | .declarator declared isLocal =>
      let name := t.declaratorNameIndex?
      let (after, inferred, found) := walkValues r place (t :: above) name 0 locals none cs
      match isLocal, name.bind (cs[·]?) with
      | true, some id =>
        (after.bind (r.text id) (declared <|> inferred),
          found ++ r.granularAt .localVariable (r.text id) t)
      | _, _ => (after, found)
    | role =>
      let plan := r.plan role place locals above t
      let (after, found) := walkAll r plan.role plan.place (t :: above) 0 plan.locals cs
      (plan.after.getD after, plan.own ++ found)

/-- The same for siblings, of which the first stands at position `i`. -/
def walkAll (r : Reader) (role : Nat → Tree → Role) (place : Place) (above : List Tree) (i : Nat)
    (locals : Locals) : List Tree → Locals × List Contribution
  | [] => (locals, [])
  | c :: cs =>
    let place := r.placeOf (role i c) place c
    let (locals, found) := walk r (role i c) place above locals c
    let (after, rest) := walkAll r role place above (i + 1) locals cs
    (after, found ++ rest)

/-- What the parts of a declarator from position `i` on contribute, other than its `name`, with the
names bound after them and the type of the first of them that has one. -/
def walkValues (r : Reader) (place : Place) (above : List Tree) (name : Option Nat) (i : Nat)
    (locals : Locals) (inferred : Option Nat) :
    List Tree → Locals × Option Nat × List Contribution
  | [] => (locals, inferred, [])
  | c :: cs =>
    if !c.named || name == some i then walkValues r place above name (i + 1) locals inferred cs
    else
      let inferred := inferred <|> r.typeOf? place locals above c
      let (locals, found) := walk r .code place above locals c
      let (after, inferred, rest) := walkValues r place above name (i + 1) locals inferred cs
      (after, inferred, found ++ rest)

end

/-- What the file with the tree `root` contributes. -/
def contributions (r : Reader) (root : Tree) : List Contribution :=
  (r.walk .sequence {} [] [] root).2

end CodeAtlas.Reader
