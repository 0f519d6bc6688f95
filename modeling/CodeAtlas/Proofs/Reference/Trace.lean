import CodeAtlas.Proofs.Declaration.Sites
import CodeAtlas.Proofs.Reference.Walk

/-!
# The visits of a walk

A walk reads some nodes of a file, each of them once. Here it is listed what it reads, each visit
with the address of its node: the position of the node among its siblings, that of its parent, and
so on up to the root. The contributions of the file are those of the visits, in this order.

## Main definitions

* `BelowChild`: addresses below some children of a node.
* `PlacedVisit`: a visit and the address of its node.
* `Reader.visits`, `Reader.trace`: the visits of a walk.

## Main statements

* `Reader.contributions_eq_flatMap_trace`: a file contributes what its visits do.
* `Reader.forall_mem_visits`: what passes from a node to its children holds of all visits.
-/
namespace CodeAtlas

/-! ## Addresses -/

/-- Two children of one node with the same nodes below them are the same. -/
theorem head_eq_of_suffix {i j : Nat} {a x : List Nat} (hi : (i :: a) <:+ x)
    (hj : (j :: a) <:+ x) : i = j := by
  have hsuffix : (i :: a) <:+ (j :: a) := List.suffix_of_suffix_length_le hi hj (by simp)
  have heq := hsuffix.eq_of_length (by simp)
  exact (List.cons.inj heq).1

theorem ne_of_cons_suffix {i : Nat} {a x : List Nat} (h : (i :: a) <:+ x) : x ≠ a := by
  rintro rfl
  have hle := h.length_le
  rw [List.length_cons] at hle
  omega

/-- The address is one below a child of the node at `address`, which stands at position `k` or
later. -/
def BelowChild (address : List Nat) (k : Nat) (a : List Nat) : Prop :=
  ∃ j ≥ k, (j :: address) <:+ a

theorem BelowChild.cons {address a : List Nat} {k : Nat} (h : BelowChild address k a) (i : Nat) :
    BelowChild address k (i :: a) := by
  obtain ⟨j, hj, ha⟩ := h
  exact ⟨j, hj, ha.trans (List.suffix_cons i a)⟩

theorem belowChild_add (address : List Nat) (k i : Nat) :
    BelowChild address k ((k + i) :: address) :=
  ⟨k + i, Nat.le_add_right k i, List.suffix_rfl⟩

/-! ## Visits -/

/-- A node as a walk reads it, and the address of the node. -/
structure PlacedVisit extends Visit where
  address : List Nat

namespace Reader

variable {r : Reader} {role : Role} {place : Place} {locals : Locals} {above : List Tree}
  {address : List Nat} {t : Tree} {v : PlacedVisit}

mutual

/-- The visits of a walk that reads the node at `address` in this `role`. -/
def visits (r : Reader) (role : Role) (place : Place) (above : List Tree) (locals : Locals)
    (address : List Nat) : Tree → List PlacedVisit
  | .node d cs =>
    let t := Tree.node d cs
    let self : PlacedVisit := ⟨⟨role, place, locals, above, t⟩, address⟩
    match role with
    | .skipped => []
    | .declarator _ _ =>
      visitsValues r place (t :: above) address t.declaratorNameIndex? 0 locals cs ++ [self]
    | role =>
      let plan := r.plan role place locals above t
      self :: visitsAll r plan.role plan.place (t :: above) address 0 plan.locals cs

/-- The same for some children of the node at an address, the first of which stands at position
`i`. -/
def visitsAll (r : Reader) (role : Nat → Tree → Role) (place : Place) (above : List Tree)
    (address : List Nat) (i : Nat) (locals : Locals) : List Tree → List PlacedVisit
  | [] => []
  | c :: cs =>
    let place := r.placeOf (role i c) place c
    visits r (role i c) place above locals (i :: address) c ++
      visitsAll r role place above address (i + 1) (r.walk (role i c) place above locals c).1 cs

/-- The visits of a walk through the parts of a declarator from position `i` on, other than its
`name`. -/
def visitsValues (r : Reader) (place : Place) (above : List Tree) (address : List Nat)
    (name : Option Nat) (i : Nat) (locals : Locals) : List Tree → List PlacedVisit
  | [] => []
  | c :: cs =>
    if !c.named || name == some i then
      visitsValues r place above address name (i + 1) locals cs
    else
      visits r .code place above locals (i :: address) c ++
        visitsValues r place above address name (i + 1) (r.walk .code place above locals c).1 cs

end

/-- The visits of the walk through the file with the tree `root`. -/
def trace (r : Reader) (root : Tree) : List PlacedVisit :=
  r.visits .sequence {} [] [] [] root

/-! ## What the visits contribute -/

/-- What the visits `vs` contribute. -/
def ownOfAll (r : Reader) (vs : List PlacedVisit) : List Contribution :=
  vs.flatMap fun v => r.ownOf v.toVisit

@[simp] theorem ownOfAll_append (r : Reader) (vs ws : List PlacedVisit) :
    r.ownOfAll (vs ++ ws) = r.ownOfAll vs ++ r.ownOfAll ws :=
  List.flatMap_append

section Children

variable {cs : List Tree} (hwalk : ∀ c ∈ cs, ∀ role place above locals address,
  (r.walk role place above locals c).2 = r.ownOfAll (r.visits role place above locals address c))
include hwalk

theorem walkAll_eq_ownOfAll (f : Nat → Tree → Role) (place : Place) (above : List Tree)
    (address : List Nat) (i : Nat) (locals : Locals) :
    (r.walkAll f place above i locals cs).2 =
      r.ownOfAll (r.visitsAll f place above address i locals cs) := by
  induction cs generalizing i place locals with
  | nil =>
    rw [walkAll, visitsAll]
    rfl
  | cons c cs ih =>
    obtain ⟨hc, hrest⟩ := List.forall_mem_cons.mp hwalk
    rw [walkAll, visitsAll, ownOfAll_append, ← hc, ← ih hrest]

theorem walkValues_eq_ownOfAll (place : Place) (above : List Tree) (address : List Nat)
    (name : Option Nat) (i : Nat) (locals : Locals) (inferred : Option Nat) :
    (r.walkValues place above name i locals inferred cs).2.2 =
      r.ownOfAll (r.visitsValues place above address name i locals cs) := by
  induction cs generalizing i locals inferred with
  | nil =>
    rw [walkValues, visitsValues]
    rfl
  | cons c cs ih =>
    obtain ⟨hc, hrest⟩ := List.forall_mem_cons.mp hwalk
    rw [walkValues, visitsValues]
    split
    · exact ih hrest _ _ _
    · rw [ownOfAll_append, ← hc, ← ih hrest]

end Children

/-- What a walk contributes is what its visits do. -/
theorem walk_eq_ownOfAll (r : Reader) (t : Tree) : ∀ (role : Role) (place : Place)
    (above : List Tree) (locals : Locals) (address : List Nat),
    (r.walk role place above locals t).2 =
      r.ownOfAll (r.visits role place above locals address t) := by
  induction t using Tree.childInduction with
  | inherit t ih =>
    intro role place above locals address
    obtain ⟨d, cs⟩ := t
    rw [Tree.children_node] at ih
    have hall := walkAll_eq_ownOfAll ih
    unfold walk visits
    cases role
    case skipped => rfl
    case declarator declared isLocal =>
      have hvalues := walkValues_eq_ownOfAll ih place (.node d cs :: above) address
        (Tree.node d cs).declaratorNameIndex? 0 locals none
      simp only [ownOfAll_append, ← hvalues]
      cases isLocal with
      | false => exact (List.append_nil _).symm
      | true =>
        cases hid : (Tree.node d cs).declaratorNameIndex?.bind (cs[·]?) with
        | none => simp [ownOfAll, ownOf, hid, planOf, plan]
        | some id => simp [ownOfAll, ownOf, hid]
    all_goals exact congrArg (_ ++ ·) (hall _ _ _ _ _ _)

/-- A file contributes what the visits of its walk do. -/
theorem contributions_eq_flatMap_trace (r : Reader) (root : Tree) :
    r.contributions root = (r.trace root).flatMap fun v => r.ownOf v.toVisit :=
  walk_eq_ownOfAll r root _ _ _ _ _

/-! ## The visits below a node -/

/-- A node that is read comes before the nodes below it, unless it is a declarator. -/
theorem visits_eq_cons {role : Role} (hskipped : role ≠ .skipped)
    (hdeclarator : ∀ declared isLocal, role ≠ .declarator declared isLocal) :
    r.visits role place above locals address t =
      let plan := r.plan role place locals above t
      ⟨⟨role, place, locals, above, t⟩, address⟩ ::
        r.visitsAll plan.role plan.place (t :: above) address 0 plan.locals t.children := by
  obtain ⟨d, cs⟩ := t
  unfold visits
  dsimp only
  split
  · exact absurd rfl hskipped
  · exact absurd rfl (hdeclarator _ _)
  · rfl

@[simp] theorem visits_skipped : r.visits .skipped place above locals address t = [] := by
  cases t
  rw [visits]

section Invariant

variable {P : List Nat → List Tree → Tree → Prop} {cs : List Tree} {i : Nat}

section Children

variable (hvisits : ∀ c ∈ cs, ∀ role place above locals address, P address above c →
    ∀ v ∈ r.visits role place above locals address c, P v.address v.above v.node)
  (hcs : ∀ k c, cs[k]? = some c → P ((i + k) :: address) above c)
include hvisits hcs

theorem forall_mem_visitsAll (f : Nat → Tree → Role) (place : Place) (locals : Locals) :
    ∀ v ∈ r.visitsAll f place above address i locals cs, P v.address v.above v.node := by
  intro v hv
  induction cs generalizing i place locals with
  | nil => simp [visitsAll] at hv
  | cons c cs ih =>
    obtain ⟨hc, hrest⟩ := List.forall_mem_cons.mp hvisits
    rw [visitsAll, List.mem_append] at hv
    rcases hv with hv | hv
    · exact hc _ _ _ _ _ (hcs 0 c rfl) v hv
    · refine ih hrest (fun k c hk => ?_) _ _ hv
      rw [Nat.add_right_comm]
      exact hcs (k + 1) c hk

theorem forall_mem_visitsValues (place : Place) (name : Option Nat) (locals : Locals) :
    ∀ v ∈ r.visitsValues place above address name i locals cs, P v.address v.above v.node := by
  intro v hv
  induction cs generalizing i locals with
  | nil => simp [visitsValues] at hv
  | cons c cs ih =>
    obtain ⟨hc, hrest⟩ := List.forall_mem_cons.mp hvisits
    have hafter (k : Nat) (c : Tree) (hk : cs[k]? = some c) :
        P ((i + 1 + k) :: address) above c := by
      rw [Nat.add_right_comm]
      exact hcs (k + 1) c hk
    rw [visitsValues] at hv
    split at hv
    · exact ih hrest hafter _ hv
    · rcases List.mem_append.mp hv with hv | hv
      · exact hc _ _ _ _ _ (hcs 0 c rfl) v hv
      · exact ih hrest hafter _ hv

end Children

/-- What passes from a node with its address and its ancestors to each child holds of all visits of
a walk. -/
theorem forall_mem_visits (r : Reader)
    (hchild : ∀ a up t i c, P a up t → t.children[i]? = some c → P (i :: a) (t :: up) c)
    (t : Tree) : ∀ role place above locals address, P address above t →
      ∀ v ∈ r.visits role place above locals address t, P v.address v.above v.node := by
  induction t using Tree.childInduction with
  | inherit t ih =>
    intro role place above locals address ht v hv
    have hcs (k : Nat) (c : Tree) (hk : t.children[k]? = some c) :
        P ((0 + k) :: address) (t :: above) c := by
      rw [Nat.zero_add]
      exact hchild address above t k c ht hk
    obtain ⟨d, cs⟩ := t
    unfold visits at hv
    dsimp only at hv
    split at hv
    · simp at hv
    · rcases List.mem_append.mp hv with hv | hv
      · exact forall_mem_visitsValues ih hcs _ _ _ v hv
      · obtain rfl := List.mem_singleton.mp hv
        exact ht
    · rcases List.mem_cons.mp hv with rfl | hv
      · exact ht
      · exact forall_mem_visitsAll ih hcs _ _ _ v hv

end Invariant

/-! ## Where the visits stand -/

@[grind →] theorem suffix_of_mem_visits (hv : v ∈ r.visits role place above locals address t) :
    address <:+ v.address :=
  forall_mem_visits (P := fun a _ _ => address <:+ a) r
    (fun a _ _ i _ ha _ => ha.trans (List.suffix_cons i a)) t _ _ _ _ _ List.suffix_rfl v hv

@[grind →] theorem belowChild_of_mem_visitsAll {f : Nat → Tree → Role} {cs : List Tree} {i : Nat}
    (hv : v ∈ r.visitsAll f place above address i locals cs) : BelowChild address i v.address := by
  have hbelow (c : Tree) := forall_mem_visits (P := fun a _ _ => BelowChild address i a) r
    (fun _ _ _ k _ ha _ => ha.cons k) c
  exact forall_mem_visitsAll (fun c _ => hbelow c) (fun k _ _ => belowChild_add address i k)
    f place locals v hv

/-- The node of a visit stands at its address. -/
theorem at?_of_mem_trace {root : Tree} (hv : v ∈ r.trace root) :
    root.at? v.address = some v.node :=
  forall_mem_visits (P := fun a _ t => root.at? a = some t) r
    (fun _ _ _ _ _ => Tree.at?_cons_of_child) root _ _ _ _ _ rfl v hv

end Reader

end CodeAtlas
