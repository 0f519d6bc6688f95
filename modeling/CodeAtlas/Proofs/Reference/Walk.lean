import CodeAtlas.Proofs.Declaration.Nodes
import CodeAtlas.Reference.Walk
import Mathlib.Logic.Relation

/-!
# Walks node by node

A walk goes from a node to those of its children that have a role in the node's plan. What it
contributes is what the nodes contribute that are reached in this way, so a property of the
contributions follows from what a single node contributes and from what holds of every node reached:
an invariant that one step from a node to its child preserves.

## Main definitions

* `Visit`: a node as a walk reads it.
* `Reader.ownOf`: what a visited node contributes itself.
* `Reader.Leads`, `Reader.Reads`: the steps of a walk.
* `Reader.Follows`: what a plan does to the place.

## Main statements

* `Reader.exists_visits`: the contributions of a file are those of the nodes that are read.
* `Reader.follows_planOf`: every plan keeps the place or enters a declaration.
-/
namespace CodeAtlas

/-- A node as a walk reads it. -/
structure Visit where
  role : Role
  place : Place
  locals : Locals
  above : List Tree
  node : Tree

/-- The visit with which a walk through the file with the tree `root` starts. -/
def Visit.first (root : Tree) : Visit :=
  ⟨.sequence, {}, [], [], root⟩

namespace Reader

variable {r : Reader} {v w : Visit} {P Q : Visit → Prop} {cs ds : List Contribution}

/-- The plan for the node of the visit `v`. -/
def planOf (r : Reader) (v : Visit) : Plan :=
  r.plan v.role v.place v.locals v.above v.node

/-- What the node of the visit `v` contributes itself. The declarator of a local shows the variable,
which no plan does. -/
def ownOf (r : Reader) (v : Visit) : List Contribution :=
  match v.role, v.node.declaratorNameIndex?.bind (v.node.children[·]?) with
  | .declarator _ true, some id => r.granularAt .localVariable (r.text id) v.node
  | _, _ => (r.planOf v).own

/-- One step of a walk, from the node of `v` to a child that has a role, which `w` visits. Which
names are bound there and in which namespace is left open. -/
structure Leads (r : Reader) (v w : Visit) : Prop where
  role_eq : ∃ i, v.node.children[i]? = some w.node ∧ w.role = (r.planOf v).role i w.node
  read : w.role ≠ .skipped
  node_eq : w.place.node = (r.planOf v).place.node
  type_eq : w.place.type = (r.planOf v).place.type

theorem Leads.mem_children (h : r.Leads v w) : w.node ∈ v.node.children := by
  obtain ⟨i, hi, -⟩ := h.role_eq
  exact List.mem_of_getElem? hi

/-- A walk that starts with the first visit reaches the second one. -/
abbrev Reads (r : Reader) : Visit → Visit → Prop :=
  Relation.ReflTransGen r.Leads

/-- What every step of a walk preserves holds of every visit. -/
theorem Reads.invariant {I : Visit → Prop} (h : r.Reads v w) (hv : I v)
    (hstep : ∀ v w, r.Leads v w → I v → I w) : I w := by
  induction h with
  | refl => exact hv
  | tail _ hleads ih => exact hstep _ _ hleads ih

/-! ## The visits of a walk -/

/-- The contributions are those of some visits with the property `P`, one visit after the other. -/
def FromVisits (r : Reader) (P : Visit → Prop) (cs : List Contribution) : Prop :=
  ∃ vs : List Visit, (∀ w ∈ vs, P w) ∧ cs = vs.flatMap r.ownOf

namespace FromVisits

theorem nil : r.FromVisits P [] :=
  ⟨[], by simp, rfl⟩

theorem singleton (h : P v) : r.FromVisits P (r.ownOf v) :=
  ⟨[v], by simpa using h, by simp⟩

theorem append (h : r.FromVisits P cs) (h' : r.FromVisits P ds) : r.FromVisits P (cs ++ ds) := by
  obtain ⟨vs, hvs, rfl⟩ := h
  obtain ⟨ws, hws, rfl⟩ := h'
  exact ⟨vs ++ ws, List.forall_mem_append.mpr ⟨hvs, hws⟩, by simp⟩

theorem mono (h : r.FromVisits P cs) (hPQ : ∀ w, P w → Q w) : r.FromVisits Q cs := by
  obtain ⟨vs, hvs, hcs⟩ := h
  exact ⟨vs, fun w hw => hPQ w (hvs w hw), hcs⟩

end FromVisits

/-- Entering a namespace changes nothing but the namespace of a place. -/
theorem enter_eq (r : Reader) (place : Place) (c : Tree) :
    (r.enter place c).node = place.node ∧ (r.enter place c).type = place.type := by
  unfold enter
  split <;> exact ⟨rfl, rfl⟩

theorem placeOf_eq (r : Reader) (role : Role) (place : Place) (c : Tree) :
    (r.placeOf role place c).node = place.node ∧ (r.placeOf role place c).type = place.type := by
  unfold placeOf
  split
  · exact enter_eq r place c
  · exact ⟨rfl, rfl⟩

-- A child that has no role contributes nothing; any other is reached by one step.
theorem fromVisits_child {c : Tree} {i : Nat} {place : Place} {locals : Locals} {above : List Tree}
    (hwalk : ∀ role place above locals, role ≠ .skipped →
      r.FromVisits (r.Reads ⟨role, place, locals, above, c⟩)
        (r.walk role place above locals c).2)
    (hi : v.node.children[i]? = some c) (hnode : place.node = (r.planOf v).place.node)
    (htype : place.type = (r.planOf v).place.type) :
    r.FromVisits (r.Reads v) (r.walk ((r.planOf v).role i c) place above locals c).2 := by
  by_cases hrole : (r.planOf v).role i c = .skipped
  · cases c
    rw [hrole, walk]
    exact .nil
  · refine (hwalk _ _ _ _ hrole).mono fun w hw => ?_
    exact hw.head ⟨⟨i, hi, rfl⟩, hrole, hnode, htype⟩

section Children

variable {cs : List Tree} {i : Nat}
  (hwalk : ∀ c ∈ cs, ∀ role place above locals, role ≠ .skipped →
    r.FromVisits (r.Reads ⟨role, place, locals, above, c⟩) (r.walk role place above locals c).2)
  (hcs : v.node.children.drop i = cs)
include hwalk hcs

theorem fromVisits_walkAll (place : Place) (above : List Tree) (locals : Locals)
    (hnode : place.node = (r.planOf v).place.node)
    (htype : place.type = (r.planOf v).place.type) :
    r.FromVisits (r.Reads v) (r.walkAll (r.planOf v).role place above i locals cs).2 := by
  induction cs generalizing i place locals with
  | nil =>
    rw [walkAll]
    exact .nil
  | cons c cs ih =>
    obtain ⟨hc, hrest⟩ := List.forall_mem_cons.mp hwalk
    obtain ⟨hnode', htype'⟩ := placeOf_eq r ((r.planOf v).role i c) place c
    have hi : v.node.children[i]? = some c := by
      rw [← List.head?_drop, hcs]
      rfl
    rw [walkAll]
    refine .append (fromVisits_child hc hi (hnode'.trans hnode) (htype'.trans htype)) ?_
    refine ih hrest ?_ _ _ (hnode'.trans hnode) (htype'.trans htype)
    rw [← List.tail_drop, hcs]
    rfl

/-- The parts of a declarator that are no names are read as code, which its plan says of all. -/
theorem fromVisits_walkValues (place : Place) (above : List Tree) (locals : Locals)
    (name inferred : Option Nat) (hrole : (r.planOf v).role = Role.eachCode)
    (hnode : place.node = (r.planOf v).place.node)
    (htype : place.type = (r.planOf v).place.type) :
    r.FromVisits (r.Reads v) (r.walkValues place above name i locals inferred cs).2.2 := by
  induction cs generalizing i locals inferred with
  | nil =>
    rw [walkValues]
    exact .nil
  | cons c cs ih =>
    obtain ⟨hc, hrest⟩ := List.forall_mem_cons.mp hwalk
    have hi : v.node.children[i]? = some c := by
      rw [← List.head?_drop, hcs]
      rfl
    have hdrop : v.node.children.drop (i + 1) = cs := by
      rw [← List.tail_drop, hcs]
      rfl
    rw [walkValues]
    split
    · exact ih hrest hdrop _ _
    · next hnamed =>
      have hcode : (r.planOf v).role i c = .code := by
        rw [hrole, Role.eachCode, if_pos]
        simp_all
      refine .append ?_ (ih hrest hdrop _ _)
      rw [← hcode]
      exact fromVisits_child hc hi hnode htype

end Children

/-- A node that is no declarator contributes what its plan says. -/
theorem ownOf_eq (h : ∀ declared isLocal, v.role ≠ .declarator declared isLocal) :
    r.ownOf v = (r.planOf v).own := by
  unfold ownOf
  split
  · next hrole _ => exact absurd hrole (h _ _)
  · rfl

/-- What a node and its descendants contribute is contributed by the nodes that are read. -/
theorem fromVisits_walk (r : Reader) (t : Tree) : ∀ (role : Role) (place : Place)
    (above : List Tree) (locals : Locals), role ≠ .skipped →
    r.FromVisits (r.Reads ⟨role, place, locals, above, t⟩)
      (r.walk role place above locals t).2 := by
  induction t using Tree.childInduction with
  | inherit t ih =>
    intro role place above locals hrole
    obtain ⟨d, cs⟩ := t
    let v : Visit := ⟨role, place, locals, above, .node d cs⟩
    have hdrop : v.node.children.drop 0 = cs := rfl
    unfold walk
    dsimp only
    split
    · exact absurd rfl hrole
    · next declared isLocal =>
      have hvalues := fromVisits_walkValues ih hdrop place (.node d cs :: above) locals
        (Tree.node d cs).declaratorNameIndex? none rfl rfl rfl
      split
      · next id hid =>
        have hown : r.ownOf v = r.granularAt .localVariable (r.text id) (.node d cs) := by
          simp only [ownOf, v, Tree.children_node, hid]
        exact hvalues.append (hown ▸ .singleton .refl)
      · exact hvalues
    · next hdeclarator =>
      have hown : r.ownOf v = (r.planOf v).own :=
        ownOf_eq fun declared isLocal h => hdeclarator declared isLocal h
      have hall := fromVisits_walkAll ih hdrop (r.planOf v).place (.node d cs :: above)
        (r.planOf v).locals rfl rfl
      exact .append (hown ▸ .singleton .refl) hall

/-- The contributions of a file are those of the nodes that are read, one after the other. -/
theorem exists_visits (r : Reader) (root : Tree) :
    ∃ vs : List Visit, (∀ v ∈ vs, r.Reads (.first root) v) ∧
      r.contributions root = vs.flatMap r.ownOf :=
  fromVisits_walk r root _ _ _ _ (by simp)

end Reader

/-! ## What a plan does to the place -/

namespace Role

variable {f : Nat → Tree → Role} {position : Option Nat} {role : Role} {t : Tree}

/-- In this `role` a node is read as the base list of a type or as a part of one. -/
@[grind] def isBase (role : Role) : Bool :=
  role == bases || role == primaryBase || role == base

/-- Children whose roles are given by `f` are not read as parts of a base list. -/
def BaseFree (f : Nat → Tree → Role) : Prop :=
  ∀ i c, (f i c).isBase = false

theorem baseFree_skipped : BaseFree fun _ _ => skipped :=
  fun _ _ => rfl

theorem baseFree_only (h : role.isBase = false) : BaseFree (only position role) := by
  intro i c
  grind [only]

theorem baseFree_first (h : role.isBase = false) (hf : BaseFree f) :
    BaseFree (first position role f) := by
  intro i c
  grind [first, BaseFree]

theorem baseFree_eachCode : BaseFree eachCode := by
  intro i c
  grind [eachCode]

theorem baseFree_eachInSequence : BaseFree eachInSequence := by
  intro i c
  grind [eachInSequence]

theorem baseFree_eachType : BaseFree eachType := by
  intro i c
  grind [eachType]

theorem baseFree_ofNamespace : BaseFree ofNamespace := by
  intro i c
  grind [ofNamespace]

theorem baseFree_ofInitializer (created : Option Nat) : BaseFree (ofInitializer created) := by
  intro i c
  grind [ofInitializer]

theorem baseFree_ofArguments (t : Tree) : BaseFree (ofArguments t) := by
  unfold ofArguments
  split
  · exact baseFree_only rfl
  · split
    · exact baseFree_only rfl
    · exact baseFree_skipped
  · split
    · exact baseFree_only rfl
    · exact baseFree_skipped
  · exact baseFree_skipped

theorem baseFree_ofMemberAccess (t : Tree) : BaseFree (ofMemberAccess t) :=
  baseFree_first rfl (baseFree_only rfl)

end Role

/-- The children are read at this `place`, and none of them as a part of a base list. -/
structure Plan.StaysIn (place : Place) (p : Plan) : Prop where
  place_eq : p.place = place
  baseFree : Role.BaseFree p.role

namespace Reader

variable {r : Reader} {v w : Visit} {place : Place} {locals : Locals} {above : List Tree} {t : Tree}

theorem staysIn_typePlan : (r.typePlan place locals t).StaysIn place := by
  unfold typePlan
  split
  all_goals refine ⟨rfl, ?_⟩
  case h_6 | h_7 | h_8 => exact Role.baseFree_ofArguments t
  all_goals
    intro i c
    grind [Role.only, Role.eachType]

theorem staysIn_memberAccessPlan : (r.memberAccessPlan place locals above t).StaysIn place := by
  unfold memberAccessPlan
  dsimp only
  split
  · exact ⟨rfl, Role.baseFree_ofMemberAccess t⟩
  · split
    · exact ⟨rfl, Role.baseFree_skipped⟩
    · exact ⟨rfl, Role.baseFree_ofMemberAccess t⟩

theorem staysIn_variablesPlan {isLocal : Bool} :
    (r.variablesPlan place locals t isLocal).StaysIn place := by
  refine ⟨rfl, Role.baseFree_first rfl fun i c => ?_⟩
  grind

theorem staysIn_parametersPlan : (parametersPlan place locals).StaysIn place := by
  refine ⟨rfl, fun i c => ?_⟩
  grind [parametersPlan]

theorem staysIn_creationPlan : (r.creationPlan place locals t).StaysIn place :=
  ⟨rfl, Role.baseFree_first rfl (Role.baseFree_first rfl (Role.baseFree_only rfl))⟩

theorem staysIn_statementPlan : (r.statementPlan place locals above t).StaysIn place := by
  unfold statementPlan
  split
  all_goals try simp only [staysIn_typePlan, staysIn_memberAccessPlan, staysIn_creationPlan,
    staysIn_variablesPlan, staysIn_parametersPlan]
  all_goals try exact ⟨rfl, fun i c => by
    grind [Role.eachInSequence, Role.ofLambda, Role.ofForeach, Role.ofPattern, Role.ofTypeOperand,
      Role.ofTypeTest, Role.only, Role.ofLabelled]⟩
  -- what is left is a call and a `catch`
  · exact ⟨rfl, Role.baseFree_first rfl (Role.baseFree_only rfl)⟩
  · split <;> exact ⟨rfl, Role.baseFree_only rfl⟩

/-- What the plan `p` for `v` does to the place: it stays there but for the namespace, or it enters
a member or a type that the table has. Base lists are read in the place of their type. -/
inductive Follows (r : Reader) (v : Visit) (p : Plan) : Prop
  | stay (node_eq : p.place.node = v.place.node) (type_eq : p.place.type = v.place.type)
      (baseFree : v.role.isBase = false → Role.BaseFree p.role)
  | member (i : Nat) (declares : v.node.declares = true)
      (at?_eq : r.table.at? r.path v.node.start = some i) (node_eq : p.place.node = some i)
      (type_eq : p.place.type = v.place.type) (baseFree : Role.BaseFree p.role)
  | type (i : Nat) (isType : v.node.typeKind?.isSome = true)
      (at?_eq : r.table.at? r.path v.node.start = some i) (node_eq : p.place.node = some i)
      (type_eq : p.place.type = some i)

theorem Follows.of_staysIn {p : Plan} (h : p.StaysIn v.place) : r.Follows v p :=
  .stay (by rw [h.place_eq]) (by rw [h.place_eq]) fun _ => h.baseFree

theorem follows_typeDeclarationPlan (h : v.node.typeKind?.isSome = true) :
    r.Follows v (r.typeDeclarationPlan v.place v.locals v.node) := by
  unfold typeDeclarationPlan
  split
  · exact .of_staysIn ⟨rfl, Role.baseFree_skipped⟩
  · next i hi => exact .type i h hi rfl rfl

theorem follows_memberPlan {kind : MemberKind} (h : v.node.memberKind? = some kind) :
    r.Follows v (r.memberPlan v.place v.locals v.node kind) := by
  have hfree : Role.BaseFree Role.ofMember := fun i c => by grind [Role.ofMember]
  by_cases hlocal : v.node.isLocalFunction = true
  · exact .stay (by simp [memberPlan, hlocal]) rfl fun _ => hfree
  · have hdeclares : v.node.declares = true := by simp [Tree.declares, h, hlocal]
    cases hi : r.table.at? r.path v.node.start with
    | none => exact .stay (by simp [memberPlan, hi]) rfl fun _ => hfree
    | some i => exact .member i hdeclares hi (by simp [memberPlan, hlocal, hi]) rfl hfree

theorem follows_codePlan : r.Follows v (r.codePlan v.place v.locals v.above v.node) := by
  unfold codePlan
  split
  · obtain ⟨hnode, htype⟩ := enter_eq r v.place v.node
    exact .stay hnode htype fun _ => Role.baseFree_ofNamespace
  · split
    · exact .of_staysIn ⟨rfl, Role.baseFree_eachInSequence⟩
    · split
      · next htype => exact follows_typeDeclarationPlan htype
      · split
        · next kind hkind => exact follows_memberPlan hkind
        · have hstays : (r.statementPlan v.place v.locals v.above v.node).StaysIn v.place :=
            staysIn_statementPlan
          dsimp only
          split
          · exact .of_staysIn ⟨hstays.place_eq, hstays.baseFree⟩
          · exact .of_staysIn hstays

theorem follows_calleePlan : r.Follows v (r.calleePlan v.place v.locals v.above v.node) := by
  unfold calleePlan
  split
  · exact .of_staysIn ⟨rfl, Role.baseFree_skipped⟩
  · exact .of_staysIn ⟨rfl, Role.baseFree_ofArguments v.node⟩
  · exact .of_staysIn ⟨rfl, Role.baseFree_ofMemberAccess v.node⟩
  · exact follows_codePlan

theorem staysIn_parameterPlan : (r.parameterPlan place locals t).StaysIn place := by
  have hfree : Role.BaseFree (Role.ofParameter t) :=
    Role.baseFree_first rfl fun i c => by grind
  unfold parameterPlan
  dsimp only
  split <;> exact ⟨rfl, hfree⟩

theorem staysIn_assignmentPlan {created : Option Nat} :
    (r.assignmentPlan place locals t created).StaysIn place := by
  have hright : Role.BaseFree (Role.only (t.fieldIndex? "right") .code) := Role.baseFree_only rfl
  unfold assignmentPlan
  dsimp only
  split
  · exact ⟨rfl, hright⟩
  · split
    · exact ⟨rfl, hright⟩
    · exact ⟨rfl, Role.baseFree_first rfl hright⟩

/-- Every plan keeps the place or enters a declaration. -/
theorem follows_planOf (r : Reader) (v : Visit) : r.Follows v (r.planOf v) := by
  obtain ⟨role, place, locals, above, t⟩ := v
  unfold planOf
  cases role with
  | skipped => exact .of_staysIn ⟨rfl, Role.baseFree_skipped⟩
  | code => exact follows_codePlan
  | sequence => exact .of_staysIn ⟨rfl, Role.baseFree_eachInSequence⟩
  | fileScope => exact .of_staysIn ⟨rfl, Role.baseFree_ofNamespace⟩
  | type => exact .of_staysIn staysIn_typePlan
  | arguments => exact .of_staysIn ⟨rfl, Role.baseFree_ofArguments t⟩
  | types => exact .of_staysIn ⟨rfl, Role.baseFree_eachType⟩
  | bases => exact .stay rfl rfl fun h => absurd h (by simp [Role.isBase])
  | primaryBase => exact .stay rfl rfl fun h => absurd h (by simp [Role.isBase])
  | base => exact .of_staysIn ⟨rfl, Role.baseFree_ofArguments t⟩
  | body => exact .of_staysIn ⟨rfl, Role.baseFree_eachCode⟩
  | callee => exact follows_calleePlan
  | parameters => exact .of_staysIn staysIn_parametersPlan
  | parameter => exact .of_staysIn staysIn_parameterPlan
  | «variables» isLocal => exact .of_staysIn staysIn_variablesPlan
  | declarator declared isLocal => exact .of_staysIn ⟨rfl, Role.baseFree_eachCode⟩
  | initializer created => exact .of_staysIn ⟨rfl, Role.baseFree_ofInitializer created⟩
  | assignment created => exact .of_staysIn staysIn_assignmentPlan
  | binder type shown => exact .of_staysIn ⟨rfl, Role.baseFree_skipped⟩

/-! ## Where a walk stands -/

/-- The node of `v` belongs to the file with the tree `root`. References are attributed to a
declaration around it, and inside a base list to the type that has it. -/
structure Stands (r : Reader) (root : Tree) (v : Visit) : Prop where
  mem_preorder : v.node ∈ root.preorder
  owner : ∀ i, v.place.node = some i → ∃ n ∈ root.preorder, n.declares = true ∧
    r.table.at? r.path n.start = some i ∧ v.node ∈ n.preorder
  bases : v.role.isBase = true → ∃ i, v.place.node = some i ∧ v.place.type = some i ∧
    ∃ n ∈ root.preorder, n.typeKind?.isSome = true ∧ r.table.at? r.path n.start = some i

theorem Stands.step {root : Tree} (h : r.Stands root v) (hleads : r.Leads v w) :
    r.Stands root w := by
  have hchild : w.node ∈ v.node.preorder := Tree.mem_preorder_of_mem_children hleads.mem_children
  have hmem : w.node ∈ root.preorder := Tree.mem_preorder_trans h.mem_preorder hchild
  -- a child is read as a base only if the plan says so
  have hbase (hw : w.role.isBase = true) (hfree : Role.BaseFree (r.planOf v).role) : False := by
    obtain ⟨i, -, hrole⟩ := hleads.role_eq
    rw [hrole, hfree i w.node] at hw
    exact Bool.false_ne_true hw
  cases follows_planOf r v with
  | stay node_eq type_eq baseFree =>
    have hnode := hleads.node_eq.trans node_eq
    have htype := hleads.type_eq.trans type_eq
    refine ⟨hmem, fun i hi => ?_, fun hw => ?_⟩
    · obtain ⟨n, hn, hdeclares, hat, hin⟩ := h.owner i (hnode ▸ hi)
      exact ⟨n, hn, hdeclares, hat, Tree.mem_preorder_trans hin hchild⟩
    · cases hv : v.role.isBase with
      | false => exact (hbase hw (baseFree hv)).elim
      | true =>
        obtain ⟨i, hi, hi', hdeclared⟩ := h.bases hv
        exact ⟨i, hnode.trans hi, htype.trans hi', hdeclared⟩
  | member i declares at?_eq node_eq type_eq baseFree =>
    refine ⟨hmem, fun j hj => ?_, fun hw => (hbase hw baseFree).elim⟩
    obtain rfl : i = j := by simpa [hleads.node_eq, node_eq] using hj
    exact ⟨v.node, h.mem_preorder, declares, at?_eq, hchild⟩
  | type i isType at?_eq node_eq type_eq =>
    refine ⟨hmem, fun j hj => ?_, fun _ => ?_⟩
    · obtain rfl : i = j := by simpa [hleads.node_eq, node_eq] using hj
      exact ⟨v.node, h.mem_preorder, by simp [Tree.declares, isType], at?_eq, hchild⟩
    · exact ⟨i, hleads.node_eq.trans node_eq, hleads.type_eq.trans type_eq, v.node,
        h.mem_preorder, isType, at?_eq⟩

/-- Every visit of a walk through a file stands where it should. -/
theorem Reads.stands {root : Tree} (h : r.Reads (.first root) v) : r.Stands root v := by
  refine h.invariant ⟨Tree.mem_preorder_self root, ?_, ?_⟩ fun v w hleads hv => hv.step hleads
  · simp [Visit.first]
  · simp [Visit.first, Role.isBase]

end Reader

end CodeAtlas
