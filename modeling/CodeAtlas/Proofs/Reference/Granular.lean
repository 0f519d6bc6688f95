import CodeAtlas.Proofs.Syntax.WellFormed
import CodeAtlas.Reference.Walk

/-!
# Walks with and without granular symbols

A walk that shows granular symbols does so in passing: what is looked up, which names are bound and
which links are emitted do not depend on it. So the walk without them contributes what the walk with
them does, less the granular symbols, and in the same order.

## Main definitions

* `Contribution.isGranular`: the contribution is a granular symbol.
* `Reader.coarse`: the reader that shows no granular symbols.

## Main statements

* `Reader.plan_coarse`: node by node, only the granular symbols are missing.
* `Reader.contributions_coarse`: so they are in a whole file.
-/
namespace CodeAtlas

/-- The contribution is a symbol that is not a declaration. -/
def Contribution.isGranular : Contribution → Bool
  | granular _ _ _ _ => true
  | _ => false

/-- The contributions `cs` without the granular symbols. -/
def withoutGranular (cs : List Contribution) : List Contribution :=
  cs.filter (!·.isGranular)

@[simp] theorem withoutGranular_nil : withoutGranular [] = [] := by
  rw [withoutGranular, List.filter_nil]

@[simp] theorem withoutGranular_append (cs ds : List Contribution) :
    withoutGranular (cs ++ ds) = withoutGranular cs ++ withoutGranular ds :=
  List.filter_append _ _

/-- The plan `p` without the granular symbols. -/
def Plan.coarse (p : Plan) : Plan :=
  { p with own := withoutGranular p.own }

namespace Reader

variable {r : Reader} {place : Place} {locals : Locals} {above : List Tree} {t : Tree}

/-- The reader `r`, but one that shows no granular symbols. -/
def coarse (r : Reader) : Reader :=
  { r with granular := false }

/-! ## Look-ups -/

@[simp] theorem table_coarse (r : Reader) : r.coarse.table = r.table := rfl
@[simp] theorem path_coarse (r : Reader) : r.coarse.path = r.path := rfl
@[simp] theorem text_coarse (r : Reader) (t : Tree) : r.coarse.text t = r.text t := rfl

@[simp] theorem named?_coarse (r : Reader) : r.coarse.named? = r.named? := rfl

@[simp] theorem dottedType?_coarse (t : Tree) :
    r.coarse.dottedType? place locals t = r.dottedType? place locals t := rfl

@[simp] theorem linkTo_coarse (target : Nat) (kind : LinkKind) (site : Tree) :
    r.coarse.linkTo place target kind site = r.linkTo place target kind site := rfl

@[simp] theorem typeUse_coarse (t site : Tree) :
    r.coarse.typeUse place t site = r.typeUse place t site := by
  unfold typeUse
  rw [named?_coarse]
  cases r.named? place t <;> rfl

@[simp] theorem baseUse_coarse (t : Tree) : r.coarse.baseUse place t = r.baseUse place t := by
  unfold baseUse
  rw [named?_coarse, table_coarse]
  cases r.named? place t <;> rfl

@[simp] theorem identifierUse_coarse (t : Tree) :
    r.coarse.identifierUse place locals t = r.identifierUse place locals t := by
  unfold identifierUse
  rw [text_coarse, table_coarse]
  simp only [linkTo_coarse]

@[simp] theorem typeOf_coarse (fuel : Nat) (above : List Tree) (t : Tree) :
    r.coarse.typeOf place locals fuel above t = r.typeOf place locals fuel above t := by
  induction fuel generalizing above t with
  | zero => rfl
  | succ fuel ih =>
    simp only [typeOf, ih]
    rfl

@[simp] theorem typeOf?_coarse (r : Reader) : r.coarse.typeOf? = r.typeOf? := by
  funext place locals above t
  exact congrArg Option.join (typeOf_coarse r.steps above t)

@[simp] theorem callTarget?_coarse (above : List Tree) (call : Tree) :
    r.coarse.callTarget? place locals above call = r.callTarget? place locals above call := by
  simp only [callTarget?, typeOf?_coarse]
  rfl

/-! ## Single contributions -/

@[simp] theorem granularAt_coarse (kind : SymbolKind) (name : String) (t : Tree) :
    r.coarse.granularAt kind name t = [] := rfl

@[simp] theorem withoutGranular_granularAt (kind : SymbolKind) (name : String) (t : Tree) :
    withoutGranular (r.granularAt kind name t) = [] := by
  unfold granularAt
  split <;> rfl

@[simp] theorem withoutGranular_linkTo (target : Nat) (kind : LinkKind) (site : Tree) :
    withoutGranular (r.linkTo place target kind site) = r.linkTo place target kind site := by
  unfold linkTo
  split
  · split <;> rfl
  · rfl

@[simp] theorem withoutGranular_typeUse (t site : Tree) :
    withoutGranular (r.typeUse place t site) = r.typeUse place t site := by
  unfold typeUse
  split <;> simp

@[simp] theorem withoutGranular_baseUse (t : Tree) :
    withoutGranular (r.baseUse place t) = r.baseUse place t := by
  unfold baseUse
  split
  · rfl
  · split
    · rfl
    · split
      · dsimp only
        rw [withoutGranular_append, withoutGranular_linkTo]
        split <;> rfl
      · simp

@[simp] theorem withoutGranular_identifierUse (t : Tree) :
    withoutGranular (r.identifierUse place locals t) = r.identifierUse place locals t := by
  unfold identifierUse
  dsimp only
  split
  · rfl
  · split
    · simp
    · split <;> simp

/-! ## Plans -/

@[simp] theorem typePlan_coarse :
    r.coarse.typePlan place locals t = (r.typePlan place locals t).coarse := by
  unfold typePlan
  split <;> simp [Plan.coarse]

@[simp] theorem variablesPlan_coarse (isLocal : Bool) :
    r.coarse.variablesPlan place locals t isLocal =
      (r.variablesPlan place locals t isLocal).coarse := rfl

@[simp] theorem typeDeclarationPlan_coarse :
    r.coarse.typeDeclarationPlan place locals t =
      (r.typeDeclarationPlan place locals t).coarse := by
  unfold typeDeclarationPlan
  rw [table_coarse, path_coarse]
  split <;> rfl

@[simp] theorem memberPlan_coarse (kind : MemberKind) :
    r.coarse.memberPlan place locals t kind = (r.memberPlan place locals t kind).coarse := rfl

@[simp] theorem memberAccessPlan_coarse :
    r.coarse.memberAccessPlan place locals above t =
      (r.memberAccessPlan place locals above t).coarse := by
  unfold memberAccessPlan
  rw [typeOf?_coarse, dottedType?_coarse, table_coarse]
  cases (t.field? "expression").bind (r.typeOf? place locals (t :: above)) with
  | none => cases r.dottedType? place locals t <;> simp [Plan.coarse]
  | some type =>
    dsimp only
    cases t.field? "name" with
    | none => rfl
    | some name =>
      dsimp only
      rw [text_coarse]
      cases r.table.dataMember type (r.text name.nameSite) <;> simp [Plan.coarse]

@[simp] theorem creationPlan_coarse :
    r.coarse.creationPlan place locals t = (r.creationPlan place locals t).coarse := by
  unfold creationPlan
  simp only [named?_coarse, table_coarse, linkTo_coarse, Plan.coarse, Plan.mk.injEq, and_true]
  split <;> simp

@[simp] theorem assignmentPlan_coarse (created : Option Nat) :
    r.coarse.assignmentPlan place locals t created =
      (r.assignmentPlan place locals t created).coarse := by
  unfold assignmentPlan
  simp only [text_coarse, table_coarse, linkTo_coarse]
  split
  · rfl
  · split
    · simp only [Plan.coarse, Plan.mk.injEq, and_true]
      split <;> simp
    · rfl

@[simp] theorem parameterPlan_coarse :
    r.coarse.parameterPlan place locals t = (r.parameterPlan place locals t).coarse := by
  unfold parameterPlan
  simp only [named?_coarse, text_coarse, granularAt_coarse]
  split <;> simp [Plan.coarse]

@[simp] theorem statementPlan_coarse :
    r.coarse.statementPlan place locals above t =
      (r.statementPlan place locals above t).coarse := by
  unfold statementPlan
  split
  all_goals try simp only [typePlan_coarse, memberAccessPlan_coarse, creationPlan_coarse,
    variablesPlan_coarse]
  all_goals try simp [Plan.coarse, parametersPlan]
  -- what is left is a call and a `catch`
  · split <;> simp
  · split <;> simp

@[simp] theorem codePlan_coarse :
    r.coarse.codePlan place locals above t = (r.codePlan place locals above t).coarse := by
  unfold codePlan
  split
  · rfl
  · split
    · rfl
    · split
      · exact typeDeclarationPlan_coarse
      · split
        · exact memberPlan_coarse _
        · dsimp only
          rw [statementPlan_coarse]
          split
          · simp [Plan.coarse]
          · rfl

@[simp] theorem calleePlan_coarse :
    r.coarse.calleePlan place locals above t = (r.calleePlan place locals above t).coarse := by
  unfold calleePlan
  split
  · rfl
  · rfl
  · rfl
  · exact codePlan_coarse

/-- Without granular symbols a node contributes all else that it does with them, and binds and reads
what it does with them. -/
@[simp] theorem plan_coarse (role : Role) :
    r.coarse.plan role place locals above t = (r.plan role place locals above t).coarse := by
  unfold plan
  cases role with
  | code => exact codePlan_coarse
  | type => exact typePlan_coarse
  | base => simp [Plan.coarse]
  | callee => exact calleePlan_coarse
  | parameter => exact parameterPlan_coarse
  | assignment created => exact assignmentPlan_coarse created
  | binder type shown => cases shown <;> simp [Plan.coarse]
  | _ => rfl

/-! ## Walks -/

section Children

variable {cs : List Tree}
  (hwalk : ∀ c ∈ cs, ∀ role place above locals, r.coarse.walk role place above locals c =
    ((r.walk role place above locals c).1, withoutGranular (r.walk role place above locals c).2))
include hwalk

theorem walkAll_coarse (role : Nat → Tree → Role) (place : Place) (above : List Tree) (i : Nat)
    (locals : Locals) : r.coarse.walkAll role place above i locals cs =
      ((r.walkAll role place above i locals cs).1,
        withoutGranular (r.walkAll role place above i locals cs).2) := by
  induction cs generalizing place i locals with
  | nil => rfl
  | cons c cs ih =>
    obtain ⟨hc, hrest⟩ := List.forall_mem_cons.mp hwalk
    simp only [walkAll, hc, ih hrest, withoutGranular_append]
    rfl

theorem walkValues_coarse (place : Place) (above : List Tree) (name : Option Nat) (i : Nat)
    (locals : Locals) (inferred : Option Nat) :
    r.coarse.walkValues place above name i locals inferred cs =
      ((r.walkValues place above name i locals inferred cs).1,
        (r.walkValues place above name i locals inferred cs).2.1,
        withoutGranular (r.walkValues place above name i locals inferred cs).2.2) := by
  induction cs generalizing i locals inferred with
  | nil => rfl
  | cons c cs ih =>
    obtain ⟨hc, hrest⟩ := List.forall_mem_cons.mp hwalk
    rw [walkValues, walkValues, typeOf?_coarse]
    split
    · exact ih hrest _ _ _
    · simp only [hc, ih hrest, withoutGranular_append]

end Children

/-- Without granular symbols a node and its descendants contribute all else that they do with them,
and bind the same names. -/
theorem walk_coarse (r : Reader) (t : Tree) : ∀ role place above locals,
    r.coarse.walk role place above locals t =
      ((r.walk role place above locals t).1,
        withoutGranular (r.walk role place above locals t).2) := by
  induction t using Tree.childInduction with
  | inherit t ih =>
    intro role place above locals
    obtain ⟨d, cs⟩ := t
    rw [Tree.children_node] at ih
    unfold walk
    dsimp only
    split
    · rfl
    · rw [walkValues_coarse ih]
      split <;> simp
    · rw [plan_coarse]
      simp only [Plan.coarse, walkAll_coarse ih, withoutGranular_append]

/-- Without granular symbols a file contributes all else that it does with them, in the same
order. -/
@[simp] theorem contributions_coarse (r : Reader) (root : Tree) :
    r.coarse.contributions root = withoutGranular (r.contributions root) :=
  congrArg Prod.snd (walk_coarse r root _ _ _ _)

end Reader

end CodeAtlas
