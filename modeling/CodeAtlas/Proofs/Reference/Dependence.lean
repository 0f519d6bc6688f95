import CodeAtlas.Proofs.Reference.Steps
import CodeAtlas.Proofs.Reference.Trace

/-!
# What a walk depends on

A walk reads texts, looks up names among those that are bound, and asks for the types of
expressions. Two walks through the same node that get the same answers contribute the same, even if
they are done by different readers, below different ancestors and with different names bound before.
This is said first of the plan of a single node and then, by induction over the tree, of a whole
walk, for the expressions that it visits.

Names are only ever added in front of those that were bound before, so each walk ends with the names
that it started with behind those that it added.

## Main definitions

* `Plan.Like`: plans that differ in nothing but the names bound before.
* `Reader.introduced?`: the name that a node binds for what follows it.
* `Reader.SameAnswers`: two readers get the same answers about an expression.
* `Reader.Answered`: they do so about the expressions that a walk visits.

## Main statements

* `Reader.like_plan`: the plans of a node for two readers.
* `Reader.walk_like`: the walks of two readers.
-/
namespace CodeAtlas

/-! ## Plans that differ in the bound names -/

/-- The plans differ in nothing but the names `l` and `l'` that were bound before. After the node
the name `x` is bound too, if there is one. -/
structure Plan.Like (x : Option String) (l l' : Locals) (p p' : Plan) : Prop where
  own_eq : p'.own = p.own
  place_eq : p'.place = p.place
  role_eq : p'.role = p.role
  locals_eq : ∃ bs, p.locals = bs ++ l ∧ p'.locals = bs ++ l' ∧
    (p.after = none → bs.map (·.1) = x.toList)
  after_eq : (p.after = none ∧ p'.after = none) ∨
    ∃ bs, p.after = some (bs ++ l) ∧ p'.after = some (bs ++ l') ∧ bs.map (·.1) = x.toList

namespace Plan.Like

variable {x : Option String} {l l' : Locals} {p p' : Plan} (own : List Contribution) (place : Place)
  (role : Nat → Tree → Role)

/-- A plan that binds nothing. -/
theorem keep : Like none l l' ⟨own, place, l, role, none⟩ ⟨own, place, l', role, none⟩ :=
  ⟨rfl, rfl, rfl, ⟨[], rfl, rfl, fun _ => rfl⟩, .inl ⟨rfl, rfl⟩⟩

/-- A plan that binds a name for the children and what follows. -/
theorem bind (x : String) (type : Option Nat) : Like (some x) l l'
    ⟨own, place, l.bind x type, role, none⟩ ⟨own, place, l'.bind x type, role, none⟩ :=
  ⟨rfl, rfl, rfl, ⟨[(x, type)], rfl, rfl, fun _ => rfl⟩, .inl ⟨rfl, rfl⟩⟩

/-- A plan that restores the names from before the node. -/
theorem restore :
    Like none l l' ⟨own, place, l, role, some l⟩ ⟨own, place, l', role, some l'⟩ :=
  ⟨rfl, rfl, rfl, ⟨[], rfl, rfl, by simp⟩, .inr ⟨[], rfl, rfl, rfl⟩⟩

variable {own place role}

theorem addOwn (h : Like x l l' p p') (cs : List Contribution) :
    Like x l l' { p with own := cs ++ p.own } { p' with own := cs ++ p'.own } :=
  ⟨congrArg (cs ++ ·) h.own_eq, h.place_eq, h.role_eq, h.locals_eq, h.after_eq⟩

end Plan.Like

namespace Reader

variable {r r' : Reader} {role : Role} {place : Place} {l l' : Locals} {above above' : List Tree}
  {t : Tree}

/-- The name that the node `t` declares for what follows it. -/
def declaredAfter? (r : Reader) (t : Tree) : Option String :=
  match t.kind with
  | "local_function_statement" => (t.field? "name").map r.text
  | "catch_declaration" =>
    match t.field? "type", t.field? "name" with
    | some _, some name => some (r.text name)
    | _, _ => none
  | _ => none

/-- The name that the node `t`, when it is read in this `role`, binds for what follows it. -/
def introduced? (r : Reader) (role : Role) (t : Tree) : Option String :=
  match role with
  | .parameter => (t.field? "name").map r.text
  | .declarator _ true => (t.declaratorNameIndex?.bind (t.children[·]?)).map r.text
  | .binder _ _ => some (r.text t)
  | .code | .callee => r.declaredAfter? t
  | _ => none

/-- The readers `r` and `r'` get the same answers to what they ask about the expression `t`. -/
structure SameAnswers (r r' : Reader) (place : Place) (l l' : Locals) (above above' : List Tree)
    (t : Tree) : Prop where
  lookup_eq : ∀ x, r.asked? t = some x → l'.lookup x = l.lookup x
  typeOf?_eq : r'.typeOf? place l' above' t = r.typeOf? place l above t
  receiver_eq : ∀ e, t.field? "expression" = some e →
    r'.typeOf? place l' (t :: above') e = r.typeOf? place l (t :: above) e
  callTarget?_eq : t.kind = "invocation_expression" →
    r'.callTarget? place l' above' t = r.callTarget? place l above t

/-! ## Single contributions -/

namespace Akin

theorem linkTo (hr : r.Akin r' t) (target : Nat) (kind : LinkKind) (site : Tree) :
    r'.linkTo place target kind site = r.linkTo place target kind site := by
  unfold Reader.linkTo
  rw [hr.table_eq]

theorem granularAt (hr : r.Akin r' t) (kind : SymbolKind) (name : String) (site : Tree) :
    r'.granularAt kind name site = r.granularAt kind name site := by
  unfold Reader.granularAt
  rw [hr.granular_eq]

theorem typeUse (hr : r.Akin r' t) (site : Tree) :
    r'.typeUse place t site = r.typeUse place t site := by
  unfold Reader.typeUse
  simp only [hr.named?, hr.linkTo]

theorem baseUse (hr : r.Akin r' t) : r'.baseUse place t = r.baseUse place t := by
  unfold Reader.baseUse
  simp only [hr.named?, hr.linkTo, hr.table_eq]

theorem bind_filter_named? (hr : r.Akin r' t) (field : String) (p : Tree → Bool) :
    ((t.field? field).filter p).bind (r'.named? place) =
      ((t.field? field).filter p).bind (r.named? place) := by
  refine Option.bind_congr fun c hc => ?_
  exact (hr.below (Tree.mem_preorder_of_field? (Option.filter_eq_some_iff.mp hc).1)).named?

theorem enter (hr : r.Akin r' t) : r'.enter place t = r.enter place t := by
  have htext : t.textIn? "name" r'.source = t.textIn? "name" r.source := by
    unfold Tree.textIn?
    refine Option.map_congr fun name hname => ?_
    exact hr.text_eq name (Tree.mem_preorder_of_field? hname)
  unfold Reader.enter
  rw [htext]

end Akin

theorem identifierUse_congr (hr : r.Akin r' t)
    (h : l'.lookup (r.text t) = l.lookup (r.text t)) :
    r'.identifierUse place l' t = r.identifierUse place l t := by
  unfold identifierUse
  simp only [hr.text, binds_eq_of_lookup_eq h, hr.table_eq, hr.linkTo]

/-! ## Plans -/

theorem like_typePlan (hr : r.Akin r' t) :
    Plan.Like none l l' (r.typePlan place l t) (r'.typePlan place l' t) := by
  unfold typePlan
  simp only [hr.typeUse]
  split <;> exact .keep _ _ _

theorem like_variablesPlan (hr : r.Akin r' t) (isLocal : Bool) : Plan.Like none l l'
    (r.variablesPlan place l t isLocal) (r'.variablesPlan place l' t isLocal) := by
  unfold variablesPlan
  rw [hr.bind_filter_named?]
  exact .keep _ _ _

theorem like_parameterPlan (hr : r.Akin r' t) : Plan.Like ((t.field? "name").map r.text) l l'
    (r.parameterPlan place l t) (r'.parameterPlan place l' t) := by
  unfold parameterPlan
  rw [hr.bind_named?]
  cases hname : t.field? "name" with
  | none => exact .keep _ _ _
  | some name =>
    have htext := hr.text_eq name (Tree.mem_preorder_of_field? hname)
    simp only [htext, hr.granularAt]
    exact .bind _ _ _ _ _

theorem like_typeDeclarationPlan (hr : r.Akin r' t) :
    Plan.Like none l l' (r.typeDeclarationPlan place l t) (r'.typeDeclarationPlan place l' t) := by
  unfold typeDeclarationPlan
  rw [hr.table_eq, hr.path_eq]
  cases r.table.at? r.path t.start with
  | none => exact .keep _ _ _
  | some i => exact .restore _ _ _

/-- The name of the local function `t`, which is bound to no type. -/
def functionBinding (r : Reader) (t : Tree) : Locals :=
  if t.isLocalFunction then ((t.field? "name").map fun name => (r.text name, none)).toList else []

/-- The value that the accessors of the member `t` are given. -/
def valueBinding (r : Reader) (t : Tree) : MemberKind → Locals
  | .property | .indexer | .event =>
    [("value", (if t.isLocalFunction then none else r.table.at? r.path t.start).bind
      r.table.valueType?)]
  | _ => []

theorem memberPlan_eq (kind : MemberKind) : r.memberPlan place l t kind =
    { place := { place with node :=
        (if t.isLocalFunction then none else r.table.at? r.path t.start) <|> place.node }
      locals := r.valueBinding t kind ++ (r.functionBinding t ++ l)
      role := Role.ofMember
      after := some (r.functionBinding t ++ l) } := by
  unfold memberPlan functionBinding valueBinding
  cases t.isLocalFunction with
  | false => cases kind <;> rfl
  | true => cases t.field? "name" <;> cases kind <;> rfl

theorem map_functionBinding {kind : MemberKind} (hkind : t.memberKind? = some kind) :
    (r.functionBinding t).map (·.1) = (r.declaredAfter? t).toList := by
  unfold functionBinding Tree.isLocalFunction declaredAfter?
  split
  · next h => cases t.field? "name" <;> simp [beq_iff_eq.mp h]
  · next h =>
    split
    · next hlocal => simp [hlocal] at h
    · next hcatch => simp [Tree.memberKind?, hcatch] at hkind
    · rfl

theorem like_memberPlan {kind : MemberKind} (hr : r.Akin r' t) (hkind : t.memberKind? = some kind) :
    Plan.Like (r.declaredAfter? t) l l' (r.memberPlan place l t kind)
      (r'.memberPlan place l' t kind) := by
  have hfunction : r'.functionBinding t = r.functionBinding t := by
    unfold functionBinding
    split
    · refine congrArg _ (Option.map_congr fun name hname => ?_)
      rw [hr.text_eq name (Tree.mem_preorder_of_field? hname)]
    · rfl
  have hvalue : r'.valueBinding t kind = r.valueBinding t kind := by
    unfold valueBinding
    rw [hr.table_eq, hr.path_eq]
  rw [memberPlan_eq, memberPlan_eq, hfunction, hvalue, hr.table_eq, hr.path_eq]
  refine ⟨rfl, rfl, rfl, ⟨r.valueBinding t kind ++ r.functionBinding t, ?_, ?_, by simp⟩, .inr ?_⟩
  · exact (List.append_assoc _ _ _).symm
  · exact (List.append_assoc _ _ _).symm
  · exact ⟨r.functionBinding t, rfl, rfl, map_functionBinding hkind⟩

theorem like_memberAccessPlan (hr : r.Akin r' t)
    (h : r.SameAnswers r' place l l' above above' t) (hkind : t.kind = "member_access_expression") :
    Plan.Like none l l' (r.memberAccessPlan place l above t)
      (r'.memberAccessPlan place l' above' t) := by
  have hreceiver : (t.field? "expression").bind (r'.typeOf? place l' (t :: above')) =
      (t.field? "expression").bind (r.typeOf? place l (t :: above)) :=
    Option.bind_congr fun e he => h.receiver_eq e he
  have hdotted : r'.dottedType? place l' t = r.dottedType? place l t :=
    dottedType?_congr hr (h.lookup_eq _ (by simp [asked?, hkind]))
  unfold memberAccessPlan
  simp only [hreceiver, hdotted, hr.linkTo, hr.table_eq]
  split
  · split
    · next name hname =>
      rw [hr.text_eq _ (Tree.nameSite_mem_of_field? hname)]
      exact .keep _ _ _
    · exact .keep _ _ _
  · split <;> exact .keep _ _ _

theorem like_creationPlan (hr : r.Akin r' t) :
    Plan.Like none l l' (r.creationPlan place l t) (r'.creationPlan place l' t) := by
  unfold creationPlan
  simp only [hr.bind_named?, hr.linkTo, hr.table_eq]
  exact .keep _ _ _

theorem like_assignmentPlan (hr : r.Akin r' t) (created : Option Nat) :
    Plan.Like none l l' (r.assignmentPlan place l t created)
      (r'.assignmentPlan place l' t created) := by
  unfold assignmentPlan
  simp only [hr.linkTo, hr.table_eq]
  cases hleft : t.field? "left" with
  | none => exact .keep _ _ _
  | some left =>
    dsimp only
    rw [hr.text_eq left (Tree.mem_preorder_of_field? hleft)]
    split <;> exact .keep _ _ _

@[simp]
theorem declaredAfter?_of_isType (h : t.typeKind?.isSome = true) : r.declaredAfter? t = none := by
  unfold declaredAfter?
  split
  · next hkind => simp [Tree.typeKind?, hkind] at h
  · next hkind => simp [Tree.typeKind?, hkind] at h
  · rfl

/-- A statement binds a name for what follows it only if it declares what is caught. -/
theorem declaredAfter?_eq_none (hmember : t.memberKind? = none)
    (hkind : t.kind ≠ "catch_declaration") : r.declaredAfter? t = none := by
  unfold declaredAfter?
  split
  · next hlocal => simp [Tree.memberKind?, hlocal] at hmember
  · next hcatch => exact absurd hcatch hkind
  · rfl

/-- The name of what the catch clause `t` catches, if it has one. -/
def catchBinding (r : Reader) (place : Place) (t : Tree) : Locals :=
  ((t.field? "type").bind fun type =>
    (t.field? "name").map fun name => (r.text name, r.named? place type)).toList

theorem statementPlan_of_catch (hkind : t.kind = "catch_declaration") :
    r.statementPlan place l above t =
      { place, locals := r.catchBinding place t ++ l
        role := Role.only (t.fieldIndex? "type") .type } := by
  unfold statementPlan catchBinding
  rw [hkind]
  cases t.field? "type" <;> cases t.field? "name" <;> rfl

theorem map_catchBinding (hkind : t.kind = "catch_declaration") :
    (r.catchBinding place t).map (·.1) = (r.declaredAfter? t).toList := by
  unfold catchBinding declaredAfter?
  rw [hkind]
  cases t.field? "type" <;> cases t.field? "name" <;> rfl

theorem like_catchPlan (hr : r.Akin r' t) (hkind : t.kind = "catch_declaration") :
    Plan.Like (r.declaredAfter? t) l l' (r.statementPlan place l above t)
      (r'.statementPlan place l' above' t) := by
  have hsame : r'.catchBinding place t = r.catchBinding place t := by
    refine congrArg Option.toList (Option.bind_congr fun type htype => ?_)
    refine Option.map_congr fun name hname => ?_
    rw [hr.text_eq name (Tree.mem_preorder_of_field? hname),
      (hr.below (Tree.mem_preorder_of_field? htype)).named?]
  rw [statementPlan_of_catch hkind, statementPlan_of_catch hkind, hsame]
  exact ⟨rfl, rfl, rfl, ⟨r.catchBinding place t, rfl, rfl, fun _ => map_catchBinding hkind⟩,
    .inl ⟨rfl, rfl⟩⟩

theorem like_statementPlan (hr : r.Akin r' t)
    (h : r.SameAnswers r' place l l' above above' t) (hmember : t.memberKind? = none) :
    Plan.Like (r.declaredAfter? t) l l' (r.statementPlan place l above t)
      (r'.statementPlan place l' above' t) := by
  by_cases hcatch : t.kind = "catch_declaration"
  · exact like_catchPlan hr hcatch
  rw [declaredAfter?_eq_none hmember hcatch]
  unfold statementPlan
  simp only [hr.granularAt, hr.text, hr.bind_named?, hr.bind_filter_named?, hr.linkTo]
  split
  case h_13 hkind =>
    rw [h.callTarget?_eq hkind]
    exact .keep _ _ _
  case h_14 hkind => exact like_memberAccessPlan hr h hkind
  case h_15 => exact like_creationPlan hr
  case h_16 hkind =>
    rw [identifierUse_congr hr (h.lookup_eq _ (by simp [asked?, hkind]))]
    exact .keep _ _ _
  case h_17 | h_18 | h_19 | h_20 | h_21 | h_22 | h_23 | h_24 => exact like_typePlan hr
  case h_25 => exact like_variablesPlan hr true
  case h_28 | h_29 | h_30 => exact .restore _ _ _
  case h_31 hkind => exact absurd hkind hcatch
  all_goals exact .keep _ _ _

theorem like_codePlan (hr : r.Akin r' t) (h : r.SameAnswers r' place l l' above above' t) :
    Plan.Like (r.declaredAfter? t) l l' (r.codePlan place l above t)
      (r'.codePlan place l' above' t) := by
  unfold codePlan
  rw [hr.enter]
  split
  · next hkind =>
    have hkind := beq_iff_eq.mp hkind
    rw [show r.declaredAfter? t = none by simp [declaredAfter?, hkind]]
    exact .keep _ _ _
  · split
    · next hscope =>
      have hkind : t.kind = _ := beq_iff_eq.mp hscope
      rw [show r.declaredAfter? t = none by simp [declaredAfter?, hkind]]
      exact .keep _ _ _
    · split
      · next htype =>
        rw [show r.declaredAfter? t = none from declaredAfter?_of_isType htype]
        exact like_typeDeclarationPlan hr
      · split
        · next kind hkind => exact like_memberPlan hr hkind
        · next hmember =>
          have hstatement := like_statementPlan hr h hmember
          dsimp only
          split
          · rw [hr.granularAt]
            exact hstatement.addOwn _
          · exact hstatement

theorem like_calleePlan (hr : r.Akin r' t) (h : r.SameAnswers r' place l l' above above' t) :
    Plan.Like (r.declaredAfter? t) l l' (r.calleePlan place l above t)
      (r'.calleePlan place l' above' t) := by
  unfold calleePlan
  split
  case h_4 => exact like_codePlan hr h
  all_goals
    next hkind =>
    rw [show r.declaredAfter? t = none by simp [declaredAfter?, hkind]]
    exact .keep _ _ _

/-- A node that is no declarator is planned in the same way, whatever the readers and the names
bound before, if the texts in it are the same and, where it is read as an expression, the answers
about it. -/
theorem like_plan (hrole : ∀ declared isLocal, role ≠ .declarator declared isLocal)
    (hr : r.Akin r' t) (h : role = .code ∨ role = .callee →
      r.SameAnswers r' place l l' above above' t) :
    Plan.Like (r.introduced? role t) l l' (r.plan role place l above t)
      (r'.plan role place l' above' t) := by
  unfold plan
  cases role with
  | code => exact like_codePlan hr (h (.inl rfl))
  | type => exact like_typePlan hr
  | base =>
    rw [hr.baseUse]
    exact .keep _ _ _
  | callee => exact like_calleePlan hr (h (.inr rfl))
  | parameter => exact like_parameterPlan hr
  | «variables» isLocal => exact like_variablesPlan hr isLocal
  | declarator declared isLocal => exact absurd rfl (hrole declared isLocal)
  | assignment created => exact like_assignmentPlan hr created
  | binder type shown =>
    rw [hr.text, hr.granularAt]
    exact .bind _ _ _ _ _
  | _ => exact .keep _ _ _

/-! ## Walks -/

/-- The expressions among some visits below the node with the ancestors `above` get the same answers
from a reader who starts with other names bound there and with other ancestors. -/
def Answered (r r' : Reader) (above above' : List Tree) (l l' : Locals) (vs : List PlacedVisit) :
    Prop :=
  ∀ v ∈ vs, (v.role = .code ∨ v.role = .callee) → ∀ inner bs, v.above = inner ++ above →
    v.locals = bs ++ l → r.SameAnswers r' v.place (bs ++ l) (bs ++ l') (inner ++ above)
      (inner ++ above') v.node

theorem Answered.subset {vs ws : List PlacedVisit} (h : Answered r r' above above' l l' vs)
    (hsub : ∀ w ∈ ws, w ∈ vs) : Answered r r' above above' l l' ws :=
  fun w hw => h w (hsub w hw)

/-- Further down in the walk more ancestors are shared, and more names. -/
theorem Answered.descend {vs : List PlacedVisit} (h : Answered r r' above above' l l' vs)
    (inner : List Tree) (bs : Locals) :
    Answered r r' (inner ++ above) (inner ++ above') (bs ++ l) (bs ++ l') vs := by
  intro v hv hrole inner' bs' habove hlocals
  have hanswers := h v hv hrole (inner' ++ inner) (bs' ++ bs) (by rw [habove, List.append_assoc])
    (by rw [hlocals, List.append_assoc])
  simpa only [List.append_assoc] using hanswers

/-- But for declarators, a walk follows the plan of the node. -/
theorem walk_eq_of_plan (hskipped : role ≠ .skipped)
    (hdeclarator : ∀ declared isLocal, role ≠ .declarator declared isLocal) :
    r.walk role place above l t =
    let plan := r.plan role place l above t
    let rest := r.walkAll plan.role plan.place (t :: above) 0 plan.locals t.children
    (plan.after.getD rest.1, plan.own ++ rest.2) := by
  cases t
  rw [walk]
  · rfl
  · exact hskipped
  · exact hdeclarator

section Children

variable {cs : List Tree} {address : List Nat} {i : Nat}
  (hwalk : ∀ c ∈ cs, ∀ role place above above' l l' address,
    Answered r r' above above' l l' (r.visits role place above l address c) →
    ∃ bs out, r.walk role place above l c = (bs ++ l, out) ∧
      r'.walk role place above' l' c = (bs ++ l', out))
include hwalk

theorem walkAll_like (hr : ∀ c ∈ cs, r.Akin r' c) (f : Nat → Tree → Role)
    (h : Answered r r' above above' l l' (r.visitsAll f place above address i l cs)) :
    ∃ bs out, r.walkAll f place above i l cs = (bs ++ l, out) ∧
      r'.walkAll f place above' i l' cs = (bs ++ l', out) := by
  induction cs generalizing place i l l' with
  | nil => exact ⟨[], [], rfl, rfl⟩
  | cons c cs ih =>
    obtain ⟨hc, hrest⟩ := List.forall_mem_cons.mp hwalk
    obtain ⟨hrc, hrcs⟩ := List.forall_mem_cons.mp hr
    have hplace : r'.placeOf (f i c) place c = r.placeOf (f i c) place c := by
      unfold placeOf
      rw [hrc.enter]
    rw [visitsAll] at h
    obtain ⟨bs, out, hw, hw'⟩ := hc _ _ _ above' l l' _ (h.subset fun _ => List.mem_append_left _)
    rw [hw] at h
    obtain ⟨ds, rest, hws, hws'⟩ := ih hrest hrcs
      ((h.subset fun _ => List.mem_append_right _).descend [] bs)
    refine ⟨ds ++ bs, out ++ rest, ?_, ?_⟩
    · simp only [walkAll, hw, hws, List.append_assoc]
    · simp only [walkAll, hplace, hw'] at hws' ⊢
      simp only [hws', List.append_assoc]

theorem walkValues_like (name inferred : Option Nat)
    (h : Answered r r' above above' l l' (r.visitsValues place above address name i l cs)) :
    ∃ bs type out, r.walkValues place above name i l inferred cs = (bs ++ l, type, out) ∧
      r'.walkValues place above' name i l' inferred cs = (bs ++ l', type, out) := by
  induction cs generalizing i l l' inferred with
  | nil => exact ⟨[], inferred, [], rfl, rfl⟩
  | cons c cs ih =>
    obtain ⟨hc, hrest⟩ := List.forall_mem_cons.mp hwalk
    rw [visitsValues] at h
    rw [walkValues, walkValues]
    split at h
    · next hskip =>
      rw [if_pos hskip, if_pos hskip]
      exact ih hrest _ h
    · next hvalue =>
      rw [if_neg hvalue, if_neg hvalue]
      have hself : ⟨⟨.code, place, l, above, c⟩, i :: address⟩ ∈
          r.visits .code place above l (i :: address) c := by
        rw [visits_eq_cons (by simp) (by simp)]
        exact List.mem_cons_self
      have htype : r'.typeOf? place l' above' c = r.typeOf? place l above c :=
        (h _ (List.mem_append_left _ hself) (.inl rfl) [] [] rfl rfl).typeOf?_eq
      obtain ⟨bs, out, hw, hw'⟩ := hc _ _ _ above' l l' _ (h.subset fun _ => List.mem_append_left _)
      rw [hw] at h
      obtain ⟨ds, type, rest, hws, hws'⟩ := ih hrest (inferred <|> r.typeOf? place l above c)
        ((h.subset fun _ => List.mem_append_right _).descend [] bs)
      refine ⟨ds ++ bs, type, out ++ rest, ?_, ?_⟩
      · simp only [hw, hws, List.append_assoc]
      · simp only [htype, hw'] at hws' ⊢
        simp only [hws', List.append_assoc]

/-- The name of a declarator is bound behind its values. -/
theorem walk_declarator_like {d : NodeData} (hr : ∀ c ∈ cs, r.Akin r' c) (declared : Option Nat)
    (isLocal : Bool) (h : Answered r r' above above' l l'
      (r.visits (.declarator declared isLocal) place above l address (.node d cs))) :
    ∃ bs out, r.walk (.declarator declared isLocal) place above l (.node d cs) = (bs ++ l, out) ∧
      r'.walk (.declarator declared isLocal) place above' l' (.node d cs) = (bs ++ l', out) := by
  rw [visits] at h
  obtain ⟨bs, type, out, hw, hw'⟩ := walkValues_like hwalk _ none
    ((h.subset fun _ => List.mem_append_left _).descend [.node d cs] [])
  simp only [List.singleton_append, List.nil_append] at hw hw'
  rw [walk, walk, hw, hw']
  cases isLocal with
  | false => exact ⟨bs, out, rfl, rfl⟩
  | true =>
    cases hid : (Tree.node d cs).declaratorNameIndex?.bind (cs[·]?) with
    | none => exact ⟨bs, out, rfl, rfl⟩
    | some id =>
      obtain ⟨k, -, hk⟩ := Option.bind_eq_some_iff.mp hid
      have hrid := hr id (List.mem_of_getElem? hk)
      refine ⟨(r.text id, declared <|> type) :: bs,
        out ++ r.granularAt .localVariable (r.text id) (.node d cs), rfl, ?_⟩
      dsimp only
      rw [hrid.text, hrid.granularAt]
      rfl

end Children

/-- A walk depends on the texts that it reads and on the answers about the expressions that it
visits. It leaves the names bound before where they are. -/
theorem walk_like (t : Tree) : r.Akin r' t → ∀ role place above above' l l' address,
    Answered r r' above above' l l' (r.visits role place above l address t) →
    ∃ bs out, r.walk role place above l t = (bs ++ l, out) ∧
      r'.walk role place above' l' t = (bs ++ l', out) := by
  induction t using Tree.childInduction with
  | inherit t ih =>
    intro hr role place above above' l l' address h
    have hrc (c : Tree) (hc : c ∈ t.children) : r.Akin r' c :=
      hr.below (Tree.mem_preorder_of_mem_children hc)
    have ih (c : Tree) (hc : c ∈ t.children) := ih c hc (hrc c hc)
    obtain ⟨d, cs⟩ := t
    rw [Tree.children_node] at ih hrc
    by_cases hskipped : role = .skipped
    · subst hskipped
      exact ⟨[], [], by simp [walk], by simp [walk]⟩
    by_cases hdeclarator : ∃ declared isLocal, role = .declarator declared isLocal
    · obtain ⟨declared, isLocal, rfl⟩ := hdeclarator
      exact walk_declarator_like ih hrc declared isLocal h
    · have hrole (declared : Option Nat) (isLocal : Bool) : role ≠ .declarator declared isLocal :=
        fun hrole => hdeclarator ⟨declared, isLocal, hrole⟩
      rw [visits_eq_cons hskipped hrole] at h
      rw [walk_eq_of_plan hskipped hrole, walk_eq_of_plan hskipped hrole]
      obtain ⟨hown, hplace, hroles, ⟨bs, hlocals, hlocals', -⟩, hafter⟩ :=
        like_plan hrole hr fun hr => h _ List.mem_cons_self hr [] [] rfl rfl
      simp only [List.nil_append] at hown hplace hroles hlocals hlocals' hafter
      have hrest := (h.subset fun _ => List.mem_cons_of_mem _).descend [.node d cs] bs
      rw [hlocals] at hrest
      obtain ⟨ds, out, hw, hw'⟩ := walkAll_like ih hrc _ hrest
      simp only [List.singleton_append] at hw hw'
      simp only [Tree.children_node, hown, hplace, hroles, hlocals, hlocals', hw, hw']
      rcases hafter with ⟨hp, hp'⟩ | ⟨es, hp, hp', -⟩
      · rw [hp, hp', Option.getD_none, Option.getD_none, ← List.append_assoc, ← List.append_assoc]
        exact ⟨ds ++ bs, _, rfl, rfl⟩
      · rw [hp, hp']
        exact ⟨es, _, rfl, rfl⟩

end Reader

end CodeAtlas
