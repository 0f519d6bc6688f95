import CodeAtlas.Proofs.Declaration.Resolution
import CodeAtlas.Proofs.Reference.Walk

/-!
# The links of a file

A walk through a file emits a link in about a dozen places, each after a look-up of its own. Every
look-up yields an entry of a kind that the link asks for, `Reader.linkTo` drops links between the
parts of one type, and the site of a link is a part of the node that emits it. So much is said once,
node by node and in whatever role a node is read; what the links of a whole walk have in common
follows from it.

## Main definitions

* `LinkKind.admits`: the kinds of symbols that a kind of link leads to.
* `Contribution.Permitted`: what a walk may contribute.
* `Reader.Emits`: what a node may contribute.

## Main statements

* `Reader.emits_of_mem_ownOf`: every node contributes only what it may.
* `Reader.exists_stands_of_mem_contributions`: what a file contributes is contributed by one of its
  nodes.
-/
namespace CodeAtlas

namespace LinkKind

/-- The kinds of symbols that a kind of link leads to. -/
def admits : LinkKind → SymbolKind → Bool
  | calls, k => k.isCallable
  | accesses, k => k.isData
  | usesType, k => k.isType
  | inherits, k => k == .class
  | implements, k => k == .interface

/-- The link is written as the name of its target. -/
def namesType : LinkKind → Bool
  | usesType | inherits | implements => true
  | _ => false

@[grind →] theorem isDeclaration_of_admits {l : LinkKind} {k : SymbolKind} (h : l.admits k = true) :
    k.isDeclaration = true := by
  cases l <;> cases k <;> first | rfl | exact absurd h (by decide)

end LinkKind

/-- A link of this `kind` may lead to the entry of `t` at position `i`. -/
def Table.IsTarget (t : Table) (kind : LinkKind) (i : Nat) : Prop :=
  t.Holds i fun e => kind.admits e.kind = true ∧
    (kind.namesType = true → t.isPredefined e.name = false)

/-- A link leads to an entry of `t` that it may lead to, and to no part of the type that it comes
from. -/
def Contribution.Permitted (t : Table) : Contribution → Prop
  | link source l => ∃ target, t.IsTarget l.kind target ∧ t.leadPart source ≠ t.leadPart target ∧
      t.Holds target (·.id = l.target)
  | _ => True

/-! ## Sites -/

namespace Tree

variable {t : Tree}

theorem nameSite_mem_preorder (t : Tree) : t.nameSite ∈ t.preorder := by
  unfold nameSite
  split
  · cases h : t.leadingIdentifier? with
    | none => exact mem_preorder_self t
    | some id =>
      have hnamed : id ∈ t.namedChildren := List.mem_of_find?_eq_some h
      exact mem_preorder_of_mem_children (List.mem_filter.mp hnamed).1
  · exact mem_preorder_self t

@[grind →]
theorem mem_preorder_of_field? {field : String} {c : Tree} (h : t.field? field = some c) :
    c ∈ t.preorder :=
  mem_preorder_of_mem_children (mem_children_of_field? h)

/-- A name that fills a field of a node is written inside it. -/
@[grind →]
theorem nameSite_mem_of_field? {field : String} {name : Tree} (h : t.field? field = some name) :
    name.nameSite ∈ t.preorder :=
  mem_preorder_trans (mem_preorder_of_field? h) (nameSite_mem_preorder name)

end Tree

/-- The node that names the function of a call. -/
def Callee.site : Callee → Tree
  | plain site => site
  | member _ _ site => site

theorem Tree.site_mem_of_callee? {above : List Tree} {call : Tree} {callee : Callee}
    (h : call.callee? above = some callee) : callee.site ∈ call.preorder := by
  obtain ⟨function, hfunction, h⟩ := Option.bind_eq_some_iff.mp h
  refine mem_preorder_trans (mem_preorder_of_field? hfunction) ?_
  split at h
  · obtain rfl := Option.some.inj h
    exact nameSite_mem_preorder function
  · obtain rfl := Option.some.inj h
    exact nameSite_mem_preorder function
  · obtain ⟨name, hname, h⟩ := Option.bind_eq_some_iff.mp h
    obtain ⟨receiver, -, h⟩ := Option.bind_eq_some_iff.mp h
    obtain rfl := Option.some.inj h
    exact nameSite_mem_of_field? hname
  · obtain ⟨name, hname, h⟩ := Option.bind_eq_some_iff.mp h
    obtain ⟨⟨receiver, around⟩, -, h⟩ := Option.bind_eq_some_iff.mp h
    obtain rfl := Option.some.inj h
    exact nameSite_mem_of_field? hname
  · obtain ⟨binding, hbinding, h⟩ := Option.bind_eq_some_iff.mp h
    obtain ⟨name, hname, h⟩ := Option.bind_eq_some_iff.mp h
    obtain ⟨receiver, -, h⟩ := Option.bind_eq_some_iff.mp h
    obtain rfl := Option.some.inj h
    have hnamed : binding ∈ function.namedChildren :=
      List.mem_reverse.mp (List.mem_of_find?_eq_some hbinding)
    exact mem_preorder_trans (mem_preorder_of_mem_children (List.mem_filter.mp hnamed).1)
      (nameSite_mem_of_field? hname)
  · simp at h

namespace Reader

variable {r : Reader} {role : Role} {place : Place} {locals : Locals} {above : List Tree} {t : Tree}
  {cs ds : List Contribution}

/-! ## Look-ups -/

@[grind →] theorem isTarget_usesType_of_denotedType {text ns : String} {i : Nat} {table : Table}
    (h : table.denotedType text ns = some i) : table.IsTarget .usesType i :=
  (Table.denotedType_eq_some h).imp fun _ he => ⟨he.1, fun _ => he.2.2.2⟩

@[grind →] theorem isTarget_accesses_of_dataMember {type i : Nat} {name : String} {table : Table}
    (h : table.dataMember type name = some i) : table.IsTarget .accesses i :=
  (Table.dataMember_eq_some h).imp fun _ he => ⟨he, by simp [LinkKind.namesType]⟩

@[grind →] theorem isTarget_calls_of_calledMethod {name : String} {receiver context : Option Nat}
    {args i : Nat} {table : Table} (h : table.calledMethod name receiver context args = some i) :
    table.IsTarget .calls i := by
  refine (Table.calledMethod_eq_some h).imp fun e he => ⟨?_, by simp [LinkKind.namesType]⟩
  simp [LinkKind.admits, he, SymbolKind.isCallable]

@[grind →] theorem isTarget_calls_of_calledConstructor {type args i : Nat} {table : Table}
    (h : table.calledConstructor type args = some i) : table.IsTarget .calls i := by
  refine (Table.calledConstructor_eq_some h).imp fun e he => ⟨?_, by simp [LinkKind.namesType]⟩
  simp [LinkKind.admits, he, SymbolKind.isCallable]

theorem isTarget_calls_of_callTarget? {site : Tree} {i : Nat}
    (h : r.callTarget? place locals above t = some (i, site)) :
    r.table.IsTarget .calls i ∧ site ∈ t.preorder := by
  obtain ⟨callee, hcallee, h⟩ := Option.bind_eq_some_iff.mp h
  have hsite := Tree.site_mem_of_callee? hcallee
  cases callee with
  | plain name =>
    obtain ⟨j, hcall, heq⟩ := Option.map_eq_some_iff.mp h
    obtain ⟨rfl, rfl⟩ := Prod.mk.inj heq
    unfold plainCall? at hcall
    dsimp only at hcall
    split at hcall
    · simp at hcall
    · exact ⟨isTarget_calls_of_calledMethod hcall, hsite⟩
  | member receiver around name =>
    obtain ⟨type, -, h⟩ := Option.bind_eq_some_iff.mp h
    obtain ⟨j, hcall, heq⟩ := Option.map_eq_some_iff.mp h
    obtain ⟨rfl, rfl⟩ := Prod.mk.inj heq
    exact ⟨isTarget_calls_of_calledMethod hcall, hsite⟩

/-! ## Single contributions -/

/-- What the node `t` may contribute that is read in this `role` at this `place`. Only a type in a
base list implements anything. -/
inductive Emits (r : Reader) (role : Role) (place : Place) (t : Tree) : Contribution → Prop
  | link {source target : Nat} {entry : Entry} {kind : LinkKind} {site : Tree}
      (node_eq : place.node = some source) (entry_eq : r.table.entries[target]? = some entry)
      (isTarget : r.table.IsTarget kind target)
      (parts_ne : r.table.leadPart source ≠ r.table.leadPart target)
      (site_mem : site ∈ t.preorder) (base : kind = .implements → role = .base) :
      Emits r role place t (.link source ⟨entry.id, kind, site.start, site.length⟩)
  | implementation {interface implementer : String} (base : role = .base) :
      Emits r role place t (.implementation interface implementer)
  | granular {kind : SymbolKind} {name : String} (isDeclaration_eq : kind.isDeclaration = false) :
      Emits r role place t (.granular kind name t.start t.length)

@[grind →]
theorem Emits.permitted {c : Contribution} (h : r.Emits role place t c) : c.Permitted r.table := by
  cases h with
  | link node_eq entry_eq isTarget parts_ne => exact ⟨_, isTarget, parts_ne, _, entry_eq, rfl⟩
  | implementation => trivial
  | granular => trivial

theorem Emits.of_granular {kind : SymbolKind} {name : String} {start length : Nat}
    (h : r.Emits role place t (.granular kind name start length)) :
    start = t.start ∧ length = t.length ∧ kind.isDeclaration = false := by
  cases h with
  | granular h => exact ⟨rfl, rfl, h⟩

/-- Contributions `cs` that the node `t`, when it is read in this `role`, may make. -/
def EmitsAll (r : Reader) (role : Role) (place : Place) (t : Tree) (cs : List Contribution) :
    Prop :=
  ∀ c ∈ cs, r.Emits role place t c

@[simp] theorem emitsAll_nil : r.EmitsAll role place t [] := by
  simp [EmitsAll]

@[simp] theorem emitsAll_append :
    r.EmitsAll role place t (cs ++ ds) ↔
      r.EmitsAll role place t cs ∧ r.EmitsAll role place t ds := by
  simp [EmitsAll, or_imp, forall_and]

theorem emitsAll_linkTo {target : Nat} {kind : LinkKind} {site : Tree}
    (htarget : r.table.IsTarget kind target) (hsite : site ∈ t.preorder)
    (hbase : kind = .implements → role = .base) :
    r.EmitsAll role place t (r.linkTo place target kind site) := by
  unfold linkTo
  split
  · next source entry hnode hentry =>
    split
    · simp
    · next hne =>
      intro c hc
      obtain rfl := List.mem_singleton.mp hc
      exact .link hnode hentry htarget hne hsite hbase
  · simp

theorem emitsAll_granularAt {kind : SymbolKind} {name : String}
    (h : kind.isDeclaration = false) : r.EmitsAll role place t (r.granularAt kind name t) := by
  intro c hc
  unfold granularAt at hc
  split at hc
  · obtain rfl := List.mem_singleton.mp hc
    exact .granular h
  · simp at hc

theorem emitsAll_typeUse {site : Tree} (hsite : site ∈ t.preorder) :
    r.EmitsAll role place t (r.typeUse place t site) := by
  unfold typeUse
  split
  · next target htarget =>
    exact emitsAll_linkTo (isTarget_usesType_of_denotedType htarget) hsite (by simp)
  · simp

/-- The kind of a base decides whether it is inherited from or implemented. -/
theorem emitsAll_baseUse : r.EmitsAll .base place t (r.baseUse place t) := by
  have hsite := t.nameSite_mem_preorder
  unfold baseUse
  split
  · simp
  next target htarget =>
  split
  · simp
  next entry hentry =>
  obtain ⟨e, he, htype, -, -, hname⟩ := Table.denotedType_eq_some htarget
  obtain rfl : entry = e := by simpa [hentry] using he
  split
  · next hkind =>
    have hlink : r.table.IsTarget .implements target :=
      ⟨entry, hentry, hkind, fun _ => hname⟩
    refine emitsAll_append.mpr ⟨emitsAll_linkTo hlink hsite fun _ => rfl, ?_⟩
    split
    · intro c hc
      obtain rfl := List.mem_singleton.mp hc
      exact .implementation rfl
    · simp
  · next hkind =>
    have hclass : LinkKind.inherits.admits entry.kind = true := by
      cases h : entry.kind <;> simp_all [SymbolKind.isType, LinkKind.admits]
    exact emitsAll_linkTo ⟨entry, hentry, hclass, fun _ => hname⟩ hsite fun _ => rfl

@[simp] theorem emitsAll_identifierUse :
    r.EmitsAll role place t (r.identifierUse place locals t) := by
  have hsite := t.mem_preorder_self
  unfold identifierUse
  dsimp only
  split
  · simp
  · split
    · next member hmember =>
      obtain ⟨type, -, hmember⟩ := Option.bind_eq_some_iff.mp hmember
      exact emitsAll_linkTo (isTarget_accesses_of_dataMember hmember) hsite (by simp)
    · split
      · next target htarget =>
        exact emitsAll_linkTo (isTarget_usesType_of_denotedType htarget) hsite (by simp)
      · simp

/-! ## Plans -/

@[simp] theorem emitsAll_typePlan :
    r.EmitsAll role place t (r.typePlan place locals t).own := by
  unfold typePlan
  split
  all_goals simp [emitsAll_typeUse, Tree.mem_preorder_self, Tree.nameSite_mem_preorder]

@[simp] theorem emitsAll_memberAccessPlan :
    r.EmitsAll role place t (r.memberAccessPlan place locals above t).own := by
  unfold memberAccessPlan
  dsimp only
  split
  · dsimp only
    split
    · next name hname =>
      split
      · next member hmember =>
        exact emitsAll_linkTo (isTarget_accesses_of_dataMember hmember)
          (Tree.nameSite_mem_of_field? hname) (by simp)
      · simp
    · simp
  · split
    · next target htarget =>
      unfold dottedType? at htarget
      dsimp only at htarget
      split at htarget
      · exact emitsAll_linkTo (isTarget_usesType_of_denotedType htarget) t.mem_preorder_self
          (by simp)
      · simp at htarget
    · simp

@[simp] theorem emitsAll_creationPlan :
    r.EmitsAll role place t (r.creationPlan place locals t).own := by
  unfold creationPlan
  dsimp only
  split
  · next type target htype htarget =>
    obtain ⟨created, -, htarget⟩ := Option.bind_eq_some_iff.mp htarget
    exact emitsAll_linkTo (isTarget_calls_of_calledConstructor htarget)
      (Tree.mem_preorder_of_field? htype) (by simp)
  · simp

theorem emitsAll_assignmentPlan {created : Option Nat} :
    r.EmitsAll role place t (r.assignmentPlan place locals t created).own := by
  unfold assignmentPlan
  dsimp only
  split
  · simp
  · next left hleft =>
    split
    · dsimp only
      split
      · next member hmember =>
        obtain ⟨type, -, hmember⟩ := Option.bind_eq_some_iff.mp hmember
        exact emitsAll_linkTo (isTarget_accesses_of_dataMember hmember)
          (Tree.mem_preorder_of_field? hleft) (by simp)
      · simp
    · simp

theorem emitsAll_statementPlan :
    r.EmitsAll role place t (r.statementPlan place locals above t).own := by
  unfold statementPlan
  split
  all_goals try exact emitsAll_granularAt rfl
  all_goals try simp only [emitsAll_nil, emitsAll_typePlan, emitsAll_memberAccessPlan,
    emitsAll_creationPlan, emitsAll_identifierUse, variablesPlan, parametersPlan]
  -- what is left is a call and a `catch`, which look further before they decide
  · split
    · next target site hcall =>
      obtain ⟨htarget, hsite⟩ := isTarget_calls_of_callTarget? hcall
      exact emitsAll_linkTo htarget hsite (by simp)
    · simp
  · split <;> simp

theorem emitsAll_codePlan : r.EmitsAll role place t (r.codePlan place locals above t).own := by
  unfold codePlan
  split
  · simp
  · split
    · simp
    · split
      · unfold typeDeclarationPlan
        split <;> simp
      · split
        · simp [memberPlan]
        · dsimp only
          split
          · exact emitsAll_append.mpr ⟨emitsAll_granularAt rfl, emitsAll_statementPlan⟩
          · exact emitsAll_statementPlan

theorem emitsAll_calleePlan :
    r.EmitsAll role place t (r.calleePlan place locals above t).own := by
  unfold calleePlan
  split
  · simp
  · simp
  · simp
  · exact emitsAll_codePlan

theorem emitsAll_parameterPlan :
    r.EmitsAll role place t (r.parameterPlan place locals t).own := by
  unfold parameterPlan
  dsimp only
  split
  · exact emitsAll_granularAt rfl
  · simp

theorem emitsAll_plan (role : Role) :
    r.EmitsAll role place t (r.plan role place locals above t).own := by
  unfold plan
  cases role <;> dsimp only
  case code => exact emitsAll_codePlan
  case type => exact emitsAll_typePlan
  case base => exact emitsAll_baseUse
  case callee => exact emitsAll_calleePlan
  case parameter => exact emitsAll_parameterPlan
  case assignment created => exact emitsAll_assignmentPlan
  case binder type shown =>
    split
    · exact emitsAll_granularAt rfl
    · simp
  all_goals exact emitsAll_nil

/-! ## Walks -/

/-- In whatever role a node is read, it contributes only what it may. -/
@[grind →] theorem emits_of_mem_ownOf {v : Visit} {c : Contribution} (h : c ∈ r.ownOf v) :
    r.Emits v.role v.place v.node c := by
  unfold ownOf at h
  split at h
  · exact emitsAll_granularAt rfl c h
  · exact emitsAll_plan v.role c h

/-- What a file contributes is contributed by a node that stands in it. -/
theorem exists_stands_of_mem_contributions {root : Tree} {c : Contribution}
    (h : c ∈ r.contributions root) :
    ∃ v, r.Stands root v ∧ r.Emits v.role v.place v.node c := by
  obtain ⟨vs, hvs, heq⟩ := exists_visits r root
  rw [heq] at h
  obtain ⟨v, hv, hc⟩ := List.mem_flatMap.mp h
  exact ⟨v, (hvs v hv).stands, emits_of_mem_ownOf hc⟩

end Reader

end CodeAtlas
