import CodeAtlas.Proofs.Graph.Sites
import CodeAtlas.Proofs.Reference.Trace

/-!
# The namespaces of the two rounds

Both rounds of building a graph keep track of namespaces, each in its own way: the collection of the
declarations descends into the bodies of namespaces and types only, the walk into every part that a
plan gives a role to, and the two join the names of nested namespaces differently. They agree
nevertheless: a type that the walk enters stands in the namespace that was recorded with it.

## Main definitions

* `Tree.BlockScoped`: no file-scoped namespace, and namespaces have names and proper bodies.
* `Agree`: visits and declarations of the same types give the same namespaces.

## Main statements

* `Reader.agree_trace`: the walk through a file agrees with its declarations.
* `SymbolGraph.namespaces_agree`: so it does with the entries of a table.
-/
namespace CodeAtlas

/-! ## The sites of declarations -/

namespace Tree

variable {source path ns : String} {parent : Option Nat} {next k : Nat} {address : List Nat}
  {t : Tree} {cs : List Tree} {s : DeclarationSite}

@[grind →] theorem suffix_of_mem_sitesAt (hs : s ∈ sitesAt source path ns parent next address t) :
    address <:+ s.address :=
  ((forall_mem_sitesAt (P := fun a _ => address <:+ a) source path
    (fun a _ i _ ha _ => ha.trans (List.suffix_cons i a)) t).1 ns parent next address
      List.suffix_rfl s hs).1

@[grind →]
theorem belowChild_of_mem_sitesIn (hs : s ∈ sitesIn source path ns parent next address k cs) :
    BelowChild address k s.address := by
  have hbelow (c : Tree) := forall_mem_sitesAt (P := fun a _ => BelowChild address k a) source path
    (fun _ _ i _ ha _ => ha.cons i) c
  exact (forall_mem_sitesIn (fun c _ => hbelow c) (fun i _ _ => belowChild_add address k i)
    ns parent next s hs).1

@[grind →] theorem belowChild_of_mem_sitesOf {pos : Option Nat}
    (hs : s ∈ sitesOf source path ns parent next address pos k cs) :
    BelowChild address k s.address := by
  obtain ⟨i, body, -, -, hs⟩ := mem_sitesOf.mp hs
  obtain ⟨j, -, hsuffix⟩ := belowChild_of_mem_sitesIn hs
  exact ⟨k + i, Nat.le_add_right k i, (List.suffix_cons j _).trans hsuffix⟩

end Tree

/-! ## Agreement -/

/-- The visits `vs` and the declaration sites `ss` of the same types give the same namespaces. -/
def Agree (ss : List DeclarationSite) (vs : List PlacedVisit) : Prop :=
  ∀ s ∈ ss, ∀ v ∈ vs, s.address = v.address → s.declaration.kind.isType = true →
    v.place.namespace = s.declaration.namespace

section Agree

variable {ss ss' : List DeclarationSite} {vs vs' : List PlacedVisit} {address : List Nat} {i : Nat}

theorem Agree.nil (vs : List PlacedVisit) : Agree [] vs := by
  simp [Agree]

/-- A visit of a node agrees with the declarations below its children. -/
theorem Agree.cons {v : PlacedVisit} (h : Agree ss vs)
    (hss : ∀ s ∈ ss, BelowChild v.address i s.address) : Agree ss (v :: vs) := by
  intro s hs w hw heq
  rcases List.mem_cons.mp hw with rfl | hw
  · obtain ⟨j, -, hsuffix⟩ := hss s hs
    exact absurd heq (ne_of_cons_suffix hsuffix)
  · exact h s hs w hw heq

theorem ne_of_belowChild {a b : List Nat} (ha : (i :: address) <:+ a)
    (hb : BelowChild address (i + 1) b) : a ≠ b := by
  rintro rfl
  obtain ⟨j, hj, hb⟩ := hb
  have := head_eq_of_suffix ha hb
  omega

/-- What stands below a child and what stands below later ones agree on their own: they have no
node in common. -/
theorem Agree.append (h : Agree ss vs) (h' : Agree ss' vs')
    (hss : ∀ s ∈ ss, (i :: address) <:+ s.address)
    (hss' : ∀ s ∈ ss', BelowChild address (i + 1) s.address)
    (hvs : ∀ v ∈ vs, (i :: address) <:+ v.address)
    (hvs' : ∀ v ∈ vs', BelowChild address (i + 1) v.address) : Agree (ss ++ ss') (vs ++ vs') := by
  intro s hs v hv heq
  rcases List.mem_append.mp hs with hs | hs <;> rcases List.mem_append.mp hv with hv | hv
  · exact h s hs v hv heq
  · exact absurd heq (ne_of_belowChild (hss s hs) (hvs' v hv))
  · exact absurd heq.symm (ne_of_belowChild (hvs v hv) (hss' s hs))
  · exact h' s hs v hv heq

end Agree

/-! ## The names of namespaces -/

namespace Tree

variable {source : String} {t c : Tree}

/-- The node `t` has no name or one that is not empty. -/
def HasName (source : String) (t : Tree) : Prop :=
  t.textIn? "name" source ≠ some ""

instance (source : String) (t : Tree) : Decidable (t.HasName source) :=
  inferInstanceAs (Decidable (_ ≠ _))

@[grind →] theorem kind_of_isNamespace (h : t.isNamespace = true) :
    t.kind = "namespace_declaration" ∨ t.kind = "file_scoped_namespace_declaration" := by
  simpa [isNamespace, isFileScope] using h

theorem declaredName?_of_isNamespace (h : t.isNamespace = true) :
    t.declaredName? source = t.textIn? "name" source := by
  have hmember : t.memberKind? = none := by
    rcases kind_of_isNamespace h with h | h <;> simp [memberKind?, h]
  simp [declaredName?, hmember, h]

end Tree

@[simp] theorem qualify_empty (ns : String) : qualify ns "" = ns := by
  unfold qualify
  split
  · next h => simpa using h.symm
  · rfl

namespace Reader

variable {r : Reader} {place : Place} {t : Tree}

/-- Both rounds name a namespace in the same way. -/
theorem namespace_enter (h : t.isNamespace = true) (hname : t.HasName r.source) :
    (r.enter place t).namespace =
      qualify place.namespace ((t.declaredName? r.source).getD "") := by
  rw [Tree.declaredName?_of_isNamespace h]
  unfold enter
  cases ht : t.textIn? "name" r.source with
  | none => exact (qualify_empty _).symm
  | some name =>
    have hne : name ≠ "" := fun heq => hname (by rw [ht, heq])
    simp [qualify, hne]

theorem namespace_enter_fileScope (place : Place) (h : t.isFileScope = true)
    (hname : t.HasName r.source) :
    (r.enter place t).namespace =
      ((t.declaredName? r.source).map (qualify place.namespace)).getD place.namespace := by
  rw [namespace_enter (by simp [Tree.isNamespace, h]) hname]
  cases t.declaredName? r.source with
  | none => exact qualify_empty _
  | some name => rfl

end Reader

/-! ## Trees without file-scoped namespaces -/

/-- The tree `t` has no file-scoped namespace, its namespaces have names, and their bodies are lists
of declarations. -/
structure Tree.BlockScoped (source : String) (t : Tree) : Prop where
  isFileScope_eq : ∀ n ∈ t.preorder, n.isFileScope = false
  hasName : ∀ n ∈ t.preorder, n.isNamespace = true → n.HasName source
  body_kind : ∀ n ∈ t.preorder, n.kind = "namespace_declaration" →
    ∀ body ∈ n.field? "body", body.kind = "declaration_list"

theorem Tree.BlockScoped.child {source : String} {t c : Tree} (h : t.BlockScoped source)
    (hc : c ∈ t.children) : c.BlockScoped source := by
  have hmem (n : Tree) (hn : n ∈ c.preorder) : n ∈ t.preorder :=
    mem_preorder_trans (mem_preorder_of_mem_children hc) hn
  exact ⟨fun n hn => h.isFileScope_eq n (hmem n hn), fun n hn => h.hasName n (hmem n hn),
    fun n hn => h.body_kind n (hmem n hn)⟩

theorem Tree.BlockScoped.children {source : String} {t : Tree} (h : t.BlockScoped source) :
    ∀ c ∈ t.children, c.isFileScope = false :=
  fun c hc => h.isFileScope_eq c (mem_preorder_of_mem_children hc)

/-- In this `role` the walk may come across a child `c` whose declarations are collected: types and
namespaces are read as code or as a base, and file-scoped namespaces as such. -/
def Role.Fits (role : Role) (c : Tree) : Prop :=
  (c.isFileScope = true → role = if c.named then .fileScope else .skipped) ∧
  (c.isFileScope = false → role ≠ .fileScope ∧
    (c.isNamespace = true ∨ c.typeKind?.isSome = true →
      role = .skipped ∨ role = .code ∨ role = .base))

namespace Role

variable {c : Tree}

theorem fits_eachInSequence (i : Nat) (c : Tree) : (eachInSequence i c).Fits c := by
  unfold eachInSequence
  constructor
  · intro h
    cases c.named <;> simp [h]
  · intro h
    cases c.named <;> simp [h]

theorem fits_eachCode (i : Nat) (h : c.isFileScope = false) : (eachCode i c).Fits c := by
  refine ⟨fun hscope => by simp [h] at hscope, fun _ => ?_⟩
  unfold eachCode
  split <;> simp

/-- Kinds of nodes whose declarations are collected. -/
theorem kind_of_declaring (h : c.isNamespace = true ∨ c.typeKind?.isSome = true) :
    c.kind ≠ "parameter" ∧ c.kind ≠ "primary_constructor_base_type" ∧
      c.kind ≠ "declaration_list" ∧ c.kind ≠ "generic_name" ∧ c.kind ≠ "qualified_name" ∧
      c.kind ≠ "alias_qualified_name" := by
  rcases h with h | h
  · rcases Tree.kind_of_isNamespace h with h | h <;> simp [h]
  · refine ⟨?_, ?_, ?_, ?_, ?_, ?_⟩ <;>
    · intro heq
      simp [Tree.typeKind?, heq] at h

theorem fits_ofNamespace (i : Nat) (h : c.isFileScope = false) : (ofNamespace i c).Fits c := by
  refine ⟨fun hscope => by simp [h] at hscope, fun _ => ⟨?_, fun hc => ?_⟩⟩
  · grind [ofNamespace]
  · grind [ofNamespace, kind_of_declaring hc]

theorem fits_ofBases (i : Nat) (h : c.isFileScope = false) : (ofBases i c).Fits c := by
  refine ⟨fun hscope => by simp [h] at hscope, fun _ => ⟨?_, fun hc => ?_⟩⟩
  · grind [ofBases]
  · grind [ofBases, kind_of_declaring hc]

theorem fits_parametersPlan (place : Place) (locals : Locals) (i : Nat)
    (h : c.isFileScope = false) : ((Reader.parametersPlan place locals).role i c).Fits c := by
  refine ⟨fun hscope => by simp [h] at hscope, fun _ => ⟨?_, fun hc => ?_⟩⟩
  · grind [Reader.parametersPlan]
  · grind [Reader.parametersPlan, kind_of_declaring hc]

end Role

/-! ## Agreement along a walk -/

namespace Reader

variable {r : Reader} {f : Nat → Tree → Role} {place : Place} {locals : Locals}
  {above cs : List Tree} {address : List Nat} {i : Nat} {t : Tree} {v : PlacedVisit}

/-- The walk agrees with the declarations of `t` if it reads it as code or as a base. -/
def AgreesAt (r : Reader) (t : Tree) : Prop :=
  ∀ (role : Role) (place : Place) (above : List Tree) (locals : Locals) (address : List Nat)
    (parent : Option Nat) (next : Nat), t.isFileScope = false → role = .code ∨ role = .base →
    Agree (t.sitesAt r.source r.path place.namespace parent next address)
      (r.visits role place above locals address t)

/-- The walk agrees with the declarations among the children of `t`. -/
def AgreesBelow (r : Reader) (t : Tree) : Prop :=
  ∀ (f : Nat → Tree → Role) (place : Place) (above : List Tree) (locals : Locals)
    (address : List Nat) (parent : Option Nat) (next : Nat),
    (∀ i, ∀ c ∈ t.children, (f i c).Fits c) →
    Agree (Tree.sitesIn r.source r.path place.namespace parent next address 0 t.children)
      (r.visitsAll f place above address 0 locals t.children)

/-- What a walk has to satisfy for `c`, one of several children. -/
def AgreesOn (r : Reader) (c : Tree) : Prop :=
  r.AgreesAt c ∧
    (c.isFileScope = true → r.AgreesBelow c ∧ c.HasName r.source ∧
      ∀ c' ∈ c.children, c'.isFileScope = false)

/-- Only types and namespaces contribute types. -/
theorem agree_of_not_declaring {source path ns : String} {parent : Option Nat} {next : Nat}
    {vs : List PlacedVisit} (hspace : t.isNamespace = false) (htype : t.typeKind? = none) :
    Agree (t.sitesAt source path ns parent next address) vs := by
  intro s hs v _ _ hisType
  rcases Tree.mem_sitesAt hs with ⟨h, -⟩ | ⟨-, -, -, -, hmakes⟩ | ⟨-, h, -⟩
  · simp [hspace] at h
  · have hextent := congrArg Extent.isType hmakes.extent_eq
    simp [Declaration.extent, Tree.extent, htype, hisType] at hextent
  · simp [htype] at h

theorem AgreesAt.of_fits {role : Role} {parent : Option Nat} {next : Nat} (h : r.AgreesAt t)
    (hfits : role.Fits t) (hscope : t.isFileScope = false) :
    Agree (t.sitesAt r.source r.path place.namespace parent next address)
      (r.visits role place above locals address t) := by
  by_cases hdeclaring : t.isNamespace = true ∨ t.typeKind?.isSome = true
  · rcases (hfits.2 hscope).2 hdeclaring with rfl | rfl | rfl
    · simp [Agree]
    · exact h _ _ _ _ _ _ _ hscope (.inl rfl)
    · exact h _ _ _ _ _ _ _ hscope (.inr rfl)
  · rw [not_or] at hdeclaring
    exact agree_of_not_declaring (by simpa using hdeclaring.1) (by simpa using hdeclaring.2)

/-- The walk agrees with the declarations among some siblings if it does for each of them. A
file-scoped namespace changes the namespace of both from there on. -/
theorem agree_siblings (hcs : ∀ c ∈ cs, r.AgreesOn c) (hf : ∀ i, ∀ c ∈ cs, (f i c).Fits c)
    (place : Place) (above : List Tree) (locals : Locals) (address : List Nat)
    (parent : Option Nat) (next i : Nat) :
    Agree (Tree.sitesIn r.source r.path place.namespace parent next address i cs)
      (r.visitsAll f place above address i locals cs) := by
  induction cs generalizing i place locals next with
  | nil =>
    rw [Tree.sitesIn]
    simp [Agree]
  | cons c cs ih =>
    obtain ⟨hc, hcs⟩ := List.forall_mem_cons.mp hcs
    have hfits := hf i c List.mem_cons_self
    have ih := ih hcs fun i c hc => hf i c (List.mem_cons_of_mem _ hc)
    -- the first sibling and the others have no node in common
    have hsplit {role : Role} {own : List DeclarationSite} {ns : String} {next : Nat}
        {place : Place} {locals' : Locals} (hns : ns = place.namespace)
        (hown : Agree own (r.visits role place above locals (i :: address) c))
        (hsuffix : ∀ s ∈ own, (i :: address) <:+ s.address) :
        Agree (own ++ Tree.sitesIn r.source r.path ns parent next address (i + 1) cs)
          (r.visits role place above locals (i :: address) c ++
            r.visitsAll f place above address (i + 1) locals' cs) := by
      subst hns
      exact hown.append (ih _ _ _ _) hsuffix (fun s hs => Tree.belowChild_of_mem_sitesIn hs)
        (fun v hv => suffix_of_mem_visits hv) fun v hv => belowChild_of_mem_visitsAll hv
    obtain ⟨d, kids⟩ := c
    unfold Tree.sitesIn
    rw [visitsAll]
    dsimp only
    cases hscope : (Tree.node d kids).isFileScope with
    | false =>
      rw [placeOf, if_neg (hfits.2 hscope).1]
      split
      · exact (hsplit rfl (.nil _) (List.forall_mem_nil _) : Agree ([] ++ _) _)
      · exact hsplit rfl (hc.1.of_fits hfits hscope) fun s hs => Tree.suffix_of_mem_sitesAt hs
    | true =>
      obtain ⟨hbelow, hname, hkids⟩ := hc.2 hscope
      cases hnamed : (Tree.node d kids).named with
      | false =>
        have hrole : f i (.node d kids) = .skipped := by simpa [hnamed] using hfits.1 hscope
        have hplace : r.placeOf .skipped place (.node d kids) = place := rfl
        rw [hrole, hplace]
        exact (hsplit rfl (.nil _) (List.forall_mem_nil _) : Agree ([] ++ _) _)
      | true =>
        have hrole : f i (.node d kids) = .fileScope := by simpa [hnamed] using hfits.1 hscope
        rw [placeOf, if_pos hrole, hrole]
        have hns := namespace_enter_fileScope place hscope hname
        refine hsplit hns.symm ?_ ?_
        · rw [visits_eq_cons (by simp) (by simp), ← hns]
          exact (hbelow _ _ _ _ _ _ _ fun j c hc => Role.fits_ofNamespace j (hkids c hc)).cons
            fun s hs => Tree.belowChild_of_mem_sitesIn hs
        · intro s hs
          obtain ⟨j, -, hsuffix⟩ := Tree.belowChild_of_mem_sitesIn hs
          exact (List.suffix_cons j _).trans hsuffix

/-- Siblings of which none is read as a file-scoped namespace are all read in one place. -/
theorem exists_child_of_mem_visitsAll (hf : ∀ i, ∀ c ∈ cs, f i c ≠ .fileScope)
    (hv : v ∈ r.visitsAll f place above address i locals cs) :
    ∃ k c locals', cs[k]? = some c ∧
      v ∈ r.visits (f (i + k) c) place above locals' ((i + k) :: address) c := by
  induction cs generalizing i locals with
  | nil => simp [visitsAll] at hv
  | cons c cs ih =>
    rw [visitsAll, placeOf, if_neg (hf i c List.mem_cons_self)] at hv
    rcases List.mem_append.mp hv with hv | hv
    · exact ⟨0, c, locals, rfl, hv⟩
    · obtain ⟨k, c', locals', hk, hv⟩ := ih (fun i c hc => hf i c (List.mem_cons_of_mem _ hc)) hv
      rw [Nat.add_right_comm] at hv
      exact ⟨k + 1, c', locals', hk, hv⟩

end Reader

/-- In this `role` the bodies of namespaces and types are read. -/
def Role.ListsParts (role : Role) : Prop :=
  role = .sequence ∨ role = .body ∨ role = .parameters ∨ role = .bases

theorem Role.listsParts_ofTypeDeclaration (t c : Tree) (i : Nat) :
    ofTypeDeclaration t i c = .skipped ∨ (ofTypeDeclaration t i c).ListsParts := by
  simp only [ofTypeDeclaration, first, only, ListsParts]
  grind

theorem Role.listsParts_ofNamespace {c : Tree} (h : c.kind = "declaration_list") (i : Nat) :
    ofNamespace i c = .skipped ∨ (ofNamespace i c).ListsParts := by
  grind [ofNamespace, ListsParts]

namespace Reader

variable {r : Reader} {f : Nat → Tree → Role} {place : Place} {locals : Locals}
  {above : List Tree} {address : List Nat} {t body : Tree} {role : Role} {parent : Option Nat}
  {next : Nat}

/-- The walk agrees with the declarations in a body. -/
theorem AgreesBelow.of_listsParts (h : r.AgreesBelow body)
    (hscope : ∀ c ∈ body.children, c.isFileScope = false)
    (hrole : role = .skipped ∨ role.ListsParts) :
    Agree (Tree.sitesIn r.source r.path place.namespace parent next address 0 body.children)
      (r.visits role place above locals address body) := by
  have hbelow {p : Plan} (hplace : p.place = place)
      (hfits : ∀ i, ∀ c ∈ body.children, (p.role i c).Fits c) :
      Agree (Tree.sitesIn r.source r.path place.namespace parent next address 0 body.children)
        (⟨⟨role, place, locals, above, body⟩, address⟩ ::
          r.visitsAll p.role p.place (body :: above) address 0 p.locals body.children) := by
    rw [hplace]
    exact (h _ _ _ _ _ _ _ hfits).cons fun s hs => Tree.belowChild_of_mem_sitesIn hs
  rcases hrole with rfl | rfl | rfl | rfl | rfl
  · simp [Agree]
  all_goals
    rw [visits_eq_cons (by simp) (by simp)]
    refine hbelow rfl fun i c hc => ?_
  · exact Role.fits_eachInSequence i c
  · exact Role.fits_eachCode i (hscope c hc)
  · exact Role.fits_parametersPlan _ _ i (hscope c hc)
  · exact Role.fits_ofBases i (hscope c hc)

/-- The walk agrees with the declarations of a node in its body, if it reads that as one. -/
theorem agree_body {ns : String} (hns : place.namespace = ns)
    (hbelow : ∀ body ∈ t.children, r.AgreesBelow body)
    (hscope : ∀ body ∈ t.children, ∀ c ∈ body.children, c.isFileScope = false)
    (hf : ∀ i, ∀ c ∈ t.children, f i c ≠ .fileScope)
    (hrole : ∀ i body, t.fieldIndex? "body" = some i → t.children[i]? = some body →
      f i body = .skipped ∨ (f i body).ListsParts) :
    Agree (Tree.sitesOf r.source r.path ns parent next address (t.fieldIndex? "body") 0 t.children)
      (r.visitsAll f place above address 0 locals t.children) := by
  subst hns
  intro s hs v hv heq
  obtain ⟨i, body, hfield, hi, hs⟩ := Tree.mem_sitesOf.mp hs
  obtain ⟨k, c, locals', hk, hv⟩ := exists_child_of_mem_visitsAll hf hv
  rw [Nat.zero_add] at hs hv
  -- both stand below the same child
  obtain ⟨j, -, hsuffix⟩ := Tree.belowChild_of_mem_sitesIn hs
  have hsuffix : (i :: address) <:+ v.address := heq ▸ (List.suffix_cons j _).trans hsuffix
  obtain rfl := head_eq_of_suffix hsuffix (suffix_of_mem_visits hv)
  obtain rfl : body = c := by simpa [hi] using hk
  have hmem := List.mem_of_getElem? hi
  exact (hbelow body hmem).of_listsParts (hscope body hmem) (hrole i body hfield hi) s hs v hv heq

@[simp] theorem visitsAll_of_skipped {cs : List Tree} {i : Nat} (hf : ∀ i c, f i c = .skipped) :
    r.visitsAll f place above address i locals cs = [] := by
  induction cs generalizing i place locals with
  | nil => rw [visitsAll]
  | cons c cs ih => rw [visitsAll, hf, visits_skipped, ih, List.nil_append]

/-- A type or namespace in a base list is not looked into. -/
theorem role_plan_base (h : t.isNamespace = true ∨ t.typeKind?.isSome = true) (i : Nat)
    (c : Tree) : (r.plan .base place locals above t).role i c = .skipped := by
  obtain ⟨-, -, -, hgeneric, hqualified, halias⟩ := Role.kind_of_declaring h
  have hskipped : Role.ofArguments t = fun _ _ => .skipped := by
    unfold Role.ofArguments
    split
    all_goals first | rfl | contradiction
  exact congrFun (congrFun hskipped i) c

section Step

variable (h : t.BlockScoped r.source) (hbelow : ∀ c ∈ t.children, r.AgreesBelow c)
include h hbelow

/-- The walk agrees with the declarations in the body of a namespace. -/
theorem agree_namespaceBody (hspace : t.isNamespace = true)
    (hrole : role = .code ∨ role = .base) :
    let p := r.plan role place locals above t
    Agree (Tree.sitesOf r.source r.path (qualify place.namespace ((t.declaredName? r.source).getD
        "")) parent next address (t.fieldIndex? "body") 0 t.children)
      (r.visitsAll p.role p.place (t :: above) address 0 p.locals t.children) := by
  have hself := Tree.mem_preorder_self t
  have hkind : t.kind = "namespace_declaration" := by
    simpa [Tree.isNamespace, h.isFileScope_eq t hself] using hspace
  rcases hrole with rfl | rfl
  · have hplan : r.plan .code place locals above t =
        { place := r.enter place t, locals, role := Role.ofNamespace } := by
      simp [plan, codePlan, hkind]
    rw [hplan]
    refine agree_body (namespace_enter hspace (h.hasName t hself hspace)) hbelow
      (fun c hc => (h.child hc).children) (fun i c _ => ?_) ?_
    · grind [Role.ofNamespace]
    · intro i body hfield hi
      have hbody : t.field? "body" = some body := by rw [Tree.field?, hfield, Option.bind_some, hi]
      exact Role.listsParts_ofNamespace (h.body_kind t hself hkind body hbody) i
  · dsimp only
    rw [visitsAll_of_skipped (role_plan_base (.inl hspace))]
    simp [Agree]

/-- The walk agrees with the declarations in the body of a type. -/
theorem agree_typeBody (hspace : t.isNamespace = false) (htype : t.typeKind?.isSome = true)
    (hrole : role = .code ∨ role = .base) :
    let p := r.plan role place locals above t
    Agree (Tree.sitesOf r.source r.path place.namespace parent next address
        (t.fieldIndex? "body") 0 t.children)
      (r.visitsAll p.role p.place (t :: above) address 0 p.locals t.children) := by
  rcases hrole with rfl | rfl
  · have hplan : r.plan .code place locals above t = r.typeDeclarationPlan place locals t := by
      rw [Tree.isNamespace, Bool.or_eq_false_iff] at hspace
      simp [plan, codePlan, hspace, htype]
    rw [hplan]
    unfold typeDeclarationPlan
    split
    · dsimp only
      rw [visitsAll_of_skipped fun _ _ => rfl]
      simp [Agree]
    · refine agree_body rfl hbelow (fun c hc => (h.child hc).children) (fun i c _ => ?_)
        fun i body _ _ => Role.listsParts_ofTypeDeclaration t body i
      rcases Role.listsParts_ofTypeDeclaration t c i with hrole | hrole
      · simp [hrole]
      · rcases hrole with hrole | hrole | hrole | hrole <;> simp [hrole]
  · dsimp only
    rw [visitsAll_of_skipped (role_plan_base (.inr htype))]
    simp [Agree]

/-- The walk agrees with the declarations of a node if it does below its children. -/
theorem agreesAt_of_children : r.AgreesAt t := by
  intro role place above locals address parent next _ hrole
  by_cases hdeclaring : t.isNamespace = true ∨ t.typeKind?.isSome = true
  · have hread : role ≠ .skipped ∧ ∀ declared isLocal, role ≠ .declarator declared isLocal := by
      rcases hrole with rfl | rfl <;> simp
    rw [visits_eq_cons hread.1 hread.2]
    intro s hs v hv heq
    rcases Tree.mem_sitesAt hs with ⟨hspace, hs⟩ | ⟨-, haddress, -, hns, -⟩ | ⟨hspace, htype, hs⟩
    · exact (agree_namespaceBody h hbelow hspace hrole).cons
        (fun s hs => Tree.belowChild_of_mem_sitesOf hs) s hs v hv heq
    · rcases List.mem_cons.mp hv with rfl | hv
      · exact fun _ => hns.symm
      · obtain ⟨j, -, hsuffix⟩ := belowChild_of_mem_visitsAll hv
        exact absurd (heq.symm.trans haddress) (ne_of_cons_suffix hsuffix)
    · exact (agree_typeBody h hbelow hspace htype hrole).cons
        (fun s hs => Tree.belowChild_of_mem_sitesOf hs) s hs v hv heq
  · rw [not_or] at hdeclaring
    exact agree_of_not_declaring (by simpa using hdeclaring.1) (by simpa using hdeclaring.2)

end Step

/-- The walk agrees with the declarations of a tree without file-scoped namespaces, and with those
below it. -/
theorem agrees_of_blockScoped (h : t.BlockScoped r.source) : r.AgreesAt t ∧ r.AgreesBelow t := by
  induction t using Tree.childInduction with
  | inherit t ih =>
    refine ⟨agreesAt_of_children h fun c hc => (ih c hc (h.child hc)).2, ?_⟩
    intro f place above locals address parent next hfits
    refine agree_siblings (fun c hc => ⟨(ih c hc (h.child hc)).1, fun hscope => ?_⟩) hfits
      place above locals address parent next 0
    simp [h.children c hc] at hscope

end Reader

/-! ## The graph of some files -/

/-- The namespaces of `root` have names and proper bodies, and those that apply to the rest of the
file are children of the root. -/
structure Tree.Scoped (source : String) (root : Tree) : Prop where
  isFileScope_eq : ∀ c ∈ root.children, ∀ c' ∈ c.children, ∀ n ∈ c'.preorder,
    n.isFileScope = false
  hasName : ∀ n ∈ root.preorder, n.isNamespace = true → n.HasName source
  body_kind : ∀ n ∈ root.preorder, n.kind = "namespace_declaration" →
    ∀ body ∈ n.field? "body", body.kind = "declaration_list"

theorem Tree.Scoped.blockScoped {source : String} {root t : Tree} (h : root.Scoped source)
    (ht : t ∈ root.preorder) (hscope : ∀ n ∈ t.preorder, n.isFileScope = false) :
    t.BlockScoped source :=
  ⟨hscope, fun n hn => h.hasName n (mem_preorder_trans ht hn),
    fun n hn => h.body_kind n (mem_preorder_trans ht hn)⟩

/-- The walk through a file agrees with its declarations. -/
theorem Reader.agree_trace {r : Reader} {root : Tree} (h : root.Scoped r.source) :
    Agree (root.sites r.source r.path) (r.trace root) := by
  have hchildren (c : Tree) (hc : c ∈ root.children) : r.AgreesOn c := by
    have hmem := Tree.mem_preorder_of_mem_children hc
    have hinner (c' : Tree) (hc' : c' ∈ c.children) :=
      agrees_of_blockScoped (h.blockScoped
        (Tree.mem_preorder_trans hmem (Tree.mem_preorder_of_mem_children hc'))
        (h.isFileScope_eq c hc c' hc'))
    have hkids (c' : Tree) (hc' : c' ∈ c.children) : c'.isFileScope = false :=
      h.isFileScope_eq c hc c' hc' c' (Tree.mem_preorder_self c')
    refine ⟨fun role place above locals address parent next hscope => ?_, fun hscope => ?_⟩
    · have hblock : c.BlockScoped r.source := by
        refine h.blockScoped hmem fun n hn => ?_
        rcases Tree.mem_preorder_iff.mp hn with rfl | ⟨c', hc', hn⟩
        · exact hscope
        · exact h.isFileScope_eq c hc c' hc' n hn
      exact (agrees_of_blockScoped hblock).1 role place above locals address parent next hscope
    · refine ⟨fun f place above locals address parent next hfits => ?_,
        h.hasName c hmem (by simp [Tree.isNamespace, hscope]), hkids⟩
      exact agree_siblings
        (fun c' hc' => ⟨(hinner c' hc').1, fun hscope => by simp [hkids c' hc'] at hscope⟩)
        hfits place above locals address parent next 0
  rw [trace, visits_eq_cons (by simp) (by simp)]
  exact (agree_siblings hchildren (fun i c _ => Role.fits_eachInSequence i c) {} _ [] [] none 0
    0).cons fun s hs => Tree.belowChild_of_mem_sitesIn hs

namespace SymbolGraph

variable {files : List SourceFile} {options : IndexSettings} {f : SourceFile} {i : Nat} {n : Tree}
  {address : List Nat}

/-- The entry that is found by the place of a declaring node is that of a declaration which the node
makes. -/
theorem exists_site_of_at? (hpaths : (files.map (·.path)).Nodup) (hf : f ∈ files)
    (hstarts : f.tree.StartsApart) (hn : f.tree.at? address = some n)
    (hdeclares : n.declares = true) (hat : (tableOf files options).at? f.path n.start = some i) :
    ∃ s ∈ f.tree.sites f.text f.path, s.address = address ∧
      (tableOf files options).Holds i (·.namespace = s.declaration.namespace) := by
  obtain ⟨e, he, hpath, hstart⟩ := Table.at?_eq_some hat
  obtain ⟨pre, f', post, k, d, hfiles, -, hd, heq⟩ := exists_declaration_of_entry he
  have hmem := List.mem_of_getElem? hd
  rw [SourceFile.declarations, ← Tree.map_declaration_sites] at hmem
  obtain ⟨s, hs, rfl⟩ := List.mem_map.mp hmem
  obtain ⟨hsite, hmakes⟩ := Tree.forall_mem_sites f'.tree f'.text f'.path s hs
  have hextent : s.node.extent f'.path = e.toDeclaration.extent :=
    hmakes.extent_eq.symm.trans (congrArg Declaration.extent heq :)
  obtain rfl : f = f' := by
    refine eq_of_path_eq hpaths hf (by simp [hfiles]) (hpath.symm.trans ?_)
    exact (congrArg Extent.path hextent).symm
  have haddress : s.address = address := by
    refine hstarts.address_eq hsite hn hmakes.declares hdeclares ?_
    exact (congrArg Extent.start hextent).trans hstart
  exact ⟨s, hs, haddress, e, he, (congrArg Declaration.namespace heq).symm⟩

/-- The two rounds agree on namespaces: a type that the walk through a file `f` reads stands in the
namespace that was recorded with its declaration, and so in that of its entry if paths tell the
files apart and starts the declarations of a file. The walk and the declarations are given by all
visits and by all sites of the file. -/
theorem namespaces_agree (files : List SourceFile) (options : IndexSettings)
    (hscoped : ∀ f ∈ files, f.tree.Scoped f.text) :
    let table := tableOf files options
    ∀ f ∈ files,
      let r := f.reader table options
      let sites := f.tree.sites f.text f.path
      r.contributions f.tree = (r.trace f.tree).flatMap (fun v => r.ownOf v.toVisit) ∧
      sites.map (·.declaration) = f.declarations ∧
      (∀ s ∈ sites, ∀ v ∈ r.trace f.tree, s.address = v.address → s.node = v.node ∧
        (v.node.typeKind?.isSome = true → v.place.namespace = s.declaration.namespace)) ∧
      ((files.map (·.path)).Nodup → f.tree.StartsApart → ∀ v ∈ r.trace f.tree,
        v.node.typeKind?.isSome = true → ∀ i, table.at? f.path v.node.start = some i →
          table.Holds i (·.namespace = v.place.namespace)) := by
  intro table f hf r sites
  have hagree : ∀ s ∈ sites, ∀ v ∈ r.trace f.tree, s.address = v.address → s.node = v.node ∧
      (v.node.typeKind?.isSome = true → v.place.namespace = s.declaration.namespace) := by
    intro s hs v hv heq
    obtain ⟨hsite, hmakes⟩ := Tree.forall_mem_sites f.tree f.text f.path s hs
    have hnode : s.node = v.node := by
      rw [heq, Reader.at?_of_mem_trace hv] at hsite
      exact (Option.some.inj hsite).symm
    refine ⟨hnode, fun htype => ?_⟩
    refine Reader.agree_trace (r := r) (hscoped f hf) s hs v hv heq ?_
    rw [← hnode] at htype
    exact (congrArg Extent.isType hmakes.extent_eq).trans htype
  refine ⟨Reader.contributions_eq_flatMap_trace r f.tree, Tree.map_declaration_sites _ _ _, hagree,
    fun hpaths hstarts v hv htype i hat => ?_⟩
  obtain ⟨s, hs, haddress, hentry⟩ := exists_site_of_at? hpaths hf hstarts
    (Reader.at?_of_mem_trace hv) (by simp [Tree.declares, htype]) hat
  rw [(hagree s hs v hv haddress).2 htype]
  exact hentry

/-- A namespace for the whole file, a nested class, and a class in nested namespaces. -/
def namespacedFile : SourceFile where
  path := "a.cs"
  text := "namespace N; class A \x7b class B \x7b \x7d \x7d " ++
    "namespace P \x7b namespace Q \x7b class C \x7b \x7d \x7d \x7d"
  tree := .node { kind := "compilation_unit", length := 80 }
    [.node { kind := "file_scoped_namespace_declaration", length := 12 }
        [.ofToken "namespace" 0, .ofLeaf "identifier" "name" 10 1, .ofToken ";" 11],
      .ofClass 13 23 [.ofClass 23 11 []],
      .ofBlock 37 43 [.ofBlock 51 27 [.ofClass 65 11 []]]]

theorem namespaces_agree_namespacedFile :
    (tableOf [namespacedFile] {}).entries.toList.map (fun e => (e.name, e.namespace)) =
      [("A", "N"), ("B", "N"), ("C", "N.P.Q")] ∧
    ∃ v ∈ (namespacedFile.reader (tableOf [namespacedFile] {}) {}).trace namespacedFile.tree,
      v.node.start = 65 ∧ v.node.typeKind?.isSome = true ∧
      (tableOf [namespacedFile] {}).Holds 2 (·.namespace = v.place.namespace) := by
  refine ⟨by decide +kernel, ?_⟩
  have hvisit : ∃ v ∈ (namespacedFile.reader (tableOf [namespacedFile] {}) {}).trace
      namespacedFile.tree, v.node.start = 65 ∧ v.node.typeKind?.isSome = true := by
    decide +kernel
  obtain ⟨v, hv, hstart, htype⟩ := hvisit
  have hscoped : namespacedFile.tree.Scoped namespacedFile.text :=
    ⟨by decide +kernel, by decide +kernel, by decide +kernel⟩
  obtain ⟨-, -, -, hentries⟩ :=
    namespaces_agree [namespacedFile] {} (by simpa using hscoped) namespacedFile (by simp)
  refine ⟨v, hv, hstart, htype, hentries (by decide) (by decide +kernel) v hv htype 2 ?_⟩
  rw [hstart]
  decide +kernel

end SymbolGraph

end CodeAtlas
