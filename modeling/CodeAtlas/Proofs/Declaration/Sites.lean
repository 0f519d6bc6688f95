import CodeAtlas.Proofs.Declaration.Nodes

/-!
# Declarations and the addresses of their nodes

The declarations of a file do not say which nodes they come from, and nodes that look alike need not
be the same. So the declarations are listed once more, each with its node and with the *address* of
that node: its position among its siblings, the position of its parent among the parent's siblings,
and so on up to the root.

## Main definitions

* `Tree.at?`: the node at an address.
* `DeclarationSite`, `Tree.sites`: the declarations of a file and where they come from.
* `Tree.Makes`: a node makes a declaration.

## Main statements

* `Tree.map_declaration_sites`: the sites of a file are those of its declarations.
* `Tree.forall_mem_sites`: the node of a site stands at its address and makes its declaration.
* `Tree.StartsApart.address_eq`: a declaring node is known by its start.
-/
namespace CodeAtlas

/-- A declaration, the node that makes it and the address of the node. -/
structure DeclarationSite where
  address : List Nat
  node : Tree
  declaration : Declaration

namespace Tree

variable {source path ns : String} {t c n m root body : Tree} {cs : List Tree}
  {parent : Option Nat} {next i k : Nat} {address a b : List Nat} {s : DeclarationSite}

/-- The node of `root` at an address. -/
def at? (root : Tree) : List Nat → Option Tree
  | [] => some root
  | i :: address => (root.at? address).bind (·.children[i]?)

theorem at?_cons_of_child (h : root.at? address = some t) (hc : t.children[i]? = some c) :
    root.at? (i :: address) = some c := by
  rw [at?, h]
  exact hc

mutual

/-- The sites of the declarations that the node at `address` contributes. -/
def sitesAt (source path ns : String) (parent : Option Nat) (next : Nat) (address : List Nat) :
    Tree → List DeclarationSite
  | node d cs =>
    let t := node d cs
    if t.isNamespace then
      let inner := qualify ns ((t.declaredName? source).getD "")
      sitesOf source path inner parent next address (t.fieldIndex? "body") 0 cs
    else
      match t.typeKind?, t.memberKind?, parent with
      | some kind, _, _ =>
        match t.declaredName? source with
        | none => []
        | some name =>
          ⟨address, t, .ofType t source path ns name kind parent⟩ ::
            sitesOf source path ns (some next) (next + 1) address (t.fieldIndex? "body") 0 cs
      | none, some kind, some owner =>
        if t.isLocalFunction then []
        else (Declaration.ofMember? t source path ns kind owner).toList.map (⟨address, t, ·⟩)
      | _, _, _ => []

/-- The same for what stands inside one of the children, of which the first stands at position
`k`. -/
def sitesOf (source path ns : String) (parent : Option Nat) (next : Nat) (address : List Nat) :
    Option Nat → Nat → List Tree → List DeclarationSite
  | none, _, _ => []
  | some _, _, [] => []
  | some 0, k, node _ cs :: _ => sitesIn source path ns parent next (k :: address) 0 cs
  | some (i + 1), k, _ :: cs => sitesOf source path ns parent next address (some i) (k + 1) cs

/-- The same for some children of the node at an address, the first of which stands at position
`k`. -/
def sitesIn (source path ns : String) (parent : Option Nat) (next : Nat) (address : List Nat) :
    Nat → List Tree → List DeclarationSite
  | _, [] => []
  | k, node d kids :: cs =>
    let c := node d kids
    if !c.named then sitesIn source path ns parent next address (k + 1) cs
    else if c.isFileScope then
      let inner := ((c.declaredName? source).map (qualify ns)).getD ns
      let held := sitesIn source path inner parent next (k :: address) 0 kids
      held ++ sitesIn source path inner parent (next + held.length) address (k + 1) cs
    else
      let own := sitesAt source path ns parent next (k :: address) c
      own ++ sitesIn source path ns parent (next + own.length) address (k + 1) cs

end

/-- The sites of the declarations of the file at `path`. -/
def sites (root : Tree) (source path : String) : List DeclarationSite :=
  sitesIn source path "" none 0 [] 0 root.children

/-! ## The declarations of the sites -/

mutual

@[simp]
theorem map_declaration_sitesAt : ∀ (t : Tree) (ns : String) (parent : Option Nat) (next : Nat)
    (address : List Nat), (sitesAt source path ns parent next address t).map (·.declaration) =
      declarationsAt source path ns parent next t
  | node d cs, ns, parent, next, address => by
    unfold sitesAt declarationsAt
    dsimp only
    split
    · exact map_declaration_sitesOf cs _ _ _ _ _ _
    · cases (node d cs).typeKind? with
      | some kind =>
        cases (node d cs).declaredName? source with
        | none => rfl
        | some name => exact congrArg (_ :: ·) (map_declaration_sitesOf cs _ _ _ _ _ _)
      | none =>
        cases (node d cs).memberKind? with
        | none => rfl
        | some kind =>
          cases parent with
          | none => rfl
          | some owner =>
            dsimp only
            split
            · rfl
            · rw [List.map_map]
              exact List.map_id _

@[simp] theorem map_declaration_sitesOf : ∀ (cs : List Tree) (ns : String) (parent : Option Nat)
    (next : Nat) (address : List Nat) (i : Option Nat) (k : Nat),
    (sitesOf source path ns parent next address i k cs).map (·.declaration) =
      declarationsOf source path ns parent next i cs
  | cs, _, _, _, _, none, _ => by
    rw [sitesOf, declarationsOf]
    rfl
  | [], _, _, _, _, some _, _ => by
    rw [sitesOf, declarationsOf]
    rfl
  | node _ kids :: _, _, _, _, _, some 0, _ => by
    rw [sitesOf, declarationsOf, map_declaration_sitesIn kids]
  | _ :: cs, _, _, _, _, some (i + 1), _ => by
    rw [sitesOf, declarationsOf, map_declaration_sitesOf cs]

@[simp] theorem map_declaration_sitesIn : ∀ (cs : List Tree) (ns : String) (parent : Option Nat)
    (next : Nat) (address : List Nat) (k : Nat),
    (sitesIn source path ns parent next address k cs).map (·.declaration) =
      declarationsIn source path ns parent next cs
  | [], _, _, _, _, _ => by
    rw [sitesIn, declarationsIn]
    rfl
  | node d kids :: cs, ns, parent, next, address, k => by
    unfold sitesIn declarationsIn
    dsimp only
    split
    · exact map_declaration_sitesIn cs _ _ _ _ _
    · split
      · rw [List.map_append, map_declaration_sitesIn kids, map_declaration_sitesIn cs,
          ← List.length_map, map_declaration_sitesIn kids]
      · rw [List.map_append, map_declaration_sitesAt (node d kids), map_declaration_sitesIn cs,
          ← List.length_map, map_declaration_sitesAt (node d kids)]

end

/-- The sites of a file are those of its declarations. -/
@[simp] theorem map_declaration_sites (root : Tree) (source path : String) :
    (root.sites source path).map (·.declaration) = root.declarations source path :=
  map_declaration_sitesIn root.children "" none 0 [] 0

/-! ## The nodes of the sites -/

/-- The node `t` of the file at `path` makes the declaration. -/
inductive Makes (source path : String) (t : Tree) : Declaration → Prop
  | type {ns name : String} {kind : SymbolKind} {parent : Option Nat}
      (typeKind?_eq : t.typeKind? = some kind) :
      Makes source path t (.ofType t source path ns name kind parent)
  | member {ns : String} {kind : MemberKind} {owner : Nat} {d : Declaration}
      (typeKind?_eq : t.typeKind? = none) (memberKind?_eq : t.memberKind? = some kind)
      (isLocalFunction_eq : t.isLocalFunction = false)
      (ofMember?_eq : Declaration.ofMember? t source path ns kind owner = some d) :
      Makes source path t d

namespace Makes

variable {d : Declaration}

@[grind →] theorem declares (h : Makes source path t d) : t.declares = true := by
  cases h with
  | type htype => simp [Tree.declares, htype]
  | member _ hkind hlocal _ => simp [Tree.declares, hkind, hlocal]

@[grind →] theorem extent_eq (h : Makes source path t d) : d.extent = t.extent path := by
  cases h with
  | type htype => exact extent_ofType htype
  | member htype _ _ hd => exact extent_of_ofMember? htype hd

@[grind →] theorem isDeclaration (h : Makes source path t d) : d.kind.isDeclaration = true := by
  cases h with
  | type htype => exact SymbolKind.isDeclaration_of_isType (isType_of_typeKind? htype)
  | member _ _ _ hd =>
    obtain ⟨name, -, hd⟩ := Option.bind_eq_some_iff.mp hd
    obtain ⟨signature, -, hd⟩ := Option.bind_eq_some_iff.mp hd
    obtain rfl := Option.some.inj hd
    exact MemberKind.isDeclaration_symbolKind _

/-- A type is named by its name, and outside of all types also by its namespace. -/
theorem segment_eq (h : Makes source path t d) (htype : d.kind.isType = true) :
    d.segment = if d.parent.isSome then d.name else qualify d.namespace d.name := by
  cases h with
  | type => rfl
  | member _ _ _ hd =>
    have hmember : d.kind.isType = false :=
      congrArg PlacedRange.isHolder (range_of_ofMember? hd).2
    simp [hmember] at htype

end Makes

theorem mem_sitesOf {pos : Option Nat} : s ∈ sitesOf source path ns parent next address pos k cs ↔
    ∃ i body, pos = some i ∧ cs[i]? = some body ∧
      s ∈ sitesIn source path ns parent next ((k + i) :: address) 0 body.children := by
  cases pos with
  | none => simp [sitesOf]
  | some i =>
    induction cs generalizing i k with
    | nil => simp [sitesOf]
    | cons c cs ih =>
      cases i with
      | zero =>
        cases c
        simp [sitesOf]
      | succ i =>
        rw [sitesOf, ih]
        simp [Nat.add_assoc, Nat.add_comm 1]

/-- What stands inside a node that is no namespace: nothing, or the node is a type and makes the
declaration or has it in its body, or it is a member. -/
theorem mem_sitesAt (h : s ∈ sitesAt source path ns parent next address t) :
    (t.isNamespace = true ∧ s ∈ sitesOf source path (qualify ns ((t.declaredName? source).getD ""))
      parent next address (t.fieldIndex? "body") 0 t.children) ∨
    (t.isNamespace = false ∧ s.address = address ∧ s.node = t ∧ s.declaration.namespace = ns ∧
      Makes source path t s.declaration) ∨
    (t.isNamespace = false ∧ t.typeKind?.isSome = true ∧ s ∈ sitesOf source path ns (some next)
      (next + 1) address (t.fieldIndex? "body") 0 t.children) := by
  obtain ⟨d, cs⟩ := t
  unfold sitesAt at h
  dsimp only at h
  split at h
  · next hspace => exact .inl ⟨hspace, h⟩
  · next hspace =>
    rw [Bool.not_eq_true] at hspace
    split at h
    · next kind htype =>
      split at h
      · simp at h
      · next name _ =>
        rcases List.mem_cons.mp h with rfl | h
        · exact .inr (.inl ⟨hspace, rfl, rfl, rfl, .type htype⟩)
        · exact .inr (.inr ⟨hspace, by simp [htype], h⟩)
    · next kind owner htype hkind =>
      split at h
      · simp at h
      · next hlocal =>
        obtain ⟨d', hd', rfl⟩ := List.mem_map.mp h
        have hd := Option.mem_toList.mp hd'
        refine .inr (.inl ⟨hspace, rfl, rfl, ?_, .member htype hkind (by simpa using hlocal) hd⟩)
        obtain ⟨_, -, hd⟩ := Option.bind_eq_some_iff.mp hd
        obtain ⟨_, -, hd⟩ := Option.bind_eq_some_iff.mp hd
        exact (congrArg Declaration.namespace (Option.some.inj hd)).symm
    · simp at h

theorem mem_sitesIn_cons (h : s ∈ sitesIn source path ns parent next address k (c :: cs)) :
    (∃ ns next, s ∈ sitesIn source path ns parent next (k :: address) 0 c.children) ∨
    s ∈ sitesAt source path ns parent next (k :: address) c ∨
    ∃ ns next, s ∈ sitesIn source path ns parent next address (k + 1) cs := by
  obtain ⟨d, kids⟩ := c
  unfold sitesIn at h
  dsimp only at h
  split at h
  · exact .inr (.inr ⟨_, _, h⟩)
  · split at h
    · exact (List.mem_append.mp h).imp (⟨_, _, ·⟩) fun h => .inr ⟨_, _, h⟩
    · exact (List.mem_append.mp h).elim (.inr ∘ .inl) fun h => .inr (.inr ⟨_, _, h⟩)

section Invariant

/-! What passes from a node and its address to each child holds of all sites below it. -/

variable {P : List Nat → Tree → Prop}

theorem forall_mem_sitesIn (h : ∀ c ∈ cs,
    (∀ ns parent next a, P a c → ∀ s ∈ sitesAt source path ns parent next a c,
      P s.address s.node ∧ Makes source path s.node s.declaration) ∧
    ∀ ns parent next a, P a c → ∀ s ∈ sitesIn source path ns parent next a 0 c.children,
      P s.address s.node ∧ Makes source path s.node s.declaration)
    (hcs : ∀ i c, cs[i]? = some c → P ((k + i) :: address) c) :
    ∀ ns parent next, ∀ s ∈ sitesIn source path ns parent next address k cs,
      P s.address s.node ∧ Makes source path s.node s.declaration := by
  intro ns parent next s hs
  induction cs generalizing k ns next with
  | nil => simp [sitesIn] at hs
  | cons c cs ih =>
    obtain ⟨⟨hat, hin⟩, h⟩ := List.forall_mem_cons.mp h
    have hc : P (k :: address) c := hcs 0 c rfl
    have hcs (i : Nat) (c : Tree) (hi : cs[i]? = some c) : P ((k + 1 + i) :: address) c := by
      rw [Nat.add_right_comm]
      exact hcs (i + 1) c hi
    rcases mem_sitesIn_cons hs with ⟨_, _, hs⟩ | hs | ⟨_, _, hs⟩
    · exact hin _ _ _ _ hc s hs
    · exact hat _ _ _ _ hc s hs
    · exact ih h hcs _ _ hs

theorem forall_mem_sitesAt (source path : String)
    (hchild : ∀ a t i c, P a t → t.children[i]? = some c → P (i :: a) c) (t : Tree) :
    (∀ ns parent next a, P a t → ∀ s ∈ sitesAt source path ns parent next a t,
      P s.address s.node ∧ Makes source path s.node s.declaration) ∧
    ∀ ns parent next a, P a t → ∀ s ∈ sitesIn source path ns parent next a 0 t.children,
      P s.address s.node ∧ Makes source path s.node s.declaration := by
  induction t using childInduction with
  | inherit t ih =>
    have hof (ns : String) (parent : Option Nat) (next : Nat) (a : List Nat) (ha : P a t)
        (s : DeclarationSite)
        (hs : s ∈ sitesOf source path ns parent next a (t.fieldIndex? "body") 0 t.children) :
        P s.address s.node ∧ Makes source path s.node s.declaration := by
      obtain ⟨i, body, -, hi, hs⟩ := mem_sitesOf.mp hs
      rw [Nat.zero_add] at hs
      exact (ih body (List.mem_of_getElem? hi)).2 _ _ _ _ (hchild a t i body ha hi) s hs
    refine ⟨fun ns parent next a ha s hs => ?_, fun ns parent next a ha => ?_⟩
    · rcases mem_sitesAt hs with ⟨-, hs⟩ | ⟨-, haddress, hnode, -, hmakes⟩ | ⟨-, -, hs⟩
      · exact hof _ _ _ _ ha s hs
      · rw [haddress, hnode]
        exact ⟨ha, hmakes⟩
      · exact hof _ _ _ _ ha s hs
    · refine forall_mem_sitesIn ih (fun i c hi => ?_) ns parent next
      rw [Nat.zero_add]
      exact hchild a t i c ha hi

end Invariant

/-- The node of a site stands at its address and makes its declaration. -/
theorem forall_mem_sites (root : Tree) (source path : String) :
    ∀ s ∈ root.sites source path,
      root.at? s.address = some s.node ∧ Makes source path s.node s.declaration :=
  (forall_mem_sitesAt (P := fun a t => root.at? a = some t) source path
    (fun _ _ _ _ => at?_cons_of_child) root).2 "" none 0 [] rfl

@[grind →] theorem isDeclaration_of_mem_declarations {d : Declaration}
    (h : d ∈ root.declarations source path) : d.kind.isDeclaration = true := by
  rw [← map_declaration_sites] at h
  obtain ⟨s, hs, rfl⟩ := List.mem_map.mp h
  exact (forall_mem_sites root source path s hs).2.isDeclaration

/-! ## Addresses and starts -/

/-- The first step from the root is the last part of an address. -/
@[simp] theorem at?_concat (root : Tree) (a : List Nat) (i : Nat) :
    root.at? (a ++ [i]) = (root.children[i]?).bind (·.at? a) := by
  induction a with
  | nil => simp [at?]
  | cons j a ih => simp [at?, ih, Option.bind_assoc]

@[grind →] theorem mem_preorder_of_at? (h : root.at? a = some n) : n ∈ root.preorder := by
  induction a generalizing n with
  | nil =>
    obtain rfl := Option.some.inj h
    exact mem_preorder_self root
  | cons i a ih =>
    obtain ⟨t, ht, hi⟩ := Option.bind_eq_some_iff.mp h
    exact mem_preorder_trans (ih ht) (mem_preorder_of_mem_children (List.mem_of_getElem? hi))

theorem preorderAll_eq_flatMap (cs : List Tree) : preorderAll cs = cs.flatMap preorder := by
  induction cs with
  | nil => rfl
  | cons c cs ih => rw [preorderAll, ih, List.flatMap_cons]

namespace StartsApart

theorem child (h : t.StartsApart) (hc : c ∈ t.children) : c.StartsApart :=
  (((((sublist_preorderAll hc).trans (sublist_preorder t)).filter _).map _).nodup h)

theorem start_ne (h : t.StartsApart) (ht : t.declares = true) (hc : c ∈ t.children)
    (hn : n ∈ c.preorder) (hn' : n.declares = true) : t.start ≠ n.start := by
  intro heq
  rw [StartsApart, preorder_eq, List.filter_cons_of_pos ht, List.map_cons, List.nodup_cons] at h
  refine h.1 (List.mem_map.mpr ⟨n, List.mem_filter.mpr ⟨?_, hn'⟩, heq.symm⟩)
  exact mem_preorderAll.mpr ⟨c, hc, hn⟩

/-- Nodes below different children start apart. -/
theorem start_ne_of_lt {c' : Tree} {j : Nat} (h : t.StartsApart) (hc : t.children[i]? = some c)
    (hc' : t.children[j]? = some c') (hij : i < j) (hn : n ∈ c.preorder) (hm : m ∈ c'.preorder)
    (hn' : n.declares = true) (hm' : m.declares = true) : n.start ≠ m.start := by
  have hall : (((preorderAll t.children).filter declares).map start).Nodup :=
    (((sublist_preorder t).filter _).map _).nodup h
  rw [preorderAll_eq_flatMap, List.filter_flatMap, List.map_flatMap, List.nodup_flatMap] at hall
  obtain ⟨hi, hci⟩ := List.getElem?_eq_some_iff.mp hc
  obtain ⟨hj, hcj⟩ := List.getElem?_eq_some_iff.mp hc'
  have hdisjoint := List.pairwise_iff_getElem.mp hall.2 i j hi hj hij
  rw [Function.onFun_apply, hci, hcj] at hdisjoint
  intro heq
  refine hdisjoint (List.mem_map.mpr ⟨n, List.mem_filter.mpr ⟨hn, hn'⟩, rfl⟩) ?_
  exact List.mem_map.mpr ⟨m, List.mem_filter.mpr ⟨hm, hm'⟩, heq.symm⟩

/-- A declaring node is known by its start. -/
theorem address_eq (h : root.StartsApart) (ha : root.at? a = some n) (hb : root.at? b = some m)
    (hn : n.declares = true) (hm : m.declares = true) (heq : n.start = m.start) : a = b := by
  induction root using childInduction generalizing a b with
  | inherit root ih =>
    rcases List.eq_nil_or_concat' a with rfl | ⟨a, i, rfl⟩
    · rcases List.eq_nil_or_concat' b with rfl | ⟨b, j, rfl⟩
      · rfl
      · obtain rfl := Option.some.inj ha
        rw [at?_concat] at hb
        obtain ⟨c, hc, hb⟩ := Option.bind_eq_some_iff.mp hb
        exact absurd heq (h.start_ne hn (List.mem_of_getElem? hc) (mem_preorder_of_at? hb) hm)
    · rw [at?_concat] at ha
      obtain ⟨c, hc, ha⟩ := Option.bind_eq_some_iff.mp ha
      rcases List.eq_nil_or_concat' b with rfl | ⟨b, j, rfl⟩
      · obtain rfl := Option.some.inj hb
        exact absurd heq.symm
          (h.start_ne hm (List.mem_of_getElem? hc) (mem_preorder_of_at? ha) hn)
      · rw [at?_concat] at hb
        obtain ⟨c', hc', hb⟩ := Option.bind_eq_some_iff.mp hb
        rcases Nat.lt_trichotomy i j with hij | rfl | hij
        · exact absurd heq (h.start_ne_of_lt hc hc' hij (mem_preorder_of_at? ha)
            (mem_preorder_of_at? hb) hn hm)
        · obtain rfl : c = c' := by simpa [hc] using hc'
          have hmem := List.mem_of_getElem? hc
          rw [ih c hmem (h.child hmem) ha hb]
        · exact absurd heq.symm (h.start_ne_of_lt hc' hc hij (mem_preorder_of_at? hb)
            (mem_preorder_of_at? ha) hm hn)

end StartsApart

end Tree

end CodeAtlas
