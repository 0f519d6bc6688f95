import CodeAtlas.Declaration.Table
import CodeAtlas.Proofs.Syntax.WellFormed
import CodeAtlas.Proofs.Text.Nesting
import Mathlib.Data.List.Nodup

/-!
# Declarations and their nodes

The declarations of a file are nodes of its tree, listed in the order of the text and nested in each
other as the nodes are. If distinct declaring nodes start at distinct offsets, the offset alone
tells the node of a declaration.

## Main definitions

* `Tree.declares`: the node declares a type or a member.
* `Tree.StartsApart`: distinct declaring nodes start at distinct offsets.
* `Declaration.range`: where a declaration stands, and inside which other one.

## Main statements

* `Tree.declaredBy_declarations`: the declarations of a file are some of its declaring nodes, in
  order.
* `Tree.nested_declarations`: the declarations of a file are nested.
-/
namespace CodeAtlas

/-- A range of a file, and whether a type is declared there. -/
structure Extent where
  path : String
  start : Nat
  length : Nat
  isType : Bool

/-- Where `d` stands, and whether it is a type. -/
def Declaration.extent (d : Declaration) : Extent :=
  ⟨d.path, d.start, d.length, d.kind.isType⟩

/-- Where `d` stands, and inside which other declaration. Only types have parts. -/
def Declaration.range (d : Declaration) : PlacedRange :=
  ⟨d.start, d.length, d.parent, d.kind.isType⟩

namespace Tree

variable {source path ns : String} {t c n m : Tree} {cs : List Tree} {parent : Option Nat}
  {next lo hi : Nat}

/-- The node `t` declares a type or a member. A local function is no member. -/
def declares (t : Tree) : Bool :=
  t.typeKind?.isSome || (t.memberKind?.isSome && !t.isLocalFunction)

/-- Where a node of the file at `path` stands, and whether it declares a type. -/
def extent (path : String) (t : Tree) : Extent :=
  ⟨path, t.start, t.length, t.typeKind?.isSome⟩

/-- Distinct declaring nodes of `t` start at distinct offsets. -/
def StartsApart (t : Tree) : Prop :=
  ((t.preorder.filter declares).map start).Nodup

instance (t : Tree) : Decidable t.StartsApart :=
  inferInstanceAs (Decidable (List.Nodup _))

/-- A declaring node is known by its start. -/
theorem StartsApart.eq_of_start_eq (h : t.StartsApart) (hn : n ∈ t.preorder)
    (hm : m ∈ t.preorder) (hn' : n.declares = true) (hm' : m.declares = true)
    (heq : n.start = m.start) : n = m :=
  List.inj_on_of_nodup_map h (List.mem_filter.mpr ⟨hn, hn'⟩) (List.mem_filter.mpr ⟨hm, hm'⟩) heq

/-! ## The parts of a declaration -/

@[grind →] theorem isType_of_typeKind? {kind : SymbolKind} (h : t.typeKind? = some kind) :
    kind.isType = true := by
  unfold typeKind? at h
  split at h
  all_goals first | cases h; rfl | cases h

theorem extent_ofType {name : String} {kind : SymbolKind} (h : t.typeKind? = some kind) :
    (Declaration.ofType t source path ns name kind parent).extent = t.extent path := by
  simp [Declaration.extent, Declaration.ofType, extent, h, isType_of_typeKind? h]

theorem range_of_ofMember? {kind : MemberKind} {owner : Nat} {d : Declaration}
    (h : Declaration.ofMember? t source path ns kind owner = some d) :
    d.path = path ∧ d.range = ⟨t.start, t.length, some owner, false⟩ := by
  obtain ⟨name, -, h⟩ := Option.bind_eq_some_iff.mp h
  obtain ⟨signature, -, h⟩ := Option.bind_eq_some_iff.mp h
  obtain rfl := Option.some.inj h
  simp [Declaration.range, MemberKind.isType_symbolKind]

theorem extent_of_ofMember? {kind : MemberKind} {owner : Nat} {d : Declaration}
    (htype : t.typeKind? = none) (h : Declaration.ofMember? t source path ns kind owner = some d) :
    d.extent = t.extent path := by
  obtain ⟨hpath, hrange⟩ := range_of_ofMember? h
  simp only [Declaration.range, PlacedRange.mk.injEq] at hrange
  simp [Declaration.extent, extent, hpath, hrange, htype]

@[grind →] theorem isPartial_of_ofMember? {kind : MemberKind} {owner : Nat} {d : Declaration}
    (h : Declaration.ofMember? t source path ns kind owner = some d) : d.isPartial = false := by
  obtain ⟨name, -, h⟩ := Option.bind_eq_some_iff.mp h
  obtain ⟨signature, -, h⟩ := Option.bind_eq_some_iff.mp h
  obtain rfl := Option.some.inj h
  rfl

theorem declarationsOf_cases (i : Option Nat) (cs : List Tree) :
    declarationsOf source path ns parent next i cs = [] ∨ ∃ body ∈ cs,
      declarationsOf source path ns parent next i cs =
        declarationsIn source path ns parent next body.children := by
  cases i with
  | none => exact .inl (by rw [declarationsOf])
  | some i =>
    induction cs generalizing i with
    | nil => exact .inl (by rw [declarationsOf])
    | cons c cs ih =>
      cases i with
      | zero =>
        cases c
        exact .inr ⟨_, List.mem_cons_self, by rw [declarationsOf]; rfl⟩
      | succ i =>
        rw [declarationsOf]
        refine (ih i).imp_right ?_
        rintro ⟨body, hbody, heq⟩
        exact ⟨body, List.mem_cons_of_mem _ hbody, heq⟩

/-- What a node contributes: nothing, what the body of a namespace holds, a type and what its body
holds, or a member. -/
theorem declarationsAt_cases (t : Tree) :
    declarationsAt source path ns parent next t = [] ∨
    (∃ inner, ∃ body ∈ t.children, declarationsAt source path ns parent next t =
      declarationsIn source path inner parent next body.children) ∨
    (∃ kind name held, t.typeKind? = some kind ∧ declarationsAt source path ns parent next t =
        Declaration.ofType t source path ns name kind parent :: held ∧
      (held = [] ∨ ∃ body ∈ t.children,
        held = declarationsIn source path ns (some next) (next + 1) body.children)) ∨
    ∃ kind owner d, t.typeKind? = none ∧ t.memberKind? = some kind ∧ t.isLocalFunction = false ∧
      parent = some owner ∧ Declaration.ofMember? t source path ns kind owner = some d ∧
      declarationsAt source path ns parent next t = [d] := by
  generalize hds : declarationsAt source path ns parent next t = ds
  obtain ⟨data, cs⟩ := t
  unfold declarationsAt at hds
  dsimp only at hds
  split at hds
  · subst hds
    refine (declarationsOf_cases _ _).imp_right ?_
    rintro ⟨body, hbody, heq⟩
    exact .inl ⟨_, body, hbody, heq⟩
  · split at hds
    · next kind hkind =>
      split at hds
      · exact .inl hds.symm
      · next name _ =>
        exact .inr (.inr (.inl ⟨kind, name, _, hkind, hds.symm, declarationsOf_cases _ _⟩))
    · next kind owner htype hkind =>
      split at hds
      · exact .inl hds.symm
      · next hlocal =>
        cases hd : Declaration.ofMember? (node data cs) source path ns kind owner with
        | none =>
          rw [hd] at hds
          exact .inl hds.symm
        | some d =>
          rw [hd] at hds
          exact .inr (.inr (.inr
            ⟨kind, owner, d, htype, hkind, by simpa using hlocal, rfl, hd, hds.symm⟩))
    · exact .inl hds.symm

/-- What the first of some siblings contributes comes before what the others do. -/
theorem declarationsIn_cons_cases (c : Tree) (cs : List Tree) :
    declarationsIn source path ns parent next (c :: cs) =
      declarationsIn source path ns parent next cs ∨
    ∃ own inner after, (own = declarationsAt source path inner parent next c ∨
        own = declarationsIn source path inner parent next c.children) ∧
      declarationsIn source path ns parent next (c :: cs) =
        own ++ declarationsIn source path after parent (next + own.length) cs := by
  generalize hds : declarationsIn source path ns parent next (c :: cs) = ds
  obtain ⟨data, kids⟩ := c
  unfold declarationsIn at hds
  dsimp only at hds
  split at hds
  · exact .inl hds.symm
  · split at hds
    · exact .inr ⟨_, _, _, .inr rfl, hds.symm⟩
    · exact .inr ⟨_, _, _, .inl rfl, hds.symm⟩

/-! ## The order of the declarations -/

theorem sublist_preorderAll (h : c ∈ cs) : c.preorder.Sublist (preorderAll cs) := by
  induction cs with
  | nil => simp at h
  | cons x cs ih =>
    rw [preorderAll]
    rcases List.mem_cons.mp h with rfl | h
    · exact List.sublist_append_left _ _
    · exact (ih h).trans (List.sublist_append_right _ _)

theorem preorder_eq (t : Tree) : t.preorder = t :: preorderAll t.children := by
  cases t
  rw [preorder]
  rfl

theorem sublist_preorder (t : Tree) : (preorderAll t.children).Sublist t.preorder := by
  rw [preorder_eq t]
  exact List.sublist_cons_self _ _

/-- The declarations are made by some of the nodes of the file at `path`, in their order. Only types
have parts. -/
structure DeclaredBy (path : String) (ts : List Tree) (ds : List Declaration) : Prop where
  sublist : (ds.map Declaration.extent).Sublist ((ts.filter declares).map (extent path))
  isType_of_isPartial : ∀ d ∈ ds, d.isPartial = true → d.kind.isType = true

namespace DeclaredBy

variable {ts us : List Tree} {ds es : List Declaration} {d : Declaration}

theorem nil (path : String) (ts : List Tree) : DeclaredBy path ts [] :=
  ⟨List.nil_sublist _, by simp⟩

theorem mono (h : DeclaredBy path ts ds) (hsub : ts.Sublist us) : DeclaredBy path us ds :=
  ⟨h.sublist.trans ((hsub.filter _).map _), h.isType_of_isPartial⟩

theorem append (h : DeclaredBy path ts ds) (h' : DeclaredBy path us es) :
    DeclaredBy path (ts ++ us) (ds ++ es) where
  sublist := by
    rw [List.map_append, List.filter_append, List.map_append]
    exact h.sublist.append h'.sublist
  isType_of_isPartial :=
    List.forall_mem_append.mpr ⟨h.isType_of_isPartial, h'.isType_of_isPartial⟩

theorem cons (hextent : d.extent = t.extent path)
    (hpartial : d.isPartial = true → d.kind.isType = true) (hdeclares : t.declares = true)
    (h : DeclaredBy path ts ds) : DeclaredBy path (t :: ts) (d :: ds) where
  sublist := by
    rw [List.filter_cons_of_pos hdeclares, List.map_cons, List.map_cons, hextent]
    exact h.sublist.cons_cons _
  isType_of_isPartial := List.forall_mem_cons.mpr ⟨hpartial, h.isType_of_isPartial⟩

end DeclaredBy

theorem declaredBy_declarationsIn (h : ∀ c ∈ cs,
    (∀ ns parent next, DeclaredBy path c.preorder (declarationsAt source path ns parent next c)) ∧
    ∀ ns parent next, DeclaredBy path (preorderAll c.children)
      (declarationsIn source path ns parent next c.children)) (ns : String) (parent : Option Nat)
    (next : Nat) :
    DeclaredBy path (preorderAll cs) (declarationsIn source path ns parent next cs) := by
  induction cs generalizing ns next with
  | nil =>
    rw [declarationsIn]
    exact .nil _ _
  | cons c cs ih =>
    obtain ⟨⟨hat, hin⟩, hcs⟩ := List.forall_mem_cons.mp h
    rw [preorderAll]
    rcases declarationsIn_cons_cases c cs with heq | ⟨own, inner, after, hown, heq⟩
    · rw [heq]
      exact (ih hcs _ _).mono (List.sublist_append_right _ _)
    · rw [heq]
      refine .append ?_ (ih hcs _ _)
      rcases hown with rfl | rfl
      · exact hat _ _ _
      · exact (hin _ _ _).mono (sublist_preorder c)

/-- The declarations that a node and its children contribute are made by nodes below it. -/
theorem declaredBy_preorder (source path : String) (t : Tree) :
    (∀ ns parent next, DeclaredBy path t.preorder (declarationsAt source path ns parent next t)) ∧
    ∀ ns parent next, DeclaredBy path (preorderAll t.children)
      (declarationsIn source path ns parent next t.children) := by
  induction t using childInduction with
  | inherit t ih =>
    refine ⟨fun ns parent next => ?_, declaredBy_declarationsIn ih⟩
    rw [preorder_eq t]
    have hbody (body : Tree) (hbody : body ∈ t.children) (ns : String) (parent : Option Nat)
        (next : Nat) : DeclaredBy path (preorderAll t.children)
          (declarationsIn source path ns parent next body.children) :=
      ((ih body hbody).2 ns parent next).mono
        ((sublist_preorder body).trans (sublist_preorderAll hbody))
    rcases declarationsAt_cases t with heq | ⟨inner, body, hmem, heq⟩ |
        ⟨kind, name, held, htype, heq, hheld⟩ | ⟨kind, owner, d, htype, hkind, hlocal, -, hd, heq⟩
    · rw [heq]
      exact .nil _ _
    · rw [heq]
      exact (hbody body hmem _ _ _).mono (List.sublist_cons_self _ _)
    · rw [heq]
      refine .cons (extent_ofType htype) (fun _ => isType_of_typeKind? htype)
        (by simp [declares, htype]) ?_
      rcases hheld with rfl | ⟨body, hmem, rfl⟩
      · exact .nil _ _
      · exact hbody body hmem _ _ _
    · rw [heq]
      exact .cons (extent_of_ofMember? htype hd) (by simp [isPartial_of_ofMember? hd])
        (by simp [declares, hkind, hlocal]) (.nil _ _)

/-- The declarations of a file are some of its declaring nodes, in their order. -/
theorem declaredBy_declarations (source path : String) (t : Tree) :
    DeclaredBy path t.preorder (t.declarations source path) :=
  ((declaredBy_preorder source path t).2 _ _ _).mono (sublist_preorder t)

theorem exists_node_of_mem_declarations {d : Declaration} (h : d ∈ t.declarations source path) :
    ∃ n ∈ t.preorder, n.declares = true ∧ n.extent path = d.extent := by
  have hmem := (declaredBy_declarations source path t).sublist.subset (List.mem_map_of_mem h)
  obtain ⟨n, hn, heq⟩ := List.mem_map.mp hmem
  obtain ⟨hn, hdeclares⟩ := List.mem_filter.mp hn
  exact ⟨n, hn, hdeclares, heq⟩

/-! ## The nesting of the declarations -/

theorem nested_declarationsIn (h : ∀ c ∈ cs,
    (∀ ns parent next, NestedFrom parent next c.start c.stop
      ((declarationsAt source path ns parent next c).map Declaration.range)) ∧
    ∀ ns parent next, NestedFrom parent next c.start c.stop
      ((declarationsIn source path ns parent next c.children).map Declaration.range))
    (hordered : cs.Pairwise Precedes) (hcs : ∀ c ∈ cs, lo ≤ c.start ∧ c.stop ≤ hi) (hlo : lo ≤ hi)
    (ns : String) (parent : Option Nat) (next : Nat) : NestedFrom parent next lo hi
      ((declarationsIn source path ns parent next cs).map Declaration.range) := by
  induction cs generalizing lo ns next with
  | nil =>
    rw [declarationsIn]
    exact .nil
  | cons c cs ih =>
    obtain ⟨⟨hat, hin⟩, h⟩ := List.forall_mem_cons.mp h
    obtain ⟨hfirst, hordered⟩ := List.pairwise_cons.mp hordered
    obtain ⟨⟨hstart, hstop⟩, hcs⟩ := List.forall_mem_cons.mp hcs
    have hrest := ih h hordered (fun c' hc' => ⟨hfirst c' hc', (hcs c' hc').2⟩) hstop
    have hle : lo ≤ c.stop := Nat.le_trans hstart c.start_le_stop
    rcases declarationsIn_cons_cases c cs with heq | ⟨own, inner, after, hown, heq⟩
    · rw [heq]
      exact (hrest _ _).mono hle (Nat.le_refl _)
    · have hown : NestedFrom parent next c.start c.stop (own.map Declaration.range) := by
        rcases hown with rfl | rfl
        · exact hat _ _ _
        · exact hin _ _ _
      rw [heq, List.map_append]
      refine (hown.mono hstart (Nat.le_refl _)).append ?_ hle hstop
      rw [List.length_map]
      exact hrest _ _

/-- The declarations that a node and its children contribute are nested. -/
theorem nested_preorder (source path : String) (t : Tree) (h : t.Layered) :
    (∀ ns parent next, NestedFrom parent next t.start t.stop
      ((declarationsAt source path ns parent next t).map Declaration.range)) ∧
    ∀ ns parent next, NestedFrom parent next t.start t.stop
      ((declarationsIn source path ns parent next t.children).map Declaration.range) := by
  induction t using childInduction with
  | inherit t ih =>
    have ih (c : Tree) (hc : c ∈ t.children) := ih c hc (h.child hc)
    refine ⟨fun ns parent next => ?_, nested_declarationsIn ih h.pairwise_children
      (fun c hc => ⟨h.start_le hc, h.stop_le hc⟩) t.start_le_stop⟩
    have hbody (body : Tree) (hbody : body ∈ t.children) (ns : String) (parent : Option Nat)
        (next : Nat) : NestedFrom parent next t.start t.stop
          ((declarationsIn source path ns parent next body.children).map Declaration.range) :=
      ((ih body hbody).2 ns parent next).mono (h.start_le hbody) (h.stop_le hbody)
    rcases declarationsAt_cases t with heq | ⟨inner, body, hmem, heq⟩ |
        ⟨kind, name, held, htype, heq, hheld⟩ | ⟨kind, owner, d, htype, -, -, hparent, hd, heq⟩
    · rw [heq]
      exact .nil
    · rw [heq]
      exact hbody body hmem _ _ _
    · rw [heq]
      refine .cons ?_ rfl (isType_of_typeKind? htype) (Nat.le_refl _) (Nat.le_refl _)
      rcases hheld with rfl | ⟨body, hmem, rfl⟩
      · exact .nil
      · exact hbody body hmem _ _ _
    · rw [heq, List.map_singleton, (range_of_ofMember? hd).2]
      exact .singleton hparent.symm (Nat.le_refl _) (Nat.le_refl _)

/-- The declarations of a file are nested. -/
theorem nested_declarations (source path : String) (h : t.Layered) :
    NestedFrom none 0 t.start t.stop ((t.declarations source path).map Declaration.range) :=
  (nested_preorder source path t h).2 "" none 0

/-- Declarations are listed by their start, and no two have the same. -/
theorem pairwise_start_lt (source path : String) (h : t.Layered) (hstarts : t.StartsApart) :
    (t.declarations source path).Pairwise fun d e => d.start < e.start := by
  have hle := (nested_declarations source path h).pairwise_start_le
  rw [List.pairwise_map] at hle
  have hne : ((t.declarations source path).map Declaration.start).Nodup := by
    have hsub := (declaredBy_declarations source path t).sublist.map Extent.start
    rw [List.map_map, List.map_map] at hsub
    exact hsub.nodup hstarts
  rw [List.Nodup, List.pairwise_map] at hne
  exact hle.imp₂ (fun d e hde hne => Nat.lt_of_le_of_ne hde hne) hne

end Tree

end CodeAtlas
