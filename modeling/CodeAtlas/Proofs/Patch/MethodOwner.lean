import CodeAtlas.Proofs.Graph.Enclosing
import CodeAtlas.Proofs.Patch.Owner

/-!
# The type that declares the methods of a fragment

A bare list of members belongs to the type that declares its first method that one type alone
declares. Here every part of a partial type is a type of its own, unlike where a fragment names the
type. So a method with overloads in two parts has two owners, and the next methods decide.

## Main definitions

* `Table.MethodNamed`, `Table.Owns`: the methods of a name and the types that declare them.
* `Table.SoleOwner`: the only type that declares methods of a name.
* `Table.FirstSole`: the owner of the first name in a list that has only one.
* `Table.MethodsIn`: a name whose methods are declared in the parts of one type.

## Main statements

* `SymbolGraph.methodOwners_cases`: a name has no owner, one or several.
* `SymbolGraph.firstOwner_cases`: what comes of a list of names.
* `methodOwner_found_iff`: what a bare list of members gets, also if the methods of a name are
  declared in the parts of one type.
* `methodOwner_ambiguous_parts`: overloads in two parts make a type ambiguous.
-/
namespace CodeAtlas

/-- The names of the methods that the fragment `f` brings. -/
def Fragment.methodNames (f : Fragment) : List String :=
  (f.members.filter (·.kind == .method)).map (·.name)

/-- The type of the entry `e` as the owner of a fragment. -/
def Owner.ofEntry (e : Entry) : Owner where
  typeId := e.id
  typeName := e.name
  path := e.path
  start := e.start

namespace Table

variable {t : Table} {name : String} {names front : List String} {p q : Nat}

/-! ## Owners of a name -/

/-- The entry `e` at position `i` of `t` is a method called `name`. -/
def MethodNamed (t : Table) (name : String) (i : Nat) (e : Entry) : Prop :=
  t.entries[i]? = some e ∧ e.kind = .method ∧ e.name = name

/-- The type at position `p` of `t` declares a method called `name`. -/
def Owns (t : Table) (name : String) (p : Nat) : Prop :=
  ∃ i e, t.MethodNamed name i e ∧ e.parent = some p

/-- No type of `t` but the one at position `p` declares methods called `name`. -/
def SoleOwner (t : Table) (name : String) (p : Nat) : Prop :=
  ∀ q, t.Owns name q ↔ q = p

/-- There are methods called `name`, and all of them are declared in parts of the type at position
`whole`. -/
def MethodsIn (t : Table) (name : String) (whole : Nat) : Prop :=
  (∃ i e, t.MethodNamed name i e) ∧
    ∀ i e, t.MethodNamed name i e → ∃ p, e.parent = some p ∧ t.leadPart p = whole

@[grind →] theorem SoleOwner.owns (h : t.SoleOwner name p) : t.Owns name p :=
  (h p).mpr rfl

theorem SoleOwner.eq (h : t.SoleOwner name p) (h' : t.SoleOwner name q) : p = q :=
  (h' p).mp h.owns

theorem MethodsIn.leadPart_eq {whole : Nat} (h : t.MethodsIn name whole) (hp : t.Owns name p) :
    t.leadPart p = whole := by
  obtain ⟨i, e, he, hparent⟩ := hp
  obtain ⟨q, hq, hlead⟩ := h.2 i e he
  obtain rfl : p = q := Option.some.inj (hparent.symm.trans hq)
  exact hlead

/-- The owner in `t` of the first name that has only one. -/
inductive FirstSole (t : Table) : List String → Nat → Prop where
  | head {name : String} {rest : List String} {p : Nat} (h : t.SoleOwner name p) :
    FirstSole t (name :: rest) p
  | tail {name : String} {rest : List String} {p : Nat} (h : ∀ q, ¬ t.SoleOwner name q)
    (hrest : FirstSole t rest p) : FirstSole t (name :: rest) p

theorem FirstSole.eq (h : t.FirstSole names p) (h' : t.FirstSole names q) : p = q := by
  induction h with
  | head h =>
    cases h' with
    | head h' => exact h.eq h'
    | tail h' _ => exact absurd h (h' _)
  | tail h _ ih =>
    cases h' with
    | head h' => exact absurd h' (h _)
    | tail _ hrest => exact ih hrest

theorem FirstSole.exists_mem (h : t.FirstSole names p) : ∃ name ∈ names, t.SoleOwner name p := by
  induction h with
  | head h => exact ⟨_, List.mem_cons_self, h⟩
  | tail _ _ ih =>
    obtain ⟨name, hmem, hname⟩ := ih
    exact ⟨name, List.mem_cons_of_mem _ hmem, hname⟩

/-- Names without an owner of their own do not matter. -/
theorem firstSole_append (hfront : ∀ name ∈ front, ∀ q, ¬ t.SoleOwner name q) :
    t.FirstSole (front ++ names) p ↔ t.FirstSole names p := by
  induction front with
  | nil => rfl
  | cons name front ih =>
    obtain ⟨hname, hfront⟩ := List.forall_mem_cons.mp hfront
    rw [List.cons_append, ← ih hfront]
    constructor
    · intro h
      cases h with
      | head h => exact absurd h (hname _)
      | tail _ hrest => exact hrest
    · exact .tail hname

@[simp] theorem firstSole_cons {rest : List String} :
    t.FirstSole (name :: rest) p ↔
      t.SoleOwner name p ∨ (∀ q, ¬ t.SoleOwner name q) ∧ t.FirstSole rest p := by
  constructor
  · intro h
    cases h with
    | head h => exact .inl h
    | tail h hrest => exact .inr ⟨h, hrest⟩
  · rintro (h | ⟨h, hrest⟩)
    · exact .head h
    · exact .tail h hrest

end Table

namespace SymbolGraph

variable {files : List SourceFile} {options : IndexSettings} {name : String}

/-! ## Owners in a graph -/

/-- The methods of a name are the symbols of the entries that are methods of that name. -/
theorem mem_named_method {n : Symbol} (hids : DistinctIds files options) :
    n ∈ (ofFiles files options).named name (some .method) ↔
      ∃ i e, (tableOf files options).MethodNamed name i e ∧
        n = declarationNode (contributionsOf files (tableOf files options) options) i e := by
  simp only [named, List.mem_filter, mem_values_iff, Option.all_some, Bool.and_eq_true, beq_iff_eq]
  constructor
  · rintro ⟨⟨id, hn⟩, hname, hkind⟩
    obtain ⟨i, e, he, rfl⟩ := exists_declarationNode_of_isDeclaration (mem_symbolsOf_of_node? hn)
      (by rw [hkind]; rfl)
    exact ⟨i, e, ⟨he, by simpa using hkind, by simpa using hname⟩, rfl⟩
  · rintro ⟨i, e, ⟨he, hkind, hname⟩, rfl⟩
    exact ⟨⟨e.id, node?_ofFiles hids he⟩, by simpa using hname, by simpa using hkind⟩

theorem exists_entry_of_owns {p : Nat} (htrees : ∀ f ∈ files, f.tree.Layered)
    (h : (tableOf files options).Owns name p) :
    ∃ owner, (tableOf files options).entries[p]? = some owner := by
  obtain ⟨i, e, he, hparent⟩ := h
  obtain ⟨owner, howner, -⟩ := exists_owner_of_parent htrees he.1 hparent
  exact ⟨owner, howner⟩

/-- The first two elements of a list without repetitions differ. -/
theorem ne_of_eraseDups_eq_cons {xs rest : List String} {a b : String}
    (h : xs.eraseDups = a :: b :: rest) : a ≠ b := by
  cases xs with
  | nil => simp at h
  | cons x xs =>
    rw [List.eraseDups_cons] at h
    obtain ⟨rfl, hrest⟩ := List.cons.inj h
    have hb : b ∈ (xs.filter fun c => !c == x).eraseDups := by simp [hrest]
    rintro rfl
    simp at hb

section Files

variable (hkeys : (files.map fun f => Path.normalize f.path).Nodup)
  (htrees : ∀ f ∈ files, f.tree.Layered) (hstarts : ∀ f ∈ files, f.tree.StartsApart)
  (hsized : ∀ f ∈ files, ∀ n ∈ f.tree.preorder, n.declares = true → 0 < n.length)
  (hids : DistinctIds files options)

include hkeys htrees hstarts hsized hids

/-- The owners of a name are counted by the ids of the types that declare a method of it. -/
theorem mem_methodOwners (name id : String) :
    id ∈ methodOwners (ofFiles files options) name ↔
      ∃ p owner, (tableOf files options).Owns name p ∧
        (tableOf files options).entries[p]? = some owner ∧ owner.id = id := by
  simp only [methodOwners, List.mem_eraseDups, List.mem_map, List.mem_filterMap,
    mem_named_method hids]
  constructor
  · rintro ⟨_, ⟨_, ⟨i, e, he, rfl⟩, hencloses⟩, rfl⟩
    rw [enclosingType?_declarationNode hkeys htrees hstarts hsized he.1] at hencloses
    obtain ⟨p, hparent, hat⟩ := Option.bind_eq_some_iff.mp hencloses
    obtain ⟨owner, howner, rfl⟩ := Option.map_eq_some_iff.mp hat
    exact ⟨p, owner, ⟨i, e, he, hparent⟩, howner, by simp⟩
  · rintro ⟨p, owner, ⟨i, e, he, hparent⟩, howner, rfl⟩
    refine ⟨declarationNode (contributionsOf files (tableOf files options) options) p owner,
      ⟨_, ⟨i, e, he, rfl⟩, ?_⟩, by simp⟩
    rw [enclosingType?_declarationNode hkeys htrees hstarts hsized he.1, hparent,
      Option.bind_some, howner, Option.map_some]

/-- A name has no owner, one or several. -/
theorem methodOwners_cases (name : String) :
    methodOwners (ofFiles files options) name = [] ∧
      (∀ p, ¬ (tableOf files options).Owns name p) ∨
    (∃ p owner, methodOwners (ofFiles files options) name = [owner.id] ∧
      (tableOf files options).entries[p]? = some owner ∧
      (tableOf files options).SoleOwner name p) ∨
    ∃ a b rest, methodOwners (ofFiles files options) name = a :: b :: rest ∧
      (∃ p, (tableOf files options).Owns name p) ∧
      ∀ p, ¬ (tableOf files options).SoleOwner name p := by
  have hmem {id : String} := mem_methodOwners hkeys htrees hstarts hsized hids name id
  have hentry {p : Nat} (hp : (tableOf files options).Owns name p) :
      ∃ owner, (tableOf files options).entries[p]? = some owner ∧
        owner.id ∈ methodOwners (ofFiles files options) name := by
    obtain ⟨owner, howner⟩ := exists_entry_of_owns htrees hp
    exact ⟨owner, howner, hmem.mpr ⟨p, owner, hp, howner, rfl⟩⟩
  have hids := nodup_ids_tableOf options hids.plain
  cases howners : methodOwners (ofFiles files options) name with
  | nil =>
    refine .inl ⟨rfl, fun p hp => ?_⟩
    obtain ⟨owner, -, howner⟩ := hentry hp
    simp [howners] at howner
  | cons a rest =>
    obtain ⟨p, owner, hp, howner, rfl⟩ := hmem.mp (howners ▸ List.mem_cons_self)
    cases rest with
    | nil =>
      refine .inr (.inl ⟨p, owner, rfl, howner, fun q => ⟨fun hq => ?_, fun heq => heq ▸ hp⟩⟩)
      obtain ⟨owner', howner', hmem'⟩ := hentry hq
      rw [howners, List.mem_singleton] at hmem'
      exact eq_of_id_eq hids howner' howner hmem'
    | cons b rest =>
      refine .inr (.inr ⟨_, b, rest, rfl, ⟨p, hp⟩, fun q hsole => ?_⟩)
      obtain ⟨p', owner', hp', howner', rfl⟩ :=
        hmem.mp (howners ▸ List.mem_cons_of_mem _ List.mem_cons_self)
      -- both owners would be the same type, but their ids differ
      obtain rfl : p = p' := ((hsole p).mp hp).trans ((hsole p').mp hp').symm
      obtain rfl : owner = owner' := Option.some.inj (howner.symm.trans howner')
      exact ne_of_eraseDups_eq_cons howners rfl

/-- What comes of a list of names: the owner of the first name that has only one. If there is none,
the list is ambiguous as soon as one of its names has owners. -/
theorem firstOwner_cases (sawAmbiguous : Bool) (names : List String) :
    (∃ p owner, (tableOf files options).FirstSole names p ∧
      (tableOf files options).entries[p]? = some owner ∧
      firstOwner (ofFiles files options) sawAmbiguous names = .found (.ofEntry owner)) ∨
    (∀ name ∈ names, ∀ p, ¬ (tableOf files options).SoleOwner name p) ∧
      (firstOwner (ofFiles files options) sawAmbiguous names = .ambiguous ∧
          (sawAmbiguous = true ∨ ∃ name ∈ names, ∃ p, (tableOf files options).Owns name p) ∨
        firstOwner (ofFiles files options) sawAmbiguous names = .notFound ∧
          sawAmbiguous = false ∧ ∀ name ∈ names, ∀ p, ¬ (tableOf files options).Owns name p) := by
  induction names generalizing sawAmbiguous with
  | nil => cases sawAmbiguous <;> simp [firstOwner]
  | cons name names ih =>
    rcases methodOwners_cases hkeys htrees hstarts hsized hids name with
      ⟨howners, hnone⟩ | ⟨p, owner, howners, howner, hsole⟩ | ⟨a, b, rest, howners, hsome, hnone⟩
    · -- a name that no type declares is passed over
      have hstep : firstOwner (ofFiles files options) sawAmbiguous (name :: names) =
          firstOwner (ofFiles files options) sawAmbiguous names := by
        rw [firstOwner, howners]
      have hnot (p : Nat) (h : (tableOf files options).SoleOwner name p) : False := hnone p h.owns
      rw [hstep]
      rcases ih sawAmbiguous with ⟨p, owner, hfirst, howner, hout⟩ | ⟨hnames, hout⟩
      · exact .inl ⟨p, owner, .tail hnot hfirst, howner, hout⟩
      · refine .inr ⟨List.forall_mem_cons.mpr ⟨hnot, hnames⟩, hout.imp ?_ ?_⟩
        · rintro ⟨hout, hsaw | ⟨name', hmem, howns⟩⟩
          · exact ⟨hout, .inl hsaw⟩
          · exact ⟨hout, .inr ⟨name', List.mem_cons_of_mem _ hmem, howns⟩⟩
        · rintro ⟨hout, hsaw, hrest⟩
          exact ⟨hout, hsaw, List.forall_mem_cons.mpr ⟨hnone, hrest⟩⟩
    · refine .inl ⟨p, owner, .head hsole, howner, ?_⟩
      rw [firstOwner, howners]
      dsimp only
      rw [node?_ofFiles hids howner]
      simp [Owner.ofNode, Owner.ofEntry]
    · -- after a name with several owners the answer is no longer that nothing is found
      have hstep : firstOwner (ofFiles files options) sawAmbiguous (name :: names) =
          firstOwner (ofFiles files options) true names := by
        rw [firstOwner, howners]
      rw [hstep]
      rcases ih true with ⟨p, owner, hfirst, howner, hout⟩ | ⟨hnames, hout⟩
      · exact .inl ⟨p, owner, .tail hnone hfirst, howner, hout⟩
      · refine .inr ⟨List.forall_mem_cons.mpr ⟨hnone, hnames⟩, .inl ?_⟩
        rcases hout with ⟨hout, -⟩ | ⟨-, hsaw, -⟩
        · exact ⟨hout, .inr ⟨name, List.mem_cons_self, hsome⟩⟩
        · cases hsaw

theorem firstOwner_eq_found_iff (names : List String) (target : Owner) :
    firstOwner (ofFiles files options) false names = .found target ↔
      ∃ p owner, (tableOf files options).FirstSole names p ∧
        (tableOf files options).entries[p]? = some owner ∧ target = .ofEntry owner := by
  rcases firstOwner_cases hkeys htrees hstarts hsized hids false names with
    ⟨p, owner, hfirst, howner, hout⟩ | ⟨hnone, hout⟩
  · rw [hout]
    constructor
    · intro h
      exact ⟨p, owner, hfirst, howner, (OwnerSearch.found.inj h).symm⟩
    · rintro ⟨q, owner', hfirst', howner', rfl⟩
      obtain rfl := hfirst.eq hfirst'
      rw [Option.some.inj (howner.symm.trans howner')]
  · refine iff_of_false ?_ ?_
    · rcases hout with ⟨hout, -⟩ | ⟨hout, -⟩ <;> simp [hout]
    · rintro ⟨p, -, hfirst, -⟩
      obtain ⟨name, hmem, hsole⟩ := hfirst.exists_mem
      exact hnone name hmem p hsole

theorem firstOwner_eq_ambiguous_iff (names : List String) :
    firstOwner (ofFiles files options) false names = .ambiguous ↔
      (∀ name ∈ names, ∀ p, ¬ (tableOf files options).SoleOwner name p) ∧
        ∃ name ∈ names, ∃ p, (tableOf files options).Owns name p := by
  rcases firstOwner_cases hkeys htrees hstarts hsized hids false names with
    ⟨p, owner, hfirst, -, hout⟩ | ⟨hnone, ⟨hout, hsome⟩ | ⟨hout, -, hno⟩⟩
  · refine iff_of_false (by simp [hout]) fun h => ?_
    obtain ⟨name, hmem, hsole⟩ := hfirst.exists_mem
    exact h.1 name hmem p hsole
  · exact iff_of_true hout ⟨hnone, by simpa using hsome⟩
  · refine iff_of_false (by simp [hout]) ?_
    rintro ⟨-, name, hmem, p, howns⟩
    exact hno name hmem p howns

theorem firstOwner_eq_notFound_iff (names : List String) :
    firstOwner (ofFiles files options) false names = .notFound ↔
      ∀ name ∈ names, ∀ p, ¬ (tableOf files options).Owns name p := by
  rcases firstOwner_cases hkeys htrees hstarts hsized hids false names with
    ⟨p, owner, hfirst, -, hout⟩ | ⟨-, ⟨hout, hsome⟩ | ⟨hout, -, hno⟩⟩
  · refine iff_of_false (by simp [hout]) fun h => ?_
    obtain ⟨name, hmem, hsole⟩ := hfirst.exists_mem
    exact h name hmem p hsole.owns
  · refine iff_of_false (by simp [hout]) fun h => ?_
    obtain ⟨name, hmem, p, howns⟩ : ∃ name ∈ names, ∃ p, (tableOf files options).Owns name p := by
      simpa using hsome
    exact h name hmem p howns
  · exact iff_of_true hout hno

/-- If the first names are unknown and the methods of the next one are declared in the parts of one
type, a part of that type is found if and only if one part declares them all, or a later name leads
to a part of that type. -/
theorem firstOwner_part_iff {front rest : List String} {name : String} {whole : Nat}
    (hfront : ∀ n ∈ front, ∀ i e, ¬ (tableOf files options).MethodNamed n i e)
    (hparts : (tableOf files options).MethodsIn name whole) :
    (∃ p owner, (tableOf files options).leadPart p = whole ∧
        (tableOf files options).entries[p]? = some owner ∧
        firstOwner (ofFiles files options) false (front ++ name :: rest) =
          .found (.ofEntry owner)) ↔
      (∃ p, (tableOf files options).SoleOwner name p) ∨
        ∃ p, (tableOf files options).FirstSole rest p ∧
          (tableOf files options).leadPart p = whole := by
  have hunknown : ∀ n ∈ front, ∀ q, ¬ (tableOf files options).SoleOwner n q := by
    intro n hn q hsole
    obtain ⟨i, e, he, -⟩ := hsole.owns
    exact hfront n hn i e he
  have hfirst {p : Nat} : (tableOf files options).FirstSole (front ++ name :: rest) p ↔ _ :=
    (Table.firstSole_append hunknown).trans Table.firstSole_cons
  simp only [firstOwner_eq_found_iff hkeys htrees hstarts hsized hids, hfirst]
  constructor
  · rintro ⟨p, owner, hlead, howner, q, owner', hq, howner', heq⟩
    have hid : owner.id = owner'.id := congrArg Owner.typeId heq
    obtain rfl : p = q := eq_of_id_eq (nodup_ids_tableOf options hids.plain) howner howner' hid
    rcases hq with hq | ⟨-, hq⟩
    · exact .inl ⟨p, hq⟩
    · exact .inr ⟨p, hq, hlead⟩
  · intro h
    -- a later name counts only if the methods are not all in one part
    obtain ⟨p, hp, hlead⟩ : ∃ p, ((tableOf files options).SoleOwner name p ∨
        (∀ q, ¬ (tableOf files options).SoleOwner name q) ∧
          (tableOf files options).FirstSole rest p) ∧
        (tableOf files options).leadPart p = whole := by
      by_cases hsole : ∃ p, (tableOf files options).SoleOwner name p
      · obtain ⟨p, hp⟩ := hsole
        exact ⟨p, .inl hp, hparts.leadPart_eq hp.owns⟩
      · obtain ⟨p, hp, hlead⟩ := h.resolve_left hsole
        exact ⟨p, .inr ⟨not_exists.mp hsole, hp⟩, hlead⟩
    obtain ⟨name', -, hsole⟩ := (hfirst.mpr hp).exists_mem
    obtain ⟨owner, howner⟩ := exists_entry_of_owns htrees hsole.owns
    exact ⟨p, owner, hlead, howner, p, owner, hp, howner, rfl⟩

end Files

end SymbolGraph

section Answer

open SymbolGraph

variable {t : Table}

/-- What a bare `fragment` gets by its methods: the owner of the first name that has only one. If
there is none, the fragment is ambiguous as soon as one of its methods has owners. Now let the first
methods of the fragment be unknown and the methods of the next name be declared in the parts of the
type at position `whole`. Then a part of that type is found if and only if all these methods are in
one part, or else a later name leads to a part of that type. -/
theorem methodOwner_found_iff (files : List SourceFile) (options : IndexSettings)
    (fragment : Fragment) (hkeys : (files.map fun f => Path.normalize f.path).Nodup)
    (htrees : ∀ f ∈ files, f.tree.WellFormed f.text) (hstarts : ∀ f ∈ files, f.tree.StartsApart)
    (hsized : ∀ f ∈ files, ∀ n ∈ f.tree.preorder, n.declares = true → 0 < n.length)
    (hids : DistinctIds files options) (hbare : fragment.container = none)
    (ht : t = tableOf files options) :
    let answer := ownerByMethod (SymbolGraph.ofFiles files options) fragment
    (∀ target, answer = .found target ↔ ∃ p owner, t.FirstSole fragment.methodNames p ∧
      t.entries[p]? = some owner ∧ target = .ofEntry owner) ∧
    (answer = .ambiguous ↔ (∀ name ∈ fragment.methodNames, ∀ p, ¬ t.SoleOwner name p) ∧
      ∃ name ∈ fragment.methodNames, ∃ p, t.Owns name p) ∧
    (answer = .notFound ↔ ∀ name ∈ fragment.methodNames, ∀ p, ¬ t.Owns name p) ∧
    ∀ front name rest whole, fragment.methodNames = front ++ name :: rest →
      (∀ n ∈ front, ∀ i e, ¬ t.MethodNamed n i e) → t.MethodsIn name whole →
      ((∃ p owner, t.leadPart p = whole ∧ t.entries[p]? = some owner ∧
          answer = .found (.ofEntry owner)) ↔
        (∃ p, t.SoleOwner name p) ∨ ∃ p, t.FirstSole rest p ∧ t.leadPart p = whole) := by
  subst ht
  intro answer
  have hlayered : ∀ f ∈ files, f.tree.Layered := fun f hf => (htrees f hf).layered
  have hanswer : answer = firstOwner (SymbolGraph.ofFiles files options) false
      fragment.methodNames := by
    change ownerByMethod _ _ = _
    rw [ownerByMethod, hbare]
    rfl
  rw [hanswer]
  refine ⟨fun target => ?_, ?_, ?_, fun front name rest whole hnames hfront hparts => ?_⟩
  · exact firstOwner_eq_found_iff hkeys hlayered hstarts hsized hids _ target
  · exact firstOwner_eq_ambiguous_iff hkeys hlayered hstarts hsized hids _
  · exact firstOwner_eq_notFound_iff hkeys hlayered hstarts hsized hids _
  · rw [hnames]
    exact firstOwner_part_iff hkeys hlayered hstarts hsized hids hfront hparts

end Answer

/-- A method `void A(int n);` without a class around it. -/
def bareMethod : Fragment where
  source := Fragment.wrap "void A(int n);"
  tree := .node { kind := "compilation_unit", length := 42 }
    [.node { kind := "class_declaration", length := 41 }
      [.ofToken "class" 0, .ofLeaf "identifier" "name" 6 16,
        .node { kind := "declaration_list", label := some "body", start := 23, length := 18 }
          [.ofToken "\x7b" 23, .ofOverload 25 3, .ofToken "\x7d" 40]]]
  container := none

/-- A partial class in two files. The second part alone has a method. -/
def laterMethodFiles : List SourceFile :=
  [{ path := "a.cs"
     text := "partial class C \x7b \x7d"
     tree := .ofPart 19 [] },
    { path := "b.cs"
      text := "partial class C \x7b void A(int n); \x7d"
      tree := .ofPart 34 [.ofOverload 18 3] }]

/-- The part that has the method is found, not the first part. -/
theorem methodOwner_found_laterPart :
    (tableOf laterMethodFiles {}).MethodsIn "A" 0 ∧
    ∃ target, ownerByMethod (SymbolGraph.ofFiles laterMethodFiles {}) bareMethod =
      .found target ∧ target.typeId = "C#2" := by
  have hparent : ∀ e ∈ (tableOf laterMethodFiles {}).entries.toList, e.kind = .method →
      e.parent = some 1 := by decide +kernel
  have hlead : (tableOf laterMethodFiles {}).leadPart 1 = 0 := by decide +kernel
  obtain ⟨m, hm, hmethod⟩ : (tableOf laterMethodFiles {}).Holds 2 fun e =>
      e.kind = .method ∧ e.name = "A" := by decide +kernel
  obtain ⟨part, hpart, hid⟩ : (tableOf laterMethodFiles {}).Holds 1 (·.id = "C#2") := by
    decide +kernel
  have howner {i : Nat} {e : Entry} (he : (tableOf laterMethodFiles {}).MethodNamed "A" i e) :
      e.parent = some 1 :=
    hparent e (Array.mem_toList_iff.mpr (Array.mem_of_getElem? he.1)) he.2.1
  have hsole : (tableOf laterMethodFiles {}).SoleOwner "A" 1 := by
    refine fun q => ⟨?_, fun hq => ⟨2, m, ⟨hm, hmethod⟩, hq ▸ howner ⟨hm, hmethod⟩⟩⟩
    rintro ⟨i, e, he, hq⟩
    exact Option.some.inj (hq.symm.trans (howner he))
  have hparts : (tableOf laterMethodFiles {}).MethodsIn "A" 0 :=
    ⟨⟨2, m, hm, hmethod⟩, fun i e he => ⟨1, howner he, hlead⟩⟩
  have hnames : bareMethod.methodNames = ["A"] := by decide +kernel
  obtain ⟨hfound, -, -, -⟩ := methodOwner_found_iff laterMethodFiles {} bareMethod
    (by decide +kernel) (by decide +kernel) (by decide +kernel) (by decide +kernel)
    ⟨by decide +kernel, SymbolGraph.numberedId_injective, by decide +kernel⟩ rfl rfl
  exact ⟨hparts, _, (hfound _).mpr ⟨1, part, hnames ▸ .head hsole, hpart, rfl⟩, hid⟩

/-- A partial class with overloads of a method in two files. -/
def overloadPartFiles : List SourceFile :=
  [{ path := "a.cs"
     text := "partial class C \x7b void A(int n); \x7d"
     tree := .ofPart 34 [.ofOverload 18 3] },
    { path := "b.cs"
      text := "partial class C \x7b void A(long n); \x7d"
      tree := .ofPart 35 [.ofOverload 18 4] }]

/-- The parts of one type make a method ambiguous that has overloads in two of them. -/
theorem methodOwner_ambiguous_parts :
    bareMethod.methodNames = ["A"] ∧ (tableOf overloadPartFiles {}).MethodsIn "A" 0 ∧
    ownerByMethod (SymbolGraph.ofFiles overloadPartFiles {}) bareMethod = .ambiguous := by
  have hparent : ∀ e ∈ (tableOf overloadPartFiles {}).entries.toList, e.kind = .method →
      ∃ p ∈ [0, 2], e.parent = some p := by decide +kernel
  have hlead : ∀ p ∈ [0, 2], (tableOf overloadPartFiles {}).leadPart p = 0 := by decide +kernel
  obtain ⟨a, ha, hmethod, hpart⟩ : (tableOf overloadPartFiles {}).Holds 1 fun e =>
      (e.kind = .method ∧ e.name = "A") ∧ e.parent = some 0 := by decide +kernel
  obtain ⟨b, hb, hmethod', hpart'⟩ : (tableOf overloadPartFiles {}).Holds 3 fun e =>
      (e.kind = .method ∧ e.name = "A") ∧ e.parent = some 2 := by decide +kernel
  have howns : (tableOf overloadPartFiles {}).Owns "A" 0 := ⟨1, a, ⟨ha, hmethod⟩, hpart⟩
  have howns' : (tableOf overloadPartFiles {}).Owns "A" 2 := ⟨3, b, ⟨hb, hmethod'⟩, hpart'⟩
  have hnames : bareMethod.methodNames = ["A"] := by decide +kernel
  refine ⟨hnames, ⟨⟨1, a, ha, hmethod⟩, fun i e he => ?_⟩, ?_⟩
  · obtain ⟨p, hp, heq⟩ := hparent e (Array.mem_toList_iff.mpr (Array.mem_of_getElem? he.1)) he.2.1
    exact ⟨p, heq, hlead p hp⟩
  · change firstOwner _ false bareMethod.methodNames = _
    rw [SymbolGraph.firstOwner_eq_ambiguous_iff (by decide +kernel) (by decide +kernel)
      (by decide +kernel) (by decide +kernel)
      ⟨by decide +kernel, SymbolGraph.numberedId_injective, by decide +kernel⟩, hnames]
    refine ⟨fun name hname p hsole => ?_, "A", List.mem_singleton_self _, 0, howns⟩
    obtain rfl := List.mem_singleton.mp hname
    exact absurd (((hsole 0).mp howns).trans ((hsole 2).mp howns').symm) (by decide)

end CodeAtlas
