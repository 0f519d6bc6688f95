import CodeAtlas.Proofs.Declaration.Ancestry
import CodeAtlas.Proofs.Declaration.Entries

/-!
# The members of a type

A member belongs to the first part of the type around it. That part is known when the member is
added to the table, since types stand before what they hold, whichever parts of the type are still
to come. The members of a type can therefore be noted down one by one. A member is looked up on a
type and then on its bases, nearest first; the first type that has an accepted member of the name
ends the search.

## Main definitions

* `TypesFirst`: types stand before what they hold.
* `Table.noted`: the members of a type as they are added.
* `Table.Offers`: a type has an accepted member of a name.

## Main statements

* `Tree.typesFirst_declarations`: types stand before what they hold in every file.
* `Table.membersOf_add`: adding a declaration adds it to the members of its owner.
* `Table.membersOf_ofFiles`: the members of a type are those that were noted down.
* `Table.nearestMembers_cases`: where a search for members ends.
* `Table.nearestMembers_exact`: what a search for members finds.
-/
namespace CodeAtlas

/-! ## The order of declarations -/

/-- In a list of declarations whose first one has the position `next`, types stand before what they
hold. -/
def TypesFirst (next : Nat) (ds : List Declaration) : Prop :=
  ∀ a ∈ ds.zipIdx next, ∀ p ∈ a.1.parent, p < a.2

instance (next : Nat) (ds : List Declaration) : Decidable (TypesFirst next ds) :=
  inferInstanceAs (Decidable (∀ a ∈ ds.zipIdx next, ∀ p ∈ a.1.parent, p < a.2))

section TypesFirst

variable {next : Nat} {d : Declaration} {ds ds' : List Declaration}

theorem typesFirst_nil (next : Nat) : TypesFirst next [] := by
  simp [TypesFirst]

@[simp] theorem typesFirst_cons :
    TypesFirst next (d :: ds) ↔ (∀ p ∈ d.parent, p < next) ∧ TypesFirst (next + 1) ds := by
  simp [TypesFirst]

@[simp] theorem typesFirst_append :
    TypesFirst next (ds ++ ds') ↔ TypesFirst next ds ∧ TypesFirst (next + ds.length) ds' := by
  simp only [TypesFirst, List.zipIdx_append, List.forall_mem_append]

theorem TypesFirst.shift {next : Nat} (offset : Nat) (h : TypesFirst next ds) :
    TypesFirst (next + offset) (ds.map (·.shift offset)) := by
  induction ds generalizing next with
  | nil => exact typesFirst_nil _
  | cons d ds ih =>
    obtain ⟨hd, hds⟩ := typesFirst_cons.mp h
    refine typesFirst_cons.mpr ⟨fun p hp => ?_, ?_⟩
    · obtain ⟨q, hq, rfl⟩ := Option.map_eq_some_iff.mp hp
      exact Nat.add_lt_add_right (hd q hq) offset
    · rw [Nat.add_right_comm]
      exact ih hds

theorem typesFirst_joined {files : List (List Declaration)} (h : ∀ file ∈ files, TypesFirst 0 file)
    (offset : Nat) : TypesFirst offset (joined offset files) := by
  induction files generalizing offset with
  | nil => exact typesFirst_nil _
  | cons file files ih =>
    obtain ⟨hfile, hfiles⟩ := List.forall_mem_cons.mp h
    refine typesFirst_append.mpr ⟨by simpa using hfile.shift offset, ?_⟩
    simpa using ih hfiles (offset + file.length)

end TypesFirst

namespace Tree

variable (source path : String)

@[grind →] theorem parent_of_ofMember? {t : Tree} {ns : String} {kind : MemberKind} {owner : Nat}
    {d : Declaration} (h : Declaration.ofMember? t source path ns kind owner = some d) :
    d.parent = some owner := by
  obtain ⟨name, -, h⟩ := Option.bind_eq_some_iff.mp h
  obtain ⟨signature, -, h⟩ := Option.bind_eq_some_iff.mp h
  obtain rfl := Option.some.inj h
  rfl

-- The type around a node has a position before the next one, also where a type passes its own down.
mutual

theorem typesFirst_declarationsAt : ∀ (t : Tree) (ns : String) {parent : Option Nat} {next : Nat},
    (∀ p ∈ parent, p < next) → TypesFirst next (declarationsAt source path ns parent next t)
  | node data cs, ns, parent, next, hparent => by
    unfold declarationsAt
    dsimp only
    split
    · exact typesFirst_declarationsOf _ _ _ hparent
    · split
      · split
        · exact typesFirst_nil _
        · refine typesFirst_cons.mpr ⟨hparent, typesFirst_declarationsOf _ _ _ ?_⟩
          simp
      · next owner _ _ =>
        split
        · exact typesFirst_nil _
        · cases hmember : Declaration.ofMember? (node data cs) source path ns _ owner with
          | none => exact typesFirst_nil _
          | some d =>
            refine typesFirst_cons.mpr ⟨?_, typesFirst_nil _⟩
            rwa [parent_of_ofMember? source path hmember]
      · exact typesFirst_nil _

theorem typesFirst_declarationsOf : ∀ (i : Option Nat) (cs : List Tree) (ns : String)
    {parent : Option Nat} {next : Nat}, (∀ p ∈ parent, p < next) →
    TypesFirst next (declarationsOf source path ns parent next i cs)
  | none, _, _, _, _, _ => by simp [declarationsOf, typesFirst_nil]
  | some _, [], _, _, _, _ => by simp [declarationsOf, typesFirst_nil]
  | some 0, node _ kids :: _, ns, _, _, hparent => by
    rw [declarationsOf]
    exact typesFirst_declarationsIn kids ns hparent
  | some (i + 1), _ :: cs, ns, _, _, hparent => by
    rw [declarationsOf]
    exact typesFirst_declarationsOf (some i) cs ns hparent

theorem typesFirst_declarationsIn : ∀ (cs : List Tree) (ns : String) {parent : Option Nat}
    {next : Nat}, (∀ p ∈ parent, p < next) →
    TypesFirst next (declarationsIn source path ns parent next cs)
  | [], _, _, _, _ => by simp [declarationsIn, typesFirst_nil]
  | node data kids :: cs, ns, parent, next, hparent => by
    have hlater (n : Nat) : ∀ p ∈ parent, p < next + n :=
      fun p hp => Nat.lt_add_right n (hparent p hp)
    rw [declarationsIn]
    split
    · exact typesFirst_declarationsIn cs ns hparent
    · split
      · exact typesFirst_append.mpr ⟨typesFirst_declarationsIn kids _ hparent,
          typesFirst_declarationsIn cs _ (hlater _)⟩
      · exact typesFirst_append.mpr ⟨typesFirst_declarationsAt _ ns hparent,
          typesFirst_declarationsIn cs ns (hlater _)⟩

end

/-- The type around a declaration stands before it in the list of its file. -/
theorem typesFirst_declarations (t : Tree) : TypesFirst 0 (t.declarations source path) :=
  typesFirst_declarationsIn source path _ _ (by simp)

end Tree

namespace Table

variable {t : Table} {d : Declaration} {ds : List Declaration} {m p type owner : Nat}
  {name : String} {accept : Entry → Bool}

/-! ## Members as they are added -/

theorem leadPart_eq (t : Table) (i : Nat) :
    t.leadPart i = ((t.outline[i]?).bind (·.firstPart)).getD i := by
  unfold leadPart outline
  rw [List.getElem?_map, Array.getElem?_toList]
  cases t.entries[i]? <;> rfl

@[simp] theorem length_outline (t : Table) : t.outline.length = t.size := by
  simp [outline, size]

/-- The first part of a type is settled when the type is added. -/
@[simp] theorem leadPart_add (hp : p < t.size) : (t.add d).leadPart p = t.leadPart p := by
  rw [leadPart_eq, leadPart_eq, outline_add, List.getElem?_append_left (by simpa using hp)]

@[simp] theorem size_add (t : Table) (d : Declaration) : (t.add d).size = t.size + 1 := by
  rw [← length_outline, outline_add]
  simp

theorem positions_eq_outline {q : Entry → Bool}
    (hq : ∀ e bases, q { e with baseTypes := bases } = q e) :
    t.positions q = (t.outline.zipIdx.filter fun a => q a.1).map (·.2) := by
  unfold positions indexed outline
  rw [List.zipIdx_map, List.filter_map, List.filter_map, List.map_map, List.map_map]
  simp [Function.comp_def, hq]

/-- Adding a declaration adds it to the members of the type around it, as the table has it before,
and leaves the members of other types alone. -/
theorem membersOf_add (hparents : ∀ e ∈ t.outline, ∀ p, e.parent = some p → p < t.size)
    (hd : ∀ p, d.parent = some p → p < t.size) :
    (t.add d).membersOf type =
      t.membersOf type ++ if d.parent.map t.leadPart = some type then [t.size] else [] := by
  have howner {e : Entry} (he : ∀ p, e.parent = some p → p < t.size) :
      (t.add d).owner? e = t.owner? e := by
    unfold owner?
    cases hparent : e.parent with
    | none => rfl
    | some p => simp [leadPart_add (he p hparent)]
  unfold membersOf
  rw [positions_eq_outline fun _ _ => rfl, positions_eq_outline fun _ _ => rfl, outline_add,
    List.zipIdx_append, List.filter_append, List.map_append]
  congr 1
  · refine congrArg (List.map _) (List.filter_congr fun a ha => ?_)
    rw [howner (hparents a.1 (List.fst_mem_of_mem_zipIdx ha))]
  · simp only [List.zipIdx_cons, List.zipIdx_nil, List.filter_cons, List.filter_nil]
    rw [howner hd]
    simp only [owner?, entryOf, beq_iff_eq, length_outline, Nat.zero_add]
    split <;> rfl

/-- The members of `type` as they are noted down while declarations are added to a table: each under
the first part of the type around it, as the table has it at that moment. -/
def noted (type : Nat) : Table → List Declaration → List Nat
  | _, [] => []
  | t, d :: ds =>
    (if d.parent.map t.leadPart = some type then [t.size] else []) ++ noted type (t.add d) ds

/-- The members of a type are noted down completely if types are added before what they hold. -/
theorem membersOf_foldl_add (hparents : ∀ e ∈ t.outline, ∀ p, e.parent = some p → p < t.size)
    (hds : TypesFirst t.size ds) :
    (ds.foldl add t).membersOf type = t.membersOf type ++ noted type t ds := by
  induction ds generalizing t with
  | nil => simp [noted]
  | cons d ds ih =>
    obtain ⟨hd, hds⟩ := typesFirst_cons.mp hds
    rw [List.foldl_cons, ih ?_ (by rwa [size_add]), membersOf_add hparents hd, noted,
      List.append_assoc]
    intro e he p hp
    rw [outline_add, List.mem_append, List.mem_singleton] at he
    rw [size_add]
    rcases he with he | rfl
    · exact Nat.lt_succ_of_lt (hparents e he p hp)
    · exact Nat.lt_succ_of_lt (hd p hp)

@[simp] theorem size_foldl_add (t : Table) (ds : List Declaration) :
    (ds.foldl add t).size = t.size + ds.length := by
  induction ds generalizing t with
  | nil => rfl
  | cons d ds ih =>
    rw [List.foldl_cons, ih, size_add, List.length_cons]
    omega

/-- The table of some files is the table of their declarations in one list. -/
theorem ofFiles_eq_foldl (files : List (List Declaration)) (extraBuiltins : List String) :
    ofFiles files extraBuiltins = (joined 0 files).foldl add (empty extraBuiltins) := by
  have hrun (t : Table) : files.foldl addFile t = (joined t.size files).foldl add t := by
    induction files generalizing t with
    | nil => rfl
    | cons file files ih =>
      have hfile : t.addFile file = (file.map (·.shift t.size)).foldl add t := by
        rw [List.foldl_map]
        rfl
      rw [List.foldl_cons, ih, hfile, size_foldl_add, joined, List.foldl_append, List.length_map]
  exact hrun (empty extraBuiltins)

/-- The members of a type are those that were noted down while the files were added. -/
theorem membersOf_ofFiles {files : List (List Declaration)} (extraBuiltins : List String)
    (hfiles : ∀ file ∈ files, TypesFirst 0 file) :
    (ofFiles files extraBuiltins).membersOf type =
      noted type (empty extraBuiltins) (joined 0 files) := by
  have hjoined : TypesFirst (empty extraBuiltins).size (joined 0 files) :=
    typesFirst_joined hfiles 0
  rw [ofFiles_eq_foldl, membersOf_foldl_add (by simp [outline, empty]) hjoined]
  rfl

/-! ## Looking members up -/

/-- The entry `m` belongs to the type `owner`, goes by the name and is accepted. -/
def Offers (t : Table) (owner : Nat) (name : String) (accept : Entry → Bool) (m : Nat) : Prop :=
  t.Holds m fun e => (∃ p, e.parent = some p ∧ t.leadPart p = owner) ∧ name ∈ e.names ∧
    accept e = true

@[simp]
theorem mem_membersNamed : m ∈ t.membersNamed owner name accept ↔ t.Offers owner name accept m := by
  rw [membersNamed, mem_select, membersOf, mem_positions]
  constructor
  · rintro ⟨⟨e, he, howner⟩, e', he', hnamed⟩
    obtain rfl := Option.some.inj (he.symm.trans he')
    exact ⟨e, he, by simpa [owner?] using howner, by simpa using hnamed⟩
  · rintro ⟨e, he, howner, hnamed⟩
    exact ⟨⟨e, he, by simpa [owner?] using howner⟩, e, he, by simpa using hnamed⟩

instance (t : Table) (owner : Nat) (name : String) (accept : Entry → Bool) (m : Nat) :
    Decidable (t.Offers owner name accept m) :=
  decidable_of_iff _ mem_membersNamed

@[simp] theorem membersNamed_eq_nil :
    t.membersNamed owner name accept = [] ↔ ∀ m, ¬ t.Offers owner name accept m := by
  simp only [List.eq_nil_iff_forall_not_mem, mem_membersNamed]

/-- A search finds nothing if no type of the chain has a member that it accepts, and else the
members of the first type that has one. -/
theorem nearestMembers_cases (t : Table) (type : Nat) (name : String) (accept : Entry → Bool) :
    (t.nearestMembers type name accept = [] ∧
      ∀ owner ∈ t.ancestry type, ∀ m, ¬ t.Offers owner name accept m) ∨
    ∃ pre owner post, t.ancestry type = pre ++ owner :: post ∧
      t.nearestMembers type name accept = t.membersNamed owner name accept ∧
      (∃ m, t.Offers owner name accept m) ∧
      ∀ nearer ∈ pre, ∀ m, ¬ t.Offers nearer name accept m := by
  unfold nearestMembers
  simp only [← membersNamed_eq_nil]
  generalize t.ancestry type = chain
  induction chain with
  | nil => simp
  | cons owner chain ih =>
    by_cases hnone : t.membersNamed owner name accept = []
    · rw [List.map_cons, List.find?_cons_of_neg (by simp [hnone])]
      rcases ih with ⟨hnil, hchain⟩ | ⟨pre, next, post, rfl, hfound, hsome, hpre⟩
      · exact .inl ⟨hnil, List.forall_mem_cons.mpr ⟨hnone, hchain⟩⟩
      · exact .inr ⟨owner :: pre, next, post, rfl, hfound, hsome,
          List.forall_mem_cons.mpr ⟨hnone, hpre⟩⟩
    · rw [List.map_cons, List.find?_cons_of_pos (by simpa using hnone)]
      obtain ⟨m, hm⟩ := List.exists_mem_of_ne_nil _ hnone
      exact .inr ⟨[], owner, chain, rfl, rfl, ⟨m, mem_membersNamed.mp hm⟩, by simp⟩

/-- A search finds every accepted member of the type that it starts from. -/
theorem mem_nearestMembers_of_offers (h : t.Offers (t.leadPart type) name accept m) :
    m ∈ t.nearestMembers type name accept := by
  have hhead := head?_ancestry t type
  rcases nearestMembers_cases t type name accept with
      ⟨-, hnone⟩ | ⟨pre, owner, post, hchain, hfound, -, hpre⟩
  · exact absurd h (hnone _ (List.mem_of_head? hhead) m)
  · cases pre with
    | nil =>
      rw [hchain] at hhead
      obtain rfl : owner = t.leadPart type := Option.some.inj hhead
      rw [hfound]
      exact mem_membersNamed.mpr h
    | cons nearer pre =>
      rw [hchain] at hhead
      obtain rfl : nearer = t.leadPart type := Option.some.inj hhead
      exact absurd h (hpre _ List.mem_cons_self m)

/-- What a search for members finds in the table `t` of `files`. In a file, types stand before what
they hold. The members of a type, on which the search rests, are therefore those that were noted
down under its first part while the files were added. Each declaration inside a type is found by
each of its names from every part of the type. A search finds the members of one type of the chain
that `accept` holds of, all of them, if no nearer type has one, and nothing only if no type of the
chain has one. -/
theorem nearestMembers_exact {files : List (List Declaration)} {extraBuiltins : List String}
    (ht : t = ofFiles files extraBuiltins) :
    (∀ (tree : Tree) (source path : String), TypesFirst 0 (tree.declarations source path)) ∧
    ((∀ file ∈ files, TypesFirst 0 file) →
      ∀ type, t.membersOf type = noted type (empty extraBuiltins) (joined 0 files)) ∧
    (∀ (m p part : Nat) (e : Entry), t.entries[m]? = some e → e.parent = some p →
      t.leadPart part = t.leadPart p →
      ∀ name ∈ e.names, m ∈ t.nearestMembers part name fun _ => true) ∧
    ∀ (type : Nat) (name : String) (accept : Entry → Bool),
      (t.nearestMembers type name accept = [] →
        ∀ owner ∈ t.ancestry type, ∀ m, ¬ t.Offers owner name accept m) ∧
      (t.nearestMembers type name accept ≠ [] →
        ∃ pre owner post, t.ancestry type = pre ++ owner :: post ∧
          (∀ m, m ∈ t.nearestMembers type name accept ↔ t.Offers owner name accept m) ∧
          ∀ nearer ∈ pre, ∀ m, ¬ t.Offers nearer name accept m) := by
  refine ⟨fun tree source path => tree.typesFirst_declarations source path, ?_, ?_, ?_⟩
  · intro hfiles type
    rw [ht, membersOf_ofFiles extraBuiltins hfiles]
  · intro m p part e he hparent hpart name hname
    exact mem_nearestMembers_of_offers ⟨e, he, ⟨p, hparent, hpart.symm⟩, hname, rfl⟩
  · intro type name accept
    rcases nearestMembers_cases t type name accept with
      ⟨hnil, hnone⟩ | ⟨pre, owner, post, hchain, hfound, ⟨m, hm⟩, hpre⟩
    · exact ⟨fun _ => hnone, fun hne => absurd hnil hne⟩
    · have hmem : m ∈ t.nearestMembers type name accept := hfound ▸ mem_membersNamed.mpr hm
      refine ⟨fun hnil => absurd hmem (by simp [hnil]), fun _ => ?_⟩
      exact ⟨pre, owner, post, hchain, fun k => by rw [hfound, mem_membersNamed], hpre⟩

/-- The declaration of a method `name` that takes nothing, inside the type at position `parent` of
its file. -/
def plainMethod (name : String) (parent : Nat) : Declaration where
  segment := name ++ "()"
  name := name
  names := [name]
  kind := .method
  memberKind := some .method
  path := "a.cs"
  start := 0
  length := 0
  «namespace» := ""
  parent := some parent
  valueType := none
  baseTypes := []
  paramCount := 0
  isPartial := false

/-- A class in two parts, of which the second has a base and a method, and the base with a method of
the same name and another one. -/
def partFiles : List (List Declaration) :=
  [[plainClass "A" [] true], [plainClass "A" ["B"] true, plainMethod "M" 0],
    [plainClass "B" [] false, plainMethod "M" 0, plainMethod "N" 0]]

theorem nearestMembers_exact_parts :
    noted 0 (empty []) (joined 0 partFiles) = [2] ∧
    2 ∈ (ofFiles partFiles []).nearestMembers 0 "M" (fun _ => true) ∧
    (ofFiles partFiles []).nearestMembers 1 "N" (fun _ => true) = [5] ∧
    ∃ pre owner post, [0, 3] = pre ++ owner :: post ∧
      (ofFiles partFiles []).Offers owner "N" (fun _ => true) 5 ∧
      ∀ nearer ∈ pre, ¬ (ofFiles partFiles []).Offers nearer "N" (fun _ => true) 5 := by
  obtain ⟨-, hnoted, hparts, hnearest⟩ :=
    nearestMembers_exact (t := ofFiles partFiles []) rfl
  have hmembers : (ofFiles partFiles []).membersOf 0 = [2] := by decide +kernel
  have hchain : (ofFiles partFiles []).ancestry 1 = [0, 3] := by decide +kernel
  have hfound : (ofFiles partFiles []).nearestMembers 1 "N" (fun _ => true) = [5] := by
    decide +kernel
  have hentry : ((ofFiles partFiles []).entries[2]?).map (fun e => (e.parent, e.names)) =
      some (some 1, ["M"]) := by decide +kernel
  obtain ⟨e, he, hparts'⟩ := Option.map_eq_some_iff.mp hentry
  obtain ⟨hparent, hnames⟩ := Prod.mk.inj hparts'
  obtain ⟨pre, owner, post, heq, hmem, hpre⟩ := (hnearest 1 "N" fun _ => true).2 (by simp [hfound])
  refine ⟨?_, ?_, hfound, pre, owner, post, hchain ▸ heq, (hmem 5).mp (by simp [hfound]),
    fun nearer hnearer => hpre nearer hnearer 5⟩
  · rw [← hnoted (by decide), hmembers]
  · exact hparts 2 1 0 e he hparent (by decide +kernel) "M" (by simp [hnames])

end Table

end CodeAtlas
