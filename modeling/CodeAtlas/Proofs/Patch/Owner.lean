import CodeAtlas.Patch.Owner
import CodeAtlas.Proofs.Declaration.Parts
import CodeAtlas.Proofs.Declaration.SimpleNames
import CodeAtlas.Proofs.Graph.Links
import CodeAtlas.Proofs.Graph.Search
import CodeAtlas.Proofs.Patch.Matching

/-!
# The type that a fragment names

A fragment that names a type, by declaring it or by a constructor, belongs to the type of that name.
Types of one name count as one if their ids differ in the ordinal alone. The parts of a partial type
do, but so do unrelated types that are declared under one full name.

## Main definitions

* `Table.TypeNamed`: the types of a name.
* `Table.NamesDistinct`: a name of two types that are no parts of one type.
* `Table.NamesApart`: a name of two types with different unsuffixed ids.
* `NamesOwner`: the name by which a fragment asks for a type, and the answer.

## Main statements

* `withoutOrdinal_id`: an id without its ordinal is the unsuffixed id.
* `Table.namesApart_of_namesDistinct_iff`: when unsuffixed ids tell distinct types apart.
* `mem_typesNamed`: the symbols among which the type of a name is sought.
* `owner_ambiguous_iff`: a name is ambiguous if and only if types of different unsuffixed ids have
  it.
* `owner_found_distinct`: unrelated types of one full name are not told apart.
-/
namespace CodeAtlas

/-! ## Ids without ordinals -/

/-- What follows the last `#` of a list. -/
theorem reverse_takeWhile_reverse {front digits : List Char} (h : '#' ∉ digits) :
    ((front ++ '#' :: digits).reverse.takeWhile (· != '#')).reverse = digits := by
  have hall : ∀ c ∈ digits.reverse, (c != '#') = true := by
    intro c hc
    exact bne_iff_ne.mpr fun heq => h (heq ▸ List.mem_reverse.mp hc)
  rw [List.reverse_append, List.reverse_cons, List.append_assoc, List.takeWhile_append_of_pos hall]
  simp

@[simp] theorem withoutOrdinal_append (base : String) (n : Nat) :
    withoutOrdinal (base ++ "#" ++ toString n) = base := by
  have hlist : (base ++ "#" ++ toString n).toList = base.toList ++ '#' :: (toString n).toList := by
    rw [String.toList_append, String.toList_append, List.append_assoc]
    rfl
  have hlen : (base ++ "#" ++ toString n).length =
      base.toList.length + ((toString n).toList.length + 1) := by
    rw [← String.length_toList, hlist, List.length_append, List.length_cons]
  have hne : (toString n).toList.isEmpty = false := by
    rw [toList_toString]
    exact List.isEmpty_eq_false_iff.mpr Nat.toDigits_ne_nil
  have hall : (toString n).toList.all Char.isDigit = true :=
    List.all_eq_true.mpr fun c => isDigit_of_mem_toString
  unfold withoutOrdinal
  dsimp only
  rw [hlen, hlist, reverse_takeWhile_reverse (sharp_not_mem_toString n), hne, hall, if_pos]
  · rw [show base.toList.length + ((toString n).toList.length + 1) - (toString n).toList.length - 1
      = base.toList.length by omega, List.take_left, String.ofList_toList]
  · simp only [Bool.not_false, Bool.and_true, decide_eq_true_eq]
    omega

@[simp] theorem withoutOrdinal_of_not_endsInOrdinal {s : String} (h : ¬ EndsInOrdinal s) :
    withoutOrdinal s = s := by
  unfold withoutOrdinal
  dsimp only
  split
  · next hcond =>
    simp only [Bool.and_eq_true, decide_eq_true_eq, Bool.not_eq_true', List.isEmpty_eq_false_iff,
      List.all_eq_true] at hcond
    obtain ⟨⟨hlen, hne⟩, hall⟩ := hcond
    have hsplit := List.takeWhile_append_dropWhile (p := (· != '#')) (l := s.toList.reverse)
    have hhead := List.head?_dropWhile_not (· != '#') s.toList.reverse
    -- since the digits are not the whole text, a `#` stands in front of them
    cases hrest : s.toList.reverse.dropWhile (· != '#') with
    | nil =>
      rw [hrest, List.append_nil] at hsplit
      rw [hsplit, List.reverse_reverse, String.length_toList] at hlen
      exact absurd hlen (Nat.lt_irrefl _)
    | cons c front =>
      obtain rfl : c = '#' := by simpa [hrest] using hhead
      rw [hrest] at hsplit
      refine absurd ⟨front.reverse, _, ?_, hne, hall⟩ h
      have hlist := congrArg List.reverse hsplit
      rw [List.reverse_reverse, List.reverse_append, List.reverse_cons, List.append_assoc] at hlist
      exact hlist.symm
  · rfl

@[simp] theorem withoutOrdinal_ordinalId {base : String} (h : ¬ EndsInOrdinal base) (k : Nat) :
    withoutOrdinal (ordinalId base k) = base := by
  unfold ordinalId
  split
  · exact withoutOrdinal_of_not_endsInOrdinal h
  · exact withoutOrdinal_append base (k + 1)

/-! ## The types of a name -/

namespace SymbolGraph

variable {g : SymbolGraph} {n : Symbol} {name : String}

/-- The types among the symbols of `g` called `name`. -/
def typesNamed (g : SymbolGraph) (name : String) : List Symbol :=
  (g.named name none).filter (·.kind.isType)

@[simp] theorem mem_typesNamed_iff : n ∈ g.typesNamed name ↔
    (∃ id, g.node? id = some n) ∧ n.name = name ∧ n.kind.isType = true := by
  simp only [typesNamed, named, List.mem_filter, mem_values_iff, and_assoc]
  simp

end SymbolGraph

open SymbolGraph

theorem getD_find?_mem {p q : Symbol → Bool} {first : Symbol} {rest : List Symbol} :
    (((first :: rest).find? p <|> (first :: rest).find? q).getD first) ∈ first :: rest := by
  cases hp : (first :: rest).find? p with
  | some n => exact List.mem_of_find?_eq_some hp
  | none =>
    cases hq : (first :: rest).find? q with
    | some n => exact List.mem_of_find?_eq_some hq
    | none => exact List.mem_cons_self

/-- Without a type of the name nothing is found. Types whose ids differ in more than the ordinal are
ambiguous, and otherwise one of the types is found. -/
theorem ownerNamed_cases (g : SymbolGraph) (fragment : Fragment) (name : String) :
    ownerNamed g fragment name = .notFound ∧ g.typesNamed name = [] ∨
    ownerNamed g fragment name = .ambiguous ∧ (∃ m ∈ g.typesNamed name, ∃ n ∈ g.typesNamed name,
      withoutOrdinal m.id ≠ withoutOrdinal n.id) ∨
    ∃ n ∈ g.typesNamed name, ownerNamed g fragment name = .found (.ofNode n) ∧
      ∀ m ∈ g.typesNamed name, withoutOrdinal m.id = withoutOrdinal n.id := by
  unfold ownerNamed
  rw [← typesNamed]
  cases htypes : g.typesNamed name with
  | nil => exact .inl ⟨rfl, rfl⟩
  | cons first rest =>
    dsimp only
    split
    · next hany =>
      obtain ⟨m, hm, hne⟩ := List.any_eq_true.mp hany
      exact .inr (.inl ⟨rfl, m, hm, first, by simp, by simpa using hne⟩)
    · next hany =>
      have hroot : ∀ m ∈ first :: rest, withoutOrdinal m.id = withoutOrdinal first.id := by
        simpa using hany
      refine .inr (.inr ⟨_, ?_, rfl, fun m hm => ?_⟩)
      · exact getD_find?_mem
      · exact (hroot m hm).trans (hroot _ getD_find?_mem).symm

namespace Table

variable {t : Table} {files : List (List Declaration)} {extraBuiltins : List String} {name : String}

/-- The entry `e` at position `i` of `t` is a type called `name`. -/
def TypeNamed (t : Table) (name : String) (i : Nat) (e : Entry) : Prop :=
  t.entries[i]? = some e ∧ e.kind.isType = true ∧ e.name = name

/-- Two types of `t` are called `name` and are no parts of one type. -/
def NamesDistinct (t : Table) (name : String) : Prop :=
  ∃ i j a b, t.TypeNamed name i a ∧ t.TypeNamed name j b ∧ t.leadPart i ≠ t.leadPart j

/-- Two types of `t` are called `name` and have different unsuffixed ids. -/
def NamesApart (t : Table) (name : String) : Prop :=
  ∃ i j a b, t.TypeNamed name i a ∧ t.TypeNamed name j b ∧ a.baseId ≠ b.baseId

theorem NamesApart.namesDistinct (ht : t = ofFiles files extraBuiltins) (h : t.NamesApart name) :
    t.NamesDistinct name := by
  obtain ⟨i, j, a, b, ha, hb, hne⟩ := h
  exact ⟨i, j, a, b, ha, hb, fun hlead => hne (baseId_eq_of_leadPart_eq ht ha.1 hb.1 hlead)⟩

/-- Distinct types of a name are told apart by their unsuffixed ids if some are, or if any two types
of the name are partial and so is the first entry with their unsuffixed id. -/
theorem namesApart_of_namesDistinct_iff (ht : t = ofFiles files extraBuiltins) :
    (t.NamesDistinct name → t.NamesApart name) ↔
      t.NamesApart name ∨ ∀ i j a b, i ≠ j → t.TypeNamed name i a → t.TypeNamed name j b →
        a.isPartial = true ∧ (t.partialNamed? a.baseId).isSome = true := by
  constructor
  · intro happart
    by_cases h : t.NamesApart name
    · exact .inl h
    · refine .inr fun i j a b hne ha hb => ?_
      have hlead : t.leadPart i = t.leadPart j :=
        not_not.mp fun hlead => h (happart ⟨i, j, a, b, ha, hb, hlead⟩)
      obtain ⟨hpartial, -, -, hfirst⟩ := (leadPart_eq_iff ht hne ha.1 hb.1).mp hlead
      exact ⟨hpartial, hfirst⟩
  · rintro (h | hparts) ⟨i, j, a, b, ha, hb, hlead⟩
    · exact h
    · -- two partial types that are no parts of one type have different unsuffixed ids
      have hne : i ≠ j := fun heq => hlead (by rw [heq])
      obtain ⟨hpartial, hfirst⟩ := hparts i j a b hne ha hb
      obtain ⟨hpartial', -⟩ := hparts j i b a hne.symm hb ha
      refine ⟨i, j, a, b, ha, hb, fun hbase => hlead ?_⟩
      exact (leadPart_eq_iff ht hne ha.1 hb.1).mpr ⟨hpartial, hpartial', hbase, hfirst⟩

end Table

section Owner

variable {files : List SourceFile} {options : IndexSettings} {fragment : Fragment} {t : Table}
  {i : Nat} {e : Entry} {name : String} {answer : OwnerSearch}

/-- An id without its ordinal is the unsuffixed id if names are plain. -/
theorem withoutOrdinal_id (hplain : ∀ f ∈ files, ∀ n ∈ f.tree.preorder, n.PlainNames f.text)
    (he : (tableOf files options).entries[i]? = some e) : withoutOrdinal e.id = e.baseId := by
  have hmem : (e.baseId, e.id) ∈ (tableOf files options).idPairs :=
    List.mem_map.mpr ⟨e, Array.mem_toList_iff.mpr (Array.mem_of_getElem? he), rfl⟩
  have hbase := (numbered_tableOf options hplain).plain _ hmem
  rw [Table.id_ofFiles he]
  exact withoutOrdinal_ordinalId hbase _

/-- The types of a name are the symbols of the entries that are types of that name. -/
theorem mem_typesNamed {n : Symbol} (hids : DistinctIds files options) :
    n ∈ (SymbolGraph.ofFiles files options).typesNamed name ↔
      ∃ i e, (tableOf files options).TypeNamed name i e ∧
        n = declarationNode (contributionsOf files (tableOf files options) options) i e := by
  rw [mem_typesNamed_iff]
  constructor
  · rintro ⟨⟨id, hn⟩, hname, htype⟩
    obtain ⟨i, e, he, rfl⟩ := exists_declarationNode_of_isType (mem_symbolsOf_of_node? hn) htype
    exact ⟨i, e, ⟨he, by simpa using htype, by simpa using hname⟩, rfl⟩
  · rintro ⟨i, e, ⟨he, htype, hname⟩, rfl⟩
    exact ⟨⟨e.id, node?_ofFiles hids he⟩, by simpa using hname, by simpa using htype⟩

/-- What is found for a name in the graph of some files, by the entries that are types of it. -/
theorem ownerNamed_ofFiles_cases (files : List SourceFile) (options : IndexSettings)
    (fragment : Fragment) (name : String) (hids : DistinctIds files options)
    (ht : t = tableOf files options)
    (hanswer : answer = ownerNamed (SymbolGraph.ofFiles files options) fragment name) :
    answer = .notFound ∧ (∀ i e, ¬ t.TypeNamed name i e) ∨
    answer = .ambiguous ∧ t.NamesApart name ∨
    ∃ i e, t.TypeNamed name i e ∧ answer = .found ⟨e.id, e.name, e.path, e.start⟩ ∧
      ∀ j b, t.TypeNamed name j b → b.baseId = e.baseId := by
  subst ht hanswer
  rcases ownerNamed_cases (SymbolGraph.ofFiles files options) fragment name with
    ⟨hout, hnone⟩ | ⟨hout, m, hm, n, hn, hne⟩ | ⟨n, hn, hout, hall⟩
  · refine .inl ⟨hout, fun i e he => ?_⟩
    have := (mem_typesNamed hids).mpr ⟨i, e, he, rfl⟩
    simp [hnone] at this
  · obtain ⟨i, a, ha, rfl⟩ := (mem_typesNamed hids).mp hm
    obtain ⟨j, b, hb, rfl⟩ := (mem_typesNamed hids).mp hn
    refine .inr (.inl ⟨hout, i, j, a, b, ha, hb, ?_⟩)
    simpa [withoutOrdinal_id hids.plain ha.1, withoutOrdinal_id hids.plain hb.1] using hne
  · obtain ⟨i, e, he, rfl⟩ := (mem_typesNamed hids).mp hn
    refine .inr (.inr ⟨i, e, he, by simpa [Owner.ofNode] using hout, fun j b hb => ?_⟩)
    have := hall _ ((mem_typesNamed hids).mpr ⟨j, b, hb, rfl⟩)
    simpa [withoutOrdinal_id hids.plain he.1, withoutOrdinal_id hids.plain hb.1] using this

/-! ## Answers -/

/-- The `fragment` asks for the type of a name, because it declares the type or because its first
constructor is named after it, and this is the answer. -/
inductive NamesOwner (g : SymbolGraph) (fragment : Fragment) : String → OwnerSearch → Prop where
  | container {name : String} (h : fragment.container = some name) :
    NamesOwner g fragment name (ownerByContainer g fragment)
  | constructor {m : Member} (hbare : fragment.container = none)
    (h : fragment.members.find? (·.kind == .constructor) = some m) :
    NamesOwner g fragment m.name (ownerByConstructor g fragment)

theorem NamesOwner.eq_ownerNamed {g : SymbolGraph} (h : NamesOwner g fragment name answer) :
    answer = ownerNamed g fragment name := by
  cases h with
  | container h => simp [ownerByContainer, h]
  | constructor hbare h => simp [ownerByConstructor, hbare, h]

/-- The `answer` that a `fragment` gets which names a type. Nothing is found if and only if no type
is called `name`. The name is ambiguous if and only if types of different unsuffixed ids have it,
and these are no parts of one type. What is found is a type of the name. So the name of distinct
types need not be ambiguous: it has to be if and only if it is so by its ids, or any two types of
the name are partial and so is the first declaration with their unsuffixed id. -/
theorem owner_ambiguous_iff (files : List SourceFile) (options : IndexSettings)
    (fragment : Fragment) (hids : DistinctIds files options) (ht : t = tableOf files options)
    (hasks : NamesOwner (SymbolGraph.ofFiles files options) fragment name answer) :
    (answer = .notFound ↔ ∀ i e, ¬ t.TypeNamed name i e) ∧
    (answer = .ambiguous ↔ t.NamesApart name) ∧
    (∀ target, answer = .found target → ∃ i e, t.TypeNamed name i e ∧
      target = ⟨e.id, e.name, e.path, e.start⟩) ∧
    (answer = .ambiguous → t.NamesDistinct name) ∧
    ((t.NamesDistinct name → answer = .ambiguous) ↔
      answer = .ambiguous ∨ ∀ i j a b, i ≠ j → t.TypeNamed name i a → t.TypeNamed name j b →
        a.isPartial = true ∧ (t.partialNamed? a.baseId).isSome = true) := by
  have hcases :=
    ownerNamed_ofFiles_cases files options fragment name hids ht hasks.eq_ownerNamed
  have hambiguous : answer = .ambiguous ↔ t.NamesApart name := by
    rcases hcases with ⟨rfl, hnone⟩ | ⟨rfl, hapart⟩ | ⟨i, e, he, rfl, hall⟩
    · refine iff_of_false (by simp) ?_
      rintro ⟨i, j, a, b, ha, -⟩
      exact hnone i a ha
    · exact iff_of_true rfl hapart
    · refine iff_of_false (by simp) ?_
      rintro ⟨j, k, a, b, ha, hb, hne⟩
      exact hne ((hall j a ha).trans (hall k b hb).symm)
  rw [hambiguous]
  refine ⟨?_, Iff.rfl, ?_, fun h => h.namesDistinct ht, Table.namesApart_of_namesDistinct_iff ht⟩
  · rcases hcases with ⟨rfl, hnone⟩ | ⟨rfl, i, j, a, b, ha, -⟩ | ⟨i, e, he, rfl, -⟩
    · exact iff_of_true rfl hnone
    · exact iff_of_false (by simp) fun hnone => hnone i a ha
    · exact iff_of_false (by simp) fun hnone => hnone i e he
  · rintro target rfl
    rcases hcases with ⟨h, -⟩ | ⟨h, -⟩ | ⟨i, e, he, h, -⟩
    · cases h
    · cases h
    · exact ⟨i, e, he, by simpa using h⟩

end Owner

/-- Classes of one name in two namespaces. -/
def spaceFiles : List SourceFile :=
  [Table.spaceFile "A", Table.spaceFile "B"]

theorem owner_ambiguous_iff_spaceFiles :
    ownerByContainer (SymbolGraph.ofFiles spaceFiles {}) knownFirst = .ambiguous ∧
    (tableOf spaceFiles {}).NamesDistinct "C" := by
  obtain ⟨-, hambiguous, -, hdistinct, -⟩ := owner_ambiguous_iff spaceFiles {} knownFirst
    ⟨by decide +kernel, numberedId_injective, by decide +kernel⟩ rfl (.container rfl)
  obtain ⟨a, ha, htype, hbase⟩ : (tableOf spaceFiles {}).Holds 0 fun e =>
      (e.kind.isType = true ∧ e.name = "C") ∧ e.baseId = "A.C" := by decide +kernel
  obtain ⟨b, hb, htype', hbase'⟩ : (tableOf spaceFiles {}).Holds 1 fun e =>
      (e.kind.isType = true ∧ e.name = "C") ∧ e.baseId = "B.C" := by decide +kernel
  have hanswer := hambiguous.mpr ⟨0, 1, a, b, ⟨ha, htype⟩, ⟨hb, htype'⟩, by simp [hbase, hbase']⟩
  exact ⟨hanswer, hdistinct hanswer⟩

/-- A constructor `C()` without a class around it. -/
def bareConstructor : Fragment where
  source := Fragment.wrap "C() \x7b \x7d"
  tree := .node { kind := "compilation_unit", length := 35 }
    [.node { kind := "class_declaration", length := 34 }
      [.ofToken "class" 0, .ofLeaf "identifier" "name" 6 16,
        .node { kind := "declaration_list", label := some "body", start := 23, length := 11 }
          [.ofToken "\x7b" 23,
            .node { kind := "constructor_declaration", start := 25, length := 7 }
              [.ofLeaf "identifier" "name" 25 1,
                .node { kind := "parameter_list", label := some "parameters", start := 26,
                        length := 2 }
                  [.ofToken "(" 26, .ofToken ")" 27],
                .node { kind := "block", label := some "body", start := 29, length := 3 }
                  [.ofToken "\x7b" 29, .ofToken "\x7d" 31]],
            .ofToken "\x7d" 33]]]
  container := none

/-- Two classes that are not partial and have one full name are taken for parts of one type. -/
theorem owner_found_distinct :
    (tableOf repeatedFiles {}).NamesDistinct "C" ∧
    (∃ target, ownerByContainer (SymbolGraph.ofFiles repeatedFiles {}) knownFirst =
      .found target) ∧
    (bareConstructor.members.find? (·.kind == .constructor)).map (·.name) = some "C" ∧
    ∃ target, ownerByConstructor (SymbolGraph.ofFiles repeatedFiles {}) bareConstructor =
      .found target := by
  obtain ⟨a, ha, htype⟩ : (tableOf repeatedFiles {}).Holds 0 fun e =>
      e.kind.isType = true ∧ e.name = "C" := by decide +kernel
  obtain ⟨b, hb, htype'⟩ : (tableOf repeatedFiles {}).Holds 3 fun e =>
      e.kind.isType = true ∧ e.name = "C" := by decide +kernel
  have hbase : ∀ e ∈ (tableOf repeatedFiles {}).entries.toList, e.kind.isType = true →
      e.baseId = "C" := by decide +kernel
  have hall {i : Nat} {e : Entry} (h : (tableOf repeatedFiles {}).TypeNamed "C" i e) :
      e.baseId = "C" :=
    hbase e (Array.mem_toList_iff.mpr (Array.mem_of_getElem? h.1)) h.2.1
  have hfound (fragment : Fragment) : ∃ target,
      ownerNamed (SymbolGraph.ofFiles repeatedFiles {}) fragment "C" = .found target := by
    have hcases := ownerNamed_ofFiles_cases repeatedFiles {} fragment "C"
      ⟨by decide +kernel, numberedId_injective, by decide +kernel⟩ rfl rfl
    rcases hcases with ⟨-, hnone⟩ | ⟨-, i, j, c, d, hc, hd, hne⟩ | ⟨i, e, -, hanswer, -⟩
    · exact absurd ⟨ha, htype⟩ (hnone 0 a)
    · exact absurd ((hall hc).trans (hall hd).symm) hne
    · exact ⟨_, hanswer⟩
  have hname : (bareConstructor.members.find? (·.kind == .constructor)).map (·.name) =
      some "C" := by decide +kernel
  obtain ⟨m, hm, hmname⟩ := Option.map_eq_some_iff.mp hname
  refine ⟨⟨0, 3, a, b, ⟨ha, htype⟩, ⟨hb, htype'⟩, by decide +kernel⟩, ?_, hname, ?_⟩
  · rw [NamesOwner.eq_ownerNamed (.container rfl)]
    exact hfound knownFirst
  · rw [NamesOwner.eq_ownerNamed (.constructor rfl hm), hmname]
    exact hfound bareConstructor

end CodeAtlas
