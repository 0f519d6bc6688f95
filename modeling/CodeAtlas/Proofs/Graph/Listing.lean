import CodeAtlas.Graph.Build
import CodeAtlas.Proofs.Declaration.Ids
import Mathlib.Data.List.Nodup

/-!
# What a graph lists

A graph holds the symbols that were inserted, by id and by file, if their ids are distinct: a symbol
that took the place of another one would be missing under its id but not in the list of its file.
The ids of declarations are distinct, so the graph of some files loses none of them. Granular
symbols get theirs from a supply, which has to be without repetitions and apart from them.

## Main definitions

* `SymbolGraph.Holds`: a graph holds some symbols.
* `SymbolGraph.Ordered`: the order of the symbols of a file.
* `SymbolGraph.symbolsOf`: the symbols of a project.
* `SymbolGraph.DistinctIds`: the symbols of a project are told apart by their ids.

## Main statements

* `SymbolGraph.holds_foldl_insert`: symbols with distinct ids are held.
* `SymbolGraph.declarations_listed`: the graph of some files has every declaration under an id of
  its own, and its lists are in order and agree with it.
-/
namespace CodeAtlas.SymbolGraph

open Std

variable {g : SymbolGraph} {ns : List Symbol} {n : Symbol} {id : String} {ids : Nat → String}

/-! ## Inserting symbols -/

@[simp] theorem node?_insert (g : SymbolGraph) (n : Symbol) (id : String) :
    (g.insert n).node? id = if n.id = id then some n else g.node? id := by
  simp [node?, insert, TreeMap.getElem?_insert]

@[simp] theorem files_insert (g : SymbolGraph) (n : Symbol) (key : String) :
    ((g.insert n).files[key]?).getD [] =
      (g.files[key]?).getD [] ++ if Path.normalize n.path = key then [n] else [] := by
  simp only [insert, TreeMap.getElem?_alter, Std.compare_eq_iff_eq]
  split
  · next heq => simp [heq]
  · simp

/-- The graph `g` holds the symbols `ns` by id and by file. -/
structure Holds (g : SymbolGraph) (ns : List Symbol) : Prop where
  node?_iff : ∀ id n, g.node? id = some n ↔ n ∈ ns ∧ n.id = id
  files_eq : ∀ key, (g.files[key]?).getD [] = ns.filter fun n => Path.normalize n.path == key

theorem holds_empty : empty.Holds [] := by
  constructor <;> simp [empty, node?]

theorem Holds.insert (h : g.Holds ns) (hn : n.id ∉ ns.map (·.id)) :
    (g.insert n).Holds (ns ++ [n]) := by
  refine ⟨fun id m => ?_, fun key => ?_⟩
  · rw [node?_insert, List.mem_append, List.mem_singleton]
    split
    · next heq =>
      -- no earlier symbol has this id
      subst heq
      constructor
      · intro hm
        obtain rfl := Option.some.inj hm
        exact ⟨.inr rfl, rfl⟩
      · rintro ⟨hm | rfl, hid⟩
        · exact absurd (List.mem_map.mpr ⟨m, hm, hid⟩) hn
        · rfl
    · next hne =>
      rw [h.node?_iff]
      constructor
      · exact fun hm => ⟨.inl hm.1, hm.2⟩
      · rintro ⟨hm | rfl, hid⟩
        · exact ⟨hm, hid⟩
        · exact absurd hid hne
  · rw [files_insert, h.files_eq, List.filter_append]
    congr 1
    split <;> simp [*]

/-- Symbols with distinct ids are all held. -/
theorem holds_foldl_insert {ms : List Symbol} (h : g.Holds ns)
    (hnodup : ((ns ++ ms).map (·.id)).Nodup) :
    (ms.foldl SymbolGraph.insert g).Holds (ns ++ ms) := by
  induction ms generalizing g ns with
  | nil => simpa using h
  | cons m ms ih =>
    have hm : m.id ∉ ns.map (·.id) := by
      rw [List.map_append, List.nodup_append] at hnodup
      exact fun hmem => hnodup.2.2 m.id hmem m.id (by simp) rfl
    rw [List.append_cons] at hnodup ⊢
    exact ih (h.insert hm) hnodup

theorem Holds.implement {interface implementer : String} (h : g.Holds ns) :
    (g.implement interface implementer).Holds ns :=
  ⟨h.node?_iff, h.files_eq⟩

theorem holds_foldl_implement (pairs : List (String × String)) (h : g.Holds ns) :
    (pairs.foldl (fun g (interface, type) => g.implement interface type) g).Holds ns := by
  induction pairs generalizing g with
  | nil => exact h
  | cons p pairs ih => exact ih h.implement

/-! ## Ordered lists -/

/-- The order of `a` and `b` in a list: by start, an outer symbol first. -/
def Ordered (a b : Symbol) : Prop :=
  a.start < b.start ∨ a.start = b.start ∧ b.length ≤ a.length

@[simp] theorem comesFirst_iff {a b : Symbol} : comesFirst a b = true ↔ Ordered a b := by
  simp [comesFirst, Ordered]

theorem pairwise_mergeSort_comesFirst (ns : List Symbol) :
    (ns.mergeSort comesFirst).Pairwise Ordered := by
  have htrans (a b c : Symbol) : comesFirst a b → comesFirst b c → comesFirst a c := by
    simp only [comesFirst_iff, Ordered]
    omega
  have htotal (a b : Symbol) : (comesFirst a b || comesFirst b a) = true := by
    simp only [Bool.or_eq_true, comesFirst_iff, Ordered]
    omega
  exact (List.pairwise_mergeSort htrans htotal ns).imp fun h => comesFirst_iff.mp h

@[simp] theorem files_arrange (g : SymbolGraph) (key : String) :
    (g.arrange.files)[key]? = (g.files[key]?).map (·.mergeSort comesFirst) := by
  simp [arrange, TreeMap.getElem?_map]

/-- A list of the graph after it was put in order. -/
theorem Holds.list_arrange {key : String} {list : List Symbol} (h : g.Holds ns)
    (hlist : g.arrange.files[key]? = some list) :
    list = (ns.filter fun n => Path.normalize n.path == key).mergeSort comesFirst := by
  rw [files_arrange] at hlist
  obtain ⟨unsorted, hunsorted, rfl⟩ := Option.map_eq_some_iff.mp hlist
  have := h.files_eq key
  rw [hunsorted, Option.getD_some] at this
  rw [this]

theorem Holds.mem_list_arrange_iff {key : String} {list : List Symbol} (h : g.Holds ns)
    (hlist : g.arrange.files[key]? = some list) :
    n ∈ list ↔ n ∈ ns ∧ Path.normalize n.path = key := by
  rw [h.list_arrange hlist, List.mem_mergeSort]
  simp

/-- A graph in order agrees with its lists: each symbol is in the list of its file once, and in no
other. -/
theorem Holds.arrange (h : g.Holds ns) (hnodup : (ns.map (·.id)).Nodup) :
    (∀ (key : String) (list : List Symbol), g.arrange.files[key]? = some list →
      list.Pairwise Ordered ∧ ∀ n ∈ list, g.arrange.node? n.id = some n) ∧
    ∀ id n, g.arrange.node? id = some n → n.id = id ∧
      ∃ list, g.arrange.files[Path.normalize n.path]? = some list ∧ list.count n = 1 ∧
        ∀ (key : String) (list' : List Symbol), g.arrange.files[key]? = some list' → n ∈ list' →
          key = Path.normalize n.path := by
  refine ⟨fun key list hlist => ⟨?_, fun n hn => ?_⟩, fun id n hn => ?_⟩
  · rw [h.list_arrange hlist]
    exact pairwise_mergeSort_comesFirst _
  · exact (h.node?_iff n.id n).mpr ⟨((h.mem_list_arrange_iff hlist).mp hn).1, rfl⟩
  · obtain ⟨hmem, hid⟩ := (h.node?_iff id n).mp hn
    have hfilter : n ∈ ns.filter fun m => Path.normalize m.path == Path.normalize n.path := by
      simp [hmem]
    obtain ⟨unsorted, hunsorted⟩ : ∃ unsorted, g.files[Path.normalize n.path]? = some unsorted := by
      rw [← h.files_eq] at hfilter
      cases hlist : g.files[Path.normalize n.path]? with
      | none => simp [hlist] at hfilter
      | some unsorted => exact ⟨unsorted, rfl⟩
    have hlist : g.arrange.files[Path.normalize n.path]? =
        some (unsorted.mergeSort comesFirst) := by
      rw [files_arrange, hunsorted]
      rfl
    refine ⟨hid, _, hlist, ?_, fun key list' hlist' hn' => ?_⟩
    · have hns : ns.Nodup := List.Nodup.of_map _ hnodup
      rw [h.list_arrange hlist, (List.mergeSort_perm _ _).count_eq]
      exact List.count_eq_one_of_mem (hns.filter _) hfilter
    · exact ((h.mem_list_arrange_iff hlist').mp hn').2.symm

/-! ## The symbols of a project -/

/-- Links change nothing but the links of a symbol. -/
theorem exists_foldl_link (ls : List Link) (n : Symbol) :
    ∃ links, ls.foldl Symbol.link n = { n with links } := by
  induction ls generalizing n with
  | nil => exact ⟨n.links, rfl⟩
  | cons l ls ih =>
    obtain ⟨links, hlinks⟩ := ih (n.link l)
    rw [List.foldl_cons, hlinks, Symbol.link]
    split
    · exact ⟨links, rfl⟩
    · exact ⟨links, rfl⟩

theorem exists_declarationNode_eq (found : List (String × Contribution)) (i : Nat) (e : Entry) :
    ∃ links, declarationNode found i e =
      ⟨e.id, e.name, e.kind, e.path, e.start, e.length, links⟩ :=
  exists_foldl_link _ _

section DeclarationNode

variable (found : List (String × Contribution)) (i : Nat) (e : Entry)

@[simp] theorem id_declarationNode : (declarationNode found i e).id = e.id := by
  obtain ⟨links, hlinks⟩ := exists_declarationNode_eq found i e
  rw [hlinks]

@[simp] theorem name_declarationNode : (declarationNode found i e).name = e.name := by
  obtain ⟨links, hlinks⟩ := exists_declarationNode_eq found i e
  rw [hlinks]

@[simp] theorem kind_declarationNode : (declarationNode found i e).kind = e.kind := by
  obtain ⟨links, hlinks⟩ := exists_declarationNode_eq found i e
  rw [hlinks]

@[simp] theorem path_declarationNode : (declarationNode found i e).path = e.path := by
  obtain ⟨links, hlinks⟩ := exists_declarationNode_eq found i e
  rw [hlinks]

@[simp] theorem start_declarationNode : (declarationNode found i e).start = e.start := by
  obtain ⟨links, hlinks⟩ := exists_declarationNode_eq found i e
  rw [hlinks]

@[simp] theorem length_declarationNode : (declarationNode found i e).length = e.length := by
  obtain ⟨links, hlinks⟩ := exists_declarationNode_eq found i e
  rw [hlinks]

end DeclarationNode

/-- A granular symbol is one that was found. -/
theorem exists_granular_of_mem {found : List (String × Contribution)}
    (h : n ∈ granularNodes ids found) :
    (n.path, .granular n.kind n.name n.start n.length) ∈ found ∧ n.links = [] := by
  obtain ⟨⟨⟨path, kind, name, start, length⟩, k⟩, hpart, rfl⟩ := List.mem_map.mp h
  obtain ⟨⟨path', c⟩, hc, heq⟩ := List.mem_filterMap.mp (List.fst_mem_of_mem_zipIdx hpart)
  cases c with
  | granular kind' name' start' length' =>
    obtain ⟨rfl, rfl, rfl, rfl, rfl⟩ : path' = path ∧ kind' = kind ∧ name' = name ∧
      start' = start ∧ length' = length := by simpa using heq
    exact ⟨hc, rfl⟩
  | link source l => simp at heq
  | implementation interface implementer => simp at heq

theorem numberedId_injective : Function.Injective numberedId :=
  fun _ _ h => toString_inj ((String.append_right_inj " ").mp h)

theorem nodup_granularNodes (hids : Function.Injective ids)
    (found : List (String × Contribution)) :
    ((granularNodes ids found).map Symbol.id).Nodup := by
  unfold granularNodes
  generalize found.filterMap _ = parts
  have hnumbers : (parts.zipIdx.map Prod.snd).Nodup := by
    rw [List.zipIdx_map_snd]
    exact List.nodup_range'
  rw [List.Nodup, List.pairwise_map] at hnumbers
  rw [List.map_map, List.Nodup, List.pairwise_map]
  exact hnumbers.imp fun hne heq => hne (hids heq)

theorem map_id_declared (table : Table) (found : List (String × Contribution)) :
    (table.indexed.map fun (i, e) => declarationNode found i e).map Symbol.id =
      table.entries.toList.map Entry.id := by
  have hid (x : Entry × Nat) : (declarationNode found x.2 x.1).id = x.1.id := by
    obtain ⟨links, hlinks⟩ := exists_declarationNode_eq found x.2 x.1
    rw [hlinks]
  calc (table.indexed.map fun (i, e) => declarationNode found i e).map Symbol.id
      = table.entries.toList.zipIdx.map fun x => (declarationNode found x.2 x.1).id := by
        rw [Table.indexed, List.map_map, List.map_map]
        rfl
    _ = table.entries.toList.zipIdx.map fun x => x.1.id := List.map_congr_left fun x _ => hid x
    _ = (table.entries.toList.zipIdx.map Prod.fst).map Entry.id := by
        rw [List.map_map]
        rfl
    _ = table.entries.toList.map Entry.id := by rw [List.zipIdx_map_fst]

/-- The symbols of `table` and the granular ones in `found`, with ids from the supply `ids`. -/
def symbolsOf (ids : Nat → String) (table : Table) (found : List (String × Contribution)) :
    List Symbol :=
  table.indexed.map (fun (i, e) => declarationNode found i e) ++ granularNodes ids found

theorem assemble_eq (ids : Nat → String) (table : Table) (found : List (String × Contribution)) :
    assemble ids table found = ((implementationsOf found).foldl
      (fun g (interface, type) => g.implement interface type)
      ((symbolsOf ids table found).foldl SymbolGraph.insert empty)).arrange :=
  rfl

/-- None of the granular symbols in `found`, with ids from the supply `ids`, has the id of an entry
of `table`. -/
def FreshIds (ids : Nat → String) (table : Table) (found : List (String × Contribution)) : Prop :=
  ∀ n ∈ granularNodes ids found, ∀ e ∈ table.entries.toList, n.id ≠ e.id

instance (ids : Nat → String) (table : Table) (found : List (String × Contribution)) :
    Decidable (FreshIds ids table found) :=
  inferInstanceAs (Decidable (∀ n ∈ granularNodes ids found, ∀ e ∈ table.entries.toList,
    n.id ≠ e.id))

/-- The symbols have distinct ids if the entries of the table do and the ids of granular symbols are
distinct and fresh. -/
theorem nodup_symbolsOf {table : Table} {found : List (String × Contribution)}
    (hnodup : (table.entries.toList.map Entry.id).Nodup) (hids : Function.Injective ids)
    (hfresh : FreshIds ids table found) : ((symbolsOf ids table found).map Symbol.id).Nodup := by
  rw [symbolsOf, List.map_append, map_id_declared, List.nodup_append]
  refine ⟨hnodup, nodup_granularNodes hids found, ?_⟩
  rintro id hid id' hid' rfl
  obtain ⟨e, he, rfl⟩ := List.mem_map.mp hid
  obtain ⟨n, hn, heq⟩ := List.mem_map.mp hid'
  exact hfresh n hn e he heq

/-- Before its lists are put in order, the graph of a table holds the symbols of the table and those
that were found. -/
theorem exists_holds_assemble {table : Table} {found : List (String × Contribution)}
    (hnodup : ((symbolsOf ids table found).map Symbol.id).Nodup) :
    ∃ g : SymbolGraph, assemble ids table found = g.arrange ∧
      g.Holds (symbolsOf ids table found) := by
  refine ⟨_, assemble_eq ids table found, holds_foldl_implement _ ?_⟩
  exact holds_foldl_insert holds_empty hnodup

/-- An entry of the table is a symbol of a graph that holds the symbols of the table. -/
theorem Holds.exists_node?_eq {table : Table} {found : List (String × Contribution)} {e : Entry}
    (h : g.Holds (symbolsOf ids table found)) (he : e ∈ table.entries.toList) :
    ∃ links, g.node? e.id =
      some ⟨e.id, e.name, e.kind, e.path, e.start, e.length, links⟩ := by
  obtain ⟨i, hi⟩ := List.mem_iff_getElem?.mp he
  have hmem : (i, e) ∈ table.indexed :=
    List.mem_map.mpr ⟨(e, i), List.mem_zipIdx_iff_getElem?.mpr hi, rfl⟩
  obtain ⟨links, hlinks⟩ := exists_declarationNode_eq found i e
  refine ⟨links, (h.node?_iff _ _).mpr ⟨List.mem_append_left _ ?_, rfl⟩⟩
  exact List.mem_map.mpr ⟨(i, e), hmem, hlinks⟩

/-- The ids of some files number the declarations with the same `baseId`. -/
theorem numbered_tableOf {files : List SourceFile} (options : IndexSettings)
    (hplain : ∀ f ∈ files, ∀ n ∈ f.tree.preorder, n.PlainNames f.text) :
    Numbered (tableOf files options).idPairs := by
  refine Table.numbered_ofFiles fun file hfile d hd => ?_
  obtain ⟨f, hf, rfl⟩ := List.mem_map.mp hfile
  exact Tree.plain_of_mem_declarations (hplain f hf) hd

/-- The declarations of some files have distinct ids. -/
theorem nodup_ids_tableOf {files : List SourceFile} (options : IndexSettings)
    (hplain : ∀ f ∈ files, ∀ n ∈ f.tree.preorder, n.PlainNames f.text) :
    ((tableOf files options).entries.toList.map Entry.id).Nodup := by
  have hnodup := (numbered_tableOf options hplain).nodup
  rwa [Table.idPairs, List.map_map] at hnodup

/-- The symbols of the graph of `files` are told apart by their ids: no declared name ends in an
ordinal, and the supply of ids for granular symbols has no repetitions and none of the ids of
declarations. -/
structure DistinctIds (files : List SourceFile) (options : IndexSettings) : Prop where
  plain : ∀ f ∈ files, ∀ n ∈ f.tree.preorder, n.PlainNames f.text
  injective : Function.Injective options.granularId
  fresh : FreshIds options.granularId (tableOf files options)
    (contributionsOf files (tableOf files options) options)

theorem DistinctIds.nodup_symbolsOf {files : List SourceFile} {options : IndexSettings}
    (h : DistinctIds files options) :
    ((symbolsOf options.granularId (tableOf files options)
      (contributionsOf files (tableOf files options) options)).map Symbol.id).Nodup :=
  SymbolGraph.nodup_symbolsOf (nodup_ids_tableOf options h.plain) h.injective h.fresh

/-- In the graph of `files` every declaration is a symbol under an id of its own. Every list of a
file is in order and lists symbols of the graph, each symbol in the list of its file once and in no
other. -/
theorem declarations_listed (files : List SourceFile) (options : IndexSettings)
    (hids : DistinctIds files options) :
    let table := tableOf files options
    let g := ofFiles files options
    (table.entries.toList.map (·.id)).Nodup ∧
    table.entries.toList.map (fun e => (e.segment, e.name, e.kind, e.path, e.start, e.length)) =
      (files.flatMap (·.declarations)).map
        (fun d => (d.segment, d.name, d.kind, d.path, d.start, d.length)) ∧
    (∀ e ∈ table.entries.toList, ∃ links,
      g.node? e.id = some ⟨e.id, e.name, e.kind, e.path, e.start, e.length, links⟩) ∧
    (∀ (key : String) (list : List Symbol), g.files[key]? = some list →
      list.Pairwise Ordered ∧ ∀ n ∈ list, g.node? n.id = some n) ∧
    ∀ id n, g.node? id = some n → n.id = id ∧
      ∃ list, g.files[Path.normalize n.path]? = some list ∧ list.count n = 1 ∧
        ∀ (key : String) (list' : List Symbol), g.files[key]? = some list' → n ∈ list' →
          key = Path.normalize n.path := by
  intro table g
  obtain ⟨g', hg, hholds⟩ := exists_holds_assemble hids.nodup_symbolsOf
  have hg : g = g'.arrange := hg
  obtain ⟨hlists, hnodes⟩ := hholds.arrange hids.nodup_symbolsOf
  refine ⟨nodup_ids_tableOf options hids.plain, ?_, fun e he => ?_, hg ▸ hlists, hg ▸ hnodes⟩
  · have := Table.map_entries_ofFiles (files.map (·.declarations)) options.extraBuiltins
      (fun d => (d.segment, d.name, d.kind, d.path, d.start, d.length)) (fun _ _ => rfl)
      fun _ _ => rfl
    rwa [← List.flatMap_def] at this
  · rw [hg]
    exact hholds.exists_node?_eq he

/-- Two files that declare the same class, and in it a method twice. -/
def repeatedFiles : List SourceFile :=
  ["a.cs", "b.cs"].map fun path =>
    { path
      text := "class C \x7b void A(int n); void A(int n); \x7d"
      tree := .ofFile 41 [.ofOverload 10 3, .ofOverload 25 3] }

theorem declarations_listed_repeatedFiles :
    (tableOf repeatedFiles {}).entries.toList.map (·.id) =
      ["C", "C.A(int)", "C.A(int)#2", "C#2", "C#2.A(int)", "C#2.A(int)#2"] ∧
    ((tableOf repeatedFiles {}).entries.toList.map (·.id)).Nodup := by
  have hids : DistinctIds repeatedFiles {} :=
    ⟨by decide +kernel, numberedId_injective, by decide +kernel⟩
  exact ⟨by decide +kernel, (declarations_listed repeatedFiles {} hids).1⟩

end CodeAtlas.SymbolGraph
