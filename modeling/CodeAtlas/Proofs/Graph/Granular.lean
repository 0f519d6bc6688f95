import CodeAtlas.Proofs.Declaration.Sites
import CodeAtlas.Proofs.Graph.Enclosing
import CodeAtlas.Proofs.Graph.Implementations
import CodeAtlas.Proofs.Reference.Granular

/-!
# Graphs with and without granular symbols

Granular symbols are added to a graph and change nothing else in it. Without them the walks find the
same links and implementations. The symbols of a file stay in the order that they have with the
granular ones left out, since the order of a file is a stable one.

## Main definitions

* `SymbolGraph.declarationsOnly`: a graph without the symbols that are not declarations.

## Main statements

* `filter_mergeSort`: leaving elements out before or after sorting is the same.
* `SymbolGraph.granular_separate`: the graph with granular symbols is, but for them, the graph
  without.
-/
namespace CodeAtlas

open Std

/-! ## Sorting a part of a list -/

section MergeSort

variable {α : Type*} {le : α → α → Bool}

/-- A list is cut in one way only into elements that fail a test and elements that pass it. -/
theorem append_inj_of_test {q : α → Bool} {xs xs' ys ys' : List α} (h : xs ++ xs' = ys ++ ys')
    (hxs : ∀ x ∈ xs, q x = false) (hys : ∀ y ∈ ys, q y = false) (hxs' : ∀ x ∈ xs', q x = true)
    (hys' : ∀ y ∈ ys', q y = true) : xs = ys ∧ xs' = ys' := by
  have hcut {xs xs' : List α} (hxs : ∀ x ∈ xs, q x = false) (hxs' : ∀ x ∈ xs', q x = true) :
      (xs ++ xs').filter (!q ·) = xs ∧ (xs ++ xs').filter q = xs' := by
    rw [List.filter_append, List.filter_append, List.filter_eq_self.mpr (by simpa using hxs),
      List.filter_eq_nil_iff.mpr (by simpa using hxs'), List.filter_eq_self.mpr hxs',
      List.filter_eq_nil_iff.mpr (by simpa using hxs)]
    simp
  obtain ⟨hfail, hpass⟩ := hcut hxs hxs'
  obtain ⟨hfail', hpass'⟩ := hcut hys hys'
  rw [h] at hfail hpass
  exact ⟨hfail.symm.trans hfail', hpass.symm.trans hpass'⟩

/-- Leaving elements out before or after sorting is the same: the sort is stable. -/
theorem filter_mergeSort (htrans : ∀ a b c, le a b = true → le b c = true → le a c = true)
    (htotal : ∀ a b, (le a b || le b a) = true) (p : α → Bool) (l : List α) :
    (l.mergeSort le).filter p = (l.filter p).mergeSort le := by
  induction l with
  | nil => simp
  | cons a l ih =>
    obtain ⟨l₁, l₂, hcons, hl, hl₁⟩ := List.mergeSort_cons htrans htotal a l
    have hsorted := List.pairwise_mergeSort htrans htotal (a :: l)
    rw [hcons, List.pairwise_append, List.pairwise_cons] at hsorted
    rw [hl, List.filter_append] at ih
    rw [hcons, List.filter_append]
    by_cases ha : p a = true
    · obtain ⟨m₁, m₂, hcons', hm, hm₁⟩ := List.mergeSort_cons htrans htotal a (l.filter p)
      have hsorted' := List.pairwise_mergeSort htrans htotal (a :: l.filter p)
      rw [hcons', List.pairwise_append, List.pairwise_cons] at hsorted'
      rw [List.filter_cons_of_pos ha, List.filter_cons_of_pos ha, hcons']
      -- in both lists `a` follows the elements that it must not stand before
      obtain ⟨hfirst, hlast⟩ := append_inj_of_test (q := le a) (ih.trans hm)
        (fun b hb => by simpa using hl₁ b (List.mem_filter.mp hb).1)
        (fun b hb => by simpa using hm₁ b hb)
        (fun b hb => hsorted.2.1.1 b (List.mem_filter.mp hb).1) hsorted'.2.1.1
      rw [hfirst, hlast]
    · rw [List.filter_cons_of_neg ha, List.filter_cons_of_neg ha]
      exact ih

end MergeSort

/-! ## What is found without granular symbols -/

/-- What was `found` besides granular symbols. -/
def foundWithoutGranular (found : List (String × Contribution)) : List (String × Contribution) :=
  found.filter (!·.2.isGranular)

theorem contributionsOf_coarse (files : List SourceFile) (table : Table)
    (options : IndexSettings) :
    contributionsOf files table { options with granular := false } =
      foundWithoutGranular (contributionsOf files table { options with granular := true }) := by
  rw [foundWithoutGranular, contributionsOf, contributionsOf, List.filter_flatMap]
  congr 1
  funext f
  have hcoarse : (f.reader table { options with granular := false }).contributions f.tree =
      withoutGranular ((f.reader table { options with granular := true }).contributions f.tree) :=
    Reader.contributions_coarse (f.reader table { options with granular := true }) f.tree
  rw [hcoarse, withoutGranular, List.filter_map]
  rfl

namespace SymbolGraph

variable {table : Table} {found : List (String × Contribution)} {ns ms : List Symbol}
  {g h : SymbolGraph} {n : Symbol} {id key : String} {ids : Nat → String}

@[simp] theorem linksOf_foundWithoutGranular (found : List (String × Contribution)) (i : Nat) :
    linksOf (foundWithoutGranular found) i = linksOf found i := by
  rw [linksOf, foundWithoutGranular, List.filterMap_filter, linksOf]
  refine List.filterMap_congr fun x _ => ?_
  obtain ⟨path, c⟩ := x
  cases c <;> rfl

@[simp] theorem implementationsOf_foundWithoutGranular (found : List (String × Contribution)) :
    implementationsOf (foundWithoutGranular found) = implementationsOf found := by
  rw [implementationsOf, foundWithoutGranular, List.filterMap_filter, implementationsOf]
  refine List.filterMap_congr fun x _ => ?_
  obtain ⟨path, c⟩ := x
  cases c <;> rfl

@[simp] theorem granularNodes_foundWithoutGranular (found : List (String × Contribution)) :
    granularNodes ids (foundWithoutGranular found) = [] := by
  refine List.eq_nil_iff_forall_not_mem.mpr fun n hn => ?_
  have hfound := (List.mem_filter.mp (exists_granular_of_mem hn).1).2
  simp [Contribution.isGranular] at hfound

/-- The symbols of the declarations of `table`. -/
def declaredOf (table : Table) (found : List (String × Contribution)) : List Symbol :=
  table.indexed.map fun (i, e) => declarationNode found i e

@[simp]
theorem symbolsOf_foundWithoutGranular (table : Table) (found : List (String × Contribution)) :
    symbolsOf ids table (foundWithoutGranular found) = declaredOf table found := by
  rw [symbolsOf, granularNodes_foundWithoutGranular, List.append_nil, declaredOf]
  simp only [declarationNode, linksOf_foundWithoutGranular]

/-! ## Leaving out granular symbols -/

/-- The graph `g` without the symbols that are not declarations, and without files that have no
others. -/
def declarationsOnly (g : SymbolGraph) : SymbolGraph where
  nodes := g.nodes.filter fun _ n => n.kind.isDeclaration
  files := g.files.filterMap fun _ list =>
    Option.guard (!·.isEmpty) (list.filter (·.kind.isDeclaration))
  implementations := g.implementations

@[simp] theorem node?_foldl_insert_of_notMem (hid : id ∉ ns.map (·.id)) :
    (ns.foldl insert g).node? id = g.node? id := by
  induction ns generalizing g with
  | nil => rfl
  | cons n ns ih =>
    rw [List.map_cons, List.mem_cons, not_or] at hid
    rw [List.foldl_cons, ih hid.2, node?_insert, if_neg (Ne.symm hid.1)]

/-- Symbols that are no declarations, inserted after declarations under ids of their own. -/
theorem node?_foldl_insert_append (hns : ∀ n ∈ ns, n.kind.isDeclaration = true)
    (hms : ∀ m ∈ ms, m.kind.isDeclaration = false) (hfresh : ∀ m ∈ ms, m.id ∉ ns.map (·.id)) :
    (((ns ++ ms).foldl insert empty).node? id).filter (·.kind.isDeclaration) =
      (ns.foldl insert empty).node? id := by
  have hempty : (empty.node? id) = none := by simp [empty, node?]
  rw [List.foldl_append]
  by_cases hid : id ∈ ms.map (·.id)
  · -- the symbol under this id is not a declaration
    obtain ⟨m, hm, rfl⟩ := List.mem_map.mp hid
    have hnone : (ns.foldl insert empty).node? m.id = none := by
      rw [node?_foldl_insert_of_notMem (hfresh m hm)]
      exact hempty
    rw [hnone, Option.filter_eq_none_iff]
    intro n hn
    rcases mem_of_node?_foldl_insert hn with hn | hn
    · simp [hnone] at hn
    · simp [hms n hn]
  · rw [node?_foldl_insert_of_notMem hid]
    cases hn : (ns.foldl insert empty).node? id with
    | none => rfl
    | some n =>
      rcases mem_of_node?_foldl_insert hn with hn | hn
      · simp [hempty] at hn
      · simp [hns n hn]

theorem isSome_files_foldl_insert (ns : List Symbol) (g : SymbolGraph) (key : String) :
    ((ns.foldl insert g).files[key]?).isSome ↔
      (g.files[key]?).isSome ∨ ∃ n ∈ ns, Path.normalize n.path = key := by
  induction ns generalizing g with
  | nil => simp
  | cons n ns ih =>
    rw [List.foldl_cons, ih, insert]
    simp only [TreeMap.getElem?_alter, Std.compare_eq_iff_eq]
    split
    · next heq => simp [heq]
    · next hne => simp [hne]

/-- A file is listed with its symbols if it has any. -/
theorem files_foldl_insert_empty (ns : List Symbol) (key : String) :
    (ns.foldl insert empty).files[key]? =
      Option.guard (!·.isEmpty) (ns.filter fun n => Path.normalize n.path == key) := by
  have hempty : (empty.files)[key]? = none := by simp [empty]
  have hlist := files_foldl_insert ns empty key
  have hsome := isSome_files_foldl_insert ns empty key
  rw [hempty] at hlist hsome
  cases hfile : (ns.foldl insert empty).files[key]? with
  | none =>
    have hnil : (ns.filter fun n => Path.normalize n.path == key) = [] := by
      rw [hfile] at hlist
      exact hlist.symm
    rw [hnil]
    rfl
  | some list =>
    rw [hfile] at hlist hsome
    obtain ⟨n, hn, heq⟩ : ∃ n ∈ ns, Path.normalize n.path = key := by simpa using hsome
    have hne : (ns.filter fun n => Path.normalize n.path == key) ≠ [] :=
      List.ne_nil_of_mem (List.mem_filter.mpr ⟨hn, by simp [heq]⟩)
    obtain rfl : list = ns.filter fun n => Path.normalize n.path == key := hlist
    simp [Option.guard, hne]

theorem files_assemble (key : String) : (assemble ids table found).files[key]? =
    (Option.guard (!·.isEmpty) ((symbolsOf ids table found).filter fun n =>
      Path.normalize n.path == key)).map (·.mergeSort comesFirst) := by
  rw [assemble_eq, files_arrange, files_foldl_implement]
  exact congrArg _ (files_foldl_insert_empty _ key)

theorem filter_mergeSort_comesFirst (p : Symbol → Bool) (ns : List Symbol) :
    (ns.mergeSort comesFirst).filter p = (ns.filter p).mergeSort comesFirst := by
  refine filter_mergeSort (fun a b c => ?_) (fun a b => ?_) p ns
  · simp only [comesFirst_iff, Ordered]
    omega
  · simp only [Bool.or_eq_true, comesFirst_iff, Ordered]
    omega

/-- The order of a file does not depend on the symbols that are left out. -/
theorem bind_guard_filter (p : Symbol → Bool) (ns : List Symbol) :
    ((Option.guard (!·.isEmpty) ns).map (·.mergeSort comesFirst)).bind
      (fun list => Option.guard (!·.isEmpty) (list.filter p)) =
    (Option.guard (!·.isEmpty) (ns.filter p)).map (·.mergeSort comesFirst) := by
  have hsort (ms : List Symbol) : Option.guard (!·.isEmpty) (ms.mergeSort comesFirst) =
      (Option.guard (!·.isEmpty) ms).map (·.mergeSort comesFirst) := by
    cases ms with
    | nil => simp [Option.guard]
    | cons m ms =>
      have hne : (m :: ms).mergeSort comesFirst ≠ [] :=
        List.ne_nil_of_mem (List.mem_mergeSort.mpr List.mem_cons_self)
      simp [Option.guard, hne]
  cases ns with
  | nil => simp [Option.guard]
  | cons n ns =>
    have hguard : Option.guard (!·.isEmpty) (n :: ns) = some (n :: ns) := rfl
    rw [hguard, Option.map_some, Option.bind_some, filter_mergeSort_comesFirst, hsort]

theorem implementations_foldl_implement (pairs : List (String × String))
    (heq : g.implementations = h.implementations) :
    (pairs.foldl (fun g (interface, type) => g.implement interface type) g).implementations =
      (pairs.foldl (fun g (interface, type) => g.implement interface type) h).implementations := by
  induction pairs generalizing g h with
  | nil => exact heq
  | cons p pairs ih =>
    refine ih ?_
    simp only [implement, heq]

theorem notMem_map_id_declaredOf
    (hfresh : FreshIds ids table found)
    (hn : n ∈ granularNodes ids found) : n.id ∉ (declaredOf table found).map (·.id) := by
  rw [declaredOf, map_id_declared]
  intro hid
  obtain ⟨e, he, heq⟩ := List.mem_map.mp hid
  exact hfresh n hn e he heq.symm

/-- The symbol under the id of an entry is that of a declaration. -/
theorem mem_declaredOf_of_node? {e : Entry}
    (hfresh : FreshIds ids table found)
    (he : e ∈ table.entries.toList) (hn : (assemble ids table found).node? e.id = some n) :
    n ∈ declaredOf table found := by
  have hid : e.id ∉ (granularNodes ids found).map (·.id) := by
    intro hid
    obtain ⟨m, hm, heq⟩ := List.mem_map.mp hid
    exact hfresh m hm e he heq
  rw [node?_assemble, symbolsOf, List.foldl_append, node?_foldl_insert_of_notMem hid] at hn
  rcases mem_of_node?_foldl_insert hn with hn | hn
  · simp [empty, node?] at hn
  · exact hn

section Assemble

variable (hdeclared : ∀ n ∈ declaredOf table found, n.kind.isDeclaration = true)
  (hgranular : ∀ n ∈ granularNodes ids found, n.kind.isDeclaration = false)
include hdeclared hgranular

theorem filter_symbolsOf :
    (symbolsOf ids table found).filter (·.kind.isDeclaration) = declaredOf table found := by
  have hnone : (granularNodes ids found).filter (·.kind.isDeclaration) = [] :=
    List.filter_eq_nil_iff.mpr (by simpa using hgranular)
  rw [symbolsOf, List.filter_append, hnone, List.append_nil]
  exact List.filter_eq_self.mpr hdeclared

theorem files_declarationsOnly_assemble : (assemble ids table found).declarationsOnly.files.Equiv
    (assemble ids table (foundWithoutGranular found)).files := by
  refine .of_forall_constGet?_eq fun key => ?_
  rw [declarationsOnly, TreeMap.getElem?_filterMap', files_assemble, files_assemble,
    bind_guard_filter, symbolsOf_foundWithoutGranular, List.filter_comm,
    filter_symbolsOf hdeclared hgranular]

theorem nodes_declarationsOnly_assemble
    (hfresh : FreshIds ids table found) :
    (assemble ids table found).declarationsOnly.nodes.Equiv
      (assemble ids table (foundWithoutGranular found)).nodes := by
  refine .of_forall_constGet?_eq fun id => ?_
  rw [declarationsOnly, TreeMap.getElem?_filter']
  calc ((assemble ids table found).node? id).filter (·.kind.isDeclaration)
      = (((declaredOf table found ++ granularNodes ids found).foldl insert empty).node? id).filter
          (·.kind.isDeclaration) := by rw [node?_assemble, symbolsOf, declaredOf]
    _ = ((declaredOf table found).foldl insert empty).node? id :=
        node?_foldl_insert_append hdeclared hgranular fun n hn =>
          notMem_map_id_declaredOf hfresh hn
    _ = (assemble ids table (foundWithoutGranular found)).node? id := by
        rw [node?_assemble, symbolsOf_foundWithoutGranular]

end Assemble

theorem implementations_assemble (table : Table) (found : List (String × Contribution)) :
    (assemble ids table found).implementations =
      (assemble ids table (foundWithoutGranular found)).implementations := by
  rw [assemble_eq, assemble_eq, implementationsOf_foundWithoutGranular]
  refine implementations_foldl_implement _ ?_
  rw [implementations_foldl_insert, implementations_foldl_insert]

/-! ## The graph of some files -/

@[grind →]
theorem isDeclaration_of_mem_declaredOf {files : List SourceFile} {options : IndexSettings}
    (hn : n ∈ declaredOf (tableOf files options) found) : n.kind.isDeclaration = true := by
  obtain ⟨⟨i, e⟩, he, rfl⟩ := List.mem_map.mp hn
  obtain ⟨pre, f, post, k, d, -, -, hd, heq⟩ :=
    exists_declaration_of_entry (Table.mem_indexed.mp he)
  have hkind : d.kind = e.kind := (congrArg Declaration.kind heq :)
  rw [kind_declarationNode, ← hkind]
  exact Tree.isDeclaration_of_mem_declarations (List.mem_of_getElem? hd)

@[grind →]
theorem isDeclaration_of_mem_granularNodes {files : List SourceFile} {options : IndexSettings}
    (hn : n ∈ granularNodes ids (contributionsOf files table options)) :
    n.kind.isDeclaration = false := by
  obtain ⟨f, -, -, v, -, hemits⟩ :=
    exists_stands_of_mem_contributionsOf (exists_granular_of_mem hn).1
  exact hemits.of_granular.2.2

/-- The links of the symbols of some files lead to entries. -/
theorem exists_entry_of_mem_links {files : List SourceFile} {options : IndexSettings} {l : Link}
    (hn : n ∈ symbolsOf ids table (contributionsOf files table options)) (hl : l ∈ n.links) :
    ∃ e ∈ table.entries.toList, l.target = e.id := by
  obtain ⟨i, e, -, rfl⟩ := exists_declarationNode_of_mem_links hn hl
  obtain ⟨⟨path, hfound⟩, -⟩ := mem_links_declarationNode.mp hl
  obtain ⟨j, -, -, f, hf, htarget⟩ := permitted_of_mem_contributionsOf hfound
  exact ⟨f, Array.mem_toList_iff.mpr (Array.mem_of_getElem? hf), htarget.symm⟩

/-- The graph of `files` with granular symbols is, but for them, the graph without: it has the same
declarations with the same links, lists them for each file in the same order and has the same
implementations. No granular symbol has a link, and no link leads to one. -/
theorem granular_separate (files : List SourceFile) (options : IndexSettings)
    (hfresh : FreshIds options.granularId (tableOf files options)
      (contributionsOf files (tableOf files options) { options with granular := true })) :
    let fine := ofFiles files { options with granular := true }
    let coarse := ofFiles files { options with granular := false }
    fine.declarationsOnly.nodes.Equiv coarse.nodes ∧
    fine.declarationsOnly.files.Equiv coarse.files ∧
    fine.declarationsOnly.implementations = coarse.implementations ∧
    ∀ id n, fine.node? id = some n → n.kind.isDeclaration = false → n.links = [] ∧
      ∀ id' m, fine.node? id' = some m → ∀ l ∈ m.links, l.target ≠ id := by
  intro fine coarse
  set table := tableOf files options
  set found := contributionsOf files table { options with granular := true }
  have hcoarse : coarse = assemble options.granularId table (foundWithoutGranular found) :=
    congrArg (assemble options.granularId table) (contributionsOf_coarse files table options)
  have hdeclared (n : Symbol) (hn : n ∈ declaredOf table found) : n.kind.isDeclaration = true :=
    isDeclaration_of_mem_declaredOf hn
  have hgranular (n : Symbol) (hn : n ∈ granularNodes options.granularId found) :
      n.kind.isDeclaration = false :=
    isDeclaration_of_mem_granularNodes hn
  rw [hcoarse]
  refine ⟨nodes_declarationsOnly_assemble hdeclared hgranular hfresh,
    files_declarationsOnly_assemble hdeclared hgranular, implementations_assemble table found,
    fun id n hn hkind => ⟨?_, fun id' m hm l hl heq => ?_⟩⟩
  · rcases List.mem_append.mp (mem_symbolsOf_of_node? hn) with hmem | hmem
    · simp [hdeclared n hmem] at hkind
    · exact (exists_granular_of_mem hmem).2
  · -- a link leads to an entry, and under its id there is a declaration
    obtain ⟨e, he, htarget⟩ := exists_entry_of_mem_links (mem_symbolsOf_of_node? hm) hl
    rw [← heq, htarget] at hn
    simp [hdeclared n (mem_declaredOf_of_node? hfresh he hn)] at hkind

theorem granular_separate_baseAndMethodFiles :
    (ofFiles baseAndMethodFiles { granular := true }).node? " 0" =
      some ⟨" 0", "n", .parameter, "b.cs", 17, 5, []⟩ ∧
    (ofFiles baseAndMethodFiles { granular := true }).node? "B" =
      some ⟨"B", "B", .class, "a.cs", 12, 15, [⟨"A", .inherits, 22, 1⟩]⟩ ∧
    (ofFiles baseAndMethodFiles { granular := true }).declarationsOnly.nodes.Equiv
      (ofFiles baseAndMethodFiles {}).nodes ∧
    (ofFiles baseAndMethodFiles { granular := true }).declarationsOnly.files.Equiv
      (ofFiles baseAndMethodFiles {}).files ∧
    "A" ≠ " 0" := by
  have hparameter : (ofFiles baseAndMethodFiles { granular := true }).node? " 0" =
      some ⟨" 0", "n", .parameter, "b.cs", 17, 5, []⟩ := by decide +kernel
  have hclass : (ofFiles baseAndMethodFiles { granular := true }).node? "B" =
      some ⟨"B", "B", .class, "a.cs", 12, 15, [⟨"A", .inherits, 22, 1⟩]⟩ := by decide +kernel
  obtain ⟨hnodes, hfiles, -, hlinks⟩ :=
    granular_separate baseAndMethodFiles {} (by decide +kernel)
  have hne := (hlinks " 0" _ hparameter rfl).2 "B" _ hclass ⟨"A", .inherits, 22, 1⟩ (by simp)
  exact ⟨hparameter, hclass, hnodes, hfiles, hne⟩

end SymbolGraph

end CodeAtlas
