import CodeAtlas.Proofs.Graph.Listing
import CodeAtlas.Proofs.Reference.Links

/-!
# The links of a graph

The links of a symbol are those that the walks found for its entry, less those that lead back to
itself. So what the walks may contribute decides what the links of a graph are.

## Main statements

* `SymbolGraph.links_typed`: every link of the graph of some files leads to a declaration of a kind
  that it may lead to, and to no part of the type that it comes from.
-/
namespace CodeAtlas

/-! ## Sets of links -/

@[grind →] theorem Link.eq_of_compare_eq {l m : Link} (h : l.compare m = .eq) : l = m := by
  obtain ⟨target, kind, start, length⟩ := l
  obtain ⟨target', kind', start', length'⟩ := m
  simp only [Link.compare, Ordering.then_eq_eq, Std.compare_eq_iff_eq] at h
  obtain ⟨rfl, hkind, rfl, rfl⟩ := h
  rw [LinkKind.rank_injective hkind]

@[simp] theorem LinkSet.mem_insert {l m : Link} {links : LinkSet} :
    m ∈ LinkSet.insert l links ↔ m = l ∨ m ∈ links := by
  induction links with
  | nil => simp [LinkSet.insert]
  | cons first rest ih =>
    unfold LinkSet.insert
    cases h : l.compare first with
    | lt => simp
    | eq => simp [Link.eq_of_compare_eq h]
    | gt =>
      simp only [List.mem_cons, ih]
      tauto

@[simp] theorem Symbol.mem_links_link {n : Symbol} {l m : Link} :
    m ∈ (n.link l).links ↔ m ∈ n.links ∨ m = l ∧ l.target ≠ n.id := by
  unfold Symbol.link
  split
  · next h => simp [h]
  · next h => simp [LinkSet.mem_insert, h, or_comm]

@[simp] theorem Symbol.id_link (n : Symbol) (l : Link) : (n.link l).id = n.id := by
  unfold Symbol.link
  split <;> rfl

@[simp] theorem Symbol.mem_links_foldl_link {ls : List Link} {n : Symbol} {m : Link} :
    m ∈ (ls.foldl Symbol.link n).links ↔ m ∈ n.links ∨ m ∈ ls ∧ m.target ≠ n.id := by
  induction ls generalizing n with
  | nil => simp
  | cons l ls ih =>
    rw [List.foldl_cons, ih, Symbol.mem_links_link, Symbol.id_link, List.mem_cons]
    constructor
    · rintro ((h | ⟨rfl, h⟩) | h)
      · exact .inl h
      · exact .inr ⟨.inl rfl, h⟩
      · exact .inr ⟨.inr h.1, h.2⟩
    · rintro (h | ⟨rfl | h, hne⟩)
      · exact .inl (.inl h)
      · exact .inl (.inr ⟨rfl, hne⟩)
      · exact .inr ⟨h, hne⟩

namespace SymbolGraph

variable {table : Table} {found : List (String × Contribution)} {l : Link} {i : Nat} {e : Entry}
  {ids : Nat → String}

@[simp] theorem mem_linksOf : l ∈ linksOf found i ↔ ∃ path, (path, .link i l) ∈ found := by
  simp only [linksOf, List.mem_filterMap, Prod.exists]
  constructor
  · rintro ⟨path, c, hc, h⟩
    cases c with
    | link source l' =>
      obtain ⟨rfl, rfl⟩ : source = i ∧ l' = l := by simpa using h
      exact ⟨path, hc⟩
    | implementation interface implementer => simp at h
    | granular kind name start length => simp at h
  · rintro ⟨path, h⟩
    exact ⟨path, _, h, by simp⟩

@[simp] theorem mem_links_declarationNode :
    l ∈ (declarationNode found i e).links ↔
      (∃ path, (path, .link i l) ∈ found) ∧ l.target ≠ e.id := by
  simp [declarationNode, Symbol.mem_links_foldl_link, mem_linksOf]

/-! ## The symbols of a graph -/

/-- A symbol that was inserted is there, or a later one with its id. -/
@[simp] theorem isSome_node?_foldl_insert {ns : List Symbol} {g : SymbolGraph} {id : String} :
    ((ns.foldl insert g).node? id).isSome ↔ (g.node? id).isSome ∨ id ∈ ns.map (·.id) := by
  induction ns generalizing g with
  | nil => simp
  | cons n ns ih =>
    rw [List.foldl_cons, ih, node?_insert, List.map_cons, List.mem_cons]
    split
    · next h => simp [h]
    · next h => simp [Ne.symm h]

@[grind →]
theorem mem_of_node?_foldl_insert {ns : List Symbol} {g : SymbolGraph} {id : String} {n : Symbol}
    (h : (ns.foldl insert g).node? id = some n) : g.node? id = some n ∨ n ∈ ns := by
  induction ns generalizing g with
  | nil => exact .inl h
  | cons m ns ih =>
    rcases ih h with h | h
    · rw [node?_insert] at h
      split at h
      · exact .inr (by simp [Option.some.inj h])
      · exact .inl h
    · exact .inr (List.mem_cons_of_mem _ h)

@[simp]
theorem node?_foldl_implement (pairs : List (String × String)) (g : SymbolGraph) (id : String) :
    (pairs.foldl (fun g (interface, type) => g.implement interface type) g).node? id =
      g.node? id := by
  induction pairs generalizing g with
  | nil => rfl
  | cons p pairs ih => exact ih _

theorem node?_assemble (id : String) :
    (assemble ids table found).node? id =
      ((symbolsOf ids table found).foldl insert empty).node? id :=
  node?_foldl_implement _ _ id

@[grind →] theorem mem_symbolsOf_of_node? {id : String} {n : Symbol}
    (h : (assemble ids table found).node? id = some n) : n ∈ symbolsOf ids table found := by
  rw [node?_assemble] at h
  rcases mem_of_node?_foldl_insert h with h | h
  · simp [empty, node?] at h
  · exact h

theorem isSome_node?_assemble (he : table.entries[i]? = some e) :
    ((assemble ids table found).node? e.id).isSome := by
  rw [node?_assemble, isSome_node?_foldl_insert, symbolsOf, List.map_append, map_id_declared]
  refine .inr (List.mem_append_left _ (List.mem_map.mpr ⟨e, ?_, rfl⟩))
  exact Array.mem_toList_iff.mpr (Array.mem_of_getElem? he)

/-- A symbol that has a link is that of an entry: granular symbols have none. -/
theorem exists_declarationNode_of_mem_links {n : Symbol} (h : n ∈ symbolsOf ids table found)
    (hl : l ∈ n.links) :
    ∃ i e, table.entries[i]? = some e ∧ n = declarationNode found i e := by
  rcases List.mem_append.mp h with h | h
  · obtain ⟨⟨i, e⟩, he, rfl⟩ := List.mem_map.mp h
    exact ⟨i, e, Table.mem_indexed.mp he, rfl⟩
  · obtain ⟨⟨⟨path, kind, name, start, length⟩, k⟩, -, rfl⟩ := List.mem_map.mp h
    simp at hl

end SymbolGraph

/-! ## The graph of some files -/

@[simp]
theorem Table.builtins_add (t : Table) (d : Declaration) : (t.add d).builtins = t.builtins := by
  unfold add
  dsimp only
  split <;> rfl

@[simp]
theorem Table.builtins_ofFiles (files : List (List Declaration)) (extraBuiltins : List String) :
    (ofFiles files extraBuiltins).builtins = predefinedNames ++ extraBuiltins :=
  ofFiles_induction (P := fun t => t.builtins = predefinedNames ++ extraBuiltins) files
    extraBuiltins rfl fun t _ _ _ _ _ h => (builtins_add t _).trans h

@[simp]
theorem mem_contributionsOf {files : List SourceFile} {options : IndexSettings} {table : Table}
    {path : String} {c : Contribution} :
    (path, c) ∈ contributionsOf files table options ↔
      ∃ f ∈ files, f.path = path ∧ c ∈ (f.reader table options).contributions f.tree := by
  simp only [contributionsOf, List.mem_flatMap, List.mem_map, Prod.mk.injEq]
  grind

/-- What some files contribute is contributed by a node that stands in one of them. -/
theorem exists_stands_of_mem_contributionsOf {files : List SourceFile} {options : IndexSettings}
    {table : Table} {path : String} {c : Contribution}
    (h : (path, c) ∈ contributionsOf files table options) :
    ∃ f ∈ files, f.path = path ∧ ∃ v, (f.reader table options).Stands f.tree v ∧
      (f.reader table options).Emits v.role v.place v.node c := by
  obtain ⟨f, hf, hpath, hc⟩ := mem_contributionsOf.mp h
  exact ⟨f, hf, hpath, Reader.exists_stands_of_mem_contributions hc⟩

@[grind →]
theorem permitted_of_mem_contributionsOf {files : List SourceFile} {options : IndexSettings}
    {table : Table} {path : String} {c : Contribution}
    (h : (path, c) ∈ contributionsOf files table options) : c.Permitted table := by
  obtain ⟨f, -, -, v, -, hemits⟩ := exists_stands_of_mem_contributionsOf h
  exact hemits.permitted

namespace SymbolGraph

variable {ids : Nat → String}

/-- A symbol of a declaration is that of an entry: granular symbols are no declarations. -/
theorem exists_declarationNode_of_isDeclaration {files : List SourceFile} {options : IndexSettings}
    {table : Table} {n : Symbol}
    (h : n ∈ symbolsOf ids table (contributionsOf files table options))
    (hkind : n.kind.isDeclaration = true) :
    ∃ i e, table.entries[i]? = some e ∧
      n = declarationNode (contributionsOf files table options) i e := by
  rcases List.mem_append.mp h with h | h
  · obtain ⟨⟨i, e⟩, he, rfl⟩ := List.mem_map.mp h
    exact ⟨i, e, Table.mem_indexed.mp he, rfl⟩
  · obtain ⟨hfound, -⟩ := exists_granular_of_mem h
    obtain ⟨_, _, _, _, _, hemits⟩ := exists_stands_of_mem_contributionsOf hfound
    have hgranular := hemits.of_granular.2.2
    rw [hkind] at hgranular
    cases hgranular

theorem exists_declarationNode_of_isType {files : List SourceFile} {options : IndexSettings}
    {table : Table} {n : Symbol}
    (h : n ∈ symbolsOf ids table (contributionsOf files table options))
    (htype : n.kind.isType = true) :
    ∃ i e, table.entries[i]? = some e ∧
      n = declarationNode (contributionsOf files table options) i e :=
  exists_declarationNode_of_isDeclaration h (SymbolKind.isDeclaration_of_isType htype)

/-- An entry is known by its id if ids are distinct. -/
theorem eq_of_id_eq {table : Table} {i j : Nat} {e f : Entry}
    (hids : (table.entries.toList.map Entry.id).Nodup)
    (he : table.entries[i]? = some e) (hf : table.entries[j]? = some f) (h : e.id = f.id) :
    i = j := by
  have hlt : i < (table.entries.toList.map Entry.id).length := by
    simpa using (Array.getElem?_eq_some_iff.mp he).1
  refine (List.getElem?_inj hlt hids).mp ?_
  simp [he, hf, h]

theorem declarationNode_mem_symbolsOf {table : Table} {i : Nat} {e : Entry}
    (found : List (String × Contribution)) (he : table.entries[i]? = some e) :
    declarationNode found i e ∈ symbolsOf ids table found :=
  List.mem_append_left _ (List.mem_map.mpr ⟨(i, e), Table.mem_indexed.mpr he, rfl⟩)

/-- Under the id of an entry the graph of `files` has the symbol of that entry, if ids tell symbols
apart. -/
theorem node?_ofFiles {files : List SourceFile} {options : IndexSettings} {i : Nat} {e : Entry}
    (hids : DistinctIds files options) (he : (tableOf files options).entries[i]? = some e) :
    (ofFiles files options).node? e.id =
      some (declarationNode (contributionsOf files (tableOf files options) options) i e) := by
  obtain ⟨g, hg, hholds⟩ := exists_holds_assemble hids.nodup_symbolsOf
  refine (congrArg (·.node? e.id) hg).trans ?_
  exact (hholds.node?_iff _ _).mpr ⟨declarationNode_mem_symbolsOf _ he, id_declarationNode _ i e⟩

/-- A link `l` of a symbol `n` of the graph leads from the declaration of `n` to another one, which
is no part of the same type and of a kind that the link may lead to. Under its id the graph has a
symbol, and that is the declaration's own if ids tell symbols apart. -/
theorem links_typed (files : List SourceFile) (options : IndexSettings) :
    let table := tableOf files options
    let found := contributionsOf files table options
    let g := ofFiles files options
    ∀ id n, g.node? id = some n → ∀ l ∈ n.links, ∃ i e j f,
      table.entries[i]? = some e ∧ n = declarationNode found i e ∧
      table.entries[j]? = some f ∧ l.target = f.id ∧ (g.node? l.target).isSome ∧
      f.id ≠ e.id ∧ table.leadPart i ≠ table.leadPart j ∧
      f.kind.isDeclaration = true ∧ l.kind.admits f.kind = true ∧
      (l.kind.namesType = true → f.name ∉ predefinedNames ∧ f.name ∉ options.extraBuiltins) ∧
      (DistinctIds files options →
        ∃ links, g.node? l.target =
          some ⟨f.id, f.name, f.kind, f.path, f.start, f.length, links⟩) := by
  intro table found g id n hn l hl
  obtain ⟨i, e, he, rfl⟩ := exists_declarationNode_of_mem_links (mem_symbolsOf_of_node? hn) hl
  obtain ⟨⟨path, hfound⟩, hself⟩ := mem_links_declarationNode.mp hl
  obtain ⟨j, ⟨f, hf, hadmits, hname⟩, hpart, f', hf', htarget⟩ :=
    permitted_of_mem_contributionsOf hfound
  obtain rfl : f = f' := by simpa [hf] using hf'
  rw [← htarget] at hself ⊢
  refine ⟨i, e, j, f, he, rfl, hf, rfl, isSome_node?_assemble hf, hself, hpart,
    LinkKind.isDeclaration_of_admits hadmits, hadmits, fun hnames => ?_, fun hids => ?_⟩
  · have hbuiltins := hname hnames
    rw [Table.isPredefined, tableOf, Table.builtins_ofFiles] at hbuiltins
    simpa using hbuiltins
  · obtain ⟨g', hg, hholds⟩ := exists_holds_assemble hids.nodup_symbolsOf
    have hmem : f ∈ table.entries.toList := Array.mem_toList_iff.mpr (Array.mem_of_getElem? hf)
    obtain ⟨links, hlinks⟩ := hholds.exists_node?_eq hmem
    exact ⟨links, (congrArg (·.node? f.id) hg).trans hlinks⟩

/-- A file with a class and another one that inherits from it. -/
def derivedFile : SourceFile where
  path := "a.cs"
  text := "class A \x7b \x7d class B : A \x7b \x7d"
  tree := .node { kind := "compilation_unit", length := 27 }
    [.ofClass 0 11 [],
      .node { kind := "class_declaration", start := 12, length := 15 }
        [.ofToken "class" 12, .ofLeaf "identifier" "name" 18 1,
          .node { kind := "base_list", start := 20, length := 3 }
            [.ofToken ":" 20, .node { kind := "identifier", start := 22, length := 1 } []],
          .node { kind := "declaration_list", label := some "body", start := 24, length := 3 }
            [.ofToken "\x7b" 24, .ofToken "\x7d" 26]]]

theorem links_typed_derivedFile :
    (ofFiles [derivedFile] {}).node? "B" =
      some ⟨"B", "B", .class, "a.cs", 12, 15, [⟨"A", .inherits, 22, 1⟩]⟩ ∧
    ∃ i e j f, (tableOf [derivedFile] {}).entries[i]? = some e ∧ e.id = "B" ∧
      (tableOf [derivedFile] {}).entries[j]? = some f ∧ f.id = "A" ∧ f.kind = .class ∧
      (tableOf [derivedFile] {}).leadPart i ≠ (tableOf [derivedFile] {}).leadPart j ∧
      f.name ∉ predefinedNames ∧
      ∃ links, (ofFiles [derivedFile] {}).node? "A" =
        some ⟨f.id, f.name, f.kind, f.path, f.start, f.length, links⟩ := by
  have hnode : (ofFiles [derivedFile] {}).node? "B" =
      some ⟨"B", "B", .class, "a.cs", 12, 15, [⟨"A", .inherits, 22, 1⟩]⟩ := by decide +kernel
  obtain ⟨i, e, j, f, he, hsource, hf, htarget, -, -, hparts, -, hadmits, hname, hown⟩ :=
    links_typed [derivedFile] {} "B" _ hnode ⟨"A", .inherits, 22, 1⟩ (by simp)
  obtain ⟨links, hlinks⟩ := exists_declarationNode_eq
    (contributionsOf [derivedFile] (tableOf [derivedFile] {}) {}) i e
  refine ⟨hnode, i, e, j, f, he, ?_, hf, htarget.symm, ?_, hparts, (hname rfl).1, ?_⟩
  · exact (congrArg Symbol.id (hsource.trans hlinks)).symm
  · simpa [LinkKind.admits] using hadmits
  · exact hown ⟨by decide +kernel, numberedId_injective, by decide +kernel⟩

end SymbolGraph

end CodeAtlas
