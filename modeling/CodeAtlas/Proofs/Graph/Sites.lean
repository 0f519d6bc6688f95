import CodeAtlas.Proofs.Graph.Links

/-!
# Where the links of a graph stand

The walk finds the entry of a declaration by its file and its start. If no two files have the same
path and no two declarations of a file the same start, what it finds is the declaration that it
reads, so a link is attributed to a declaration around the place of the link.

## Main statements

* `SymbolGraph.exists_declaration_of_entry`: every entry is a declaration of one of the files.
* `SymbolGraph.holds_extent_of_at?`: an entry that is found by place stands where the node does.
* `SymbolGraph.sites_inside`: the symbols of the graph lie in their files, and their links in them.
-/
namespace CodeAtlas

/-- The declaration `d` without its base types, to which a table adds those of later parts. -/
def Declaration.baseless (d : Declaration) : Declaration :=
  { d with baseTypes := [] }

namespace SymbolGraph

variable {files : List SourceFile} {options : IndexSettings} {f : SourceFile} {i : Nat} {e : Entry}
  {n : Tree}

theorem orderly_tableOf (files : List SourceFile) (options : IndexSettings) :
    Orderly (tableOf files options).outline :=
  Table.orderly_ofFiles _ _

/-! ## Entries and declarations -/

/-- The number of declarations of the files `pre`. -/
def offsetAfter (pre : List SourceFile) : Nat :=
  (pre.flatMap (·.declarations)).length

/-- The entry at position `i` is the declaration at that position, where the files are joined one
after the other. -/
theorem map_entries_tableOf (files : List SourceFile) (options : IndexSettings) (i : Nat) :
    ((tableOf files options).entries[i]?).map (·.toDeclaration.baseless) =
      ((joined 0 (files.map (·.declarations)))[i]?).map Declaration.baseless :=
  Table.map_getElem?_entries _ _ Declaration.baseless (fun _ _ => rfl) i

/-- Every entry is a declaration of a file, but for its base types. -/
theorem exists_declaration_of_entry (h : (tableOf files options).entries[i]? = some e) :
    ∃ pre f post k d, files = pre ++ f :: post ∧ i = offsetAfter pre + k ∧
      f.declarations[k]? = some d ∧
      (d.shift (offsetAfter pre)).baseless = e.toDeclaration.baseless := by
  have hmap := map_entries_tableOf files options i
  rw [h, Option.map_some] at hmap
  obtain ⟨d', hd', heq⟩ := Option.map_eq_some_iff.mp hmap.symm
  obtain ⟨_, _, _, k, d, hfiles, hi, hd, rfl⟩ := getElem?_joined hd'
  obtain ⟨pre, rest, rfl, rfl, hrest⟩ := List.map_eq_append_iff.mp hfiles
  obtain ⟨f, post, rfl, rfl, rfl⟩ := List.map_eq_cons_iff.mp hrest
  rw [← List.flatMap_def] at hi heq
  rw [Nat.zero_add] at heq
  exact ⟨pre, f, post, k, d, rfl, hi, hd, heq⟩

/-- Every declaration of a file has an entry. -/
theorem exists_entry_of_declaration {pre post : List SourceFile} {k : Nat} {d : Declaration}
    (hfiles : files = pre ++ f :: post) (hd : f.declarations[k]? = some d) :
    ∃ e, (tableOf files options).entries[offsetAfter pre + k]? = some e ∧
      e.toDeclaration.baseless = (d.shift (offsetAfter pre)).baseless := by
  have hmap := map_entries_tableOf files options (offsetAfter pre + k)
  rw [hfiles, List.map_append, List.map_cons, offsetAfter, List.flatMap_def,
    getElem?_joined_of_file hd, Option.map_some] at hmap
  rw [hfiles, offsetAfter, List.flatMap_def]
  exact Option.map_eq_some_iff.mp hmap

/-- Every entry is declared by a node of a file. -/
theorem exists_node_of_entry (h : (tableOf files options).entries[i]? = some e) :
    ∃ f ∈ files, ∃ n ∈ f.tree.preorder, n.declares = true ∧
      n.extent f.path = e.toDeclaration.extent := by
  obtain ⟨pre, f, post, k, d, hfiles, -, hd, heq⟩ := exists_declaration_of_entry h
  obtain ⟨n, hn, hdeclares, hextent⟩ :=
    Tree.exists_node_of_mem_declarations (List.mem_of_getElem? hd)
  have hsame : d.extent = e.toDeclaration.extent := (congrArg Declaration.extent heq :)
  exact ⟨f, by simp [hfiles], n, hn, hdeclares, hextent.trans hsame⟩

/-- Files are told apart by their paths. -/
theorem eq_of_path_eq {f' : SourceFile} (hpaths : (files.map (·.path)).Nodup) (hf : f ∈ files)
    (hf' : f' ∈ files) (h : f.path = f'.path) : f = f' :=
  List.inj_on_of_nodup_map hpaths hf hf' h

/-- The entry that is found by the place of a declaring node stands where the node does. -/
theorem holds_extent_of_at? (hpaths : (files.map (·.path)).Nodup)
    (hstarts : ∀ f ∈ files, f.tree.StartsApart) (hf : f ∈ files) (hn : n ∈ f.tree.preorder)
    (hdeclares : n.declares = true) (hat : (tableOf files options).at? f.path n.start = some i) :
    (tableOf files options).Holds i (·.toDeclaration.extent = n.extent f.path) := by
  obtain ⟨e, he, hpath, hstart⟩ := Table.at?_eq_some hat
  obtain ⟨f', hf', m, hm, hdeclares', hextent⟩ := exists_node_of_entry he
  obtain rfl : f = f' := by
    refine eq_of_path_eq hpaths hf hf' (hpath.symm.trans ?_)
    exact (congrArg Extent.path hextent).symm
  obtain rfl : n = m := by
    refine (hstarts f hf).eq_of_start_eq hn hm hdeclares hdeclares' (hstart.symm.trans ?_)
    exact (congrArg Extent.start hextent).symm
  exact ⟨e, he, hextent.symm⟩

/-! ## Links and granular symbols -/

/-- A link that is found for an entry is a node inside it. -/
theorem exists_site_of_link (hpaths : (files.map (·.path)).Nodup)
    (htrees : ∀ f ∈ files, f.tree.Layered) (hstarts : ∀ f ∈ files, f.tree.StartsApart)
    (hf : f ∈ files) (he : (tableOf files options).entries[i]? = some e) (hpath : e.path = f.path)
    {path : String} {l : Link}
    (h : (path, .link i l) ∈ contributionsOf files (tableOf files options) options) :
    e.start ≤ l.start ∧ l.stop ≤ e.start + e.length ∧
      ∃ site ∈ f.tree.preorder, site.start = l.start ∧ site.length = l.length := by
  obtain ⟨f', hf', -, v, hstands, hemits⟩ := exists_stands_of_mem_contributionsOf h
  cases hemits with
  | @link _ target entry kind site node_eq entry_eq isTarget parts_ne site_mem base =>
    obtain ⟨n, hn, hdeclares, hat, hin⟩ := hstands.owner i node_eq
    obtain ⟨e', he', hextent⟩ := holds_extent_of_at? hpaths hstarts hf' hn hdeclares hat
    obtain rfl : e = e' := by simpa [he] using he'
    obtain rfl : f = f' :=
      eq_of_path_eq hpaths hf hf' (hpath.symm.trans (congrArg Extent.path hextent))
    have hstart : e.start = n.start := congrArg Extent.start hextent
    have hlength : e.length = n.length := congrArg Extent.length hextent
    have hsite : site ∈ n.preorder := Tree.mem_preorder_trans hin site_mem
    have hlayered : n.Layered := (htrees f hf).of_mem hn
    obtain ⟨hle, hstop⟩ := hlayered.start_le_of_mem hsite
    rw [hstart, hlength]
    exact ⟨hle, hstop, site, Tree.mem_preorder_trans hn hsite, rfl, rfl⟩

/-- Every symbol `n` of the graph of `files` lies in the text of its file, and its links are nodes
of that file inside `n`. -/
theorem sites_inside (files : List SourceFile) (options : IndexSettings)
    (hpaths : (files.map (·.path)).Nodup) (htrees : ∀ f ∈ files, f.tree.WellFormed f.text)
    (hstarts : ∀ f ∈ files, f.tree.StartsApart) :
    ∀ id n, (ofFiles files options).node? id = some n →
      ∃ f ∈ files, n.path = f.path ∧ n.stop ≤ f.text.utf8ByteSize ∧
        ∀ l ∈ n.links, n.start ≤ l.start ∧ l.stop ≤ n.stop ∧
          ∃ site ∈ f.tree.preorder, site.start = l.start ∧ site.length = l.length := by
  intro id n hn
  rcases List.mem_append.mp (mem_symbolsOf_of_node? hn) with hmem | hmem
  · obtain ⟨⟨i, e⟩, hie, rfl⟩ := List.mem_map.mp hmem
    have he := Table.mem_indexed.mp hie
    obtain ⟨f, hf, m, hm, -, hextent⟩ := exists_node_of_entry he
    have hpath : e.path = f.path := (congrArg Extent.path hextent).symm
    have hstop : e.start + e.length = m.stop := by
      have hstart : m.start = e.start := congrArg Extent.start hextent
      have hlength : m.length = e.length := congrArg Extent.length hextent
      rw [Tree.stop, hstart, hlength]
    refine ⟨f, hf, by simp [hpath], ?_, fun l hl => ?_⟩
    · simp only [Symbol.stop, start_declarationNode, length_declarationNode, hstop]
      exact ((htrees f hf).of_mem hm).isBoundary_stop.le
    · obtain ⟨⟨path, hfound⟩, -⟩ := mem_links_declarationNode.mp hl
      simpa [Symbol.stop] using exists_site_of_link hpaths (fun f hf => (htrees f hf).layered)
        hstarts hf he hpath hfound
  · obtain ⟨hfound, hlinks⟩ := exists_granular_of_mem hmem
    obtain ⟨f, hf, hpath, v, hstands, hemits⟩ := exists_stands_of_mem_contributionsOf hfound
    refine ⟨f, hf, hpath.symm, ?_, by simp [hlinks]⟩
    obtain ⟨hstart, hlength, -⟩ := hemits.of_granular
    rw [Symbol.stop, hstart, hlength]
    exact ((htrees f hf).of_mem hstands.mem_preorder).isBoundary_stop.le

/-- A class with a base and, in another file, a class with a method. -/
def baseAndMethodFiles : List SourceFile :=
  [derivedFile,
    { path := "b.cs"
      text := "class C \x7b void A(int n); \x7d"
      tree := .ofFile 26 [.ofOverload 10 3] }]

theorem sites_inside_baseAndMethodFiles :
    (baseAndMethodFiles.map (·.path)).Nodup ∧
    (ofFiles baseAndMethodFiles { granular := true }).node? "B" =
      some ⟨"B", "B", .class, "a.cs", 12, 15, [⟨"A", .inherits, 22, 1⟩]⟩ ∧
    ∃ f ∈ baseAndMethodFiles, "a.cs" = f.path ∧ 27 ≤ f.text.utf8ByteSize ∧
      ∃ site ∈ f.tree.preorder, site.start = 22 ∧ site.length = 1 := by
  have hpaths : (baseAndMethodFiles.map (·.path)).Nodup := by decide
  have hnode : (ofFiles baseAndMethodFiles { granular := true }).node? "B" =
      some ⟨"B", "B", .class, "a.cs", 12, 15, [⟨"A", .inherits, 22, 1⟩]⟩ := by decide +kernel
  obtain ⟨f, hf, hpath, hstop, hlinks⟩ := sites_inside baseAndMethodFiles { granular := true }
    hpaths (by decide +kernel) (by decide +kernel) "B" _ hnode
  obtain ⟨-, -, hsite⟩ := hlinks ⟨"A", .inherits, 22, 1⟩ (by simp)
  exact ⟨hpaths, hnode, f, hf, hpath, hstop, hsite⟩

end SymbolGraph

end CodeAtlas
