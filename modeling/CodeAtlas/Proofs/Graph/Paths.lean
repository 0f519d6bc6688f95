import CodeAtlas.Proofs.Graph.Enclosing
import CodeAtlas.Proofs.Project.Path

/-!
# Finding the symbols of a file

A file gets its symbols under the normal form of its path, and they are listed under the normal form
of that. So a path is normalized twice when the graph is built, but only once when the symbols of a
file are looked up. The symbols of a file are found under the path it was given with if and only if
normalizing again changes nothing.

## Main definitions

* `SymbolGraph.Lists`: the symbols of a graph are some of a list, and its files list them all.
* `SymbolGraph.Has`: a graph has a symbol under its id or in the list of a file.

## Main statements

* `SymbolGraph.lists_assemble`: the graph of a table lists the symbols of the table and those
  that were found, even if some have the same id.
* `SymbolGraph.symbols_found_by_path`: which paths are keys of the graph, and which symbols are
  found under them.
-/
namespace CodeAtlas.SymbolGraph

open Std

variable {g : SymbolGraph} {ns : List Symbol} {n : Symbol} {files : List SourceFile}
  {options : IndexSettings}

/-! ## Symbols of a graph -/

/-- What `g` has under an id is one of the symbols `ns`, and it lists each of them in its file. -/
structure Lists (g : SymbolGraph) (ns : List Symbol) : Prop where
  mem_of_node? : ∀ id n, g.node? id = some n → n ∈ ns
  mem_list_iff : ∀ key n, n ∈ (g.files[key]?).getD [] ↔ n ∈ ns ∧ Path.normalize n.path = key
  exists_of_mem_files : ∀ key, key ∈ g.files → ∃ n ∈ ns, Path.normalize n.path = key

theorem lists_empty : empty.Lists [] := by
  constructor <;> simp [empty, node?]

theorem Lists.insert (h : g.Lists ns) (n : Symbol) : (g.insert n).Lists (ns ++ [n]) where
  mem_of_node? id m hm := by
    rw [node?_insert] at hm
    split at hm
    · obtain rfl := Option.some.inj hm
      simp
    · exact List.mem_append_left _ (h.mem_of_node? id m hm)
  mem_list_iff key m := by
    rw [files_insert, List.mem_append, h.mem_list_iff, List.mem_append, List.mem_singleton]
    split
    · next hkey => grind
    · next hkey => grind
  exists_of_mem_files key hkey := by
    simp only [SymbolGraph.insert, TreeMap.mem_alter, Std.compare_eq_iff_eq] at hkey
    split at hkey
    · next heq => exact ⟨n, by simp, heq⟩
    · obtain ⟨m, hm, hpath⟩ := h.exists_of_mem_files key hkey
      exact ⟨m, List.mem_append_left _ hm, hpath⟩

theorem lists_foldl_insert {ms : List Symbol} (h : g.Lists ns) :
    (ms.foldl SymbolGraph.insert g).Lists (ns ++ ms) := by
  induction ms generalizing g ns with
  | nil => simpa using h
  | cons m ms ih =>
    rw [List.append_cons]
    exact ih (h.insert m)

theorem lists_foldl_implement (pairs : List (String × String)) (h : g.Lists ns) :
    (pairs.foldl (fun g (interface, type) => g.implement interface type) g).Lists ns := by
  induction pairs generalizing g with
  | nil => exact h
  | cons p pairs ih => exact ih ⟨h.mem_of_node?, h.mem_list_iff, h.exists_of_mem_files⟩

theorem Lists.arrange (h : g.Lists ns) : g.arrange.Lists ns where
  mem_of_node? := h.mem_of_node?
  mem_list_iff key n := by
    rw [← h.mem_list_iff, files_arrange]
    cases g.files[key]? <;> simp
  exists_of_mem_files key hkey := by
    apply h.exists_of_mem_files
    simpa [SymbolGraph.arrange] using hkey

/-- The graph of a table lists its symbols and those that were found. -/
theorem lists_assemble (ids : Nat → String) (table : Table)
    (found : List (String × Contribution)) :
    (assemble ids table found).Lists (symbolsOf ids table found) :=
  (lists_foldl_implement _ (lists_foldl_insert lists_empty)).arrange

/-- The graph has `n` under its id or in the list of a file. -/
def Has (g : SymbolGraph) (n : Symbol) : Prop :=
  g.node? n.id = some n ∨ ∃ key : String, n ∈ (g.files[key]?).getD []

theorem Lists.has_iff (h : g.Lists ns) : g.Has n ↔ n ∈ ns := by
  constructor
  · rintro (hnode | ⟨key, hlist⟩)
    · exact h.mem_of_node? _ _ hnode
    · exact ((h.mem_list_iff key n).mp hlist).1
  · exact fun hn => .inr ⟨_, (h.mem_list_iff _ n).mpr ⟨hn, rfl⟩⟩

/-! ## Symbols of a file -/

/-- Every symbol has the path of one of the files. -/
theorem exists_path_eq
    (h : n ∈ symbolsOf options.granularId (tableOf files options)
      (contributionsOf files (tableOf files options) options)) :
    ∃ f ∈ files, n.path = f.path := by
  rcases List.mem_append.mp h with h | h
  · obtain ⟨⟨i, e⟩, he, rfl⟩ := List.mem_map.mp h
    obtain ⟨pre, f, post, k, d, rfl, -, -, hpath, -⟩ :=
      exists_range_of_entry (Table.mem_indexed.mp he)
    exact ⟨f, by simp, by rw [path_declarationNode, hpath]⟩
  · obtain ⟨f, hf, hpath, -⟩ := mem_contributionsOf.mp (exists_granular_of_mem h).1
    exact ⟨f, hf, hpath.symm⟩

/-- Every declaration of a file has a symbol. -/
theorem exists_symbol_of_mem_declarations {f : SourceFile} {d : Declaration} (hf : f ∈ files)
    (hd : d ∈ f.declarations) (found : List (String × Contribution)) :
    ∃ n ∈ symbolsOf options.granularId (tableOf files options) found,
      n.path = f.path ∧ n.name = d.name ∧ n.kind = d.kind ∧ n.start = d.start ∧
        n.length = d.length := by
  obtain ⟨pre, post, rfl⟩ := List.append_of_mem hf
  obtain ⟨k, hk⟩ := List.mem_iff_getElem?.mp hd
  obtain ⟨e, he, heq⟩ := exists_entry_of_declaration rfl hk
  refine ⟨declarationNode found _ e,
    List.mem_append_left _ (List.mem_map.mpr ⟨(_, e), Table.mem_indexed.mpr he, rfl⟩), ?_⟩
  have hpath : e.path = d.path := (congrArg Declaration.path heq :)
  have hname : e.name = d.name := (congrArg Declaration.name heq :)
  have hkind : e.kind = d.kind := (congrArg Declaration.kind heq :)
  have hstart : e.start = d.start := (congrArg Declaration.start heq :)
  have hlength : e.length = d.length := (congrArg Declaration.length heq :)
  simp [hpath, hname, hkind, hstart, hlength, path_of_mem_declarations hd]

/-- A symbol is found under a path whose normal form is its own path if and only if normalizing that
path again changes nothing. -/
theorem Lists.mem_symbolsIn_iff {path : String} (h : g.Lists ns) (hn : n ∈ ns)
    (hpath : n.path = Path.normalize path) : n ∈ g.symbolsIn path ↔ Path.heres path ≤ 1 := by
  rw [symbolsIn, h.mem_list_iff, hpath, Path.normalize_normalize_iff]
  exact and_iff_right hn

/-- A normalized path has no backslash and no two slashes in a row. It starts with `./`, and
normalizing it again changes it, if and only if the path that was given starts with more than one
`./`. The keys of a graph are paths normalized twice. Every declaration of a text has a symbol in
the graph, and the symbols of the text are found under its path if and only if that path starts with
at most one `./`. -/
theorem symbols_found_by_path (grammar : Grammar) (sources : List (String × String))
    (options : IndexSettings) :
    let g := ofSources grammar sources options
    (∀ path, '\\' ∉ (Path.normalize path).toList ∧
      ¬ ['/', '/'] <:+: (Path.normalize path).toList ∧
      (['.', '/'] <+: (Path.normalize path).toList ↔ 1 < Path.heres path) ∧
      (Path.normalize (Path.normalize path) = Path.normalize path ↔ Path.heres path ≤ 1)) ∧
    (∀ key ∈ g.files, ∃ source ∈ sources, key = Path.normalize (Path.normalize source.1) ∧
      (Path.normalize key = key ↔ Path.heres source.1 ≤ 2)) ∧
    ∀ source ∈ sources,
      (∀ d ∈ (SourceFile.parse grammar source.1 source.2).declarations,
        ∃ n, g.Has n ∧ n.path = Path.normalize source.1 ∧ n.name = d.name ∧ n.kind = d.kind ∧
          n.start = d.start ∧ n.length = d.length) ∧
      ∀ n, g.Has n → n.path = Path.normalize source.1 →
        (n ∈ g.symbolsIn source.1 ↔ Path.heres source.1 ≤ 1) := by
  intro g
  have hlists : g.Lists _ := lists_assemble _ _ _
  refine ⟨fun path => ⟨Path.backslash_not_mem_normalize path,
    Path.slashes_not_isInfix_normalize path, Path.here_isPrefix_normalize_iff,
    Path.normalize_normalize_iff⟩, fun key hkey => ?_, fun source hsource => ⟨?_, ?_⟩⟩
  · obtain ⟨n, hn, rfl⟩ := hlists.exists_of_mem_files key hkey
    obtain ⟨f, hf, hpath⟩ := exists_path_eq hn
    obtain ⟨source, hsource, rfl⟩ := List.mem_map.mp hf
    refine ⟨source, hsource, by rw [hpath]; rfl, ?_⟩
    have hpath : n.path = Path.normalize source.1 := hpath
    rw [hpath, Path.normalize_normalize_iff, Path.heres_normalize]
    omega
  · intro d hd
    have hf := List.mem_map_of_mem (f := fun x => SourceFile.parse grammar x.1 x.2) hsource
    obtain ⟨n, hn, hdata⟩ := exists_symbol_of_mem_declarations hf hd _
    exact ⟨n, hlists.has_iff.mpr hn, hdata⟩
  · intro n hn hpath
    exact hlists.mem_symbolsIn_iff (hlists.has_iff.mp hn) hpath

/-- The graph of one class in a file at `path`. -/
def classGraph (path : String) : SymbolGraph :=
  ofSources (fun _ => .ofFile 11 []) [(path, "class A \x7b \x7d")] {}

/-- A class in a file whose path starts with one `./` is found. -/
theorem symbols_found_by_path_here :
    ∃ n ∈ (classGraph "./A.cs").symbolsIn "./A.cs", n.name = "A" ∧ n.path = "A.cs" := by
  obtain ⟨-, -, hsources⟩ :=
    symbols_found_by_path (fun _ => .ofFile 11 []) [("./A.cs", "class A \x7b \x7d")] {}
  obtain ⟨hdeclared, hfound⟩ := hsources ("./A.cs", "class A \x7b \x7d") (by simp)
  have hclass : ∃ d ∈ (SourceFile.parse (fun _ => .ofFile 11 []) "./A.cs"
      "class A \x7b \x7d").declarations, d.name = "A" := by
    decide +kernel
  obtain ⟨d, hd, hname⟩ := hclass
  obtain ⟨n, hn, hpath, hdname, -⟩ := hdeclared d hd
  exact ⟨n, (hfound n hn hpath).mpr (by decide +kernel), hdname.trans hname,
    hpath.trans (by decide +kernel)⟩

/-- A class in a file whose path starts with `./` twice is in the graph, but it is not found. -/
theorem symbolsIn_repeated_here :
    Path.normalize "././A.cs" = "./A.cs" ∧ Path.normalize "./A.cs" = "A.cs" ∧
      (∃ n, (classGraph "././A.cs").Has n ∧ n.name = "A" ∧ n.path = "./A.cs") ∧
      (classGraph "././A.cs").symbolsIn "././A.cs" = [] := by
  have hlists : (classGraph "././A.cs").Lists _ := lists_assemble _ _ _
  refine ⟨by decide +kernel, by decide +kernel, ?_,
    List.eq_nil_iff_forall_not_mem.mpr fun n hn => ?_⟩
  · have hclass : ∃ d ∈ (SourceFile.parse (fun _ => .ofFile 11 []) "././A.cs"
        "class A \x7b \x7d").declarations, d.name = "A" := by
      decide +kernel
    obtain ⟨d, hd, hname⟩ := hclass
    obtain ⟨n, hn, hpath, hdname, -⟩ :=
      exists_symbol_of_mem_declarations (List.mem_singleton_self _) hd _
    exact ⟨n, hlists.has_iff.mpr hn, hdname.trans hname, hpath.trans (by decide +kernel)⟩
  · obtain ⟨hmem, hkey⟩ := (hlists.mem_list_iff _ n).mp hn
    obtain ⟨f, hf, hpath⟩ := exists_path_eq hmem
    obtain rfl := List.mem_singleton.mp hf
    rw [hpath] at hkey
    exact absurd hkey (by decide +kernel)

end CodeAtlas.SymbolGraph
