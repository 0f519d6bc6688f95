import CodeAtlas.Proofs.Graph.Sites

/-!
# Enclosing types

The type around a symbol is found by ranges: of the types of its file that cover the symbol, the
shortest. The table knows the enclosing type of a declaration from the tree. The two agree if every
list of symbols belongs to one file, and the declarations of a file are not empty and start at
distinct offsets: a type around a declaration is then its parent or longer than its parent.

## Main definitions

* `SymbolGraph.typesAround`: the types among which the type around a symbol is looked for.

## Main statements

* `SymbolGraph.mem_symbolsIn_assemble`: what the list of a file holds.
* `SymbolGraph.enclosingType?_eq_parent`: the enclosing type of a declaration is its parent.
* `SymbolGraph.enclosingType?_of_equal_lists`: two files in one list are mixed up.
-/
namespace CodeAtlas.SymbolGraph

variable {g : SymbolGraph} {m n : Symbol} {ids : Nat → String} {table : Table}
  {found : List (String × Contribution)} {files : List SourceFile} {options : IndexSettings}

/-! ## The list of a file -/

theorem files_foldl_insert (ns : List Symbol) (g : SymbolGraph) (key : String) :
    ((ns.foldl insert g).files[key]?).getD [] =
      (g.files[key]?).getD [] ++ ns.filter fun n => Path.normalize n.path == key := by
  induction ns generalizing g with
  | nil => simp
  | cons n ns ih =>
    rw [List.foldl_cons, ih, files_insert, List.append_assoc, List.filter_cons]
    split <;> simp [*]

@[simp] theorem files_foldl_implement (pairs : List (String × String)) (g : SymbolGraph) :
    (pairs.foldl (fun g (interface, type) => g.implement interface type) g).files = g.files := by
  induction pairs generalizing g with
  | nil => rfl
  | cons p pairs ih => exact ih _

/-- The list of a file holds the symbols whose path is listed like that of the file. -/
@[simp] theorem mem_symbolsIn_assemble {path : String} :
    m ∈ (assemble ids table found).symbolsIn path ↔
      m ∈ symbolsOf ids table found ∧ Path.normalize m.path = Path.normalize path := by
  have hsort (list : Option (List Symbol)) :
      (list.map (·.mergeSort comesFirst)).getD [] = (list.getD []).mergeSort comesFirst := by
    cases list <;> simp
  rw [symbolsIn, assemble_eq, files_arrange, files_foldl_implement, hsort, List.mem_mergeSort,
    files_foldl_insert]
  simp [empty]

/-! ## The entries of a file -/

/-- Elements of a list are told apart by what a function says of them, also by where they stand. -/
theorem split_inj {α β : Type} {l pre pre' post post' : List α} {a a' : α} {key : α → β}
    (hkeys : (l.map key).Nodup) (h : l = pre ++ a :: post) (h' : l = pre' ++ a' :: post')
    (heq : key a = key a') : pre = pre' ∧ a = a' := by
  have hlength : pre.length = pre'.length := by
    refine (List.getElem?_inj (l := l.map key) ?_ hkeys).mp ?_
    · simp [h]
    · nth_rewrite 1 [h]
      rw [h']
      simp [heq]
  obtain ⟨hpre, hrest⟩ := List.append_inj (h.symm.trans h') hlength
  exact ⟨hpre, (List.cons.inj hrest).1⟩

@[grind →]
theorem path_of_mem_declarations {f : SourceFile} {d : Declaration} (h : d ∈ f.declarations) :
    d.path = f.path := by
  obtain ⟨n, -, -, hextent⟩ := Tree.exists_node_of_mem_declarations h
  exact (congrArg Extent.path hextent).symm

/-- Where an entry stands and what is around it follows from the declaration in its file. -/
theorem exists_range_of_entry {i : Nat} {e : Entry}
    (he : (tableOf files options).entries[i]? = some e) :
    ∃ pre f post k d, files = pre ++ f :: post ∧ i = offsetAfter pre + k ∧
      f.declarations[k]? = some d ∧ e.path = f.path ∧
      e.toDeclaration.range = (d.shift (offsetAfter pre)).range := by
  obtain ⟨pre, f, post, k, d, hfiles, hi, hd, heq⟩ := exists_declaration_of_entry he
  have hpath : e.path = d.path := (congrArg Declaration.path heq.symm :)
  exact ⟨pre, f, post, k, d, hfiles, hi, hd,
    hpath.trans (path_of_mem_declarations (List.mem_of_getElem? hd)),
    (congrArg Declaration.range heq.symm :)⟩

theorem exists_entry_of_range {pre post : List SourceFile} {f : SourceFile} {k : Nat}
    {d : Declaration} (hfiles : files = pre ++ f :: post) (hd : f.declarations[k]? = some d) :
    ∃ e, (tableOf files options).entries[offsetAfter pre + k]? = some e ∧ e.path = f.path ∧
      e.toDeclaration.range = (d.shift (offsetAfter pre)).range := by
  obtain ⟨e, he, heq⟩ := exists_entry_of_declaration hfiles hd
  have hpath : e.path = d.path := (congrArg Declaration.path heq :)
  exact ⟨e, he, hpath.trans (path_of_mem_declarations (List.mem_of_getElem? hd)),
    (congrArg Declaration.range heq :)⟩

/-- What two equal ranges have in common. -/
theorem of_range_eq_shift {d d' : Declaration} {offset : Nat}
    (h : d'.range = (d.shift offset).range) : d'.start = d.start ∧ d'.length = d.length ∧
      d'.parent = d.parent.map (· + offset) ∧ d'.kind.isType = d.kind.isType :=
  PlacedRange.mk.inj h

@[simp] theorem within_iff {a e : Entry} {i j : Nat} :
    (declarationNode found i e).within (declarationNode found j a) = true ↔
      e.toDeclaration.range.Within a.toDeclaration.range := by
  simp [Symbol.within, Symbol.stop, PlacedRange.Within, PlacedRange.stop, Declaration.range]

/-- The ranges of the declarations of `f`. -/
def rangesOf (f : SourceFile) : List PlacedRange :=
  f.declarations.map Declaration.range

theorem getElem?_rangesOf {f : SourceFile} {k : Nat} {r : PlacedRange} :
    (rangesOf f)[k]? = some r ↔ ∃ d, f.declarations[k]? = some d ∧ d.range = r := by
  simp [rangesOf]

theorem nested_rangesOf {f : SourceFile} (h : f.tree.Layered) :
    NestedFrom none 0 f.tree.start f.tree.stop (rangesOf f) :=
  Tree.nested_declarations f.text f.path h

theorem pairwise_rangesOf {f : SourceFile} (h : f.tree.Layered) (hstarts : f.tree.StartsApart) :
    (rangesOf f).Pairwise fun r s => r.start < s.start :=
  List.pairwise_map.mpr (Tree.pairwise_start_lt f.text f.path h hstarts)

section Owners

variable {i j p : Nat} {e a : Entry}

/-- The parent of an entry is an earlier type of the same file around it. -/
theorem exists_owner_of_parent (htrees : ∀ f ∈ files, f.tree.Layered)
    (he : (tableOf files options).entries[i]? = some e) (hparent : e.parent = some p) :
    ∃ owner, (tableOf files options).entries[p]? = some owner ∧ p < i ∧ owner.path = e.path ∧
      owner.kind.isType = true ∧ e.toDeclaration.range.Within owner.toDeclaration.range := by
  obtain ⟨pre, f, post, k, d, hfiles, rfl, hd, hpath, hrange⟩ := exists_range_of_entry he
  have hf : f ∈ files := by simp [hfiles]
  have hparent' := (of_range_eq_shift hrange).2.2.1
  rcases (nested_rangesOf (htrees f hf)).parents k d.range (getElem?_rangesOf.mpr ⟨d, hd, rfl⟩)
    with hnone | ⟨q, r, hqk, hq, hr, hholder, hin⟩
  · have hnone : d.parent = none := hnone
    simp [hparent', hnone] at hparent
  · have hq : d.parent = some (0 + q) := hq
    obtain rfl : offsetAfter pre + q = p := by
      simp only [hparent', hq, Option.map_some, Option.some.injEq] at hparent
      omega
    obtain ⟨c, hc, rfl⟩ := getElem?_rangesOf.mp hr
    obtain ⟨owner, howner, hpath', hrange'⟩ := exists_entry_of_range hfiles hc
    refine ⟨owner, howner, by omega, hpath'.trans hpath.symm, ?_, ?_⟩
    · exact (of_range_eq_shift hrange').2.2.2.trans hholder
    · rw [hrange, hrange']
      exact hin

/-- Whatever entry of the list of a file lies around another one is its parent or longer than its
parent. -/
theorem eq_parent_or_longer_of_entry (hkeys : (files.map fun f => Path.normalize f.path).Nodup)
    (htrees : ∀ f ∈ files, f.tree.Layered) (hstarts : ∀ f ∈ files, f.tree.StartsApart)
    (hsized : ∀ f ∈ files, ∀ n ∈ f.tree.preorder, n.declares = true → 0 < n.length)
    (he : (tableOf files options).entries[i]? = some e)
    (ha : (tableOf files options).entries[j]? = some a) (hne : j ≠ i)
    (hkey : Path.normalize a.path = Path.normalize e.path)
    (hin : e.toDeclaration.range.Within a.toDeclaration.range) :
    ∃ p owner, e.parent = some p ∧ (tableOf files options).entries[p]? = some owner ∧
      (j = p ∨ owner.length < a.length) := by
  obtain ⟨pre, f, post, k, d, hfiles, rfl, hd, hpath, hrange⟩ := exists_range_of_entry he
  obtain ⟨pre', f', post', l, b, hfiles', rfl, hb, hpath', hrange'⟩ := exists_range_of_entry ha
  -- a list belongs to one file
  obtain ⟨rfl, rfl⟩ := split_inj hkeys hfiles hfiles' (by rw [← hpath, ← hpath', hkey])
  have hf : f ∈ files := by simp [hfiles]
  have hlength : 0 < d.length := by
    obtain ⟨n, hn, hdeclares, hextent⟩ :=
      Tree.exists_node_of_mem_declarations (List.mem_of_getElem? hd)
    have heq : n.length = d.length := congrArg Extent.length hextent
    exact heq ▸ hsized f hf n hn hdeclares
  rw [hrange, hrange'] at hin
  obtain ⟨q, r, hq, hr, hlonger⟩ := (nested_rangesOf (htrees f hf)).eq_parent_or_longer
    (pairwise_rangesOf (htrees f hf) (hstarts f hf)) (getElem?_rangesOf.mpr ⟨b, hb, rfl⟩)
    (getElem?_rangesOf.mpr ⟨d, hd, rfl⟩) (by omega) hlength hin
  obtain ⟨c, hc, rfl⟩ := getElem?_rangesOf.mp hr
  obtain ⟨owner, howner, -, hrange''⟩ := exists_entry_of_range hfiles hc
  have hq : d.parent = some (0 + q) := hq
  refine ⟨_, owner, ?_, howner, ?_⟩
  · rw [(of_range_eq_shift hrange).2.2.1, hq, Option.map_some, Nat.zero_add, Nat.add_comm]
  · rw [(of_range_eq_shift hrange').2.1, (of_range_eq_shift hrange'').2.1]
    exact hlonger.imp_left fun heq => congrArg _ heq

end Owners

/-! ## Types around a declaration -/

/-- The types of a list are entries of the table. -/
theorem exists_entry_of_isType {path : String} (hm : m ∈ (ofFiles files options).symbolsIn path)
    (htype : m.kind.isType = true) :
    ∃ j a, (tableOf files options).entries[j]? = some a ∧
      Path.normalize a.path = Path.normalize path ∧
      m = declarationNode (contributionsOf files (tableOf files options) options) j a := by
  obtain ⟨hmem, hkey⟩ := mem_symbolsIn_assemble.mp hm
  obtain ⟨j, a, ha, rfl⟩ := exists_declarationNode_of_isType hmem htype
  exact ⟨j, a, ha, by simpa using hkey, rfl⟩

/-- The types among which the type around `n` is looked for. -/
def typesAround (g : SymbolGraph) (n : Symbol) : List Symbol :=
  (g.symbolsIn n.path).filter fun m => m.kind.isType && m.id != n.id && n.within m

theorem enclosingType?_eq_minOn? (g : SymbolGraph) (n : Symbol) :
    g.enclosingType? n = (g.typesAround n).minOn? (·.length) :=
  rfl

@[simp] theorem mem_typesAround : m ∈ g.typesAround n ↔
    m ∈ g.symbolsIn n.path ∧ m.kind.isType = true ∧ m.id ≠ n.id ∧ n.within m = true := by
  simp [typesAround, and_assoc]

section Around

variable {i p : Nat} {e : Entry}

/-- The parent of a declaration is among the types around it. -/
theorem declarationNode_mem_typesAround (htrees : ∀ f ∈ files, f.tree.Layered)
    (he : (tableOf files options).entries[i]? = some e) (hparent : e.parent = some p) :
    ∃ owner, (tableOf files options).entries[p]? = some owner ∧
      declarationNode (contributionsOf files (tableOf files options) options) p owner ∈
        (ofFiles files options).typesAround
          (declarationNode (contributionsOf files (tableOf files options) options) i e) := by
  obtain ⟨owner, howner, hlt, hpath, htype, hin⟩ := exists_owner_of_parent htrees he hparent
  have hid : e.id ≠ owner.id :=
    Table.id_ne_owner (orderly_tableOf files options) he howner hlt hparent
  refine ⟨owner, howner, mem_typesAround.mpr ⟨?_, by simpa using htype, ?_, within_iff.mpr hin⟩⟩
  · exact mem_symbolsIn_assemble.mpr ⟨declarationNode_mem_symbolsOf _ howner, by simp [hpath]⟩
  · simpa using hid.symm

/-- A type around a declaration is the parent of the declaration or longer than its parent. -/
theorem exists_parent_of_mem_typesAround
    (hkeys : (files.map fun f => Path.normalize f.path).Nodup)
    (htrees : ∀ f ∈ files, f.tree.Layered) (hstarts : ∀ f ∈ files, f.tree.StartsApart)
    (hsized : ∀ f ∈ files, ∀ n ∈ f.tree.preorder, n.declares = true → 0 < n.length)
    (he : (tableOf files options).entries[i]? = some e)
    (hm : m ∈ (ofFiles files options).typesAround
      (declarationNode (contributionsOf files (tableOf files options) options) i e)) :
    ∃ p owner, e.parent = some p ∧ (tableOf files options).entries[p]? = some owner ∧
      (m = declarationNode (contributionsOf files (tableOf files options) options) p owner ∨
        owner.length < m.length) := by
  obtain ⟨hm, htype, hid, hin⟩ := mem_typesAround.mp hm
  rw [path_declarationNode] at hm
  obtain ⟨j, a, ha, hkey, rfl⟩ := exists_entry_of_isType hm htype
  have hne : j ≠ i := by
    rintro rfl
    obtain rfl : e = a := Option.some.inj (he.symm.trans ha)
    exact hid rfl
  obtain ⟨p, owner, hparent, howner, hlonger⟩ := eq_parent_or_longer_of_entry hkeys htrees
    hstarts hsized he ha hne hkey (within_iff.mp hin)
  refine ⟨p, owner, hparent, howner, ?_⟩
  rcases hlonger with rfl | hlonger
  · obtain rfl : a = owner := Option.some.inj (ha.symm.trans howner)
    exact .inl rfl
  · exact .inr (by simpa using hlonger)

/-- The type around a declaration is the type of its parent. -/
theorem enclosingType?_declarationNode
    (hkeys : (files.map fun f => Path.normalize f.path).Nodup)
    (htrees : ∀ f ∈ files, f.tree.Layered) (hstarts : ∀ f ∈ files, f.tree.StartsApart)
    (hsized : ∀ f ∈ files, ∀ n ∈ f.tree.preorder, n.declares = true → 0 < n.length)
    (he : (tableOf files options).entries[i]? = some e) :
    (ofFiles files options).enclosingType?
        (declarationNode (contributionsOf files (tableOf files options) options) i e) =
      e.parent.bind fun p => ((tableOf files options).entries[p]?).map
        (declarationNode (contributionsOf files (tableOf files options) options) p) := by
  have hparents {m : Symbol} :=
    exists_parent_of_mem_typesAround (m := m) hkeys htrees hstarts hsized he
  cases hparent : e.parent with
  | none =>
    rw [Option.bind_none, enclosingType?_eq_minOn?, minOn?_eq_none_iff,
      List.eq_nil_iff_forall_not_mem]
    intro m hm
    obtain ⟨p, -, hsome, -⟩ := hparents hm
    simp [hparent] at hsome
  | some p =>
    obtain ⟨owner, howner, hmem⟩ := declarationNode_mem_typesAround htrees he hparent
    rw [Option.bind_some, howner, Option.map_some]
    refine minOn?_eq_some_of_lt hmem fun m hm => ?_
    obtain ⟨q, owner', hq, howner', hlonger⟩ := hparents hm
    obtain rfl : p = q := Option.some.inj (hparent.symm.trans hq)
    obtain rfl : owner = owner' := Option.some.inj (howner.symm.trans howner')
    simpa using hlonger

end Around

/-- The type around a declaration `e` that the ranges tell is the one that the tree tells, the same
part of it if it is partial, and there is none around a declaration that has no parent. This is so
if every list belongs to one of the `files`, declarations are not empty and start at distinct
offsets. Under the ids of the declarations the graph has these very symbols if ids tell symbols
apart. -/
theorem enclosingType?_eq_parent (files : List SourceFile) (options : IndexSettings)
    (hkeys : (files.map fun f => Path.normalize f.path).Nodup)
    (htrees : ∀ f ∈ files, f.tree.WellFormed f.text) (hstarts : ∀ f ∈ files, f.tree.StartsApart)
    (hsized : ∀ f ∈ files, ∀ n ∈ f.tree.preorder, n.declares = true → 0 < n.length) :
    let table := tableOf files options
    let found := contributionsOf files table options
    let g := ofFiles files options
    ∀ i e, table.entries[i]? = some e →
      declarationNode found i e ∈ g.symbolsIn e.path ∧
      (∀ p, e.parent = some p → ∃ owner, table.entries[p]? = some owner ∧
        g.enclosingType? (declarationNode found i e) = some (declarationNode found p owner)) ∧
      (e.parent = none → g.enclosingType? (declarationNode found i e) = none) ∧
      (DistinctIds files options → g.node? e.id = some (declarationNode found i e)) := by
  intro table found g i e he
  have hlayered : ∀ f ∈ files, f.tree.Layered := fun f hf => (htrees f hf).layered
  have hencloses := enclosingType?_declarationNode hkeys hlayered hstarts hsized he
  refine ⟨?_, fun p hparent => ?_, fun hnone => ?_, fun hids => ?_⟩
  · exact mem_symbolsIn_assemble.mpr ⟨declarationNode_mem_symbolsOf _ he, by simp⟩
  · obtain ⟨owner, howner, -⟩ := exists_owner_of_parent hlayered he hparent
    refine ⟨owner, howner, ?_⟩
    rw [hencloses, hparent, Option.bind_some, howner, Option.map_some]
  · rw [hencloses, hnone, Option.bind_none]
  · exact node?_ofFiles hids he

/-- A partial class in two files. The second part holds a class of the same name with a method. -/
def nestedPartFiles : List SourceFile :=
  [{ path := "a.cs"
     text := "partial class C \x7b \x7d"
     tree := .ofPart 19 [] },
    { path := "b.cs"
      text := "partial class C \x7b class C \x7b void A(int n); \x7d \x7d"
      tree := .ofPart 46 [.ofClass 18 26 [.ofOverload 28 3]] }]

theorem enclosingType?_eq_parent_nestedPart :
    (tableOf nestedPartFiles {}).entries.toList.map (fun e => (e.id, e.parent)) =
      [("C", none), ("C#2", none), ("C.C", some 1), ("C.C.A(int)", some 2)] ∧
    (∃ n owner, (ofFiles nestedPartFiles {}).node? "C.C" = some n ∧
      (ofFiles nestedPartFiles {}).enclosingType? n = some owner ∧ owner.id = "C#2") ∧
    ∃ n, (ofFiles nestedPartFiles {}).node? "C#2" = some n ∧
      (ofFiles nestedPartFiles {}).enclosingType? n = none := by
  have hids : (tableOf nestedPartFiles {}).entries.toList.map (fun e => (e.id, e.parent)) =
      [("C", none), ("C#2", none), ("C.C", some 1), ("C.C.A(int)", some 2)] := by
    decide +kernel
  have hentry (i : Nat) :
      ((tableOf nestedPartFiles {}).entries[i]?).map (fun e => (e.id, e.parent)) =
      [("C", none), ("C#2", none), ("C.C", some 1), ("C.C.A(int)", some 2)][i]? := by
    rw [← hids, List.getElem?_map, Array.getElem?_toList]
  have hdistinct : DistinctIds nestedPartFiles {} :=
    ⟨by decide +kernel, numberedId_injective, by decide +kernel⟩
  have hagree := enclosingType?_eq_parent nestedPartFiles {} (by decide +kernel) (by decide +kernel)
    (by decide +kernel) (by decide +kernel)
  obtain ⟨part, hpart, heq⟩ := Option.map_eq_some_iff.mp (hentry 1)
  obtain ⟨inner, hinner, heq'⟩ := Option.map_eq_some_iff.mp (hentry 2)
  obtain ⟨hid, hparent⟩ := Prod.mk.inj heq
  obtain ⟨hid', hparent'⟩ := Prod.mk.inj heq'
  obtain ⟨-, -, hnone, hnode⟩ := hagree 1 part hpart
  obtain ⟨-, howner, -, hnode'⟩ := hagree 2 inner hinner
  obtain ⟨owner, hat, hencloses⟩ := howner 1 hparent'
  obtain rfl : part = owner := Option.some.inj (hpart.symm.trans hat)
  refine ⟨hids, ⟨_, _, hid' ▸ hnode' hdistinct, hencloses, ?_⟩, _,
    hid ▸ hnode hdistinct, hnone hparent⟩
  rw [id_declarationNode, hid]

/-- Two files with paths of their own that share one list, since normalizing drops one `./` at a
time. -/
def equalListFiles : List SourceFile :=
  [{ path := Path.normalize "././a.cs"
     text := "class A \x7b \x7d"
     tree := .ofFile 11 [] },
    { path := Path.normalize "a.cs"
      text := "class C \x7b void A(int n); \x7d"
      tree := .ofFile 26 [.ofOverload 10 3] }]

/-- If two files share a list, a type of one of them can be taken for the type around a declaration
of the other one. -/
theorem enclosingType?_of_equal_lists :
    (equalListFiles.map (·.path)).Nodup ∧
    (tableOf equalListFiles {}).entries.toList.map (fun e => (e.id, e.parent)) =
      [("A", none), ("C", none), ("C.A(int)", some 1)] ∧
    (ofFiles equalListFiles {}).node? "A" = some ⟨"A", "A", .class, "./a.cs", 0, 11, []⟩ ∧
    (ofFiles equalListFiles {}).enclosingType? ⟨"A", "A", .class, "./a.cs", 0, 11, []⟩ =
      some ⟨"C", "C", .class, "a.cs", 0, 26, []⟩ := by
  refine ⟨by decide +kernel, by decide +kernel, by decide +kernel, ?_⟩
  rw [enclosingType?_eq_minOn?]
  refine minOn?_eq_some_of_lt ?_ ?_
  · exact mem_typesAround.mpr ⟨mem_symbolsIn_assemble.mpr (by decide +kernel), by decide⟩
  · intro n hn
    obtain ⟨hlisted, htype, hid, -⟩ := mem_typesAround.mp hn
    have honly : ∀ n ∈ symbolsOf numberedId (tableOf equalListFiles {})
        (contributionsOf equalListFiles (tableOf equalListFiles {}) {}),
        n.kind.isType = true → n.id ≠ "A" → n = ⟨"C", "C", .class, "a.cs", 0, 26, []⟩ := by
      decide +kernel
    exact .inl (honly n (mem_symbolsIn_assemble.mp hlisted).1 htype hid)

end CodeAtlas.SymbolGraph
