import CodeAtlas.Context
import CodeAtlas.Proofs.Graph.Links
import CodeAtlas.Proofs.Project.Path
import CodeAtlas.Proofs.Text.Slice

/-!
# The declarations that a section shows

A section that does not show its whole file shows the selected declarations of the file, in the
order of their starts and each of them once. Whether a declaration is one of the file is judged by
the two paths: they may be equal, or one may be the end of the other. So with relative paths a
section may show bytes of its file in place of a declaration of another file of the same name; with
absolute paths it does not.

## Main definitions

* `SymbolGraph.Keyed`: the symbols of a graph are found under their own ids.
* `SymbolGraph.Shows`: what a section shows.

## Main statements

* `firstOf_firstById`: each symbol is kept once.
* `SymbolGraph.mem_selected`: the symbols that are selected in a file.
* `SymbolGraph.shows_own_file_iff`: when a section shows declarations of its own file only.
-/
namespace CodeAtlas

/-! ## Each symbol once -/

/-- The list `kept` has one symbol of each id of `ns`. -/
structure FirstOf (ns kept : List Symbol) : Prop where
  mem_of_mem : ∀ n ∈ kept, n ∈ ns
  nodup : (kept.map (·.id)).Nodup
  complete : ∀ n ∈ ns, ∃ m ∈ kept, m.id = n.id

theorem FirstOf.append {ns kept : List Symbol} (h : FirstOf ns kept) (n : Symbol) :
    FirstOf (ns ++ [n]) (if kept.any (·.id == n.id) then kept else kept ++ [n]) := by
  have hmem (m : Symbol) (hm : m ∈ kept) : m ∈ ns ++ [n] :=
    List.mem_append_left _ (h.mem_of_mem m hm)
  split
  · next hany =>
    obtain ⟨m, hm, hid⟩ := List.any_eq_true.mp hany
    refine ⟨hmem, h.nodup, fun n' hn' => ?_⟩
    rcases List.mem_append.mp hn' with hn' | hn'
    · exact h.complete n' hn'
    · obtain rfl := List.mem_singleton.mp hn'
      exact ⟨m, hm, by simpa using hid⟩
  · next hany =>
    have hnew (m : Symbol) (hm : m ∈ kept) : m.id ≠ n.id := fun hid =>
      hany (List.any_eq_true.mpr ⟨m, hm, by simpa using hid⟩)
    refine ⟨fun m hm => ?_, ?_, fun n' hn' => ?_⟩
    · rcases List.mem_append.mp hm with hm | hm
      · exact hmem m hm
      · exact List.mem_append_right _ hm
    · simpa [List.nodup_append] using ⟨h.nodup, hnew⟩
    · rcases List.mem_append.mp hn' with hn' | hn'
      · obtain ⟨m, hm, hid⟩ := h.complete n' hn'
        exact ⟨m, List.mem_append_left _ hm, hid⟩
      · exact ⟨n', List.mem_append_right _ hn', rfl⟩

theorem firstOf_firstById (ns : List Symbol) : FirstOf ns (firstById ns) := by
  induction ns using List.reverseRecOn with
  | nil => exact ⟨by simp [firstById], by simp [firstById], by simp⟩
  | append_singleton ns n ih =>
    rw [firstById, List.foldl_append]
    exact ih.append n

/-! ## Paths of one file -/

/-- Paths are taken for one file if they are equal or one is the end of the other. -/
theorem sameFile_iff {a b : String} :
    sameFile a b = true ↔ a = b ∨ Path.IsTail b a ∨ Path.IsTail a b := by
  simp [sameFile, Path.IsTail, Text.endsWith_iff, String.append_assoc, or_assoc]

namespace SymbolGraph

variable {g : SymbolGraph} {ids : List String} {fullPath content : String} {n : Symbol}

/-- The symbols of `g` are found under their own ids. -/
def Keyed (g : SymbolGraph) : Prop :=
  ∀ id n, g.node? id = some n → n.id = id

theorem Keyed.insert (h : g.Keyed) (n : Symbol) : (g.insert n).Keyed := by
  intro id m hm
  rw [node?_insert] at hm
  split at hm
  · next hid => exact Option.some.inj hm ▸ hid
  · exact h id m hm

theorem keyed_foldl_insert (ns : List Symbol) (h : g.Keyed) :
    (ns.foldl SymbolGraph.insert g).Keyed := by
  induction ns generalizing g with
  | nil => exact h
  | cons n ns ih => exact ih (h.insert n)

/-- The graph of some files is keyed. -/
theorem keyed_ofFiles (files : List SourceFile) (options : IndexSettings) :
    (ofFiles files options).Keyed := by
  intro id n hn
  rw [ofFiles, node?_assemble] at hn
  refine keyed_foldl_insert _ (fun id n hn => ?_) id n hn
  simp [empty, node?] at hn

/-! ## Selected symbols -/

/-- The symbols that are selected in a file. -/
theorem mem_selected (hg : g.Keyed) : n ∈ g.selected ids fullPath ↔
    n.id ∈ ids ∧ g.node? n.id = some n ∧
      sameFile (Path.normalize n.path) (Path.normalize fullPath) = true := by
  have hfound (m : Symbol) : m ∈ ids.filterMap g.node? ↔ m.id ∈ ids ∧ g.node? m.id = some m := by
    rw [List.mem_filterMap]
    constructor
    · rintro ⟨id, hid, hm⟩
      obtain rfl := hg id m hm
      exact ⟨hid, hm⟩
    · rintro ⟨hid, hm⟩
      exact ⟨m.id, hid, hm⟩
  have hfirst := firstOf_firstById ((ids.filterMap g.node?).filter fun m =>
    sameFile (Path.normalize m.path) (Path.normalize fullPath))
  rw [selected, List.mem_mergeSort, ← and_assoc, ← hfound]
  constructor
  · intro hn
    exact List.mem_filter.mp (hfirst.mem_of_mem n hn)
  · intro hn
    -- the symbol that is kept for the id is found under that id, so it is the same
    obtain ⟨m, hm, hid⟩ := hfirst.complete n (List.mem_filter.mpr hn)
    have hm' := ((hfound m).mp (List.mem_filter.mp (hfirst.mem_of_mem m hm)).1).2
    have hn' := ((hfound n).mp hn.1).2
    rw [hid, hn'] at hm'
    exact Option.some.inj hm' ▸ hm

theorem pairwise_start_selected (g : SymbolGraph) (ids : List String) (fullPath : String) :
    (g.selected ids fullPath).Pairwise fun m n => m.start ≤ n.start := by
  refine (List.pairwise_mergeSort ?_ ?_ _).imp fun h => of_decide_eq_true h
  · intro a b c hab hbc
    exact decide_eq_true (Nat.le_trans (of_decide_eq_true hab) (of_decide_eq_true hbc))
  · intro a b
    simpa using Nat.le_total a.start b.start

theorem pairwise_id_selected (g : SymbolGraph) (ids : List String) (fullPath : String) :
    (g.selected ids fullPath).Pairwise fun m n => m.id ≠ n.id := by
  have hfirst := List.pairwise_map.mp (firstOf_firstById ((ids.filterMap g.node?).filter fun n =>
    sameFile (Path.normalize n.path) (Path.normalize fullPath))).nodup
  exact (List.mergeSort_perm _ _).symm.pairwise hfirst fun h => h.symm

/-! ## What a section shows -/

/-- The symbols `shown` in the section of the file at `fullPath`, each with its text: those with one
of the `ids` whose path is, or ends in, or is the end of that of the file, in the order of their
starts. -/
structure Shows (g : SymbolGraph) (ids : List String) (fullPath content : String)
    (shown : List (Symbol × String)) : Prop where
  text_eq : declarationsText? (some g) ids fullPath content =
    if shown.isEmpty then none else some ("\n\n".intercalate (shown.map (·.2)))
  slices : ∀ n s, (n, s) ∈ shown → ∃ l r, content = l ++ s ++ r ∧ l.utf8ByteSize = n.start ∧
    s.utf8ByteSize = n.length
  ordered : shown.Pairwise fun p q => p.1.start ≤ q.1.start
  once : shown.Pairwise fun p q => p.1.id ≠ q.1.id
  mem_iff : ∀ n s, (n, s) ∈ shown ↔ n.id ∈ ids ∧ g.node? n.id = some n ∧
    n.slice? content = some s ∧ (Path.normalize n.path = Path.normalize fullPath ∨
      Path.IsTail (Path.normalize fullPath) (Path.normalize n.path) ∨
      Path.IsTail (Path.normalize n.path) (Path.normalize fullPath))

theorem declarationsText?_some : declarationsText? (some g) ids fullPath content =
    if ((g.selected ids fullPath).filterMap (·.slice? content)).isEmpty then none
    else some ("\n\n".intercalate ((g.selected ids fullPath).filterMap (·.slice? content))) := by
  unfold declarationsText?
  rw [Option.bind_eq_bind, Option.bind_some]
  cases (g.selected ids fullPath).filterMap (·.slice? content) <;> rfl

/-- The symbols with one of the `ids` that are selected in the file at `fullPath` and have a text in
its `content`, with their texts. -/
def shownIn (g : SymbolGraph) (ids : List String) (fullPath content : String) :
    List (Symbol × String) :=
  (g.selected ids fullPath).filterMap fun n => (n.slice? content).map (n, ·)

@[simp] theorem mem_shownIn {s : String} : (n, s) ∈ g.shownIn ids fullPath content ↔
    n ∈ g.selected ids fullPath ∧ n.slice? content = some s := by
  simp only [shownIn, List.mem_filterMap, Option.map_eq_some_iff, Prod.mk.injEq]
  constructor
  · rintro ⟨m, hm, s', hs', rfl, rfl⟩
    exact ⟨hm, hs'⟩
  · rintro ⟨hn, hs⟩
    exact ⟨n, hn, s, hs, rfl, rfl⟩

theorem pairwise_shownIn {R : Symbol → Symbol → Prop}
    (h : (g.selected ids fullPath).Pairwise R) :
    (g.shownIn ids fullPath content).Pairwise fun p q => R p.1 q.1 := by
  refine h.filterMap _ fun m n hR p hp q hq => ?_
  obtain ⟨_, -, rfl⟩ := Option.map_eq_some_iff.mp hp
  obtain ⟨_, -, rfl⟩ := Option.map_eq_some_iff.mp hq
  exact hR

theorem shows_shownIn (hg : g.Keyed) (ids : List String) (fullPath content : String) :
    g.Shows ids fullPath content (g.shownIn ids fullPath content) where
  text_eq := by
    have htexts : (g.shownIn ids fullPath content).map (·.2) =
        (g.selected ids fullPath).filterMap (·.slice? content) := by
      simp [shownIn, List.map_filterMap, Function.comp_def]
    have hempty : (g.shownIn ids fullPath content).isEmpty =
        ((g.selected ids fullPath).filterMap (·.slice? content)).isEmpty := by
      rw [← htexts, List.isEmpty_map]
    rw [htexts, hempty]
    exact declarationsText?_some
  slices := by
    intro n s h
    obtain ⟨l, r, hcontent, hstart, hstop⟩ := Text.slice?_eq_some_iff.mp (mem_shownIn.mp h).2
    refine ⟨l, r, hcontent, hstart, ?_⟩
    rw [Symbol.stop] at hstop
    omega
  ordered := pairwise_shownIn (pairwise_start_selected g ids fullPath)
  once := pairwise_shownIn (pairwise_id_selected g ids fullPath)
  mem_iff := by
    intro n s
    rw [mem_shownIn, mem_selected hg, sameFile_iff]
    tauto

/-- The section of the file at `fullPath` shows declarations of this file only, if and only if none
of those with one of the `ids` that have a text in its `content` lies at a path that `fullPath` ends
in, or that ends in `fullPath`. With absolute paths there is none. -/
theorem shows_own_file_iff (hg : g.Keyed) (ids : List String) (fullPath content : String) :
    ∃ shown, g.Shows ids fullPath content shown ∧
      ((∀ p ∈ shown, Path.normalize p.1.path = Path.normalize fullPath) ↔
        ∀ id ∈ ids, ∀ n, g.node? id = some n → (n.slice? content).isSome →
          ¬ Path.IsTail (Path.normalize fullPath) (Path.normalize n.path) ∧
          ¬ Path.IsTail (Path.normalize n.path) (Path.normalize fullPath)) ∧
      (Path.isAbsolute fullPath = true →
        (∀ id ∈ ids, ∀ n, g.node? id = some n → Path.isAbsolute n.path = true) →
        ∀ p ∈ shown, Path.normalize p.1.path = Path.normalize fullPath) := by
  have hshows := shows_shownIn hg ids fullPath content
  refine ⟨g.shownIn ids fullPath content, hshows, ⟨fun hown id hid n hn hs => ?_, fun hno => ?_⟩,
    fun hfull hpaths => ?_⟩
  · obtain ⟨s, hs⟩ := Option.isSome_iff_exists.mp hs
    obtain rfl := hg id n hn
    constructor
    · intro htail
      exact htail.ne (hown (n, s) ((hshows.mem_iff n s).mpr ⟨hid, hn, hs, .inr (.inl htail)⟩))
    · intro htail
      exact htail.ne (hown (n, s) ((hshows.mem_iff n s).mpr ⟨hid, hn, hs, .inr (.inr htail)⟩)).symm
  · rintro ⟨n, s⟩ hp
    obtain ⟨hid, hn, hs, hpath⟩ := (hshows.mem_iff n s).mp hp
    have hno := hno n.id hid n hn (Option.isSome_iff_exists.mpr ⟨s, hs⟩)
    exact hpath.resolve_right fun h => h.elim hno.1 hno.2
  · rintro ⟨n, s⟩ hp
    obtain ⟨hid, hn, -, hpath⟩ := (hshows.mem_iff n s).mp hp
    refine hpath.resolve_right fun h => h.elim ?_ ?_
    · exact Path.not_isTail_of_isAbsolute (Path.isAbsolute_normalize hfull)
    · exact Path.not_isTail_of_isAbsolute (Path.isAbsolute_normalize (hpaths n.id hid n hn))

/-- Two files of the same name below `directory`, each with a class of its own. -/
def namesakeFiles (directory : String) : List SourceFile :=
  [{ path := directory ++ "A.cs", text := "class A \x7b \x7d", tree := .ofFile 11 [] },
    { path := directory ++ "sub/A.cs", text := "class B \x7b \x7d", tree := .ofFile 11 [] }]

theorem shows_own_file_iff_absolute :
    ((ofFiles (namesakeFiles "/") {}).node? "B").map (·.path) = some "/sub/A.cs" ∧
    declarationsText? (some (ofFiles (namesakeFiles "/") {})) ["B"] "/A.cs" "class A \x7b \x7d" =
      none := by
  have hpath : ((ofFiles (namesakeFiles "/") {}).node? "B").map (·.path) = some "/sub/A.cs" := by
    decide +kernel
  refine ⟨hpath, ?_⟩
  have hB (n : Symbol) (hn : (ofFiles (namesakeFiles "/") {}).node? "B" = some n) :
      n.path = "/sub/A.cs" := by
    rw [hn] at hpath
    exact Option.some.inj hpath
  obtain ⟨shown, hshows, -, habsolute⟩ := shows_own_file_iff (keyed_ofFiles (namesakeFiles "/") {})
    ["B"] "/A.cs" "class A \x7b \x7d"
  have hown := habsolute (by decide) fun id hid n hn => by
    obtain rfl := List.mem_singleton.mp hid
    rw [hB n hn]
    decide
  have hempty : shown = [] := by
    refine List.eq_nil_iff_forall_not_mem.mpr fun p hp => ?_
    obtain ⟨hid, hn, -⟩ := (hshows.mem_iff p.1 p.2).mp hp
    have hsame := hown p hp
    rw [List.mem_singleton.mp hid] at hn
    rw [hB p.1 hn] at hsame
    exact absurd hsame (by decide +kernel)
  rw [hshows.text_eq, hempty]
  rfl

/-- With relative paths a section shows its own bytes in place of a declaration of another file. -/
theorem shows_namesake_relative :
    ((ofFiles (namesakeFiles "") {}).node? "B").map (·.path) = some "sub/A.cs" ∧
    declarationsText? (some (ofFiles (namesakeFiles "") {})) ["B"] (Path.join "." "A.cs")
      "class A \x7b \x7d" = some "class A \x7b \x7d" := by
  have hnode : (ofFiles (namesakeFiles "") {}).node? "B" =
      some ⟨"B", "B", .class, "sub/A.cs", 0, 11, []⟩ := by decide +kernel
  have hselected : (ofFiles (namesakeFiles "") {}).selected ["B"] (Path.join "." "A.cs") =
      [⟨"B", "B", .class, "sub/A.cs", 0, 11, []⟩] := by
    have hfirst : firstById ([⟨"B", "B", .class, "sub/A.cs", 0, 11, []⟩].filter fun n =>
        sameFile (Path.normalize n.path) (Path.normalize (Path.join "." "A.cs"))) =
        [⟨"B", "B", .class, "sub/A.cs", 0, 11, []⟩] := by decide +kernel
    rw [selected, List.filterMap_cons_some hnode, List.filterMap_nil, hfirst]
    exact List.mergeSort_singleton _
  refine ⟨by rw [hnode]; rfl, ?_⟩
  rw [declarationsText?_some, hselected]
  decide +kernel

end SymbolGraph

end CodeAtlas
