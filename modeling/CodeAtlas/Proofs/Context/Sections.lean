import CodeAtlas.Proofs.Context.Grouping
import CodeAtlas.Proofs.Project.Spelling
import CodeAtlas.Proofs.Syntax.WellFormed
import CodeAtlas.Session

/-!
# The sections of a selection

The items of a selection are grouped by their paths as they are spelled, and the header of a section
is the normal form of the path as it is seen from the root. So there is one section per spelling, in
the order in which the spellings first appear, and it shows its whole file if an item of the same
spelling selects the file. The headers differ only as far as the spellings that are shown alike are
one: a plain path and the same path behind a dot give two sections with one header.

## Main definitions

* `FileSection`: a spelling of a path and what is shown of its file.
* `FileSection.ShownIn`: the sections of a selection.
* `SpelledOnce`: paths of a selection that are seen alike are spelled alike.

## Main statements

* `contextBlock_eq`: the text of a selection is that of its sections.
* `nodup_headers_iff`: when no header stands twice.
* `one_section_per_spelling`: what the sections of a selection are.
-/
namespace CodeAtlas

/-! ## Sections -/

/-- A section of the text of a selection: the path of its file as the selection spells it, and what
is shown of the file. -/
structure FileSection where
  path : String
  body : String

namespace FileSection

/-- The path that stands over the section `s`, as seen from `root`. -/
def header (root : String) (s : FileSection) : String :=
  Path.seenFrom root s.path

def text (root : String) (s : FileSection) : String :=
  "// File: " ++ s.header root ++ "\n" ++ Text.trimBoth isLineBreak s.body ++ "\n"

end FileSection

/-- The items of a `selection` that spell the path of their file as `path`. -/
def itemsSpelled (selection : List SelectedItem) (path : String) : List SelectedItem :=
  selection.filter (·.filePath == path)

/-- Paths of the `selection` that are seen alike from `root` are spelled alike. -/
def SpelledOnce (root : String) (selection : List SelectedItem) : Prop :=
  ∀ a ∈ selection, ∀ b ∈ selection,
    Path.seenFrom root a.filePath = Path.seenFrom root b.filePath → a.filePath = b.filePath

instance (root : String) (selection : List SelectedItem) : Decidable (SpelledOnce root selection) :=
  inferInstanceAs (Decidable (∀ a ∈ selection, ∀ b ∈ selection, _ → _))

section Selection

variable (grammar : Grammar) (read : String → Option String) (graph : Option SymbolGraph)
  (root : String) (flags : CleanupFlags) (selection : List SelectedItem)

/-- The section `s` shows its file as a whole. -/
def FileSection.Whole (s : FileSection) : Prop :=
  ∃ content, read (Path.join root s.path) = some content ∧ s.body = cleanUp grammar flags content

/-- The section `s` shows the declarations with one of the `ids`. -/
def FileSection.Partial (ids : List String) (s : FileSection) : Prop :=
  ∃ content, read (Path.join root s.path) = some content ∧
    declarationsText? graph ids (Path.join root s.path) content = some s.body

/-- The section `s` belongs to the selection: some item spells its path, and it shows the whole file
if such an item selects the file, else the declarations that these items select. -/
def FileSection.ShownIn (s : FileSection) : Prop :=
  itemsSpelled selection s.path ≠ [] ∧
    if ∃ item ∈ itemsSpelled selection s.path, item.selectsFile = true
    then s.Whole grammar read root flags
    else s.Partial read graph root ((itemsSpelled selection s.path).filterMap (·.target?))

/-- What is shown of the file at `path`. -/
def bodyOf? (path : String) : Option String :=
  (read (Path.join root path)).bind fun content =>
    if (itemsSpelled selection path).any (·.selectsFile) then some (cleanUp grammar flags content)
    else declarationsText? graph ((itemsSpelled selection path).filterMap (·.target?))
      (Path.join root path) content

/-- The sections of a selection. -/
def sectionsOf : List FileSection :=
  (selection.map (·.filePath)).eraseDups.filterMap fun path =>
    (bodyOf? grammar read graph root flags selection path).map fun body => ⟨path, body⟩

/-- The text of a selection is that of its sections. -/
theorem contextBlock_eq : contextBlock grammar read graph root flags selection =
    "\n".intercalate ((sectionsOf grammar read graph root flags selection).map (·.text root)) := by
  rw [contextBlock, itemsByFile_eq, List.filterMap_map, sectionsOf, List.map_filterMap]
  congr 1
  refine List.filterMap_congr fun path _ => ?_
  rw [Option.map_map, Function.comp_apply, fileSection?, bodyOf?, itemsSpelled]
  cases read (Path.join root path) with
  | none => rfl
  | some content =>
    simp only [Option.bind_eq_bind, Option.bind_some]
    split
    · rfl
    · rw [Option.map_eq_bind]
      rfl

@[simp]
theorem mem_sectionsOf (s : FileSection) : s ∈ sectionsOf grammar read graph root flags selection ↔
    s.ShownIn grammar read graph root flags selection := by
  have hspelled : s.path ∈ selection.map (·.filePath) ↔ itemsSpelled selection s.path ≠ [] := by
    simp [itemsSpelled]
  have hbody : bodyOf? grammar read graph root flags selection s.path = some s.body ↔
      if ∃ item ∈ itemsSpelled selection s.path, item.selectsFile = true
      then s.Whole grammar read root flags
      else s.Partial read graph root ((itemsSpelled selection s.path).filterMap (·.target?)) := by
    simp only [bodyOf?, Option.bind_eq_some_iff, List.any_eq_true]
    split
    · simp only [Option.some.injEq, FileSection.Whole, eq_comm]
    · rfl
  rw [FileSection.ShownIn, ← hspelled, ← hbody, sectionsOf, List.mem_filterMap]
  constructor
  · rintro ⟨path, hpath, hs⟩
    obtain ⟨body, hpathBody, rfl⟩ := Option.map_eq_some_iff.mp hs
    exact ⟨List.mem_eraseDups.mp hpath, hpathBody⟩
  · rintro ⟨hpath, hs⟩
    exact ⟨s.path, List.mem_eraseDups.mpr hpath, by rw [hs]; rfl⟩

/-- The sections come in the order in which their spellings first appear. -/
theorem paths_sectionsOf_sublist :
    ((sectionsOf grammar read graph root flags selection).map (·.path)).Sublist
      (selection.map (·.filePath)).eraseDups := by
  rw [sectionsOf]
  induction (selection.map (·.filePath)).eraseDups with
  | nil => exact .slnil
  | cons path paths ih =>
    cases hbody : bodyOf? grammar read graph root flags selection path with
    | none =>
      rw [List.filterMap_cons_none (by rw [hbody]; rfl)]
      exact ih.cons path
    | some body =>
      rw [List.filterMap_cons_some (by rw [hbody]; rfl)]
      exact ih.cons_cons path

variable {grammar read graph root flags selection} {s : FileSection}

namespace FileSection

theorem ShownIn.exists_item (h : s.ShownIn grammar read graph root flags selection) :
    ∃ item ∈ selection, item.filePath = s.path := by
  obtain ⟨item, hitem⟩ := List.exists_mem_of_ne_nil _ h.1
  obtain ⟨hmem, hpath⟩ := List.mem_filter.mp hitem
  exact ⟨item, hmem, beq_iff_eq.mp hpath⟩

theorem ShownIn.whole (h : s.ShownIn grammar read graph root flags selection) {item : SelectedItem}
    (hitem : item ∈ selection) (hpath : item.filePath = s.path) (hwhole : item.selectsFile = true) :
    s.Whole grammar read root flags := by
  have hspelled : item ∈ itemsSpelled selection s.path :=
    List.mem_filter.mpr ⟨hitem, beq_iff_eq.mpr hpath⟩
  have hshown := h.2
  rwa [if_pos ⟨item, hspelled, hwhole⟩] at hshown

end FileSection

end Selection

/-- No header stands twice if and only if no two sections with different spellings have one. -/
theorem nodup_headers_iff {sections : List FileSection} (root : String)
    (h : (sections.map (·.path)).Nodup) : (sections.map (·.header root)).Nodup ↔
      ∀ s ∈ sections, ∀ t ∈ sections, s.header root = t.header root → s.path = t.path := by
  constructor
  · intro hheaders s hs t ht heq
    rw [List.inj_on_of_nodup_map hheaders hs ht heq]
  · intro hspelled
    refine (List.Nodup.of_map _ h).map_on fun s hs t ht heq => ?_
    exact List.inj_on_of_nodup_map h hs ht (hspelled s hs t ht heq)

/-- There is one section per spelling in the `selection`. No header stands twice if and only if the
spellings of the sections that have one header are one; where the paths that are seen alike from
`root` are spelled alike, this is so, and a section shows its whole file if any item that is seen so
selects the file. Two spellings of a plain path give two sections with that path as their header. -/
theorem one_section_per_spelling (grammar : Grammar) (read : String → Option String)
    (graph : Option SymbolGraph) (root : String) (flags : CleanupFlags)
    (selection : List SelectedItem) :
    ∃ sections : List FileSection,
      contextBlock grammar read graph root flags selection =
        "\n".intercalate (sections.map (·.text root)) ∧
      (∀ s, s ∈ sections ↔ s.ShownIn grammar read graph root flags selection) ∧
      (sections.map (·.path)).Sublist (selection.map (·.filePath)).eraseDups ∧
      (sections.map (·.path)).Nodup ∧
      ((sections.map (·.header root)).Nodup ↔
        ∀ s ∈ sections, ∀ t ∈ sections, s.header root = t.header root → s.path = t.path) ∧
      (SpelledOnce root selection → (sections.map (·.header root)).Nodup ∧
        ∀ s ∈ sections, ∀ item ∈ selection, Path.seenFrom root item.filePath = s.header root →
          item.selectsFile = true → s.Whole grammar read root flags) ∧
      ∀ path, root ≠ "" → Path.Plain path → ∀ s ∈ sections, ∀ t ∈ sections,
        Path.Spells root s.path path → Path.Spells root t.path path → s.path ≠ t.path →
          s.header root = path ∧ t.header root = path ∧
            ¬ (sections.map (·.header root)).Nodup := by
  have hmem := mem_sectionsOf grammar read graph root flags selection
  have hsublist := paths_sectionsOf_sublist grammar read graph root flags selection
  have hnodup := (nodup_eraseDups _).sublist hsublist
  have hheaders := nodup_headers_iff root hnodup
  refine ⟨sectionsOf grammar read graph root flags selection, contextBlock_eq .., hmem, hsublist,
    hnodup, hheaders, fun honce => ⟨hheaders.mpr fun s hs t ht heq => ?_, ?_⟩, ?_⟩
  · obtain ⟨a, ha, hpath⟩ := ((hmem s).mp hs).exists_item
    obtain ⟨b, hb, hpath'⟩ := ((hmem t).mp ht).exists_item
    rw [FileSection.header, FileSection.header, ← hpath, ← hpath'] at heq
    rw [← hpath, ← hpath', honce a ha b hb heq]
  · intro s hs item hitem hseen hwhole
    obtain ⟨a, ha, hpath⟩ := ((hmem s).mp hs).exists_item
    rw [FileSection.header, ← hpath] at hseen
    exact ((hmem s).mp hs).whole hitem ((honce item hitem a ha hseen).trans hpath) hwhole
  · intro path hroot hplain s hs t ht hspells hspells' hne
    have hheader := hplain.seenFrom_eq hroot hspells
    have hheader' := hplain.seenFrom_eq hroot hspells'
    refine ⟨hheader, hheader', fun hdistinct => ?_⟩
    exact hne (hheaders.mp hdistinct s hs t ht (hheader.trans hheader'.symm))

/-- A folder with two files. -/
def twoFiles : Directory :=
  (({ root := "/w" } : Directory).write ["A.cs"] "class A \x7b \x7d\n".toUTF8).write ["B.cs"]
    "class B \x7b \x7d\n".toUTF8

/-- Selects the files at `paths`. -/
def wholeFiles (paths : List String) : List SelectedItem :=
  paths.map fun path => { path, isWholeFile := true }

theorem one_section_per_spelling_twoFiles :
    SpelledOnce "/w" (wholeFiles ["A.cs", "./B.cs", "A.cs"]) ∧
    ∃ sections : List FileSection,
      contextBlock (fun text => .ofFile text.utf8ByteSize []) twoFiles.text? none "/w" .keepAll
        (wholeFiles ["A.cs", "./B.cs", "A.cs"]) = "\n".intercalate (sections.map (·.text "/w")) ∧
      (sections.map (·.header "/w")).Nodup := by
  have honce : SpelledOnce "/w" (wholeFiles ["A.cs", "./B.cs", "A.cs"]) := by decide +kernel
  obtain ⟨sections, htext, -, -, -, -, hheaders, -⟩ := one_section_per_spelling
    (fun text => .ofFile text.utf8ByteSize []) twoFiles.text? none "/w" .keepAll
    (wholeFiles ["A.cs", "./B.cs", "A.cs"])
  exact ⟨honce, sections, htext, (hheaders honce).1⟩

/-- A file that is selected under two spellings is shown twice. -/
theorem contextBlock_repeats_file :
    contextBlock (fun text => .ofFile text.utf8ByteSize []) twoFiles.text? none "/w" .keepAll
      (wholeFiles ["A.cs", "./A.cs"]) =
        "// File: A.cs\nclass A \x7b \x7d\n\n// File: A.cs\nclass A \x7b \x7d\n" := by
  decide +kernel

end CodeAtlas
