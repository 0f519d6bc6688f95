import CodeAtlas.Proofs.Graph.Search

/-!
# Dependencies and deep paths

The dependencies of a symbol are compared with the ids that deep paths lead to, and the targets of
their links. Nothing else is ever collected. The converse fails: an id that the search first meets
by a shallow link is *shadowed*, and it is not followed even where a deep link leads to it as well.
The search follows exactly the deep paths that avoid shadowed ids, and it misses something exactly
if a shadowed id on a deep path has a link to an id that is not collected otherwise.

## Main definitions

* `SymbolGraph.Needed`: the ids at the end of a deep path, and the targets of their links.
* `SymbolGraph.Shadowed`: ids that the search first meets by a shallow link.
* `SymbolGraph.ClearPath`: deep paths that avoid shadowed ids.
* `SymbolGraph.OpenPath`: paths that never pass through an id that only shallow links lead to.
-/
namespace CodeAtlas.SymbolGraph

variable {g : SymbolGraph} {start id x : String}

/-! ## Paths -/

/-- The id `x` is needed from `start` if a deep path leads to it, or to a symbol that has a link to
it. -/
def Needed (g : SymbolGraph) (start x : String) : Prop :=
  ∃ id, g.DeepPath start id ∧ (x = id ∨ ∃ l ∈ g.linksFrom id, l.target = x)

/-- The first link to `id` that the search from `start` meets is shallow. The start is followed
without any link to it. -/
def Shadowed (g : SymbolGraph) (start id : String) : Prop :=
  id ≠ start ∧
    ∃ l, (g.metLinks start).find? (·.target == id) = some l ∧ l.kind.isDeep = false

/-- A path of deep links between symbols of `g` from `start`, none of them shadowed. -/
inductive ClearPath (g : SymbolGraph) (start : String) : String → Prop where
  | refl : (g.node? start).isSome → ClearPath g start start
  | step {id : String} {l : Link} :
      ClearPath g start id → l ∈ g.linksFrom id → l.kind.isDeep = true →
      (g.node? l.target).isSome → ¬ g.Shadowed start l.target → ClearPath g start l.target

/-- From where deep paths lead, only shallow links lead to `id`, and it is not `start`. -/
def ShallowOnly (g : SymbolGraph) (start id : String) : Prop :=
  id ≠ start ∧
    ∀ m, g.DeepPath start m → ∀ l ∈ g.linksFrom m, l.target = id → l.kind.isDeep = false

/-- A path of links of any kind from `start`, none of which leaves an id that only shallow links
lead to. -/
inductive OpenPath (g : SymbolGraph) (start : String) : String → Prop where
  | refl : OpenPath g start start
  | step {id : String} {l : Link} :
      OpenPath g start id → ¬ g.ShallowOnly start id → l ∈ g.linksFrom id →
      OpenPath g start l.target

theorem DeepPath.step_of_mem_linksFrom {l : Link} (h : g.DeepPath start id)
    (hl : l ∈ g.linksFrom id) (hd : l.kind.isDeep = true) (ht : (g.node? l.target).isSome) :
    g.DeepPath start l.target := by
  obtain ⟨n, hn, hl⟩ := mem_linksFrom.mp hl
  exact .step h hn hl hd ht

theorem DeepPath.isSome_start (h : g.DeepPath start id) : (g.node? start).isSome := by
  induction h with
  | refl h => exact h
  | step _ _ _ _ _ ih => exact ih

@[grind →] theorem ClearPath.deepPath (h : g.ClearPath start id) : g.DeepPath start id := by
  induction h with
  | refl h => exact .refl h
  | step _ hl hd ht _ ih => exact ih.step_of_mem_linksFrom hl hd ht

theorem DeepPath.not_shallowOnly (h : g.DeepPath start id) : ¬ g.ShallowOnly start id := by
  rintro ⟨hne, hshallow⟩
  cases h with
  | refl => exact hne rfl
  | step hp hn hl hd =>
    have := hshallow _ hp _ (mem_linksFrom.mpr ⟨_, hn, hl⟩) rfl
    simp [hd] at this

@[grind →] theorem DeepPath.openPath (h : g.DeepPath start id) : g.OpenPath start id := by
  induction h with
  | refl => exact .refl
  | step hp hn hl _ _ ih => exact .step ih hp.not_shallowOnly (mem_linksFrom.mpr ⟨_, hn, hl⟩)

/-! ## What the search follows -/

theorem not_shadowed_of_mem_followed (h : (g.node? start).isSome) (hid : id ∈ g.followed start) :
    ¬ g.Shadowed start id := by
  rintro ⟨hne, l, hl, hs⟩
  obtain rfl | ⟨m, hm, hd⟩ := (mem_followed_iff h).mp hid
  · exact hne rfl
  · obtain rfl : l = m := Option.some.inj (hl.symm.trans hm)
    simp [hd] at hs

/-- An id that is collected and not shadowed is followed. -/
theorem mem_followed_of_not_shadowed (h : (g.node? start).isSome)
    (hid : id ∈ g.dependencies start) (hs : ¬ g.Shadowed start id) : id ∈ g.followed start := by
  rw [mem_followed_iff h]
  by_cases he : id = start
  · exact .inl he
  · obtain ⟨l, hl, ht⟩ := ((mem_dependencies_iff h).mp hid).resolve_left he
    -- Some link to the id is met, so one of them comes first, and that one is not shallow.
    obtain ⟨k, hk⟩ : ∃ k, (g.metLinks start).find? (·.target == id) = some k :=
      Option.isSome_iff_exists.mp (List.find?_isSome.mpr ⟨l, hl, by simpa using ht⟩)
    refine .inr ⟨k, hk, ?_⟩
    by_contra hd
    exact hs ⟨he, k, hk, by simpa using hd⟩

/-- A symbol is followed exactly if a clear path leads to it. -/
theorem mem_followed_iff_clearPath (hid : (g.node? id).isSome) (h : (g.node? start).isSome) :
    id ∈ g.followed start ↔ g.ClearPath start id := by
  constructor
  · intro hmem
    obtain ⟨e, he, -, -⟩ := exists_finished_run h
    have hclear := he.forall_mem_of_deep
      (p := fun x => (g.node? x).isSome → ¬ g.Shadowed start x → g.ClearPath start x)
      (fun _ _ => .refl h)
      fun m hm ih l hl hd ht hs =>
        .step (ih (isSome_of_mem_linksFrom hl) (not_shadowed_of_mem_followed h hm)) hl hd ht hs
    exact hclear id (List.mem_append_left _ hmem) hid (not_shadowed_of_mem_followed h hmem)
  · intro hp
    induction hp with
    | refl => exact (mem_followed_iff h).mpr (.inl rfl)
    | @step m l hp hl hd ht hs ih =>
      have hm := ih (isSome_of_mem_linksFrom hl)
      have hmet : l ∈ g.metLinks start := List.mem_flatMap.mpr ⟨m, hm, hl⟩
      exact mem_followed_of_not_shadowed h ((mem_dependencies_iff h).mpr (.inr ⟨l, hmet, rfl⟩)) hs

/-- What the search collects: the start, and the targets of the links at the ends of clear
paths. -/
theorem mem_dependencies_iff_clearPath :
    x ∈ g.dependencies start ↔
      (x = start ∧ (g.node? start).isSome) ∨
        ∃ id, g.ClearPath start id ∧ ∃ l ∈ g.linksFrom id, l.target = x := by
  by_cases h : (g.node? start).isSome
  · rw [mem_dependencies_iff h]
    constructor
    · rintro (rfl | ⟨l, hl, rfl⟩)
      · exact .inl ⟨rfl, h⟩
      · obtain ⟨id, hid, hl⟩ := List.mem_flatMap.mp hl
        have hp := (mem_followed_iff_clearPath (isSome_of_mem_linksFrom hl) h).mp hid
        exact .inr ⟨id, hp, l, hl, rfl⟩
    · rintro (⟨rfl, -⟩ | ⟨id, hp, l, hl, rfl⟩)
      · exact .inl rfl
      · have hid := (mem_followed_iff_clearPath (isSome_of_mem_linksFrom hl) h).mpr hp
        exact .inr ⟨l, List.mem_flatMap.mpr ⟨id, hid, hl⟩, rfl⟩
  · have hnone : g.node? start = none := by simpa using h
    rw [dependencies_of_unknown hnone]
    refine iff_of_false List.not_mem_nil ?_
    rintro (⟨-, hs⟩ | ⟨id, hp, -⟩)
    · exact h hs
    · exact h hp.deepPath.isSome_start

/-! ## A graph with a shadowed symbol -/

/-- A method of one file with the given `id` and `links`. -/
def plainMethod (id : String) (links : LinkSet) : Symbol :=
  { id, name := id, kind := .method, path := "a.cs", start := 0, length := 5, links }

/-- `A` accesses `B` and calls `C`, which calls `B` too. Only `B` calls `D`. -/
def shadowingGraph : SymbolGraph :=
  [plainMethod "A" [⟨"B", .accesses, 0, 0⟩, ⟨"C", .calls, 0, 0⟩],
    plainMethod "C" [⟨"B", .calls, 0, 0⟩],
    plainMethod "B" [⟨"D", .calls, 0, 0⟩],
    plainMethod "D" []].foldl insert empty

theorem deepPath_shadowingGraph : shadowingGraph.DeepPath "A" "B" := by
  have hA : shadowingGraph.DeepPath "A" "A" := .refl (by decide)
  have hC : shadowingGraph.DeepPath "A" "C" :=
    hA.step_of_mem_linksFrom (l := ⟨"C", .calls, 0, 0⟩) (by decide) rfl (by decide)
  exact hC.step_of_mem_linksFrom (l := ⟨"B", .calls, 0, 0⟩) (by decide) rfl (by decide)

/-! ## Nothing else is collected -/

/-- The search from `start` ends, an unknown symbol has no dependencies, and each dependency of a
known one is the symbol itself or the target of a link at the end of a deep path. In particular,
what can be reached only by the links of ids that only shallow links lead to is no dependency. -/
theorem dependencies_sound (g : SymbolGraph) (start : String) :
    (∀ done f, g.Run start done f → done.length ≤ g.allLinks.length + 1) ∧
    ((g.node? start).isSome →
      ∃ done f, g.Run start done f ∧ f.queue = [] ∧ g.dependencies start = f.collected) ∧
    (g.node? start = none → g.dependencies start = []) ∧
    ∀ x ∈ g.dependencies start,
      (x = start ∨ ∃ id n l,
        g.DeepPath start id ∧ g.node? id = some n ∧ l ∈ n.links ∧ l.target = x) ∧
      g.OpenPath start x := by
  refine ⟨fun done f h => ?_, fun h => ⟨_, exists_finished_run h⟩, dependencies_of_unknown,
    fun x hx => ?_⟩
  · have := h.length_le
    omega
  · obtain ⟨rfl, -⟩ | ⟨id, hp, l, hl, rfl⟩ := mem_dependencies_iff_clearPath.mp hx
    · exact ⟨.inl rfl, .refl⟩
    · obtain ⟨n, hn, hln⟩ := mem_linksFrom.mp hl
      exact ⟨.inr ⟨id, n, l, hp.deepPath, hn, hln, rfl⟩,
        .step hp.deepPath.openPath hp.deepPath.not_shallowOnly hl⟩

theorem dependencies_sound_shadowingGraph :
    "B" ∈ shadowingGraph.dependencies "A" ∧ shadowingGraph.OpenPath "A" "B" ∧
      shadowingGraph.dependencies "X" = [] :=
  ⟨by decide, ((dependencies_sound shadowingGraph "A").2.2.2 "B" (by decide)).2,
    (dependencies_sound shadowingGraph "X").2.2.1 (by decide)⟩

/-! ## What is missed -/

/-- Along a deep path, every id is collected as long as the shadowed ones before it have no links
to ids that are not. -/
theorem DeepPath.mem_dependencies
    (hshadowed : ∀ id, g.DeepPath start id → g.Shadowed start id →
      ∀ l ∈ g.linksFrom id, l.target ∈ g.dependencies start)
    (h : g.DeepPath start id) :
    id ∈ g.dependencies start ∧ ∀ l ∈ g.linksFrom id, l.target ∈ g.dependencies start := by
  have hstart := h.isSome_start
  have hlinks : ∀ m, g.DeepPath start m → m ∈ g.dependencies start →
      ∀ l ∈ g.linksFrom m, l.target ∈ g.dependencies start := by
    intro m hp hm l hl
    by_cases hs : g.Shadowed start m
    · exact hshadowed m hp hs l hl
    · have hf : m ∈ g.followed start := mem_followed_of_not_shadowed hstart hm hs
      exact (mem_dependencies_iff hstart).mpr (.inr ⟨l, List.mem_flatMap.mpr ⟨m, hf, hl⟩, rfl⟩)
  suffices hid : id ∈ g.dependencies start from ⟨hid, hlinks id h hid⟩
  induction h with
  | refl => exact (mem_dependencies_iff hstart).mpr (.inl rfl)
  | step hp hn hl _ _ ih => exact hlinks _ hp ih _ (mem_linksFrom.mpr ⟨_, hn, hl⟩)

/-- The search collects exactly `start` and the targets of the links at the ends of clear paths. So
it collects all that is needed exactly if no shadowed id at the end of a deep path has a link to an
id that is not collected otherwise. -/
theorem dependencies_complete_iff (g : SymbolGraph) (start : String) :
    (∀ x, x ∈ g.dependencies start ↔
      (x = start ∧ (g.node? start).isSome) ∨
        ∃ id, g.ClearPath start id ∧ ∃ l ∈ g.linksFrom id, l.target = x) ∧
    ((∀ x, g.Needed start x → x ∈ g.dependencies start) ↔
      ∀ id, g.DeepPath start id → g.Shadowed start id →
        ∀ l ∈ g.linksFrom id, l.target ∈ g.dependencies start) := by
  refine ⟨fun x => mem_dependencies_iff_clearPath, fun h id hp _ l hl => ?_, fun h x hx => ?_⟩
  · exact h l.target ⟨id, hp, .inr ⟨l, hl, rfl⟩⟩
  · obtain ⟨id, hp, rfl | ⟨l, hl, rfl⟩⟩ := hx
    · exact (hp.mem_dependencies h).1
    · exact (hp.mem_dependencies h).2 l hl

/-- A deep path leads to `B`, which calls `D`, but `D` is not collected: `B` is met by the shallow
link of `A` first. -/
theorem exists_needed_not_mem_dependencies :
    (shadowingGraph.node? "A").isSome ∧ shadowingGraph.Needed "A" "D" ∧
      "D" ∉ shadowingGraph.dependencies "A" :=
  ⟨by decide, ⟨"B", deepPath_shadowingGraph, .inr ⟨⟨"D", .calls, 0, 0⟩, by decide, rfl⟩⟩, by decide⟩

end CodeAtlas.SymbolGraph
