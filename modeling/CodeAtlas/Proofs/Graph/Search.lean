import CodeAtlas.Graph.Closure
import Mathlib.Data.List.Perm.Subperm

/-!
# What a search collects and follows

A search meets the links of the ids that it follows, one id after the other. Of all links to an id,
only the first that it meets counts: the id is collected there, and it is followed if that link is
deep. The search ends, because it follows the start and then at most one id for each link.

## Main definitions

* `SymbolGraph.freshLinks`: the links of a list that lead to an id for the first time.
* `SymbolGraph.Run`: the states of a search that is not bounded, with the ids followed so far.
* `SymbolGraph.followed`, `SymbolGraph.metLinks`: the ids that a whole search follows, and the links
  that it meets.

## Main statements

* `SymbolGraph.Run.length_le`: a bound on the length of every run.
* `SymbolGraph.exists_finished_run`: the run that gives the dependencies ends with an empty queue.
* `SymbolGraph.mem_dependencies_iff`, `SymbolGraph.mem_followed_iff`: what the search returns and
  what it follows, in terms of the links that it meets.
-/
namespace CodeAtlas.SymbolGraph

open Std

/-! ## Links of a graph -/

theorem values_eq_map_toList {β : Type} (t : TreeMap String β) :
    t.values = t.toList.map Prod.snd := by
  change DTreeMap.Internal.Impl.values _ = (DTreeMap.Internal.Impl.Const.toList _).map Prod.snd
  rw [DTreeMap.Internal.Impl.values_eq_map_snd,
    DTreeMap.Internal.Impl.Const.toList_eq_toListModel_map, List.map_map]
  rfl

@[simp] theorem mem_values_iff {g : SymbolGraph} {n : Symbol} :
    n ∈ g.nodes.values ↔ ∃ id, g.node? id = some n := by
  simp [values_eq_map_toList, TreeMap.mem_toList_iff_getElem?_eq_some, node?]

@[grind →] theorem mem_values_of_node? {g : SymbolGraph} {id : String} {n : Symbol}
    (h : g.node? id = some n) : n ∈ g.nodes.values :=
  mem_values_iff.mpr ⟨id, h⟩

@[simp] theorem mem_linksFrom {g : SymbolGraph} {id : String} {l : Link} :
    l ∈ g.linksFrom id ↔ ∃ n, g.node? id = some n ∧ l ∈ n.links := by
  cases h : g.node? id <;> simp [linksFrom, h]

@[grind →] theorem isSome_of_mem_linksFrom {g : SymbolGraph} {id : String} {l : Link}
    (h : l ∈ g.linksFrom id) : (g.node? id).isSome := by
  obtain ⟨n, hn, -⟩ := mem_linksFrom.mp h
  simp [hn]

theorem linksFrom_subset_allLinks (g : SymbolGraph) (id : String) :
    g.linksFrom id ⊆ g.allLinks := by
  intro l hl
  obtain ⟨n, hn, hl⟩ := mem_linksFrom.mp hl
  exact List.mem_flatMap.mpr ⟨n, mem_values_of_node? hn, hl⟩

/-! ## Links that lead to an id for the first time -/

/-- The links whose target is neither among `seen` nor the target of an earlier link. -/
def freshLinks (seen : List String) : List Link → List Link
  | [] => []
  | l :: links =>
    if l.target ∈ seen then freshLinks seen links
    else l :: freshLinks (seen ++ [l.target]) links

theorem freshLinks_append (seen : List String) (ls ms : List Link) :
    freshLinks seen (ls ++ ms) =
      freshLinks seen ls ++ freshLinks (seen ++ (freshLinks seen ls).map (·.target)) ms := by
  fun_induction freshLinks seen ls with
  | case1 => simp
  | case2 seen l ls h ih => simpa [freshLinks, h] using ih
  | case3 seen l ls h ih => simpa [freshLinks, h] using ih

/-- A link is fresh exactly if its target is unseen and it is the first one with that target. -/
@[simp] theorem mem_freshLinks {seen : List String} {links : List Link} {l : Link} :
    l ∈ freshLinks seen links ↔
      l.target ∉ seen ∧ links.find? (·.target == l.target) = some l := by
  fun_induction freshLinks seen links with
  | case1 => simp
  | case2 seen m links h ih =>
    have hne : l.target ∉ seen → m.target ≠ l.target := fun hl he => hl (he ▸ h)
    rw [ih]
    constructor
    · rintro ⟨hl, hf⟩
      exact ⟨hl, by rw [List.find?_cons_of_neg (by simpa using hne hl), hf]⟩
    · rintro ⟨hl, hf⟩
      exact ⟨hl, by rwa [List.find?_cons_of_neg (by simpa using hne hl)] at hf⟩
  | case3 seen m links h ih =>
    rw [List.mem_cons, ih]
    by_cases he : m.target = l.target
    · -- The link `m` comes first, and after it the target counts as seen.
      rw [List.find?_cons_of_pos (by simpa using he)]
      simp [← he, h, eq_comm]
    · have hml : l ≠ m := fun e => he (e ▸ rfl)
      rw [List.find?_cons_of_neg (by simpa using he)]
      simp [hml, Ne.symm he]

theorem nodup_freshLinks (seen : List String) (links : List Link) :
    (freshLinks seen links).Nodup := by
  fun_induction freshLinks seen links with
  | case1 => exact List.nodup_nil
  | case2 seen l links h ih => exact ih
  | case3 seen l links h ih =>
    refine List.nodup_cons.mpr ⟨fun hl => ?_, ih⟩
    exact (mem_freshLinks.mp hl).1 (by simp)

theorem freshLinks_subset (seen : List String) (links : List Link) :
    freshLinks seen links ⊆ links := fun _ hl =>
  List.mem_of_find?_eq_some (mem_freshLinks.mp hl).2

/-- An id is the target of a fresh link exactly if it is unseen and the target of some link. -/
theorem mem_map_target_freshLinks {seen : List String} {links : List Link} {x : String} :
    x ∈ (freshLinks seen links).map (·.target) ↔ x ∉ seen ∧ ∃ l ∈ links, l.target = x := by
  constructor
  · intro hx
    obtain ⟨l, hl, rfl⟩ := List.mem_map.mp hx
    exact ⟨(mem_freshLinks.mp hl).1, l, freshLinks_subset seen links hl, rfl⟩
  · rintro ⟨hx, l, hl, rfl⟩
    obtain ⟨m, hm⟩ : ∃ m, links.find? (·.target == l.target) = some m :=
      Option.isSome_iff_exists.mp (List.find?_isSome.mpr ⟨l, hl, by simp⟩)
    have ht : m.target = l.target := by simpa using List.find?_some hm
    exact List.mem_map.mpr ⟨m, mem_freshLinks.mpr (by rw [ht]; exact ⟨hx, hm⟩), ht⟩

/-- Visiting links one by one collects the targets of the fresh ones and queues the deep ones. -/
theorem foldl_visit (links : List Link) (f : Frontier) :
    links.foldl Frontier.visit f =
      { collected := f.collected ++ (freshLinks f.collected links).map (·.target)
        queue := f.queue ++
          ((freshLinks f.collected links).filter (·.kind.isDeep)).map (·.target) } := by
  induction links generalizing f with
  | nil => simp [freshLinks]
  | cons l links ih =>
    rw [List.foldl_cons, ih]
    by_cases h : l.target ∈ f.collected
    · simp [Frontier.visit, freshLinks, h]
    · by_cases hd : l.kind.isDeep <;> simp [Frontier.visit, freshLinks, h, hd]

/-! ## Runs -/

/-- The search without a bound: `Run g start done f` says that `f` is its state after it has
followed the ids `done`, in this order. -/
inductive Run (g : SymbolGraph) (start : String) : List String → Frontier → Prop where
  | start : Run g start [] { collected := [start], queue := [start] }
  | follow {done : List String} {collected queue : List String} {id : String} :
      Run g start done { collected, queue := id :: queue } →
      Run g start (done ++ [id]) ((g.linksFrom id).foldl Frontier.visit { collected, queue })

variable {g : SymbolGraph} {start : String} {done : List String} {f : Frontier}

/-- After any number of turns, the fresh links among those met so far say what is collected, and
the deep ones among them what has been or will be followed. -/
theorem Run.eq_freshLinks (h : g.Run start done f) :
    f.collected = start :: (freshLinks [start] (done.flatMap g.linksFrom)).map (·.target) ∧
    done ++ f.queue = start ::
      ((freshLinks [start] (done.flatMap g.linksFrom)).filter (·.kind.isDeep)).map (·.target) := by
  induction h with
  | start => simp [freshLinks]
  | @follow done collected queue id h ih =>
    obtain ⟨hc, hq⟩ := ih
    simp only at hc hq
    have hfresh : freshLinks [start] ((done ++ [id]).flatMap g.linksFrom) =
        freshLinks [start] (done.flatMap g.linksFrom) ++ freshLinks collected (g.linksFrom id) := by
      rw [List.flatMap_append, freshLinks_append, hc]
      simp
    rw [foldl_visit, hfresh]
    constructor
    · simp [hc]
    · have : done ++ id :: queue = (done ++ [id]) ++ queue := by simp
      rw [← List.append_assoc, ← this, hq]
      simp

/-- Every run is short: it follows the start, and then at most one id for each link of the graph. -/
theorem Run.length_le (h : g.Run start done f) :
    done.length + f.queue.length ≤ g.allLinks.length + 1 := by
  have hsub : freshLinks [start] (done.flatMap g.linksFrom) ⊆ g.allLinks := by
    intro l hl
    obtain ⟨id, -, hl⟩ := List.mem_flatMap.mp (freshLinks_subset _ _ hl)
    exact linksFrom_subset_allLinks g id hl
  have hle := (List.subperm_of_subset (nodup_freshLinks _ _) hsub).length_le
  have hq := congrArg List.length h.eq_freshLinks.2
  have hf := List.length_filter_le (fun l : Link => l.kind.isDeep)
    (freshLinks [start] (done.flatMap g.linksFrom))
  simp only [List.length_append, List.length_cons, List.length_map] at hq
  omega

/-- What holds of the start, and of the targets of the deep links of each followed id of which it
holds, holds of all ids that a run has followed or will follow. -/
theorem Run.forall_mem_of_deep {p : String → Prop} (h : g.Run start done f) (hstart : p start)
    (hdeep : ∀ id ∈ done, p id → ∀ l ∈ g.linksFrom id, l.kind.isDeep → p l.target) :
    ∀ id ∈ done ++ f.queue, p id := by
  induction h with
  | start => simpa using hstart
  | @follow done collected queue id h ih =>
    have hprev : ∀ x ∈ done ++ id :: queue, p x :=
      ih fun x hx => hdeep x (List.mem_append_left _ hx)
    intro x hx
    rw [foldl_visit, List.append_assoc, ← List.append_assoc [id], ← List.append_assoc done,
      List.mem_append] at hx
    rcases hx with hx | hx
    · exact hprev x hx
    · obtain ⟨l, hl, rfl⟩ := List.mem_map.mp hx
      obtain ⟨hl, hd⟩ := List.mem_filter.mp hl
      exact hdeep id (by simp) (hprev id (by simp)) l (freshLinks_subset _ _ hl) hd

/-! ## The whole search -/

/-- The ids that a search bounded by `fuel` follows, in order. -/
def followedFrom (g : SymbolGraph) : (fuel : Nat) → Frontier → List String
  | 0, _ => []
  | fuel + 1, f =>
    match f.queue with
    | [] => []
    | id :: queue =>
      id :: followedFrom g fuel ((g.linksFrom id).foldl Frontier.visit { f with queue })

/-- The ids that the search for the dependencies of `start` follows, in order. -/
def followed (g : SymbolGraph) (start : String) : List String :=
  if (g.node? start).isSome then
    g.followedFrom (g.allLinks.length + 1) { collected := [start], queue := [start] }
  else []

/-- The links that the search for the dependencies of `start` meets, in order. -/
def metLinks (g : SymbolGraph) (start : String) : List Link :=
  (g.followed start).flatMap g.linksFrom

/-- A bounded search continues a run. If its bound is not less than what the run may still follow,
it goes on until the queue is empty. -/
theorem Run.exists_search (h : g.Run start done f) (fuel : Nat)
    (hfuel : g.allLinks.length + 1 ≤ done.length + fuel) :
    ∃ e, g.Run start (done ++ g.followedFrom fuel f) e ∧ e.queue = [] ∧
      g.search fuel f = e.collected := by
  induction fuel generalizing done f with
  | zero =>
    have hq : f.queue = [] := List.eq_nil_of_length_eq_zero (by have := h.length_le; omega)
    exact ⟨f, by simpa [followedFrom] using h, hq, rfl⟩
  | succ fuel ih =>
    obtain ⟨collected, queue⟩ := f
    cases queue with
    | nil => exact ⟨_, by simpa [followedFrom] using h, rfl, rfl⟩
    | cons id queue =>
      obtain ⟨e, he, hq, hs⟩ := ih h.follow (by simp; omega)
      exact ⟨e, by simpa [followedFrom] using he, hq, by simpa [search] using hs⟩

/-- The dependencies of a symbol are what a run has collected that has nothing left to follow. -/
theorem exists_finished_run (h : (g.node? start).isSome) :
    ∃ e, g.Run start (g.followed start) e ∧ e.queue = [] ∧ g.dependencies start = e.collected := by
  obtain ⟨e, he, hq, hs⟩ := (@Run.start g start).exists_search
    (g.allLinks.length + 1) (by simp)
  exact ⟨e, by simpa [followed, h] using he, hq, by simpa [dependencies, h] using hs⟩

theorem dependencies_eq (h : (g.node? start).isSome) :
    g.dependencies start = start :: (freshLinks [start] (g.metLinks start)).map (·.target) := by
  obtain ⟨e, he, -, hd⟩ := exists_finished_run h
  rw [hd, he.eq_freshLinks.1, metLinks]

theorem followed_eq (h : (g.node? start).isSome) :
    g.followed start = start ::
      ((freshLinks [start] (g.metLinks start)).filter (·.kind.isDeep)).map (·.target) := by
  obtain ⟨e, he, hq, -⟩ := exists_finished_run h
  simpa [hq, metLinks] using he.eq_freshLinks.2

@[simp] theorem dependencies_of_unknown (h : g.node? start = none) : g.dependencies start = [] := by
  simp [dependencies, h]

/-- The dependencies of a symbol are itself and the targets of all links that the search meets. -/
theorem mem_dependencies_iff (h : (g.node? start).isSome) {x : String} :
    x ∈ g.dependencies start ↔ x = start ∨ ∃ l ∈ g.metLinks start, l.target = x := by
  rw [dependencies_eq h, List.mem_cons, mem_map_target_freshLinks]
  by_cases hx : x = start <;> simp [hx]

/-- The search follows the start, and any other id exactly if the first link to it that the search
meets is deep. -/
theorem mem_followed_iff (h : (g.node? start).isSome) {x : String} :
    x ∈ g.followed start ↔
      x = start ∨ ∃ l, (g.metLinks start).find? (·.target == x) = some l ∧ l.kind.isDeep := by
  rw [followed_eq h, List.mem_cons, List.mem_map]
  by_cases hx : x = start
  · simp [hx]
  · simp only [hx, false_or, List.mem_filter, mem_freshLinks]
    constructor
    · rintro ⟨l, ⟨⟨-, hl⟩, hd⟩, rfl⟩
      exact ⟨l, hl, hd⟩
    · rintro ⟨l, hl, hd⟩
      obtain rfl : l.target = x := by simpa using List.find?_some hl
      exact ⟨l, ⟨⟨by simpa using hx, hl⟩, hd⟩, rfl⟩

end CodeAtlas.SymbolGraph
