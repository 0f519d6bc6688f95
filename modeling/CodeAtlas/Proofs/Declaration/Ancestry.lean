import CodeAtlas.Proofs.Declaration.Resolution
import Mathlib.Data.List.Perm.Subperm
import Mathlib.Data.List.TakeWhile
import Mathlib.Logic.Relation

/-!
# The base types of a type

The chain of a type is found depth first: the pending types are on a stack, and what a type is based
on is pushed when the type is visited for the first time. Bases may be pushed many times over, and
they may lead back to where the walk came from. The walk ends all the same, since it visits each
entry of the table at most once, and it has then visited the types that can be reached from the
first one, no others.

## Main definitions

* `Table.IsBase`: a type is based on another one.
* `Table.Climbs`: the walk without a limit, from its start to its end.
* `Table.Climbing`: what holds in every state of a walk.

## Main statements

* `Table.climbs_chainFrom`: a walk whose limit allows for all entries ends by itself.
* `Table.Climbing.of_climbs`: what holds at the start of a walk holds at its end.
* `Table.ancestry_exact`: the chain of a type is the closure of its bases, each type behind one that
  is based on it.
-/
namespace CodeAtlas.Table

variable {t : Table} {i j k first : Nat} {visited pending chain : List Nat}

/-! ## Bases -/

/-- An entry of the base list of `i` denotes `j`, read in the namespace of `i`. -/
def IsBase (t : Table) (i j : Nat) : Prop :=
  t.Holds i fun e => ∃ text ∈ e.baseTypes, t.denotedType text e.namespace = some j

@[simp] theorem mem_bases : j ∈ t.bases i ↔ t.IsBase i j := by
  unfold bases IsBase Holds
  cases t.entries[i]? <;> simp

@[grind →] theorem lt_size_of_mem_bases (h : j ∈ t.bases i) : j < t.size := by
  obtain ⟨e, -, text, -, hdenoted⟩ := mem_bases.mp h
  obtain ⟨base, hbase, -⟩ := denotedType_eq_some hdenoted
  exact (Array.getElem?_eq_some_iff.mp hbase).1

/-! ## The walk -/

/-- The walk up the bases: `Climbs visited pending chain` says that it ends, and that it has then
visited `chain`, if it goes on with the stack `pending` after it has visited `visited`. A type is
looked up among the visited ones only when it is popped. -/
inductive Climbs (t : Table) : List Nat → List Nat → List Nat → Prop
  | done {visited : List Nat} : Climbs t visited [] visited
  | skip {i : Nat} {visited pending chain : List Nat} (hi : i ∈ visited)
      (h : Climbs t visited pending chain) : Climbs t visited (i :: pending) chain
  | visit {i : Nat} {visited pending chain : List Nat} (hi : i ∉ visited)
      (h : Climbs t (visited ++ [i]) (t.bases i ++ pending) chain) :
      Climbs t visited (i :: pending) chain

/-- A walk has one end. -/
theorem Climbs.unique {chain' : List Nat} (h : t.Climbs visited pending chain)
    (h' : t.Climbs visited pending chain') : chain' = chain := by
  induction h with
  | done =>
    cases h'
    rfl
  | skip hi _ ih =>
    cases h' with
    | skip _ h' => exact ih h'
    | visit hi' _ => exact absurd hi hi'
  | visit hi _ ih =>
    cases h' with
    | skip hi' _ => exact absurd hi' hi
    | visit _ h' => exact ih h'

theorem Climbs.skips {front : List Nat} (hfront : ∀ j ∈ front, j ∈ visited)
    (h : t.Climbs visited pending chain) : t.Climbs visited (front ++ pending) chain := by
  induction front with
  | nil => exact h
  | cons j front ih =>
    obtain ⟨hj, hfront⟩ := List.forall_mem_cons.mp hfront
    exact .skip hj (ih hfront)

/-- If the limit allows for all entries that have not been visited yet, the walk does not reach
it. -/
theorem climbs_chainFrom (all : List Nat) (hall : ∀ i, t.bases i ⊆ all) {fuel : Nat}
    (hnodup : visited.Nodup) (hvisited : visited ⊆ all) (hpending : pending ⊆ all)
    (hfuel : all.length ≤ visited.length + fuel) :
    t.Climbs visited pending (t.chainFrom fuel visited pending) := by
  induction fuel generalizing visited pending with
  | zero =>
    -- all entries have been visited, so that those on the stack are skipped
    have hperm := (hnodup.subperm hvisited).perm_of_length_le (by simpa using hfuel)
    have hskip := Climbs.skips (t := t) (fun j hj => hperm.mem_iff.mpr (hpending hj)) .done
    simpa [chainFrom] using hskip
  | succ fuel ih =>
    have hsplit := List.takeWhile_append_dropWhile (p := visited.contains) (l := pending)
    have hfront : ∀ j ∈ pending.takeWhile visited.contains, j ∈ visited :=
      fun j hj => by simpa using List.mem_takeWhile_imp hj
    rw [chainFrom]
    cases hrest : pending.dropWhile visited.contains with
    | nil =>
      rw [hrest] at hsplit
      have hskip := Climbs.skips (t := t) hfront .done
      rwa [hsplit] at hskip
    | cons i rest =>
      have hi : i ∉ visited := by
        have hne : pending.dropWhile visited.contains ≠ [] := by simp [hrest]
        have hhead := List.head_dropWhile_not visited.contains hne
        simpa [hrest] using hhead
      have hsub : i :: rest ⊆ all :=
        fun j hj => hpending ((List.dropWhile_sublist _).subset (hrest ▸ hj))
      obtain ⟨hiall, hrestall⟩ := List.cons_subset.mp hsub
      rw [hrest] at hsplit
      rw [← hsplit]
      refine .skips hfront (.visit hi (ih ?_ ?_ ?_ ?_))
      · exact List.nodup_append.mpr ⟨hnodup, by simp, by grind⟩
      · exact List.append_subset.mpr ⟨hvisited, by simpa using hiall⟩
      · exact List.append_subset.mpr ⟨hall i, hrestall⟩
      · simp only [List.length_append, List.length_singleton]
        omega

/-- The walk that gives the chain of a type ends by itself. -/
theorem climbs_ancestry (t : Table) (i : Nat) : t.Climbs [] [t.leadPart i] (t.ancestry i) := by
  refine climbs_chainFrom (t.leadPart i :: List.range t.size) (fun k j hj => ?_)
    List.nodup_nil (List.nil_subset _) (by simp) (by simp)
  exact List.mem_cons_of_mem _ (List.mem_range.mpr (lt_size_of_mem_bases hj))

/-! ## What a walk keeps -/

/-- A state of the walk from `first` up the bases: no type has been `visited` twice, each but the
first has been visited behind a type that is based on it, what is `pending` is so for the same
reason, and no base of a visited type has been forgotten. -/
structure Climbing (t : Table) (first : Nat) (visited pending : List Nat) : Prop where
  nodup : visited.Nodup
  head : (visited ++ pending).head? = some first
  behind : ∀ pre j post, visited = pre ++ j :: post → pre ≠ [] → ∃ k ∈ pre, t.IsBase k j
  pushed : ∀ j ∈ pending, j = first ∨ ∃ k ∈ visited, t.IsBase k j
  kept : ∀ k ∈ visited, ∀ j, t.IsBase k j → j ∈ visited ∨ j ∈ pending

theorem climbing_start (t : Table) (first : Nat) : t.Climbing first [] [first] where
  nodup := List.nodup_nil
  head := rfl
  behind := by simp
  pushed := by simp
  kept := by simp

theorem Climbing.skip (hi : i ∈ visited) (h : t.Climbing first visited (i :: pending)) :
    t.Climbing first visited pending where
  nodup := h.nodup
  head := by
    have hne := List.ne_nil_of_mem hi
    rw [List.head?_append_of_ne_nil _ hne, ← h.head, List.head?_append_of_ne_nil _ hne]
  behind := h.behind
  pushed := fun j hj => h.pushed j (List.mem_cons_of_mem _ hj)
  kept := by
    intro k hk j hj
    rcases h.kept k hk j hj with hmem | hmem
    · exact .inl hmem
    · rcases List.mem_cons.mp hmem with rfl | hmem
      · exact .inl hi
      · exact .inr hmem

theorem Climbing.visit (hi : i ∉ visited) (h : t.Climbing first visited (i :: pending)) :
    t.Climbing first (visited ++ [i]) (t.bases i ++ pending) where
  nodup := List.nodup_append.mpr ⟨h.nodup, by simp, by grind⟩
  head := by
    rw [List.head?_append_of_ne_nil _ (by simp), ← h.head]
    cases visited <;> rfl
  behind := by
    intro pre j post heq hpre
    rcases List.eq_nil_or_concat post with rfl | ⟨init, last, rfl⟩
    · -- the new type is not the first one, which has been visited
      obtain ⟨rfl, hj⟩ := List.append_inj' heq rfl
      obtain rfl := (List.cons.inj hj).1
      have hfirst : first ∈ visited := by
        have hhead := h.head
        rw [List.head?_append_of_ne_nil _ hpre] at hhead
        exact List.mem_of_head? hhead
      rcases h.pushed i List.mem_cons_self with rfl | hbase
      · exact absurd hfirst hi
      · exact hbase
    · have hcut : visited ++ [i] = (pre ++ j :: init) ++ [last] := by simpa using heq
      obtain ⟨hvisited, -⟩ := List.append_inj' hcut rfl
      exact h.behind pre j init hvisited hpre
  pushed := by
    intro j hj
    rcases List.mem_append.mp hj with hj | hj
    · exact .inr ⟨i, by simp, mem_bases.mp hj⟩
    · refine (h.pushed j (List.mem_cons_of_mem _ hj)).imp_right ?_
      rintro ⟨k, hk, hbase⟩
      exact ⟨k, List.mem_append_left _ hk, hbase⟩
  kept := by
    intro k hk j hj
    rcases List.mem_append.mp hk with hk | hk
    · have := h.kept k hk j hj
      grind
    · obtain rfl := List.mem_singleton.mp hk
      exact .inr (List.mem_append_left _ (mem_bases.mpr hj))

/-- What holds at the start of a walk holds at its end, with nothing left on the stack. -/
theorem Climbing.of_climbs (h : t.Climbs visited pending chain)
    (hstart : t.Climbing first visited pending) : t.Climbing first chain [] := by
  induction h with
  | done => exact hstart
  | skip hi _ ih => exact ih (hstart.skip hi)
  | visit hi _ ih => exact ih (hstart.visit hi)

/-! ## The chain of a type -/

/-- A finished walk has visited the types that can be reached from the first one. -/
theorem Climbing.mem_iff (h : t.Climbing first chain []) :
    j ∈ chain ↔ Relation.ReflTransGen t.IsBase first j := by
  have hhead : chain.head? = some first := by simpa using h.head
  constructor
  · -- each type stands behind one that is based on it, and all these can be reached
    have hreach (n : Nat) : ∀ pre k post, pre.length = n → chain = pre ++ k :: post →
        Relation.ReflTransGen t.IsBase first k := by
      induction n using Nat.strongRecOn with
      | ind n ih =>
        intro pre k post hlen heq
        by_cases hpre : pre = []
        · subst hpre
          simp [heq] at hhead
          subst hhead
          exact .refl
        · obtain ⟨b, hb, hbase⟩ := h.behind pre k post heq hpre
          obtain ⟨pre', post', rfl⟩ := List.append_of_mem hb
          refine (ih pre'.length ?_ pre' b (post' ++ k :: post) rfl ?_).tail hbase
          · simp only [List.length_append, List.length_cons] at hlen
            omega
          · simp [heq]
    intro hj
    obtain ⟨pre, post, heq⟩ := List.append_of_mem hj
    exact hreach pre.length pre j post rfl heq
  · intro hreach
    induction hreach with
    | refl => exact List.mem_of_head? hhead
    | tail _ hbase ih => simpa using h.kept _ ih _ hbase

theorem climbing_ancestry (t : Table) (type : Nat) :
    t.Climbing (t.leadPart type) (t.ancestry type) [] :=
  .of_climbs (climbs_ancestry t type) (climbing_start t _)

/-- The chain of a type starts with its first part. -/
@[simp] theorem head?_ancestry (t : Table) (type : Nat) :
    (t.ancestry type).head? = some (t.leadPart type) := by
  simpa using (climbing_ancestry t type).head

/-- The chain of the type at position `type`: the walk up its bases ends, whatever they lead to, and
its end is the chain. The chain starts with the first part of the type and repeats nothing, it holds
the types that can be reached by bases, and each later one stands behind a type that is based on
it. -/
theorem ancestry_exact (t : Table) (type : Nat) :
    (∀ chain, t.Climbs [] [t.leadPart type] chain ↔ chain = t.ancestry type) ∧
    (t.ancestry type).head? = some (t.leadPart type) ∧ (t.ancestry type).Nodup ∧
    (∀ j, j ∈ t.ancestry type ↔ Relation.ReflTransGen t.IsBase (t.leadPart type) j) ∧
    ∀ pre j post, t.ancestry type = pre ++ j :: post → pre ≠ [] → ∃ k ∈ pre, t.IsBase k j := by
  have hclimbs := climbs_ancestry t type
  have hend := climbing_ancestry t type
  refine ⟨fun chain => ⟨hclimbs.unique, ?_⟩, head?_ancestry t type, hend.nodup,
    fun j => hend.mem_iff, hend.behind⟩
  rintro rfl
  exact hclimbs

/-- The declaration of a class `name` outside of all namespaces. -/
def plainClass (name : String) (baseTypes : List String) (isPartial : Bool) : Declaration where
  segment := name
  name := name
  names := [name]
  kind := .class
  memberKind := none
  path := "a.cs"
  start := 0
  length := 0
  «namespace» := ""
  parent := none
  valueType := none
  baseTypes := baseTypes
  paramCount := 0
  isPartial := isPartial

/-- Classes that are based on each other in a circle, by two ways. The first one comes in two parts,
the second of which also has a built-in base. -/
def circularTable : Table :=
  .ofFiles [[plainClass "A" ["B"] true], [plainClass "A" ["C", "Exception"] true],
    [plainClass "B" ["D"] false, plainClass "C" ["D"] false, plainClass "D" ["A"] false]] []

theorem ancestry_exact_circular :
    circularTable.ancestry 1 = [0, 2, 4, 3] ∧ circularTable.Climbs [] [0] [0, 2, 4, 3] ∧
    Relation.ReflTransGen circularTable.IsBase 0 3 ∧
    ∃ k ∈ [0, 2, 4], circularTable.IsBase k 3 := by
  have hchain : circularTable.ancestry 1 = [0, 2, 4, 3] := by decide +kernel
  have hlead : circularTable.leadPart 1 = 0 := by decide +kernel
  obtain ⟨hclimbs, -, -, hmem, hbehind⟩ := ancestry_exact circularTable 1
  rw [hchain, hlead] at hclimbs hmem
  exact ⟨hchain, (hclimbs _).mpr rfl, (hmem 3).mp (by simp),
    hbehind [0, 2, 4] 3 [] hchain (by simp)⟩

end CodeAtlas.Table
