import CodeAtlas.Proofs.Difference.Report

/-!
# Added and removed nodes are dual

Comparing two trees in the other direction turns added nodes into removed ones. Both are found by
the same walk, which goes down through paired nodes and reports the first unpaired node on every
way. The pairs of a comparison can be made in one pass over the positions of the new tree: the nodes
of both trees at a position are paired in order, as far as there are nodes on both sides. A pass
over the positions of the old tree makes the same pairs.

## Main definitions

* `Tree.pairs`: the pairs that one pass over the new tree makes.
* `Tree.unpaired`: the walk.

## Main statements

* `Tree.mem_pairs_comm`: a pass over either tree makes the same pairs.
* `Tree.added_newSide_eq_unpaired`, `Tree.oldSide_eq_unpaired`: added and removed nodes by that
  walk.
* `added_eq_removed_swap`: the nodes that are added in one direction are removed in the other.
-/
namespace CodeAtlas

namespace Tree

/-! ## Pairs -/

/-- The pairs of a `new` and an `old` node that one pass over the new nodes makes: at each position,
the nodes of both sides in order. -/
def pairs (old new : List (Nat × Tree)) : List ((Nat × Tree) × (Nat × Tree)) :=
  new.flatMap fun p =>
    (new.filter fun q => q.2.samePosition p.2).zip (old.filter fun q => q.2.samePosition p.2)

theorem samePosition_comm (a b : Tree) : a.samePosition b = b.samePosition a := by
  simp only [samePosition, Bool.beq_comm]

theorem samePosition_trans {a b c : Tree} (hab : a.samePosition b = true)
    (hbc : b.samePosition c = true) : a.samePosition c = true := by
  grind [samePosition]

/-- A node stands in the list of its position behind the nodes in front of it. -/
theorem getElem?_filter_samePosition {t u : Tree} {p : Nat × Tree} {k : Nat} :
    (t.visible.filter fun q => q.2.samePosition u)[k]? = some p ↔
      p ∈ t.visible ∧ p.2.samePosition u = true ∧ rank t.visible p.1 p.2 = k := by
  have hsorted : (t.visible.filter fun q => q.2.samePosition u).Pairwise (·.1 < ·.1) :=
    pairwise_visibleFrom.filter _
  rw [getElem?_eq_some_iff_countP hsorted, List.mem_filter, and_assoc, List.countP_filter]
  refine and_congr_right fun _ => and_congr_right fun hpos => ?_
  have hsame (q : Nat × Tree) : q.2.samePosition u = q.2.samePosition p.2 := by
    grind [samePosition]
  simp only [hsame, rank]

variable {old new : Tree} {p u : Nat × Tree}

/-- The nodes of a pair stand at one position and have the same rank there. -/
theorem mem_pairs : (p, u) ∈ pairs old.visible new.visible ↔
    p ∈ new.visible ∧ u ∈ old.visible ∧ u.2.samePosition p.2 = true ∧
      rank old.visible u.1 u.2 = rank new.visible p.1 p.2 := by
  rw [pairs, List.mem_flatMap]
  constructor
  · rintro ⟨q, hq, hmem⟩
    obtain ⟨k, hk⟩ := List.mem_iff_getElem?.mp hmem
    obtain ⟨hp, hu⟩ := List.getElem?_zip_eq_some.mp hk
    obtain ⟨hp, hpq, hrank⟩ := getElem?_filter_samePosition.mp hp
    obtain ⟨hu, huq, hrank'⟩ := getElem?_filter_samePosition.mp hu
    exact ⟨hp, hu, samePosition_trans huq (samePosition_comm .. ▸ hpq), hrank'.trans hrank.symm⟩
  · rintro ⟨hp, hu, hpos, hrank⟩
    refine ⟨p, hp, List.mem_iff_getElem?.mpr ⟨rank new.visible p.1 p.2, ?_⟩⟩
    refine List.getElem?_zip_eq_some.mpr ⟨?_, ?_⟩
    · exact getElem?_filter_samePosition.mpr ⟨hp, by simp [samePosition], rfl⟩
    · exact getElem?_filter_samePosition.mpr ⟨hu, hpos, hrank⟩

/-- A pass over the old tree makes the same pairs as one over the new tree. -/
theorem mem_pairs_comm :
    (p, u) ∈ pairs old.visible new.visible ↔ (u, p) ∈ pairs new.visible old.visible := by
  rw [mem_pairs, mem_pairs, samePosition_comm u.2]
  grind

theorem counterpart?_eq_some_iff_mem_pairs (hp : p ∈ new.visible) :
    counterpart? new.visible old.visible p.1 p.2 = some u ↔
      (p, u) ∈ pairs old.visible new.visible := by
  rw [counterpart?_eq_some, mem_pairs, IsCounterpart]
  simp [hp, samePosition, and_assoc]

/-- A node of the new tree has a counterpart if the pass finds one for it. -/
theorem isSome_counterpart?_new (hp : p ∈ new.visible) :
    (counterpart? new.visible old.visible p.1 p.2).isSome =
      (pairs old.visible new.visible).any (·.1.1 == p.1) := by
  rw [Bool.eq_iff_iff, Option.isSome_iff_exists, List.any_eq_true]
  simp only [counterpart?_eq_some_iff_mem_pairs hp, beq_iff_eq]
  constructor
  · rintro ⟨u, hu⟩
    exact ⟨(p, u), hu, rfl⟩
  · rintro ⟨⟨q, u⟩, hu, hq⟩
    -- numbers tell the nodes of a tree apart
    obtain rfl := eq_of_mem_visible (mem_pairs.mp hu).1 hp hq
    exact ⟨u, hu⟩

/-- A node of the old tree has a counterpart if the pass gives it to a node of the new tree. -/
theorem isSome_counterpart?_old (hu : u ∈ old.visible) :
    (counterpart? old.visible new.visible u.1 u.2).isSome =
      (pairs old.visible new.visible).any (·.2.1 == u.1) := by
  rw [isSome_counterpart?_new hu, Bool.eq_iff_iff, List.any_eq_true, List.any_eq_true]
  constructor
  · rintro ⟨⟨q, p⟩, hmem, hq⟩
    exact ⟨(p, q), mem_pairs_comm.mpr hmem, hq⟩
  · rintro ⟨⟨p, q⟩, hmem, hq⟩
    exact ⟨(q, p), mem_pairs_comm.mp hmem, hq⟩

/-! ## The walk -/

mutual

/-- The first named node on every way down that is neither known nor paired. The walk ends at known
and at unpaired nodes. The number of the node is `n`. -/
def unpaired (known : Tree → Bool) (paired : Nat → Tree → Bool) (n : Nat) :
    Tree → List (Nat × Tree)
  | node d cs =>
    let t := node d cs
    if t.isTrivia || known t then []
    else if paired n t then unpairedAll known paired (n + 1) cs
    else if t.named then [(n, t)]
    else []

/-- The nodes without a partner among several nodes in a row, numbered from `n` on. -/
def unpairedAll (known : Tree → Bool) (paired : Nat → Tree → Bool) (n : Nat) :
    List Tree → List (Nat × Tree)
  | [] => []
  | c :: cs => unpaired known paired n c ++ unpairedAll known paired (n + c.size) cs

end

mutual

/-- Only the nodes that count have to be told apart. -/
theorem unpaired_congr {known : Tree → Bool} {paired paired' : Nat → Tree → Bool} :
    ∀ {t : Tree} {n : Nat}, (∀ p ∈ visibleFrom n t, paired p.1 p.2 = paired' p.1 p.2) →
      unpaired known paired n t = unpaired known paired' n t
  | node d cs, n, h => by
    cases htrivia : (node d cs).isTrivia with
    | true => simp [unpaired, htrivia]
    | false =>
      rw [visibleFrom_of_not_isTrivia htrivia, List.forall_mem_cons, children_node] at h
      simp only [unpaired, h.1, unpairedAll_congr h.2]

theorem unpairedAll_congr {known : Tree → Bool} {paired paired' : Nat → Tree → Bool} :
    ∀ {cs : List Tree} {n : Nat}, (∀ p ∈ visibleAll n cs, paired p.1 p.2 = paired' p.1 p.2) →
      unpairedAll known paired n cs = unpairedAll known paired' n cs
  | [], n, _ => by simp [unpairedAll]
  | c :: cs, n, h => by
    rw [visibleAll, List.forall_mem_append] at h
    rw [unpairedAll, unpairedAll, unpaired_congr h.1, unpairedAll_congr h.2]

end

variable {κ : Type} [DecidableEq κ] {a b : ComparedTree κ}

mutual

theorem added_newSide_eq_unpaired : ∀ {t : Tree} {n : Nat}, (newSide a b n t).added =
    unpaired (fun t => a.has (b.key t)) (fun n t => (counterpart? b.nodes a.nodes n t).isSome) n t
  | node d cs, n => by
    unfold newSide unpaired
    dsimp only
    split
    · rfl
    · split
      · next u hu => simp [hu, added_newSideAll_eq_unpaired]
      · next hu => simp [hu]

theorem added_newSideAll_eq_unpaired : ∀ {cs : List Tree} {n : Nat}, (newSideAll a b n cs).added =
    unpairedAll (fun t => a.has (b.key t)) (fun n t => (counterpart? b.nodes a.nodes n t).isSome)
      n cs
  | [], n => by simp [newSideAll, unpairedAll]
  | c :: cs, n => by
    simp [newSideAll, unpairedAll, added_newSide_eq_unpaired, added_newSideAll_eq_unpaired]

end

mutual

theorem oldSide_eq_unpaired : ∀ {t : Tree} {n : Nat}, oldSide a b n t =
    unpaired (fun t => b.has (a.key t)) (fun n t => (counterpart? a.nodes b.nodes n t).isSome) n t
  | node d cs, n => by
    unfold oldSide unpaired
    dsimp only
    rw [oldSideAll_eq_unpaired]

theorem oldSideAll_eq_unpaired : ∀ {cs : List Tree} {n : Nat}, oldSideAll a b n cs =
    unpairedAll (fun t => b.has (a.key t)) (fun n t => (counterpart? a.nodes b.nodes n t).isSome)
      n cs
  | [], n => by simp [oldSideAll, unpairedAll]
  | c :: cs, n => by simp [oldSideAll, unpairedAll, oldSide_eq_unpaired, oldSideAll_eq_unpaired]

end

end Tree

/-! ## Duality -/

open CodeAtlas.Tree

/-- What is added from `a` to `b` is removed from `b` to `a`, with the same reports in the same
order. Both are found by one walk from the pairs that a single pass over the new tree makes. -/
theorem added_eq_removed_swap {κ : Type} [DecidableEq κ] (a b : ComparedTree κ) :
    (compareTrees a b).added = (compareTrees b a).removed ∧
    (compareTrees a b).added =
      (b.tree.unpaired (fun t => a.has (b.key t))
        (fun n _ => (pairs a.tree.visible b.tree.visible).any (·.1.1 == n)) 0).map
          (·.2.report b.source) ∧
    (compareTrees a b).removed =
      (a.tree.unpaired (fun t => b.has (a.key t))
        (fun n _ => (pairs a.tree.visible b.tree.visible).any (·.2.1 == n)) 0).map
          (·.2.report a.source) := by
  refine ⟨?_, ?_, ?_⟩ <;> simp only [compareTrees]
  · rw [added_newSide_eq_unpaired, oldSide_eq_unpaired]
  · rw [added_newSide_eq_unpaired, a.nodes_eq, b.nodes_eq]
    refine congrArg _ (unpaired_congr fun p hp => ?_)
    exact isSome_counterpart?_new hp
  · rw [oldSide_eq_unpaired, a.nodes_eq, b.nodes_eq]
    refine congrArg _ (unpaired_congr fun p hp => ?_)
    exact isSome_counterpart?_old hp

end CodeAtlas
