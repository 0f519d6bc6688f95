import CodeAtlas.Proofs.Difference.Duality

/-!
# The pairing of two trees

The nodes of two trees are paired place by place, in order, and the pairs are kept in a table from
the numbers of new nodes to old nodes. The places may come in any order: every node has one place,
so no entry of the table is overwritten by another one. What is paired in this way is one node with
one node, and neither is reported as added or removed.

## Main definitions

* `Tree.place`: what nodes that are paired have in common.
* `Tree.pairsAt`: the pairs of some places, one place after the other.
* `Tree.partner?`: the table of a list of pairs.
* `comparePaired`: the comparison of two texts by given pairs.

## Main statements

* `Tree.Lists.partner?_pairsAt`: the table holds the counterparts, however the places are ordered.
* `comparePaired_pairsAt`: and so the comparison does not depend on that order.
* `paired_nodes_unique`: modified nodes are paired one to one, and are neither added nor removed.
-/
namespace CodeAtlas

namespace Tree

variable {old new : Tree} {p q u v : Nat × Tree} {n : Nat} {places : List (String × Nat)}

/-! ## Pairs place by place -/

/-- The grammar name of `t` and the offset at which it starts. -/
def place (t : Tree) : String × Nat :=
  (t.grammarName, t.start)

@[simp] theorem samePosition_iff {a b : Tree} : a.samePosition b = true ↔ a.place = b.place := by
  simp [samePosition, place, and_comm]

/-- The pairs of a `new` and an `old` node at some `places`: at each of them, the nodes of both
sides in order. -/
def pairsAt (places : List (String × Nat)) (old new : List (Nat × Tree)) :
    List ((Nat × Tree) × (Nat × Tree)) :=
  places.flatMap fun k => (new.filter (·.2.place = k)).zip (old.filter (·.2.place = k))

/-- The table of a list of `pairs`: the old node for the number `n` of a new one. A later pair takes
the place of an earlier one. -/
def partner? (pairs : List ((Nat × Tree) × (Nat × Tree))) (n : Nat) : Option (Nat × Tree) :=
  (pairs.reverse.find? (·.1.1 == n)).map (·.2)

/-- The `places` are exactly those of the nodes of `t` that count, in any order. -/
def Lists (places : List (String × Nat)) (t : Tree) : Prop :=
  ∀ k, k ∈ places ↔ ∃ p ∈ t.visible, p.2.place = k

/-- Each place contributes the pairs of its own nodes. -/
theorem mem_pairsAt : (p, u) ∈ pairsAt places old.visible new.visible ↔
    p.2.place ∈ places ∧ (p, u) ∈ pairs old.visible new.visible := by
  have hat (t : Tree) : (fun q : Nat × Tree => decide (q.2.place = t.place)) =
      fun q => q.2.samePosition t := by
    funext q
    rw [Bool.eq_iff_iff, decide_eq_true_iff, samePosition_iff]
  simp only [pairsAt, pairs, List.mem_flatMap]
  constructor
  · rintro ⟨k, hk, hmem⟩
    have hfilter := List.mem_filter.mp (List.of_mem_zip hmem).1
    obtain rfl : p.2.place = k := by simpa using hfilter.2
    rw [hat] at hmem
    exact ⟨hk, p, hfilter.1, hmem⟩
  · rintro ⟨hk, q, hq, hmem⟩
    have hfilter := List.mem_filter.mp (List.of_mem_zip hmem).1
    have hplace : p.2.place = q.2.place := samePosition_iff.mp (by simpa using hfilter.2)
    refine ⟨q.2.place, hplace ▸ hk, ?_⟩
    rwa [hat]

/-- Where all places of the new tree are listed, their order does not matter. -/
theorem Lists.mem_pairsAt_iff (h : Lists places new) :
    (p, u) ∈ pairsAt places old.visible new.visible ↔ (p, u) ∈ pairs old.visible new.visible := by
  rw [mem_pairsAt]
  exact and_iff_right_of_imp fun hmem => (h _).mpr ⟨p, (mem_pairs.mp hmem).1, rfl⟩

/-! ## One to one -/

theorem eq_of_mem_pairs_left (hu : (p, u) ∈ pairs old.visible new.visible)
    (hv : (p, v) ∈ pairs old.visible new.visible) : u = v := by
  have hp := (mem_pairs.mp hu).1
  rw [← counterpart?_eq_some_iff_mem_pairs hp] at hu hv
  exact Option.some.inj (hu.symm.trans hv)

/-- An old node `u` has one partner, too, since a pass over the old tree makes the same pairs. -/
theorem eq_of_mem_pairs_right (hp : (p, u) ∈ pairs old.visible new.visible)
    (hq : (q, u) ∈ pairs old.visible new.visible) : p = q :=
  eq_of_mem_pairs_left (mem_pairs_comm.mp hp) (mem_pairs_comm.mp hq)

/-! ## The table -/

theorem partner?_eq_some {pairs : List ((Nat × Tree) × (Nat × Tree))}
    (h : partner? pairs n = some u) : ∃ q, (q, u) ∈ pairs ∧ q.1 = n := by
  obtain ⟨⟨q, v⟩, hfind, rfl⟩ := Option.map_eq_some_iff.mp h
  exact ⟨q, List.mem_reverse.mp (List.mem_of_find?_eq_some hfind),
    by simpa using List.find?_some hfind⟩

theorem partner?_eq_none {pairs : List ((Nat × Tree) × (Nat × Tree))}
    (h : partner? pairs p.1 = none) : (p, u) ∉ pairs := by
  intro hmem
  have hnone := List.find?_eq_none.mp (Option.map_eq_none_iff.mp h)
  simpa using hnone (p, u) (List.mem_reverse.mpr hmem)

/-- The table holds the counterparts, in whatever order the places come. -/
theorem Lists.partner?_pairsAt (h : Lists places new) (hp : p ∈ new.visible) :
    partner? (pairsAt places old.visible new.visible) p.1 =
      counterpart? new.visible old.visible p.1 p.2 := by
  cases hpartner : partner? (pairsAt places old.visible new.visible) p.1 with
  | none =>
    refine (Option.eq_none_iff_forall_ne_some.mpr fun u hu => ?_).symm
    rw [counterpart?_eq_some_iff_mem_pairs hp, ← h.mem_pairsAt_iff] at hu
    exact partner?_eq_none hpartner hu
  | some u =>
    obtain ⟨q, hmem, hnumber⟩ := partner?_eq_some hpartner
    rw [h.mem_pairsAt_iff] at hmem
    obtain rfl := eq_of_mem_visible (mem_pairs.mp hmem).1 hp hnumber
    exact ((counterpart?_eq_some_iff_mem_pairs hp).mpr hmem).symm

/-- The old nodes in the table are those that have a counterpart. -/
theorem Lists.any_pairsAt (h : Lists places new) (hu : u ∈ old.visible) :
    (pairsAt places old.visible new.visible).any (·.2.1 == u.1) =
      (counterpart? old.visible new.visible u.1 u.2).isSome := by
  rw [isSome_counterpart?_old hu, Bool.eq_iff_iff, List.any_eq_true, List.any_eq_true]
  constructor
  · rintro ⟨x, hx, heq⟩
    exact ⟨x, h.mem_pairsAt_iff.mp hx, heq⟩
  · rintro ⟨x, hx, heq⟩
    exact ⟨x, h.mem_pairsAt_iff.mpr hx, heq⟩

/-! ## Walking with a table -/

mutual

/-- What is reported of a node with number `n` of the new tree and of its descendants, where the
table `partner` gives the old nodes. The walk ends at `known` nodes and at nodes that the table does
not hold. -/
def newSideBy (known : Tree → Bool) (partner : Nat → Option (Nat × Tree)) (n : Nat) :
    Tree → TreeReport
  | node d cs =>
    let t := node d cs
    if t.isTrivia || known t then {}
    else if (partner n).isSome then
      { modified := if t.named then (partner n).toList.map (·, (n, t)) else [] } ++
        newSideByAll known partner (n + 1) cs
    else { added := if t.named then [(n, t)] else [] }

/-- What is reported of several nodes in a row, numbered from `n` on, by the table `partner`. -/
def newSideByAll (known : Tree → Bool) (partner : Nat → Option (Nat × Tree)) (n : Nat) :
    List Tree → TreeReport
  | [] => {}
  | c :: cs => newSideBy known partner n c ++ newSideByAll known partner (n + c.size) cs

end

section Walk

variable {κ : Type} [DecidableEq κ] {a b : ComparedTree κ} {partner : Nat → Option (Nat × Tree)}

mutual

/-- A table that holds the counterparts leads to the same report. -/
theorem newSideBy_eq : ∀ {t : Tree} {n : Nat},
    (∀ p ∈ visibleFrom n t, partner p.1 = counterpart? b.nodes a.nodes p.1 p.2) →
      newSideBy (fun t => a.has (b.key t)) partner n t = newSide a b n t
  | node d cs, n, h => by
    cases htrivia : (node d cs).isTrivia with
    | true => simp [newSideBy, newSide, htrivia]
    | false =>
      rw [visibleFrom_of_not_isTrivia htrivia, List.forall_mem_cons] at h
      have hparts := newSideByAll_eq h.2
      rw [children_node] at hparts
      simp only [newSideBy, newSide, h.1, hparts]
      cases counterpart? b.nodes a.nodes n (node d cs) <;> simp

theorem newSideByAll_eq : ∀ {cs : List Tree} {n : Nat},
    (∀ p ∈ visibleAll n cs, partner p.1 = counterpart? b.nodes a.nodes p.1 p.2) →
      newSideByAll (fun t => a.has (b.key t)) partner n cs = newSideAll a b n cs
  | [], n, _ => by simp [newSideByAll, newSideAll]
  | c :: cs, n, h => by
    rw [visibleAll, List.forall_mem_append] at h
    rw [newSideByAll, newSideAll, newSideBy_eq h.1, newSideByAll_eq h.2]

end

end Walk

end Tree

open CodeAtlas.Tree

variable {κ : Type} [DecidableEq κ]

/-- The comparison of two texts with the trees `old` and `new` by given `pairs` of nodes. -/
def comparePaired (pairs : List ((Nat × Tree) × (Nat × Tree))) (old new : ComparedTree κ) :
    TreeComparison :=
  let report := new.tree.newSideBy (fun t => old.has (new.key t)) (partner? pairs) 0
  let removed := old.tree.unpaired (fun t => new.has (old.key t))
    (fun n _ => pairs.any (·.2.1 == n)) 0
  { added := report.added.map fun t => t.2.report new.source
    removed := removed.map fun u => u.2.report old.source
    modified := report.modified.map fun m =>
      { old := m.1.2.report old.source
        new := m.2.2.report new.source
        kind := modification old.source new.source m.1.2 m.2.2 } }

/-- In whatever order the places of the new tree come, the comparison is the same. -/
theorem comparePaired_pairsAt {old new : ComparedTree κ} {places : List (String × Nat)}
    (h : Lists places new.tree) :
    comparePaired (pairsAt places old.tree.visible new.tree.visible) old new =
      compareTrees old new := by
  have hnew : newSideBy (fun t => old.has (new.key t))
      (partner? (pairsAt places old.tree.visible new.tree.visible)) 0 new.tree =
        new.tree.newSide old new 0 := by
    refine newSideBy_eq fun p hp => ?_
    rw [old.nodes_eq, new.nodes_eq]
    exact h.partner?_pairsAt hp
  have hold : unpaired (fun t => new.has (old.key t))
      (fun n _ => (pairsAt places old.tree.visible new.tree.visible).any (·.2.1 == n)) 0 old.tree =
        old.tree.oldSide old new 0 := by
    rw [oldSide_eq_unpaired, old.nodes_eq, new.nodes_eq]
    exact unpaired_congr fun u hu => h.any_pairsAt hu
  rw [comparePaired, compareTrees, hnew, hold]

namespace Tree

variable {old new : ComparedTree κ} {u p : Nat × Tree}

/-- The nodes `u` and `p` of a modification are a pair. -/
theorem mem_pairs_of_mem_modified (h : (u, p) ∈ (new.tree.newSide old new 0).modified) :
    (p, u) ∈ pairs old.tree.visible new.tree.visible := by
  obtain ⟨hreached, -, hsome⟩ := mem_modified_newSide.mp h
  rw [old.nodes_eq, new.nodes_eq] at hsome
  exact (counterpart?_eq_some_iff_mem_pairs (sublist_reached.subset hreached)).mp hsome

/-- A removed node `u` has no partner: it is added in the other direction. -/
theorem unpaired_of_mem_oldSide (h : u ∈ old.tree.oldSide old new 0) :
    u ∈ old.tree.visible ∧ ∀ p, (p, u) ∉ pairs old.tree.visible new.tree.visible := by
  rw [oldSide_eq_unpaired, ← added_newSide_eq_unpaired] at h
  obtain ⟨hreached, -, hnone⟩ := mem_added_newSide.mp h
  rw [old.nodes_eq, new.nodes_eq] at hnone
  have hu : u ∈ old.tree.visible := sublist_reached.subset hreached
  refine ⟨hu, fun p hmem => ?_⟩
  rw [mem_pairs_comm, ← counterpart?_eq_some_iff_mem_pairs hu, hnone] at hmem
  simp at hmem

end Tree

/-- Modified nodes are paired one to one: no node of `old` or `new` is in two modifications, the
nodes of a modification are neither removed nor added, and they have the same grammar name and
start. The pairs of all nodes are one to one as well, and the comparison is the same in whatever
order the `places` are gone through. -/
theorem paired_nodes_unique (old new : ComparedTree κ) :
    let report := new.tree.newSide old new 0
    let removed := old.tree.oldSide old new 0
    ((compareTrees old new).added = report.added.map (·.2.report new.source) ∧
      (compareTrees old new).removed = removed.map (·.2.report old.source) ∧
      (compareTrees old new).modified.map (fun m => (m.old, m.new)) =
        report.modified.map fun m => (m.1.2.report old.source, m.2.2.report new.source)) ∧
    (report.modified.map (·.1.1)).Nodup ∧ (report.modified.map (·.2.1)).Nodup ∧
    (∀ m ∈ report.modified,
      m.1 ∈ old.tree.visible ∧ m.2 ∈ new.tree.visible ∧
        m.1.2.grammarName = m.2.2.grammarName ∧ m.1.2.start = m.2.2.start ∧
        m.1.1 ∉ removed.map (·.1) ∧ m.2.1 ∉ report.added.map (·.1)) ∧
    ∀ places, Lists places new.tree →
      let pairs := pairsAt places old.tree.visible new.tree.visible
      (∀ x ∈ pairs, ∀ y ∈ pairs, x.1 = y.1 ↔ x.2 = y.2) ∧
      (∀ x ∈ pairs, x.1.2.place = x.2.2.place) ∧
      comparePaired pairs old new = compareTrees old new := by
  intro report removed
  have hpair {m : (Nat × Tree) × (Nat × Tree)} (hm : m ∈ report.modified) :=
    mem_pairs_of_mem_modified hm
  have hnodup := nodup_reported_newSide old new new.tree
  rw [TreeReport.reported, List.map_append, List.nodup_append, List.map_map] at hnodup
  obtain ⟨-, hnew, hapart⟩ := hnodup
  refine ⟨⟨rfl, rfl, List.map_map⟩, ?_, hnew, fun m hm => ?_, fun places hplaces => ?_⟩
  · -- two modifications with the same old node have the same new node
    refine List.pairwise_map.mpr ((List.pairwise_map.mp hnew).imp_of_mem ?_)
    intro x y hx hy hne heq
    have hold := eq_of_mem_visible (mem_pairs.mp (hpair hx)).2.1 (mem_pairs.mp (hpair hy)).2.1 heq
    exact hne (congrArg Prod.fst (eq_of_mem_pairs_right (hold ▸ hpair hx) (hpair hy)))
  · obtain ⟨hp, hu, hposition, -⟩ := mem_pairs.mp (hpair hm)
    obtain ⟨hname, hstart⟩ := Prod.mk.inj (samePosition_iff.mp hposition)
    refine ⟨hu, hp, hname, hstart, fun hmem => ?_, fun hmem => ?_⟩
    · obtain ⟨v, hv, heq⟩ := List.mem_map.mp hmem
      obtain ⟨hvisible, hnone⟩ := unpaired_of_mem_oldSide hv
      exact hnone m.2 (eq_of_mem_visible hvisible hu heq ▸ hpair hm)
    · exact hapart _ hmem _ (List.mem_map_of_mem hm) rfl
  · refine ⟨fun x hx y hy => ?_, fun x hx => ?_, comparePaired_pairsAt hplaces⟩
    · have hx := hplaces.mem_pairsAt_iff.mp hx
      have hy := hplaces.mem_pairsAt_iff.mp hy
      constructor
      · intro heq
        exact eq_of_mem_pairs_left hx (heq ▸ hy)
      · intro heq
        exact eq_of_mem_pairs_right hx (heq ▸ hy)
    · have hposition := (mem_pairs.mp (hplaces.mem_pairsAt_iff.mp hx)).2.2.1
      exact (samePosition_iff.mp hposition).symm

/-- The tree of an access to a member with a name of one byte, of `length` bytes in all. -/
def Tree.ofAccess (receiver : Tree) (length : Nat) : Tree :=
  .node { kind := "member_access_expression", length }
    [receiver, .ofToken "." (length - 2),
      .node { kind := "identifier", start := length - 1, length := 1 } []]

/-- The tree of a text that is all of an `expression` and a semicolon. -/
def Tree.ofExpression (expression : Tree) : Tree :=
  .node { kind := "compilation_unit", length := expression.length + 1 }
    [.node { kind := "expression_statement", length := expression.length + 1 }
      [expression, .ofToken ";" expression.length]]

/-- The tree of `a.x.c;`, where two accesses start at the same offset. -/
def Tree.twoAccesses : Tree :=
  .ofExpression (.ofAccess (.ofAccess (.node { kind := "identifier", length := 1 } []) 3) 5)

/-- The tree of `a.b;`. -/
def Tree.oneAccess : Tree :=
  .ofExpression (.ofAccess (.node { kind := "identifier", length := 1 } []) 3)

/-- Of the two accesses that start at the same offset the outer one is paired, and the inner one is
removed. The name inside it has a partner nevertheless. -/
theorem paired_nodes_unique_accesses :
    let old := ComparedTree.make "a.x.c;" twoAccesses
    let new := ComparedTree.make "a.b;" oneAccess
    let places := (oneAccess.visible.map (·.2.place)).reverse
    let report := oneAccess.newSide old new 0
    Lists places oneAccess ∧
    report.modified.map (fun m => (m.1.1, m.2.1)) = [(0, 0), (1, 1), (2, 2), (6, 5)] ∧
    (twoAccesses.oldSide old new 0).map (·.1) = [3, 8] ∧
    (report.modified.map (·.1.1)).Nodup ∧
    comparePaired (pairsAt places twoAccesses.visible oneAccess.visible) old new =
      compareTrees old new := by
  intro old new places report
  have hplaces : Lists places oneAccess := fun k => by simp [places]
  obtain ⟨-, hnodup, -, -, horder⟩ := paired_nodes_unique old new
  exact ⟨hplaces, by decide +kernel, by decide +kernel, hnodup, (horder places hplaces).2.2⟩

end CodeAtlas
