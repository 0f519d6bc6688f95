import CodeAtlas.Difference.Structure
import CodeAtlas.Proofs.Syntax.Digest
import CodeAtlas.Proofs.Syntax.WellFormed

/-!
# The reported nodes of the new tree

The walk through the new tree stops at every node whose key occurs in the old tree, and at every
node without a counterpart. The first stop loses nothing: what lies below a node of the old tree
occurs there too. The second one reports the node in place of all that lies below it. So exactly the
nodes that are not known and not below an added node are reported.

## Main definitions

* `ComparedTree.hashed`: a tree whose nodes are recognized by kind and digest.
* `Tree.reached`: the nodes at which the walk does not pass by.
* `TreeReport.reported`: the nodes of the new tree that a report names.

## Main statements

* `Tree.added_newSide`, `Tree.modified_newSide`: how the nodes that are reached are reported.
* `Tree.mem_reached_iff`: which nodes are reached.
* `new_nodes_reported_once`: every changed node of the new tree is reported once, as added or as
  modified, unless it lies below an added one.
-/
namespace CodeAtlas

open CodeAtlas.Tree

namespace ComparedTree

/-- A `tree` whose nodes are recognized by their kinds and digests. -/
def hashed (hash : List UInt8 → UInt64) (source : String) (tree : Tree) :
    ComparedTree (String × UInt64) :=
  ofKey source tree fun t => (t.kind, t.digest hash source)

variable {κ : Type} [DecidableEq κ] {c : ComparedTree κ}

theorem has_iff {k : κ} : c.has k = true ↔ ∃ p ∈ c.tree.visible, c.key p.2 = k := by
  simp [has, c.keys_eq, c.nodes_eq]

end ComparedTree

/-- The nodes of the new tree that `r` names. -/
def TreeReport.reported (r : TreeReport) : List (Nat × Tree) :=
  r.added ++ r.modified.map (·.2)

@[simp] theorem TreeReport.added_append (a b : TreeReport) : (a ++ b).added = a.added ++ b.added :=
  rfl

@[simp] theorem TreeReport.modified_append (a b : TreeReport) :
    (a ++ b).modified = a.modified ++ b.modified :=
  rfl

namespace Tree

variable {κ : Type} [DecidableEq κ] {old new : ComparedTree κ} {n : Nat} {t : Tree}
  {p : Nat × Tree}

/-! ## The walk -/

mutual

/-- The nodes at which the walk through the tree `new` does not pass by. -/
def reached (old new : ComparedTree κ) (n : Nat) : Tree → List (Nat × Tree)
  | node d cs =>
    if (node d cs).isTrivia || old.has (new.key (node d cs)) then []
    else
      (n, node d cs) ::
        if (counterpart? new.nodes old.nodes n (node d cs)).isSome then
          reachedAll old new (n + 1) cs
        else []

/-- The nodes among several in a row, numbered from `n` on, at which the walk does not pass by. -/
def reachedAll (old new : ComparedTree κ) (n : Nat) : List Tree → List (Nat × Tree)
  | [] => []
  | c :: cs => reached old new n c ++ reachedAll old new (n + c.size) cs

end

/-- The node `p` of the tree `new`, once it is reached, is added: it has no counterpart. -/
def isAdded (old new : ComparedTree κ) (p : Nat × Tree) : Bool :=
  p.2.named && (counterpart? new.nodes old.nodes p.1 p.2).isNone

/-- The node `p` of the tree `new`, once it is reached, is modified if it has a counterpart. -/
def modified? (old new : ComparedTree κ) (p : Nat × Tree) : Option ((Nat × Tree) × (Nat × Tree)) :=
  if p.2.named then (counterpart? new.nodes old.nodes p.1 p.2).map (·, p) else none

mutual

theorem added_newSide : ∀ {t : Tree} {n : Nat},
    (newSide old new n t).added = (reached old new n t).filter (isAdded old new)
  | node d cs, n => by
    unfold newSide reached
    dsimp only
    split
    · simp
    · split
      · next u hu =>
        rw [TreeReport.added_append, added_newSideAll]
        simp [hu, isAdded]
      · next hu => cases hnamed : (node d cs).named <;> simp [hu, isAdded, hnamed]

theorem added_newSideAll : ∀ {cs : List Tree} {n : Nat},
    (newSideAll old new n cs).added = (reachedAll old new n cs).filter (isAdded old new)
  | [], n => by simp [newSideAll, reachedAll]
  | c :: cs, n => by
    rw [newSideAll, reachedAll, TreeReport.added_append, List.filter_append, added_newSide,
      added_newSideAll]

end

mutual

theorem modified_newSide : ∀ {t : Tree} {n : Nat},
    (newSide old new n t).modified = (reached old new n t).filterMap (modified? old new)
  | node d cs, n => by
    unfold newSide reached
    dsimp only
    split
    · simp
    · split
      · next u hu =>
        rw [TreeReport.modified_append, modified_newSideAll]
        cases hnamed : (node d cs).named <;> simp [hu, modified?, hnamed]
      · next hu => simp [hu, modified?]

theorem modified_newSideAll : ∀ {cs : List Tree} {n : Nat},
    (newSideAll old new n cs).modified = (reachedAll old new n cs).filterMap (modified? old new)
  | [], n => by simp [newSideAll, reachedAll]
  | c :: cs, n => by
    rw [newSideAll, reachedAll, TreeReport.modified_append, List.filterMap_append,
      modified_newSide, modified_newSideAll]

end

theorem mem_added_newSide : p ∈ (newSide old new n t).added ↔
    p ∈ reached old new n t ∧ p.2.named = true ∧
      counterpart? new.nodes old.nodes p.1 p.2 = none := by
  simp [added_newSide, isAdded]

omit [DecidableEq κ] in
theorem modified?_eq_some {u q : Nat × Tree} : modified? old new q = some (u, p) ↔
    q = p ∧ p.2.named = true ∧ counterpart? new.nodes old.nodes p.1 p.2 = some u := by
  unfold modified?
  constructor
  · intro h
    split at h
    · next hnamed =>
      obtain ⟨v, hv, heq⟩ := Option.map_eq_some_iff.mp h
      obtain ⟨rfl, rfl⟩ := Prod.mk.inj heq
      exact ⟨rfl, hnamed, hv⟩
    · simp at h
  · rintro ⟨rfl, hnamed, hu⟩
    simp [hnamed, hu]

theorem mem_modified_newSide {u : Nat × Tree} : (u, p) ∈ (newSide old new n t).modified ↔
    p ∈ reached old new n t ∧ p.2.named = true ∧
      counterpart? new.nodes old.nodes p.1 p.2 = some u := by
  rw [modified_newSide, List.mem_filterMap]
  constructor
  · rintro ⟨q, hq, h⟩
    obtain ⟨rfl, h⟩ := modified?_eq_some.mp h
    exact ⟨hq, h⟩
  · rintro ⟨hp, h⟩
    exact ⟨p, hp, modified?_eq_some.mpr ⟨rfl, h⟩⟩

@[simp] theorem mem_reported_newSide :
    p ∈ (newSide old new n t).reported ↔ p ∈ reached old new n t ∧ p.2.named = true := by
  rw [TreeReport.reported, List.mem_append, mem_added_newSide, List.mem_map]
  constructor
  · rintro (⟨hp, hnamed, -⟩ | ⟨⟨u, q⟩, hq, rfl⟩)
    · exact ⟨hp, hnamed⟩
    · obtain ⟨hp, hnamed, -⟩ := mem_modified_newSide.mp hq
      exact ⟨hp, hnamed⟩
  · rintro ⟨hp, hnamed⟩
    cases hu : counterpart? new.nodes old.nodes p.1 p.2 with
    | none => exact .inl ⟨hp, hnamed, rfl⟩
    | some u => exact .inr ⟨(u, p), mem_modified_newSide.mpr ⟨hp, hnamed, hu⟩, rfl⟩

/-! ## The nodes that are reached -/

mutual

theorem sublist_reached : ∀ {t : Tree} {n : Nat}, (reached old new n t).Sublist (visibleFrom n t)
  | node d cs, n => by
    unfold reached
    split
    · simp
    · next h =>
      rw [Bool.or_eq_true, not_or, Bool.not_eq_true] at h
      rw [visibleFrom_of_not_isTrivia h.1]
      refine List.Sublist.cons_cons _ ?_
      split
      · exact sublist_reachedAll
      · simp

theorem sublist_reachedAll : ∀ {cs : List Tree} {n : Nat},
    (reachedAll old new n cs).Sublist (visibleAll n cs)
  | [], n => by simp [reachedAll]
  | c :: cs, n => by
    rw [reachedAll, visibleAll]
    exact sublist_reached.append sublist_reachedAll

end

theorem reached_eq (h : t.isTrivia = false) :
    reached old new n t =
      if old.has (new.key t) then []
      else
        (n, t) ::
          if (counterpart? new.nodes old.nodes n t).isSome then
            reachedAll old new (n + 1) t.children
          else [] := by
  obtain ⟨d, cs⟩ := t
  rw [reached, h, Bool.false_or, children_node]

/-- Below those of the nodes `ps` that are known everything is known. -/
def KnownBelow (old new : ComparedTree κ) (ps : List (Nat × Tree)) : Prop :=
  ∀ a ∈ ps, ∀ p, IsAbove a p → old.has (new.key a.2) = true → old.has (new.key p.2) = true

/-- The walk stops at no added node above `p`. -/
def Uncovered (old new : ComparedTree κ) (as : List (Nat × Tree)) (p : Nat × Tree) : Prop :=
  ∀ a ∈ as, counterpart? new.nodes old.nodes a.1 a.2 = none → ¬ IsAbove a p

omit [DecidableEq κ] in
@[simp] theorem uncovered_append {as bs : List (Nat × Tree)} :
    Uncovered old new (as ++ bs) p ↔ Uncovered old new as p ∧ Uncovered old new bs p := by
  simp [Uncovered, or_imp, forall_and]

omit [DecidableEq κ] in
theorem uncovered_of_bounds {as : List (Nat × Tree)}
    (h : ∀ a ∈ as, p.1 ≤ a.1 ∨ a.1 + a.2.size ≤ p.1) : Uncovered old new as p := by
  intro a ha _ habove
  have := h a ha
  have := habove.lt
  omega

-- A node is reached unless the walk stops above it. Where it stops at a known node, everything
-- below is known too; the numbers keep the nodes of different subtrees apart.
mutual

theorem mem_reached_iff : ∀ {t : Tree} {n : Nat}, KnownBelow old new (visibleFrom n t) →
    p ∈ visibleFrom n t →
    (p ∈ reached old new n t ↔
      old.has (new.key p.2) = false ∧ Uncovered old new (reached old new n t) p)
  | node d cs, n, hdown, hp => by
    have hfirst : Uncovered old new (reached old new n (node d cs)) (n, node d cs) := by
      refine uncovered_of_bounds fun a ha => .inl ?_
      exact (bounds_of_mem_visibleFrom (sublist_reached.subset ha)).1
    cases htrivia : (node d cs).isTrivia with
    | true => simp [visibleFrom_of_isTrivia htrivia] at hp
    | false =>
      rw [visibleFrom_of_not_isTrivia htrivia, children_node] at hp hdown
      rw [reached_eq htrivia] at hfirst ⊢
      cases hknown : old.has (new.key (node d cs)) with
      | true =>
        have hp : old.has (new.key p.2) = true := by
          rcases List.mem_cons.mp hp with rfl | hp
          · exact hknown
          · exact hdown _ List.mem_cons_self p hp hknown
        simp [hp]
      | false =>
        rw [hknown, if_neg Bool.false_ne_true] at hfirst
        rw [if_neg Bool.false_ne_true]
        rcases List.mem_cons.mp hp with rfl | hp
        · exact iff_of_true List.mem_cons_self ⟨hknown, hfirst⟩
        · have hne : p ≠ (n, node d cs) := by
            rintro rfl
            have := bounds_of_mem_visibleAll hp
            omega
          cases hu : counterpart? new.nodes old.nodes n (node d cs) with
          | none =>
            refine iff_of_false (by simpa using hne) fun h => ?_
            exact h.2 _ List.mem_cons_self hu hp
          | some u =>
            have ih := mem_reachedAll_iff (fun a ha => hdown a (List.mem_cons_of_mem _ ha)) hp
            have hroot : Uncovered old new [(n, node d cs)] p := by
              intro a ha hnone
              obtain rfl := List.mem_singleton.mp ha
              simp [hu] at hnone
            rw [Option.isSome_some, if_pos rfl, children_node, List.mem_cons, or_iff_right hne, ih,
              ← List.singleton_append, uncovered_append]
            simp only [hroot, true_and]

theorem mem_reachedAll_iff : ∀ {cs : List Tree} {n : Nat}, KnownBelow old new (visibleAll n cs) →
    p ∈ visibleAll n cs →
    (p ∈ reachedAll old new n cs ↔
      old.has (new.key p.2) = false ∧ Uncovered old new (reachedAll old new n cs) p)
  | [], n, _, hp => by simp [visibleAll] at hp
  | c :: cs, n, hdown, hp => by
    rw [visibleAll] at hp hdown
    rw [reachedAll, List.mem_append, uncovered_append]
    have hhead {a : Nat × Tree} (ha : a ∈ reached old new n c) : a.1 + a.2.size ≤ n + c.size :=
      (bounds_of_mem_visibleFrom (sublist_reached.subset ha)).2
    have htail {a : Nat × Tree} (ha : a ∈ reachedAll old new (n + c.size) cs) : n + c.size ≤ a.1 :=
      (bounds_of_mem_visibleAll (sublist_reachedAll.subset ha)).1
    have hsize := size_eq p.2
    rcases List.mem_append.mp hp with hp | hp
    · have hbounds := bounds_of_mem_visibleFrom hp
      have hother : p ∉ reachedAll old new (n + c.size) cs := by
        intro h
        have := htail h
        omega
      have hrest : Uncovered old new (reachedAll old new (n + c.size) cs) p := by
        refine uncovered_of_bounds fun a ha => .inl ?_
        have := htail ha
        omega
      have ih := mem_reached_iff (fun a ha => hdown a (List.mem_append_left _ ha)) hp
      rw [or_iff_left hother, ih]
      simp only [hrest, and_true]
    · have hbounds := bounds_of_mem_visibleAll hp
      have hother : p ∉ reached old new n c := by
        intro h
        have := hhead h
        omega
      have hrest : Uncovered old new (reached old new n c) p := by
        refine uncovered_of_bounds fun a ha => .inr ?_
        have := hhead ha
        omega
      have ih := mem_reachedAll_iff (fun a ha => hdown a (List.mem_append_right _ ha)) hp
      rw [or_iff_right hother, ih]
      simp only [hrest, true_and]

end

/-! ## Nodes that are reported once -/

omit [DecidableEq κ] in
theorem sublist_filterMap_modified? (ps : List (Nat × Tree)) :
    ((ps.filterMap (modified? old new)).map (·.2)).Sublist ps := by
  induction ps with
  | nil => simp
  | cons p ps ih =>
    cases h : modified? old new p with
    | none =>
      rw [List.filterMap_cons_none h]
      exact ih.cons p
    | some x =>
      obtain ⟨rfl, -⟩ := modified?_eq_some.mp h
      rw [List.filterMap_cons_some h, List.map_cons]
      exact ih.cons_cons _

theorem nodup_reported_newSide (old new : ComparedTree κ) (t : Tree) :
    ((newSide old new 0 t).reported.map (·.1)).Nodup := by
  have hreached : (reached old new 0 t).Sublist t.visible := sublist_reached
  have hadded : (newSide old new 0 t).added.Sublist t.visible := by
    rw [added_newSide]
    exact List.filter_sublist.trans hreached
  have hmodified : ((newSide old new 0 t).modified.map (·.2)).Sublist t.visible := by
    rw [modified_newSide]
    exact (sublist_filterMap_modified? _).trans hreached
  rw [TreeReport.reported, List.map_append, List.nodup_append]
  refine ⟨(nodup_visible t).sublist (hadded.map _), (nodup_visible t).sublist (hmodified.map _), ?_⟩
  -- a node is not reported on both sides: it has a counterpart or it has none
  intro i hi j hj hij
  obtain ⟨p, hp, rfl⟩ := List.mem_map.mp hi
  obtain ⟨q, hq, rfl⟩ := List.mem_map.mp hj
  obtain rfl := eq_of_mem_visible (hadded.subset hp) (hmodified.subset hq) hij
  obtain ⟨⟨u, q⟩, hu, rfl⟩ := List.mem_map.mp hq
  obtain ⟨-, -, hsome⟩ := mem_modified_newSide.mp hu
  obtain ⟨-, -, hnone⟩ := mem_added_newSide.mp hp
  simp [hsome] at hnone

@[grind →]
theorem mem_visible_of_mem_reported (hp : p ∈ (newSide old new 0 t).reported) : p ∈ t.visible :=
  sublist_reached.subset (mem_reported_newSide.mp hp).1

theorem count_reported_newSide (hp : p ∈ t.visible) :
    ((newSide old new 0 t).reported.map (·.1)).count p.1 = 1 ↔
      p ∈ (newSide old new 0 t).reported := by
  rw [(nodup_reported_newSide old new t).count]
  constructor
  · intro h
    split at h
    · next hmem =>
      obtain ⟨q, hq, heq⟩ := List.mem_map.mp hmem
      exact eq_of_mem_visible (mem_visible_of_mem_reported hq) hp heq ▸ hq
    · simp at h
  · intro h
    rw [if_pos (List.mem_map_of_mem h)]

/-- Where only named nodes have children, the walk stops above a node only at an added one. -/
theorem uncovered_reached_iff (hleaf : ∀ u ∈ t.preorder, u.named = false → u.children = []) :
    Uncovered old new (reached old new 0 t) p ↔
      ∀ a ∈ (newSide old new 0 t).added, ¬ IsAbove a p := by
  constructor
  · intro h a ha
    obtain ⟨hreached, -, hnone⟩ := mem_added_newSide.mp ha
    exact h a hreached hnone
  · intro h a ha hnone habove
    cases hnamed : a.2.named with
    | true => exact h a (mem_added_newSide.mpr ⟨ha, hnamed, hnone⟩) habove
    | false =>
      have hmem := mem_preorder_of_mem_visibleFrom (sublist_reached.subset ha)
      have hchildren := hleaf a.2 hmem hnamed
      simp [IsAbove, hchildren, visibleAll] at habove

/-! ## Counterparts -/

/-- In a list with increasing numbers a node stands behind those with smaller numbers. -/
theorem getElem?_eq_some_iff_countP {ps : List (Nat × Tree)} {k : Nat}
    (h : ps.Pairwise (·.1 < ·.1)) :
    ps[k]? = some p ↔ p ∈ ps ∧ ps.countP (fun q => q.1 < p.1) = k := by
  induction ps generalizing k with
  | nil => simp
  | cons q ps ih =>
    obtain ⟨hq, hps⟩ := List.pairwise_cons.mp h
    have hnone : ps.countP (fun r => r.1 < q.1) = 0 := by
      rw [List.countP_eq_zero]
      intro r hr
      have := hq r hr
      simp only [decide_eq_true_eq]
      omega
    cases k with
    | zero =>
      rw [List.getElem?_cons_zero, Option.some_inj]
      constructor
      · rintro rfl
        simp [hnone]
      · rintro ⟨hp, hcount⟩
        rcases List.mem_cons.mp hp with rfl | hp
        · rfl
        · simp [hq p hp] at hcount
    | succ k =>
      rw [List.getElem?_cons_succ, ih hps]
      constructor
      · rintro ⟨hp, hcount⟩
        exact ⟨List.mem_cons_of_mem _ hp, by simp [hq p hp, hcount]⟩
      · rintro ⟨hp, hcount⟩
        rcases List.mem_cons.mp hp with rfl | hp
        · simp [hnone] at hcount
        · exact ⟨hp, by simpa [List.countP_cons, hq p hp] using hcount⟩

/-- The nodes `u` and `p` stand at the same place of the trees `old` and `new`: of the nodes with
one grammar name that start at one offset, they have the same rank. -/
def IsCounterpart (old new : Tree) (u p : Nat × Tree) : Prop :=
  u ∈ old.visible ∧ u.2.start = p.2.start ∧ u.2.grammarName = p.2.grammarName ∧
    rank old.visible u.1 u.2 = rank new.visible p.1 p.2

@[simp] theorem counterpart?_eq_some {old new : Tree} {u : Nat × Tree} :
    counterpart? new.visible old.visible p.1 p.2 = some u ↔ IsCounterpart old new u p := by
  have hsorted : (old.visible.filter fun q => q.2.samePosition p.2).Pairwise (·.1 < ·.1) :=
    pairwise_visibleFrom.filter _
  -- nodes at the position of `u` are at the position of `p`
  have hrank (h : u.2.start = p.2.start ∧ u.2.grammarName = p.2.grammarName) :
      (old.visible.filter fun q => q.2.samePosition p.2).countP (fun q => q.1 < u.1) =
        rank old.visible u.1 u.2 := by
    rw [List.countP_filter, rank]
    simp [samePosition, h]
  rw [counterpart?, getElem?_eq_some_iff_countP hsorted, List.mem_filter, IsCounterpart]
  simp only [samePosition, Bool.and_eq_true, beq_iff_eq] at hrank ⊢
  constructor
  · rintro ⟨⟨hu, h⟩, hcount⟩
    exact ⟨hu, h.1, h.2, (hrank h).symm.trans hcount⟩
  · rintro ⟨hu, hstart, hname, hcount⟩
    exact ⟨⟨hu, hstart, hname⟩, (hrank ⟨hstart, hname⟩).trans hcount⟩

@[simp] theorem counterpart?_eq_none {old new : Tree} :
    counterpart? new.visible old.visible p.1 p.2 = none ↔ ¬ ∃ u, IsCounterpart old new u p := by
  simp [Option.eq_none_iff_forall_ne_some, counterpart?_eq_some]

end Tree

/-! ## Keys that agree -/

section Congr

variable {κ κ' : Type} [DecidableEq κ] [DecidableEq κ'] {old new : ComparedTree κ}
  {old' new' : ComparedTree κ'}

namespace Tree

mutual

theorem newSide_congr (hold : old.nodes = old'.nodes) (hnew : new.nodes = new'.nodes) :
    ∀ {t : Tree} {n : Nat},
      (∀ p ∈ visibleFrom n t, old.has (new.key p.2) = old'.has (new'.key p.2)) →
        newSide old new n t = newSide old' new' n t
  | node d cs, n, h => by
    cases htrivia : (node d cs).isTrivia with
    | true => simp [newSide, htrivia]
    | false =>
      rw [visibleFrom_of_not_isTrivia htrivia, List.forall_mem_cons] at h
      have hparts := newSideAll_congr hold hnew h.2
      rw [children_node] at hparts
      simp only [newSide, h.1, hold, hnew, hparts]

theorem newSideAll_congr (hold : old.nodes = old'.nodes) (hnew : new.nodes = new'.nodes) :
    ∀ {cs : List Tree} {n : Nat},
      (∀ p ∈ visibleAll n cs, old.has (new.key p.2) = old'.has (new'.key p.2)) →
        newSideAll old new n cs = newSideAll old' new' n cs
  | [], n, _ => by simp [newSideAll]
  | c :: cs, n, h => by
    rw [visibleAll, List.forall_mem_append] at h
    rw [newSideAll, newSideAll, newSide_congr hold hnew h.1, newSideAll_congr hold hnew h.2]

end

mutual

theorem oldSide_congr (hold : old.nodes = old'.nodes) (hnew : new.nodes = new'.nodes) :
    ∀ {t : Tree} {n : Nat},
      (∀ p ∈ visibleFrom n t, new.has (old.key p.2) = new'.has (old'.key p.2)) →
        oldSide old new n t = oldSide old' new' n t
  | node d cs, n, h => by
    cases htrivia : (node d cs).isTrivia with
    | true => simp [oldSide, htrivia]
    | false =>
      rw [visibleFrom_of_not_isTrivia htrivia, List.forall_mem_cons] at h
      have hparts := oldSideAll_congr hold hnew h.2
      rw [children_node] at hparts
      simp only [oldSide, h.1, hold, hnew, hparts]

theorem oldSideAll_congr (hold : old.nodes = old'.nodes) (hnew : new.nodes = new'.nodes) :
    ∀ {cs : List Tree} {n : Nat},
      (∀ p ∈ visibleAll n cs, new.has (old.key p.2) = new'.has (old'.key p.2)) →
        oldSideAll old new n cs = oldSideAll old' new' n cs
  | [], n, _ => by simp [oldSideAll]
  | c :: cs, n, h => by
    rw [visibleAll, List.forall_mem_append] at h
    rw [oldSideAll, oldSideAll, oldSide_congr hold hnew h.1, oldSideAll_congr hold hnew h.2]

end

end Tree

end Congr

/-! ## Comparing by digests -/

section Digest

variable {hash : List UInt8 → UInt64} {oldSource newSource : String} {old new : Tree}
  {p : Nat × Tree}

theorem ComparedTree.has_hashed_iff (hfree : CollisionFree hash oldSource newSource old new)
    (hp : p ∈ new.visible) :
    (hashed hash oldSource old).has ((hashed hash newSource new).key p.2) = true ↔
      p.2.content newSource ∈ old.visible.map (·.2.content oldSource) := by
  rw [has_iff, List.mem_map]
  constructor
  · rintro ⟨q, hq, hkey⟩
    exact ⟨q, hq, hfree q hq p hp (Prod.mk.inj hkey).2⟩
  · rintro ⟨q, hq, hcontent⟩
    refine ⟨q, hq, Prod.ext ?_ ?_⟩
    · exact (kind_content q.2).symm.trans (hcontent ▸ kind_content p.2)
    · show q.2.digest hash oldSource = p.2.digest hash newSource
      rw [digest_eq, digest_eq, hcontent]

theorem ComparedTree.has_make_iff :
    (make oldSource old).has ((make newSource new).key p.2) = true ↔
      p.2.content newSource ∈ old.visible.map (·.2.content oldSource) := by
  rw [has_iff, List.mem_map]
  rfl

/-- Digests that tell contents apart lead to the comparison by contents. -/
theorem compareTrees_hashed (hfree : CollisionFree hash oldSource newSource old new) :
    compareTrees (.hashed hash oldSource old) (.hashed hash newSource new) =
      compareTrees (.make oldSource old) (.make newSource new) := by
  have hnewSide : newSide (.hashed hash oldSource old) (.hashed hash newSource new) 0 new =
      newSide (.make oldSource old) (.make newSource new) 0 new := by
    refine newSide_congr (by rfl) (by rfl) fun p hp => Bool.eq_iff_iff.mpr ?_
    rw [ComparedTree.has_hashed_iff hfree hp, ComparedTree.has_make_iff]
  have holdSide : oldSide (.hashed hash oldSource old) (.hashed hash newSource new) 0 old =
      oldSide (.make oldSource old) (.make newSource new) 0 old := by
    refine oldSide_congr (by rfl) (by rfl) fun p hp => Bool.eq_iff_iff.mpr ?_
    rw [ComparedTree.has_hashed_iff hfree.symm hp, ComparedTree.has_make_iff]
  simp only [compareTrees, ComparedTree.hashed, ComparedTree.make, ComparedTree.source_ofKey,
    ComparedTree.tree_ofKey] at hnewSide holdSide ⊢
  rw [hnewSide, holdSide]

/-- What lies below a known node is known: it lies below the same content in the old tree. -/
theorem Tree.content_mem_of_isAbove {a : Nat × Tree} (h : IsAbove a p)
    (ha : a.2.content newSource ∈ old.visible.map (·.2.content oldSource)) :
    p.2.content newSource ∈ old.visible.map (·.2.content oldSource) := by
  obtain ⟨q, hq, heq⟩ := List.mem_map.mp ha
  exact mem_contents_visible hq (heq ▸ content_mem_preorder_of_isAbove h)

/-- Which nodes are reported, where digests tell contents apart and only named nodes have
children. -/
theorem Tree.mem_reported_hashed_iff (hfree : CollisionFree hash oldSource newSource old new)
    (hleaf : ∀ t ∈ new.preorder, t.named = false → t.children = [])
    (hp : p ∈ new.visible) (hnamed : p.2.named = true) :
    p ∈ (newSide (.hashed hash oldSource old) (.hashed hash newSource new) 0 new).reported ↔
      p.2.content newSource ∉ old.visible.map (·.2.content oldSource) ∧
        ∀ a ∈ (newSide (.hashed hash oldSource old) (.hashed hash newSource new) 0 new).added,
          ¬ IsAbove a p := by
  have hdown :
      KnownBelow (.hashed hash oldSource old) (.hashed hash newSource new) new.visible := by
    intro a ha p habove hknown
    have hp := mem_visibleFrom_of_isAbove ha habove
    rw [ComparedTree.has_hashed_iff hfree ha] at hknown
    rw [ComparedTree.has_hashed_iff hfree hp]
    exact content_mem_of_isAbove habove hknown
  rw [mem_reported_newSide, mem_reached_iff hdown hp, uncovered_reached_iff hleaf,
    ← ComparedTree.has_hashed_iff hfree hp, Bool.not_eq_true]
  simp only [hnamed, and_true]

/-- Where the digests by `hash` tell contents apart and only named nodes have children, a named node
of `new` is reported exactly once if its content does not occur in `old` and it is not below an
added node. Else it is not reported. A reported node is added if it has no counterpart, and modified
if it has one. -/
theorem new_nodes_reported_once (hfree : CollisionFree hash oldSource newSource old new)
    (hleaf : ∀ t ∈ new.preorder, t.named = false → t.children = []) :
    let o := ComparedTree.hashed hash oldSource old
    let w := ComparedTree.hashed hash newSource new
    let report := new.newSide o w 0
    compareTrees o w = compareTrees (.make oldSource old) (.make newSource new) ∧
    ((compareTrees o w).added = report.added.map (·.2.report newSource) ∧
      (compareTrees o w).modified.map (fun m => (m.old, m.new)) =
        report.modified.map fun m => (m.1.2.report oldSource, m.2.2.report newSource)) ∧
    (∀ p ∈ report.reported, p ∈ new.visible ∧ p.2.named = true) ∧
    (∀ p ∈ new.visible, p.2.named = true →
      ((report.reported.map (·.1)).count p.1 = 1 ↔
        p.2.content newSource ∉ old.visible.map (·.2.content oldSource) ∧
          ∀ a ∈ report.added, ¬ IsAbove a p) ∧
      (report.reported.map (·.1)).count p.1 ≤ 1 ∧
      (p ∈ report.added ↔ p ∈ report.reported ∧ ¬ ∃ u, IsCounterpart old new u p) ∧
      ∀ u, (u, p) ∈ report.modified ↔ p ∈ report.reported ∧ IsCounterpart old new u p) ∧
    ∀ a ∈ report.added, ∀ b ∈ report.added, ¬ IsAbove a b := by
  intro o w report
  have hreported {p : Nat × Tree} := mem_reported_hashed_iff (p := p) hfree hleaf
  have hadded {p : Nat × Tree} (hp : p ∈ report.added) : p ∈ report.reported :=
    List.mem_append_left _ hp
  have hvisible {p : Nat × Tree} (hp : p ∈ report.reported) : p ∈ new.visible ∧ p.2.named = true :=
    ⟨mem_visible_of_mem_reported hp, (mem_reported_newSide.mp hp).2⟩
  refine ⟨compareTrees_hashed hfree, ⟨rfl, List.map_map⟩, fun p => hvisible, fun p hp hnamed => ?_,
    fun a ha b hb => ?_⟩
  · refine ⟨?_, ?_, ?_, fun u => ?_⟩
    · exact (count_reported_newSide hp).trans (hreported hp hnamed)
    · exact List.nodup_iff_count_le_one.mp (nodup_reported_newSide o w new) p.1
    · rw [← counterpart?_eq_none, mem_added_newSide, mem_reported_newSide, and_assoc]
      rfl
    · rw [← counterpart?_eq_some, mem_modified_newSide, mem_reported_newSide, and_assoc]
      rfl
  · obtain ⟨hvis, hnamed⟩ := hvisible (hadded hb)
    exact ((hreported hvis hnamed).mp (hadded hb)).2 a ha

end Digest

/-- The tree of a name and a semicolon at the offset `start`. -/
def Tree.ofStatement (start : Nat) : Tree :=
  .node { kind := "expression_statement", start, length := 2 }
    [.node { kind := "identifier", start, length := 1 } [], .ofToken ";" (start + 1)]

/-- The tree of `a;b;`. -/
def Tree.twoStatements : Tree :=
  .node { kind := "compilation_unit", length := 4 } [.ofStatement 0, .ofStatement 2]

/-- The tree of `a;c;/**/d;`. -/
def Tree.threeStatements : Tree :=
  .node { kind := "compilation_unit", length := 10 }
    [.ofStatement 0, .ofStatement 2, .node { kind := "comment", start := 4, length := 4 } [],
      .ofStatement 8]

/-- The new statement is reported without what lies below it, the changed one with its name. -/
theorem new_nodes_reported_once_threeStatements :
    CollisionFree fnv "a;b;" "a;c;/**/d;" twoStatements threeStatements ∧
    (∀ t ∈ threeStatements.preorder, t.named = false → t.children = []) ∧
    let report := newSide (.hashed fnv "a;b;" twoStatements)
      (.hashed fnv "a;c;/**/d;" threeStatements) 0 threeStatements
    report.reported.map (·.1) = [8, 0, 4, 5] ∧
    ∀ a ∈ report.added,
      ¬ IsAbove a (5, .node { kind := "identifier", start := 2, length := 1 } []) := by
  have hfree : CollisionFree fnv "a;b;" "a;c;/**/d;" twoStatements threeStatements := by
    unfold CollisionFree
    decide +kernel
  have hleaf : ∀ t ∈ threeStatements.preorder, t.named = false → t.children = [] := by
    have h : ∀ t ∈ threeStatements.preorder, t.named = false → t.children.isEmpty = true := by
      decide +kernel
    exact fun t ht hnamed => List.isEmpty_iff.mp (h t ht hnamed)
  refine ⟨hfree, hleaf, ?_⟩
  intro report
  have hnumbers : report.reported.map (·.1) = [8, 0, 4, 5] := by decide +kernel
  obtain ⟨-, -, -, hnodes, -⟩ := new_nodes_reported_once hfree hleaf
  obtain ⟨honce, -⟩ := hnodes (5, .node { kind := "identifier", start := 2, length := 1 } [])
    (List.mem_of_getElem? (i := 5) rfl) rfl
  refine ⟨hnumbers, (honce.mp ?_).2⟩
  exact hnumbers ▸ rfl

end CodeAtlas
