import CodeAtlas.Proofs.Reference.Steps
import Mathlib.Logic.Relation

/-!
# Searches that go round

A step of a search goes down the tree, except from a call whose function is a member binding: from
there it climbs to the condition of the nearest conditional access around it. A search enters a
conditional access by its condition only, so once it has climbed, a second climb takes it back to
a condition where it has been, and it goes round for ever. It ends on every tree in which no search
that goes down from the condition of a conditional access comes to a call from which it climbs.

## Main definitions

* `Tree.climbs`: a call whose function is a member binding.
* `Tree.Down`: a step down.
* `Tree.Circular`: a search goes down from the condition of a conditional access to a call from
  which it climbs.

## Main statements

* `Tree.exists_condition_of_down`: going down, a search passes the condition of the nearest
  conditional access.
* `Tree.forall_ends_iff`: all searches in a tree end if and only if the tree is not circular.
* `Reader.forall_typeOf_isSome_iff`: as many steps as the tree has nodes are enough for all searches
  if and only if the tree is not circular.
-/
namespace CodeAtlas

namespace Tree

variable {root t c : Tree} {above around : List Tree} {k : Nat} {p q : List Tree × Tree}

/-! ## Steps up and down -/

/-- The node `t` is a call whose function is a member binding. -/
def climbs (t : Tree) : Bool :=
  t.kind == "invocation_expression" &&
    (t.field? "function").any (·.kind == "member_binding_expression")

/-- A step of a search down from the expression `p` to `q`, each with its ancestors. -/
def Down (p q : List Tree × Tree) : Prop :=
  p.2.climbs = false ∧ p.2.basis? p.1 = some q

@[simp]
theorem conditionAbove?_cons (h : t.kind ≠ "conditional_access_expression") (above : List Tree) :
    conditionAbove? (t :: above) = conditionAbove? above := by
  rw [conditionAbove?, if_neg (by simpa using h)]

theorem conditionAbove?_self (h : t.kind = "conditional_access_expression")
    (hc : t.condition? = some c) (above : List Tree) :
    conditionAbove? (t :: above) = some (c, t :: above) := by
  rw [conditionAbove?, if_pos (by simpa using h), hc, Option.map_some]

/-- The condition of the nearest conditional access is found there. -/
theorem exists_of_conditionAbove? (h : conditionAbove? above = some (c, around)) :
    ∃ a outer, around = a :: outer ∧ a.kind = "conditional_access_expression" ∧
      a.condition? = some c := by
  induction above with
  | nil => simp [conditionAbove?] at h
  | cons a above ih =>
    rw [conditionAbove?] at h
    split at h
    · next hkind =>
      obtain ⟨c, hc, heq⟩ := Option.map_eq_some_iff.mp h
      obtain ⟨rfl, rfl⟩ := Prod.mk.inj heq
      exact ⟨a, above, rfl, by simpa using hkind, hc⟩
    · exact ih h

/-- A step up leads to the condition of the nearest conditional access. -/
theorem conditionAbove?_of_climbs (h : t.climbs = true)
    (hbasis : t.basis? above = some (around, c)) : conditionAbove? above = some (c, around) := by
  rw [climbs, Bool.and_eq_true, beq_iff_eq, Option.any_eq_true] at h
  obtain ⟨hcall, f, hf, hkind⟩ := h
  cases BasisAt.of_basis? hbasis with
  | child hother => exact absurd hcall hother
  | receiver hf' hkind' | condition hf' hkind' =>
    obtain rfl := Option.some.inj (hf.symm.trans hf')
    simp [hkind'] at hkind
  | climb _ _ hc => exact hc

/-- A step down leads to a smaller expression. The nearest conditional access stays the same, or it
is entered by its condition. -/
theorem Down.spec (h : Down (above, t) (around, c)) : sizeOf c < sizeOf t ∧
    (conditionAbove? around = conditionAbove? above ∨
      conditionAbove? around = some (c, around)) := by
  cases BasisAt.of_basis? h.2 with
  | child _ haccess hc =>
    exact ⟨sizeOf_lt_of_mem_children hc, .inl (conditionAbove?_cons haccess above)⟩
  | @receiver f _ hf hkind hc hcall =>
    have hsize := sizeOf_lt_of_mem_children (mem_children_of_field? hf)
    refine ⟨Nat.lt_trans (sizeOf_lt_of_mem_children (mem_children_of_field? hc)) hsize, .inl ?_⟩
    rw [conditionAbove?_cons (by simp [hkind]), conditionAbove?_cons (by simp [hcall])]
  | @condition f _ hf hkind hc hcall =>
    have hsize := sizeOf_lt_of_mem_children (mem_children_of_field? hf)
    refine ⟨Nat.lt_trans (sizeOf_lt_of_mem_children (mem_children_of_condition? hc)) hsize, .inr ?_⟩
    exact conditionAbove?_self hkind hc _
  | climb hf hkind _ hcall =>
    have hclimbs : t.climbs = true := by simp [climbs, hcall, hf, hkind]
    exact absurd (hclimbs.symm.trans h.1) (by decide)

/-! ## Going round -/

/-- Going down from the condition of a conditional access, a search passes the condition of the
nearest conditional access of wherever it comes. -/
theorem exists_condition_of_down (hp : conditionAbove? p.1 = some (p.2, p.1))
    (h : Relation.ReflTransGen Down p q) : ∃ m : List Tree × Tree,
      conditionAbove? q.1 = some (m.2, m.1) ∧ Relation.ReflTransGen Down m q := by
  induction h with
  | refl => exact ⟨p, hp, .refl⟩
  | @tail q s _ hstep ih =>
    rcases (Down.spec hstep).2 with hsame | hown
    · obtain ⟨m, hm, hdown⟩ := ih
      exact ⟨m, hsame.trans hm, hdown.tail hstep⟩
    · exact ⟨s, hown, .refl⟩

theorem Ends.of_basis? (hends : Ends k above t) (h : t.basis? above = some p) :
    ∃ j < k, Ends j p.1 p.2 := by
  cases hends with
  | here hnone => simp [h] at hnone
  | step hsome hends =>
    obtain rfl := Option.some.inj (h.symm.trans hsome)
    exact ⟨_, Nat.lt_succ_self _, hends⟩

/-- A search that ends has no more steps left wherever it comes. -/
theorem Ends.of_down (h : Relation.ReflTransGen Down p q) (hends : Ends k p.1 p.2) :
    ∃ j ≤ k, Ends j q.1 q.2 := by
  induction h with
  | refl => exact ⟨k, Nat.le_refl k, hends⟩
  | tail _ hstep ih =>
    obtain ⟨j, hj, hends⟩ := ih
    obtain ⟨i, hi, hends⟩ := hends.of_basis? hstep.2
    exact ⟨i, by omega, hends⟩

/-- A search that comes back to where it was does not end. -/
theorem not_ends_of_round (h : Relation.ReflTransGen Down p q)
    (hback : q.2.basis? q.1 = some p) (k : Nat) : ¬ Ends k p.1 p.2 := by
  intro hends
  obtain ⟨j, hj, hends'⟩ := hends.of_down h
  obtain ⟨i, hi, hends''⟩ := hends'.of_basis? hback
  have := hends.unique hends''
  omega

/-- A search in `root` goes down from the condition of a conditional access to a call from which it
climbs. -/
def Circular (root : Tree) : Prop :=
  ∃ above a c, Within root above a ∧ a.kind = "conditional_access_expression" ∧
    a.condition? = some c ∧ ∃ q : List Tree × Tree, Relation.ReflTransGen Down (a :: above, c) q ∧
      q.2.climbs = true ∧ (q.2.basis? q.1).isSome

/-- In a circular tree some search does not end. -/
theorem Circular.exists_not_ends (h : root.Circular) :
    ∃ above t, Within root above t ∧ ∀ k, ¬ Ends k above t := by
  obtain ⟨above, a, c, ha, hkind, hc, q, hdown, hclimbs, hbasis⟩ := h
  obtain ⟨p, hp⟩ := Option.isSome_iff_exists.mp hbasis
  obtain ⟨m, hm, hround⟩ := exists_condition_of_down (conditionAbove?_self hkind hc above) hdown
  -- the call climbs to a condition that the search has passed on its way down
  obtain rfl : m = p := by
    have := (conditionAbove?_of_climbs hclimbs hp).symm.trans hm
    simpa [Prod.ext_iff, and_comm, eq_comm] using this
  have hnever := not_ends_of_round hround hp
  refine ⟨a :: above, c, ha.child (mem_children_of_condition? hc), fun k hends => ?_⟩
  obtain ⟨j, -, hends⟩ := hends.of_down hdown
  obtain ⟨i, -, hends⟩ := hends.of_basis? hp
  exact hnever i hends

/-- A search that goes down as long as it goes on ends. -/
theorem exists_ends_of_down {above : List Tree} {t : Tree}
    (h : ∀ q, Relation.ReflTransGen Down (above, t) q → q.2.climbs = true → q.2.basis? q.1 = none) :
    ∃ k, Ends k above t := by
  induction hn : sizeOf t using Nat.strongRecOn generalizing above t with
  | ind n ih =>
    subst hn
    cases hbasis : t.basis? above with
    | none => exact ⟨0, .here hbasis⟩
    | some p =>
      have hdown : Down (above, t) p := by
        refine ⟨Bool.eq_false_iff.mpr fun hclimbs => ?_, hbasis⟩
        simp [h _ .refl hclimbs] at hbasis
      obtain ⟨k, hends⟩ := ih _ (Down.spec hdown).1 (fun q hq => h q (hq.head hdown)) rfl
      exact ⟨k + 1, .step hbasis hends⟩

/-- All searches in a tree end if and only if the tree is not circular. -/
theorem forall_ends_iff :
    (∀ above t, Within root above t → ∃ k, Ends k above t) ↔ ¬ root.Circular := by
  constructor
  · intro hends hcircular
    obtain ⟨above, t, ht, hnever⟩ := hcircular.exists_not_ends
    obtain ⟨k, hk⟩ := hends above t ht
    exact hnever k hk
  · intro hcircular above t
    -- steps down lead to smaller expressions, and the first step up ends the induction
    induction hn : sizeOf t using Nat.strongRecOn generalizing above t with
    | ind n ih =>
      subst hn
      intro ht
      cases hbasis : t.basis? above with
      | none => exact ⟨0, .here hbasis⟩
      | some p =>
        have hwithin := ht.of_basis? hbasis
        obtain ⟨k, hends⟩ : ∃ k, Ends k p.1 p.2 := by
          cases hclimbs : t.climbs with
          | false => exact ih _ (Down.spec ⟨hclimbs, hbasis⟩).1 p.1 p.2 rfl hwithin
          | true =>
            obtain ⟨a, outer, haround, hkind, hc⟩ :=
              exists_of_conditionAbove? (conditionAbove?_of_climbs hclimbs hbasis)
            rw [haround] at hwithin ⊢
            cases hwithin with
            | child ha _ =>
              refine exists_ends_of_down fun q hq hq' => ?_
              by_contra hsome
              exact hcircular ⟨outer, a, p.2, ha, hkind, hc, q, hq, hq',
                Option.isSome_iff_ne_none.mpr hsome⟩
        exact ⟨k + 1, .step hbasis hends⟩

end Tree

namespace Reader

variable {r : Reader} {place : Place} {locals : Locals} {above : List Tree} {root t : Tree}
  {k n : Nat}

theorem typeOf_isSome_of_ends (h : Tree.Ends k above t) (hn : k < n) :
    (r.typeOf place locals n above t).isSome := by
  obtain ⟨n, rfl⟩ := Nat.exists_eq_succ_of_ne_zero (Nat.ne_zero_of_lt hn)
  induction h generalizing n with
  | here h =>
    rw [typeOf_succ, h]
    rfl
  | step h _ ih =>
    obtain ⟨n, rfl⟩ := Nat.exists_eq_succ_of_ne_zero (n := n) (by omega)
    rw [typeOf_succ, h, Option.isSome_map]
    exact ih n (by omega)

/-- As many steps as the tree has nodes are enough for all searches in it if and only if the tree is
not circular. -/
theorem forall_typeOf_isSome_iff (r : Reader) (place : Place) (locals : Locals) (root : Tree) :
    (∀ above t, Tree.Within root above t → (r.typeOf place locals root.size above t).isSome) ↔
      ¬ root.Circular := by
  rw [← Tree.forall_ends_iff]
  refine forall_congr' fun above => forall_congr' fun t => forall_congr' fun ht => ?_
  constructor
  · intro hsome
    by_contra hnever
    simp [typeOf_eq_none (not_exists.mp hnever)] at hsome
  · rintro ⟨k, hk⟩
    exact typeOf_isSome_of_ends hk (hk.lt_size ht)

end Reader

/-- A call whose function is a member binding, as the condition of a conditional access. -/
def Tree.boundCall : Tree :=
  .node { kind := "invocation_expression", label := some "condition", length := 2 }
    [.node { kind := "member_binding_expression", label := some "function", length := 2 }
      [.node { kind := "identifier", label := some "name", start := 1, length := 1 } []]]

/-- The conditional access around that call. -/
def Tree.roundabout : Tree :=
  .node { kind := "conditional_access_expression", length := 2 } [boundCall]

/-- The search for the type of a call that is the condition of its own conditional access does not
end, whatever is looked up and however many steps it may take. -/
theorem Reader.typeOf_roundabout (r : Reader) (place : Place) (locals : Locals) (fuel : Nat) :
    r.typeOf place locals fuel [Tree.roundabout] Tree.boundCall = none := by
  have hround : Tree.boundCall.basis? [Tree.roundabout] =
      some ([Tree.roundabout], Tree.boundCall) := rfl
  exact typeOf_eq_none (Tree.not_ends_of_round (p := (_, _)) .refl hround)

end CodeAtlas
