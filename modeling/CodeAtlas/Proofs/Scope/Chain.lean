import CodeAtlas.Proofs.Scope.Forest

/-!
# The scopes around an offset

The scopes that cover an offset are looked for from the inside out: the first of the shortest ones,
and from there on the scope around each. All of them cover the offset, since a scope lies inside its
parent. But the ends of a scope count as covered, so two scopes that meet at an offset both cover
it, and only one of them is found.

## Main definitions

* `Tree.ElseFirst`: an `else` does not start behind its branch.
* `HeldFrom`: scopes that lie in the scopes named as their parents.
* `ScopeForest.Holds`: one scope is another one or around it.
* `ScopeForest.around`: the scopes that cover an offset.
* `ScopeForest.ForksAt`, `ScopeForest.HidesAt`: the offsets at which not all of them are found.

## Main statements

* `Tree.heldFrom_openingsAt`: the scopes of a node lie in their parents.
* `ScopeForest.mem_chain`: the chain of an offset are the scopes that hold the innermost one.
* `ScopeForest.chain_complete_iff`: when the chain lists all scopes that cover the offset.
-/
namespace CodeAtlas

/-! ## Scopes in their parents -/

/-- The scope `s` lies inside `t`. -/
def Opening.Inside (s t : Opening) : Prop :=
  t.start ≤ s.start ∧ s.stop ≤ t.stop

theorem Opening.Inside.trans {s t u : Opening} (h : s.Inside t) (h' : t.Inside u) : s.Inside u :=
  ⟨Nat.le_trans h'.1 h.1, Nat.le_trans h.2 h'.2⟩

theorem Opening.Inside.covers {s t : Opening} {offset : Nat} (h : s.Inside t)
    (hs : s.covers offset = true) : t.covers offset = true := by
  simp only [Opening.covers, Bool.and_eq_true, decide_eq_true_eq] at hs ⊢
  exact ⟨Nat.le_trans h.1 hs.1, Nat.le_trans hs.2 h.2⟩

@[grind →]
theorem Opening.Inside.length_le {s t : Opening} (h : s.Inside t) : s.length ≤ t.length := by
  have hstart := h.1
  have hstop := h.2
  unfold Opening.stop at hstop
  omega

/-- The scopes lie between `lo` and `hi`, and their positions count from `next`. The parent of each
is `outer` or an earlier scope around it. Scopes may overlap. -/
structure HeldFrom (outer : Option Nat) (next lo hi : Nat) (ss : List Opening) : Prop where
  bounded : ∀ s ∈ ss, lo ≤ s.start ∧ s.stop ≤ hi
  parents : ∀ k s, ss[k]? = some s → s.parent = outer ∨
    ∃ p q, p < k ∧ s.parent = some (next + p) ∧ ss[p]? = some q ∧ s.Inside q

namespace HeldFrom

variable {outer : Option Nat} {next lo hi lo' hi' : Nat} {ss ts : List Opening} {s : Opening}

theorem nil : HeldFrom outer next lo hi [] := by
  constructor <;> simp

theorem mono (h : HeldFrom outer next lo hi ss) (hlo : lo' ≤ lo) (hhi : hi ≤ hi') :
    HeldFrom outer next lo' hi' ss where
  bounded s hs := ⟨Nat.le_trans hlo (h.bounded s hs).1, Nat.le_trans (h.bounded s hs).2 hhi⟩
  parents := h.parents

theorem append (h : HeldFrom outer next lo hi ss)
    (h' : HeldFrom outer (next + ss.length) lo hi ts) : HeldFrom outer next lo hi (ss ++ ts) where
  bounded := List.forall_mem_append.mpr ⟨h.bounded, h'.bounded⟩
  parents k s hs := by
    rw [List.getElem?_append] at hs
    split at hs
    · refine (h.parents k s hs).imp_right ?_
      rintro ⟨p, q, hp, hparent, hq, hin⟩
      exact ⟨p, q, hp, hparent, by grind, hin⟩
    · refine (h'.parents _ s hs).imp_right ?_
      rintro ⟨p, q, hp, hparent, hq, hin⟩
      exact ⟨ss.length + p, q, by omega, by grind, by grind, hin⟩

/-- A scope in front of those that lie in it. -/
theorem cons (h : HeldFrom (some next) (next + 1) s.start s.stop ss) (hparent : s.parent = outer)
    (hlo : lo ≤ s.start) (hhi : s.stop ≤ hi) : HeldFrom outer next lo hi (s :: ss) where
  bounded := List.forall_mem_cons.mpr ⟨⟨hlo, hhi⟩, (h.mono hlo hhi).bounded⟩
  parents k t ht := by
    cases k with
    | zero =>
      obtain rfl : s = t := by simpa using ht
      exact .inl hparent
    | succ k =>
      rw [List.getElem?_cons_succ] at ht
      rcases h.parents k t ht with hown | ⟨p, q, hp, hparent, hq, hin⟩
      · exact .inr ⟨0, s, by omega, hown, rfl, h.bounded t (List.mem_of_getElem? ht)⟩
      · exact .inr ⟨p + 1, q, by omega, by grind, hq, hin⟩

end HeldFrom

namespace Tree

variable {source : String} {t c branch : Tree} {cs : List Tree} {parent skip : Option Nat}
  {next lo hi i : Nat}

/-- The `else` of a conditional does not start behind its branch. -/
def ElseFirst (t : Tree) : Prop :=
  ∀ branch ∈ t.field? "alternative", ∀ keyword ∈ t.children.find? (·.kind == "else"),
    keyword.start ≤ branch.start

instance (t : Tree) : Decidable t.ElseFirst :=
  inferInstanceAs (Decidable (∀ branch ∈ t.field? "alternative", _))

theorem heldFrom_openingsIn
    (h : ∀ c ∈ cs, ∀ next, HeldFrom parent next lo hi (openingsAt source parent next c)) :
    HeldFrom parent next lo hi (openingsIn source parent next skip i cs) := by
  induction cs generalizing next i with
  | nil => exact .nil
  | cons c cs ih =>
    obtain ⟨hc, hcs⟩ := List.forall_mem_cons.mp h
    rw [openingsIn]
    split
    · exact (hc next).append (ih hcs)
    · exact ih hcs

/-- The own scope of a node in front of those of its children. -/
theorem heldFrom_own {body : List Opening}
    (h : HeldFrom (if (t.opening? source parent).toList.isEmpty then parent else some next)
      (next + (t.opening? source parent).toList.length) t.start t.stop body) :
    HeldFrom parent next t.start t.stop ((t.opening? source parent).toList ++ body) := by
  rw [opening?] at h ⊢
  cases hscope : t.scope? source with
  | none => simpa [hscope] using h
  | some s =>
    rw [hscope] at h
    exact .cons h rfl (Nat.le_refl _) (Nat.le_refl _)

/-- The scope of an `else` branch lies in the conditional and around the branch. -/
theorem range_elseOpening_of_elseFirst (h : t.Layered) (helse : t.ElseFirst)
    (hbranch : t.field? "alternative" = some branch) (parent : Option Nat) :
    t.start ≤ (t.elseOpening branch parent).start ∧
      (t.elseOpening branch parent).start ≤ branch.start ∧
      (t.elseOpening branch parent).stop = branch.stop := by
  have hmem := mem_children_of_field? hbranch
  have hle := branch.start_le_stop
  cases hfind : t.children.find? (·.kind == "else") with
  | none =>
    have hlo := h.start_le hmem
    simp only [elseOpening, Opening.stop, hfind, Option.map_none, Option.getD_none]
    omega
  | some keyword =>
    have hbefore := helse branch hbranch keyword hfind
    have hlo := h.start_le (List.mem_of_find?_eq_some hfind)
    simp only [elseOpening, Opening.stop, hfind, Option.map_some, Option.getD_some]
    omega

/-- The scopes of a node lie in their parents, from whatever position they are counted. -/
theorem heldFrom_openingsAt (h : t.Layered)
    (helse : ∀ n ∈ t.preorder, n.kind = "if_statement" → n.ElseFirst) :
    ∀ parent next, HeldFrom parent next t.start t.stop (openingsAt source parent next t) := by
  induction t using childInduction with
  | inherit t ih =>
    have hscopes (c : Tree) (hc : c ∈ t.children) := ih c hc (h.child hc)
      fun n hn => helse n (mem_preorder_trans (mem_preorder_of_mem_children hc) hn)
    have hall (outer : Option Nat) (next : Nat) (skip : Option Nat) :
        HeldFrom outer next t.start t.stop (openingsIn source outer next skip 0 t.children) :=
      heldFrom_openingsIn fun c hc next =>
        (hscopes c hc outer next).mono (h.start_le hc) (h.stop_le hc)
    intro parent next
    obtain ⟨d, cs⟩ := t
    rw [openingsAt]
    dsimp only
    split
    · next hkind =>
      split
      · next i branch halt hbranch =>
        have hfield : (node d cs).field? "alternative" = some branch := hbranch
        have hmem := mem_children_of_field? hfield
        rw [halt, Option.bind_some] at hbranch
        obtain ⟨hlo, hstart, hstop⟩ := range_elseOpening_of_elseFirst h
          (helse _ (mem_preorder_self _) (by simpa using hkind)) hfield
            (if ((node d cs).opening? source parent).toList.isEmpty then parent else some next)
        split
        · rw [List.append_assoc, openingsNth_eq hbranch]
          refine heldFrom_own ((hall _ _ _).append ?_)
          exact (hscopes branch hmem _ _).mono (h.start_le hmem) (h.stop_le hmem)
        · rw [List.append_assoc, openingsNth_eq hbranch]
          refine heldFrom_own ((hall _ _ _).append (.cons ?_ rfl hlo ?_))
          · exact (hscopes branch hmem _ _).mono hstart (Nat.le_of_eq hstop.symm)
          · rw [hstop]
            exact h.stop_le hmem
      · exact heldFrom_own (hall _ _ _)
    · exact heldFrom_own (hall _ _ _)

end Tree

namespace ScopeForest

variable {f : ScopeForest} {i j k p fuel offset : Nat} {s : Scope}

/-- Every scope of `f` lies in its parent. -/
structure IsHeld (f : ScopeForest) : Prop extends Consistent f where
  inside : ∀ i s p, f.get? i = some s → s.parent = some p →
    ∃ outer, f.get? p = some outer ∧ s.Inside outer

theorem IsHeld.outer (hf : f.IsHeld) (hs : f.get? i = some s) (hp : s.parent = some p) :
    p < i ∧ ∃ outer, f.get? p = some outer ∧ s.Inside outer :=
  ⟨hf.parent_lt i s p hs hp, hf.inside i s p hs hp⟩

theorem isHeld_ofText (grammar : Grammar) (text path : String) (h : (grammar text).Layered)
    (helse : ∀ n ∈ (grammar text).preorder, n.kind = "if_statement" → n.ElseFirst) :
    (ofText grammar text path).IsHeld := by
  refine ⟨consistent_ofText grammar text path, fun i s p hs hp => ?_⟩
  have hheld : HeldFrom none 0 (grammar text).start (grammar text).stop
      ((grammar text).openingsAt text none 0) := Tree.heldFrom_openingsAt h helse none 0
  rw [← openings_ofText grammar text path] at hheld
  have hopened : (ofText grammar text path).openings[i]? = some s.toOpening := by
    rw [getElem?_openings, hs, Option.map_some]
  rcases hheld.parents i s.toOpening hopened with hnone | ⟨p', q, -, hparent, hq, hin⟩
  · simp [hp] at hnone
  · obtain rfl : p = p' := by simpa [hp] using hparent
    rw [getElem?_openings] at hq
    obtain ⟨outer, houter, rfl⟩ := Option.map_eq_some_iff.mp hq
    exact ⟨outer, houter, hin⟩

/-! ## The scopes around a scope -/

/-- The scope at position `i` of `f` is the one at the given position or around it. -/
inductive Holds (f : ScopeForest) (i : Nat) : Nat → Prop
  | self : Holds f i i
  | step {j p : Nat} {s : Scope} (hs : f.get? j = some s) (hp : s.parent = some p)
      (h : Holds f i p) : Holds f i j

namespace Holds

theorem le (hf : f.IsHeld) (h : f.Holds i j) : i ≤ j := by
  induction h with
  | self => exact Nat.le_refl _
  | step hs hp _ ih => exact Nat.le_trans ih (Nat.le_of_lt (hf.parent_lt _ _ _ hs hp))

/-- What holds a scope is a scope around it. -/
theorem exists_outer (hf : f.IsHeld) (h : f.Holds i j) (hs : f.get? j = some s) :
    ∃ outer, f.get? i = some outer ∧ s.Inside outer := by
  induction h generalizing s with
  | self => exact ⟨s, hs, Nat.le_refl _, Nat.le_refl _⟩
  | step hs' hp _ ih =>
    obtain rfl := Option.some.inj (hs.symm.trans hs')
    obtain ⟨-, q, hq, hin⟩ := hf.outer hs hp
    obtain ⟨outer, houter, hin'⟩ := ih hq
    exact ⟨outer, houter, hin.trans hin'⟩

/-- The last step from a scope to another one that holds it. -/
theorem exists_child (h : f.Holds i j) (hne : i ≠ j) :
    ∃ k s, f.Holds k j ∧ f.get? k = some s ∧ s.parent = some i := by
  induction h with
  | self => exact absurd rfl hne
  | @step j p s hs hp h ih =>
    by_cases heq : i = p
    · exact ⟨j, s, .self, hs, heq ▸ hp⟩
    · obtain ⟨k, s', hk, hs', hp'⟩ := ih heq
      exact ⟨k, s', .step hs hp hk, hs', hp'⟩

/-- Of two scopes `i` and `j` that hold `k`, the earlier holds the later. -/
theorem of_le (hf : f.IsHeld) (hi : f.Holds i k) (hj : f.Holds j k) (hle : i ≤ j) :
    f.Holds i j := by
  induction hj with
  | self => exact hi
  | step hs hp hj ih =>
    cases hi with
    | self =>
      have := hf.parent_lt _ _ _ hs hp
      have := hj.le hf
      omega
    | step hs' hp' hi =>
      obtain rfl := Option.some.inj (hs.symm.trans hs')
      obtain rfl := Option.some.inj (hp.symm.trans hp')
      exact ih hi

end Holds

/-- Every scope is held by one that lies in no other. -/
theorem exists_root (hf : f.IsHeld) (hs : f.get? i = some s) :
    ∃ k r, f.Holds k i ∧ f.get? k = some r ∧ r.parent = none := by
  induction i using Nat.strongRecOn generalizing s with
  | ind i ih =>
    cases hp : s.parent with
    | none => exact ⟨i, s, .self, hs, hp⟩
    | some p =>
      obtain ⟨hlt, q, hq, -⟩ := hf.outer hs hp
      obtain ⟨k, r, hk, hr, hnone⟩ := ih p hlt hq
      exact ⟨k, r, .step hs hp hk, hr, hnone⟩

@[simp] theorem ancestors_none (f : ScopeForest) (fuel : Nat) : f.ancestors fuel none = [] := by
  cases fuel <;> rfl

@[simp] theorem ancestors_succ (hs : f.get? i = some s) :
    f.ancestors (fuel + 1) (some i) = i :: f.ancestors fuel s.parent := by
  rw [ancestors, hs]

/-- The scopes around a scope are listed as long as there is fuel for those in front of it. -/
theorem mem_ancestors (hf : f.IsHeld) (hs : f.get? i = some s) (hfuel : i < fuel) :
    j ∈ f.ancestors fuel (some i) ↔ f.Holds j i := by
  induction fuel generalizing i s with
  | zero => omega
  | succ fuel ih =>
    rw [ancestors_succ hs, List.mem_cons]
    constructor
    · rintro (rfl | hj)
      · exact .self
      · cases hp : s.parent with
        | none => simp [hp] at hj
        | some p =>
          obtain ⟨hlt, q, hq, -⟩ := hf.outer hs hp
          rw [hp] at hj
          exact .step hs hp ((ih hq (by omega)).mp hj)
    · intro h
      cases h with
      | self => exact .inl rfl
      | step hs' hp h =>
        obtain rfl := Option.some.inj (hs.symm.trans hs')
        obtain ⟨hlt, q, hq, -⟩ := hf.outer hs hp
        rw [hp]
        exact .inr ((ih hq (by omega)).mpr h)

theorem pairwise_ancestors (hf : f.IsHeld) (hs : f.get? i = some s) (hfuel : i < fuel) :
    (f.ancestors fuel (some i)).Pairwise fun a b => b < a ∧ f.Holds b a := by
  induction fuel generalizing i s with
  | zero => omega
  | succ fuel ih =>
    rw [ancestors_succ hs]
    cases hp : s.parent with
    | none => simp
    | some p =>
      obtain ⟨hlt, q, hq, -⟩ := hf.outer hs hp
      refine List.pairwise_cons.mpr ⟨fun b hb => ?_, ih hq (by omega)⟩
      have hholds := (mem_ancestors hf hq (by omega)).mp hb
      have := hholds.le hf
      exact ⟨by omega, .step hs hp hholds⟩

/-! ## The innermost scope -/

/-- The scopes of `f` that cover the `offset`, with their positions. -/
def around (f : ScopeForest) (offset : Nat) : List (Scope × Nat) :=
  f.scopes.zipIdx.filter (·.1.covers offset)

@[simp] theorem mem_around {x : Scope × Nat} :
    x ∈ f.around offset ↔ f.get? x.2 = some x.1 ∧ x.1.covers offset = true := by
  rw [around, List.mem_filter, List.mem_zipIdx_iff_getElem?, get?, scopes, Array.getElem?_toList]

theorem mem_around_of_mem_filter (hf : f.Consistent) (hs : s ∈ f.scopes.filter (·.covers offset)) :
    (s, s.id) ∈ f.around offset := by
  obtain ⟨hmem, hcovers⟩ := List.mem_filter.mp hs
  obtain ⟨i, hi⟩ := List.mem_iff_getElem?.mp hmem
  have hget : f.get? i = some s := by rwa [get?, ← Array.getElem?_toList]
  exact mem_around.mpr ⟨hf.id_eq i s hget ▸ hget, hcovers⟩

theorem pairwise_id (hf : f.Consistent) : f.scopes.Pairwise fun a b => a.id < b.id := by
  refine List.pairwise_iff_getElem.mpr fun i j hi hj hij => ?_
  have hid (k : Nat) (hk : k < f.scopes.length) : f.scopes[k].id = k := by
    refine hf.id_eq k _ ?_
    rw [get?, ← Array.getElem?_toList]
    exact List.getElem?_eq_getElem hk
  rwa [hid i hi, hid j hj]

/-- The innermost scope covers the offset, none that covers it is shorter, and none that is as short
comes first. -/
theorem at?_eq_some (hf : f.Consistent) (h : f.at? offset = some i) :
    ∃ s, (s, i) ∈ f.around offset ∧
      ∀ y ∈ f.around offset, s.length ≤ y.1.length ∧ (y.1.length = s.length → i ≤ y.2) := by
  obtain ⟨s, hshort, rfl⟩ := Option.map_eq_some_iff.mp h
  refine ⟨s, mem_around_of_mem_filter hf (List.minOn?_mem hshort), fun y hy => ?_⟩
  obtain ⟨hget, hcovers⟩ := mem_around.mp hy
  have hmem : y.1 ∈ f.scopes.filter (·.covers offset) :=
    List.mem_filter.mpr ⟨Array.mem_toList_iff.mpr (Array.mem_of_getElem? hget), hcovers⟩
  have hle := le_of_minOn? hshort hmem
  refine ⟨hle, fun hsame => ?_⟩
  rw [← hf.id_eq y.2 y.1 hget]
  rcases eq_or_rel_of_minOn? ((pairwise_id hf).filter _) hshort hmem (Nat.le_of_eq hsame) with
    heq | hlt
  · exact Nat.le_of_eq (congrArg Scope.id heq.symm)
  · exact Nat.le_of_lt hlt

@[simp] theorem at?_eq_none : f.at? offset = none ↔ f.around offset = [] := by
  rw [at?, Option.map_eq_none_iff, minOn?_eq_none_iff, around, List.filter_eq_nil_iff,
    List.filter_eq_nil_iff]
  constructor
  · intro h x hx
    exact h x.1 (List.mem_of_getElem? (List.mem_zipIdx_iff_getElem?.mp hx))
  · intro h s hs
    obtain ⟨i, hi⟩ := List.mem_iff_getElem?.mp hs
    exact h (s, i) (List.mem_zipIdx_iff_getElem?.mpr hi)

/-! ## The chain of an offset -/

@[grind →] theorem lt_size (hs : f.get? i = some s) : i < f.nodes.size :=
  (Array.getElem?_eq_some_iff.mp hs).1

/-- The chain of an offset are the scopes that hold the innermost one. -/
@[simp] theorem mem_chain (hf : f.IsHeld) :
    j ∈ f.chain offset ↔ ∃ i, f.at? offset = some i ∧ f.Holds j i := by
  rw [chain]
  cases hi : f.at? offset with
  | none => simp
  | some i =>
    obtain ⟨s, hs, -⟩ := at?_eq_some hf.toConsistent hi
    have hget := (mem_around.mp hs).1
    simp [mem_ancestors hf hget (lt_size hget)]

/-- Each scope of a chain is held by all that follow it. -/
theorem pairwise_chain (hf : f.IsHeld) :
    (f.chain offset).Pairwise fun a b => b < a ∧ f.Holds b a := by
  rw [chain]
  cases hi : f.at? offset with
  | none => simp
  | some i =>
    obtain ⟨s, hs, -⟩ := at?_eq_some hf.toConsistent hi
    have hget := (mem_around.mp hs).1
    exact pairwise_ancestors hf hget (lt_size hget)

/-- What holds a scope that covers an offset covers it, too. -/
theorem Holds.mem_around (hf : f.IsHeld) (h : f.Holds i j) (hj : (s, j) ∈ f.around offset) :
    ∃ outer, (outer, i) ∈ f.around offset ∧ s.Inside outer := by
  obtain ⟨hs, hcovers⟩ := ScopeForest.mem_around.mp hj
  obtain ⟨outer, houter, hin⟩ := h.exists_outer hf hs
  exact ⟨outer, ScopeForest.mem_around.mpr ⟨houter, hin.covers hcovers⟩, hin⟩

/-- Two scopes of `f` in the same scope both cover the `offset`. -/
def ForksAt (f : ScopeForest) (offset : Nat) : Prop :=
  ∃ x ∈ f.around offset, ∃ y ∈ f.around offset, x.2 < y.2 ∧ x.1.parent = y.1.parent

/-- A shortest scope of `f` that covers the `offset` is as long as its parent, so that the parent is
found first. -/
def HidesAt (f : ScopeForest) (offset : Nat) : Prop :=
  ∃ x ∈ f.around offset, ∃ y ∈ f.around offset, y.1.parent = some x.2 ∧ x.1.length = y.1.length ∧
    ∀ z ∈ f.around offset, y.1.length ≤ z.1.length

instance (f : ScopeForest) (offset : Nat) : Decidable (f.ForksAt offset) :=
  inferInstanceAs (Decidable (∃ x ∈ f.around offset, ∃ y ∈ f.around offset, _))

instance (f : ScopeForest) (offset : Nat) : Decidable (f.HidesAt offset) :=
  inferInstanceAs (Decidable (∃ x ∈ f.around offset, ∃ y ∈ f.around offset, _))

/-- Without a fork, of two scopes `x` and `y` that cover the `offset` the earlier one holds the
later. -/
theorem holds_of_not_forksAt (hf : f.IsHeld) (hno : ¬ f.ForksAt offset) {x y : Scope × Nat}
    (hx : x ∈ f.around offset) (hy : y ∈ f.around offset) (hle : x.2 ≤ y.2) :
    f.Holds x.2 y.2 := by
  -- the induction is on the later scope, as a fork below the parent of `y` shows at `x`
  induction hn : y.2 using Nat.strongRecOn generalizing x y with
  | ind n ih =>
    subst hn
    rcases Nat.eq_or_lt_of_le hle with heq | hlt
    · exact heq ▸ .self
    have hys := (mem_around.mp hy).1
    have hapart {k : Nat} {s : Scope} (hk : f.Holds k x.2) (hs : f.get? k = some s) :
        s.parent ≠ y.1.parent := by
      intro hparent
      obtain ⟨outer, houter, -⟩ := hk.mem_around hf hx
      obtain rfl := Option.some.inj (hs.symm.trans (mem_around.mp houter).1)
      have := hk.le hf
      exact hno ⟨_, houter, y, hy, by omega, hparent⟩
    cases hp : y.1.parent with
    | none =>
      obtain ⟨k, r, hk, hr, hnone⟩ := exists_root hf (mem_around.mp hx).1
      exact absurd (hnone.trans hp.symm) (hapart hk hr)
    | some p =>
      have hstep : f.Holds p y.2 := .step hys hp .self
      obtain ⟨outer, houter, -⟩ := hstep.mem_around hf hy
      have hlt' := hf.parent_lt _ _ _ hys hp
      rcases Nat.lt_or_ge p x.2 with hpx | hxp
      · have hholds : f.Holds p x.2 := ih x.2 hlt houter hx (Nat.le_of_lt hpx) rfl
        obtain ⟨k, s, hk, hs, hparent⟩ := hholds.exists_child (by omega)
        exact absurd (hparent.trans hp.symm) (hapart hk hs)
      · exact .step hys hp (ih p hlt' hx houter hxp rfl)

/-- A chain holds scopes that cover the offset only. -/
theorem exists_around_of_mem_chain (hf : f.IsHeld) (hj : j ∈ f.chain offset) :
    ∃ s, (s, j) ∈ f.around offset := by
  obtain ⟨i, hi, hholds⟩ := (mem_chain hf).mp hj
  obtain ⟨s, hs, -⟩ := at?_eq_some hf.toConsistent hi
  obtain ⟨outer, houter, -⟩ := hholds.mem_around hf hs
  exact ⟨outer, houter⟩

/-- A scope is missed if its sibling is found. -/
theorem not_forksAt_of_complete (hf : f.IsHeld)
    (hall : ∀ x ∈ f.around offset, x.2 ∈ f.chain offset) : ¬ f.ForksAt offset := by
  rintro ⟨⟨a, j⟩, ha, ⟨b, k⟩, hb, hlt, hparent⟩
  obtain ⟨i, hi, hj⟩ := (mem_chain hf).mp (hall _ ha)
  obtain ⟨i', hi', hk⟩ := (mem_chain hf).mp (hall _ hb)
  obtain rfl := Option.some.inj (hi.symm.trans hi')
  -- the earlier sibling would hold the later one, and so its own parent
  cases hj.of_le hf hk (Nat.le_of_lt hlt) with
  | self => exact Nat.lt_irrefl _ hlt
  | step hs hp hholds =>
    obtain rfl := Option.some.inj (hs.symm.trans (mem_around.mp hb).1)
    have := hf.parent_lt _ _ _ (mem_around.mp ha).1 (hparent.trans hp)
    have := hholds.le hf
    omega

/-- A shortest scope is missed if it is as long as its parent. -/
theorem not_hidesAt_of_complete (hf : f.IsHeld)
    (hall : ∀ x ∈ f.around offset, x.2 ∈ f.chain offset) : ¬ f.HidesAt offset := by
  rintro ⟨x, hx, y, hy, hp, hlength, hshortest⟩
  obtain ⟨i, hi, hyi⟩ := (mem_chain hf).mp (hall y hy)
  obtain ⟨s, hs, hfirst⟩ := at?_eq_some hf.toConsistent hi
  have hsame : x.1.length = s.length :=
    Nat.le_antisymm (hlength ▸ hshortest _ hs) (hfirst x hx).1
  have := (hfirst x hx).2 hsame
  have := hf.parent_lt _ _ _ (mem_around.mp hy).1 hp
  have := hyi.le hf
  omega

/-- Elsewhere none is missed. -/
theorem complete_of_not_forksAt (hf : f.IsHeld) (hfork : ¬ f.ForksAt offset)
    (hhide : ¬ f.HidesAt offset) : ∀ x ∈ f.around offset, x.2 ∈ f.chain offset := by
  intro x hx
  cases hi : f.at? offset with
  | none => simp [at?_eq_none.mp hi] at hx
  | some i =>
    refine (mem_chain hf).mpr ⟨i, hi, ?_⟩
    obtain ⟨s, hs, hfirst⟩ := at?_eq_some hf.toConsistent hi
    rcases Nat.lt_or_ge i x.2 with hlt | hle
    · -- the scope below the innermost one on the way to `x` would be hidden
      exfalso
      have hholds := holds_of_not_forksAt hf hfork hs hx (Nat.le_of_lt hlt)
      obtain ⟨k, t, hk, ht, hparent⟩ := hholds.exists_child (Nat.ne_of_lt hlt)
      obtain ⟨t', ht', -⟩ := hk.mem_around hf hx
      obtain rfl := Option.some.inj (ht.symm.trans (mem_around.mp ht').1)
      obtain ⟨-, outer, houter, hin⟩ := hf.outer ht hparent
      obtain rfl := Option.some.inj (houter.symm.trans (mem_around.mp hs).1)
      have hsame := Nat.le_antisymm (hfirst _ ht').1 hin.length_le
      refine hhide ⟨_, hs, _, ht', hparent, hsame, fun z hz => ?_⟩
      exact hsame ▸ (hfirst z hz).1
    · exact holds_of_not_forksAt hf hfork hx hs hle

/-- The chain of an `offset` lists scopes that cover it, each once and inside the next: those that
hold the innermost one. It lists all of them unless two scopes in the same scope cover the offset,
or the innermost one is as long as the scope around it. Two scopes in the same scope both cover the
offset only where one ends and the other starts. -/
theorem chain_complete_iff (grammar : Grammar) (text path : String) (offset : Nat)
    (h : (grammar text).Layered)
    (helse : ∀ n ∈ (grammar text).preorder, n.kind = "if_statement" → n.ElseFirst) :
    let f := ofText grammar text path
    (∀ j, j ∈ f.chain offset ↔ ∃ i, f.at? offset = some i ∧ f.Holds j i) ∧
    (∀ j ∈ f.chain offset, ∃ s, (s, j) ∈ f.around offset) ∧
    (f.chain offset).Nodup ∧
    ((f.chain offset).Pairwise fun i j =>
      ∃ s t, f.get? i = some s ∧ f.get? j = some t ∧ s.Inside t) ∧
    (f.chain offset = [] ↔ f.around offset = []) ∧
    ((∀ x ∈ f.around offset, x.2 ∈ f.chain offset) ↔
      ¬ f.ForksAt offset ∧ ¬ f.HidesAt offset) ∧
    ((∀ n ∈ (grammar text).preorder, n.kind = "if_statement" → n.EndsInElse) →
      ∀ x ∈ f.around offset, ∀ y ∈ f.around offset, x.2 < y.2 → x.1.parent = y.1.parent →
        x.1.stop = offset ∧ y.1.start = offset) := by
  intro f
  have hf : f.IsHeld := isHeld_ofText grammar text path h helse
  refine ⟨fun j => mem_chain hf, fun j => exists_around_of_mem_chain hf, ?_, ?_, ?_, ?_, ?_⟩
  · exact (pairwise_chain hf).imp fun hlt => Nat.ne_of_gt hlt.1
  · refine (pairwise_chain hf).imp_of_mem fun {i j} hi _ hholds => ?_
    obtain ⟨s, hs⟩ := exists_around_of_mem_chain hf hi
    have hget := (mem_around.mp hs).1
    obtain ⟨outer, houter, hin⟩ := hholds.2.exists_outer hf hget
    exact ⟨s, outer, hget, houter, hin⟩
  · rw [← at?_eq_none, chain]
    cases hi : f.at? offset with
    | none => simp
    | some i =>
      have hmem := (mem_chain hf).mpr ⟨i, hi, .self⟩
      rw [chain, hi] at hmem
      simpa using List.ne_nil_of_mem hmem
  · exact ⟨fun hall => ⟨not_forksAt_of_complete hf hall, not_hidesAt_of_complete hf hall⟩,
      fun hno => complete_of_not_forksAt hf hno.1 hno.2⟩
  · intro hends x hx y hy hlt hparent
    obtain ⟨hxs, hxcovers⟩ := mem_around.mp hx
    obtain ⟨hys, hycovers⟩ := mem_around.mp hy
    have hapart := (isForest_ofText grammar text path h hends).disjoint _ _ _ _ hlt hxs hys hparent
    simp only [Opening.covers, Bool.and_eq_true, decide_eq_true_eq] at hxcovers hycovers
    omega

/-- The tree of `class A {}class B {}`. -/
def adjacentClasses : Tree :=
  .node { kind := "compilation_unit", length := 20 } [.ofClass 0 10 [], .ofClass 10 10 []]

/-- Inside a class its chain is complete, and where two classes meet one of them is missed. -/
theorem chain_complete_adjacentClasses :
    let f := ofText (fun _ => adjacentClasses) "class A \x7b\x7dclass B \x7b\x7d" "a.cs"
    adjacentClasses.Layered ∧
    (∀ n ∈ adjacentClasses.preorder, n.kind = "if_statement" → n.ElseFirst) ∧
    f.chain 12 = [1] ∧ (∀ x ∈ f.around 12, x.2 ∈ f.chain 12) ∧
    f.ForksAt 10 ∧ ¬ ∀ x ∈ f.around 10, x.2 ∈ f.chain 10 := by
  intro f
  have hlayered : adjacentClasses.Layered := by decide +kernel
  have helse : ∀ n ∈ adjacentClasses.preorder, n.kind = "if_statement" → n.ElseFirst := by
    decide +kernel
  have hcomplete (offset : Nat) :=
    (chain_complete_iff (fun _ => adjacentClasses) "class A \x7b\x7dclass B \x7b\x7d" "a.cs" offset
      hlayered helse).2.2.2.2.2.1
  have hforks : f.ForksAt 10 := by decide +kernel
  refine ⟨hlayered, helse, by decide +kernel, (hcomplete 12).mpr (by decide +kernel), hforks, ?_⟩
  exact fun hall => ((hcomplete 10).mp hall).1 hforks

/-- Both classes cover the offset at which they meet, and the chain holds the first only. -/
theorem chain_misses_adjacentClass :
    let f := ofText (fun _ => adjacentClasses) "class A \x7b\x7dclass B \x7b\x7d" "a.cs"
    (f.around 10).map (fun x => (x.1.name, x.2)) = [("A", 0), ("B", 1)] ∧ f.chain 10 = [0] := by
  decide +kernel

end ScopeForest

end CodeAtlas
