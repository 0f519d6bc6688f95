/-!
# Nested ranges

A list of ranges of a text in which each range names the position of the range around it. Such a
list is grown from two steps: ranges that follow each other are appended, and a range is put in
front of those that lie in it. Both steps keep the list nested, whatever the positions at which it
will stand in a longer list.

## Main definitions

* `PlacedRange`: a range with the position of the range around it.
* `NestedFrom`: nested ranges, of which the first stands at a given position.

## Main statements

* `NestedFrom.append`, `NestedFrom.cons`: how nested lists are grown.
* `NestedFrom.pairwise_start_le`: nested ranges are listed by their start.
* `NestedFrom.stop_le_of_parent_eq`: ranges with the same parent are disjoint.
* `NestedFrom.eq_parent_or_longer`: the shortest range around another one is its parent.
* `minOn?_eq_some_of_lt`, `eq_or_rel_of_minOn?`: which of several elements is the shortest.
-/
namespace CodeAtlas

/-- A range together with the position of the range around it. -/
structure PlacedRange where
  start : Nat
  length : Nat
  parent : Option Nat
  /-- Other ranges may name this one as the range around them. -/
  isHolder : Bool

namespace PlacedRange

/-- The offset after the last byte of the range `r`. -/
def stop (r : PlacedRange) : Nat := r.start + r.length

theorem start_le_stop (r : PlacedRange) : r.start ≤ r.stop :=
  Nat.le_add_right _ _

/-- The range `r` lies inside `s`. -/
def Within (r s : PlacedRange) : Prop :=
  s.start ≤ r.start ∧ r.stop ≤ s.stop

theorem Within.refl (r : PlacedRange) : r.Within r :=
  ⟨Nat.le_refl _, Nat.le_refl _⟩

theorem Within.trans {r s t : PlacedRange} (h : r.Within s) (h' : s.Within t) : r.Within t :=
  ⟨Nat.le_trans h'.1 h.1, Nat.le_trans h.2 h'.2⟩

end PlacedRange

/-- The ranges lie between `lo` and `hi`, and their positions count from `next`. The parent of each
is `outer` or an earlier holder around it, and a range that starts before the end of an earlier one
has a parent, which lies in that earlier one. -/
structure NestedFrom (outer : Option Nat) (next lo hi : Nat) (rs : List PlacedRange) : Prop where
  bounded : ∀ r ∈ rs, lo ≤ r.start ∧ r.stop ≤ hi
  parents : ∀ k r, rs[k]? = some r → r.parent = outer ∨
    ∃ p q, p < k ∧ r.parent = some (next + p) ∧ rs[p]? = some q ∧ q.isHolder = true ∧ r.Within q
  laminar : ∀ j k a b, j < k → rs[j]? = some a → rs[k]? = some b → a.stop ≤ b.start ∨
    ∃ p q, j ≤ p ∧ p < k ∧ b.parent = some (next + p) ∧ rs[p]? = some q ∧ b.Within q ∧ q.Within a

namespace NestedFrom

variable {outer : Option Nat} {next lo mid hi lo' hi' : Nat} {rs ss : List PlacedRange}
  {r a b : PlacedRange} {j k : Nat}

/-! ## Growing a list -/

theorem nil : NestedFrom outer next lo hi [] := by
  constructor <;> simp

theorem mono (h : NestedFrom outer next lo hi rs) (hlo : lo' ≤ lo) (hhi : hi ≤ hi') :
    NestedFrom outer next lo' hi' rs where
  bounded r hr := ⟨Nat.le_trans hlo (h.bounded r hr).1, Nat.le_trans (h.bounded r hr).2 hhi⟩
  parents := h.parents
  laminar := h.laminar

/-- Ranges that follow nested ranges. -/
theorem append (h : NestedFrom outer next lo mid rs)
    (h' : NestedFrom outer (next + rs.length) mid hi ss) (hlo : lo ≤ mid) (hhi : mid ≤ hi) :
    NestedFrom outer next lo hi (rs ++ ss) where
  bounded r hr := by
    rcases List.mem_append.mp hr with hr | hr
    · exact ⟨(h.bounded r hr).1, Nat.le_trans (h.bounded r hr).2 hhi⟩
    · exact ⟨Nat.le_trans hlo (h'.bounded r hr).1, (h'.bounded r hr).2⟩
  parents k r hr := by
    rw [List.getElem?_append] at hr
    split at hr
    · next hk =>
      refine (h.parents k r hr).imp_right ?_
      rintro ⟨p, q, hp, hparent, hq, hin⟩
      exact ⟨p, q, hp, hparent, by grind, hin⟩
    · next hk =>
      refine (h'.parents _ r hr).imp_right ?_
      rintro ⟨p, q, hp, hparent, hq, hin⟩
      exact ⟨rs.length + p, q, by omega, by grind, by grind, hin⟩
  laminar j k a b hjk ha hb := by
    rw [List.getElem?_append] at ha hb
    split at hb
    · next hk =>
      rw [if_pos (by omega)] at ha
      refine (h.laminar j k a b hjk ha hb).imp_right ?_
      rintro ⟨p, q, hjp, hpk, hparent, hq, hin⟩
      exact ⟨p, q, hjp, hpk, hparent, by grind, hin⟩
    · next hk =>
      split at ha
      · -- the two ranges lie on different sides of `mid`
        exact .inl (Nat.le_trans (h.bounded a (List.mem_of_getElem? ha)).2
          (h'.bounded b (List.mem_of_getElem? hb)).1)
      · next hj =>
        refine (h'.laminar _ _ a b (by omega) ha hb).imp_right ?_
        rintro ⟨p, q, hjp, hpk, hparent, hq, hin⟩
        exact ⟨rs.length + p, q, by omega, by omega, by grind, by grind, hin⟩

/-- A range in front of those that lie in it. -/
theorem cons (h : NestedFrom (some next) (next + 1) r.start r.stop rs) (hparent : r.parent = outer)
    (hholder : r.isHolder = true) (hlo : lo ≤ r.start) (hhi : r.stop ≤ hi) :
    NestedFrom outer next lo hi (r :: rs) where
  bounded s hs := by
    rcases List.mem_cons.mp hs with rfl | hs
    · exact ⟨hlo, hhi⟩
    · exact ⟨Nat.le_trans hlo (h.bounded s hs).1, Nat.le_trans (h.bounded s hs).2 hhi⟩
  parents k s hs := by
    cases k with
    | zero => exact .inl (by grind)
    | succ k =>
      rw [List.getElem?_cons_succ] at hs
      rcases h.parents k s hs with hown | ⟨p, q, hp, hparent, hq, hin⟩
      · exact .inr ⟨0, r, by omega, hown, rfl, hholder, h.bounded s (List.mem_of_getElem? hs)⟩
      · exact .inr ⟨p + 1, q, by omega, by grind, hq, hin⟩
  laminar j k a b hjk ha hb := by
    obtain ⟨k, rfl⟩ : ∃ k', k = k' + 1 := ⟨k - 1, by omega⟩
    rw [List.getElem?_cons_succ] at hb
    have hbr : b.Within r := h.bounded b (List.mem_of_getElem? hb)
    cases j with
    | zero =>
      obtain rfl : r = a := by simpa using ha
      refine .inr ?_
      rcases h.parents k b hb with hown | ⟨p, q, hp, hparent, hq, -, hin⟩
      · exact ⟨0, r, by omega, by omega, hown, rfl, hbr, .refl r⟩
      · refine ⟨p + 1, q, by omega, by omega, by grind, hq, hin, ?_⟩
        exact h.bounded q (List.mem_of_getElem? hq)
    | succ j =>
      rw [List.getElem?_cons_succ] at ha
      refine (h.laminar j k a b (by omega) ha hb).imp_right ?_
      rintro ⟨p, q, hjp, hpk, hparent, hq, hin⟩
      exact ⟨p + 1, q, by omega, by omega, by grind, hq, hin⟩

theorem singleton (hparent : r.parent = outer) (hlo : lo ≤ r.start) (hhi : r.stop ≤ hi) :
    NestedFrom outer next lo hi [r] := by
  refine ⟨by simp [hlo, hhi], fun k s hs => .inl ?_, fun j k a b hjk ha hb => ?_⟩
  · grind
  · grind

/-! ## Nested lists -/

theorem start_le_of_lt (h : NestedFrom outer next lo hi rs) (hjk : j < k) (ha : rs[j]? = some a)
    (hb : rs[k]? = some b) : a.start ≤ b.start := by
  rcases h.laminar j k a b hjk ha hb with hle | ⟨p, q, -, -, -, -, hbq, hqa⟩
  · exact Nat.le_trans a.start_le_stop hle
  · exact (hbq.trans hqa).1

/-- Nested ranges are listed by their start. -/
theorem pairwise_start_le (h : NestedFrom outer next lo hi rs) :
    rs.Pairwise fun a b => a.start ≤ b.start := by
  rw [List.pairwise_iff_getElem]
  intro j k hj hk hjk
  exact h.start_le_of_lt hjk (List.getElem?_eq_getElem hj) (List.getElem?_eq_getElem hk)

/-- Ranges with the same parent are disjoint. -/
theorem stop_le_of_parent_eq (h : NestedFrom outer next lo hi rs)
    (houter : ∀ p, outer = some p → p < next) (hjk : j < k) (ha : rs[j]? = some a)
    (hb : rs[k]? = some b) (hparent : a.parent = b.parent) : a.stop ≤ b.start := by
  rcases h.laminar j k a b hjk ha hb with hle | ⟨p, q, hjp, -, hbp, -, -⟩
  · exact hle
  · -- the parent of `b` would stand behind `a`, and that of `a` stands in front of it
    rcases h.parents j a ha with hown | ⟨p', -, hp', hap, -⟩
    · have := houter (next + p) (by rw [← hown, hparent, hbp])
      omega
    · have : next + p' = next + p := by simpa [hap, hbp] using hparent
      omega

/-- Whatever lies around a range that is not empty is its parent or longer than its parent, if
ranges start at distinct offsets. -/
theorem eq_parent_or_longer (h : NestedFrom outer next lo hi rs)
    (hstarts : rs.Pairwise fun a b => a.start < b.start) (ha : rs[j]? = some a)
    (hb : rs[k]? = some b) (hne : j ≠ k) (hlength : 0 < b.length) (hin : b.Within a) :
    ∃ p q, b.parent = some (next + p) ∧ rs[p]? = some q ∧ (j = p ∨ q.length < a.length) := by
  have hlt {i i' : Nat} {r r' : PlacedRange} (hii : i < i') (hr : rs[i]? = some r)
      (hr' : rs[i']? = some r') : r.start < r'.start := by
    obtain ⟨hi, rfl⟩ := List.getElem?_eq_some_iff.mp hr
    obtain ⟨hi', rfl⟩ := List.getElem?_eq_some_iff.mp hr'
    exact List.pairwise_iff_getElem.mp hstarts i i' hi hi' hii
  unfold PlacedRange.Within PlacedRange.stop at hin
  rcases Nat.lt_or_gt_of_ne hne with hjk | hkj
  · rcases h.laminar j k a b hjk ha hb with hle | ⟨p, q, hjp, -, hparent, hq, -, hqa⟩
    · -- the ranges would be disjoint
      unfold PlacedRange.stop at hle
      omega
    · refine ⟨p, q, hparent, hq, ?_⟩
      rcases Nat.lt_or_eq_of_le hjp with hjp | rfl
      · have := hlt hjp ha hq
        unfold PlacedRange.Within PlacedRange.stop at hqa
        exact .inr (by omega)
      · exact .inl rfl
  · have := hlt hkj hb ha
    omega

end NestedFrom

/-! ## Shortest elements -/

section Shortest

variable {α : Type} {xs : List α} {length : α → Nat} {x y : α}

@[simp] theorem minOn?_eq_none_iff : xs.minOn? length = none ↔ xs = [] := by
  rw [← Option.not_isSome_iff_eq_none, List.isSome_minOn?_iff, Decidable.not_not]

theorem le_of_minOn? (hx : xs.minOn? length = some x) (hy : y ∈ xs) : length x ≤ length y := by
  rw [← List.minOn_eq_of_minOn?_eq_some hx]
  exact List.apply_minOn_le_of_mem hy

/-- An element that is shorter than all others is found. -/
theorem minOn?_eq_some_of_lt (hx : x ∈ xs) (h : ∀ y ∈ xs, y = x ∨ length x < length y) :
    xs.minOn? length = some x := by
  cases hshort : xs.minOn? length with
  | none => simp [minOn?_eq_none_iff.mp hshort] at hx
  | some y =>
    rcases h y (List.minOn?_mem hshort) with rfl | hlt
    · rfl
    · exact absurd (le_of_minOn? hshort hx) (Nat.not_le.mpr hlt)

/-- Of several elements that are as short as each other, the first one is found. -/
theorem eq_or_rel_of_minOn? {R : α → α → Prop} (hsorted : xs.Pairwise R)
    (hx : xs.minOn? length = some x) (hy : y ∈ xs) (hle : length y ≤ length x) :
    y = x ∨ R x y := by
  induction xs generalizing x with
  | nil => simp at hy
  | cons a xs ih =>
    obtain ⟨hfirst, hsorted⟩ := List.pairwise_cons.mp hsorted
    rw [List.minOn?_cons] at hx
    cases hrest : xs.minOn? length with
    | none =>
      rw [hrest] at hx
      obtain rfl : a = x := Option.some.inj hx
      obtain rfl := minOn?_eq_none_iff.mp hrest
      exact .inl (List.mem_singleton.mp hy)
    | some b =>
      rw [hrest] at hx
      have hx : minOn length a b = x := Option.some.inj hx
      rcases Nat.lt_or_ge (length b) (length a) with hlt | hge
      · obtain rfl : b = x := (minOn_eq_right_of_lt hlt).symm.trans hx
        rcases List.mem_cons.mp hy with rfl | hy
        · exact absurd hle (Nat.not_le.mpr hlt)
        · exact ih hsorted hrest hy hle
      · obtain rfl : a = x := (minOn_eq_left hge).symm.trans hx
        exact (List.mem_cons.mp hy).imp_right (hfirst y)

end Shortest

end CodeAtlas
