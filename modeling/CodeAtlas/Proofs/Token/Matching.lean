import CodeAtlas.Proofs.Token.LengthTable
import Mathlib.Data.List.NodupEquivFin

/-!
# Matchings that keep the order

A matching of two lists pairs similar elements at increasing places. It is the same as a
subsequence of each list, similar element by element. Nothing is assumed of similarity.

## Main statements

* `matching_iff_sublist`: matchings as pairs of subsequences.
* `Matching.le_commonLength`: no matching has more pairs than the table of lengths says.
-/
namespace CodeAtlas

variable {α : Type} {similar : α → α → Bool} {source target : List α} {k : Nat}

/-- There are `k` pairs of similar elements, at increasing places of both lists. -/
def Matching (similar : α → α → Bool) (source target : List α) (k : Nat) : Prop :=
  ∃ (i : Fin k → Fin source.length) (j : Fin k → Fin target.length),
    StrictMono i ∧ StrictMono j ∧ ∀ r, similar (source.get (i r)) (target.get (j r)) = true

/-! ## Matchings as subsequences -/

theorem ofFn_get_sublist {l : List α} {i : Fin k → Fin l.length} (hi : StrictMono i) :
    (List.ofFn fun r => l.get (i r)).Sublist l := by
  rw [List.sublist_iff_exists_fin_orderEmbedding_get_eq]
  have hcast : StrictMono (Fin.cast (List.length_ofFn (f := fun r => l.get (i r)))) :=
    fun _ _ h => h
  exact ⟨OrderEmbedding.ofStrictMono _ (hi.comp hcast), fun r => List.get_ofFn _ r⟩

/-- Matchings are the subsequences of `source` and `target` that are `similar` element by
element. -/
theorem matching_iff_sublist :
    Matching similar source target k ↔
      ∃ a b : List α, a.Sublist source ∧ b.Sublist target ∧
        List.Forall₂ (fun s t => similar s t = true) a b ∧ a.length = k := by
  constructor
  · rintro ⟨i, j, hi, hj, hsim⟩
    refine ⟨_, _, ofFn_get_sublist hi, ofFn_get_sublist hj, ?_, List.length_ofFn⟩
    rw [List.forall₂_iff_get]
    exact ⟨by simp, fun r _ _ => by simpa using hsim ⟨r, by simp_all⟩⟩
  · rintro ⟨a, b, ha, hb, hab, rfl⟩
    obtain ⟨i, hi⟩ := List.sublist_iff_exists_fin_orderEmbedding_get_eq.mp ha
    obtain ⟨j, hj⟩ := List.sublist_iff_exists_fin_orderEmbedding_get_eq.mp hb
    obtain ⟨hlen, hsim⟩ := List.forall₂_iff_get.mp hab
    refine ⟨i, j ∘ Fin.cast hlen, i.strictMono, j.strictMono.comp fun _ _ h => h, fun r => ?_⟩
    have := hsim r.1 r.2 (hlen ▸ r.2)
    rw [Function.comp_apply, ← hi, ← hj]
    exact this

/-! ## The upper bound -/

/-- Subsequences that are similar element by element are no longer than the recursion says. -/
theorem length_le_commonLength {a b : List α} (ha : a.Sublist source) (hb : b.Sublist target)
    (hab : List.Forall₂ (fun s t => similar s t = true) a b) :
    a.length ≤ commonLength similar source target := by
  fun_induction commonLength similar source target generalizing a b with
  | case1 s source t target hst ih =>
    -- However the subsequences begin, their tails lie in the tails of the lists.
    cases hab with
    | nil => simp
    | cons _ hab => simpa using ih ha.tail hb.tail hab
  | case2 s source t target hst ihs iht =>
    cases ha with
    | cons _ ha => exact (ihs ha hb hab).trans (Nat.le_max_left ..)
    | cons_cons _ ha =>
      cases hb with
      | cons _ hb => exact (iht (ha.cons_cons s) hb hab).trans (Nat.le_max_right ..)
      | cons_cons _ hb =>
        -- Both subsequences begin with the heads, which are not similar.
        cases hab with
        | cons h _ => exact absurd h hst
  | case3 source target hnil =>
    cases source with
    | nil =>
      obtain rfl := List.sublist_nil.mp ha
      simp
    | cons s source =>
      cases target with
      | nil =>
        obtain rfl := List.sublist_nil.mp hb
        obtain rfl := List.forall₂_nil_right_iff.mp hab
        simp
      | cons t target => exact (hnil s source t target rfl rfl).elim

theorem Matching.le_commonLength (h : Matching similar source target k) :
    k ≤ commonLength similar source target := by
  obtain ⟨a, b, ha, hb, hab, rfl⟩ := matching_iff_sublist.mp h
  exact length_le_commonLength ha hb hab

end CodeAtlas
