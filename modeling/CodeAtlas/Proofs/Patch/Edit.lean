import CodeAtlas.Patch.Merge
import CodeAtlas.Proofs.Text.Slice

/-!
# Texts with some ranges replaced

A text is rewritten by edits if it is cut at their ranges, which follow each other, and every range
gives way to the text of its edit. What no edit touches stands in the result byte for byte, moved to
another place, and nothing changes its order.

Edits that keep apart can be made in any order: none of them is passed over.

## Main definitions

* `Rewritten`: a text with some ranges replaced.
* `place`: where an offset of the text stands in the result.
* `Untouched`: no edit touches a range.
* `Edit.Before`: edits that follow each other.

## Main statements

* `Rewritten.slice?_place`, `Rewritten.place_le`: what is untouched stays, in order.
* `Rewritten.slice?_place_edit`: the text of an edit follows what is kept in front of it.
* `Rewritten.exists_append`: the text of every edit stands in the result.
* `exists_rewritten_applyEdits`: edits that keep apart are all made.
-/
namespace CodeAtlas

open Text (IsBoundary slice?)

variable {text out : String} {edits : List Edit} {pos a b : Nat}

/-! ## Rewritten texts -/

/-- From the offset `pos` on, `out` is the text with the ranges of the edits replaced, which lie in
this order and do not overlap. -/
inductive Rewritten (text : String) : Nat → List Edit → String → Prop where
  | rest {pos : Nat} {tail : String} :
      slice? text pos text.utf8ByteSize = some tail → Rewritten text pos [] tail
  | edit {pos : Nat} {e : Edit} {kept : String} {edits : List Edit} {out : String} :
      slice? text pos e.start = some kept → e.start ≤ e.stop → Rewritten text e.stop edits out →
      Rewritten text pos (e :: edits) (kept ++ e.text ++ out)

/-- Where something that starts at an offset stands after the edits, counted from what becomes of
the offset `pos`. -/
def placeFrom (pos : Nat) : List Edit → Nat → Nat
  | [], a => a - pos
  | e :: edits, a =>
    if e.stop ≤ a then e.start - pos + e.text.utf8ByteSize + placeFrom e.stop edits a else a - pos

/-- Where something that starts at the offset `a` stands after the `edits`. -/
def place (edits : List Edit) (a : Nat) : Nat :=
  placeFrom 0 edits a

/-- No edit touches the bytes from `a` up to `b`. -/
def Untouched (edits : List Edit) (a b : Nat) : Prop :=
  ∀ e ∈ edits, e.stop ≤ a ∨ b ≤ e.start

@[simp] theorem untouched_cons {e : Edit} :
    Untouched (e :: edits) a b ↔ (e.stop ≤ a ∨ b ≤ e.start) ∧ Untouched edits a b :=
  List.forall_mem_cons

namespace Rewritten

theorem slice?_placeFrom {t : String} (h : Rewritten text pos edits out) (hpos : pos ≤ a)
    (hun : Untouched edits a b) (ht : slice? text a b = some t) :
    slice? out (placeFrom pos edits a) (placeFrom pos edits a + (b - a)) = some t := by
  have hab := Text.size_of_slice? ht
  induction h with
  | @rest pos tail htail =>
    have hb := (Text.isBoundary_right ht).le
    have := Text.slice?_sub htail ht hpos hb
    rwa [placeFrom, show a - pos + (b - a) = b - pos by omega]
  | @edit pos e kept edits out hkept hle _ ih =>
    obtain ⟨hun, hrest⟩ := untouched_cons.mp hun
    have hsize := Text.size_of_slice? hkept
    rw [placeFrom]
    split
    · next hstop =>
      have := Text.slice?_append_right (kept ++ e.text) (ih hstop hrest)
      rw [String.utf8ByteSize_append] at this
      rwa [show e.start - pos = kept.utf8ByteSize by omega,
        Nat.add_assoc _ (placeFrom e.stop edits a) (b - a)]
    · next hstop =>
      -- The range lies in front of the edit, in the part that is kept.
      have hb : b ≤ e.start := hun.resolve_left hstop
      have := Text.slice?_append_left (e.text ++ out) (Text.slice?_sub hkept ht hpos hb)
      rwa [← String.append_assoc, show b - pos = a - pos + (b - a) by omega] at this

theorem placeFrom_le {c : Nat} (h : Rewritten text pos edits out) (hpos : pos ≤ a)
    (hab : a ≤ b) (hbc : b ≤ c) (hun : Untouched edits a b) :
    placeFrom pos edits a + (b - a) ≤ placeFrom pos edits c := by
  induction h with
  | rest =>
    rw [placeFrom, placeFrom]
    omega
  | @edit pos e kept edits out hkept hle _ ih =>
    obtain ⟨hun, hrest⟩ := untouched_cons.mp hun
    have hsize := Text.size_of_slice? hkept
    rw [placeFrom, placeFrom]
    split
    · next hstop =>
      have := ih hstop hrest
      rw [if_pos (by omega)]
      omega
    · next hstop =>
      have hb : b ≤ e.start := hun.resolve_left hstop
      split <;> omega

/-- What no edit touches stands in the result byte for byte. -/
theorem slice?_place {t : String} (h : Rewritten text 0 edits out) (hun : Untouched edits a b)
    (ht : slice? text a b = some t) :
    slice? out (place edits a) (place edits a + (b - a)) = some t :=
  h.slice?_placeFrom (Nat.zero_le a) hun ht

/-- What no edit touches ends in the result before anything does that started after it. -/
theorem place_le {c : Nat} (h : Rewritten text 0 edits out) (hun : Untouched edits a b)
    (hab : a ≤ b) (hbc : b ≤ c) : place edits a + (b - a) ≤ place edits c :=
  h.placeFrom_le (Nat.zero_le a) hab hbc hun

theorem le_start {e : Edit} (h : Rewritten text pos edits out) (he : e ∈ edits) :
    pos ≤ e.start := by
  induction h with
  | rest => simp at he
  | edit hkept hle _ ih =>
    have hsize := Text.size_of_slice? hkept
    rcases List.mem_cons.mp he with rfl | he
    · omega
    · have := ih he
      omega

theorem slice?_placeFrom_edit {e : Edit} {t : String} (h : Rewritten text pos edits out)
    (he : e ∈ edits) (hpos : pos ≤ a) (ha : a < e.start) (hsized : e.start < e.stop)
    (hothers : ∀ f ∈ edits, f = e ∨ f.stop ≤ a ∨ e.stop ≤ f.start)
    (ht : slice? text a e.start = some t) :
    slice? out (placeFrom pos edits a) (placeFrom pos edits a + (t ++ e.text).utf8ByteSize) =
      some (t ++ e.text) := by
  induction h with
  | rest => simp at he
  | @edit pos f kept edits out hkept hle hrest ih =>
    obtain ⟨hf, hothers⟩ := List.forall_mem_cons.mp hothers
    have hsize := Text.size_of_slice? hkept
    by_cases heq : f = e
    · -- the edit comes next, behind the part that is kept
      subst heq
      obtain ⟨l, r, rfl, hl, hr⟩ :=
        Text.slice?_eq_some_iff.mp (Text.slice?_sub hkept ht hpos (Nat.le_refl _))
      have hr : r = "" := by
        rw [String.utf8ByteSize_append, String.utf8ByteSize_append] at hsize
        exact String.utf8ByteSize_eq_zero_iff.mp (by omega)
      rw [placeFrom, if_neg (by omega), hr]
      refine Text.slice?_eq_some_iff.mpr ⟨l, out, ?_, hl, rfl⟩
      simp [String.append_assoc]
    · have he : e ∈ edits := (List.mem_cons.mp he).resolve_left (Ne.symm heq)
      have hlast := hrest.le_start he
      have hstop : f.stop ≤ a := by
        rcases hf.resolve_left heq with hstop | hstop
        · exact hstop
        · omega
      have := Text.slice?_append_right (kept ++ f.text) (ih he hstop hothers)
      rw [String.utf8ByteSize_append] at this
      rwa [placeFrom, if_pos hstop, show f.start - pos = kept.utf8ByteSize by omega,
        Nat.add_assoc _ (placeFrom f.stop edits a)]

/-- The text of an edit stands right behind what is kept in front of it. -/
theorem slice?_place_edit {e : Edit} {t : String} (h : Rewritten text 0 edits out) (he : e ∈ edits)
    (ha : a < e.start) (hsized : e.start < e.stop)
    (hothers : ∀ f ∈ edits, f = e ∨ f.stop ≤ a ∨ e.stop ≤ f.start)
    (ht : slice? text a e.start = some t) :
    slice? out (place edits a) (place edits a + (t ++ e.text).utf8ByteSize) =
      some (t ++ e.text) :=
  h.slice?_placeFrom_edit he (Nat.zero_le a) ha hsized hothers ht

/-- The text of every edit stands in the result. -/
theorem exists_append {e : Edit} (h : Rewritten text pos edits out) (he : e ∈ edits) :
    ∃ l r, out = l ++ e.text ++ r := by
  induction h with
  | rest => simp at he
  | @edit pos f kept edits out _ _ _ ih =>
    rcases List.mem_cons.mp he with rfl | he
    · exact ⟨kept, out, rfl⟩
    · obtain ⟨l, r, rfl⟩ := ih he
      exact ⟨kept ++ f.text ++ l, r, by simp [String.append_assoc]⟩

end Rewritten

/-! ## Making edits -/

namespace Edit

/-- The range of the edit `e` can be cut out of `text`. -/
structure Readable (text : String) (e : Edit) : Prop where
  start : IsBoundary text e.start
  stop : IsBoundary text e.stop
  le : e.start ≤ e.stop

/-- The edit `e` ends where `f` starts, or before that, and starts earlier. -/
def Before (e f : Edit) : Prop :=
  e.stop ≤ f.start ∧ e.start < f.start

/-- The edits `e` and `f` keep apart. -/
def Apart (e f : Edit) : Prop :=
  e.Before f ∨ f.Before e

theorem Apart.symm {e f : Edit} (h : e.Apart f) : f.Apart e :=
  Or.symm h

theorem Apart.before {e f : Edit} (h : e.Apart f) (hle : e.start ≤ f.start) : e.Before f := by
  obtain h | ⟨-, hlt⟩ := h
  · exact h
  · omega

end Edit

/-- Edits that follow each other are all made. -/
theorem rewritten_editFrom (hpos : IsBoundary text pos) (hread : ∀ e ∈ edits, e.Readable text)
    (hfirst : ∀ e ∈ edits, pos ≤ e.start) (hbefore : edits.Pairwise Edit.Before) :
    Rewritten text pos edits (editFrom text pos edits) := by
  induction edits generalizing pos with
  | nil =>
    have hend := Text.isBoundary_utf8ByteSize text
    obtain ⟨tail, htail⟩ := Text.exists_slice?_eq hpos hend hpos.le
    rw [editFrom, Text.after, Text.slice_eq_of_slice? htail]
    exact .rest htail
  | cons e edits ih =>
    obtain ⟨he, hread⟩ := List.forall_mem_cons.mp hread
    obtain ⟨hle, hfirst⟩ := List.forall_mem_cons.mp hfirst
    obtain ⟨hnext, hbefore⟩ := List.pairwise_cons.mp hbefore
    obtain ⟨kept, hkept⟩ := Text.exists_slice?_eq hpos he.start hle
    rw [editFrom, if_neg (Nat.not_lt.mpr hle), Text.slice_eq_of_slice? hkept]
    exact .edit hkept he.le (ih he.stop hread (fun f hf => (hnext f hf).1) hbefore)

@[simp] theorem applyEdits_of_pairwise (h : edits.Pairwise fun a b => a.start ≤ b.start) :
    applyEdits text edits = editFrom text 0 edits := by
  rw [applyEdits, List.mergeSort_of_pairwise]
  exact h.imp fun hle => decide_eq_true hle

/-- Edits that keep apart are all made, in whatever order they come. -/
theorem exists_rewritten_applyEdits (hread : ∀ e ∈ edits, e.Readable text)
    (hapart : edits.Pairwise Edit.Apart) :
    ∃ sorted, sorted.Perm edits ∧ Rewritten text 0 sorted (applyEdits text edits) := by
  let sorted := edits.mergeSort fun a b => a.start ≤ b.start
  have hperm : sorted.Perm edits := List.mergeSort_perm edits _
  have hsorted : sorted.Pairwise fun a b => a.start ≤ b.start := by
    have htrans (a b c : Edit) : decide (a.start ≤ b.start) → decide (b.start ≤ c.start) →
        decide (a.start ≤ c.start) := by
      simp only [decide_eq_true_eq]
      exact Nat.le_trans
    have htotal (a b : Edit) : (decide (a.start ≤ b.start) || decide (b.start ≤ a.start)) := by
      simpa using Nat.le_total a.start b.start
    exact (List.pairwise_mergeSort htrans htotal edits).imp fun h => by simpa using h
  have hbefore : sorted.Pairwise Edit.Before := by
    have hapart := hapart.perm hperm.symm fun h => h.symm
    exact hapart.imp₂ (fun _ _ h hle => h.before hle) hsorted
  refine ⟨sorted, hperm, rewritten_editFrom (Text.isBoundary_zero text) ?_ ?_ hbefore⟩
  · exact fun e he => hread e (hperm.mem_iff.mp he)
  · exact fun e _ => Nat.zero_le _

end CodeAtlas
