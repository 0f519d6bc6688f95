import CodeAtlas.Proofs.Text.Line

/-!
# Rows of a text

The row of an offset is the number of line feeds in front of it. A text has a line for every row
in which it has a character, so the offsets of what a text contains are on its lines. A carriage
return in front of a line feed and a missing line feed at the end of the text do not matter for
this.

## Main statements

* `rowAt_append`: the row of an offset is a number of line feeds.
* `rowAt_le_rowAt`: later offsets have later rows.
* `rowAt_lt_length_lines`: an offset inside the text is on one of its lines.
* `rowAt_pred_of_endsVisibly`: where something ends visibly, its last byte is in the row of its end.
-/
namespace CodeAtlas.Text

variable {s t : String} {a b : Nat}

/-! ## Line feeds -/

theorem rowChars_cons {n : Nat} (hn : 0 < n) (c : Char) (cs : List Char) :
    rowChars n (c :: cs) = (if c = '\n' then 1 else 0) + rowChars (n - c.utf8Size) cs := by
  obtain ⟨n, rfl⟩ := Nat.exists_eq_succ_of_ne_zero (Nat.ne_of_gt hn)
  rfl

theorem rowChars_append (l r : List Char) (k : Nat) :
    rowChars ((String.ofList l).utf8ByteSize + k) (l ++ r) = l.count '\n' + rowChars k r := by
  induction l with
  | nil => simp
  | cons c l ih =>
    have hsize : (String.ofList (c :: l)).utf8ByteSize =
        c.utf8Size + (String.ofList l).utf8ByteSize := by
      rw [String.ofList_cons, String.utf8ByteSize_append, String.utf8ByteSize_singleton]
    have hpos := c.utf8Size_pos
    rw [hsize, List.cons_append, rowChars_cons (by omega), Nat.add_assoc, Nat.add_sub_cancel_left,
      ih, List.count_cons]
    by_cases hc : c = '\n'
    · simp only [hc, if_true, BEq.rfl]
      omega
    · simp [hc]

/-- The row of an offset is the number of line feeds in front of it. -/
theorem rowAt_append (l r : String) (k : Nat) :
    rowAt (l ++ r) (l.utf8ByteSize + k) = l.toList.count '\n' + rowChars k r.toList := by
  have := rowChars_append l.toList r.toList k
  rwa [String.ofList_toList, ← String.toList_append] at this

theorem rowChars_le_rowChars (h : a ≤ b) (cs : List Char) : rowChars a cs ≤ rowChars b cs := by
  induction cs generalizing a b with
  | nil => simp [rowChars]
  | cons c cs ih =>
    cases a with
    | zero => simp [rowChars]
    | succ a =>
      rw [rowChars_cons (Nat.succ_pos a), rowChars_cons (by omega)]
      exact Nat.add_le_add_left (ih (by omega)) _

theorem rowAt_le_rowAt (s : String) (h : a ≤ b) : rowAt s a ≤ rowAt s b :=
  rowChars_le_rowChars h s.toList

/-- The bytes of a character other than a line feed are in the row in which it begins. -/
theorem rowChars_of_le {c : Char} {k : Nat} (hc : c ≠ '\n') (hk : k ≤ c.utf8Size)
    (cs : List Char) : rowChars k (c :: cs) = 0 := by
  cases k with
  | zero => rfl
  | succ k =>
    have hzero : k + 1 - c.utf8Size = 0 := by omega
    rw [rowChars_cons (Nat.succ_pos k), if_neg hc, hzero]
    cases cs <;> rfl

/-! ## Lines -/

theorem length_lines (s : String) : (lines s).length = (segmentChars s.toList).length := by
  simp [lines]

theorem segmentChars_ne_nil {cs : List Char} (h : cs ≠ []) : segmentChars cs ≠ [] := by
  intro hnil
  have hflatten := flatten_segmentChars cs
  rw [hnil] at hflatten
  exact h hflatten.symm

/-- There is a line behind all line feeds that something follows. -/
theorem count_lt_length_segmentChars (l : List Char) {r : List Char} (hr : r ≠ []) :
    l.count '\n' < (segmentChars (l ++ r)).length := by
  induction l with
  | nil => simpa using List.length_pos_iff.mpr (segmentChars_ne_nil hr)
  | cons c l ih =>
    rw [List.cons_append, segmentChars]
    by_cases hc : c = '\n'
    · simpa [hc] using ih
    · rw [if_neg hc, List.count_cons_of_ne hc]
      split
      · next hnil => exact absurd hnil (segmentChars_ne_nil (by simp [hr]))
      · next seg rest hseg => simpa [hseg] using ih

/-- An offset in front of a character is on one of the lines. -/
theorem rowAt_lt_length_lines (ha : IsBoundary s a) (h : a < s.utf8ByteSize) :
    rowAt s a < (lines s).length := by
  obtain ⟨l, r, rfl, rfl⟩ := ha
  have hr : r.toList ≠ [] := by
    intro hnil
    obtain rfl : r = "" := String.toList_eq_nil_iff.mp hnil
    simp at h
  have hrow := rowAt_append l r 0
  have hzero : rowChars 0 r.toList = 0 := by cases r.toList <;> rfl
  rw [hzero, Nat.add_zero, Nat.add_zero] at hrow
  rw [hrow, length_lines, String.toList_append]
  exact count_lt_length_segmentChars l.toList hr

/-! ## Clean ends -/

theorem EndsVisibly.exists_eq_append (h : EndsVisibly t) :
    ∃ l c, t = l ++ String.singleton c ∧ c ≠ '\n' := by
  obtain ⟨c, hlast, hc⟩ := h
  obtain ⟨init, hinit⟩ := List.getLast?_eq_some_iff.mp hlast
  refine ⟨String.ofList init, c, by simp [← String.toList_inj, hinit], ?_⟩
  rintro rfl
  exact absurd hc (by decide)

/-- The last byte of what ends visibly, and its end, are on the same line. -/
theorem rowAt_pred_of_endsVisibly (hs : slice? s a b = some t) (ht : EndsVisibly t) :
    rowAt s (b - 1) = rowAt s b ∧ rowAt s b < (lines s).length := by
  obtain ⟨l, r, rfl, rfl, rfl⟩ := slice?_eq_some_iff.mp hs
  obtain ⟨x, c, rfl, hc⟩ := ht.exists_eq_append
  -- `l ++ x` is what stands in front of the last character.
  have hs : l ++ (x ++ String.singleton c) ++ r = (l ++ x) ++ (String.singleton c ++ r) := by
    simp only [String.append_assoc]
  have htail : (String.singleton c ++ r).toList = c :: r.toList := by simp
  have hrow {k : Nat} (hk : k ≤ c.utf8Size) :
      rowAt ((l ++ x) ++ (String.singleton c ++ r)) ((l ++ x).utf8ByteSize + k) =
        (l ++ x).toList.count '\n' := by
    rw [rowAt_append, htail, rowChars_of_le hc hk, Nat.add_zero]
  have hpos := c.utf8Size_pos
  have hend : l.utf8ByteSize + (x ++ String.singleton c).utf8ByteSize =
      (l ++ x).utf8ByteSize + c.utf8Size := by
    simp only [String.utf8ByteSize_append, String.utf8ByteSize_singleton]
    omega
  have hpred : l.utf8ByteSize + (x ++ String.singleton c).utf8ByteSize - 1 =
      (l ++ x).utf8ByteSize + (c.utf8Size - 1) := by
    omega
  rw [hs, hpred, hend, hrow (Nat.sub_le _ _), hrow (Nat.le_refl _)]
  refine ⟨rfl, ?_⟩
  rw [length_lines, String.toList_append (s := l ++ x), htail]
  exact count_lt_length_segmentChars _ (List.cons_ne_nil _ _)

end CodeAtlas.Text
