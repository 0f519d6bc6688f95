import CodeAtlas.Text.Slice

/-!
# Slices as parts of a concatenation

A byte range is readable exactly if the text is a front, the slice and a rest, and the ends of the
range are the sizes of what stands in front of them. The laws of byte ranges are stated and proved
through this reading, without positions.

## Main definitions

* `IsBoundary`: the offsets at which a text can be cut.

## Main statements

* `slice?_eq_some_iff`: what a slice is.
* `exists_slice?_eq`: between two boundaries there is a slice.
* `slice?_append_left`, `slice?_append_right`: slices of the two parts of a text.
* `slice?_sub`: slices of a slice.
* `endsWith_iff`: the texts that a text ends in.
-/
namespace CodeAtlas.Text

variable {s t u l r : String} {a b c d : Nat}

/-! ## Cutting a text -/

/-- The text `s` can be cut at `a`: a character begins there, or the text ends. -/
def IsBoundary (s : String) (a : Nat) : Prop :=
  ∃ l r, s = l ++ r ∧ l.utf8ByteSize = a

/-- Of two cuts of a text, the one behind the longer front `l'` has `l` as the beginning of its
front. -/
theorem append_eq_append_of_le {l l' r r' : String} (h : l ++ r = l' ++ r')
    (hsize : l.utf8ByteSize ≤ l'.utf8ByteSize) : ∃ m, l' = l ++ m ∧ r = m ++ r' := by
  have hchars : l.toList ++ r.toList = l'.toList ++ r'.toList := by
    rw [← String.toList_append, h, String.toList_append]
  obtain ⟨m, hl, hr⟩ | ⟨m, hl, hr⟩ := List.append_eq_append_iff.mp hchars
  · refine ⟨String.ofList m, ?_, ?_⟩ <;> simp [← String.toList_inj, hl, hr]
  · -- The front `l'` is the shorter one here, so both have the same size.
    have hfront : l = l' ++ String.ofList m := by simp [← String.toList_inj, hl]
    have hm : (String.ofList m).utf8ByteSize = 0 := by
      rw [hfront, String.utf8ByteSize_append] at hsize
      omega
    obtain rfl : l = l' := by
      rw [hfront, String.utf8ByteSize_eq_zero_iff.mp hm, String.append_empty]
    exact ⟨"", by simp, by simpa using (String.append_right_inj l).mp h⟩

theorem isBoundary_zero (s : String) : IsBoundary s 0 :=
  ⟨"", s, by simp, by simp⟩

theorem isBoundary_utf8ByteSize (s : String) : IsBoundary s s.utf8ByteSize :=
  ⟨s, "", by simp, rfl⟩

theorem IsBoundary.le (h : IsBoundary s a) : a ≤ s.utf8ByteSize := by
  obtain ⟨l, r, rfl, rfl⟩ := h
  simp

theorem IsBoundary.max (ha : IsBoundary s a) (hb : IsBoundary s b) : IsBoundary s (max a b) := by
  rcases Nat.le_total a b with hle | hle
  · rwa [Nat.max_eq_right hle]
  · rwa [Nat.max_eq_left hle]

/-! ## Slices -/

theorem offset_of_pos?_eq_some {p : s.Pos} (h : s.pos? ⟨a⟩ = some p) : p.offset = ⟨a⟩ := by
  simp only [String.pos?, String.Slice.pos?] at h
  split at h
  · cases h
    simp
  · simp at h

theorem IsBoundary.exists_pos? (h : IsBoundary s a) :
    ∃ p, s.pos? ⟨a⟩ = some p ∧ p.offset = ⟨a⟩ := by
  obtain ⟨l, r, rfl, rfl⟩ := h
  have hvalid : String.Pos.Raw.IsValid (l ++ r) ⟨l.utf8ByteSize⟩ :=
    String.Pos.Raw.isValid_iff_exists_append.mpr ⟨l, r, rfl, rfl⟩
  refine ⟨(l ++ r).pos _ hvalid, ?_, by simp⟩
  simp [String.pos?, String.Slice.pos?, String.pos, hvalid]

theorem extract_append_append {p q : (l ++ t ++ r).Pos} (hp : p.offset = ⟨l.utf8ByteSize⟩)
    (hq : q.offset = ⟨l.utf8ByteSize + t.utf8ByteSize⟩) : (l ++ t ++ r).extract p q = t := by
  have hl : l.toByteArray.extract l.utf8ByteSize (l.utf8ByteSize + t.utf8ByteSize) = .empty :=
    ByteArray.extract_eq_empty_iff.mpr (Nat.min_le_right _ _)
  have ht : t.toByteArray.extract 0 t.utf8ByteSize = t.toByteArray := ByteArray.extract_zero_size
  rw [← String.toByteArray_inj, String.toByteArray_extract, hp, hq]
  simp [ByteArray.extract_append, hl, ht]

/-- The two ends of a slice cut the text in order, and the slice stands between them. -/
theorem exists_append_of_slice? (h : slice? s a b = some t) :
    ∃ l r, s = l ++ t ++ r ∧ l.utf8ByteSize = a ∧ a + t.utf8ByteSize = b := by
  unfold slice? at h
  split at h
  next p q hp hq =>
    split at h
    next hle =>
      have hp' := offset_of_pos?_eq_some hp
      have hq' := offset_of_pos?_eq_some hq
      obtain ⟨l, r, hl, hoff⟩ := String.Pos.Raw.isValid_iff_exists_append.mp p.isValid
      obtain ⟨l', r', hl', hoff'⟩ := String.Pos.Raw.isValid_iff_exists_append.mp q.isValid
      have ha : l.utf8ByteSize = a := by simpa [hp'] using (congrArg (·.byteIdx) hoff).symm
      have hb : l'.utf8ByteSize = b := by simpa [hq'] using (congrArg (·.byteIdx) hoff').symm
      obtain ⟨m, rfl, rfl⟩ := append_eq_append_of_le (hl.symm.trans hl') (by omega)
      rw [String.utf8ByteSize_append] at hb
      subst ha hb
      obtain rfl : s = l ++ m ++ r' := hl'
      obtain rfl : m = t := by simpa [extract_append_append hp' hq'] using h
      exact ⟨l, r', rfl, rfl, rfl⟩
    next => simp at h
  next => simp at h

@[simp] theorem slice?_append_append (l t r : String) :
    slice? (l ++ t ++ r) l.utf8ByteSize (l.utf8ByteSize + t.utf8ByteSize) = some t := by
  have hl : IsBoundary (l ++ t ++ r) l.utf8ByteSize := ⟨l, t ++ r, String.append_assoc, rfl⟩
  have hlt : IsBoundary (l ++ t ++ r) (l.utf8ByteSize + t.utf8ByteSize) :=
    ⟨l ++ t, r, rfl, String.utf8ByteSize_append⟩
  obtain ⟨p, hp, hp'⟩ := hl.exists_pos?
  obtain ⟨q, hq, hq'⟩ := hlt.exists_pos?
  simp [slice?, hp, hq, extract_append_append hp' hq']

theorem slice?_eq_some_iff :
    slice? s a b = some t ↔
      ∃ l r, s = l ++ t ++ r ∧ l.utf8ByteSize = a ∧ a + t.utf8ByteSize = b := by
  constructor
  · exact exists_append_of_slice?
  · rintro ⟨l, r, rfl, rfl, rfl⟩
    exact slice?_append_append l t r

@[grind →] theorem slice_eq_of_slice? (h : slice? s a b = some t) : slice s a b = t := by
  simp [slice, h]

@[grind →] theorem size_of_slice? (h : slice? s a b = some t) : a + t.utf8ByteSize = b := by
  obtain ⟨l, r, -, -, hb⟩ := slice?_eq_some_iff.mp h
  exact hb

theorem isBoundary_left (h : slice? s a b = some t) : IsBoundary s a := by
  obtain ⟨l, r, hs, ha, -⟩ := slice?_eq_some_iff.mp h
  exact ⟨l, t ++ r, by rw [hs, String.append_assoc], ha⟩

theorem isBoundary_right (h : slice? s a b = some t) : IsBoundary s b := by
  obtain ⟨l, r, hs, ha, hb⟩ := slice?_eq_some_iff.mp h
  exact ⟨l ++ t, r, hs, by rw [String.utf8ByteSize_append, ha, hb]⟩

/-- Between two boundaries there is a slice. -/
theorem exists_slice?_eq (ha : IsBoundary s a) (hb : IsBoundary s b) (hle : a ≤ b) :
    ∃ t, slice? s a b = some t := by
  obtain ⟨l, r, hs, rfl⟩ := ha
  obtain ⟨l', r', hs', rfl⟩ := hb
  obtain ⟨m, rfl, rfl⟩ := append_eq_append_of_le (hs.symm.trans hs') hle
  exact ⟨m, slice?_eq_some_iff.mpr ⟨l, r', hs', rfl, String.utf8ByteSize_append.symm⟩⟩

theorem slice?_append_left (r : String) (h : slice? l a b = some t) :
    slice? (l ++ r) a b = some t := by
  obtain ⟨x, y, rfl, ha, hb⟩ := slice?_eq_some_iff.mp h
  exact slice?_eq_some_iff.mpr ⟨x, y ++ r, by simp [String.append_assoc], ha, hb⟩

theorem slice?_append_right (l : String) (h : slice? r a b = some t) :
    slice? (l ++ r) (l.utf8ByteSize + a) (l.utf8ByteSize + b) = some t := by
  obtain ⟨x, y, rfl, rfl, rfl⟩ := slice?_eq_some_iff.mp h
  refine slice?_eq_some_iff.mpr ⟨l ++ x, y, by simp [String.append_assoc], by simp, ?_⟩
  omega

theorem slice?_append_right_iff (l : String) :
    slice? (l ++ r) (l.utf8ByteSize + a) (l.utf8ByteSize + b) = some t ↔ slice? r a b = some t := by
  refine ⟨fun h => ?_, slice?_append_right l⟩
  obtain ⟨x, y, hxy, hx, hb⟩ := slice?_eq_some_iff.mp h
  rw [String.append_assoc] at hxy
  obtain ⟨m, rfl, hm⟩ := append_eq_append_of_le hxy (by omega)
  rw [String.utf8ByteSize_append] at hx
  exact slice?_eq_some_iff.mpr ⟨m, y, by rw [hm, String.append_assoc], by omega, by omega⟩

/-- The slice from where a part of a text starts is what the part begins with. -/
theorem slice?_append_iff :
    slice? (l ++ r) l.utf8ByteSize (l.utf8ByteSize + t.utf8ByteSize) = some t ↔
      ∃ rest, r = t ++ rest := by
  rw [← Nat.add_zero l.utf8ByteSize, Nat.add_assoc, slice?_append_right_iff, Nat.zero_add]
  constructor
  · intro h
    obtain ⟨x, y, rfl, hx, -⟩ := slice?_eq_some_iff.mp h
    rw [String.utf8ByteSize_eq_zero_iff.mp hx, String.empty_append]
    exact ⟨y, rfl⟩
  · rintro ⟨rest, rfl⟩
    exact slice?_eq_some_iff.mpr ⟨"", rest, by simp, by simp, by simp⟩

/-- Slices that meet are a slice together. -/
theorem slice?_trans (ht : slice? s a b = some t) (hu : slice? s b c = some u) :
    slice? s a c = some (t ++ u) := by
  obtain ⟨l, r, hs, rfl, rfl⟩ := slice?_eq_some_iff.mp ht
  rw [hs, ← String.utf8ByteSize_append] at hu
  have hsize := size_of_slice? hu
  rw [← hsize] at hu
  obtain ⟨rest, rfl⟩ := slice?_append_iff.mp hu
  rw [String.utf8ByteSize_append] at hsize
  refine slice?_eq_some_iff.mpr ⟨l, rest, by rw [hs]; simp only [String.append_assoc], rfl, ?_⟩
  rw [String.utf8ByteSize_append, ← hsize, Nat.add_assoc]

/-- A slice that lies in another one is a slice of it. -/
theorem slice?_sub (hu : slice? s c d = some u) (ht : slice? s a b = some t) (hca : c ≤ a)
    (hbd : b ≤ d) : slice? u (a - c) (b - c) = some t := by
  obtain ⟨l, r, hs, rfl, rfl⟩ := slice?_eq_some_iff.mp hu
  obtain ⟨l', r', hs', rfl, rfl⟩ := slice?_eq_some_iff.mp ht
  have hfront : l ++ (u ++ r) = l' ++ (t ++ r') := by
    rw [← String.append_assoc, ← String.append_assoc, ← hs, hs']
  obtain ⟨x, rfl, hx⟩ := append_eq_append_of_le hfront hca
  rw [← String.append_assoc] at hx
  rw [String.utf8ByteSize_append] at hbd ⊢
  obtain ⟨y, rfl, -⟩ := append_eq_append_of_le hx.symm
    (by rw [String.utf8ByteSize_append]; omega)
  exact slice?_eq_some_iff.mpr ⟨x, y, rfl, by omega, by omega⟩

theorem before_eq (h : s = l ++ r) : before s l.utf8ByteSize = l := by
  apply slice_eq_of_slice?
  exact slice?_eq_some_iff.mpr ⟨"", r, by simpa using h, by simp, by simp⟩

theorem after_eq (h : s = l ++ r) : after s l.utf8ByteSize = r := by
  apply slice_eq_of_slice?
  exact slice?_eq_some_iff.mpr ⟨l, "", by simp [h], rfl, by simp [h]⟩

theorem slice?_before (h : IsBoundary s a) : slice? s 0 a = some (before s a) := by
  obtain ⟨front, hfront⟩ := exists_slice?_eq (isBoundary_zero s) h (Nat.zero_le _)
  rw [before, slice_eq_of_slice? hfront, hfront]

theorem slice?_after (h : IsBoundary s a) : slice? s a s.utf8ByteSize = some (after s a) := by
  obtain ⟨back, hback⟩ := exists_slice?_eq h (isBoundary_utf8ByteSize s) h.le
  rw [after, slice_eq_of_slice? hback, hback]

/-- A text ends in another one if that is its last part. -/
theorem endsWith_iff : s.endsWith t = true ↔ ∃ front, s = front ++ t := by
  rw [← String.endsWith_toSlice, String.Slice.endsWith_string_iff, String.copy_toSlice]
  constructor
  · rintro ⟨front, h⟩
    exact ⟨String.ofList front, by simp [← String.toList_inj, h]⟩
  · rintro ⟨front, rfl⟩
    exact ⟨front.toList, by simp⟩

end CodeAtlas.Text
