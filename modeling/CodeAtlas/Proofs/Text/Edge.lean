import CodeAtlas.Proofs.Text.Offset

/-!
# The edges of a line

The line of an offset starts after a line feed or with the text, and it stops in front of a line
feed or with the text. Where only white space stands between the offset and an edge of its line,
whatever is visible next to that edge is beyond a line feed.

A part of a text is a text of its own, in which the offsets are moved: an offset moves to the number
of bytes of the part that stand in front of it.

## Main definitions

* `lineStop`: the offset at which the line of an offset stops.
* `spaced`: there is only white space between two offsets, and no line ends.
* `placeOf`: where an offset moves in a part of a text.

## Main statements

* `lt_lineStart`, `lineStop_lt`: what is visible on its last or first line is beyond a line feed.
* `slice?_keep`: the slices of a part.
-/
namespace CodeAtlas.Text

variable {s t : String} {a b c : Nat} {p : Nat → Bool} {d : Char} {x : Nat × Char}

/-! ## Characters of a slice -/

theorem exists_mem_offsets (h : slice? s a b = some t) (hd : d ∈ t.toList) :
    ∃ o, (o, d) ∈ offsets s ∧ a ≤ o ∧ o < b := by
  rw [← keep_slice h] at hd
  obtain ⟨x, hx, rfl⟩ := List.mem_map.mp hd
  obtain ⟨hx, hbounds⟩ := List.mem_filter.mp hx
  exact ⟨x.1, hx, by simpa using hbounds⟩

theorem mem_offsets_append (l r : String) (d : Char) :
    (l.utf8ByteSize, d) ∈ offsets (l ++ String.singleton d ++ r) := by
  rw [offsets_append]
  simp [offsetsFrom]

/-- No character of what ends visibly comes after its last visible character. -/
theorem EndsVisibly.exists_mem_offsets (ht : EndsVisibly t) (h : slice? s a b = some t)
    (hx : x ∈ offsets s) (hb : x.1 < b) :
    ∃ y ∈ offsets s, x.1 ≤ y.1 ∧ y.1 < b ∧ isBlank y.2 = false := by
  obtain ⟨d, hlast, hd⟩ := ht
  obtain ⟨init, hinit⟩ := List.getLast?_eq_some_iff.mp hlast
  obtain ⟨l, r, rfl, rfl, rfl⟩ := slice?_eq_some_iff.mp h
  obtain rfl : t = String.ofList init ++ String.singleton d := by simp [← String.toList_inj, hinit]
  have hpos := d.utf8Size_pos
  have htext : l ++ (String.ofList init ++ String.singleton d) ++ r =
      (l ++ String.ofList init) ++ String.singleton d ++ r := by
    simp only [String.append_assoc]
  rw [htext] at hx ⊢
  refine ⟨_, mem_offsets_append (l ++ String.ofList init) r d, ?_, ?_, hd⟩
  · rw [offsets_append, List.mem_append, List.mem_append] at hx
    rcases hx with (hx | hx) | hx
    · have := (bounds_of_mem_offsetsFrom hx).2
      rw [String.ofList_toList] at this
      omega
    · simp only [String.toList_singleton, offsetsFrom, List.mem_singleton] at hx
      simp [hx]
    · have := (bounds_of_mem_offsetsFrom hx).1
      simp only [String.utf8ByteSize_append, String.utf8ByteSize_singleton] at this hb
      omega
  · simp only [String.utf8ByteSize_append, String.utf8ByteSize_singleton]
    omega

/-! ## The line of an offset -/

/-- The offset at which the line with this `offset` stops. -/
def lineStop (s : String) (offset : Nat) : Nat :=
  offset + (firstLine (after s offset)).utf8ByteSize

theorem le_lineStop (s : String) (c : Nat) : c ≤ lineStop s c :=
  Nat.le_add_right _ _

theorem lineFeed_not_mem_firstLine (t : String) : '\n' ∉ (firstLine t).toList := by
  intro hmem
  rw [firstLine, String.toList_ofList] at hmem
  simpa using List.mem_takeWhile_imp hmem

theorem slice?_lineStart (hc : IsBoundary s c) :
    slice? s (lineStart s c) c = some (lastLine (before s c)) := by
  obtain ⟨front, rest, hfront, rfl⟩ := hc
  obtain ⟨l, hl, -⟩ := exists_eq_append_lastLine front
  have hsize := congrArg String.utf8ByteSize hl
  rw [String.utf8ByteSize_append] at hsize
  rw [lineStart, before_eq hfront]
  exact slice?_eq_some_iff.mpr ⟨l, rest, by rw [hfront, ← hl], by omega, by omega⟩

theorem slice?_lineStop (hc : IsBoundary s c) :
    slice? s c (lineStop s c) = some (firstLine (after s c)) := by
  obtain ⟨front, rest, hfront, rfl⟩ := hc
  obtain ⟨r, hr, -⟩ := exists_eq_firstLine_append rest
  rw [lineStop, after_eq hfront]
  refine slice?_eq_some_iff.mpr ⟨front, r, ?_, rfl, rfl⟩
  rw [String.append_assoc, ← hr, hfront]

/-- A line that does not start with the text starts after a line feed. -/
theorem mem_offsets_lineStart (hc : IsBoundary s c) (h : 0 < lineStart s c) :
    (lineStart s c - 1, '\n') ∈ offsets s := by
  obtain ⟨front, rest, hfront, rfl⟩ := hc
  obtain ⟨l, hl, hfeed, -⟩ := exists_eq_append_lastLine front
  have hsize := congrArg String.utf8ByteSize hl
  rw [String.utf8ByteSize_append] at hsize
  have hstart : lineStart s front.utf8ByteSize = l.utf8ByteSize := by
    rw [lineStart, before_eq hfront]
    omega
  rw [hstart] at h ⊢
  rcases hfeed with rfl | ⟨l', rfl⟩
  · simp at h
  · have htext : s = l' ++ String.singleton '\n' ++ (lastLine front ++ rest) := by
      rw [hfront, ← String.append_assoc]
      exact congrArg (· ++ rest) hl
    have hone : "\n".utf8ByteSize = 1 := by decide
    rw [String.utf8ByteSize_append, hone, Nat.add_sub_cancel, htext]
    exact mem_offsets_append l' _ '\n'

/-- A line that does not stop with the text stops in front of a line feed. -/
theorem mem_offsets_lineStop (hc : IsBoundary s c) (h : lineStop s c < s.utf8ByteSize) :
    (lineStop s c, '\n') ∈ offsets s := by
  obtain ⟨front, rest, hfront, rfl⟩ := hc
  obtain ⟨r, hr, hfeed⟩ := exists_eq_firstLine_append rest
  have hstop : lineStop s front.utf8ByteSize = (front ++ firstLine rest).utf8ByteSize := by
    rw [lineStop, after_eq hfront, String.utf8ByteSize_append]
  rw [hstop] at h ⊢
  rcases hfeed with rfl | ⟨more, rfl⟩
  · rw [String.append_empty] at hr
    rw [← hr, ← hfront] at h
    omega
  · have htext : s = (front ++ firstLine rest) ++ String.singleton '\n' ++ more := by
      rw [hfront, String.append_assoc, String.append_assoc]
      exact congrArg (front ++ ·) hr
    have hmem := mem_offsets_append (front ++ firstLine rest) more '\n'
    rwa [← htext] at hmem

/-! ## Visible edges -/

theorem exists_visible (h : blank t = false) : ∃ d ∈ t.toList, isBlank d = false := by
  simpa [blank, List.all_eq_false] using h

/-- Where an offset has only white space in front of it on its line, what is visible on its last
line and stands in front of the offset is in front of a line feed. -/
theorem lt_lineStart (hc : IsBoundary s c) (hlead : blank (lastLine (before s c)) = true)
    (h : slice? s a b = some t) (ht : blank (lastLine t) = false) (hbc : b ≤ c) :
    b < lineStart s c := by
  obtain ⟨l, r, hs, rfl, rfl⟩ := slice?_eq_some_iff.mp h
  obtain ⟨init, hinit, -, hfeed⟩ := exists_eq_append_lastLine t
  generalize lastLine t = last at *
  subst hinit
  have hlast : slice? s (l ++ init).utf8ByteSize (l.utf8ByteSize + (init ++ last).utf8ByteSize) =
      some last := by
    refine slice?_eq_some_iff.mpr ⟨l ++ init, r, by simp only [hs, String.append_assoc], rfl, ?_⟩
    simp only [String.utf8ByteSize_append]
    omega
  obtain ⟨d, hd, hvisible⟩ := exists_visible ht
  obtain ⟨o, ho, hle, hlt⟩ := exists_mem_offsets hlast hd
  -- a visible character of the last line is not on the line of the offset
  have hstart : o < lineStart s c := by
    by_contra hge
    have hmem := mem_of_mem_offsets (slice?_lineStart hc) ho (by omega) (by omega)
    have := List.all_eq_true.mp hlead d hmem
    simp [hvisible] at this
  by_contra hge
  have hmem := mem_of_mem_offsets hlast (mem_offsets_lineStart hc (by omega)) (by omega) (by omega)
  exact hfeed hmem

/-- Where an offset has only white space after it on its line, what is visible on its first line and
stands after the offset is after a line feed. -/
theorem lineStop_lt (hc : IsBoundary s c) (htail : blank (firstLine (after s c)) = true)
    (h : slice? s a b = some t) (ht : blank (firstLine t) = false) (hca : c ≤ a) :
    lineStop s c < a := by
  obtain ⟨l, r, hs, rfl, rfl⟩ := slice?_eq_some_iff.mp h
  obtain ⟨rest, hrest, -⟩ := exists_eq_firstLine_append t
  have hfeed := lineFeed_not_mem_firstLine t
  generalize firstLine t = first at *
  subst hrest
  have hfirst : slice? s l.utf8ByteSize (l.utf8ByteSize + first.utf8ByteSize) = some first :=
    slice?_eq_some_iff.mpr ⟨l, rest ++ r, by simp only [hs, String.append_assoc], rfl, rfl⟩
  obtain ⟨d, hd, hvisible⟩ := exists_visible ht
  obtain ⟨o, ho, hle, hlt⟩ := exists_mem_offsets hfirst hd
  have hstop : lineStop s c ≤ o := by
    by_contra hge
    have hmem := mem_of_mem_offsets (slice?_lineStop hc) ho (by omega) (by omega)
    have := List.all_eq_true.mp htail d hmem
    simp [hvisible] at this
  by_contra hge
  have hsize := lt_of_mem_offsets ho
  have hmem := mem_of_mem_offsets hfirst (mem_offsets_lineStop hc (by omega)) (by omega) (by omega)
  exact hfeed hmem

/-! ## White space on a line -/

/-- Between `a` and `b` there is only white space, and no line ends. -/
def spaced (s : String) (a b : Nat) : Bool :=
  (slice s a b).toList.all fun d => isBlank d && d != '\n'

theorem spaced_of_forall (ha : IsBoundary s a) (hb : IsBoundary s b) (hle : a ≤ b)
    (h : ∀ x ∈ offsets s, a ≤ x.1 → x.1 < b → isBlank x.2 = true ∧ x.2 ≠ '\n') :
    spaced s a b = true := by
  obtain ⟨t, ht⟩ := exists_slice?_eq ha hb hle
  rw [spaced, slice_eq_of_slice? ht, List.all_eq_true]
  intro d hd
  obtain ⟨o, ho, hao, hob⟩ := exists_mem_offsets ht hd
  simpa using h _ ho hao hob

theorem spaced_of_lineStart_le (hc : IsBoundary s c)
    (hlead : blank (lastLine (before s c)) = true) (ha : IsBoundary s a) (hle : lineStart s c ≤ a)
    (hac : a ≤ c) : spaced s a c = true := by
  refine spaced_of_forall ha hc hac fun x hx hax hxc => ?_
  have hmem := mem_of_mem_offsets (slice?_lineStart hc) hx (by omega) hxc
  obtain ⟨-, -, -, hfeed⟩ := exists_eq_append_lastLine (before s c)
  exact ⟨List.all_eq_true.mp hlead _ hmem, fun heq => hfeed (heq ▸ hmem)⟩

theorem spaced_of_le_lineStop (hc : IsBoundary s c)
    (htail : blank (firstLine (after s c)) = true) (hb : IsBoundary s b) (hle : b ≤ lineStop s c)
    (hcb : c ≤ b) : spaced s c b = true := by
  refine spaced_of_forall hc hb hcb fun x hx hcx hxb => ?_
  have hmem := mem_of_mem_offsets (slice?_lineStop hc) hx hcx (by omega)
  exact ⟨List.all_eq_true.mp htail _ hmem, fun heq => lineFeed_not_mem_firstLine _ (heq ▸ hmem)⟩

/-! ## Slices of a part -/

/-- Where an offset moves when only the characters that satisfy `p` are left: to the number of bytes
that are left in front of it. -/
def placeOf (p : Nat → Bool) (s : String) (offset : Nat) : Nat :=
  (String.ofList (keep (fun o => p o && o < offset) s)).utf8ByteSize

theorem keep_lt_append (p : Nat → Bool) (s : String) (h : a ≤ b) :
    keep (fun o => p o && o < b) s =
      keep (fun o => p o && o < a) s ++ keep (fun o => p o && (a ≤ o && o < b)) s := by
  rw [keep_split (fun o => p o && o < b) a]
  congr 1 <;> refine keep_congr fun x _ => ?_
  · by_cases hx : x.1 < a
    · simp [hx, Nat.lt_of_lt_of_le hx h]
    · simp [hx]
  · rw [Bool.and_assoc, Bool.and_comm (decide (x.1 < b))]

/-- Between the places of two offsets stands what is left between them. -/
theorem slice?_keep (p : Nat → Bool) (s : String) (h : a ≤ b) :
    slice? (String.ofList (keep p s)) (placeOf p s a) (placeOf p s b) =
      some (String.ofList (keep (fun o => p o && (a ≤ o && o < b)) s)) := by
  refine slice?_eq_some_iff.mpr
    ⟨String.ofList (keep (fun o => p o && o < a) s), String.ofList (keep (fun o => p o && b ≤ o) s),
      ?_, rfl, ?_⟩
  · rw [keep_split p b, keep_lt_append p s h, String.ofList_append, String.ofList_append]
  · rw [placeOf, placeOf, keep_lt_append p s h, String.ofList_append, String.utf8ByteSize_append]

theorem placeOf_le_placeOf (p : Nat → Bool) (s : String) (h : a ≤ b) :
    placeOf p s a ≤ placeOf p s b :=
  size_of_slice? (slice?_keep p s h) ▸ Nat.le_add_right _ _

end CodeAtlas.Text
