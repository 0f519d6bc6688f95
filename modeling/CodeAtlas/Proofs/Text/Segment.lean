import CodeAtlas.Proofs.Text.Row

/-!
# The lines of a concatenation

Cutting a text after every line feed is undone by joining the pieces, and pieces that a text can be
cut into are found again. Where something stands in front of a text, its first line goes on the last
line of that; the other lines stay as they are.

## Main definitions

* `Terminated`: a line with its line feed.
* `Segmented`: lines with their line feeds, of which the last one may lack it.
* `EndsLine`: a part of a text at whose end a line ends.

## Main statements

* `segmentChars_flatten`: lines are found again when they are joined.
* `EndsLine.segmentChars_append`: the lines of two texts, the first of which ends with a line feed.
* `segmentChars_append_of_not_mem`: what stands in front of a text on one line with it.
* `getElem?_segmentChars_flatten_map`: a line of a text that is rewritten line by line.
* `getElem?_segments_append`: a line of a text with another one in front of it.
-/
namespace CodeAtlas.Text

variable {x l r seg : List Char} {segs : List (List Char)}

/-! ## Lines that can be joined -/

/-- The line `seg` ends with a line feed and has no other one. -/
def Terminated (seg : List Char) : Prop :=
  ∃ line, '\n' ∉ line ∧ seg = line ++ ['\n']

/-- Lines each of which ends with its only line feed, save that the last one may lack it. -/
inductive Segmented : List (List Char) → Prop where
  | nil : Segmented []
  | last {seg : List Char} (hne : seg ≠ []) (h : '\n' ∉ seg) : Segmented [seg]
  | cons {seg : List Char} {segs : List (List Char)} (hseg : Terminated seg) (h : Segmented segs) :
      Segmented (seg :: segs)

theorem Terminated.ne_nil (h : Terminated seg) : seg ≠ [] := by
  obtain ⟨line, -, rfl⟩ := h
  simp

/-! ## Cutting and joining -/

theorem segmentChars_of_not_mem (hne : x ≠ []) (h : '\n' ∉ x) : segmentChars x = [x] := by
  induction x with
  | nil => exact absurd rfl hne
  | cons c x ih =>
    rw [segmentChars, if_neg (by grind)]
    cases x with
    | nil => rfl
    | cons d x => rw [ih (by simp) (by grind)]

/-- What stands in front of a text on one line with it. -/
theorem segmentChars_append_of_not_mem (h : '\n' ∉ x) (hr : segmentChars r = seg :: segs) :
    segmentChars (x ++ r) = (x ++ seg) :: segs := by
  induction x with
  | nil => exact hr
  | cons c x ih =>
    rw [List.cons_append, segmentChars, if_neg (by grind), ih (by grind)]
    rfl

@[simp] theorem Terminated.segmentChars_append (h : Terminated seg) (r : List Char) :
    segmentChars (seg ++ r) = seg :: segmentChars r := by
  obtain ⟨line, hline, rfl⟩ := h
  rw [List.append_assoc]
  exact segmentChars_append_of_not_mem hline (by simp [segmentChars])

theorem segmented_segmentChars (cs : List Char) : Segmented (segmentChars cs) := by
  induction cs with
  | nil => exact .nil
  | cons c cs ih =>
    rw [segmentChars]
    split
    · exact .cons ⟨[], by simp, rfl⟩ ih
    · next hc =>
      cases hsegs : segmentChars cs with
      | nil => exact .last (by simp) (by simpa using Ne.symm hc)
      | cons seg segs =>
        rw [hsegs] at ih
        cases ih with
        | last hne h => exact .last (by simp) (by grind)
        | cons hseg h =>
          obtain ⟨line, hline, rfl⟩ := hseg
          exact .cons ⟨c :: line, by grind, rfl⟩ h

/-- Lines are found again when they are joined. -/
@[simp] theorem segmentChars_flatten (h : Segmented segs) : segmentChars segs.flatten = segs := by
  induction h with
  | nil => rfl
  | last hne h =>
    rw [List.flatten_cons, List.flatten_nil, List.append_nil]
    exact segmentChars_of_not_mem hne h
  | cons hseg _ ih => rw [List.flatten_cons, hseg.segmentChars_append, ih]

/-! ## Lines of a concatenation -/

theorem segmentChars_append_lineFeed (l r : List Char) :
    segmentChars (l ++ ['\n'] ++ r) = segmentChars (l ++ ['\n']) ++ segmentChars r := by
  induction l with
  | nil => simp [segmentChars]
  | cons c l ih =>
    rw [List.cons_append, List.cons_append, segmentChars, segmentChars, ih]
    split
    · rfl
    · cases hsegs : segmentChars (l ++ ['\n']) with
      | nil => exact absurd hsegs (segmentChars_ne_nil (by simp))
      | cons seg segs => rfl

theorem length_segmentChars_lineFeed (l : List Char) :
    (segmentChars (l ++ ['\n'])).length = l.count '\n' + 1 := by
  induction l with
  | nil => simp [segmentChars]
  | cons c l ih =>
    rw [List.cons_append, segmentChars]
    split
    · next hc => simp [ih, hc]
    · next hc =>
      rw [List.count_cons_of_ne hc, ← ih]
      cases hsegs : segmentChars (l ++ ['\n']) with
      | nil => exact absurd hsegs (segmentChars_ne_nil (by simp))
      | cons seg segs => rfl

/-- The part `l` is empty or ends with a line feed. -/
def EndsLine (l : List Char) : Prop :=
  l = [] ∨ ∃ l', l = l' ++ ['\n']

/-- The lines of a text whose first part ends with a line are those of its two parts. -/
@[simp] theorem EndsLine.segmentChars_append (hl : EndsLine l) (r : List Char) :
    segmentChars (l ++ r) = segmentChars l ++ segmentChars r := by
  rcases hl with rfl | ⟨l, rfl⟩
  · rfl
  · exact segmentChars_append_lineFeed l r

/-- A part that ends with a line has as many lines as line feeds. -/
@[simp] theorem EndsLine.length_segmentChars (hl : EndsLine l) :
    (segmentChars l).length = l.count '\n' := by
  rcases hl with rfl | ⟨l, rfl⟩
  · rfl
  · rw [length_segmentChars_lineFeed, List.count_append]
    rfl

/-- A line of a text that is rewritten line by line, if lines keep their line feeds. -/
theorem getElem?_segmentChars_flatten_map {i : Nat} {f : List Char → List Char}
    (hsegs : Segmented segs) (hf : ∀ seg ∈ segs, Terminated seg → Terminated (f seg))
    (hi : segs[i]? = some seg) (hseg : Terminated seg) (r : List Char) :
    (segmentChars ((segs.map f).flatten ++ r))[i]? = some (f seg) := by
  induction hsegs generalizing i with
  | nil => simp at hi
  | @last last hne h =>
    obtain ⟨line, -, rfl⟩ := hseg
    have hlast : line ++ ['\n'] = last := List.mem_singleton.mp (List.mem_of_getElem? hi)
    exact absurd (hlast ▸ by simp) h
  | @cons first segs hfirst h ih =>
    rw [List.map_cons, List.flatten_cons, List.append_assoc,
      (hf first (by simp) hfirst).segmentChars_append]
    cases i with
    | zero =>
      obtain rfl : first = seg := by simpa using hi
      rfl
    | succ i => exact ih (fun seg hseg => hf seg (by simp [hseg])) (by simpa using hi)

/-! ## Lines of a text -/

theorem endsLine_toList {l : String} (h : l = "" ∨ ∃ l', l = l' ++ "\n") : EndsLine l.toList := by
  rcases h with rfl | ⟨l', rfl⟩
  · exact .inl rfl
  · exact .inr ⟨l'.toList, by simp⟩

theorem segments_append {l : String} (h : l = "" ∨ ∃ l', l = l' ++ "\n") (r : String) :
    segments (l ++ r) = segments l ++ segments r := by
  rw [segments, String.toList_append, (endsLine_toList h).segmentChars_append, List.map_append,
    segments, segments]

/-- The lines of a text with another one in front of it. What that one leaves open goes on with the
first line. -/
theorem getElem?_segments_append {s t line : String} {k : Nat}
    (h : (segments t)[k]? = some line) :
    (segments (s ++ t))[s.toList.count '\n' + k]? =
      some ((if k = 0 then lastLine s else "") ++ line) := by
  obtain ⟨l, hs, hends, hfeed⟩ := exists_eq_append_lastLine s
  have hcount : s.toList.count '\n' = (segments l).length := by
    rw [segments, List.length_map, (endsLine_toList hends).length_segmentChars,
      congrArg String.toList hs, String.toList_append, List.count_append,
      List.count_eq_zero_of_not_mem hfeed, Nat.add_zero]
  have hlines : segments (s ++ t) = segments l ++ segments (lastLine s ++ t) := by
    rw [← segments_append hends, ← String.append_assoc, ← hs]
  rw [hlines, hcount, List.getElem?_append_right (Nat.le_add_right _ _), Nat.add_sub_cancel_left]
  rw [segments] at h ⊢
  rw [String.toList_append]
  cases hsegs : segmentChars t.toList with
  | nil => simp [hsegs] at h
  | cons seg segs =>
    rw [hsegs] at h
    rw [segmentChars_append_of_not_mem hfeed hsegs]
    cases k with
    | zero =>
      obtain rfl : String.ofList seg = line := by simpa using h
      simp
    | succ k => simpa using h

end CodeAtlas.Text
