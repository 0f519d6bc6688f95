import CodeAtlas.Proofs.Text.Slice
import CodeAtlas.Text.Line
import Mathlib.Data.List.TakeWhile

/-!
# The last line of a text

The last line of a text is what follows its last line feed. Where an offset stands on a line of
which only white space precedes it, nothing that ends cleanly reaches into that line.

## Main definitions

* `EndsVisibly`: the last character is not white space.
* `endsCleanly`: the last line is empty or not blank, and neither is the whole text blank.
* `Indents`: a text that is nothing but indentation.
* `beginsInIndent`: the offsets at which the indentation of a line goes on.

## Main statements

* `exists_eq_append_lastLine`: a text is its earlier lines and its last line.
* `exists_eq_firstLine_append`: a text is its first line and its later lines.
* `le_lineStart`: what ends cleanly in front of an offset ends in front of a blank line start.
-/
namespace CodeAtlas.Text

variable {s t l x : String} {a b c : Nat}

@[simp] theorem blank_append : blank (s ++ t) = (blank s && blank t) := by
  simp [blank]

/-! ## Last lines -/

@[simp] theorem lastLine_append_lineFeed (l : String) (h : '\n' ∉ x.toList) :
    lastLine (l ++ "\n" ++ x) = x := by
  have hall : ∀ c ∈ x.toList.reverse, (c != '\n') = true := by
    intro c hc
    simpa using fun heq : c = '\n' => h (heq ▸ List.mem_reverse.mp hc)
  rw [lastLine]
  simp [List.takeWhile_append_of_pos hall]

/-- A text is its earlier lines, the last of which is ended by a line feed, and its last line. -/
theorem exists_eq_append_lastLine (s : String) :
    ∃ l, s = l ++ lastLine s ∧ (l = "" ∨ ∃ l', l = l' ++ "\n") ∧ '\n' ∉ (lastLine s).toList := by
  have hsplit := List.takeWhile_append_dropWhile (p := (· != '\n')) (l := s.toList.reverse)
  refine ⟨String.ofList (s.toList.reverse.dropWhile (· != '\n')).reverse, ?_, ?_, ?_⟩
  · rw [← String.toList_inj, lastLine, String.toList_append, String.toList_ofList,
      String.toList_ofList, ← List.reverse_append, hsplit, List.reverse_reverse]
  · cases hdrop : s.toList.reverse.dropWhile (· != '\n') with
    | nil => exact .inl rfl
    | cons c rest =>
      have hc : c = '\n' := by
        have hne : s.toList.reverse.dropWhile (· != '\n') ≠ [] := by simp [hdrop]
        simpa [hdrop] using List.head_dropWhile_not (· != '\n') hne
      exact .inr ⟨String.ofList rest.reverse, by simp [hc]⟩
  · intro hmem
    simp only [lastLine, String.toList_ofList, List.mem_reverse] at hmem
    simpa using List.mem_takeWhile_imp hmem

/-- A text is its first line and, if it has more than one, a line feed and the others. -/
theorem exists_eq_firstLine_append (t : String) :
    ∃ rest, t = firstLine t ++ rest ∧ (rest = "" ∨ ∃ more, rest = "\n" ++ more) := by
  have hsplit := List.takeWhile_append_dropWhile (p := (· != '\n')) (l := t.toList)
  refine ⟨String.ofList (t.toList.dropWhile (· != '\n')), ?_, ?_⟩
  · rw [← String.toList_inj, firstLine, String.toList_append, String.toList_ofList,
      String.toList_ofList, hsplit]
  · cases hdrop : t.toList.dropWhile (· != '\n') with
    | nil => exact .inl rfl
    | cons c rest =>
      have hc : c = '\n' := by
        have hne : t.toList.dropWhile (· != '\n') ≠ [] := by simp [hdrop]
        simpa [hdrop] using List.head_dropWhile_not (· != '\n') hne
      exact .inr ⟨String.ofList rest, by simp [hc]⟩

theorem isBoundary_lineStart (hc : IsBoundary s c) : IsBoundary s (lineStart s c) := by
  obtain ⟨front, rest, hfront, rfl⟩ := hc
  obtain ⟨x, hx, -⟩ := exists_eq_append_lastLine front
  refine ⟨x, lastLine front ++ rest, by rw [hfront, ← String.append_assoc, ← hx], ?_⟩
  have hsize := congrArg String.utf8ByteSize hx
  rw [String.utf8ByteSize_append] at hsize
  rw [lineStart, before_eq hfront]
  omega

theorem lineStart_le (s : String) (c : Nat) : lineStart s c ≤ c :=
  Nat.sub_le _ _

/-! ## Indentation -/

/-- The text `s` is nothing but indentation. -/
def Indents (s : String) : Prop :=
  ∀ c ∈ s.toList, isIndent c = true

theorem indents_indentAt (s : String) (a : Nat) : Indents (indentAt s a) := by
  unfold indentAt
  dsimp only
  split
  · next hall => exact List.all_eq_true.mp hall
  · simp [Indents]

/-- The offset `a` stands in the indentation of its line, which goes on behind it. -/
def beginsInIndent (s : String) (a : Nat) : Bool :=
  (lastLine (before s a)).toList.all isIndent && (after s a).toList.head?.any isIndent

theorem beginsInIndent_of_append {rest : String} {d : Char} (hs : s = l ++ "\n" ++ x ++ rest)
    (hx : Indents x) (hd : rest.toList.head? = some d) (hindent : isIndent d = true) :
    beginsInIndent s (l ++ "\n" ++ x).utf8ByteSize = true := by
  have hfeed : '\n' ∉ x.toList := fun hmem => absurd (hx '\n' hmem) (by decide)
  rw [beginsInIndent, before_eq hs, lastLine_append_lineFeed l hfeed, after_eq hs, hd]
  exact Bool.and_eq_true_iff.mpr ⟨List.all_eq_true.mpr hx, by simpa using hindent⟩

/-! ## Clean ends -/

/-- The last character of `s` is not white space. -/
def EndsVisibly (s : String) : Prop :=
  ∃ c, s.toList.getLast? = some c ∧ isBlank c = false

instance (s : String) : Decidable (EndsVisibly s) :=
  show Decidable (∃ c, c ∈ s.toList.getLast? ∧ isBlank c = false) from
    Option.decidableExistsMem _

/-- The text `s` is not blank, and its last line is not blank either, unless it is empty. -/
def endsCleanly (s : String) : Bool :=
  !blank s && (lastLine s == "" || !blank (lastLine s))

/-- The character that ends the text ends its last line, too. -/
@[simp] theorem EndsVisibly.blank_lastLine (h : EndsVisibly s) : blank (lastLine s) = false := by
  obtain ⟨c, hlast, hc⟩ := h
  have hfeed : c ≠ '\n' := by
    rintro rfl
    exact absurd hc (by decide)
  have hline : c ∈ (lastLine s).toList := by
    obtain ⟨init, hinit⟩ := List.getLast?_eq_some_iff.mp hlast
    simp [lastLine, hinit, hfeed]
  rw [blank, List.all_eq_false]
  exact ⟨c, hline, by simp [hc]⟩

@[grind →] theorem EndsVisibly.endsCleanly (h : EndsVisibly s) : endsCleanly s = true := by
  have hline := h.blank_lastLine
  have hblank : blank s = false := by
    obtain ⟨c, hlast, hc⟩ := h
    rw [blank, List.all_eq_false]
    exact ⟨c, List.mem_of_getLast? hlast, by simp [hc]⟩
  simp [Text.endsCleanly, hline, hblank]

/-- A text that reaches into a line by white space only does not end cleanly. -/
theorem not_endsCleanly {z : String} (h : l ++ t = x ++ z) (hx : x = "" ∨ ∃ y, x = y ++ "\n")
    (hfeed : '\n' ∉ z.toList) (hz : z ≠ "") (hblank : blank z = true) : endsCleanly t = false := by
  rcases Nat.lt_or_ge l.utf8ByteSize x.utf8ByteSize with hlt | hge
  · -- The text starts on an earlier line, so its last line is `z`.
    obtain ⟨w, rfl, rfl⟩ := append_eq_append_of_le h (Nat.le_of_lt hlt)
    obtain ⟨y, rfl⟩ : ∃ y, w = y ++ "\n" := by
      obtain hx | ⟨y, hy⟩ := hx
      · simp [hx] at hlt
      · have hsize := congrArg String.utf8ByteSize hy
        have hone : "\n".utf8ByteSize = 1 := by decide
        rw [String.utf8ByteSize_append] at hlt hsize
        rw [String.utf8ByteSize_append] at hsize
        obtain ⟨v, -, hv⟩ := append_eq_append_of_le hy (by omega)
        exact ⟨v, hv⟩
    simp [endsCleanly, lastLine_append_lineFeed y hfeed, hz, hblank]
  · obtain ⟨w, rfl, rfl⟩ := append_eq_append_of_le h.symm hge
    rw [blank_append, Bool.and_eq_true] at hblank
    simp [endsCleanly, hblank.2]

/-- Where an offset has only white space in front of it on its line, what ends cleanly before the
offset ends before the line. -/
theorem le_lineStart (hs : slice? s a b = some t) (ht : endsCleanly t = true)
    (hc : IsBoundary s c) (hbc : b ≤ c) (hblank : blank (lastLine (before s c)) = true) :
    b ≤ lineStart s c := by
  obtain ⟨front, rest, hfront, rfl⟩ := hc
  obtain ⟨l, r, hl, rfl, rfl⟩ := slice?_eq_some_iff.mp hs
  rw [lineStart]
  rw [before_eq hfront] at hblank ⊢
  obtain ⟨x, hx, hend, hfeed⟩ := exists_eq_append_lastLine front
  generalize lastLine front = lead at *
  subst hx
  by_contra hlt
  rw [String.utf8ByteSize_append] at hlt hbc
  obtain ⟨y, hy, -⟩ := append_eq_append_of_le (hl.symm.trans hfront)
    (by simp only [String.utf8ByteSize_append]; omega)
  -- The text ends inside the blank line: `z` is the part of that line that it reaches.
  obtain ⟨z, hz, rfl⟩ := append_eq_append_of_le hy
    (by simp only [String.utf8ByteSize_append]; omega)
  have hne : z ≠ "" := by
    rintro rfl
    have hsize := congrArg String.utf8ByteSize hz
    simp only [String.utf8ByteSize_append, String.append_empty, String.empty_append] at hsize hlt
    omega
  rw [blank_append, Bool.and_eq_true] at hblank
  have := not_endsCleanly hz hend (fun hmem => hfeed (by simp [hmem])) hne hblank.1
  simp [this] at ht

end CodeAtlas.Text
