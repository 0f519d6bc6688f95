import CodeAtlas.Proofs.Text.Line

/-!
# Characters and their offsets

A part of a text can be given by the offsets of the characters that belong to it. A slice is the
part between its ends, and a part is what it is in front of an offset and from there on.

## Main definitions

* `offsets`: the characters of a text with their offsets.
* `keep`: the characters at some offsets.
* `visible`: the characters other than white space.

## Main statements

* `keep_slice`: a slice holds the characters between its ends.
* `keep_split`: the characters in front of an offset and those from there on.
-/
namespace CodeAtlas.Text

variable {s t : String} {a b k : Nat} {p q : Nat → Bool} {x : Nat × Char}

/-! ## Offsets -/

/-- The characters of a list with their offsets, the first of which is `k`. -/
def offsetsFrom (k : Nat) : List Char → List (Nat × Char)
  | [] => []
  | c :: cs => (k, c) :: offsetsFrom (k + c.utf8Size) cs

/-- The characters of `s` with their offsets. -/
def offsets (s : String) : List (Nat × Char) :=
  offsetsFrom 0 s.toList

@[simp] theorem map_snd_offsetsFrom (k : Nat) (cs : List Char) :
    (offsetsFrom k cs).map Prod.snd = cs := by
  induction cs generalizing k with
  | nil => rfl
  | cons c cs ih => rw [offsetsFrom, List.map_cons, ih]

theorem utf8ByteSize_ofList_cons (c : Char) (cs : List Char) :
    (String.ofList (c :: cs)).utf8ByteSize = c.utf8Size + (String.ofList cs).utf8ByteSize := by
  rw [String.ofList_cons, String.utf8ByteSize_append, String.utf8ByteSize_singleton]

theorem offsetsFrom_append (k : Nat) (l r : List Char) :
    offsetsFrom k (l ++ r) =
      offsetsFrom k l ++ offsetsFrom (k + (String.ofList l).utf8ByteSize) r := by
  induction l generalizing k with
  | nil => simp [offsetsFrom]
  | cons c l ih =>
    rw [List.cons_append, offsetsFrom, ih, utf8ByteSize_ofList_cons, Nat.add_assoc]
    rfl

@[grind →] theorem bounds_of_mem_offsetsFrom {cs : List Char} (h : x ∈ offsetsFrom k cs) :
    k ≤ x.1 ∧ x.1 < k + (String.ofList cs).utf8ByteSize := by
  induction cs generalizing k with
  | nil => simp [offsetsFrom] at h
  | cons c cs ih =>
    have hpos := c.utf8Size_pos
    rw [utf8ByteSize_ofList_cons]
    rcases List.mem_cons.mp h with rfl | h
    · dsimp only
      omega
    · have := ih h
      omega

@[grind →] theorem lt_of_mem_offsets (h : x ∈ offsets s) : x.1 < s.utf8ByteSize := by
  have := (bounds_of_mem_offsetsFrom h).2
  rwa [String.ofList_toList, Nat.zero_add] at this

/-- The offsets of three parts of a text. -/
theorem offsets_append (l t r : String) :
    offsets (l ++ t ++ r) = offsetsFrom 0 l.toList ++ offsetsFrom l.utf8ByteSize t.toList ++
      offsetsFrom (l.utf8ByteSize + t.utf8ByteSize) r.toList := by
  rw [offsets, String.toList_append, String.toList_append, offsetsFrom_append, offsetsFrom_append]
  simp

/-! ## Parts of a text -/

/-- The characters at the offsets that satisfy `p`. -/
def keep (p : Nat → Bool) (s : String) : List Char :=
  ((offsets s).filter (p ·.1)).map Prod.snd

theorem keep_congr (h : ∀ x ∈ offsets s, p x.1 = q x.1) : keep p s = keep q s := by
  rw [keep, keep, List.filter_congr h]

@[simp] theorem keep_of_forall (h : ∀ x ∈ offsets s, p x.1 = false) : keep p s = [] := by
  rw [keep, List.filter_eq_nil_iff.mpr fun x hx => by simp [h x hx]]
  rfl

/-- A slice holds the characters between its ends. -/
theorem keep_slice (h : slice? s a b = some t) : keep (fun o => a ≤ o && o < b) s = t.toList := by
  obtain ⟨l, r, rfl, rfl, rfl⟩ := slice?_eq_some_iff.mp h
  rw [keep, offsets_append, List.filter_append, List.filter_append]
  have hleft : (offsetsFrom 0 l.toList).filter
      (fun x => l.utf8ByteSize ≤ x.1 && x.1 < l.utf8ByteSize + t.utf8ByteSize) = [] := by
    refine List.filter_eq_nil_iff.mpr fun x hx => ?_
    have := (bounds_of_mem_offsetsFrom hx).2
    rw [String.ofList_toList] at this
    simp only [Bool.and_eq_true, decide_eq_true_eq]
    omega
  have hright : (offsetsFrom (l.utf8ByteSize + t.utf8ByteSize) r.toList).filter
      (fun x => l.utf8ByteSize ≤ x.1 && x.1 < l.utf8ByteSize + t.utf8ByteSize) = [] := by
    refine List.filter_eq_nil_iff.mpr fun x hx => ?_
    have := (bounds_of_mem_offsetsFrom hx).1
    simp only [Bool.and_eq_true, decide_eq_true_eq]
    omega
  have hmiddle : (offsetsFrom l.utf8ByteSize t.toList).filter
      (fun x => l.utf8ByteSize ≤ x.1 && x.1 < l.utf8ByteSize + t.utf8ByteSize) =
        offsetsFrom l.utf8ByteSize t.toList := by
    refine List.filter_eq_self.mpr fun x hx => ?_
    have := bounds_of_mem_offsetsFrom hx
    rw [String.ofList_toList] at this
    simpa using this
  rw [hleft, hmiddle, hright, List.nil_append, List.append_nil, map_snd_offsetsFrom]

theorem mem_of_mem_offsets (h : slice? s a b = some t) (hx : x ∈ offsets s) (ha : a ≤ x.1)
    (hb : x.1 < b) : x.2 ∈ t.toList := by
  rw [← keep_slice h]
  exact List.mem_map.mpr ⟨x, List.mem_filter.mpr ⟨hx, by simp [ha, hb]⟩, rfl⟩

/-- What follows an offset holds the characters from there on. -/
theorem keep_after (h : IsBoundary s a) : keep (fun o => a ≤ o) s = (after s a).toList := by
  obtain ⟨t, ht⟩ := exists_slice?_eq h (isBoundary_utf8ByteSize s) h.le
  rw [after, slice_eq_of_slice? ht, ← keep_slice ht]
  refine keep_congr fun x hx => ?_
  simp [lt_of_mem_offsets hx]

theorem filter_offsetsFrom_split (p : Nat × Char → Bool) (c k : Nat) (cs : List Char) :
    (offsetsFrom k cs).filter p = (offsetsFrom k cs).filter (fun x => p x && x.1 < c) ++
      (offsetsFrom k cs).filter (fun x => p x && c ≤ x.1) := by
  induction cs generalizing k with
  | nil => rfl
  | cons d cs ih =>
    have hbound (x : Nat × Char) (hx : x ∈ offsetsFrom k (d :: cs)) : k ≤ x.1 :=
      (bounds_of_mem_offsetsFrom hx).1
    rw [offsetsFrom] at hbound ⊢
    by_cases hk : k < c
    · have hle : ¬ c ≤ k := by omega
      rw [List.filter_cons, List.filter_cons, List.filter_cons, ih]
      by_cases hp : p (k, d) = true <;> simp [hp, hk, hle]
    · -- from here on no character stands in front of `c`
      have hle : c ≤ k := by omega
      have hnone : ((k, d) :: offsetsFrom (k + d.utf8Size) cs).filter
          (fun x => p x && x.1 < c) = [] := by
        refine List.filter_eq_nil_iff.mpr fun x hx => ?_
        have := hbound x hx
        simp only [Bool.and_eq_true, decide_eq_true_eq]
        omega
      rw [hnone, List.nil_append]
      refine List.filter_congr fun x hx => ?_
      simp [Nat.le_trans hle (hbound x hx)]

/-- A part of a text is what it is in front of an offset and from there on. -/
theorem keep_split (p : Nat → Bool) (c : Nat) (s : String) :
    keep p s = keep (fun o => p o && o < c) s ++ keep (fun o => p o && c ≤ o) s := by
  rw [keep, offsets, filter_offsetsFrom_split _ c, List.map_append]
  rfl

/-! ## Visible characters -/

/-- The characters of `s` other than white space. -/
def visible (s : String) : List Char :=
  s.toList.filter (!isBlank ·)

@[simp] theorem visible_append (s t : String) : visible (s ++ t) = visible s ++ visible t := by
  simp [visible]

@[simp] theorem visible_of_blank (h : blank s = true) : visible s = [] := by
  rw [blank, List.all_eq_true] at h
  exact List.filter_eq_nil_iff.mpr fun c hc => by simp [h c hc]

end CodeAtlas.Text
