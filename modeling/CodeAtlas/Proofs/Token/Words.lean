import CodeAtlas.Proofs.Token.Alignment

/-!
# The table of lengths in machine words

The table of two streams can be filled in place, cell by cell from the last one on, with 64-bit
words for the places and 32-bit words for the cells. The functions here do so, and have no result
once a number is too large for its word or a place lies outside of the table. If the cells of the
table can be counted in 64 bits, they have a result, and it is the alignment, so the numbers of the
table of lengths need no bounds: no cell holds more than the length of the shorter stream, and the
shorter of two streams whose table has less than `2^64` cells has less than `2^32` tokens.

## Main definitions

* `WordTable`: a table in words, with `here?` and `right?` for its cells.
* `WordTable.fillCell?`, `WordTable.fill?`: filling the table.
* `WordTable.alignFrom?`, `alignInWords?`: reading the alignment off.
* `WordTable.Stage`: what a table holds while it is filled.

## Main statements

* `WordTable.Stage.exists_fillCell?`: filling one cell.
* `WordTable.Stage.exists_foldlM_fillCell?`: filling any number of them.
* `alignInWords?_eq`: what is computed in words is the alignment.
* `word_table_safe`: places and cells are never too large.
-/
namespace CodeAtlas

/-! ## Words -/

/-- The number `n` as a 64-bit word, unless it is too large. -/
def word? (n : Nat) : Option UInt64 :=
  if h : n < UInt64.size then some (UInt64.ofNatLT n h) else none

/-- The number `n` as a 32-bit word, unless it is too large. -/
def cell? (n : Nat) : Option UInt32 :=
  if h : n < UInt32.size then some (UInt32.ofNatLT n h) else none

theorem exists_word? {n : Nat} (h : n < UInt64.size) : ∃ w, word? n = some w ∧ w.toNat = n :=
  ⟨UInt64.ofNatLT n h, dif_pos h, UInt64.toNat_ofNatLT⟩

theorem exists_cell? {n : Nat} (h : n < UInt32.size) : ∃ c, cell? n = some c ∧ c.toNat = n :=
  ⟨UInt32.ofNatLT n h, dif_pos h, UInt32.toNat_ofNatLT⟩

/-! ## Tables in words -/

/-- A table of lengths, row by row. -/
structure WordTable where
  width : UInt64
  cells : Array UInt32

namespace WordTable

/-- The place of the cell in this `row` and `column`. -/
def place? (t : WordTable) (row column : Nat) : Option UInt64 :=
  (word? (row * t.width.toNat)).bind fun start => word? (start.toNat + column)

/-- The cell in this `row` and `column`. -/
def here? (t : WordTable) (row column : Nat) : Option UInt32 :=
  (t.place? row column).bind fun place => t.cells[place.toNat]?

/-- The cell to the right of this `row` and `column`. -/
def right? (t : WordTable) (row column : Nat) : Option UInt32 :=
  ((t.place? row column).bind fun place => word? (place.toNat + 1)).bind
    fun place => t.cells[place.toNat]?

/-- One more than the cell to the right in the next row. -/
def longer? (t : WordTable) (row column : Nat) : Option UInt32 :=
  (t.right? (row + 1) column).bind fun c => cell? (c.toNat + 1)

/-- The value of the cell in this `row` and `column`, whose two tokens are `similar` or not. -/
def value? (t : WordTable) (similar : Bool) (row column : Nat) : Option UInt32 :=
  if similar then t.longer? row column
  else do return max (← t.here? (row + 1) column) (← t.right? row column)

def write? (t : WordTable) (row column : Nat) (c : UInt32) : Option WordTable :=
  (t.place? row column).bind fun place =>
    if h : place.toNat < t.cells.size then some { t with cells := t.cells.set place.toNat c }
    else none

section Fill

variable {α : Type} (similar : α → α → Bool) (source target : List α)

/-- A table of zeros. -/
def blank? : Option WordTable := do
  let _ ← word? (source.length + 1)
  let width ← word? (target.length + 1)
  return ⟨width, .replicate (cellCount source.length target.length) 0⟩

/-- Fills one `cell` of `t`. -/
def fillCell? (t : WordTable) (cell : Nat × Nat) : Option WordTable := do
  let s ← source[cell.1]?
  let r ← target[cell.2]?
  let c ← t.value? (similar s r) cell.1 cell.2
  t.write? cell.1 cell.2 c

/-- Fills the given `cells`, one after the other. -/
def fill? (cells : List (Nat × Nat)) : Option WordTable :=
  (blank? source target).bind fun t => cells.foldlM (fillCell? similar source target) t

end Fill

/-- The cells of a table of this `height` and `width` in the order in which they are filled. The
last row and the last column stay as they are. -/
def fillOrder (height width : Nat) : List (Nat × Nat) :=
  (List.range height).reverse.flatMap fun i => (List.range width).reverse.map fun j => (i, j)

/-! ## Reading the alignment off -/

/-- The tokens of a cell are kept: they are `similar`, and the cell is one more than the next in
both directions. -/
def keeps? (t : WordTable) (similar : Bool) (row column : Nat) : Option Bool :=
  if similar then do return (← t.here? row column) == (← t.longer? row column)
  else some false

/-- The cell below this `row` and `column` is at least as large as the one to the right. -/
def goesDown? (t : WordTable) (row column : Nat) : Option Bool := do
  return decide ((← t.right? row column) ≤ (← t.here? (row + 1) column))

/-- The alignment of the suffixes that start at `i` and `j`. -/
def alignFrom? (similar : Token → Token → Bool) (t : WordTable) (i j : Nat) :
    List Token → List Token → Option (List Change)
  | s :: source, r :: target =>
    (t.keeps? (similar s r) i j).bind fun keep =>
      if keep then
        (alignFrom? similar t (i + 1) (j + 1) source target).map (.unchanged s r :: ·)
      else
        (t.goesDown? i j).bind fun down =>
          if down then (alignFrom? similar t (i + 1) j source (r :: target)).map (.removed s :: ·)
          else (alignFrom? similar t i (j + 1) (s :: source) target).map (.inserted r :: ·)
  | source, [] => some (source.map .removed)
  | [], target => some (target.map .inserted)
termination_by source target => source.length + target.length

end WordTable

/-- The alignment of the streams `source` and `target`, computed in words. -/
def alignInWords? (budget : UInt64) (similar : Token → Token → Bool) (source target : List Token) :
    Option (List Change) :=
  if budget.toNat < cellCount source.length target.length then
    some [.replaced source.length target.length]
  else
    (WordTable.fill? similar source target
      (WordTable.fillOrder source.length target.length)).bind fun t =>
        t.alignFrom? similar 0 0 source target

/-! ## Places -/

namespace LengthTable

theorem index_lt {height width row column : Nat} (hrow : row < height) (hcolumn : column < width) :
    index width row column < height * width :=
  calc row * width + column < row * width + width := Nat.add_lt_add_left hcolumn _
    _ = (row + 1) * width := (Nat.succ_mul row width).symm
    _ ≤ height * width := Nat.mul_le_mul_right width hrow

theorem index_inj {width row column row' column' : Nat} (hcolumn : column < width)
    (hcolumn' : column' < width) (h : index width row column = index width row' column') :
    row = row' ∧ column = column' := by
  rcases Nat.lt_trichotomy row row' with hlt | rfl | hlt
  · have := index_lt hlt hcolumn
    simp only [index] at this h
    omega
  · exact ⟨rfl, Nat.add_left_cancel h⟩
  · have := index_lt hlt hcolumn'
    simp only [index] at this h
    omega

end LengthTable

/-! ## Lengths -/

section Lengths

variable {α : Type} (similar : α → α → Bool) (source target : List α)

theorem commonLength_le : commonLength similar source target ≤ min source.length target.length := by
  fun_induction commonLength similar source target with
  | case1 s source t target hst ih => simp only [List.length_cons]; omega
  | case2 s source t target hst ihs iht => simp only [List.length_cons] at *; omega
  | case3 source target hnil => exact Nat.zero_le _

@[simp] theorem cellCount_eq {n m : Nat} (hfits : (n + 1) * (m + 1) < UInt64.size) :
    cellCount n m = (n + 1) * (m + 1) :=
  Nat.min_eq_left (by omega)

/-- The shorter of two lengths is a 32-bit word if the number of cells is a 64-bit word. -/
theorem min_lt_of_cells {n m : Nat} (h : (n + 1) * (m + 1) < UInt64.size) :
    min n m + 1 < UInt32.size := by
  by_contra hlarge
  have hn : UInt32.size ≤ n + 1 := by omega
  have hm : UInt32.size ≤ m + 1 := by omega
  have hcells : UInt64.size ≤ (n + 1) * (m + 1) := Nat.mul_le_mul hn hm
  omega

end Lengths

/-! ## Stages -/

namespace WordTable

section Stage

variable {α : Type} (similar : α → α → Bool) (source target : List α)

/-- What a cell holds while the cells in `rest` are still to be filled. -/
def lengthAt (rest : List (Nat × Nat)) (i j : Nat) : Nat :=
  if (i, j) ∈ rest then 0 else commonLength similar (source.drop i) (target.drop j)

/-- The table of two streams while the cells in `rest` are still to be filled. -/
structure Stage (rest : List (Nat × Nat)) (t : WordTable) : Prop where
  width_eq : t.width.toNat = target.length + 1
  size_eq : t.cells.size = (source.length + 1) * (target.length + 1)
  exists_cell : ∀ i ≤ source.length, ∀ j ≤ target.length,
    ∃ c, t.cells[LengthTable.index (target.length + 1) i j]? = some c ∧
      c.toNat = lengthAt similar source target rest i j

variable {similar source target} {rest : List (Nat × Nat)} {t : WordTable} {i j : Nat}

theorem lengthAt_le :
    lengthAt similar source target rest i j ≤ min (source.length - i) (target.length - j) := by
  rw [lengthAt]
  split
  · exact Nat.zero_le _
  · have := commonLength_le similar (source.drop i) (target.drop j)
    rwa [List.length_drop, List.length_drop] at this

/-- The value that a cell is filled with, where the cells that it depends on are filled. -/
theorem lengthAt_step (hi : i < source.length) (hj : j < target.length)
    (hrest : ∀ p ∈ rest, p.1 < i ∨ p.1 = i ∧ p.2 < j) :
    lengthAt similar source target rest i j =
      if similar source[i] target[j] then
        lengthAt similar source target ((i, j) :: rest) (i + 1) (j + 1) + 1
      else max (lengthAt similar source target ((i, j) :: rest) (i + 1) j)
        (lengthAt similar source target ((i, j) :: rest) i (j + 1)) := by
  -- what the cell is computed from stands below it or to its right, and is not left to be filled
  have hfilled (a b : Nat) (hab : i < a ∨ i = a ∧ j < b) : (a, b) ∉ (i, j) :: rest := by
    intro hmem
    rcases List.mem_cons.mp hmem with heq | hmem
    · cases heq
      omega
    · have := hrest _ hmem
      simp only at this
      omega
  have hhere : (i, j) ∉ rest := fun hmem => by
    have := hrest _ hmem
    simp only at this
    omega
  rw [lengthAt, if_neg hhere, List.drop_eq_getElem_cons hi, List.drop_eq_getElem_cons hj,
    commonLength_cons_cons, lengthAt, if_neg (hfilled _ _ (by omega)), lengthAt,
    if_neg (hfilled _ _ (by omega)), lengthAt, if_neg (hfilled _ _ (by omega)),
    List.drop_eq_getElem_cons hi, List.drop_eq_getElem_cons hj]

namespace Stage

section Reads

variable (h : Stage similar source target rest t)
  (hfits : (source.length + 1) * (target.length + 1) < UInt64.size)

include h hfits

/-- The place of a cell of the table is a word. -/
theorem exists_place? (hi : i ≤ source.length) (hj : j ≤ target.length) :
    ∃ place, t.place? i j = some place ∧
      place.toNat = LengthTable.index (target.length + 1) i j := by
  have hindex := LengthTable.index_lt (Nat.lt_add_one_of_le hi) (Nat.lt_add_one_of_le hj)
  rw [LengthTable.index] at hindex
  obtain ⟨start, hstart, hrow⟩ := exists_word? (n := i * t.width.toNat)
    (by rw [h.width_eq]; omega)
  obtain ⟨place, hplace, heq⟩ := exists_word? (n := start.toNat + j)
    (by rw [hrow, h.width_eq]; omega)
  refine ⟨place, by rw [place?, hstart]; exact hplace, ?_⟩
  rw [heq, hrow, h.width_eq, LengthTable.index]

theorem exists_here? (hi : i ≤ source.length) (hj : j ≤ target.length) :
    ∃ c, t.here? i j = some c ∧ c.toNat = lengthAt similar source target rest i j := by
  obtain ⟨place, hplace, heq⟩ := h.exists_place? hfits hi hj
  rw [here?, hplace, Option.bind_some, heq]
  exact h.exists_cell i hi j hj

theorem exists_right? (hi : i ≤ source.length) (hj : j < target.length) :
    ∃ c, t.right? i j = some c ∧ c.toNat = lengthAt similar source target rest i (j + 1) := by
  obtain ⟨place, hplace, heq⟩ := h.exists_place? hfits hi (Nat.le_of_lt hj)
  have hindex := LengthTable.index_lt (Nat.lt_add_one_of_le hi) (Nat.add_lt_add_right hj 1)
  have hnext : place.toNat + 1 = LengthTable.index (target.length + 1) i (j + 1) := by
    rw [heq, LengthTable.index, LengthTable.index, Nat.add_assoc]
  obtain ⟨next, hword, heq'⟩ := exists_word? (n := place.toNat + 1) (by omega)
  rw [right?, hplace, Option.bind_some, hword, Option.bind_some, heq', hnext]
  exact h.exists_cell i hi (j + 1) hj

/-- Adding one to a cell does not overflow. -/
theorem exists_longer? (hi : i < source.length) (hj : j < target.length) :
    ∃ c, t.longer? i j = some c ∧
      c.toNat = lengthAt similar source target rest (i + 1) (j + 1) + 1 := by
  obtain ⟨c, hc, heq⟩ := h.exists_right? hfits (i := i + 1) hi hj
  have hle : c.toNat ≤ min (source.length - (i + 1)) (target.length - (j + 1)) :=
    heq ▸ lengthAt_le
  have hmin := min_lt_of_cells hfits
  obtain ⟨d, hd, heq'⟩ := exists_cell? (n := c.toNat + 1) (by omega)
  exact ⟨d, by rw [longer?, hc, Option.bind_some, hd], by rw [heq', heq]⟩

theorem exists_value? (similarHeads : Bool) (hi : i < source.length) (hj : j < target.length) :
    ∃ c, t.value? similarHeads i j = some c ∧ c.toNat =
      if similarHeads then lengthAt similar source target rest (i + 1) (j + 1) + 1
      else max (lengthAt similar source target rest (i + 1) j)
        (lengthAt similar source target rest i (j + 1)) := by
  cases similarHeads with
  | true => exact h.exists_longer? hfits hi hj
  | false =>
    obtain ⟨below, hbelow, heq⟩ := h.exists_here? hfits (i := i + 1) hi (Nat.le_of_lt hj)
    obtain ⟨right, hright, heq'⟩ := h.exists_right? hfits (Nat.le_of_lt hi) hj
    refine ⟨max below right, by rw [value?, hbelow, hright]; rfl, ?_⟩
    rw [UInt32.toNat_max, heq, heq']
    rfl

theorem exists_write? (hi : i ≤ source.length) (hj : j ≤ target.length) (c : UInt32) :
    ∃ t', t.write? i j c = some t' ∧ t'.width = t.width ∧ t'.cells.size = t.cells.size ∧
      ∀ place, t'.cells[place]? =
        if LengthTable.index (target.length + 1) i j = place then some c else t.cells[place]? := by
  obtain ⟨place, hplace, heq⟩ := h.exists_place? hfits hi hj
  have hlt : place.toNat < t.cells.size := by
    rw [heq, h.size_eq]
    exact LengthTable.index_lt (Nat.lt_add_one_of_le hi) (Nat.lt_add_one_of_le hj)
  refine ⟨{ t with cells := t.cells.set place.toNat c }, ?_, rfl, Array.size_set hlt, ?_⟩
  · rw [write?, hplace, Option.bind_some, dif_pos hlt]
  · intro other
    rw [Array.getElem?_set, heq]

end Reads

/-- Filling one cell. The cells that it depends on are filled, and no other cell changes. -/
theorem exists_fillCell? (h : Stage similar source target ((i, j) :: rest) t)
    (hfits : (source.length + 1) * (target.length + 1) < UInt64.size) (hi : i < source.length)
    (hj : j < target.length) (hrest : ∀ p ∈ rest, p.1 < i ∨ p.1 = i ∧ p.2 < j) :
    ∃ t', t.fillCell? similar source target (i, j) = some t' ∧
      Stage similar source target rest t' := by
  obtain ⟨c, hc, heq⟩ := h.exists_value? hfits (similar source[i] target[j]) hi hj
  rw [← lengthAt_step hi hj hrest] at heq
  obtain ⟨t', ht', hwidth, hsize, hcells⟩ :=
    h.exists_write? hfits (Nat.le_of_lt hi) (Nat.le_of_lt hj) c
  refine ⟨t', ?_, hwidth ▸ h.width_eq, hsize.trans h.size_eq, fun a ha b hb => ?_⟩
  · rw [WordTable.fillCell?]
    simp only [List.getElem?_eq_getElem hi, List.getElem?_eq_getElem hj, Option.bind_eq_bind,
      Option.bind_some, hc, ht']
  · -- a cell is told from the others by its place
    rw [hcells]
    split
    · next hplace =>
      obtain ⟨rfl, rfl⟩ := LengthTable.index_inj (Nat.lt_add_one_of_lt hj)
        (Nat.lt_add_one_of_le hb) hplace
      exact ⟨c, rfl, heq⟩
    · next hplace =>
      have hne : (a, b) ≠ (i, j) := by
        intro hsame
        cases hsame
        exact hplace rfl
      have hcell := h.exists_cell a ha b hb
      simpa only [lengthAt, List.mem_cons, hne, false_or] using hcell

/-- Filling any number of cells, each of which comes after those that it depends on. -/
theorem exists_foldlM_fillCell? {cells : List (Nat × Nat)}
    (h : Stage similar source target (cells ++ rest) t)
    (hfits : (source.length + 1) * (target.length + 1) < UInt64.size)
    (hcells : ∀ p ∈ cells, p.1 < source.length ∧ p.2 < target.length)
    (horder : (cells ++ rest).Pairwise fun p q => q.1 < p.1 ∨ q.1 = p.1 ∧ q.2 < p.2) :
    ∃ t', cells.foldlM (WordTable.fillCell? similar source target) t = some t' ∧
      Stage similar source target rest t' := by
  induction cells generalizing t with
  | nil => exact ⟨t, rfl, h⟩
  | cons cell cells ih =>
    obtain ⟨i, j⟩ := cell
    obtain ⟨hfirst, horder⟩ := List.pairwise_cons.mp horder
    obtain ⟨hi, hj⟩ := hcells (i, j) (by simp)
    obtain ⟨t', ht', hstage⟩ := h.exists_fillCell? hfits hi hj hfirst
    obtain ⟨t'', ht'', hstage'⟩ := ih hstage (fun p hp => hcells p (by simp [hp])) horder
    refine ⟨t'', ?_, hstage'⟩
    rw [List.foldlM_cons, ht']
    exact ht''

end Stage

end Stage

/-! ## Filling a table -/

@[simp] theorem mem_fillOrder {height width : Nat} {p : Nat × Nat} :
    p ∈ fillOrder height width ↔ p.1 < height ∧ p.2 < width := by
  obtain ⟨i, j⟩ := p
  simp [fillOrder]

/-- A cell is filled after those below it and to its right. -/
theorem pairwise_fillOrder (height width : Nat) :
    (fillOrder height width).Pairwise fun p q => q.1 < p.1 ∨ q.1 = p.1 ∧ q.2 < p.2 := by
  rw [fillOrder, List.pairwise_flatMap]
  constructor
  · intro i _
    rw [List.pairwise_map, List.pairwise_reverse]
    exact List.pairwise_lt_range.imp fun hlt => .inr ⟨rfl, hlt⟩
  · rw [List.pairwise_reverse]
    refine List.pairwise_lt_range.imp fun hlt p hp q hq => .inl ?_
    obtain ⟨_, -, rfl⟩ := List.mem_map.mp hp
    obtain ⟨_, -, rfl⟩ := List.mem_map.mp hq
    exact hlt

section Fill

variable {α : Type} (similar : α → α → Bool) {source target : List α}
  (hfits : (source.length + 1) * (target.length + 1) < UInt64.size)

include hfits

/-- A table of zeros, with all cells still to be filled. The last row and the last column stand for
an empty suffix. -/
theorem exists_blank? : ∃ t, blank? source target = some t ∧
    Stage similar source target (fillOrder source.length target.length) t := by
  have hheight : source.length + 1 ≤ (source.length + 1) * (target.length + 1) :=
    Nat.le_mul_of_pos_right _ (Nat.succ_pos _)
  have hwidth : target.length + 1 ≤ (source.length + 1) * (target.length + 1) :=
    Nat.le_mul_of_pos_left _ (Nat.succ_pos _)
  obtain ⟨height, hword, -⟩ := exists_word? (n := source.length + 1) (by omega)
  obtain ⟨width, hword', heq⟩ := exists_word? (n := target.length + 1) (by omega)
  refine ⟨⟨width, .replicate (cellCount source.length target.length) 0⟩, ?_, heq, ?_, ?_⟩
  · rw [blank?, hword, hword']
    rfl
  · rw [Array.size_replicate, cellCount_eq hfits]
  · intro i hi j hj
    have hindex := LengthTable.index_lt (Nat.lt_add_one_of_le hi) (Nat.lt_add_one_of_le hj)
    have hzero :
        lengthAt similar source target (fillOrder source.length target.length) i j = 0 := by
      rw [lengthAt]
      split
      · rfl
      · next hborder =>
        rw [mem_fillOrder, not_and_or, Nat.not_lt, Nat.not_lt] at hborder
        rcases hborder with hborder | hborder
        · rw [List.drop_eq_nil_of_le hborder, commonLength_nil_left]
        · rw [List.drop_eq_nil_of_le hborder, commonLength_nil_right]
    refine ⟨0, ?_, hzero.symm⟩
    rw [Array.getElem?_replicate, cellCount_eq hfits, if_pos hindex]

/-- The table after any number of steps. -/
theorem exists_fill? {filled rest : List (Nat × Nat)}
    (h : fillOrder source.length target.length = filled ++ rest) :
    ∃ t, fill? similar source target filled = some t ∧ Stage similar source target rest t := by
  obtain ⟨t, ht, hstage⟩ := exists_blank? similar hfits
  rw [h] at hstage
  have horder := pairwise_fillOrder source.length target.length
  rw [h] at horder
  have hcells (p : Nat × Nat) (hp : p ∈ filled) : p.1 < source.length ∧ p.2 < target.length := by
    rw [← mem_fillOrder, h]
    exact List.mem_append_left _ hp
  obtain ⟨t', ht', hstage'⟩ := hstage.exists_foldlM_fillCell? hfits hcells horder
  exact ⟨t', by rw [fill?, ht, Option.bind_some, ht'], hstage'⟩

end Fill

/-! ## The alignment of a table -/

/-- What a cell is filled with is what the table of lengths says. -/
theorem lengthAt_eq {α : Type} (similar : α → α → Bool) {source target : List α}
    (rest : List (Nat × Nat)) {i j : Nat} (hi : i ≤ source.length) (hj : j ≤ target.length) :
    lengthAt similar source target rest i j =
      if (i, j) ∈ rest then 0 else (LengthTable.make similar source target).get i j := by
  rw [lengthAt, LengthTable.get_make similar source target hi hj]

theorem lengthAt_nil {α : Type} (similar : α → α → Bool) {source target : List α} {i j : Nat}
    (hi : i ≤ source.length) (hj : j ≤ target.length) :
    lengthAt similar source target [] i j = (LengthTable.make similar source target).get i j := by
  rw [lengthAt_eq similar [] hi hj, if_neg List.not_mem_nil]

namespace Stage

variable {similar : Token → Token → Bool} {source target : List Token} {t : WordTable} {i j : Nat}

section Align

variable (h : Stage similar source target [] t)
  (hfits : (source.length + 1) * (target.length + 1) < UInt64.size)

include h hfits

theorem keeps?_eq (similarHeads : Bool) (hi : i < source.length) (hj : j < target.length) :
    t.keeps? similarHeads i j = some (similarHeads &&
      (LengthTable.make similar source target).get i j ==
        (LengthTable.make similar source target).get (i + 1) (j + 1) + 1) := by
  cases similarHeads with
  | false => rfl
  | true =>
    obtain ⟨here, hhere, heq⟩ := h.exists_here? hfits (Nat.le_of_lt hi) (Nat.le_of_lt hj)
    obtain ⟨longer, hlonger, heq'⟩ := h.exists_longer? hfits hi hj
    rw [lengthAt_nil similar (Nat.le_of_lt hi) (Nat.le_of_lt hj)] at heq
    rw [lengthAt_nil similar hi hj] at heq'
    rw [keeps?, hhere, hlonger, ← heq, ← heq']
    simp [Bool.beq_eq_decide_eq, ← UInt32.toNat_inj]

theorem goesDown?_eq (hi : i < source.length) (hj : j < target.length) :
    t.goesDown? i j = some (decide ((LengthTable.make similar source target).get i (j + 1) ≤
      (LengthTable.make similar source target).get (i + 1) j)) := by
  obtain ⟨below, hbelow, heq⟩ := h.exists_here? hfits (i := i + 1) hi (Nat.le_of_lt hj)
  obtain ⟨right, hright, heq'⟩ := h.exists_right? hfits (Nat.le_of_lt hi) hj
  rw [lengthAt_nil similar hi (Nat.le_of_lt hj)] at heq
  rw [lengthAt_nil similar (Nat.le_of_lt hi) hj] at heq'
  rw [goesDown?, hbelow, hright, ← heq, ← heq']
  simp [UInt32.le_iff_toNat_le]

/-- From a filled table, the alignment of suffixes is read off without leaving the table. -/
theorem alignFrom?_eq {ss rs : List Token} (hi : i + ss.length = source.length)
    (hj : j + rs.length = target.length) :
    t.alignFrom? similar i j ss rs =
      some (alignFrom similar (.make similar source target) i j ss rs) := by
  generalize htable : LengthTable.make similar source target = table
  fun_induction alignFrom similar table i j ss rs with
  | case1 i j s ss r rs hkeep ih =>
    rw [List.length_cons] at hi hj
    rw [WordTable.alignFrom?, h.keeps?_eq hfits _ (by omega) (by omega), htable, Option.bind_some,
      if_pos hkeep, ih (by omega) (by omega), Option.map_some]
  | case2 i j s ss r rs hkeep hle ih =>
    rw [List.length_cons] at hi hj
    rw [WordTable.alignFrom?, h.keeps?_eq hfits _ (by omega) (by omega), htable, Option.bind_some,
      if_neg hkeep, h.goesDown?_eq hfits (by omega) (by omega), htable, Option.bind_some,
      if_pos (decide_eq_true hle), ih (by omega) (by simpa using hj), Option.map_some]
  | case3 i j s ss r rs hkeep hle ih =>
    rw [List.length_cons] at hi hj
    rw [WordTable.alignFrom?, h.keeps?_eq hfits _ (by omega) (by omega), htable, Option.bind_some,
      if_neg hkeep, h.goesDown?_eq hfits (by omega) (by omega), htable, Option.bind_some,
      if_neg (by simpa using hle), ih (by simpa using hi) (by omega), Option.map_some]
  | case4 i j ss => rw [WordTable.alignFrom?]
  | case5 i j rs hne =>
    rw [WordTable.alignFrom?]
    exact hne

end Align

end Stage

end WordTable

/-- In words, the alignment is the same. -/
theorem alignInWords?_eq {budget : UInt64} (similar : Token → Token → Bool)
    {source target : List Token}
    (h : (source.length + 1) * (target.length + 1) ≤ budget.toNat) :
    alignInWords? budget similar source target =
      some (align budget.toNat similar source target) := by
  have hfits := h.trans_lt budget.toNat_lt_size
  obtain ⟨t, ht, hstage⟩ := WordTable.exists_fill? similar hfits (List.append_nil _).symm
  rw [alignInWords?, if_neg (by rw [cellCount_eq hfits]; omega), ht, Option.bind_some,
    hstage.alignFrom?_eq hfits (Nat.zero_add _) (Nat.zero_add _), align_of_le similar h]

theorem LengthTable.size_make {α : Type} (similar : α → α → Bool) (source target : List α) :
    (make similar source target).cells.size = (source.length + 1) * (target.length + 1) := by
  simp [make, rows_eq, List.length_flatten, Function.comp_def, List.map_const']

/-- If the exact number of cells is within a 64-bit `budget`, the places that are read and written
lie in the table. At every stage of the filling, a cell holds zero or its final value, which is at
most the length of the shorter suffix of `source` and `target` and can be increased without
overflow. What is computed in words is the alignment. -/
theorem word_table_safe (budget : UInt64) (similar : Token → Token → Bool)
    (source target : List Token)
    (h : (source.length + 1) * (target.length + 1) ≤ budget.toNat) :
    (∀ i < source.length, ∀ j < target.length,
      ∀ place ∈ [i * (target.length + 1) + j, (i + 1) * (target.length + 1) + j,
        i * (target.length + 1) + j + 1, (i + 1) * (target.length + 1) + j + 1],
        place < (LengthTable.make similar source target).cells.size) ∧
    (∀ filled rest, WordTable.fillOrder source.length target.length = filled ++ rest →
      ∃ t, WordTable.fill? similar source target filled = some t ∧
        t.cells.size = (LengthTable.make similar source target).cells.size ∧
        ∀ i ≤ source.length, ∀ j ≤ target.length, ∃ c, t.here? i j = some c ∧
          c.toNat = (if (i, j) ∈ rest then 0
            else (LengthTable.make similar source target).get i j) ∧
          c.toNat ≤ min (source.length - i) (target.length - j) ∧
          c.toNat + 1 < UInt32.size) ∧
    alignInWords? budget similar source target =
      some (align budget.toNat similar source target) := by
  have hfits := h.trans_lt budget.toNat_lt_size
  refine ⟨fun i hi j hj => ?_, fun filled rest horder => ?_, alignInWords?_eq similar h⟩
  · have hlast := LengthTable.index_lt (Nat.add_lt_add_right hi 1) (Nat.add_lt_add_right hj 1)
    have hrow : i * (target.length + 1) ≤ (i + 1) * (target.length + 1) :=
      Nat.mul_le_mul_right _ (Nat.le_succ i)
    rw [LengthTable.index] at hlast
    rw [LengthTable.size_make]
    simp only [List.mem_cons, List.not_mem_nil, or_false]
    omega
  · obtain ⟨t, ht, hstage⟩ := WordTable.exists_fill? similar hfits horder
    refine ⟨t, ht, by rw [hstage.size_eq, LengthTable.size_make], fun i hi j hj => ?_⟩
    obtain ⟨c, hc, heq⟩ := hstage.exists_here? hfits hi hj
    have hle : c.toNat ≤ min (source.length - i) (target.length - j) :=
      heq ▸ WordTable.lengthAt_le
    have hmin := min_lt_of_cells hfits
    exact ⟨c, hc, heq.trans (WordTable.lengthAt_eq similar rest hi hj), hle, by omega⟩

/-- Two streams of three and four names, with the least budget for them. -/
theorem word_table_safe_names :
    let names (l : List String) : List Token := l.map (Token.make .identifier · none)
    let source := names ["a", "b", "c"]
    let target := names ["a", "x", "c", "d"]
    (source.length + 1) * (target.length + 1) ≤ (20 : UInt64).toNat ∧
      (∃ t c, WordTable.fill? (· == ·) source target (WordTable.fillOrder 3 4) = some t ∧
        t.here? 0 0 = some c ∧ c.toNat = 2) ∧
      alignInWords? 20 (· == ·) source target = some (align 20 (· == ·) source target) := by
  intro names source target
  have hbudget : (source.length + 1) * (target.length + 1) ≤ (20 : UInt64).toNat := by decide
  obtain ⟨-, hstages, halign⟩ := word_table_safe 20 (· == ·) source target hbudget
  obtain ⟨t, ht, -, hcells⟩ := hstages _ [] (List.append_nil _).symm
  obtain ⟨c, hc, heq, -⟩ := hcells 0 (Nat.zero_le _) 0 (Nat.zero_le _)
  exact ⟨hbudget, ⟨t, c, ht, hc, heq.trans (by decide)⟩, halign⟩

end CodeAtlas
