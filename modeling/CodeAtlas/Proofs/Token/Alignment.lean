import CodeAtlas.Output.Encoding
import CodeAtlas.Proofs.Token.Matching
import Mathlib.Order.Bounds.Basic

/-!
# Alignments are faithful and optimal

An alignment of two streams accounts for every token of both, once and in order. Whatever a table
says, the alignment that is read off it is faithful in this sense. The table of the two streams
makes it optimal: no matching of similar tokens that keeps their order has more pairs. Similarity
can be any relation. Matching the first tokens wherever they are similar loses nothing: a matching
that does not pair them uses at most one of them, and their pair can take the place of that one's.

## Main definitions

* `IsAlignment`: lists of changes that account for two streams.
* `editCount`: the number of insertions and removals in a list of changes.
* `LengthTable.Holds`: tables that hold the right lengths from a cell on.

## Main statements

* `isAlignment_align`: within the budget, the alignment of two streams accounts for both.
* `countP_isUnchanged_alignFrom`: it keeps as many tokens as the table of the streams says.
* `IsAlignment.matching`: the kept tokens of an alignment are a matching.
-/
namespace CodeAtlas

/-! ## Alignments -/

/-- The `changes` account for the streams `source` and `target`: they have each of their tokens, in
order, and keep only `similar` tokens. -/
structure IsAlignment (similar : Token → Token → Bool) (source target : List Token)
    (changes : List Change) : Prop where
  sources : changes.filterMap Change.source? = source
  targets : changes.filterMap Change.target? = target
  similar_of_unchanged : ∀ s t, Change.unchanged s t ∈ changes → similar s t = true
  not_replaced : ∀ n m, Change.replaced n m ∉ changes

namespace IsAlignment

variable {similar : Token → Token → Bool} {source target : List Token} {changes : List Change}

theorem unchanged {s t : Token} (h : IsAlignment similar source target changes)
    (hst : similar s t = true) :
    IsAlignment similar (s :: source) (t :: target) (.unchanged s t :: changes) where
  sources := by simp [Change.source?, h.sources]
  targets := by simp [Change.target?, h.targets]
  similar_of_unchanged := by
    intro s' t' hmem
    rcases List.mem_cons.mp hmem with heq | hmem
    · cases heq
      exact hst
    · exact h.similar_of_unchanged s' t' hmem
  not_replaced := by simpa using h.not_replaced

theorem removed (s : Token) (h : IsAlignment similar source target changes) :
    IsAlignment similar (s :: source) target (.removed s :: changes) where
  sources := by simp [Change.source?, h.sources]
  targets := by simp [List.filterMap_cons, Change.target?, h.targets]
  similar_of_unchanged := by simpa using h.similar_of_unchanged
  not_replaced := by simpa using h.not_replaced

theorem inserted (t : Token) (h : IsAlignment similar source target changes) :
    IsAlignment similar source (t :: target) (.inserted t :: changes) where
  sources := by simp [List.filterMap_cons, Change.source?, h.sources]
  targets := by simp [Change.target?, h.targets]
  similar_of_unchanged := by simpa using h.similar_of_unchanged
  not_replaced := by simpa using h.not_replaced

theorem nil (similar : Token → Token → Bool) : IsAlignment similar [] [] [] :=
  ⟨rfl, rfl, by simp, by simp⟩

theorem map_removed (similar : Token → Token → Bool) (source : List Token) :
    IsAlignment similar source [] (source.map .removed) := by
  induction source with
  | nil => exact nil similar
  | cons s source ih => exact ih.removed s

theorem map_inserted (similar : Token → Token → Bool) (target : List Token) :
    IsAlignment similar [] target (target.map .inserted) := by
  induction target with
  | nil => exact nil similar
  | cons t target ih => exact ih.inserted t

end IsAlignment

/-- Reading an alignment off loses no token and adds none, whatever the table holds. -/
theorem isAlignment_alignFrom (similar : Token → Token → Bool) (table : LengthTable) (i j : Nat)
    (source target : List Token) :
    IsAlignment similar source target (alignFrom similar table i j source target) := by
  fun_induction alignFrom similar table i j source target with
  | case1 i j s source t target h ih => exact ih.unchanged (by simp at h; exact h.1)
  | case2 i j s source t target _ _ ih => exact ih.removed s
  | case3 i j s source t target _ _ ih => exact ih.inserted t
  | case4 i j source => exact .map_removed similar source
  | case5 i j target => exact .map_inserted similar target

theorem cellCount_le (source target : Nat) :
    cellCount source target ≤ (source + 1) * (target + 1) :=
  Nat.min_le_left _ _

theorem align_of_le {budget : Nat} (similar : Token → Token → Bool) {source target : List Token}
    (h : (source.length + 1) * (target.length + 1) ≤ budget) :
    align budget similar source target =
      alignFrom similar (.make similar source target) 0 0 source target := by
  have := (cellCount_le source.length target.length).trans h
  rw [align, if_neg (by omega)]

theorem isAlignment_align {budget : Nat} (similar : Token → Token → Bool)
    {source target : List Token} (h : (source.length + 1) * (target.length + 1) ≤ budget) :
    IsAlignment similar source target (align budget similar source target) := by
  rw [align_of_le similar h]
  exact isAlignment_alignFrom ..

/-- Within the `budget`, the alignment accounts for the streams `source` and `target`. Over it, the
only record says how long the streams are and that they are too large. No number of cells exceeds
the largest word, so a budget of that size is no bound. -/
theorem align_faithful (budget : Nat) (similar : Token → Token → Bool)
    (source target : List Token) :
    ((source.length + 1) * (target.length + 1) ≤ budget →
      IsAlignment similar source target (align budget similar source target)) ∧
    (budget < (source.length + 1) * (target.length + 1) → budget < UInt64.size - 1 →
      align budget similar source target = [.replaced source.length target.length] ∧
      (align budget similar source target).map Change.toJson =
        [.object [("change", .string "modified"), ("source_count", .number source.length),
          ("target_count", .number target.length), ("too_large", .boolean true)]]) := by
  refine ⟨isAlignment_align similar, fun h hword => ?_⟩
  have hcells : budget < cellCount source.length target.length := by
    rw [cellCount, Nat.lt_min]
    exact ⟨h, hword⟩
  have halign : align budget similar source target = [.replaced source.length target.length] := by
    rw [align, if_pos hcells]
  exact ⟨halign, by rw [halign]; rfl⟩

/-- Two streams of three and four names, and a budget that is one cell short for them. -/
theorem align_faithful_names :
    let names (l : List String) : List Token := l.map (Token.make .identifier · none)
    let source := names ["a", "b", "c"]
    let target := names ["a", "x", "c", "d"]
    IsAlignment (· == ·) source target (align 20 (· == ·) source target) ∧
      align 19 (· == ·) source target = [.replaced 3 4] :=
  ⟨(align_faithful 20 (· == ·) _ _).1 (by decide),
    ((align_faithful 19 (· == ·) _ _).2 (by decide) (by decide)).1⟩

/-! ## Counting changes -/

/-- The number of insertions and removals among the `changes`. -/
def editCount (changes : List Change) : Nat :=
  changes.countP fun
    | .inserted _ => true
    | .removed _ => true
    | _ => false

/-- A kept token stands for one token of each stream, any other for one token of one stream. -/
theorem length_add_length_eq (changes : List Change) :
    (changes.filterMap Change.source?).length + (changes.filterMap Change.target?).length =
      editCount changes + 2 * changes.countP Change.isUnchanged := by
  induction changes with
  | nil => rfl
  | cons c changes ih =>
    cases c <;>
      simp [List.filterMap_cons, List.countP_cons, editCount, Change.source?, Change.target?,
        Change.isUnchanged] at ih ⊢ <;> omega

/-- The kept tokens of both sides are subsequences that are similar token by token. -/
theorem exists_sublist_of_unchanged {similar : Token → Token → Bool} (changes : List Change)
    (h : ∀ s t, Change.unchanged s t ∈ changes → similar s t = true) :
    ∃ a b : List Token, a.Sublist (changes.filterMap Change.source?) ∧
      b.Sublist (changes.filterMap Change.target?) ∧
      List.Forall₂ (fun s t => similar s t = true) a b ∧
      a.length = changes.countP Change.isUnchanged := by
  induction changes with
  | nil => exact ⟨[], [], by simp, by simp, .nil, rfl⟩
  | cons c changes ih =>
    obtain ⟨a, b, ha, hb, hab, hlen⟩ := ih fun s t hmem => h s t (List.mem_cons_of_mem c hmem)
    cases c with
    | unchanged s t =>
      have hst := h s t (by simp)
      exact ⟨s :: a, t :: b, by simpa [Change.source?] using ha,
        by simpa [Change.target?] using hb, .cons hst hab,
        by simp [List.countP_cons, Change.isUnchanged, hlen]⟩
    | inserted t =>
      exact ⟨a, b, by simpa [List.filterMap_cons, Change.source?] using ha,
        by simpa [Change.target?] using hb.cons t, hab, by simpa [Change.isUnchanged] using hlen⟩
    | removed s =>
      exact ⟨a, b, by simpa [Change.source?] using ha.cons s,
        by simpa [List.filterMap_cons, Change.target?] using hb, hab,
        by simpa [Change.isUnchanged] using hlen⟩
    | replaced n m =>
      exact ⟨a, b, by simpa [List.filterMap_cons, Change.source?] using ha,
        by simpa [List.filterMap_cons, Change.target?] using hb, hab,
        by simpa [Change.isUnchanged] using hlen⟩

namespace IsAlignment

variable {similar : Token → Token → Bool} {source target : List Token} {changes : List Change}

theorem matching (h : IsAlignment similar source target changes) :
    Matching similar source target (changes.countP Change.isUnchanged) := by
  have := exists_sublist_of_unchanged changes h.similar_of_unchanged
  rw [h.sources, h.targets] at this
  exact matching_iff_sublist.mpr this

theorem length_add_length (h : IsAlignment similar source target changes) :
    source.length + target.length = editCount changes + 2 * changes.countP Change.isUnchanged := by
  have := length_add_length_eq changes
  rwa [h.sources, h.targets] at this

end IsAlignment

/-! ## The alignment of a table -/

/-- From the cell `i`, `j` on, the table holds the lengths for the suffixes of two streams. -/
def LengthTable.Holds (table : LengthTable) (similar : Token → Token → Bool) (i j : Nat)
    (source target : List Token) : Prop :=
  ∀ a ≤ source.length, ∀ b ≤ target.length,
    table.get (i + a) (j + b) = commonLength similar (source.drop a) (target.drop b)

namespace LengthTable.Holds

variable {table : LengthTable} {similar : Token → Token → Bool} {i j : Nat} {s t : Token}
  {source target : List Token}

theorem below (h : table.Holds similar i j (s :: source) target) :
    table.Holds similar (i + 1) j source target := by
  intro a ha b hb
  have := h (a + 1) (by simpa using ha) b hb
  rwa [← Nat.add_assoc, Nat.add_right_comm, List.drop_succ_cons] at this

theorem right (h : table.Holds similar i j source (t :: target)) :
    table.Holds similar i (j + 1) source target := by
  intro a ha b hb
  have := h a ha (b + 1) (by simpa using hb)
  rwa [← Nat.add_assoc j, Nat.add_right_comm j, List.drop_succ_cons] at this

theorem get_eq (h : table.Holds similar i j source target) :
    table.get i j = commonLength similar source target := by
  simpa using h 0 (Nat.zero_le _) 0 (Nat.zero_le _)

/-- In a table with the right lengths, similar heads always pass the test for a kept token. -/
theorem test_eq_similar (h : table.Holds similar i j (s :: source) (t :: target)) :
    (similar s t && table.get i j == table.get (i + 1) (j + 1) + 1) = similar s t := by
  cases hst : similar s t with
  | false => rfl
  | true => simp [h.get_eq, h.below.right.get_eq, commonLength_cons_cons, hst]

end LengthTable.Holds

/-- The alignment that is read off a table with the right lengths keeps that many tokens. -/
theorem countP_isUnchanged_alignFrom {similar : Token → Token → Bool} {table : LengthTable}
    {i j : Nat} {source target : List Token} (h : table.Holds similar i j source target) :
    (alignFrom similar table i j source target).countP Change.isUnchanged =
      commonLength similar source target := by
  fun_induction alignFrom similar table i j source target with
  | case1 i j s source t target hkeep ih =>
    rw [h.test_eq_similar] at hkeep
    simp [List.countP_cons, Change.isUnchanged, ih h.below.right, commonLength_cons_cons, hkeep]
  | case2 i j s source t target hkeep hle ih =>
    rw [h.test_eq_similar] at hkeep
    rw [h.right.get_eq, h.below.get_eq] at hle
    simp [Change.isUnchanged, ih h.below, commonLength_cons_cons, hkeep, hle]
  | case3 i j s source t target hkeep hle ih =>
    rw [h.test_eq_similar] at hkeep
    rw [h.right.get_eq, h.below.get_eq] at hle
    simp [Change.isUnchanged, ih h.right, commonLength_cons_cons, hkeep, Nat.le_of_not_le hle]
  | case4 i j source => simp [List.countP_map, Function.comp_def, Change.isUnchanged]
  | case5 i j target => simp [List.countP_map, Function.comp_def, Change.isUnchanged]

theorem LengthTable.holds_make (similar : Token → Token → Bool) (source target : List Token) :
    (make similar source target).Holds similar 0 0 source target := by
  intro a ha b hb
  rw [Nat.zero_add, Nat.zero_add, get_make similar source target ha hb]

/-- Within the `budget`, the number of kept tokens is the largest number of pairs of a matching of
`source` and `target`. So no alignment of the streams has fewer insertions and removals. -/
theorem align_optimal (budget : Nat) (similar : Token → Token → Bool) (source target : List Token)
    (h : (source.length + 1) * (target.length + 1) ≤ budget) :
    IsGreatest { k | Matching similar source target k }
      ((align budget similar source target).countP Change.isUnchanged) ∧
    ∀ changes, IsAlignment similar source target changes →
      editCount (align budget similar source target) ≤ editCount changes := by
  have hcount : (align budget similar source target).countP Change.isUnchanged =
      commonLength similar source target := by
    rw [align_of_le similar h]
    exact countP_isUnchanged_alignFrom (LengthTable.holds_make similar source target)
  have halign := isAlignment_align similar h
  refine ⟨⟨halign.matching, fun k hk => hcount ▸ hk.le_commonLength⟩, fun changes hchanges => ?_⟩
  have hle := hchanges.matching.le_commonLength
  have := halign.length_add_length
  have := hchanges.length_add_length
  omega

/-- Names of neighbouring lengths are similar here, which is not transitive. -/
theorem align_optimal_names :
    let near (a b : Token) : Bool := a.text.length ≤ b.text.length + 1 &&
      b.text.length ≤ a.text.length + 1
    let names (l : List String) : List Token := l.map (Token.make .identifier · none)
    let source := names ["a", "bbb", "cc"]
    let target := names ["xx", "y", "zzzz"]
    (source.length + 1) * (target.length + 1) ≤ 16 ∧
      IsGreatest { k | Matching near source target k }
        ((align 16 near source target).countP Change.isUnchanged) :=
  ⟨by decide, (align_optimal 16 _ _ _ (by decide)).1⟩

end CodeAtlas
