import CodeAtlas.Project.Path
import Mathlib.Data.List.Chain

/-!
# Normalized paths

No two slashes of a normalized path stand in a row, so a part of it that starts with a slash does
not follow a slash. Of two absolute paths in normal form none is the end of the other behind a
slash.

One `./` is dropped from the front of a path, and no more. A path that starts with several of them
is not in its last form after it was normalized once.

## Main definitions

* `Path.heres`: how often `./` stands at the front of a path.
* `Path.IsTail`: a path is another one without some of its first components.

## Main statements

* `Path.isChain_normalize`: no two slashes stand in a row.
* `Path.normalize_normalize_iff`: which paths are in their last form after one round.
* `Path.isAbsolute_normalize`: the normal form of an absolute path is absolute.
* `Path.not_isTail_of_isAbsolute`: absolute paths are no ends of other paths.
-/
namespace CodeAtlas.Path

variable {cs : List Char} {a b path : String}

/-- Not both of `c` and `d` are slashes. -/
def Spaced (c d : Char) : Prop :=
  ¬ (c = '/' ∧ d = '/')

@[simp] theorem hasSlashPair_eq_false_iff : hasSlashPair cs = false ↔ cs.IsChain Spaced := by
  fun_induction hasSlashPair cs with
  | case1 cs => simp [Spaced]
  | case2 c cs hpair ih =>
    rw [ih]
    cases cs with
    | nil => simp
    | cons d cs =>
      have hspaced : Spaced c d := fun h => hpair cs h.1 (by rw [h.2])
      simp [hspaced]
  | case3 => simp

/-- The loop ends when no two slashes stand in a row. -/
theorem isChain_collapseSlashes (cs : List Char) : (collapseSlashes cs).IsChain Spaced := by
  fun_induction collapseSlashes cs with
  | case1 cs hpair ih => exact ih
  | case2 cs hpair => exact hasSlashPair_eq_false_iff.mp (by simpa using hpair)

/-- No two slashes of a normalized path stand in a row. -/
theorem isChain_normalize (path : String) : (normalize path).toList.IsChain Spaced := by
  have hchain := isChain_collapseSlashes (path.toList.map fun c => if c = '\\' then '/' else c)
  simp only [normalize, String.toList_ofList, normalizeChars]
  unfold dropHere
  split
  · next heq =>
    rw [heq] at hchain
    exact hchain.tail.tail
  · exact hchain

/-- No two slashes of a normalized path stand in a row. -/
theorem slashes_not_isInfix_normalize (path : String) :
    ¬ ['/', '/'] <:+: (normalize path).toList := by
  rintro ⟨front, back, heq⟩
  have hchain := isChain_normalize path
  rw [← heq, List.append_assoc] at hchain
  have hslashes : Spaced '/' '/' := (List.isChain_cons_cons.mp hchain.right_of_append).1
  exact hslashes ⟨rfl, rfl⟩

@[simp] theorem collapseSlashes_eq_self (h : cs.IsChain Spaced) : collapseSlashes cs = cs := by
  rw [collapseSlashes, dif_neg (by simp [hasSlashPair_eq_false_iff.mpr h])]

@[grind →] theorem mem_of_mem_mergeSlashPairs {c : Char} (h : c ∈ mergeSlashPairs cs) : c ∈ cs := by
  fun_induction mergeSlashPairs cs <;> grind

@[grind →] theorem mem_of_mem_collapseSlashes {c : Char} (h : c ∈ collapseSlashes cs) : c ∈ cs := by
  fun_induction collapseSlashes cs with
  | case1 cs hpair ih => exact mem_of_mem_mergeSlashPairs (ih h)
  | case2 cs hpair => exact h

@[simp] theorem head?_mergeSlashPairs (cs : List Char) : (mergeSlashPairs cs).head? = cs.head? := by
  fun_cases mergeSlashPairs cs <;> rfl

/-- The first character stays the same. -/
@[simp] theorem head?_collapseSlashes (cs : List Char) : (collapseSlashes cs).head? = cs.head? := by
  fun_induction collapseSlashes cs with
  | case1 cs hpair ih => rw [ih, head?_mergeSlashPairs]
  | case2 cs hpair => rfl

/-- A normalized path has no backslash. -/
theorem backslash_not_mem_normalize (path : String) : '\\' ∉ (normalize path).toList := by
  intro hmem
  rw [normalize, String.toList_ofList, normalizeChars] at hmem
  have hmem : '\\' ∈ path.toList.map fun c => if c = '\\' then '/' else c := by
    apply mem_of_mem_collapseSlashes
    unfold dropHere at hmem
    split at hmem
    · next heq =>
      rw [heq]
      exact List.mem_cons_of_mem _ (List.mem_cons_of_mem _ hmem)
    · exact hmem
  obtain ⟨c, -, hc⟩ := List.mem_map.mp hmem
  split at hc
  · exact absurd hc (by decide)
  · contradiction

/-! ## Normalizing again -/

/-- The characters of the path `cs` with slashes only, no two of them in a row. -/
def cleanSlashes (cs : List Char) : List Char :=
  collapseSlashes (cs.map fun c => if c = '\\' then '/' else c)

theorem toList_normalize (path : String) :
    (normalize path).toList = dropHere (cleanSlashes path.toList) :=
  String.toList_ofList

/-- The slashes of a normalized path stay as they are. -/
@[simp] theorem cleanSlashes_normalize (path : String) :
    cleanSlashes (normalize path).toList = (normalize path).toList := by
  have hslashes : (normalize path).toList.map (fun c => if c = '\\' then '/' else c) =
      (normalize path).toList := by
    conv_rhs => rw [← List.map_id (normalize path).toList]
    refine List.map_congr_left fun c hc => if_neg ?_
    rintro rfl
    exact backslash_not_mem_normalize path hc
  rw [cleanSlashes, hslashes, collapseSlashes_eq_self (isChain_normalize path)]

/-- How often `./` stands at the front. -/
def leadingHeres : List Char → Nat
  | '.' :: '/' :: cs => leadingHeres cs + 1
  | _ => 0

/-- How often `./` stands at the front of a path, if it is written with slashes only and no two of
them stand in a row. -/
def heres (path : String) : Nat :=
  leadingHeres (cleanSlashes path.toList)

theorem isPrefix_iff_leadingHeres_pos : ['.', '/'] <+: cs ↔ 0 < leadingHeres cs := by
  constructor
  · rintro ⟨rest, rfl⟩
    exact Nat.succ_pos _
  · intro h
    unfold leadingHeres at h
    split at h
    · exact ⟨_, rfl⟩
    · exact absurd h (Nat.lt_irrefl 0)

/-- Either there is a `./` at the front, which is dropped, or nothing is. -/
theorem dropHere_cases (cs : List Char) :
    (∃ rest, cs = '.' :: '/' :: rest ∧ dropHere cs = rest) ∨
      leadingHeres cs = 0 ∧ dropHere cs = cs := by
  unfold dropHere
  split
  · next rest => exact .inl ⟨rest, rfl, rfl⟩
  · next hcs =>
    refine .inr ⟨Nat.eq_zero_of_not_pos fun hpos => ?_, rfl⟩
    obtain ⟨rest, rfl⟩ := isPrefix_iff_leadingHeres_pos.mpr hpos
    exact hcs rest rfl

@[simp] theorem leadingHeres_dropHere (cs : List Char) :
    leadingHeres (dropHere cs) = leadingHeres cs - 1 := by
  rcases dropHere_cases cs with ⟨rest, rfl, hdrop⟩ | ⟨hzero, hdrop⟩
  · rw [hdrop, leadingHeres, Nat.add_sub_cancel]
  · rw [hdrop, hzero]

@[simp] theorem dropHere_eq_self_iff : dropHere cs = cs ↔ leadingHeres cs = 0 := by
  rcases dropHere_cases cs with ⟨rest, rfl, hdrop⟩ | ⟨hzero, hdrop⟩
  · refine iff_of_false (fun heq => ?_) (Nat.succ_ne_zero _)
    have := congrArg List.length (hdrop.symm.trans heq)
    simp only [List.length_cons] at this
    omega
  · exact iff_of_true hdrop hzero

@[simp] theorem leadingHeres_normalize (path : String) :
    leadingHeres (normalize path).toList = heres path - 1 := by
  rw [toList_normalize, leadingHeres_dropHere, heres]

/-- Normalizing drops one `./` from the front. -/
@[simp] theorem heres_normalize (path : String) : heres (normalize path) = heres path - 1 := by
  rw [heres, cleanSlashes_normalize, leadingHeres_normalize]

/-- A normalized path starts with `./` if the path starts with more than one. -/
theorem here_isPrefix_normalize_iff :
    ['.', '/'] <+: (normalize path).toList ↔ 1 < heres path := by
  rw [isPrefix_iff_leadingHeres_pos, leadingHeres_normalize]
  omega

/-- Normalizing again changes nothing if and only if the path starts with at most one `./`. -/
theorem normalize_normalize_iff : normalize (normalize path) = normalize path ↔ heres path ≤ 1 := by
  rw [← String.toList_inj, toList_normalize (normalize path), cleanSlashes_normalize,
    dropHere_eq_self_iff, leadingHeres_normalize]
  omega

/-! ## Absolute paths -/

/-- The normal form of an absolute path is absolute. -/
@[simp]
theorem isAbsolute_normalize (h : isAbsolute path = true) : isAbsolute (normalize path) = true := by
  obtain ⟨rest, hrest⟩ : ∃ rest, path.toList = '/' :: rest :=
    List.head?_eq_some_iff.mp (by simpa [isAbsolute] using h)
  have hcollapse (cs : List Char) : ∃ rest, collapseSlashes ('/' :: cs) = '/' :: rest :=
    List.head?_eq_some_iff.mp (head?_collapseSlashes _)
  obtain ⟨rest', hrest'⟩ := hcollapse (rest.map fun c => if c = '\\' then '/' else c)
  simp [isAbsolute, normalize, normalizeChars, hrest, hrest', dropHere]

/-- The path `a` is `b` without some of its first components. -/
def IsTail (a b : String) : Prop :=
  ∃ front, b = front ++ "/" ++ a

@[grind →] theorem IsTail.ne (h : IsTail a b) : b ≠ a := by
  obtain ⟨front, rfl⟩ := h
  intro heq
  have hlength := congrArg String.length heq
  simp only [String.length_append] at hlength
  have : "/".length = 1 := rfl
  omega

/-- An absolute path is not what follows a slash of a normalized path. -/
theorem not_isTail_of_isAbsolute (h : isAbsolute a = true) : ¬ IsTail a (normalize path) := by
  rintro ⟨front, heq⟩
  obtain ⟨rest, hrest⟩ : ∃ rest, a.toList = '/' :: rest :=
    List.head?_eq_some_iff.mp (by simpa [isAbsolute] using h)
  have hchain := isChain_normalize path
  have hchars : (front ++ "/" ++ a).toList = front.toList ++ '/' :: '/' :: rest := by
    simp [hrest]
  rw [heq, hchars] at hchain
  have hslashes : Spaced '/' '/' := (List.isChain_cons_cons.mp hchain.right_of_append).1
  exact hslashes ⟨rfl, rfl⟩

end CodeAtlas.Path
