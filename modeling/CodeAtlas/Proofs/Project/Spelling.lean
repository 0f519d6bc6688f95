import CodeAtlas.Proofs.Project.Path

/-!
# Spellings of a path

A path below a root can be spelled in several ways. From the root it is seen without the dots and
empty parts at its ends, and its normal form leaves out the empty parts between others, too. So a
plain path, the same path behind a dot and the same path behind the root are all seen as the plain
path.

## Main definitions

* `Path.Plain`: all parts of the path are steps, and it has no backslash.
* `Path.Spells`: a plain path, as it is or behind a dot or behind the root.
* `Path.seenFrom`: the normal form of a path as it is seen from a root.

## Main statements

* `Path.splitSlash_append`: the parts of two paths with a slash between them.
* `Path.relativeTo_join`: how a path is seen from the root that it lies below.
* `Path.Plain.normalize_eq`: a plain path is in normal form.
* `Path.Plain.seenFrom_eq`: the spellings of a plain path are seen alike.
-/
namespace CodeAtlas.Path

variable {cs : List Char} {root path first : String} {ps more : List String}

/-! ## Parts -/

theorem splitSlash_ne_nil (cs : List Char) : splitSlash cs ≠ [] := by
  unfold splitSlash
  split
  · simp
  · simp
  · split <;> simp

/-- A character other than a slash belongs to the first part. -/
theorem splitSlash_cons {c : Char} (hc : c ≠ '/') {part : List Char} {parts : List (List Char)}
    (h : splitSlash cs = part :: parts) : splitSlash (c :: cs) = (c :: part) :: parts := by
  rw [splitSlash, h]
  exact hc

/-- The parts of two paths with a slash between them. -/
@[simp] theorem splitSlash_append (l r : List Char) :
    splitSlash (l ++ '/' :: r) = splitSlash l ++ splitSlash r := by
  induction l with
  | nil => rfl
  | cons c l ih =>
    by_cases hc : c = '/'
    · subst hc
      rw [List.cons_append, splitSlash, splitSlash, ih, List.cons_append]
    · obtain ⟨part, parts, hl⟩ := List.exists_cons_of_ne_nil (splitSlash_ne_nil l)
      rw [hl, List.cons_append] at ih
      rw [List.cons_append, splitSlash_cons hc ih, splitSlash_cons hc hl, List.cons_append]

@[simp]
theorem intercalate_splitSlash (cs : List Char) : ['/'].intercalate (splitSlash cs) = cs := by
  induction cs with
  | nil => rfl
  | cons c cs ih =>
    obtain ⟨part, parts, hcs⟩ := List.exists_cons_of_ne_nil (splitSlash_ne_nil cs)
    rw [hcs] at ih
    by_cases hc : c = '/'
    · subst hc
      rw [splitSlash, hcs, List.intercalate_cons_cons, ih]
      rfl
    · rw [splitSlash_cons hc hcs]
      cases parts with
      | nil => simpa using ih
      | cons next parts =>
        rw [List.intercalate_cons_cons] at ih ⊢
        rw [List.cons_append, List.cons_append, ih]

@[simp] theorem parts_append (l r : String) : parts (l ++ "/" ++ r) = parts l ++ parts r := by
  have hchars : (l ++ "/" ++ r).toList = l.toList ++ '/' :: r.toList := by simp
  rw [parts, hchars, splitSlash_append, List.map_append, parts, parts]

theorem parts_ne_nil (path : String) : parts path ≠ [] := by
  simpa [parts] using splitSlash_ne_nil path.toList

/-- The parts of a path, joined again. -/
@[simp] theorem intercalate_parts (path : String) : "/".intercalate (parts path) = path := by
  have hchars : (parts path).map String.toList = splitSlash path.toList := by
    rw [parts, List.map_map]
    exact (List.map_congr_left fun part _ => String.toList_ofList).trans (List.map_id _)
  rw [← String.toList_inj, String.toList_intercalate, hchars]
  exact intercalate_splitSlash path.toList

/-! ## Components -/

/-- The first component is the root of the file system or the first part, and the others are
steps. -/
theorem components_eq (hne : path ≠ "") (hparts : parts path = first :: more) :
    components path = (if isAbsolute path then "/" else first) :: more.filter isStep := by
  rw [components, hparts]
  dsimp only
  split
  · rfl
  · next habsolute =>
    -- only an empty path or one that starts with a slash has an empty first part
    have hfirst : first.isEmpty = false := by
      obtain ⟨c, cs, hpath⟩ := List.exists_cons_of_ne_nil (l := path.toList) (by simpa using hne)
      have hc : c ≠ '/' := by
        rintro rfl
        exact habsolute (by simp [isAbsolute, hpath])
      obtain ⟨part, parts, hcs⟩ := List.exists_cons_of_ne_nil (splitSlash_ne_nil cs)
      rw [Path.parts, hpath, splitSlash_cons hc hcs, List.map_cons, List.cons.injEq] at hparts
      rw [← hparts.1]
      simp
    rw [if_neg (by simp [hfirst])]

@[simp] theorem isAbsolute_append {l : String} (h : l ≠ "") (r : String) :
    isAbsolute (l ++ r) = isAbsolute l := by
  obtain ⟨c, cs, hl⟩ := List.exists_cons_of_ne_nil (l := l.toList) (by simpa using h)
  simp [isAbsolute, hl]

/-- The parts of a path below a root: those of the root, at most without an empty one at the end,
and those of the path. -/
theorem parts_join (hroot : root ≠ "") (hpath : isAbsolute path = false)
    (hparts : parts root = first :: more) : isAbsolute (join root path) = isAbsolute root ∧
      ∃ front, parts (join root path) = first :: (front ++ parts path) ∧
        front.filter isStep = more.filter isStep := by
  have hempty : root.isEmpty = false := by simpa [String.isEmpty_iff] using hroot
  rw [join, hpath, hempty, Bool.or_false, if_neg Bool.false_ne_true]
  split
  · next hslash =>
    obtain ⟨cs, hcs⟩ := List.getLast?_eq_some_iff.mp (beq_iff_eq.mp hslash)
    have hl : root = String.ofList cs ++ "/" := by
      rw [← String.toList_inj, hcs]
      simp
    obtain ⟨first', more', hmore⟩ := List.exists_cons_of_ne_nil (parts_ne_nil (String.ofList cs))
    refine ⟨isAbsolute_append hroot path, more', ?_⟩
    have hroot' := parts_append (String.ofList cs) ""
    rw [String.append_empty, ← hl, hparts, hmore, List.cons_append, List.cons.injEq] at hroot'
    obtain ⟨rfl, rfl⟩ := hroot'
    refine ⟨?_, ?_⟩
    · rw [hl, parts_append, hmore, List.cons_append]
    · rw [List.filter_append]
      exact (List.append_nil _).symm
  · refine ⟨?_, more, ?_, rfl⟩
    · rw [String.append_assoc]
      exact isAbsolute_append hroot _
    · rw [parts_append, hparts, List.cons_append]

/-! ## Below a root -/

/-- Behind the steps of the first parts, the others are left, up to what is no step. -/
theorem dropWhile_dropSteps (front ps : List String) :
    (dropSteps (front.filter isStep).length (front ++ ps)).dropWhile (!isStep ·) =
      ps.dropWhile (!isStep ·) := by
  induction front with
  | nil => rw [List.filter_nil, List.length_nil, List.nil_append, dropSteps]
  | cons part front ih =>
    by_cases hstep : isStep part = true
    · rw [List.filter_cons_of_pos hstep, List.length_cons, List.cons_append, dropSteps,
        if_pos hstep, ih]
    · rw [List.filter_cons_of_neg hstep, List.cons_append]
      cases hlength : (front.filter isStep).length with
      | zero =>
        rw [hlength, dropSteps] at ih
        rw [dropSteps, List.dropWhile_cons_of_pos (by simpa using hstep), ih]
      | succ n =>
        rw [hlength] at ih
        rw [dropSteps, if_neg hstep, ih]

/-- From the root it lies below, a path is seen without what is no step at its ends. -/
theorem relativeTo_join (hroot : root ≠ "") (hpath : isAbsolute path = false) :
    relativeTo root (join root path) = "/".intercalate (trimSteps (parts path)) := by
  obtain ⟨first, more, hparts⟩ : ∃ first more, parts root = first :: more :=
    List.exists_cons_of_ne_nil (parts_ne_nil root)
  obtain ⟨habsolute, front, hjoin, hfront⟩ := parts_join hroot hpath hparts
  have hne : join root path ≠ "" := by
    intro hempty
    rw [hempty] at hjoin
    have hnil : [] = front ++ parts path := (List.cons.inj hjoin).2
    exact parts_ne_nil path (List.append_eq_nil_iff.mp hnil.symm).2
  have hbase := components_eq hroot hparts
  have hcomponents : components (join root path) =
      components root ++ (parts path).filter isStep := by
    rw [components_eq hne hjoin, habsolute, hbase, List.filter_append, hfront, List.cons_append]
  have hleads : (components root).isPrefixOf (components (join root path)) = true := by
    rw [hcomponents]
    exact List.isPrefixOf_iff_prefix.mpr (List.prefix_append _ _)
  rw [relativeTo, relativeTo?]
  simp only [hleads, Bool.not_true, Bool.false_eq_true, if_false]
  rw [if_neg (by simp [hbase]), Option.getD_some, hjoin, hbase, List.tail_cons, List.length_cons,
    Nat.add_sub_cancel, ← hfront, trimSteps, dropWhile_dropSteps, trimSteps]

/-! ## Plain paths -/

/-- All parts of `path` are steps, and it has no backslash. -/
def Plain (path : String) : Prop :=
  (parts path).all isStep = true ∧ '\\' ∉ path.toList

instance (path : String) : Decidable (Plain path) :=
  inferInstanceAs (Decidable (_ ∧ _))

/-- Where no part behind the first one is empty, no two slashes stand in a row. -/
theorem isChain_of_splitSlash {part : List Char} {parts : List (List Char)}
    (h : splitSlash cs = part :: parts) (hparts : ∀ p ∈ parts, p ≠ []) : cs.IsChain Spaced := by
  induction cs generalizing part parts with
  | nil => exact .nil
  | cons c cs ih =>
    obtain ⟨next, rest, hcs⟩ := List.exists_cons_of_ne_nil (splitSlash_ne_nil cs)
    by_cases hc : c = '/'
    · subst hc
      rw [splitSlash, hcs, List.cons.injEq] at h
      obtain ⟨-, rfl⟩ := h
      have hchain := ih hcs fun p hp => hparts p (List.mem_cons_of_mem _ hp)
      cases cs with
      | nil => exact .singleton _
      | cons d cs =>
        refine List.isChain_cons_cons.mpr ⟨?_, hchain⟩
        rintro ⟨-, rfl⟩
        rw [splitSlash, List.cons.injEq] at hcs
        exact hparts next List.mem_cons_self hcs.1.symm
    · rw [splitSlash_cons hc hcs, List.cons.injEq] at h
      obtain ⟨-, rfl⟩ := h
      have hchain := ih hcs hparts
      cases cs with
      | nil => exact .singleton _
      | cons d cs => exact List.isChain_cons_cons.mpr ⟨fun hslashes => hc hslashes.1, hchain⟩

@[simp] theorem trimSteps_eq_self (h : ∀ part ∈ ps, isStep part = true) : trimSteps ps = ps := by
  have hkeeps (qs : List String) (hqs : ∀ part ∈ qs, isStep part = true) :
      qs.dropWhile (!isStep ·) = qs := by
    cases qs with
    | nil => rfl
    | cons part qs =>
      rw [List.dropWhile_cons_of_neg]
      simp [hqs part List.mem_cons_self]
  rw [trimSteps, hkeeps ps h, dropEnd,
    hkeeps _ fun part hpart => h part (List.mem_reverse.mp hpart), List.reverse_reverse]

namespace Plain

/-- The first part of a plain path is a step. -/
theorem isStep_of_splitSlash (h : Plain path) {part : List Char} {parts : List (List Char)}
    (hparts : splitSlash path.toList = part :: parts) : isStep (String.ofList part) = true := by
  refine List.all_eq_true.mp h.1 _ ?_
  rw [Path.parts, hparts]
  exact List.mem_cons_self

@[simp] theorem isAbsolute_eq (h : Plain path) : isAbsolute path = false := by
  refine Bool.eq_false_iff.mpr fun habsolute => ?_
  obtain ⟨rest, hrest⟩ : ∃ rest, path.toList = '/' :: rest :=
    List.head?_eq_some_iff.mp (by simpa [isAbsolute] using habsolute)
  exact absurd (h.isStep_of_splitSlash (by rw [hrest, splitSlash])) (by decide)

/-- A plain path is in normal form. -/
@[simp] theorem normalize_eq (h : Plain path) : normalize path = path := by
  obtain ⟨part, parts, hparts⟩ := List.exists_cons_of_ne_nil (splitSlash_ne_nil path.toList)
  have hchain : path.toList.IsChain Spaced := by
    refine isChain_of_splitSlash hparts fun p hp hempty => ?_
    have hstep : isStep (String.ofList p) = true := by
      refine List.all_eq_true.mp h.1 _ ?_
      rw [Path.parts, hparts]
      exact List.mem_cons_of_mem _ (List.mem_map_of_mem hp)
    rw [hempty] at hstep
    exact absurd hstep (by decide)
  have hslashes : path.toList.map (fun c => if c = '\\' then '/' else c) = path.toList := by
    conv_rhs => rw [← List.map_id path.toList]
    refine List.map_congr_left fun c hc => if_neg ?_
    rintro rfl
    exact h.2 hc
  have hheres : leadingHeres path.toList = 0 := by
    refine Nat.eq_zero_of_not_pos fun hpos => ?_
    obtain ⟨rest, hrest⟩ := isPrefix_iff_leadingHeres_pos.mpr hpos
    have hdot : splitSlash path.toList = ['.'] :: splitSlash rest := by
      rw [← hrest]
      exact splitSlash_append ['.'] rest
    exact absurd (h.isStep_of_splitSlash hdot) (by decide)
  rw [← String.toList_inj, toList_normalize, cleanSlashes, hslashes, collapseSlashes_eq_self hchain,
    dropHere_eq_self_iff.mpr hheres]

end Plain

/-- The normal form of `path` as it is seen from `root`. -/
def seenFrom (root path : String) : String :=
  normalize (relativeTo root (join root path))

/-- The `spelling` is `path` as it is or behind a dot, or behind a `root` that is absolute. -/
def Spells (root spelling path : String) : Prop :=
  spelling = path ∨ spelling = "./" ++ path ∨ isAbsolute root = true ∧ spelling = join root path

/-- All spellings of a plain path are seen as the plain path. -/
theorem Plain.seenFrom_eq {spelling : String} (h : Plain path) (hroot : root ≠ "")
    (hspells : Spells root spelling path) : seenFrom root spelling = path := by
  have htrim : trimSteps (parts path) = parts path := trimSteps_eq_self (List.all_eq_true.mp h.1)
  have hseen : seenFrom root path = path := by
    rw [seenFrom, relativeTo_join hroot h.isAbsolute_eq, htrim, intercalate_parts, h.normalize_eq]
  rcases hspells with rfl | rfl | ⟨habsolute, rfl⟩
  · exact hseen
  · have hdot : parts ("./" ++ path) = "." :: parts path := parts_append "." path
    have hrelative : isAbsolute ("./" ++ path) = false := by simp [isAbsolute]
    have hstep : trimSteps ("." :: parts path) = trimSteps (parts path) := by
      rw [trimSteps, List.dropWhile_cons_of_pos (by decide), trimSteps]
    rw [seenFrom, relativeTo_join hroot hrelative, hdot, hstep, htrim, intercalate_parts,
      h.normalize_eq]
  · obtain ⟨first, more, hparts⟩ := List.exists_cons_of_ne_nil (parts_ne_nil root)
    have hjoin : isAbsolute (join root path) = true :=
      (parts_join hroot h.isAbsolute_eq hparts).1.trans habsolute
    have hagain : join root (join root path) = join root path := by
      conv_lhs => rw [join, hjoin, Bool.true_or, if_pos rfl]
    rw [seenFrom, hagain]
    exact hseen

end CodeAtlas.Path
