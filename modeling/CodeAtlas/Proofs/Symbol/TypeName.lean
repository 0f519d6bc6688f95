import CodeAtlas.Symbol.TypeName
import Mathlib.Data.List.TakeWhile

/-!
# Plain type references

A reference that is a dotted name and nothing else loses nothing when its names are cut out of it:
it is its own dotted name, and its simple name is what follows the last dot.

## Main definitions

* `TypeName.Plain`: a text that a reference is not cut or cleaned of anything.

## Main statements

* `TypeName.qualified_of_plain`, `TypeName.simple_append`: the names of a plain reference.
-/
namespace CodeAtlas.TypeName

variable {cs name outer : List Char} {s : String}

/-- The character `c` neither ends a name in a reference nor is left out of it. -/
def isPlainChar (c : Char) : Bool :=
  !Text.isBlank c && !(['<', '>', '?', '*', '[', ']', ':'].contains c)

/-- A text without white space, brackets, `?`, `*` and colons. -/
def Plain (s : String) : Prop :=
  ∀ c ∈ s.toList, isPlainChar c = true

instance (s : String) : Decidable (Plain s) :=
  List.decidableBAll (isPlainChar · = true) s.toList

theorem isPlainChar_iff {c : Char} : isPlainChar c = true ↔ Text.isBlank c = false ∧ c ≠ '<' ∧
    c ≠ '>' ∧ c ≠ '?' ∧ c ≠ '*' ∧ c ≠ '[' ∧ c ≠ ']' ∧ c ≠ ':' := by
  simp [isPlainChar]

@[simp] theorem afterAlias?_eq_none (h : ':' ∉ cs) : afterAlias? cs = none := by
  induction cs with
  | nil => rfl
  | cons c cs ih =>
    rw [afterAlias?, ih fun hmem => h (List.mem_cons_of_mem _ hmem)]
    grind

@[simp] theorem dropAlias_eq_self (h : ':' ∉ cs) : dropAlias cs = cs := by
  simp [dropAlias, afterAlias?_eq_none h]

@[simp] theorem dropAlias_of_plain (h : ∀ c ∈ cs, isPlainChar c = true) : dropAlias cs = cs := by
  refine dropAlias_eq_self fun hmem => ?_
  have := isPlainChar_iff.mp (h _ hmem)
  simp at this

@[simp] theorem dropArguments_of_plain (h : ∀ c ∈ cs, isPlainChar c = true) :
    dropArguments 0 cs = cs := by
  induction cs with
  | nil => rfl
  | cons c cs ih =>
    obtain ⟨hc, hcs⟩ := List.forall_mem_cons.mp h
    have := isPlainChar_iff.mp hc
    unfold dropArguments
    grind

/-- A plain reference is its own dotted name. -/
@[simp] theorem qualified_of_plain (h : Plain s) : qualified s = s := by
  rw [qualified, dropArguments_of_plain h, dropAlias_of_plain h, String.ofList_toList]

@[simp] theorem trimEndWhile_of_forall {p : Char → Bool} (h : ∀ c ∈ cs, p c = false) :
    Text.trimEndWhile p cs = cs := by
  have hdrop : cs.reverse.dropWhile p = cs.reverse := by
    cases hrev : cs.reverse with
    | nil => rfl
    | cons c rest =>
      have hc : c ∈ cs := List.mem_reverse.mp (hrev ▸ List.mem_cons_self)
      simp [h c hc]
  simp [Text.trimEndWhile, hdrop]

@[simp]
theorem trimChars_of_forall (h : ∀ c ∈ cs, Text.isBlank c = false) : Text.trimChars cs = cs := by
  have hdrop : cs.dropWhile Text.isBlank = cs := by
    cases cs with
    | nil => rfl
    | cons c cs => simp [h c List.mem_cons_self]
  rw [Text.trimChars, hdrop, trimEndWhile_of_forall h]

/-- A plain reference loses nothing but its segments in front of the last one. -/
theorem simpleChars_of_plain (h : ∀ c ∈ cs, isPlainChar c = true) :
    simpleChars cs = lastSegment cs := by
  have hplain (c : Char) (hc : c ∈ cs) := isPlainChar_iff.mp (h c hc)
  have hangle : cs.takeWhile (· != '<') = cs := by
    refine List.takeWhile_eq_self_iff.mpr fun c hc => ?_
    simpa using (hplain c hc).2.1
  have hbracket : cs.takeWhile (· != '[') = cs := by
    refine List.takeWhile_eq_self_iff.mpr fun c hc => ?_
    simpa using (hplain c hc).2.2.2.2.2.1
  have hmarks : Text.trimEndWhile isSuffixMark cs = cs := by
    refine trimEndWhile_of_forall fun c hc => ?_
    have := hplain c hc
    simp [isSuffixMark]
    grind
  have hlast : ∀ c ∈ lastSegment cs, Text.isBlank c = false := by
    intro c hc
    refine (hplain c ?_).1
    exact List.mem_reverse.mp (List.takeWhile_subset _ (List.mem_reverse.mp hc))
  rw [simpleChars, trimChars_of_forall fun c hc => (hplain c hc).1, dropAlias_of_plain h, hangle,
    hmarks, hbracket, trimChars_of_forall hlast]

@[simp]
theorem lastSegment_append (h : '.' ∉ name) : lastSegment (outer ++ '.' :: name) = name := by
  have hname : ∀ c ∈ name.reverse, (c != '.') = true := by
    intro c hc
    simpa using ne_of_mem_of_not_mem (List.mem_reverse.mp hc) h
  simp [lastSegment, List.takeWhile_append_of_pos hname]

/-- The simple name of a plain reference follows its last dot. -/
theorem simple_append {outer name : String} (h : Plain (outer ++ "." ++ name))
    (hname : '.' ∉ name.toList) : simple (outer ++ "." ++ name) = name := by
  rw [simple, simpleChars_of_plain h]
  have hchars : (outer ++ "." ++ name).toList = outer.toList ++ '.' :: name.toList := by simp
  rw [hchars, lastSegment_append hname, String.ofList_toList]

end CodeAtlas.TypeName
