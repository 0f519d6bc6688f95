import CodeAtlas.Context
import Mathlib.Data.List.Induction
import Mathlib.Data.List.Nodup
import Mathlib.Data.List.Perm.Basic

/-!
# The items of a selection by file

A selection is read item by item. An item goes to the group of its path, and the place of the group
is looked up in a table; the first item of a path opens a new group behind the others. After each
item the groups are those of the items read so far: their paths in the order in which they first
appear, each with its items in the order of the selection.

## Main definitions

* `SelectedItem.Names`: the path of a file in the text of an item.
* `Grouping.Reads`: the groups of the items that are read.

## Main statements

* `SelectedItem.filePath_eq_iff`: the path of an item is what stands before its first `::`.
* `Grouping.Reads.add`: what one item changes.
* `itemsByFile_eq`: the groups of a selection.
* `itemsByFile_partition`: no item is lost, and those of a file stay in order.
-/
namespace CodeAtlas

/-! ## The path of an item -/

/-- Two colons stand in a row in `cs`. -/
def HasColons (cs : List Char) : Prop :=
  [':', ':'] <:+: cs

theorem hasColons_cons {c : Char} {cs : List Char} :
    HasColons (c :: cs) ↔ (c = ':' ∧ cs.head? = some ':') ∨ HasColons cs := by
  rw [HasColons, List.infix_cons_iff, List.cons_prefix_cons, eq_comm]
  cases cs with
  | nil => simp [HasColons]
  | cons d cs =>
    rw [List.cons_prefix_cons]
    simp [HasColons, eq_comm]

theorem splitAtColons_cons (c : Char) (cs : List Char) : splitAtColons (c :: cs) =
    if c = ':' ∧ cs.head? = some ':' then some ([], cs.tail)
    else (splitAtColons cs).map fun parts => (c :: parts.1, parts.2) := by
  split
  · next h =>
    obtain ⟨rfl, hhead⟩ := h
    obtain ⟨rest, rfl⟩ := List.head?_eq_some_iff.mp hhead
    rfl
  · next h =>
    rw [splitAtColons]
    rintro rest rfl rfl
    exact h ⟨rfl, rfl⟩

@[simp]
theorem splitAtColons_eq_none_iff {cs : List Char} : splitAtColons cs = none ↔ ¬ HasColons cs := by
  induction cs with
  | nil => simp [splitAtColons, HasColons]
  | cons c cs ih =>
    rw [splitAtColons_cons, hasColons_cons, not_or, ← ih]
    split <;> simp_all

/-- The first of two colons behind a text decides whether the text and a colon have two in a row. -/
theorem hasColons_cons_append {c : Char} {front : List Char} (back : List Char) :
    HasColons (c :: front ++ [':']) ↔
      (c = ':' ∧ (front ++ ':' :: ':' :: back).head? = some ':') ∨ HasColons (front ++ [':']) := by
  rw [List.cons_append, hasColons_cons]
  cases front <;> simp

@[simp] theorem splitAtColons_append {front : List Char} (back : List Char)
    (h : ¬ HasColons (front ++ [':'])) :
    splitAtColons (front ++ ':' :: ':' :: back) = some (front, back) := by
  induction front with
  | nil => rfl
  | cons c front ih =>
    rw [hasColons_cons_append back, not_or] at h
    rw [List.cons_append, splitAtColons_cons, if_neg h.1, ih h.2]
    rfl

/-- A text is split at its first two colons. -/
theorem eq_append_of_splitAtColons {cs front back : List Char}
    (h : splitAtColons cs = some (front, back)) :
    cs = front ++ ':' :: ':' :: back ∧ ¬ HasColons (front ++ [':']) := by
  induction cs generalizing front with
  | nil => cases h
  | cons c cs ih =>
    rw [splitAtColons_cons] at h
    split at h
    · next hcolons =>
      obtain ⟨rfl, hhead⟩ := hcolons
      obtain ⟨rest, rfl⟩ := List.head?_eq_some_iff.mp hhead
      cases h
      exact ⟨rfl, by simp [HasColons, List.infix_cons_iff]⟩
    · next hcolons =>
      obtain ⟨⟨front, back⟩, hsplit, heq⟩ := Option.map_eq_some_iff.mp h
      cases heq
      obtain ⟨rfl, hfront⟩ := ih hsplit
      refine ⟨rfl, ?_⟩
      rw [hasColons_cons_append back, not_or]
      exact ⟨hcolons, hfront⟩

namespace SelectedItem

/-- The text of the item is the path, or begins with it and its first `::` follows. -/
def Names (item : SelectedItem) (path : String) : Prop :=
  (item.path = path ∧ ¬ HasColons path.toList) ∨
    ∃ id, item.path = path ++ "::" ++ id ∧ ¬ HasColons (path ++ ":").toList

/-- The path of an item is what stands before its first `::`. -/
theorem filePath_eq_iff {item : SelectedItem} {path : String} :
    item.filePath = path ↔ item.Names path := by
  rw [filePath, Names]
  constructor
  · rintro rfl
    split
    · next front back h =>
      obtain ⟨hpath, hfront⟩ := eq_append_of_splitAtColons h
      refine .inr ⟨String.ofList back, ?_, by simpa using hfront⟩
      rw [← String.toList_inj, hpath]
      simp
    · next h => exact .inl ⟨rfl, splitAtColons_eq_none_iff.mp h⟩
  · rintro (⟨rfl, hcolons⟩ | ⟨id, hpath, hcolons⟩)
    · rw [splitAtColons_eq_none_iff.mpr hcolons]
    · have hsplit := splitAtColons_append id.toList (by simpa using hcolons)
      have hlist : item.path.toList = path.toList ++ ':' :: ':' :: id.toList := by simp [hpath]
      rw [hlist, hsplit]
      simp

end SelectedItem

/-! ## First appearances -/

theorem eraseDups_concat {α : Type} [BEq α] [LawfulBEq α] (xs : List α) (x : α) :
    (xs ++ [x]).eraseDups = if x ∈ xs then xs.eraseDups else xs.eraseDups ++ [x] := by
  rw [List.eraseDups_append]
  split <;> simp_all [List.removeAll, List.eraseDups_cons]

theorem nodup_eraseDups {α : Type} [BEq α] [LawfulBEq α] (xs : List α) : xs.eraseDups.Nodup := by
  induction xs using List.reverseRecOn with
  | nil => simp
  | append_singleton xs x ih =>
    rw [eraseDups_concat]
    split
    · exact ih
    · next hx =>
      refine List.nodup_append.mpr ⟨ih, by simp, fun a ha b hb heq => hx ?_⟩
      rw [← List.mem_singleton.mp hb, ← heq]
      exact List.mem_eraseDups.mp ha

/-- The elements of a list without repetitions stand in the order in which they first appear. -/
theorem pairwise_idxOf_eraseDups {α : Type} [BEq α] [LawfulBEq α] (xs : List α) :
    xs.eraseDups.Pairwise fun a b => xs.idxOf a < xs.idxOf b := by
  induction xs using List.reverseRecOn with
  | nil => simp
  | append_singleton xs x ih =>
    have hold : xs.eraseDups.Pairwise fun a b => (xs ++ [x]).idxOf a < (xs ++ [x]).idxOf b := by
      refine ih.imp_of_mem fun ha hb hab => ?_
      rwa [List.idxOf_append_of_mem (List.mem_eraseDups.mp ha),
        List.idxOf_append_of_mem (List.mem_eraseDups.mp hb)]
    rw [eraseDups_concat]
    split
    · exact hold
    · next hx =>
      refine List.pairwise_append.mpr ⟨hold, by simp, fun a ha b hb => ?_⟩
      obtain rfl := List.mem_singleton.mp hb
      have ha := List.mem_eraseDups.mp ha
      rw [List.idxOf_append_of_mem ha, List.idxOf_append_of_notMem hx]
      exact Nat.lt_add_right _ (List.idxOf_lt_length_of_mem ha)

theorem idxOf?_concat {α : Type} [BEq α] (xs : List α) (x a : α) :
    (xs ++ [x]).idxOf? a = (xs.idxOf? a).or (if x == a then some xs.length else none) := by
  show (xs ++ [x]).findIdx? (· == a) = (xs.findIdx? (· == a)).or _
  rw [List.findIdx?_append, List.findIdx?_singleton]
  split <;> simp

/-! ## Reading a selection -/

/-- Changing the entry of one of several different keys. -/
theorem modify_map_of_idxOf? {α β : Type} [BEq α] [LawfulBEq α] {keys : List α}
    (hnodup : keys.Nodup) {key : α} {place : Nat} (hplace : keys.idxOf? key = some place)
    {change : β → β} {f g : α → β} (hkey : change (f key) = g key)
    (hrest : ∀ k, k ≠ key → f k = g k) :
    (keys.map f).modify place change = keys.map g := by
  obtain ⟨hlt, rfl, -⟩ := List.idxOf?_eq_some_iff.mp hplace
  refine List.ext_getElem (by simp) fun l h h' => ?_
  rw [List.getElem_modify, List.getElem_map, List.getElem_map]
  split
  · next heq =>
    subst heq
    exact hkey
  · next hne =>
    exact hrest _ fun heq => hne ((hnodup.getElem_inj_iff).mp heq).symm

namespace Grouping

/-- The groups of `g` are those of the `selection`, and each path is found at its place among
them. -/
structure Reads (g : Grouping) (selection : List SelectedItem) : Prop where
  groups : g.groups.toList = (selection.map (·.filePath)).eraseDups.map fun path =>
    (path, selection.filter (·.filePath == path))
  places : ∀ path, g.places[path]? = (selection.map (·.filePath)).eraseDups.idxOf? path

variable {g : Grouping} {selection : List SelectedItem} {item : SelectedItem}

/-- An item of a known path goes to the end of its group. -/
theorem Reads.add_known (h : g.Reads selection) {place : Nat}
    (hplace : g.places[item.filePath]? = some place) :
    (g.add item).Reads (selection ++ [item]) := by
  have hkeys := h.places item.filePath ▸ hplace
  have hmem : item.filePath ∈ selection.map (·.filePath) := by
    rw [← List.mem_eraseDups, ← List.isSome_idxOf?, hkeys, Option.isSome_some]
  have hpaths : ((selection ++ [item]).map (·.filePath)).eraseDups =
      (selection.map (·.filePath)).eraseDups := by
    rw [List.map_append, List.map_singleton, eraseDups_concat, if_pos hmem]
  rw [add, hplace]
  refine ⟨?_, fun path => by rw [hpaths]; exact h.places path⟩
  rw [Array.toList_modify, h.groups, hpaths]
  refine modify_map_of_idxOf? (nodup_eraseDups _) hkeys ?_ fun path hne => ?_
  · simp
  · simp [hne.symm]

/-- An item of a new path opens a group. -/
theorem Reads.add_new (h : g.Reads selection) (hplace : g.places[item.filePath]? = none) :
    (g.add item).Reads (selection ++ [item]) := by
  have hkeys := h.places item.filePath ▸ hplace
  have hmem : item.filePath ∉ selection.map (·.filePath) := by
    rwa [List.idxOf?_eq_none_iff, List.mem_eraseDups] at hkeys
  have hpaths : ((selection ++ [item]).map (·.filePath)).eraseDups =
      (selection.map (·.filePath)).eraseDups ++ [item.filePath] := by
    rw [List.map_append, List.map_singleton, eraseDups_concat, if_neg hmem]
  have hsize : g.groups.size = (selection.map (·.filePath)).eraseDups.length := by
    rw [← Array.length_toList, h.groups, List.length_map]
  rw [add, hplace]
  constructor
  · rw [Array.toList_push, h.groups, hpaths, List.map_append]
    congr 1
    · refine List.map_congr_left fun path hpath => ?_
      have hne : item.filePath ≠ path := fun heq => hmem (heq ▸ List.mem_eraseDups.mp hpath)
      simp [hne]
    · have hnone : selection.filter (·.filePath == item.filePath) = [] := by
        refine List.filter_eq_nil_iff.mpr fun other hother heq => hmem ?_
        exact beq_iff_eq.mp heq ▸ List.mem_map_of_mem hother
      simp [hnone]
  · intro path
    rw [hpaths, Std.TreeMap.getElem?_insert, h.places, hsize, idxOf?_concat]
    by_cases hpath : item.filePath = path
    · subst hpath
      simp [hkeys]
    · simp [hpath]

theorem Reads.add (h : g.Reads selection) : (g.add item).Reads (selection ++ [item]) := by
  cases hplace : g.places[item.filePath]? with
  | none => exact h.add_new hplace
  | some place => exact h.add_known hplace

theorem reads_foldl (selection : List SelectedItem) :
    (selection.foldl Grouping.add {}).Reads selection := by
  induction selection using List.reverseRecOn with
  | nil => exact ⟨rfl, fun path => by simp⟩
  | append_singleton selection item ih =>
    rw [List.foldl_append]
    exact ih.add

end Grouping

/-- The groups of a selection. -/
theorem itemsByFile_eq (selection : List SelectedItem) : itemsByFile selection =
    (selection.map (·.filePath)).eraseDups.map fun path =>
      (path, selection.filter (·.filePath == path)) :=
  (Grouping.reads_foldl selection).groups

/-- Sorting the elements of a list into groups by their keys only changes their order. -/
theorem flatMap_filter_perm {α β : Type} [BEq β] [LawfulBEq β] (key : α → β) {keys : List β}
    (hnodup : keys.Nodup) {xs : List α} (hkeys : ∀ x ∈ xs, key x ∈ keys) :
    (keys.flatMap fun k => xs.filter (key · == k)).Perm xs := by
  induction keys generalizing xs with
  | nil =>
    have : xs = [] := List.eq_nil_iff_forall_not_mem.mpr fun x hx => by simpa using hkeys x hx
    simp [this]
  | cons k keys ih =>
    obtain ⟨hk, hnodup⟩ := List.nodup_cons.mp hnodup
    -- the other groups take nothing from the elements of the first key
    have hothers : (keys.flatMap fun k' => xs.filter (key · == k')) =
        keys.flatMap fun k' => (xs.filter fun x => !key x == k).filter (key · == k') := by
      refine List.flatMap_congr fun k' hk' => ?_
      rw [List.filter_filter]
      refine List.filter_congr fun x _ => ?_
      by_cases hx : key x = k'
      · have : key x ≠ k := fun heq => hk (heq ▸ hx ▸ hk')
        simp [hx, hx ▸ this]
      · simp [hx]
    have hrest : ∀ x ∈ xs.filter (fun x => !key x == k), key x ∈ keys := by
      intro x hx
      obtain ⟨hx, hne⟩ := List.mem_filter.mp hx
      exact (List.mem_cons.mp (hkeys x hx)).resolve_left (by simpa using hne)
    rw [List.flatMap_cons, hothers]
    exact ((ih hnodup hrest).append_left _).trans (List.filter_append_perm (key · == k) xs)

/-- The place of the first item of the file at `path` in a `selection`. -/
def firstAt (selection : List SelectedItem) (path : String) : Nat :=
  selection.findIdx (·.filePath == path)

theorem idxOf_map_filePath (selection : List SelectedItem) (path : String) :
    (selection.map (·.filePath)).idxOf path = firstAt selection path := by
  show (selection.map (·.filePath)).findIdx (· == path) = _
  rw [List.findIdx_map]
  rfl

/-- The groups of a `selection` have different paths, in the order in which these first appear, and
there is one for the path of each item. A group holds the items of its path, which are those that
name it, in the order of the selection. Together the groups hold the items of the selection. -/
theorem itemsByFile_partition (selection : List SelectedItem) :
    ((itemsByFile selection).map (·.1)).Nodup ∧
    ((itemsByFile selection).Pairwise fun a b => firstAt selection a.1 < firstAt selection b.1) ∧
    (∀ path, path ∈ (itemsByFile selection).map (·.1) ↔ ∃ item ∈ selection, item.filePath = path) ∧
    (∀ group ∈ itemsByFile selection, group.2 = selection.filter (·.filePath == group.1) ∧
      ∀ item, item ∈ group.2 ↔ item ∈ selection ∧ item.Names group.1) ∧
    ((itemsByFile selection).flatMap (·.2)).Perm selection := by
  have hpaths : (itemsByFile selection).map (·.1) = (selection.map (·.filePath)).eraseDups := by
    simp [itemsByFile_eq, Function.comp_def]
  refine ⟨?_, ?_, fun path => ?_, fun group hgroup => ?_, ?_⟩
  · rw [hpaths]
    exact nodup_eraseDups _
  · have hfirst := pairwise_idxOf_eraseDups (selection.map SelectedItem.filePath)
    rw [← hpaths, List.pairwise_map] at hfirst
    simpa only [idxOf_map_filePath] using hfirst
  · rw [hpaths, List.mem_eraseDups, List.mem_map]
  · rw [itemsByFile_eq] at hgroup
    obtain ⟨path, -, rfl⟩ := List.mem_map.mp hgroup
    refine ⟨rfl, fun item => ?_⟩
    rw [List.mem_filter, beq_iff_eq, SelectedItem.filePath_eq_iff]
  · rw [itemsByFile_eq, List.flatMap_map]
    refine flatMap_filter_perm _ (nodup_eraseDups _) fun item hitem => ?_
    exact List.mem_eraseDups.mpr (List.mem_map_of_mem hitem)

end CodeAtlas
