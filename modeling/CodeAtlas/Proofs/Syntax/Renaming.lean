import CodeAtlas.Proofs.Syntax.WellFormed
import Mathlib.Data.List.Forall2

/-!
# Renaming in a text

A renaming maps the identifiers of a text to others and leaves everything else as it is: the shape
of the tree with its kinds and fields, the other leaves, and what stands between the leaves. Only
the places of the nodes move.

## Main definitions

* `Tree.names`: the texts of the identifiers of a tree.
* `Tree.Renames`: a tree and a text in which the identifiers are renamed.
* `Tree.renamedSource`, `Tree.renamed`: the text in which each identifier is replaced, and its tree.

## Main statements

* `Tree.renames_renamed`: replacing the identifiers of a well-formed tree is a renaming.
-/
namespace CodeAtlas

variable {f : String → String} {s s' : String}

/-- A text is put together from adjacent parts. -/
theorem Text.slice_append_slice {a b c : Nat} (ha : IsBoundary s a) (hb : IsBoundary s b)
    (hc : IsBoundary s c) (hab : a ≤ b) (hbc : b ≤ c) :
    slice s a b ++ slice s b c = slice s a c := by
  obtain ⟨x, hx⟩ := exists_slice?_eq ha hb hab
  obtain ⟨y, hy⟩ := exists_slice?_eq hb hc hbc
  obtain ⟨l, r, hs, hl, hsize⟩ := slice?_eq_some_iff.mp hx
  obtain ⟨l', r', hs', hl', hsize'⟩ := slice?_eq_some_iff.mp hy
  have hcut : l ++ x ++ r = l' ++ (y ++ r') := by rw [← hs, ← String.append_assoc, ← hs']
  obtain ⟨m, hm, hr⟩ := append_eq_append_of_le hcut (by rw [String.utf8ByteSize_append]; omega)
  -- both cuts are at the offset `b`
  obtain rfl : m = "" := by
    rw [← String.utf8ByteSize_eq_zero_iff]
    have := congrArg String.utf8ByteSize hm
    rw [String.utf8ByteSize_append, String.utf8ByteSize_append] at this
    omega
  have hxy : slice? s a c = some (x ++ y) := by
    refine slice?_eq_some_iff.mpr ⟨l, r', ?_, hl, by rw [String.utf8ByteSize_append]; omega⟩
    rw [hs, hr, String.empty_append]
    simp only [String.append_assoc]
  rw [slice_eq_of_slice? hx, slice_eq_of_slice? hy, slice_eq_of_slice? hxy]

/-- What `d` says about a node apart from its place. -/
def NodeData.unplaced (d : NodeData) : NodeData :=
  { d with start := 0, length := 0 }

namespace Tree

variable {a b t c : Tree} {cs : List Tree}

/-! ## Identifiers -/

/-- The node `t` is an identifier. One that has parts is a keyword that may also serve as a name. -/
def isName (t : Tree) : Bool :=
  t.isLeaf && t.kind == "identifier"

/-- The texts of the identifiers of `t`. -/
def names (source : String) (t : Tree) : List String :=
  (t.preorder.filter (·.isName)).map (·.text source)

@[simp] theorem mem_names {x : String} :
    x ∈ t.names s ↔ ∃ n ∈ t.preorder, n.isName = true ∧ n.text s = x := by
  simp [names, and_assoc]

theorem mem_names_of_isName (h : t.isName = true) : t.text s ∈ t.names s :=
  mem_names.mpr ⟨t, mem_preorder_self t, h, rfl⟩

theorem mem_names_of_mem_children {x : String} (hc : c ∈ t.children) (hx : x ∈ c.names s) :
    x ∈ t.names s := by
  obtain ⟨n, hn, hname, rfl⟩ := mem_names.mp hx
  exact mem_names.mpr ⟨n, mem_preorder_trans (mem_preorder_of_mem_children hc) hn, hname, rfl⟩

theorem names_of_leaf (hleaf : t.children = []) (hkind : t.kind ≠ "identifier") :
    t.names s = [] := by
  refine List.eq_nil_iff_forall_not_mem.mpr fun x hx => ?_
  obtain ⟨n, hn, hname, -⟩ := mem_names.mp hx
  obtain rfl : n = t := by simpa [mem_preorder_iff (t := t), hleaf] using hn
  simp [isName, hkind] at hname

/-! ## Renamings -/

/-- The text of `b` is that of `a` after a renaming by `f`: an identifier is mapped, and a node
whose identifiers are all mapped to themselves keeps its text. -/
structure RenamesText (f : String → String) (s s' : String) (a b : Tree) : Prop where
  name : a.isName = true → b.text s' = f (a.text s)
  fixed : (∀ x ∈ a.names s, f x = x) → b.text s' = a.text s

mutual

/-- The second tree, of the text `s'`, is the first one, of the text `s`, with its identifiers
renamed by `f`. -/
def Renames (f : String → String) (s s' : String) : Tree → Tree → Prop
  | node d cs, node d' cs' =>
    d.unplaced = d'.unplaced ∧ RenamesText f s s' (node d cs) (node d' cs') ∧
      RenamesAll f s s' cs cs'

/-- The trees of a list are those of another, one by one, with their identifiers renamed by `f`. -/
def RenamesAll (f : String → String) (s s' : String) : List Tree → List Tree → Prop
  | [], cs' => cs' = []
  | c :: cs, cs' => ∃ d ds, cs' = d :: ds ∧ Renames f s s' c d ∧ RenamesAll f s s' cs ds

end

theorem renamesAll_iff {cs cs' : List Tree} :
    RenamesAll f s s' cs cs' ↔ List.Forall₂ (Renames f s s') cs cs' := by
  induction cs generalizing cs' with
  | nil => simp [RenamesAll]
  | cons c cs ih =>
    simp only [RenamesAll, ih, List.forall₂_cons_left_iff]
    constructor
    · rintro ⟨d, ds, rfl, hd, hds⟩
      exact ⟨d, ds, hd, hds, rfl⟩
    · rintro ⟨d, ds, hd, hds, rfl⟩
      exact ⟨d, ds, rfl, hd, hds⟩

theorem renames_iff : Renames f s s' a b ↔ a.data.unplaced = b.data.unplaced ∧
    RenamesText f s s' a b ∧ List.Forall₂ (Renames f s s') a.children b.children := by
  obtain ⟨d, cs⟩ := a
  obtain ⟨d', cs'⟩ := b
  rw [Renames, renamesAll_iff]
  rfl

namespace Renames

section

variable (h : Renames f s s' a b)

include h

@[grind →] theorem kind_eq : a.kind = b.kind :=
  (congrArg NodeData.kind (renames_iff.mp h).1 :)

@[grind →] theorem named_eq : a.named = b.named :=
  (congrArg NodeData.named (renames_iff.mp h).1 :)

@[grind →] theorem missing_eq : a.missing = b.missing :=
  (congrArg NodeData.missing (renames_iff.mp h).1 :)

@[grind →] theorem label_eq : a.label = b.label :=
  (congrArg NodeData.label (renames_iff.mp h).1 :)

theorem text : RenamesText f s s' a b :=
  (renames_iff.mp h).2.1

theorem children : List.Forall₂ (Renames f s s') a.children b.children :=
  (renames_iff.mp h).2.2

@[grind →] theorem isLeaf_eq : a.isLeaf = b.isLeaf := by
  have hchildren := h.children
  unfold isLeaf
  generalize a.children = cs, b.children = ds at hchildren ⊢
  cases hchildren <;> rfl

/-- The same child fills a field. -/
theorem fieldIndex?_eq (field : String) : a.fieldIndex? field = b.fieldIndex? field := by
  have hoverrides : a.data.overrides = b.data.overrides :=
    (congrArg NodeData.overrides (renames_iff.mp h).1 :)
  have hlabels : a.children.map label = b.children.map label := by
    rw [← List.forall₂_eq_eq_eq, List.forall₂_map_left_iff, List.forall₂_map_right_iff]
    exact h.children.imp fun _ _ hcd => hcd.label_eq
  have hfind (cs : List Tree) : cs.findIdx? (·.label == some field) =
      (cs.map label).findIdx? (· == some field) := by
    rw [List.findIdx?_map]
    rfl
  rw [fieldIndex?, fieldIndex?, hoverrides, hfind, hfind, hlabels]

end

end Renames

/-! ## Replacing the identifiers of a text -/

mutual

/-- The text of a node of `s` with its identifiers replaced by `f`. -/
def renamedText (f : String → String) (s : String) : Tree → String
  | node d cs =>
    if cs.isEmpty then
      if d.kind == "identifier" then f ((node d cs).text s) else (node d cs).text s
    else renamedBetween f s d.start (d.start + d.length) cs

/-- The part of `s` from `lo` to `hi`, with the identifiers of the trees in between replaced by
`f`. -/
def renamedBetween (f : String → String) (s : String) (lo hi : Nat) : List Tree → String
  | [] => Text.slice s lo hi
  | c :: cs => Text.slice s lo c.start ++ renamedText f s c ++ renamedBetween f s c.stop hi cs

end

mutual

/-- The tree of a node with its identifiers replaced by `f`, where the node now begins at
`start`. -/
def renamedFrom (f : String → String) (s : String) (start : Nat) : Tree → Tree
  | node d cs =>
    node { d with start, length := (renamedText f s (node d cs)).utf8ByteSize }
      (renamedAll f s start d.start cs)

/-- The trees of nodes with their identifiers replaced, where the offset `lo` has moved to
`start`. -/
def renamedAll (f : String → String) (s : String) (start lo : Nat) : List Tree → List Tree
  | [] => []
  | c :: cs =>
    let first := start + (Text.slice s lo c.start).utf8ByteSize
    renamedFrom f s first c ::
      renamedAll f s (first + (renamedText f s c).utf8ByteSize) c.stop cs

end

/-- The text `s` with the identifiers of its tree `t` replaced by `f`. -/
def renamedSource (f : String → String) (s : String) (t : Tree) : String :=
  Text.before s t.start ++ t.renamedText f s ++ Text.after s t.stop

/-- The tree of the text with its identifiers replaced by `f`. -/
def renamed (f : String → String) (s : String) (t : Tree) : Tree :=
  t.renamedFrom f s (Text.before s t.start).utf8ByteSize

mutual

/-- Where all identifiers are mapped to themselves nothing is replaced. -/
theorem renamedText_of_fixed : ∀ {t : Tree}, t.WellFormed s → (∀ x ∈ t.names s, f x = x) →
    t.renamedText f s = t.text s
  | node d cs, hwf, hfixed => by
    rw [renamedText]
    split
    · next hleaf =>
      split
      · next hkind => exact hfixed _ (mem_names_of_isName (Bool.and_eq_true_iff.mpr ⟨hleaf, hkind⟩))
      · rfl
    · exact renamedBetween_of_fixed (fun c hc => ⟨hwf.child hc, hwf.start_le hc, hwf.stop_le hc⟩)
        hwf.pairwise_children hwf.isBoundary_start hwf.isBoundary_stop
        fun c hc x hx => hfixed x (mem_names_of_mem_children hc hx)

theorem renamedBetween_of_fixed : ∀ {cs : List Tree} {lo hi : Nat},
    (∀ c ∈ cs, c.WellFormed s ∧ lo ≤ c.start ∧ c.stop ≤ hi) → cs.Pairwise Precedes →
    Text.IsBoundary s lo → Text.IsBoundary s hi →
    (∀ c ∈ cs, ∀ x ∈ c.names s, f x = x) →
    renamedBetween f s lo hi cs = Text.slice s lo hi
  | [], _, _, _, _, _, _, _ => rfl
  | c :: cs, lo, hi, hwf, hord, hlo, hhi, hfixed => by
    obtain ⟨⟨hc, hstart, hstop⟩, hwf⟩ := List.forall_mem_cons.mp hwf
    obtain ⟨hnext, hord⟩ := List.pairwise_cons.mp hord
    obtain ⟨hname, hfixed⟩ := List.forall_mem_cons.mp hfixed
    have hrest := renamedBetween_of_fixed (fun d hd => ⟨(hwf d hd).1, hnext d hd, (hwf d hd).2.2⟩)
      hord hc.isBoundary_stop hhi hfixed
    have hlostop : lo ≤ c.stop := Nat.le_trans hstart c.start_le_stop
    rw [renamedBetween, renamedText_of_fixed hc hname, hrest, Tree.text,
      Text.slice_append_slice hlo hc.isBoundary_start hc.isBoundary_stop hstart c.start_le_stop,
      Text.slice_append_slice hlo hc.isBoundary_stop hhi hlostop hstop]

end

theorem text_renamedFrom (l r : String) (t : Tree) :
    (t.renamedFrom f s l.utf8ByteSize).text (l ++ t.renamedText f s ++ r) = t.renamedText f s := by
  refine Text.slice_eq_of_slice? (Text.slice?_eq_some_iff.mpr ⟨l, r, rfl, ?_, ?_⟩) <;>
    obtain ⟨d, cs⟩ := t <;> rfl

-- The text around the node is arbitrary, so that it can be the rest of the parent's text.
mutual

theorem renames_renamedFrom : ∀ {t : Tree}, t.WellFormed s → ∀ l r : String,
    Renames f s (l ++ t.renamedText f s ++ r) t (t.renamedFrom f s l.utf8ByteSize)
  | node d cs, hwf, l, r => by
    have htext := text_renamedFrom (f := f) (s := s) l r (node d cs)
    rw [renamedFrom] at htext ⊢
    refine ⟨rfl, ⟨fun hname => ?_, fun hfixed => ?_⟩, ?_⟩
    · rw [htext, renamedText]
      simp only [isName, isLeaf, children_node, Bool.and_eq_true] at hname
      rw [if_pos hname.1, if_pos (by exact hname.2)]
    · rw [htext, renamedText_of_fixed hwf hfixed]
    · cases cs with
      | nil => exact rfl
      | cons c cs =>
        exact renamesAll_renamedAll _ _ (fun c hc => hwf.child hc) l r

theorem renamesAll_renamedAll : ∀ {cs : List Tree} (lo hi : Nat), (∀ c ∈ cs, c.WellFormed s) →
    ∀ l r : String, RenamesAll f s (l ++ renamedBetween f s lo hi cs ++ r) cs
      (renamedAll f s l.utf8ByteSize lo cs)
  | [], _, _, _, _, _ => rfl
  | c :: cs, lo, hi, hwf, l, r => by
    obtain ⟨hc, hwf⟩ := List.forall_mem_cons.mp hwf
    have hfirst := renames_renamedFrom hc (l ++ Text.slice s lo c.start)
      (renamedBetween f s c.stop hi cs ++ r)
    have hrest := renamesAll_renamedAll c.stop hi hwf
      (l ++ Text.slice s lo c.start ++ renamedText f s c) r
    refine ⟨_, _, rfl, ?_, ?_⟩
    · simpa only [renamedBetween, String.append_assoc, String.utf8ByteSize_append] using hfirst
    · simpa only [renamedBetween, String.append_assoc, String.utf8ByteSize_append,
        Nat.add_assoc] using hrest

end

/-- Replacing the identifiers of a well-formed tree is a renaming. -/
theorem renames_renamed (h : t.WellFormed s) :
    Renames f s (t.renamedSource f s) t (t.renamed f s) :=
  renames_renamedFrom h _ _

end Tree

end CodeAtlas
