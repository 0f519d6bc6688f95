import CodeAtlas.Proofs.Scope.Arena
import CodeAtlas.Proofs.Text.Nesting

/-!
# The scopes of a file form a forest

The scopes of a node are its own scope, if it opens one, in front of those of its children, one
child after the other. A conditional with an `else` is the exception: the branch comes last and in a
scope of its own that starts at the keyword. As the keyword and the branch are also the last
children of the conditional, the order of the text is kept.

## Main definitions

* `Tree.EndsInElse`: the law of conditionals with an `else`.
* `ScopeForest.IsForest`: scopes that lie in each other as their parents say.

## Main statements

* `Tree.nested_openingsAt`: the scopes of a node are nested, from whatever position they are
  counted.
* `ScopeForest.isForest_ofText`: the scopes of a file are a forest.
-/
namespace CodeAtlas

/-- The range of the scope `o` and the position of the scope around it. -/
def Opening.range (o : Opening) : PlacedRange :=
  ⟨o.start, o.length, o.parent, true⟩

namespace Tree

variable {source : String} {t c branch keyword : Tree} {cs : List Tree} {parent skip : Option Nat}
  {next lo hi i k : Nat}

/-- The `else` keyword of a conditional, at position `k`, and its branch, at position `i`, are its
last two children but for comments. -/
def ElseAt (t : Tree) (k i : Nat) : Prop :=
  k < i ∧ i < t.children.length ∧ ∀ c ∈ t.children.zipIdx,
    if c.2 < k then c.1.kind ≠ "else"
    else if c.2 = k then c.1.kind = "else" ∧ c.1.named = false
    else c.2 = i ∨ c.1.kind = "comment" ∧ c.1.children = []

/-- If a conditional has an `else` branch, it ends in the keyword and the branch. -/
def EndsInElse (t : Tree) : Prop :=
  ∀ i ∈ t.fieldIndex? "alternative", ∃ k < i, t.ElseAt k i

instance (t : Tree) (k i : Nat) : Decidable (t.ElseAt k i) :=
  inferInstanceAs (Decidable (_ ∧ _ ∧ _))

instance (t : Tree) : Decidable t.EndsInElse :=
  inferInstanceAs (Decidable (∀ i ∈ t.fieldIndex? "alternative", ∃ k < i, _))

/-! ## Lists of nodes -/

theorem openingsIn_append (xs ys : List Tree) (skip : Option Nat) (i : Nat) :
    openingsIn source parent next skip i (xs ++ ys) =
      openingsIn source parent next skip i xs ++
        openingsIn source parent (next + (openingsIn source parent next skip i xs).length) skip
          (i + xs.length) ys := by
  induction xs generalizing next i with
  | nil => simp [openingsIn]
  | cons x xs ih =>
    have hlength : i + (x :: xs).length = i + 1 + xs.length := by
      rw [List.length_cons]
      omega
    rw [List.cons_append, openingsIn, openingsIn, hlength]
    split
    · simp only [ih, List.append_assoc, List.length_append, Nat.add_assoc]
    · exact ih ..

/-- Nodes that are not visited or have no scopes contribute none. -/
theorem openingsIn_eq_nil (h : ∀ j c, cs[j]? = some c → c.named = true → skip ≠ some (i + j) →
    ∀ parent next, openingsAt source parent next c = []) :
    openingsIn source parent next skip i cs = [] := by
  induction cs generalizing next i with
  | nil => rfl
  | cons c cs ih =>
    have hrest : ∀ next, openingsIn source parent next skip (i + 1) cs = [] := fun next => by
      refine ih fun j c hc hnamed hskip => h (j + 1) c hc hnamed ?_
      rwa [Nat.add_comm j, ← Nat.add_assoc]
    rw [openingsIn]
    split
    · next hvisit =>
      simp only [Bool.and_eq_true, bne_iff_ne] at hvisit
      have hc := h 0 c rfl hvisit.1 hvisit.2 parent next
      simp [hc, hrest]
    · exact hrest next

theorem openingsAt_comment (hkind : c.kind = "comment") (hleaf : c.children = []) :
    openingsAt source parent next c = [] := by
  obtain ⟨d, cs⟩ := c
  obtain rfl : cs = [] := hleaf
  have hown : (node d []).opening? source parent = none := by
    simp [opening?, scope?, typeKind?, controlFlow?, memberKind?, hkind]
  simp [openingsAt, hown, hkind, openingsIn]

/-- The scopes of nodes that follow each other between `lo` and `hi`. -/
theorem nested_openingsIn
    (hscopes : ∀ c ∈ cs, ∀ next,
      NestedFrom parent next c.start c.stop ((openingsAt source parent next c).map Opening.range))
    (hordered : cs.Pairwise Precedes) (hcs : ∀ c ∈ cs, lo ≤ c.start ∧ c.stop ≤ hi) (hlo : lo ≤ hi) :
    NestedFrom parent next lo hi ((openingsIn source parent next skip i cs).map Opening.range) := by
  induction cs generalizing next i lo with
  | nil => exact .nil
  | cons c cs ih =>
    obtain ⟨hfirst, hordered⟩ := List.pairwise_cons.mp hordered
    obtain ⟨⟨hstart, hstop⟩, hcs⟩ := List.forall_mem_cons.mp hcs
    obtain ⟨hc, hscopes⟩ := List.forall_mem_cons.mp hscopes
    have hle : lo ≤ c.stop := Nat.le_trans hstart c.start_le_stop
    have hrest (next : Nat) : NestedFrom parent next c.stop hi
        ((openingsIn source parent next skip (i + 1) cs).map Opening.range) :=
      ih hscopes hordered (fun d hd => ⟨hfirst d hd, (hcs d hd).2⟩) hstop
    rw [openingsIn]
    split
    · dsimp only
      rw [List.map_append]
      refine ((hc next).mono hstart (Nat.le_refl _)).append ?_ hle hstop
      rw [List.length_map]
      exact hrest _
    · exact (hrest next).mono hle (Nat.le_refl _)

/-! ## Conditionals -/

namespace ElseAt

theorem exists_keyword (h : t.ElseAt k i) : ∃ keyword, t.children[k]? = some keyword ∧
    keyword.kind = "else" ∧ keyword.named = false := by
  obtain ⟨hk, hi, hall⟩ := h
  have hkeyword := List.getElem?_eq_getElem (Nat.lt_trans hk hi)
  refine ⟨_, hkeyword, ?_⟩
  simpa using hall (_, k) (List.mem_zipIdx_iff_getElem?.mpr hkeyword)

/-- The keyword is the `else` at which the scope of the branch starts. -/
theorem find?_eq (h : t.ElseAt k i) (hkeyword : t.children[k]? = some keyword)
    (hkind : keyword.kind = "else") : t.children.find? (·.kind == "else") = some keyword := by
  obtain ⟨hk, heq⟩ := List.getElem?_eq_some_iff.mp hkeyword
  refine List.find?_eq_some_iff_getElem.mpr ⟨by simp [hkind], k, hk, heq, fun j hj => ?_⟩
  have hj' : t.children[j]? = some t.children[j] := List.getElem?_eq_getElem _
  simpa [hj] using h.2.2 (_, j) (List.mem_zipIdx_iff_getElem?.mpr hj')

/-- No scope comes from the keyword and what follows it, besides those of the branch. -/
theorem openingsIn_drop (h : t.ElseAt k i) :
    openingsIn source parent next (some i) k (t.children.drop k) = [] := by
  refine openingsIn_eq_nil fun j c hc hnamed hskip parent next => ?_
  rw [List.getElem?_drop] at hc
  have hlaw := h.2.2 (c, k + j) (List.mem_zipIdx_iff_getElem?.mpr hc)
  rw [if_neg (by simp)] at hlaw
  split at hlaw
  · simp [hnamed] at hlaw
  · rcases hlaw with hbranch | ⟨hkind, hleaf⟩
    · exact absurd (congrArg some hbranch.symm) hskip
    · exact openingsAt_comment hkind hleaf

theorem openingsIn_eq (h : t.ElseAt k i) :
    openingsIn source parent next (some i) 0 t.children =
      openingsIn source parent next (some i) 0 (t.children.take k) := by
  have hlength : (t.children.take k).length = k := by
    rw [List.length_take]
    have := h.1
    have := h.2.1
    omega
  calc openingsIn source parent next (some i) 0 t.children
      = openingsIn source parent next (some i) 0 (t.children.take k ++ t.children.drop k) := by
        rw [List.take_append_drop]
    _ = openingsIn source parent next (some i) 0 (t.children.take k) := by
        rw [openingsIn_append, hlength, Nat.zero_add, h.openingsIn_drop, List.append_nil]

end ElseAt

theorem Layered.stop_le_of_lt {a b : Tree} {j : Nat} (h : t.Layered) (hjk : j < k)
    (ha : t.children[j]? = some a) (hb : t.children[k]? = some b) : a.stop ≤ b.start := by
  obtain ⟨hj, rfl⟩ := List.getElem?_eq_some_iff.mp ha
  obtain ⟨hk, rfl⟩ := List.getElem?_eq_some_iff.mp hb
  exact List.pairwise_iff_getElem.mp h.pairwise_children j k hj hk hjk

/-- The scopes of a conditional in front of its `else`. -/
theorem nested_main (h : t.Layered) (helse : t.ElseAt k i)
    (hkeyword : t.children[k]? = some keyword)
    (hscopes : ∀ c ∈ t.children, ∀ next,
      NestedFrom parent next c.start c.stop ((openingsAt source parent next c).map Opening.range)) :
    NestedFrom parent next t.start keyword.start
      ((openingsIn source parent next (some i) 0 t.children).map Opening.range) := by
  rw [helse.openingsIn_eq]
  refine nested_openingsIn (fun c hc => hscopes c (List.mem_of_mem_take hc))
    (h.pairwise_children.sublist (List.take_sublist _ _)) (fun c hc => ?_)
    (h.start_le (List.mem_of_getElem? hkeyword))
  refine ⟨h.start_le (List.mem_of_mem_take hc), ?_⟩
  obtain ⟨j, hj⟩ := List.mem_iff_getElem?.mp hc
  rw [List.getElem?_take] at hj
  split at hj
  · next hjk => exact h.stop_le_of_lt hjk hj hkeyword
  · simp at hj

/-- The scope of an `else` branch reaches from the keyword to the end of the branch. -/
theorem range_elseOpening (parent : Option Nat) (helse : t.ElseAt k i)
    (hkeyword : t.children[k]? = some keyword) (hkind : keyword.kind = "else")
    (hle : keyword.start ≤ branch.stop) :
    (t.elseOpening branch parent).range.start = keyword.start ∧
      (t.elseOpening branch parent).range.stop = branch.stop := by
  simp only [elseOpening, Opening.range, PlacedRange.stop, helse.find?_eq hkeyword hkind,
    Option.map_some, Option.getD_some, true_and]
  omega

/-- The scopes of a conditional with an `else`, but for its own. -/
theorem nested_conditional (parent : Option Nat) (next : Nat) (h : t.Layered)
    (helse : t.ElseAt k i) (hbranch : t.children[i]? = some branch)
    (hscopes : ∀ c ∈ t.children, ∀ parent next,
      NestedFrom parent next c.start c.stop ((openingsAt source parent next c).map Opening.range)) :
    let main := openingsIn source parent next (some i) 0 t.children
    NestedFrom parent next t.start t.stop
      ((main ++ openingsNth source parent (next + main.length) i t.children).map Opening.range) ∧
    NestedFrom parent next t.start t.stop
      ((main ++ t.elseOpening branch parent ::
        openingsNth source (some (next + main.length)) (next + main.length + 1) i
          t.children).map Opening.range) := by
  intro main
  obtain ⟨keyword, hkeyword, hkind, -⟩ := helse.exists_keyword
  have hmain : NestedFrom parent next t.start keyword.start (main.map Opening.range) :=
    nested_main h helse hkeyword fun c hc => hscopes c hc parent
  have hmem := List.mem_of_getElem? hbranch
  have hbefore : keyword.start ≤ branch.start :=
    Nat.le_trans keyword.start_le_stop (h.stop_le_of_lt helse.1 hkeyword hbranch)
  have hlo : t.start ≤ keyword.start := h.start_le (List.mem_of_getElem? hkeyword)
  have hhi : branch.stop ≤ t.stop := h.stop_le hmem
  have hle : keyword.start ≤ branch.stop := Nat.le_trans hbefore branch.start_le_stop
  constructor
  · rw [List.map_append]
    refine hmain.append ?_ hlo (Nat.le_trans hle hhi)
    rw [List.length_map, openingsNth_eq hbranch]
    exact (hscopes branch hmem _ _).mono hbefore hhi
  · obtain ⟨hstart, hstop⟩ := range_elseOpening parent helse hkeyword hkind hle
    rw [List.map_append, List.map_cons]
    refine hmain.append (.cons ?_ rfl rfl (by omega) (by omega)) hlo (Nat.le_trans hle hhi)
    rw [List.length_map, openingsNth_eq hbranch]
    exact (hscopes branch hmem _ _).mono (by omega) (by omega)

/-! ## Nodes -/

/-- The own scope of a node in front of those of its children. -/
theorem nested_own {body : List Opening}
    (h : NestedFrom (if (t.opening? source parent).toList.isEmpty then parent else some next)
      (next + (t.opening? source parent).toList.length) t.start t.stop (body.map Opening.range)) :
    NestedFrom parent next t.start t.stop
      (((t.opening? source parent).toList ++ body).map Opening.range) := by
  rw [opening?] at h ⊢
  cases hscope : t.scope? source with
  | none => simpa [hscope] using h
  | some s =>
    rw [hscope] at h
    exact .cons h rfl rfl (Nat.le_refl _) (Nat.le_refl _)

/-- The scopes of a node are nested, from whatever position they are counted. -/
theorem nested_openingsAt (h : t.Layered)
    (helse : ∀ n ∈ t.preorder, n.kind = "if_statement" → n.EndsInElse) :
    ∀ parent next,
      NestedFrom parent next t.start t.stop
        ((openingsAt source parent next t).map Opening.range) := by
  induction t using childInduction with
  | inherit t ih =>
    have hscopes (c : Tree) (hc : c ∈ t.children) := ih c hc (h.child hc)
      fun n hn => helse n (mem_preorder_trans (mem_preorder_of_mem_children hc) hn)
    have hall (outer : Option Nat) (next : Nat) (skip : Option Nat) :
        NestedFrom outer next t.start t.stop
          ((openingsIn source outer next skip 0 t.children).map Opening.range) :=
      nested_openingsIn (fun c hc => hscopes c hc outer) h.pairwise_children
        (fun c hc => ⟨h.start_le hc, h.stop_le hc⟩) t.start_le_stop
    intro parent next
    obtain ⟨d, cs⟩ := t
    rw [openingsAt]
    dsimp only
    split
    · next hkind =>
      split
      · next i branch halt hbranch =>
        rw [halt, Option.bind_some] at hbranch
        obtain ⟨k, -, hat⟩ := helse _ (mem_preorder_self _) (by simpa using hkind) i halt
        rw [halt]
        split
        · rw [List.append_assoc]
          exact nested_own (nested_conditional _ _ h hat hbranch hscopes).1
        · rw [List.append_assoc]
          exact nested_own (nested_conditional _ _ h hat hbranch hscopes).2
      · exact nested_own (hall _ _ _)
    · exact nested_own (hall _ _ _)

end Tree

/-! ## The forest of a file -/

namespace ScopeForest

/-- The scopes of `f` lie in each other as their parents say: a parent comes first and covers its
children, siblings do not overlap, and the scopes are listed by their start. The ids are the
positions, and the lists of children and of roots that are kept agree with the parents. -/
structure IsForest (f : ScopeForest) : Prop where
  id_eq : ∀ i s, f.get? i = some s → s.id = i
  parent_lt : ∀ i s p, f.get? i = some s → s.parent = some p → p < i
  mem_children : ∀ p s, f.get? p = some s → ∀ i,
    i ∈ s.children ↔ ∃ c, f.get? i = some c ∧ c.parent = some p
  increasing_children : ∀ p s, f.get? p = some s → s.children.Pairwise (· < ·)
  mem_roots : ∀ i, i ∈ f.roots ↔ ∃ s, f.get? i = some s ∧ s.parent = none
  increasing_roots : f.roots.Pairwise (· < ·)
  inside : ∀ i s p, f.get? i = some s → s.parent = some p →
    ∃ outer, f.get? p = some outer ∧ outer.start ≤ s.start ∧ s.stop ≤ outer.stop
  disjoint : ∀ i j a b, i < j → f.get? i = some a → f.get? j = some b → a.parent = b.parent →
    a.stop ≤ b.start
  starts : f.scopes.Pairwise fun a b => a.start ≤ b.start

@[simp] theorem mem_idsIn_openings {f : ScopeForest} {parent : Option Nat} {i : Nat} :
    i ∈ idsIn parent f.openings ↔ ∃ s, f.get? i = some s ∧ s.parent = parent := by
  rw [mem_idsIn, getElem?_openings]
  constructor
  · rintro ⟨o, ho, hparent⟩
    obtain ⟨s, hs, rfl⟩ := Option.map_eq_some_iff.mp ho
    exact ⟨s, hs, hparent⟩
  · rintro ⟨s, hs, hparent⟩
    exact ⟨s.toOpening, Option.map_eq_some_iff.mpr ⟨s, hs, rfl⟩, hparent⟩

theorem getElem?_map_range {f : ScopeForest} {i : Nat} {s : Scope} (h : f.get? i = some s) :
    (f.openings.map Opening.range)[i]? = some s.range := by
  rw [List.getElem?_map, getElem?_openings, h, Option.map_some, Option.map_some]

/-- The parent of a scope in a nested list covers it. -/
theorem exists_outer_of_nested {f : ScopeForest} {lo hi i p : Nat} {s : Scope}
    (h : NestedFrom none 0 lo hi (f.openings.map Opening.range)) (hs : f.get? i = some s)
    (hp : s.parent = some p) :
    ∃ outer, f.get? p = some outer ∧ outer.start ≤ s.start ∧ s.stop ≤ outer.stop := by
  rcases h.parents i s.range (getElem?_map_range hs) with hnone | ⟨p', q, -, hparent, hq, -, hin⟩
  · simp [Opening.range, hp] at hnone
  · obtain rfl : p = p' := by simpa [Opening.range, hp] using hparent
    rw [List.getElem?_map, getElem?_openings, Option.map_map] at hq
    obtain ⟨outer, houter, rfl⟩ := Option.map_eq_some_iff.mp hq
    exact ⟨outer, houter, hin⟩

/-- A consistent arena is a forest if its scopes are nested. -/
theorem Consistent.isForest {f : ScopeForest} {lo hi : Nat} (hf : f.Consistent)
    (h : NestedFrom none 0 lo hi (f.openings.map Opening.range)) : f.IsForest where
  id_eq := hf.id_eq
  parent_lt := hf.parent_lt
  mem_children p s hs i := by
    rw [hf.children_eq p s hs]
    exact mem_idsIn_openings
  increasing_children p s hs := by
    rw [hf.children_eq p s hs]
    exact pairwise_idsIn (some p) f.openings
  mem_roots i := by
    rw [hf.roots_eq]
    exact mem_idsIn_openings
  increasing_roots := by
    rw [hf.roots_eq]
    exact pairwise_idsIn none f.openings
  inside i s p hs hp := exists_outer_of_nested h hs hp
  disjoint i j a b hij ha hb hparent :=
    h.stop_le_of_parent_eq (by simp) hij (getElem?_map_range ha) (getElem?_map_range hb) hparent
  starts := by
    have hstarts := h.pairwise_start_le
    rwa [openings, List.map_map, List.pairwise_map] at hstarts

/-- The scopes of a text form a forest, if its nodes lie inside each other one after the other and
its conditionals end in their `else`. -/
theorem isForest_ofText (grammar : Grammar) (text path : String) (h : (grammar text).Layered)
    (helse : ∀ n ∈ (grammar text).preorder, n.kind = "if_statement" → n.EndsInElse) :
    (ofText grammar text path).IsForest := by
  have hnested : NestedFrom none 0 (grammar text).start (grammar text).stop
      (((grammar text).openingsAt text none 0).map Opening.range) :=
    Tree.nested_openingsAt h helse none 0
  rw [← openings_ofText grammar text path] at hnested
  exact (consistent_ofText grammar text path).isForest hnested

/-- The tree of `;`. -/
def emptyAt (label : String) (start : Nat) : Tree :=
  .node { kind := "empty_statement", label := some label, start, length := 1 } [.ofToken ";" start]

/-- The tree of `while (c) ;`. -/
def loopAt (label : String) (start : Nat) : Tree :=
  .node { kind := "while_statement", label := some label, start, length := 11 }
    [.ofToken "while" start, .ofToken "(" (start + 6),
      .ofLeaf "identifier" "condition" (start + 7) 1, .ofToken ")" (start + 8),
      emptyAt "body" (start + 10)]

/-- The tree of a conditional with the `parts` after its condition. -/
def conditionalAt (label : Option String) (start length : Nat) (parts : List Tree) : Tree :=
  .node { kind := "if_statement", label, start, length }
    ([.ofToken "if" start, .ofToken "(" (start + 3), .ofLeaf "identifier" "condition" (start + 4) 1,
      .ofToken ")" (start + 5)] ++ parts)

/-- A chain of conditionals of which the last has a comment behind its `else`. -/
def elseChain : ScopeForest :=
  ofText
    (fun _ => .node { kind := "compilation_unit", length := 54 }
      [.node { kind := "global_statement", length := 54 }
        [conditionalAt none 0 54
          [loopAt "consequence" 7, .ofToken "else" 19,
            conditionalAt (some "alternative") 24 30
              [emptyAt "consequence" 31, .ofToken "else" 33,
                .node { kind := "comment", start := 38, length := 4 } [],
                loopAt "alternative" 43]]]])
    "if (a) while (c) ; else if (b) ; else /**/ while (c) ;" "a.cs"

theorem isForest_ofText_elseChain :
    elseChain.scopes.map (fun s => (s.name, s.start, s.stop)) =
      [("if", 0, 54), ("while", 7, 18), ("if", 24, 54), ("else", 33, 54), ("while", 43, 54)] ∧
    elseChain.scopes.map (fun s => (s.id, s.parent, s.children)) =
      [(0, none, [1, 2]), (1, some 0, []), (2, some 0, [3]), (3, some 2, [4]), (4, some 3, [])] ∧
    elseChain.roots = [0] ∧ elseChain.IsForest :=
  ⟨by decide +kernel, by decide +kernel, by decide +kernel,
    isForest_ofText _ _ _ (by decide +kernel) (by decide +kernel)⟩

end ScopeForest

end CodeAtlas
