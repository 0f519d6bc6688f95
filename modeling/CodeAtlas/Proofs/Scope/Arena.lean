import CodeAtlas.Proofs.Syntax.WellFormed
import CodeAtlas.Scope

/-!
# The arena of scopes

The scopes of a tree are added to the arena one after the other, in an order that depends on the
tree and on the number of scopes that are there already, but not on what these are. So what the
walk adds is a list of openings, and the lists of children and of roots are kept by each addition
for itself: a scope is only ever opened inside one that has been added before.

## Main definitions

* `ScopeForest.openings`: the scopes of an arena as they were opened.
* `ScopeForest.Consistent`: the ids, children and roots agree with the parents.
* `Tree.openingsAt`: what a node opens, as a list.

## Main statements

* `ScopeForest.Consistent.push`: an addition keeps the arena consistent.
* `ScopeForest.Consistent.addScopes`: so does the walk over a tree.
* `ScopeForest.openings_addScopes`: the walk appends what the tree opens.
-/
namespace CodeAtlas

/-- The positions in `os` of the scopes that lie directly in `parent`. -/
def idsIn (parent : Option Nat) (os : List Opening) : List Nat :=
  (os.zipIdx.filter (·.1.parent == parent)).map (·.2)

section Ids

variable {parent : Option Nat} {os : List Opening} {o : Opening} {i : Nat}

@[simp] theorem idsIn_nil (parent : Option Nat) : idsIn parent [] = [] := rfl

@[simp] theorem mem_idsIn : i ∈ idsIn parent os ↔ ∃ o, os[i]? = some o ∧ o.parent = parent := by
  simp [idsIn, List.mem_zipIdx_iff_getElem?]

theorem pairwise_idsIn (parent : Option Nat) (os : List Opening) :
    (idsIn parent os).Pairwise (· < ·) := by
  have hall : (os.zipIdx.map (·.2)).Pairwise (· < ·) := by
    rw [List.zipIdx_map_snd]
    exact List.pairwise_lt_range'
  exact hall.sublist (List.filter_sublist.map _)

@[simp] theorem idsIn_concat (parent : Option Nat) (os : List Opening) (o : Opening) :
    idsIn parent (os ++ [o]) =
      idsIn parent os ++ if o.parent = parent then [os.length] else [] := by
  rw [idsIn, List.zipIdx_append, List.filter_append, List.map_append]
  congr 1
  by_cases h : o.parent = parent <;> simp [h]

end Ids

namespace ScopeForest

variable {f : ScopeForest} {o : Opening} {i : Nat}

/-- The scopes of the arena `f` as they were opened. -/
def openings (f : ScopeForest) : List Opening :=
  f.scopes.map Scope.toOpening

@[simp] theorem openings_empty (path : String) : openings { path } = [] := rfl

@[simp] theorem length_openings (f : ScopeForest) : f.openings.length = f.nodes.size := by
  simp [openings, scopes]

@[simp] theorem getElem?_openings (f : ScopeForest) (i : Nat) :
    f.openings[i]? = (f.get? i).map Scope.toOpening := by
  simp [openings, scopes, get?]

/-! ## Adding a scope -/

/-- The new scope has no children yet, and its parent has one more. -/
theorem get?_push (f : ScopeForest) (o : Opening) (i : Nat) :
    (f.push o).get? i =
      ((f.nodes.push { o with id := f.nodes.size, path := f.path, children := [] })[i]?).map
        fun s => if o.parent = some i then { s with children := s.children ++ [f.nodes.size] }
          else s := by
  unfold push get?
  dsimp only
  split
  · next p hp =>
    have hparent : o.parent = some p := (Option.filter_eq_some_iff.mp hp).1
    rw [Array.getElem?_modify, hparent]
    split
    · next hi => simp [hi]
    · next hi => simp [hi]
  · next hnone =>
    rcases Nat.lt_or_ge i (f.nodes.size + 1) with hi | hi
    · have hne : o.parent ≠ some i := by
        intro hsome
        simp only [hsome, Array.size_push, Option.filter_some, hi, decide_true, if_true,
          reduceCtorEq] at hnone
      simp [hne]
    · rw [Array.getElem?_eq_none (by simpa using hi), Option.map_none]

/-- A scope after `o` was added is an earlier one, which lists `o` if it is its parent, or `o`
itself. -/
theorem get?_push_cases {s : Scope} (hparent : ∀ p ∈ o.parent, p < f.nodes.size)
    (hs : (f.push o).get? i = some s) :
    (∃ r, f.get? i = some r ∧ s = if o.parent = some i then
      { r with children := r.children ++ [f.nodes.size] } else r) ∨
    i = f.nodes.size ∧ s = { o with id := f.nodes.size, path := f.path, children := [] } := by
  rw [get?_push] at hs
  obtain ⟨r, hr, rfl⟩ := Option.map_eq_some_iff.mp hs
  rw [Array.getElem?_push] at hr
  split at hr
  · next hi =>
    obtain rfl := Option.some.inj hr
    have hne : o.parent ≠ some i := by
      intro hsome
      have := hparent i hsome
      omega
    exact .inr ⟨hi, if_neg hne⟩
  · exact .inl ⟨r, hr, rfl⟩

@[simp] theorem openings_push (f : ScopeForest) (o : Opening) :
    (f.push o).openings = f.openings ++ [o] := by
  refine List.ext_getElem? fun i => ?_
  -- a scope that gets a child is the one that was opened
  have hkept : (Scope.toOpening ∘ fun s : Scope => if o.parent = some i then
      { s with children := s.children ++ [f.nodes.size] } else s) = Scope.toOpening := by
    funext s
    dsimp only [Function.comp_apply]
    split <;> rfl
  rw [getElem?_openings, get?_push, Option.map_map, hkept, ← Array.getElem?_toList,
    ← List.getElem?_map, Array.toList_push, List.map_append]
  rfl

@[simp] theorem size_push (f : ScopeForest) (o : Opening) :
    (f.push o).nodes.size = f.nodes.size + 1 := by
  rw [← length_openings, openings_push, List.length_append, length_openings]
  rfl

theorem roots_push (h : ∀ p ∈ o.parent, p < f.nodes.size) :
    (f.push o).roots = f.roots ++ if o.parent = none then [f.nodes.size] else [] := by
  unfold push
  cases hp : o.parent with
  | none => simp
  | some p =>
    have hlt : p < f.nodes.size + 1 := Nat.lt_succ_of_lt (h p hp)
    simp only [Array.size_push, Option.filter_some, hlt, decide_true, if_true, reduceCtorEq,
      if_false, List.append_nil]

/-- Every scope of `f` has its position as id, comes after its parent, and lists the scopes that
have it as their parent. The roots are the scopes without a parent. -/
structure Consistent (f : ScopeForest) : Prop where
  id_eq : ∀ i s, f.get? i = some s → s.id = i
  parent_lt : ∀ i s p, f.get? i = some s → s.parent = some p → p < i
  children_eq : ∀ i s, f.get? i = some s → s.children = idsIn (some i) f.openings
  roots_eq : f.roots = idsIn none f.openings

namespace Consistent

theorem empty (path : String) : Consistent { path } := by
  constructor <;> simp [get?]

/-- No scope lies in one that is not there yet. -/
@[simp] theorem idsIn_size (h : f.Consistent) : idsIn (some f.nodes.size) f.openings = [] := by
  refine List.eq_nil_iff_forall_not_mem.mpr fun i hi => ?_
  obtain ⟨o, ho, hparent⟩ := mem_idsIn.mp hi
  have hlt : i < f.openings.length := (List.getElem?_eq_some_iff.mp ho).1
  rw [getElem?_openings] at ho
  obtain ⟨s, hs, rfl⟩ := Option.map_eq_some_iff.mp ho
  have := h.parent_lt i s _ hs hparent
  rw [length_openings] at hlt
  omega

/-- A scope is added inside one that is there. -/
theorem push (h : f.Consistent) (hparent : ∀ p ∈ o.parent, p < f.nodes.size) :
    (f.push o).Consistent := by
  constructor
  · intro i s hs
    rcases get?_push_cases hparent hs with ⟨r, hr, rfl⟩ | ⟨rfl, rfl⟩
    · rw [← h.id_eq i r hr]
      split <;> rfl
    · rfl
  · intro i s p hs hp
    rcases get?_push_cases hparent hs with ⟨r, hr, rfl⟩ | ⟨rfl, rfl⟩
    · refine h.parent_lt i r p hr (Eq.trans ?_ hp)
      split <;> rfl
    · exact hparent p hp
  · intro i s hs
    rw [openings_push, idsIn_concat, length_openings]
    rcases get?_push_cases hparent hs with ⟨r, hr, rfl⟩ | ⟨rfl, rfl⟩
    · rw [← h.children_eq i r hr]
      split <;> simp
    · have hne : o.parent ≠ some f.nodes.size := fun hsome => by
        have := hparent _ hsome
        omega
      simp [h.idsIn_size, hne]
  · rw [roots_push hparent, openings_push, idsIn_concat, length_openings, h.roots_eq]

end Consistent

end ScopeForest

/-! ## What a tree opens -/

namespace Tree

mutual

/-- What a node in `parent` opens if `next` scopes are there already. -/
def openingsAt (source : String) (parent : Option Nat) (next : Nat) : Tree → List Opening
  | node d cs =>
    let t := node d cs
    let own := (t.opening? source parent).toList
    let inner := if own.isEmpty then parent else some next
    let next := next + own.length
    if t.kind == "if_statement" then
      let alternative := t.fieldIndex? "alternative"
      let main := openingsIn source inner next alternative 0 cs
      let next := next + main.length
      match alternative, alternative.bind (cs[·]?) with
      | some i, some branch =>
        if branch.kind == "if_statement" then own ++ main ++ openingsNth source inner next i cs
        else
          own ++ main ++ t.elseOpening branch inner ::
            openingsNth source (some next) (next + 1) i cs
      | _, _ => own ++ main
    else own ++ openingsIn source inner next none 0 cs

/-- What the named nodes of a list open, but for the one at position `skip`. -/
def openingsIn (source : String) (parent : Option Nat) (next : Nat) (skip : Option Nat) (i : Nat) :
    List Tree → List Opening
  | [] => []
  | c :: cs =>
    if c.named && skip != some i then
      let own := openingsAt source parent next c
      own ++ openingsIn source parent (next + own.length) skip (i + 1) cs
    else openingsIn source parent next skip (i + 1) cs

/-- What the node at position `i` of a list opens. -/
def openingsNth (source : String) (parent : Option Nat) (next : Nat) :
    (i : Nat) → List Tree → List Opening
  | _, [] => []
  | 0, c :: _ => openingsAt source parent next c
  | i + 1, _ :: cs => openingsNth source parent next i cs

end

@[simp] theorem openingsNth_eq {source : String} {parent : Option Nat} {next i : Nat} {c : Tree}
    {cs : List Tree} (h : cs[i]? = some c) :
    openingsNth source parent next i cs = openingsAt source parent next c := by
  induction cs generalizing i with
  | nil => simp at h
  | cons x cs ih =>
    cases i with
    | zero =>
      obtain rfl : x = c := by simpa using h
      rw [openingsNth]
    | succ i => exact ih h

end Tree

/-! ## The walk -/

namespace ScopeForest

variable {f : ScopeForest} {c : Tree} {cs : List Tree} {source : String} {parent skip : Option Nat}
  {i : Nat}

@[simp] theorem addScopesNth_eq (h : cs[i]? = some c) :
    addScopesNth source parent f i cs = addScopes source parent f c := by
  induction cs generalizing i with
  | nil => simp at h
  | cons x cs ih =>
    cases i with
    | zero =>
      obtain rfl : x = c := by simpa using h
      rw [addScopesNth]
    | succ i => exact ih h

theorem size_of_openings_eq {g : ScopeForest} {os : List Opening}
    (h : g.openings = f.openings ++ os) : g.nodes.size = f.nodes.size + os.length := by
  rw [← length_openings, h, List.length_append, length_openings]

theorem openings_addScopesIn
    (h : ∀ c ∈ cs, ∀ f : ScopeForest, (addScopes source parent f c).openings =
      f.openings ++ Tree.openingsAt source parent f.nodes.size c) :
    (addScopesIn source parent f skip i cs).openings =
      f.openings ++ Tree.openingsIn source parent f.nodes.size skip i cs := by
  induction cs generalizing f i with
  | nil => simp [addScopesIn, Tree.openingsIn]
  | cons c cs ih =>
    obtain ⟨hc, hcs⟩ := List.forall_mem_cons.mp h
    rw [addScopesIn, Tree.openingsIn]
    split
    · rw [ih hcs, size_of_openings_eq (hc f), hc f, List.append_assoc]
    · exact ih hcs

theorem openings_enter (f : ScopeForest) (parent : Option Nat) (own : Option Opening) :
    (f.enter parent own).1.openings = f.openings ++ own.toList ∧
      (f.enter parent own).2 = if own.toList.isEmpty then parent else some f.nodes.size := by
  cases own <;> simp [enter]

/-- The walk over a node appends what the node opens. -/
theorem openings_addScopes (source : String) (t : Tree) : ∀ (parent : Option Nat) (f : ScopeForest),
    (addScopes source parent f t).openings =
      f.openings ++ Tree.openingsAt source parent f.nodes.size t := by
  induction t using Tree.childInduction with
  | inherit t ih =>
    intro parent f
    obtain ⟨d, cs⟩ := t
    have hin (inner : Option Nat) (g : ScopeForest) (skip : Option Nat) :
        (addScopesIn source inner g skip 0 cs).openings =
          g.openings ++ Tree.openingsIn source inner g.nodes.size skip 0 cs :=
      openings_addScopesIn fun c hc => ih c hc inner
    have hnth (inner : Option Nat) (g : ScopeForest) {i : Nat} {branch : Tree}
        (hbranch : cs[i]? = some branch) : (addScopesNth source inner g i cs).openings =
          g.openings ++ Tree.openingsNth source inner g.nodes.size i cs := by
      rw [addScopesNth_eq hbranch, Tree.openingsNth_eq hbranch]
      exact ih branch (List.mem_of_getElem? hbranch) inner g
    rw [addScopes, Tree.openingsAt]
    obtain ⟨hown, hinner⟩ := openings_enter f parent ((Tree.node d cs).opening? source parent)
    generalize f.enter parent ((Tree.node d cs).opening? source parent) = entered at hown hinner
    obtain ⟨g, inner⟩ := entered
    dsimp only at hown hinner ⊢
    rw [← hinner, ← size_of_openings_eq hown]
    split
    · cases (Tree.node d cs).fieldIndex? "alternative" with
      | none =>
        dsimp only
        rw [hin, hown, List.append_assoc]
      | some i =>
        rw [Option.bind_some]
        have hmain := hin inner g (some i)
        cases hbranch : cs[i]? with
        | none =>
          dsimp only
          rw [hmain, hown, List.append_assoc]
        | some branch =>
          dsimp only
          rw [← size_of_openings_eq hmain]
          split
          · rw [hnth _ _ hbranch, hmain, hown]
            simp only [List.append_assoc]
          · rw [hnth _ _ hbranch, openings_push, size_push, hmain, hown]
            simp only [List.append_assoc, List.singleton_append]
    · rw [hin, hown, List.append_assoc]

theorem size_le_size_addScopes (source : String) (parent : Option Nat) (f : ScopeForest)
    (t : Tree) :
    f.nodes.size ≤ (addScopes source parent f t).nodes.size := by
  rw [size_of_openings_eq (openings_addScopes source t parent f)]
  exact Nat.le_add_right _ _

namespace Consistent

theorem addScopesIn
    (h : ∀ c ∈ cs, ∀ f : ScopeForest, f.Consistent → (∀ p ∈ parent, p < f.nodes.size) →
      (addScopes source parent f c).Consistent)
    (hf : f.Consistent) (hparent : ∀ p ∈ parent, p < f.nodes.size) :
    (addScopesIn source parent f skip i cs).Consistent ∧
      f.nodes.size ≤ (addScopesIn source parent f skip i cs).nodes.size := by
  induction cs generalizing f i with
  | nil => exact ⟨hf, Nat.le_refl _⟩
  | cons c cs ih =>
    obtain ⟨hc, hcs⟩ := List.forall_mem_cons.mp h
    rw [ScopeForest.addScopesIn]
    split
    · have hle := size_le_size_addScopes source parent f c
      obtain ⟨hrest, hle'⟩ := ih hcs (i := i + 1) (hc f hf hparent)
        fun p hp => Nat.lt_of_lt_of_le (hparent p hp) hle
      exact ⟨hrest, Nat.le_trans hle hle'⟩
    · exact ih hcs hf hparent

/-- What a node opens lies in a scope that is there, and so does what lies in the node. -/
theorem enter (hf : f.Consistent) (hparent : ∀ p ∈ parent, p < f.nodes.size) {own : Option Opening}
    (hown : ∀ o ∈ own, o.parent = parent) :
    (f.enter parent own).1.Consistent ∧
      ∀ p ∈ (f.enter parent own).2, p < (f.enter parent own).1.nodes.size := by
  cases own with
  | none => exact ⟨hf, hparent⟩
  | some o =>
    refine ⟨hf.push (hown o rfl ▸ hparent), fun p hp => ?_⟩
    obtain rfl : f.nodes.size = p := Option.some.inj hp
    simp [ScopeForest.enter]

/-- The walk over a node that lies in a scope of the arena keeps the arena consistent. -/
theorem addScopes (source : String) (t : Tree) : ∀ (parent : Option Nat) (f : ScopeForest),
    f.Consistent → (∀ p ∈ parent, p < f.nodes.size) →
      (addScopes source parent f t).Consistent := by
  induction t using Tree.childInduction with
  | inherit t ih =>
    intro parent f hf hparent
    obtain ⟨d, cs⟩ := t
    rw [ScopeForest.addScopes]
    have hown : ∀ o ∈ (Tree.node d cs).opening? source parent, o.parent = parent := by
      intro o ho
      obtain ⟨s, -, rfl⟩ := Option.map_eq_some_iff.mp ho
      rfl
    obtain ⟨hg, hinner⟩ := hf.enter hparent hown
    generalize f.enter parent ((Tree.node d cs).opening? source parent) = entered at hg hinner
    obtain ⟨g, inner⟩ := entered
    dsimp only at hg hinner ⊢
    have hin (skip : Option Nat) :
        (ScopeForest.addScopesIn source inner g skip 0 cs).Consistent ∧
          g.nodes.size ≤ (ScopeForest.addScopesIn source inner g skip 0 cs).nodes.size :=
      hg.addScopesIn (fun c hc => ih c hc inner) hinner
    split
    · split
      · next i branch halt hbranch =>
        obtain ⟨hmain, hle⟩ := hin ((Tree.node d cs).fieldIndex? "alternative")
        have hinner' := fun p hp => Nat.lt_of_lt_of_le (hinner p hp) hle
        rw [halt, Option.bind_some] at hbranch
        have hmem := List.mem_of_getElem? hbranch
        rw [addScopesNth_eq hbranch, addScopesNth_eq hbranch]
        split
        · exact ih branch hmem inner _ hmain hinner'
        · refine ih branch hmem _ _ (hmain.push hinner') fun p hp => ?_
          obtain rfl := Option.some.inj hp
          simp
      · exact (hin _).1
    · exact (hin _).1

end Consistent

theorem consistent_ofText (grammar : Grammar) (text path : String) :
    (ofText grammar text path).Consistent :=
  .addScopes text (grammar text) none { path } (.empty path) (by simp)

theorem openings_ofText (grammar : Grammar) (text path : String) :
    (ofText grammar text path).openings = (grammar text).openingsAt text none 0 := by
  rw [ofText, openings_addScopes, openings_empty, List.nil_append]
  rfl

end ScopeForest

end CodeAtlas
