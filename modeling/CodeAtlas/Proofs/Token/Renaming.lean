import CodeAtlas.Proofs.Syntax.Renaming
import CodeAtlas.Proofs.Token.Alignment
import Mathlib.Data.Set.Function

/-!
# Renaming of local names

Tokenizing looks at the spelling of an identifier only to find its latest declaration, so an
injective renaming leaves the kinds and ordinals of all tokens as they are. The two runs over a tree
and its renamed copy go in step: the names in scope of the second are those of the first, renamed.
If all tokens of a renamed name have an ordinal, the tokens at the same place are similar, and the
comparison of the two streams finds no change.

## Main definitions

* `Tree.LocalRenaming`: a renaming of names that always refer to a declaration inside a member.
* `Bindings.rename`: names in scope after a renaming.
* `RenamedRun`: two runs of tokenizing that go in step.

## Main statements

* `Tree.nameUse_rename`: a renamed identifier is classified as before.
* `Tree.renamedRun_tokensAt`: tokenizing a tree and its renamed copy goes in step.
* `renamed_locals_unchanged`: a renaming of local names changes no kind and no ordinal, and no token
  counts as changed.
-/
namespace CodeAtlas

variable {f : String → String} {s s' : String} {xs : List String}

/-! ## Names in scope -/

/-- The renaming `f` keeps the names `xs` apart, and neither makes a name empty nor fills an empty
one, as error recovery leaves them. -/
structure Separates (f : String → String) (xs : List String) : Prop where
  injOn : Set.InjOn f {x | x ∈ xs}
  eq_empty_iff : ∀ x ∈ xs, f x = "" ↔ x = ""

namespace Bindings

variable {b : Bindings} {x : String}

/-- The names of `b` after a renaming by `f`. -/
def rename (f : String → String) (b : Bindings) : Bindings where
  names := b.names.map fun e => (f e.1, e.2)
  next := b.next

/-- The declared names of `b` are among `xs`, and of kinds that may be renamed. -/
def Among (xs : List String) (b : Bindings) : Prop :=
  ∀ e ∈ b.names, e.1 ∈ xs ∧ e.2.1.mayBeRenamed = true

theorem among_empty (xs : List String) : Among xs {} := by
  simp [Among]

theorem Among.declare {kind : TokenKind} (h : b.Among xs) (hx : x ∈ xs)
    (hkind : kind.mayBeRenamed = true) : (b.declare x kind).Among xs :=
  List.forall_mem_cons.mpr ⟨⟨hx, hkind⟩, h⟩

/-- A renamed name refers to the declaration that it referred to. -/
theorem lookup_rename (hf : Separates f xs) (h : b.Among xs) (hx : x ∈ xs) :
    (b.rename f).names.lookup (f x) = b.names.lookup x := by
  obtain ⟨names, next⟩ := b
  induction names with
  | nil => rfl
  | cons e names ih =>
    obtain ⟨y, value⟩ := e
    obtain ⟨⟨hy, -⟩, h⟩ := List.forall_mem_cons.mp h
    have hxy : (f x == f y) = (x == y) := by
      rw [Bool.eq_iff_iff, beq_iff_eq, beq_iff_eq]
      exact hf.injOn.eq_iff hx hy
    have hrest := ih h
    simp only [rename, List.map_cons, List.lookup_cons, hxy] at hrest ⊢
    rw [hrest]

theorem Among.mayBeRenamed {kind : TokenKind} {ordinal : Nat} (h : b.Among xs)
    (hx : b.names.lookup x = some (kind, ordinal)) : kind.mayBeRenamed = true := by
  obtain ⟨front, back, hnames, -⟩ := List.lookup_eq_some_iff.mp hx
  have hmem : (x, kind, ordinal) ∈ b.names := by simp [hnames]
  exact (h _ hmem).2

end Bindings

/-- An identifier that has an ordinal may be renamed. -/
def NameUse.Sound : NameUse → Prop
  | declares kind => kind.mayBeRenamed = true
  | refers kind binding => binding.isSome = true → kind.mayBeRenamed = true

namespace Tree

variable {a b t t' : Tree} {crumbs crumbs' : List Crumb}

/-! ## The place of an identifier -/

/-- The crumbs `a` and `b` lead the same way. -/
structure SameCrumb (a b : Crumb) : Prop where
  kind_eq : a.1.kind = b.1.kind
  index_eq : a.2 = b.2
  fieldIndex?_eq : ∀ field, a.1.fieldIndex? field = b.1.fieldIndex? field

theorem Renames.sameCrumb (h : Renames f s s' a b) (i : Nat) : SameCrumb (a, i) (b, i) :=
  ⟨h.kind_eq, rfl, h.fieldIndex?_eq⟩

section

variable {c d : Crumb} (h : SameCrumb c d)

include h

theorem fills_congr (field : String) : fills c field = fills d field := by
  rw [fills, fills, h.fieldIndex?_eq, h.index_eq]

@[grind →] theorem typeKind?_congr : c.1.typeKind? = d.1.typeKind? := by
  rw [typeKind?, typeKind?, h.kind_eq]

@[grind →] theorem standsForType_congr : standsForType c = standsForType d := by
  rw [standsForType, standsForType, fills_congr h, fills_congr h, h.kind_eq]

end

theorem any_head?_congr (h : List.Forall₂ SameCrumb crumbs crumbs') {p : Crumb → Bool}
    (hp : ∀ c d, SameCrumb c d → p c = p d) : crumbs.head?.any p = crumbs'.head?.any p := by
  cases h with
  | nil => rfl
  | cons hcd _ => exact hp _ _ hcd

theorem isCallee_congr (h : List.Forall₂ SameCrumb crumbs crumbs') :
    isCallee crumbs = isCallee crumbs' := by
  have hcall (c d : Crumb) (hcd : SameCrumb c d) :
      (c.1.kind == "invocation_expression" && fills c "function") =
        (d.1.kind == "invocation_expression" && fills d "function") := by
    rw [hcd.kind_eq, fills_congr hcd]
  cases h with
  | nil => rfl
  | @cons c d _ _ hcd hrest =>
    simp only [isCallee, hcd.kind_eq]
    cases hgeneric : d.1.kind == "generic_name" with
    | false =>
      simp only [Bool.false_eq_true, if_false, hcd.kind_eq, fills_congr hcd,
        any_head?_congr hrest hcall]
    | true =>
      cases hrest with
      | nil => rfl
      | cons hcd hrest =>
        simp only [if_true, hcd.kind_eq, fills_congr hcd, any_head?_congr hrest hcall]

theorem isMemberField_congr (h : List.Forall₂ SameCrumb crumbs crumbs') :
    isMemberField crumbs = isMemberField crumbs' := by
  cases h with
  | nil => rfl
  | cons _ hrest =>
    cases hrest with
    | nil => rfl
    | cons hcd _ => simp only [isMemberField, hcd.kind_eq]

theorem placedUse?_congr {c d : Crumb} (h : SameCrumb c d)
    (habove : List.Forall₂ SameCrumb crumbs crumbs') :
    placedUse? c crumbs = placedUse? d crumbs' := by
  unfold placedUse?
  simp only [h.kind_eq, fills_congr h, typeKind?_congr h, isMemberField_congr habove]

theorem sound_of_placedUse? {c : Crumb} {use : NameUse} (h : placedUse? c crumbs = some use) :
    use.Sound := by
  unfold placedUse? at h
  grind [NameUse.Sound, TokenKind.mayBeRenamed]

theorem sound_nameUse {bindings : Bindings} (h : bindings.Among xs) (x : String)
    (crumbs : List Crumb) : (nameUse x bindings crumbs).Sound := by
  cases crumbs with
  | nil => simp [nameUse, NameUse.Sound]
  | cons crumb above =>
    simp only [nameUse]
    cases hplaced : placedUse? crumb above with
    | some use => exact sound_of_placedUse? hplaced
    | none =>
      let isMemberName := crumb.1.kind == "member_access_expression" && fills crumb "name"
      generalize hfound : (if isMemberName then none else bindings.names.lookup x) = found
      cases found with
      | some value =>
        have hlookup : bindings.names.lookup x = some value := by
          split at hfound
          · simp at hfound
          · exact hfound
        exact fun _ => h.mayBeRenamed hlookup
      | none => grind [NameUse.Sound]

/-- A renamed identifier is classified as before. -/
theorem nameUse_rename {bindings : Bindings} {x : String} (hf : Separates f xs)
    (hb : bindings.Among xs) (hx : x ∈ xs) (h : List.Forall₂ SameCrumb crumbs crumbs') :
    nameUse (f x) (bindings.rename f) crumbs' = nameUse x bindings crumbs := by
  cases h with
  | nil => rfl
  | cons hcd hrest =>
    unfold nameUse
    simp only [placedUse?_congr hcd hrest, isCallee_congr (.cons hcd hrest),
      standsForType_congr hcd, fills_congr hcd, hcd.kind_eq, Bindings.lookup_rename hf hb hx]

end Tree

/-! ## Tokens -/

/-- The token `b` stands at the place of `a` after a renaming by `f`. -/
structure Token.Renamed (f : String → String) (xs : List String) (a b : Token) : Prop where
  kind_eq : a.kind = b.kind
  binding_eq : a.binding = b.binding
  mayBeRenamed : a.binding.isSome = true → a.kind.mayBeRenamed = true
  text_eq : b.text = a.text ∨ a.text ∈ xs ∧ b.text = f a.text

/-- Tokens are similar before and after a renaming if one that is spelled otherwise has an
ordinal. -/
theorem Token.Renamed.similar {a b : Token} (h : a.Renamed f xs b) (threshold : Float)
    (hbound : a.text ∈ xs → f a.text ≠ a.text → a.binding.isSome = true) :
    a.similar threshold b = true := by
  rw [Token.similar, h.kind_eq, beq_self_eq_true, Bool.true_and]
  rcases h.text_eq with htext | ⟨hmem, htext⟩
  · simp [htext]
  · by_cases hfixed : f a.text = a.text
    · simp [htext, hfixed]
    · have hsome := hbound hmem hfixed
      have hkind := h.mayBeRenamed hsome
      rw [h.kind_eq] at hkind
      simp [hkind, hsome, ← h.binding_eq]

/-- The runs `p` and `q` of the tokenizer, before and after a renaming by `f`, go in step. -/
structure RenamedRun (f : String → String) (xs : List String) (p q : Bindings × List Token) :
    Prop where
  bindings_eq : q.1 = p.1.rename f
  among : p.1.Among xs
  tokens : List.Forall₂ (Token.Renamed f xs) p.2 q.2

namespace Tree

variable {t t' : Tree} {crumbs crumbs' : List Crumb}

/-- The names of `t` are among `xs`, and those in literals are not renamed by `f`. -/
structure Renamable (f : String → String) (xs : List String) (s : String) (t : Tree) : Prop where
  names : ∀ x ∈ t.names s, x ∈ xs
  literal : ∀ n ∈ t.preorder, (n.isStringLiteral || n.isNumericLiteral) = true →
    ∀ x ∈ n.names s, f x = x

theorem Renamable.child {c : Tree} (h : t.Renamable f xs s) (hc : c ∈ t.children) :
    c.Renamable f xs s where
  names x hx := h.names x (mem_names_of_mem_children hc hx)
  literal n hn := h.literal n (mem_preorder_trans (mem_preorder_of_mem_children hc) hn)

namespace Renames

section

variable (h : Renames f s s' t t')

include h

@[grind →] theorem opensBindings_eq : t.opensBindings = t'.opensBindings := by
  simp only [opensBindings, memberKind?, typeKind?, isLocalFunction, h.kind_eq]

@[grind →] theorem isStringLiteral_eq : t.isStringLiteral = t'.isStringLiteral := by
  rw [isStringLiteral, isStringLiteral, h.kind_eq]

@[grind →] theorem isNumericLiteral_eq : t.isNumericLiteral = t'.isNumericLiteral := by
  rw [isNumericLiteral, isNumericLiteral, h.kind_eq]

@[grind →] theorem leafKind_eq : t.leafKind = t'.leafKind := by
  rw [leafKind, leafKind, isKeywordLeaf, isKeywordLeaf, h.kind_eq, h.named_eq]

end

end Renames

theorem forall₂_token (hf : Separates f xs) {kind : TokenKind} {binding : Option Nat}
    (hkind : binding.isSome = true → kind.mayBeRenamed = true)
    (htext : t'.text s' = t.text s ∨ t.text s ∈ xs ∧ t'.text s' = f (t.text s)) :
    List.Forall₂ (Token.Renamed f xs) (t.token s kind binding) (t'.token s' kind binding) := by
  have hempty : (t'.text s').isEmpty = (t.text s).isEmpty := by
    rcases htext with htext | ⟨hmem, htext⟩
    · rw [htext]
    · rw [Bool.eq_iff_iff, String.isEmpty_iff, String.isEmpty_iff, htext]
      exact hf.eq_empty_iff _ hmem
  simp only [token, hempty]
  split
  · exact .nil
  · exact .cons ⟨rfl, rfl, hkind, htext⟩ .nil

theorem tokensAt_eq (source : String) (crumbs : List Crumb) (b : Bindings) (t : Tree) :
    tokensAt source crumbs b t =
      if t.kind == "comment" || t.missing then (b, [])
      else if t.opensBindings then (b, (tokensIn source t crumbs 0 {} t.children).2)
      else if t.isStringLiteral then (b, t.token source .stringLiteral none)
      else if t.isNumericLiteral then (b, t.token source .numericLiteral none)
      else if !t.isLeaf then tokensIn source t crumbs 0 b t.children
      else if t.kind == "identifier" then
        match nameUse (t.text source) b crumbs with
        | .declares kind => (b.declare (t.text source) kind, t.token source kind (some b.next))
        | .refers kind binding => (b, t.token source kind binding)
      else (b, t.token source t.leafKind none) := by
  obtain ⟨d, cs⟩ := t
  rw [tokensAt]
  rfl

/-- The step at an identifier. -/
theorem renamedRun_identifier (hf : Separates f xs) {b : Bindings} (hb : b.Among xs)
    (hx : t.text s ∈ xs) (htext : t'.text s' = f (t.text s))
    (hcrumbs : List.Forall₂ SameCrumb crumbs crumbs') :
    RenamedRun f xs
      (match nameUse (t.text s) b crumbs with
        | .declares kind => (b.declare (t.text s) kind, t.token s kind (some b.next))
        | .refers kind binding => (b, t.token s kind binding))
      (match nameUse (t'.text s') (b.rename f) crumbs' with
        | .declares kind => ((b.rename f).declare (t'.text s') kind,
            t'.token s' kind (some (b.rename f).next))
        | .refers kind binding => (b.rename f, t'.token s' kind binding)) := by
  rw [htext, nameUse_rename hf hb hx hcrumbs]
  have hsound := sound_nameUse hb (t.text s) crumbs
  split
  · next kind huse =>
    rw [huse] at hsound
    exact ⟨rfl, hb.declare hx hsound, forall₂_token hf (fun _ => hsound) (.inr ⟨hx, htext⟩)⟩
  · next kind binding huse =>
    rw [huse] at hsound
    exact ⟨rfl, hb, forall₂_token hf hsound (.inr ⟨hx, htext⟩)⟩

mutual

/-- Tokenizing a tree and its renamed copy goes in step. -/
theorem renamedRun_tokensAt (hf : Separates f xs) : ∀ {t t' : Tree} {crumbs crumbs' : List Crumb}
    {b : Bindings}, Renames f s s' t t' → t.Renamable f xs s →
    List.Forall₂ SameCrumb crumbs crumbs' → b.Among xs →
    RenamedRun f xs (tokensAt s crumbs b t) (tokensAt s' crumbs' (b.rename f) t')
  | node d cs, t', crumbs, crumbs', b, h, ht, hcrumbs, hb => by
    have hchildren {b : Bindings} (hb : b.Among xs) :=
      renamedRun_tokensIn hf h.children (fun c hc => ht.child hc) h.sameCrumb hcrumbs hb 0
    have hliteral (hn : (isStringLiteral (node d cs) || isNumericLiteral (node d cs)) = true)
        (kind : TokenKind) : RenamedRun f xs (b, token (node d cs) s kind none)
          (b.rename f, t'.token s' kind none) :=
      ⟨rfl, hb, forall₂_token hf (by simp)
        (.inl (h.text.fixed (ht.literal _ (mem_preorder_self _) hn)))⟩
    -- Both runs take the same branch: it depends on kinds and on the shape only.
    rw [tokensAt_eq, tokensAt_eq]
    rw [← h.kind_eq, ← h.missing_eq, ← h.opensBindings_eq, ← h.isStringLiteral_eq,
      ← h.isNumericLiteral_eq, ← h.isLeaf_eq, ← h.leafKind_eq]
    split
    · exact ⟨rfl, hb, .nil⟩
    split
    · exact ⟨rfl, hb, (hchildren (Bindings.among_empty xs)).tokens⟩
    split
    · next hstring => exact hliteral (by rw [hstring, Bool.true_or]) _
    split
    · next hnumeric => exact hliteral (by rw [hnumeric, Bool.or_true]) _
    split
    · exact hchildren hb
    · next hleaf =>
      have hleaf : isLeaf (node d cs) = true := by simpa using hleaf
      split
      · next hkind =>
        have hname : isName (node d cs) = true := Bool.and_eq_true_iff.mpr ⟨hleaf, hkind⟩
        exact renamedRun_identifier hf hb (ht.names _ (mem_names_of_isName hname))
          (h.text.name hname) hcrumbs
      · next hkind =>
        have hnames : names s (node d cs) = [] :=
          names_of_leaf (List.isEmpty_iff.mp hleaf) (by simpa using hkind)
        exact ⟨rfl, hb, forall₂_token hf (by simp) (.inl (h.text.fixed (by simp [hnames])))⟩

theorem renamedRun_tokensIn (hf : Separates f xs) : ∀ {cs cs' : List Tree} {parent parent' : Tree}
    {crumbs crumbs' : List Crumb} {b : Bindings}, List.Forall₂ (Renames f s s') cs cs' →
    (∀ c ∈ cs, c.Renamable f xs s) → (∀ i, SameCrumb (parent, i) (parent', i)) →
    List.Forall₂ SameCrumb crumbs crumbs' → b.Among xs → ∀ i : Nat,
    RenamedRun f xs (tokensIn s parent crumbs i b cs)
      (tokensIn s' parent' crumbs' i (b.rename f) cs')
  | [], cs', parent, parent', crumbs, crumbs', b, h, _, _, _, hb, i => by
    obtain rfl := List.forall₂_nil_left_iff.mp h
    exact ⟨rfl, hb, .nil⟩
  | c :: cs, cs', parent, parent', crumbs, crumbs', b, h, hcs, hparent, hcrumbs, hb, i => by
    obtain ⟨d, ds, hcd, hds, rfl⟩ := List.forall₂_cons_left_iff.mp h
    obtain ⟨hc, hcs⟩ := List.forall_mem_cons.mp hcs
    have hfirst := renamedRun_tokensAt hf hcd hc (.cons (hparent i) hcrumbs) hb
    have hrest := renamedRun_tokensIn hf hds hcs hparent hcrumbs hfirst.among (i + 1)
    rw [tokensIn, tokensIn]
    simp only [hfirst.bindings_eq]
    exact ⟨hrest.bindings_eq, hrest.among, List.rel_append hfirst.tokens hrest.tokens⟩

end

end Tree

/-! ## Comparing the two streams -/

/-- Streams that are similar token by token are aligned token by token. -/
theorem alignFrom_of_forall₂ {similar : Token → Token → Bool} {table : LengthTable} {i j : Nat}
    {source target : List Token} (h : List.Forall₂ (fun a b => similar a b = true) source target)
    (htable : table.Holds similar i j source target) :
    alignFrom similar table i j source target = List.zipWith .unchanged source target := by
  induction h generalizing i j with
  | nil => simp [alignFrom]
  | cons hab _ ih =>
    rw [alignFrom, if_pos (by rw [htable.test_eq_similar, hab]), ih htable.below.right,
      List.zipWith_cons_cons]

theorem align_of_forall₂ {similar : Token → Token → Bool} {budget : Nat}
    {source target : List Token} (h : List.Forall₂ (fun a b => similar a b = true) source target)
    (hbudget : cellCount source.length target.length ≤ budget) :
    align budget similar source target = List.zipWith .unchanged source target := by
  rw [align, if_neg (by omega)]
  exact alignFrom_of_forall₂ h (LengthTable.holds_make similar source target)

/-! ## Renaming local names -/

/-- The renaming `f` keeps the identifiers of `s` apart and does not make one empty. What it renames
stands in no string literal, and every token of it has an ordinal. -/
structure Tree.LocalRenaming (f : String → String) (s : String) (t : Tree) : Prop where
  separates : Separates f (t.names s)
  literal : ∀ n ∈ t.preorder, n.isStringLiteral = true → ∀ x ∈ n.names s, f x = x
  bound : ∀ x ∈ t.names s, f x ≠ x → ∀ token ∈ t.tokens s, token.text = x →
    token.binding.isSome = true

/-- Let local names be renamed by `f` in the text `s`, whose numeric literals have no parts. The
tokens have the same kinds and ordinals as before, one by one, and at any threshold a comparison
within the budget keeps them all. In a well-formed tree `t` the renamed text is the text with each
identifier replaced. -/
theorem renamed_locals_unchanged (f : String → String) (s : String) (t : Tree)
    (h : t.LocalRenaming f s)
    (hnumeric : ∀ n ∈ t.preorder, n.isNumericLiteral = true → n.children = []) :
    (∀ s' t', Tree.Renames f s s' t t' →
      List.Forall₂ (fun a b => a.kind = b.kind ∧ a.binding = b.binding)
        (t.tokens s) (t'.tokens s') ∧
      ∀ settings : DiffSettings,
        cellCount (t.tokens s).length (t'.tokens s').length ≤ settings.budget →
        compareTokens settings (t.tokens s) (t'.tokens s') =
          List.zipWith .unchanged (t.tokens s) (t'.tokens s')) ∧
    (t.WellFormed s → Tree.Renames f s (t.renamedSource f s) t (t.renamed f s)) := by
  refine ⟨fun s' t' hrenames => ?_, Tree.renames_renamed⟩
  have hliteral : ∀ n ∈ t.preorder, (n.isStringLiteral || n.isNumericLiteral) = true →
      ∀ x ∈ n.names s, f x = x := by
    intro n hn hn' x hx
    rcases Bool.or_eq_true_iff.mp hn' with hstring | hnumber
    · exact h.literal n hn hstring x hx
    · have hkind : n.kind ≠ "identifier" := by
        intro hkind
        simp [Tree.isNumericLiteral, hkind] at hnumber
      simp [Tree.names_of_leaf (hnumeric n hn hnumber) hkind] at hx
  have hrun : RenamedRun f (t.names s) (Tree.tokensAt s [] {} t) (Tree.tokensAt s' [] {} t') :=
    Tree.renamedRun_tokensAt h.separates hrenames ⟨fun x hx => hx, hliteral⟩ .nil
      (Bindings.among_empty _)
  have htokens : List.Forall₂ (Token.Renamed f (t.names s)) (t.tokens s) (t'.tokens s') :=
    hrun.tokens
  refine ⟨htokens.imp fun a b hab => ⟨hab.kind_eq, hab.binding_eq⟩, fun settings hbudget => ?_⟩
  refine align_of_forall₂ ?_ hbudget
  have hboth := (List.forall₂_and_left (p := (· ∈ t.tokens s)) _ _).mpr ⟨fun _ ha => ha, htokens⟩
  refine hboth.imp fun a b hab => ?_
  exact hab.2.similar settings.threshold fun hx hmoved => h.bound a.text hx hmoved a hab.1 rfl

/-- A method that returns the first of its two parameters. -/
def firstOfTwo : String := "class C \x7b int A(int n, int m) => n; \x7d"

def firstOfTwoTree : Tree :=
  .ofFile 37
    [.node { kind := "method_declaration", start := 10, length := 25 }
      [.ofLeaf "predefined_type" "returns" 10 3, .ofLeaf "identifier" "name" 14 1,
        .node { kind := "parameter_list", label := some "parameters", start := 15, length := 14 }
          [.ofToken "(" 15,
            .node { kind := "parameter", start := 16, length := 5 }
              [.ofLeaf "predefined_type" "type" 16 3, .ofLeaf "identifier" "name" 20 1],
            .ofToken "," 21,
            .node { kind := "parameter", start := 23, length := 5 }
              [.ofLeaf "predefined_type" "type" 23 3, .ofLeaf "identifier" "name" 27 1],
            .ofToken ")" 28],
        .node { kind := "arrow_expression_clause", label := some "body", start := 30,
                length := 4 }
          [.ofToken "=>" 30, .node { kind := "identifier", start := 33, length := 1 } []],
        .ofToken ";" 34]]

/-- What becomes of a name `x`: the first parameter gets the name of the second, and the second a
longer one. -/
def renameParameters (x : String) : String :=
  if x = "n" then "m" else if x = "m" then "other" else x

/-- The renamed method has the same tokens up to spelling, although `m` now stands for another
parameter. -/
theorem renamed_locals_unchanged_firstOfTwo :
    let renamed := firstOfTwoTree.renamedSource renameParameters firstOfTwo
    let tokens := (firstOfTwoTree.renamed renameParameters firstOfTwo).tokens renamed
    firstOfTwoTree.LocalRenaming renameParameters firstOfTwo ∧
    (∀ n ∈ firstOfTwoTree.preorder, n.isNumericLiteral = true → n.children = []) ∧
    firstOfTwoTree.WellFormed firstOfTwo ∧
    renamed = "class C \x7b int A(int m, int other) => m; \x7d" ∧
    compareTokens {} (firstOfTwoTree.tokens firstOfTwo) tokens =
      List.zipWith .unchanged (firstOfTwoTree.tokens firstOfTwo) tokens := by
  intro renamed tokens
  have hlocal : firstOfTwoTree.LocalRenaming renameParameters firstOfTwo := by
    have hinj : ∀ x ∈ firstOfTwoTree.names firstOfTwo, ∀ y ∈ firstOfTwoTree.names firstOfTwo,
        renameParameters x = renameParameters y → x = y := by decide +kernel
    exact ⟨⟨fun x hx y hy => hinj x hx y hy, by decide +kernel⟩, by decide +kernel,
      by decide +kernel⟩
  have hnumeric : ∀ n ∈ firstOfTwoTree.preorder, n.isNumericLiteral = true → n.children = [] := by
    decide +kernel
  have hwf : firstOfTwoTree.WellFormed firstOfTwo := by decide +kernel
  have hunchanged := renamed_locals_unchanged renameParameters firstOfTwo firstOfTwoTree hlocal
    hnumeric
  refine ⟨hlocal, hnumeric, hwf, by decide +kernel, ?_⟩
  exact (hunchanged.1 _ _ (hunchanged.2 hwf)).2 {} (by decide +kernel)

end CodeAtlas
