import CodeAtlas.Proofs.Token.Leaves
import Mathlib.Data.List.Forall2
import Mathlib.Data.List.Induction

/-!
# Ordinals of declarations

The names that a type or a member declares are numbered in the order in which they appear, without
those of the types and members inside it. A name that is used carries the number of its latest
declaration. So what a number stands for can be told from the tokens alone: the declaring tokens of
a scope, one after the other, are its numbered list of names.

## Main definitions

* `Tree.scopePath?`: the scope of a node, as the path to the node that opens it.
* `Tree.Spot`: a node together with the nodes around it, which tell its scope and what it does.
* `Tree.spots`: the nodes that give the tokens of a tree.
* `IsLatest`: the latest of some declaring tokens that has a given text.
* `HasOrdinal`: a token has the number that the declaring tokens in front of it give it.

## Main statements

* `Bindings.lookup_ofTokens`: the name table finds the latest declaration.
* `Tree.nameUse_cases`: what an identifier does, and what it refers to.
* `Tree.counted_tokensAt`: the tokens of a node, counted on from those in front of it.
* `ordinals_denote_declarations`: the ordinals of all scopes of a tree.
-/
namespace CodeAtlas

/-! ## Declared names -/

section Latest

variable {ds : List Token} {name : String} {i : Nat} {d k : Token}

/-- The token `d` is number `i` of some declaring tokens and the latest of them with this text. -/
structure IsLatest (ds : List Token) (name : String) (i : Nat) (d : Token) : Prop where
  getElem?_eq : ds[i]? = some d
  text_eq : d.text = name
  text_ne : ∀ j e, i < j → ds[j]? = some e → e.text ≠ name

theorem not_isLatest_nil : ¬ IsLatest [] name i d := by
  rintro ⟨h, -, -⟩
  simp at h

@[simp] theorem isLatest_concat_self : IsLatest (ds ++ [k]) k.text i d ↔ i = ds.length ∧ d = k := by
  constructor
  · rintro ⟨hget, -, hlast⟩
    rcases Nat.lt_trichotomy i ds.length with hlt | rfl | hgt
    · exact absurd rfl (hlast ds.length k hlt (by simp))
    · simpa [eq_comm] using hget
    · rw [List.getElem?_eq_none (by simp; omega)] at hget
      simp at hget
  · rintro ⟨rfl, rfl⟩
    refine ⟨by simp, rfl, fun j e hj he => ?_⟩
    rw [List.getElem?_eq_none (by simp; omega)] at he
    simp at he

@[simp] theorem isLatest_concat_of_ne (h : k.text ≠ name) :
    IsLatest (ds ++ [k]) name i d ↔ IsLatest ds name i d := by
  have hget {j : Nat} {e : Token} (he : e.text = name) :
      (ds ++ [k])[j]? = some e ↔ ds[j]? = some e := by
    rcases Nat.lt_trichotomy j ds.length with hlt | rfl | hgt
    · rw [List.getElem?_append_left hlt]
    · have hne : k ≠ e := by
        rintro rfl
        exact h he
      simp [hne]
    · rw [List.getElem?_eq_none (by simp; omega), List.getElem?_eq_none (by omega)]
  constructor
  · rintro ⟨hi, htext, hlast⟩
    exact ⟨(hget htext).mp hi, htext, fun j e hj he htext' =>
      hlast j e hj ((hget htext').mpr he) htext'⟩
  · rintro ⟨hi, htext, hlast⟩
    exact ⟨(hget htext).mpr hi, htext, fun j e hj he htext' =>
      hlast j e hj ((hget htext').mp he) htext'⟩

namespace Bindings

/-- The names that the tokens `ds` declare, one after the other. -/
def ofTokens (ds : List Token) : Bindings :=
  ds.foldl (fun b k => b.declare k.text k.kind) {}

@[simp] theorem ofTokens_concat (ds : List Token) (k : Token) :
    ofTokens (ds ++ [k]) = (ofTokens ds).declare k.text k.kind := by
  simp [ofTokens]

@[simp] theorem next_ofTokens (ds : List Token) : (ofTokens ds).next = ds.length := by
  induction ds using List.reverseRecOn with
  | nil => rfl
  | append_singleton ds k ih => simp [ofTokens_concat, declare, ih]

/-- A name is found with the kind and the number of its latest declaration. -/
theorem lookup_ofTokens {kind : TokenKind} :
    (ofTokens ds).names.lookup name = some (kind, i) ↔
      ∃ d, IsLatest ds name i d ∧ d.kind = kind := by
  induction ds using List.reverseRecOn with
  | nil => simp [ofTokens, not_isLatest_nil]
  | append_singleton ds k ih =>
    rw [ofTokens_concat, declare, List.lookup_cons]
    by_cases hname : k.text = name
    · subst hname
      simp only [BEq.rfl, Option.some.injEq, Prod.mk.injEq, next_ofTokens, isLatest_concat_self]
      constructor
      · rintro ⟨hkind, hi⟩
        exact ⟨k, ⟨hi.symm, rfl⟩, hkind⟩
      · rintro ⟨d, ⟨hi, rfl⟩, hkind⟩
        exact ⟨hkind, hi.symm⟩
    · have hne : (name == k.text) = false := by simpa using Ne.symm hname
      simp only [hne, isLatest_concat_of_ne hname, ih]

end Bindings

end Latest

namespace Tree

variable {source name : String} {crumbs : List Crumb} {t : Tree}

/-! ## What an identifier does -/

/-- What an identifier reached through `crumbs` does if its place alone tells. -/
def placed? (crumbs : List Crumb) : Option NameUse :=
  crumbs.head?.bind fun crumb => placedUse? crumb crumbs.tail

/-- An identifier reached through `crumbs` declares its name. -/
def declaresAt (crumbs : List Crumb) : Bool :=
  TokenKind.all.any fun kind => placed? crumbs == some (.declares kind)

/-- An identifier reached through `crumbs` refers to a declared name, if there is one: its place
does not tell what it does, and it is not the name in a member access. -/
def looksUpAt (crumbs : List Crumb) : Bool :=
  (placed? crumbs).isNone && crumbs.head?.any fun crumb =>
    !(crumb.1.kind == "member_access_expression" && fills crumb "name")

theorem declaresAt_iff :
    declaresAt crumbs = true ↔ ∃ kind, placed? crumbs = some (.declares kind) := by
  simp [declaresAt, TokenKind.mem_all]

@[grind →]
theorem looksUpAt_of_declaresAt (h : declaresAt crumbs = true) : looksUpAt crumbs = false := by
  obtain ⟨kind, hkind⟩ := declaresAt_iff.mp h
  simp [looksUpAt, hkind]

/-- A place that tells what an identifier does gives it no ordinal to refer to. -/
theorem binding_of_placedUse? {crumb : Crumb} {kind : TokenKind} {binding : Option Nat}
    (h : placedUse? crumb crumbs = some (.refers kind binding)) : binding = none := by
  unfold placedUse? at h
  grind

/-- An identifier declares its name, or it carries the ordinal under which its name is found. -/
theorem nameUse_cases (name : String) (b : Bindings) (crumbs : List Crumb) :
    (∃ kind, nameUse name b crumbs = .declares kind ∧ declaresAt crumbs = true) ∨
    ∃ kind binding, nameUse name b crumbs = .refers kind binding ∧ declaresAt crumbs = false ∧
      (∀ i, binding = some i → b.names.lookup name = some (kind, i)) ∧
      (looksUpAt crumbs = true → binding = (b.names.lookup name).map Prod.snd) := by
  cases crumbs with
  | nil => exact .inr ⟨.identifier, none, rfl, by decide, by simp, by simp [looksUpAt]⟩
  | cons crumb above =>
    have hplaced : placed? (crumb :: above) = placedUse? crumb above := rfl
    rw [nameUse]
    cases huse : placedUse? crumb above with
    | some use =>
      rw [huse] at hplaced
      have hlooks : looksUpAt (crumb :: above) = false := by simp [looksUpAt, hplaced]
      cases use with
      | declares kind => exact .inl ⟨kind, rfl, declaresAt_iff.mpr ⟨kind, hplaced⟩⟩
      | refers kind binding =>
        obtain rfl := binding_of_placedUse? huse
        refine .inr ⟨kind, none, rfl, ?_, by simp, by simp [hlooks]⟩
        rw [← Bool.not_eq_true, declaresAt_iff, hplaced]
        simp
    | none =>
      rw [huse] at hplaced
      have hdeclares : declaresAt (crumb :: above) = false := by
        rw [← Bool.not_eq_true, declaresAt_iff, hplaced]
        simp
      -- a name that is not found gets a kind from its place, but no ordinal
      have hunknown : ∃ kind, (if isCallee (crumb :: above) then NameUse.refers .methodName none
          else if standsForType crumb then .refers .typeName none
          else .refers .identifier none) = .refers kind none := by
        split
        · exact ⟨_, rfl⟩
        · split <;> exact ⟨_, rfl⟩
      obtain ⟨kind, hkind⟩ := hunknown
      dsimp only
      cases hmember : crumb.1.kind == "member_access_expression" && fills crumb "name" with
      | true =>
        have hlooks : looksUpAt (crumb :: above) = false := by
          rw [looksUpAt, hplaced, List.head?_cons, Option.any_some, hmember]
          rfl
        rw [if_pos rfl]
        exact .inr ⟨kind, none, hkind, hdeclares, by simp, by simp [hlooks]⟩
      | false =>
        rw [if_neg Bool.false_ne_true]
        cases hfound : b.names.lookup name with
        | none => exact .inr ⟨kind, none, hkind, hdeclares, by simp, by simp⟩
        | some found =>
          refine .inr ⟨found.1, some found.2, rfl, hdeclares, fun i hi => ?_, by simp⟩
          rw [← Option.some.inj hi]

/-! ## Scopes -/

/-- The path to the innermost ancestor that opens a scope, the last step first. There is none at the
top level. -/
def scopePath? : List Crumb → Option (List Nat)
  | [] => none
  | crumb :: above =>
    if crumb.1.opensBindings then some (above.map Prod.snd) else scopePath? above

theorem scopePath?_cons (parent : Tree) (i : Nat) (crumbs : List Crumb) :
    scopePath? ((parent, i) :: crumbs) =
      if parent.opensBindings then some (crumbs.map Prod.snd) else scopePath? crumbs :=
  rfl

/-- The node that opens a scope lies above what stands in it. -/
theorem length_lt_of_scopePath? {path : List Nat} (h : scopePath? crumbs = some path) :
    path.length < crumbs.length := by
  induction crumbs with
  | nil => simp [scopePath?] at h
  | cons crumb above ih =>
    rw [scopePath?] at h
    split at h
    · obtain rfl := Option.some.inj h
      simp
    · exact Nat.lt_succ_of_lt (ih h)

/-- What lies below a node stands in the scope of the node, or in a scope that is opened by the node
or below it. -/
theorem scopePath?_of_suffix {inner : List Crumb} (h : crumbs <:+ inner) :
    scopePath? inner = scopePath? crumbs ∨
      ∃ path, scopePath? inner = some path ∧ crumbs.map Prod.snd <:+ path := by
  obtain ⟨more, rfl⟩ := h
  induction more with
  | nil => exact .inl rfl
  | cons crumb more ih =>
    rw [List.cons_append, scopePath?]
    split
    · exact .inr ⟨_, rfl, by simp⟩
    · exact ih

/-- A node and the ancestors that lead to it, nearest first. -/
structure Spot where
  node : Tree
  crumbs : List Crumb

namespace Spot

/-- The scope that the node of `p` stands in. -/
def scope? (p : Spot) : Option (List Nat) :=
  scopePath? p.crumbs

def isName (p : Spot) : Bool :=
  p.node.kind == "identifier" && p.node.isLeaf

/-- The node of `p` declares a name. -/
def declares (p : Spot) : Bool :=
  p.isName && declaresAt p.crumbs

/-- The node of `p` refers to a declared name, if there is one. -/
def looksUp (p : Spot) : Bool :=
  p.isName && looksUpAt p.crumbs

end Spot

mutual

/-- The nodes that give the tokens of a tree, where it is reached through `crumbs`. -/
def spotsAt (source : String) (crumbs : List Crumb) : Tree → List Spot
  | node d cs =>
    let t := node d cs
    if t.isTrivia then []
    else if t.opensBindings || !(t.isStringLiteral || t.isNumericLiteral || cs.isEmpty) then
      spotsIn source t crumbs 0 cs
    else if (t.text source).isEmpty then [] else [⟨t, crumbs⟩]

/-- The same for the children of `parent` from position `i` on. -/
def spotsIn (source : String) (parent : Tree) (crumbs : List Crumb) (i : Nat) :
    List Tree → List Spot
  | [] => []
  | c :: cs => spotsAt source ((parent, i) :: crumbs) c ++ spotsIn source parent crumbs (i + 1) cs

end

/-- The nodes that give the tokens of `t`. -/
def spots (source : String) (t : Tree) : List Spot :=
  spotsAt source [] t

mutual

theorem suffix_of_mem_spotsAt {p : Spot} :
    ∀ {t : Tree} {crumbs : List Crumb}, p ∈ spotsAt source crumbs t → crumbs <:+ p.crumbs
  | node d cs, crumbs, h => by
    rw [spotsAt] at h
    split at h
    · simp at h
    · split at h
      · obtain ⟨j, -, hj⟩ := suffix_of_mem_spotsIn h
        exact (List.suffix_cons _ _).trans hj
      · split at h
        · simp at h
        · obtain rfl := List.mem_singleton.mp h
          exact List.suffix_refl _

theorem suffix_of_mem_spotsIn {p : Spot} {parent : Tree} :
    ∀ {cs : List Tree} {crumbs : List Crumb} {i : Nat}, p ∈ spotsIn source parent crumbs i cs →
      ∃ j, i ≤ j ∧ (parent, j) :: crumbs <:+ p.crumbs
  | [], _, _, h => by simp [spotsIn] at h
  | c :: cs, crumbs, i, h => by
    rw [spotsIn, List.mem_append] at h
    rcases h with h | h
    · exact ⟨i, Nat.le_refl i, suffix_of_mem_spotsAt h⟩
    · obtain ⟨j, hj, hsuffix⟩ := suffix_of_mem_spotsIn h
      exact ⟨j, by omega, hsuffix⟩

end

/-- Under two children of a node there is no scope in common but the one that these stand in. -/
theorem scope?_eq_of_children {parent c : Tree} {cs : List Tree} {i : Nat} {p q : Spot}
    (hp : p ∈ spotsAt source ((parent, i) :: crumbs) c)
    (hq : q ∈ spotsIn source parent crumbs (i + 1) cs) (h : p.scope? = q.scope?) :
    p.scope? = scopePath? ((parent, i) :: crumbs) := by
  obtain ⟨j, hj, hq⟩ := suffix_of_mem_spotsIn hq
  rcases scopePath?_of_suffix (suffix_of_mem_spotsAt hp) with hsame | ⟨path, hpath, hi⟩
  · exact hsame
  rcases scopePath?_of_suffix hq with hsame | ⟨path', hpath', hj'⟩
  · exact h.trans hsame
  · -- both positions would end the same path
    have heq : path = path' := by
      rw [Spot.scope?, Spot.scope?, hpath, hpath'] at h
      exact Option.some.inj h
    subst heq
    have hsuffix := List.suffix_of_suffix_length_le hi hj' (by simp)
    have := hsuffix.eq_of_length (by simp)
    simp only [List.map_cons, List.cons.injEq] at this
    omega

/-- What lies below a node that opens a scope is not in the scope of that node. -/
theorem scope?_ne_of_opensBindings {parent : Tree} {cs : List Tree} {i : Nat} {p : Spot}
    (hopens : parent.opensBindings = true) (hp : p ∈ spotsIn source parent crumbs i cs) :
    p.scope? ≠ scopePath? crumbs := by
  intro h
  obtain ⟨j, -, hj⟩ := suffix_of_mem_spotsIn hp
  obtain ⟨path, hpath, hlength⟩ : ∃ path, p.scope? = some path ∧ crumbs.length ≤ path.length := by
    rcases scopePath?_of_suffix hj with hsame | ⟨path, hpath, hsuffix⟩
    · rw [scopePath?_cons, if_pos hopens] at hsame
      exact ⟨_, hsame, by simp⟩
    · have := hsuffix.length_le
      exact ⟨path, hpath, by simp at this; omega⟩
  have := length_lt_of_scopePath? (h.symm.trans hpath)
  omega

end Tree

/-! ## Counting on -/

section Counting

open CodeAtlas.Tree

variable {source : String} {scope scope' : Option (List Nat)} {p : Spot} {k : Token}
  {own prev : List (Spot × Token)}

/-- The token `k` reads as the node of `p`. -/
def Tree.Spot.Reads (source : String) (p : Spot) (k : Token) : Prop :=
  k.start = p.node.start ∧ k.text = p.node.text source

/-- The declaring ones of the tokens `own`. -/
def declaring (own : List (Spot × Token)) : List Token :=
  (own.filter (·.1.declares)).map Prod.snd

/-- Those of the tokens `all` that stand in this `scope`. -/
def inScope (scope : Option (List Nat)) (all : List (Spot × Token)) : List (Spot × Token) :=
  all.filter (·.1.scope? = scope)

/-- The token `x`, which follows the declaring tokens `ds` of its scope, has the ordinal that these
give it. -/
structure HasOrdinal (ds : List Token) (x : Spot × Token) : Prop where
  of_declares : x.1.declares = true → x.2.binding = some ds.length
  of_binding : x.1.declares = false → ∀ i, x.2.binding = some i →
    ∃ d, IsLatest ds x.2.text i d ∧ d.kind = x.2.kind
  of_isLatest : x.1.looksUp = true → ∀ i d, IsLatest ds x.2.text i d → x.2.binding = some i

/-- Every one of the tokens `own` has the ordinal that the declaring ones in front of it give it. -/
def Consecutive (own : List (Spot × Token)) : Prop :=
  ∀ front x, front ++ [x] <+: own → HasOrdinal (declaring front) x

theorem consecutive_nil : Consecutive [] := by
  intro front x h
  simp at h

theorem Consecutive.concat {x : Spot × Token} (h : Consecutive own)
    (hx : HasOrdinal (declaring own) x) : Consecutive (own ++ [x]) := by
  intro front y hprefix
  rcases List.prefix_concat_iff.mp hprefix with heq | hprefix
  · obtain ⟨rfl, hy⟩ := List.append_inj_left' heq rfl, List.append_inj_right' heq rfl
    obtain rfl := List.singleton_inj.mp hy
    exact hx
  · exact h front y hprefix

@[simp] theorem declaring_concat_of_declares (h : p.declares = true) :
    declaring (own ++ [(p, k)]) = declaring own ++ [k] := by
  simp [declaring, h]

@[simp] theorem declaring_concat_of_not (h : p.declares = false) :
    declaring (own ++ [(p, k)]) = declaring own := by
  simp [declaring, h]

@[simp] theorem inScope_append (scope : Option (List Nat)) (l r : List (Spot × Token)) :
    inScope scope (l ++ r) = inScope scope l ++ inScope scope r :=
  List.filter_append ..

@[simp]
theorem inScope_zip_eq_nil {ps : List Spot} (ks : List Token) (h : ∀ p ∈ ps, p.scope? ≠ scope) :
    inScope scope (ps.zip ks) = [] := by
  refine List.filter_eq_nil_iff.mpr fun x hx => ?_
  simpa using h x.1 (List.of_mem_zip hx).1

/-- A `run` of the tokenizer over the nodes `ps` in a scope that has the tokens `prev` already: its
tokens are read off the nodes, the name table holds what the scope has declared by the end of the
run, and the tokens of this and of any other scope are numbered in order. -/
structure Counted (source : String) (scope : Option (List Nat)) (prev : List (Spot × Token))
    (ps : List Spot) (run : Bindings × List Token) : Prop where
  reads : List.Forall₂ (Spot.Reads source) ps run.2
  bindings_eq : run.1 = .ofTokens (declaring (prev ++ inScope scope (ps.zip run.2)))
  consecutive : Consecutive (prev ++ inScope scope (ps.zip run.2))
  nested : ∀ scope' ≠ scope, Consecutive (inScope scope' (ps.zip run.2))

namespace Counted

variable {ps qs : List Spot} {b b' : Bindings} {ks ls : List Token}

theorem nil (h : Consecutive prev) :
    Counted source scope prev [] (.ofTokens (declaring prev), []) where
  reads := .nil
  bindings_eq := by simp [inScope]
  consecutive := by simpa [inScope] using h
  nested _ _ := consecutive_nil

theorem singleton (h : Consecutive prev) (hreads : p.Reads source k) (hscope : p.scope? = scope)
    (hk : HasOrdinal (declaring prev) (p, k)) :
    Counted source scope prev [p] (.ofTokens (declaring (prev ++ [(p, k)])), [k]) where
  reads := .cons hreads .nil
  bindings_eq := by simp [inScope, hscope]
  consecutive := by simpa [inScope, hscope] using h.concat hk
  nested scope' hne := by
    rw [inScope_zip_eq_nil [k] (by simpa [hscope] using hne.symm)]
    exact consecutive_nil

/-- One run after another one, with no scope in common but the one they count on. -/
theorem append (h : Counted source scope prev ps (b, ks))
    (h' : Counted source scope (prev ++ inScope scope (ps.zip ks)) qs (b', ls))
    (hapart : ∀ p ∈ ps, ∀ q ∈ qs, p.scope? = q.scope? → p.scope? = scope) :
    Counted source scope prev (ps ++ qs) (b', ks ++ ls) := by
  have hzip : (ps ++ qs).zip (ks ++ ls) = ps.zip ks ++ qs.zip ls :=
    List.zip_append h.reads.length_eq
  refine ⟨List.rel_append h.reads h'.reads, ?_, ?_, fun scope' hne => ?_⟩
  · rw [hzip, inScope_append, ← List.append_assoc]
    exact h'.bindings_eq
  · rw [hzip, inScope_append, ← List.append_assoc]
    exact h'.consecutive
  · rw [hzip, inScope_append]
    by_cases hsome : ∃ p ∈ ps, p.scope? = scope'
    · obtain ⟨p, hp, hscope⟩ := hsome
      have hnone : inScope scope' (qs.zip ls) = [] := by
        refine inScope_zip_eq_nil ls fun q hq heq => hne ?_
        rw [← hscope]
        exact hapart p hp q hq (hscope.trans heq.symm)
      rw [hnone, List.append_nil]
      exact h.nested scope' hne
    · have hnone : inScope scope' (ps.zip ks) = [] :=
        inScope_zip_eq_nil ks fun p hp heq => hsome ⟨p, hp, heq⟩
      rw [hnone, List.nil_append]
      exact h'.nested scope' hne

/-- A run over a scope of its own changes nothing around it. -/
theorem enclose (h : Counted source scope' [] ps (b, ks)) (hprev : Consecutive prev)
    (hout : ∀ p ∈ ps, p.scope? ≠ scope) :
    Counted source scope prev ps (.ofTokens (declaring prev), ks) := by
  have hnone : inScope scope (ps.zip ks) = [] := inScope_zip_eq_nil ks hout
  refine ⟨h.reads, by rw [hnone, List.append_nil], by rwa [hnone, List.append_nil],
    fun other _ => ?_⟩
  by_cases heq : other = scope'
  · simpa [heq] using h.consecutive
  · exact h.nested other heq

end Counted

/-! ## The run of the tokenizer -/

namespace Tree

variable {t : Tree} {crumbs : List Crumb}

/-- Every identifier of `t` that is not missing has a text. -/
def Spelled (source : String) (t : Tree) : Prop :=
  ∀ n ∈ t.preorder, n.missing = false → n.isLeaf = true → n.kind = "identifier" →
    n.text source ≠ ""

theorem Spelled.child {c : Tree} (h : t.Spelled source) (hc : c ∈ t.children) :
    c.Spelled source :=
  fun n hn => h n (mem_preorder_iff.mpr (.inr ⟨c, hc, hn⟩))

/-- A string literal, a number or any other leaf gives its own token. -/
theorem spotsAt_of_whole (htrivia : t.isTrivia = false) (hopens : t.opensBindings = false)
    (hwhole : (t.isStringLiteral || t.isNumericLiteral || t.isLeaf) = true) :
    spotsAt source crumbs t = if (t.text source).isEmpty then [] else [⟨t, crumbs⟩] := by
  obtain ⟨d, cs⟩ := t
  have hwhole : ((node d cs).isStringLiteral || (node d cs).isNumericLiteral || cs.isEmpty) =
      true := hwhole
  rw [spotsAt, if_neg (by simp [htrivia]), if_neg (by simp only [hopens, hwhole]; decide)]

/-- Any other node gives the tokens of its children. -/
theorem spotsAt_of_parts (htrivia : t.isTrivia = false)
    (hparts : t.opensBindings = true ∨
      (t.isStringLiteral || t.isNumericLiteral || t.isLeaf) = false) :
    spotsAt source crumbs t = spotsIn source t crumbs 0 t.children := by
  obtain ⟨d, cs⟩ := t
  have hparts : ((node d cs).opensBindings ||
      !((node d cs).isStringLiteral || (node d cs).isNumericLiteral || cs.isEmpty)) = true := by
    rcases hparts with hopens | hparts
    · rw [hopens, Bool.true_or]
    · have hparts : ((node d cs).isStringLiteral || (node d cs).isNumericLiteral ||
        cs.isEmpty) = false := hparts
      rw [hparts, Bool.not_false, Bool.or_true]
  rw [spotsAt, if_neg (by simp [htrivia]), if_pos hparts]
  rfl

/-- The step at a token that declares nothing. -/
theorem counted_token {kind : TokenKind} {binding : Option Nat} (h : Consecutive prev)
    (hdeclares : Spot.declares ⟨t, crumbs⟩ = false)
    (hk : ∀ k : Token, k.text = t.text source → k.kind = kind → k.binding = binding →
      HasOrdinal (declaring prev) (⟨t, crumbs⟩, k)) :
    Counted source (scopePath? crumbs) prev (if (t.text source).isEmpty then [] else [⟨t, crumbs⟩])
      (.ofTokens (declaring prev), t.token source kind binding) := by
  unfold token
  dsimp only
  split
  · exact .nil h
  · rw [← declaring_concat_of_not hdeclares]
    exact .singleton h ⟨rfl, rfl⟩ rfl (hk _ rfl rfl rfl)

/-- The step at a token that is no name. -/
theorem counted_token_of_not_isName {kind : TokenKind} (h : Consecutive prev)
    (hname : Spot.isName ⟨t, crumbs⟩ = false) :
    Counted source (scopePath? crumbs) prev (if (t.text source).isEmpty then [] else [⟨t, crumbs⟩])
      (.ofTokens (declaring prev), t.token source kind none) := by
  have hdeclares : Spot.declares ⟨t, crumbs⟩ = false := by simp [Spot.declares, hname]
  have hlooks : Spot.looksUp ⟨t, crumbs⟩ = false := by simp [Spot.looksUp, hname]
  refine counted_token h hdeclares fun k _ _ hbinding => ⟨?_, ?_, ?_⟩
  · simp [hdeclares]
  · simp [hbinding]
  · simp [hlooks]

/-- The step at a name that is declared: it is the next one of its scope. -/
theorem counted_declaration {kind : TokenKind} (h : Consecutive prev)
    (hname : Spot.isName ⟨t, crumbs⟩ = true) (hdeclares : declaresAt crumbs = true)
    (htext : t.text source ≠ "") :
    Counted source (scopePath? crumbs) prev (if (t.text source).isEmpty then [] else [⟨t, crumbs⟩])
      ((Bindings.ofTokens (declaring prev)).declare (t.text source) kind,
        t.token source kind (some (Bindings.ofTokens (declaring prev)).next)) := by
  have hspot : Spot.declares ⟨t, crumbs⟩ = true := by simp [Spot.declares, hname, hdeclares]
  have hlooks : Spot.looksUp ⟨t, crumbs⟩ = false := by
    simp [Spot.looksUp, looksUpAt_of_declaresAt hdeclares]
  have hempty : (t.text source).isEmpty = false := by simpa using htext
  rw [Bindings.next_ofTokens]
  simp only [token, hempty, Bool.false_eq_true, if_false]
  let k : Token := ⟨kind, t.text source, t.start, (t.text source).utf8ByteSize,
    some (declaring prev).length⟩
  have hbindings : (Bindings.ofTokens (declaring prev)).declare (t.text source) kind =
      .ofTokens (declaring (prev ++ [(⟨t, crumbs⟩, k)])) := by
    rw [declaring_concat_of_declares hspot, Bindings.ofTokens_concat]
  rw [hbindings]
  exact .singleton h ⟨rfl, rfl⟩ rfl ⟨fun _ => rfl, by simp [hspot], by simp [hlooks]⟩

/-- The step at a name that is used. -/
theorem counted_reference {kind : TokenKind} {binding : Option Nat} (h : Consecutive prev)
    (hdeclares : declaresAt crumbs = false)
    (hfound : ∀ i, binding = some i →
      (Bindings.ofTokens (declaring prev)).names.lookup (t.text source) = some (kind, i))
    (hlatest : looksUpAt crumbs = true → binding =
      ((Bindings.ofTokens (declaring prev)).names.lookup (t.text source)).map Prod.snd) :
    Counted source (scopePath? crumbs) prev (if (t.text source).isEmpty then [] else [⟨t, crumbs⟩])
      (.ofTokens (declaring prev), t.token source kind binding) := by
  have hspot : Spot.declares ⟨t, crumbs⟩ = false := by simp [Spot.declares, hdeclares]
  refine counted_token h hspot fun k htext hkind hbinding => ⟨?_, fun _ i => ?_, ?_⟩
  · simp [hspot]
  · dsimp only
    rw [hbinding, htext, hkind]
    exact fun hi => Bindings.lookup_ofTokens.mp (hfound i hi)
  · intro hlooks i d hd
    dsimp only at hd ⊢
    rw [htext] at hd
    have hlooks : looksUpAt crumbs = true := (Bool.and_eq_true_iff.mp hlooks).2
    rw [hbinding, hlatest hlooks, Bindings.lookup_ofTokens.mpr ⟨d, hd, rfl⟩, Option.map_some]

/-- A literal is no name. -/
theorem isName_of_literal (h : (t.isStringLiteral || t.isNumericLiteral) = true) :
    Spot.isName ⟨t, crumbs⟩ = false := by
  rw [Spot.isName, Bool.and_eq_false_iff]
  refine .inl (Bool.eq_false_iff.mpr fun hkind => ?_)
  simp [isStringLiteral, isNumericLiteral, beq_iff_eq.mp hkind] at h

mutual

/-- The tokens of the node `t`, reached through `crumbs`, are counted on from `prev`, those in front
of it. -/
theorem counted_tokensAt : ∀ {t : Tree} (crumbs : List Crumb) {prev : List (Spot × Token)},
    t.Spelled source → Consecutive prev →
    Counted source (scopePath? crumbs) prev (spotsAt source crumbs t)
      (tokensAt source crumbs (.ofTokens (declaring prev)) t)
  | node d cs, crumbs, prev, hspelled, hprev => by
    have hparts {prev : List (Spot × Token)} (h : Consecutive prev) :=
      counted_tokensIn (node d cs) crumbs 0 (fun c hc => hspelled.child hc) h
    rw [tokensAt]
    split
    · next htrivia =>
      have htrivia : isTrivia (node d cs) = true := htrivia
      rw [spotsAt, if_pos htrivia]
      exact .nil hprev
    next htrivia =>
    have htrivia : isTrivia (node d cs) = false := by simpa [isTrivia] using htrivia
    split
    · -- the scope of the node starts with no names and leaves those around it as they are
      next hopens =>
      rw [spotsAt_of_parts htrivia (.inl hopens)]
      exact (hparts consecutive_nil).enclose hprev fun p hp => scope?_ne_of_opensBindings hopens hp
    next hopens =>
    have hopens : opensBindings (node d cs) = false := by simpa using hopens
    split
    · next hliteral =>
      rw [spotsAt_of_whole htrivia hopens (by simp [hliteral])]
      exact counted_token_of_not_isName hprev (isName_of_literal (by simp [hliteral]))
    next hliteral =>
    split
    · next hnumeric =>
      rw [spotsAt_of_whole htrivia hopens (by simp [hnumeric])]
      exact counted_token_of_not_isName hprev (isName_of_literal (by simp [hnumeric]))
    next hnumeric =>
    split
    · next hcs =>
      have hleaf : isLeaf (node d cs) = false := by simpa [isLeaf] using hcs
      rw [spotsAt_of_parts htrivia (.inr (by simp [hliteral, hnumeric, hleaf]))]
      have := hparts hprev
      rwa [scopePath?_cons, if_neg (by simp [hopens])] at this
    next hcs =>
    have hleaf : isLeaf (node d cs) = true := by simpa [isLeaf] using hcs
    have hspot : spotsAt source crumbs (node d cs) = _ :=
      spotsAt_of_whole htrivia hopens (by simp [hleaf])
    split
    · next hkind =>
      rw [hspot]
      have hkind : kind (node d cs) = "identifier" := by simpa using hkind
      rcases nameUse_cases ((node d cs).text source) (.ofTokens (declaring prev)) crumbs with
        ⟨kind, huse, hdeclares⟩ | ⟨kind, binding, huse, hdeclares, hfound, hlatest⟩
      · have hmissing : missing (node d cs) = false := by
          rw [isTrivia, Bool.or_eq_false_iff] at htrivia
          exact htrivia.2
        rw [huse]
        exact counted_declaration hprev (by simp [Spot.isName, hkind, hleaf]) hdeclares
          (hspelled _ (mem_preorder_self _) hmissing hleaf hkind)
      · rw [huse]
        exact counted_reference hprev hdeclares hfound hlatest
    · next hkind =>
      rw [hspot]
      exact counted_token_of_not_isName hprev (by simp [Spot.isName, hkind])

/-- The tokens of the children `cs` of `parent`, from position `i` on, are counted on from
`prev`. -/
theorem counted_tokensIn : ∀ {cs : List Tree} (parent : Tree) (crumbs : List Crumb) (i : Nat)
    {prev : List (Spot × Token)}, (∀ c ∈ cs, c.Spelled source) → Consecutive prev →
    Counted source (scopePath? ((parent, i) :: crumbs)) prev (spotsIn source parent crumbs i cs)
      (tokensIn source parent crumbs i (.ofTokens (declaring prev)) cs)
  | [], parent, crumbs, i, prev, _, hprev => by
    rw [spotsIn, tokensIn]
    exact .nil hprev
  | c :: cs, parent, crumbs, i, prev, hspelled, hprev => by
    obtain ⟨hc, hcs⟩ := List.forall_mem_cons.mp hspelled
    have hfirst := counted_tokensAt ((parent, i) :: crumbs) hc hprev
    have hrest := counted_tokensIn parent crumbs (i + 1) hcs hfirst.consecutive
    rw [spotsIn, tokensIn]
    exact hfirst.append (hfirst.bindings_eq ▸ hrest) fun p hp q hq => scope?_eq_of_children hp hq

end

end Tree

end Counting

/-- Let every identifier of `t` that is not missing have a text. The tokens are read off the nodes
that give them. The tokens of any one `scope`, without those of the scopes inside it, are numbered
in order: a declaring one has the number of declaring ones in front of it. Any other one that has a
number has the text and kind of the declaring one with this number, which stands in front of it, and
no declaring one of this text stands between the two. A name whose place does not tell otherwise
does get the number of the latest declaration of its text. -/
theorem ordinals_denote_declarations (source : String) (t : Tree)
    (h : ∀ n ∈ t.preorder, n.missing = false → n.isLeaf = true → n.kind = "identifier" →
      n.text source ≠ "") :
    List.Forall₂ (fun p k => k.start = p.node.start ∧ k.text = p.node.text source)
      (t.spots source) (t.tokens source) ∧
    ∀ scope front x back,
      inScope scope ((t.spots source).zip (t.tokens source)) = front ++ x :: back →
      (x.1.declares = true → x.2.binding = some (declaring front).length) ∧
      (x.1.declares = false → ∀ i, x.2.binding = some i →
        ∃ d, IsLatest (declaring front) x.2.text i d ∧ d.kind = x.2.kind) ∧
      (x.1.looksUp = true → ∀ i d, IsLatest (declaring front) x.2.text i d →
        x.2.binding = some i) := by
  have hrun : Counted source none [] (t.spots source) (Tree.tokensAt source [] {} t) :=
    Tree.counted_tokensAt [] h consecutive_nil
  have hscope (scope : Option (List Nat)) :
      Consecutive (inScope scope ((t.spots source).zip (t.tokens source))) := by
    by_cases htop : scope = none
    · subst htop
      exact hrun.consecutive
    · exact hrun.nested scope htop
  refine ⟨hrun.reads, fun scope front x back hown => ?_⟩
  have hx := hscope scope front x (by simp [hown])
  exact ⟨hx.of_declares, hx.of_binding, hx.of_isLatest⟩

/-- A class with a parameter of the same name as a variable around it. -/
def shadowed : String := "int b, a; class C \x7b int A(int a) => a; \x7d a;"

def shadowedTree : Tree :=
  .node { kind := "compilation_unit", length := 43 }
    [.node { kind := "global_statement", length := 9 }
      [.node { kind := "local_declaration_statement", length := 9 }
        [.node { kind := "variable_declaration", length := 8 }
          [.ofLeaf "predefined_type" "type" 0 3,
            .node { kind := "variable_declarator", start := 4, length := 1 }
              [.ofLeaf "identifier" "name" 4 1],
            .ofToken "," 5,
            .node { kind := "variable_declarator", start := 7, length := 1 }
              [.ofLeaf "identifier" "name" 7 1]],
          .ofToken ";" 8]],
      .ofClass 10 30
        [.node { kind := "method_declaration", start := 20, length := 18 }
          [.ofLeaf "predefined_type" "returns" 20 3, .ofLeaf "identifier" "name" 24 1,
            .node { kind := "parameter_list", label := some "parameters", start := 25, length := 7 }
              [.ofToken "(" 25,
                .node { kind := "parameter", start := 26, length := 5 }
                  [.ofLeaf "predefined_type" "type" 26 3, .ofLeaf "identifier" "name" 30 1],
                .ofToken ")" 31],
            .node { kind := "arrow_expression_clause", label := some "body", start := 33,
                    length := 4 }
              [.ofToken "=>" 33, .node { kind := "identifier", start := 36, length := 1 } []],
            .ofToken ";" 37]],
      .node { kind := "global_statement", start := 41, length := 2 }
        [.node { kind := "expression_statement", start := 41, length := 2 }
          [.node { kind := "identifier", start := 41, length := 1 } [], .ofToken ";" 42]]]

example : (shadowedTree.tokens shadowed).filterMap (·.binding) = [0, 1, 0, 0, 1] := by
  decide +kernel

/-- After the class its parameter is forgotten: the name stands for the second variable again. -/
theorem ordinals_denote_declarations_shadowed :
    (∀ n ∈ shadowedTree.preorder, n.missing = false → n.isLeaf = true → n.kind = "identifier" →
      n.text shadowed ≠ "") ∧
    ∃ front x back,
      inScope none ((shadowedTree.spots shadowed).zip (shadowedTree.tokens shadowed)) =
        front ++ x :: back ∧
      x.2.start = 41 ∧ x.1.declares = false ∧ x.2.binding = some 1 ∧
      ∃ d, IsLatest (declaring front) "a" 1 d ∧ d.kind = x.2.kind := by
  have hspelled : ∀ n ∈ shadowedTree.preorder, n.missing = false → n.isLeaf = true →
      n.kind = "identifier" → n.text shadowed ≠ "" := by decide +kernel
  let own := inScope none ((shadowedTree.spots shadowed).zip (shadowedTree.tokens shadowed))
  have hread : own[5]?.map (fun x => (x.2.start, x.1.declares, x.2.binding, x.2.text)) =
      some (41, false, some 1, "a") := by decide +kernel
  obtain ⟨x, hget, hx⟩ := Option.map_eq_some_iff.mp hread
  obtain ⟨hstart, hdeclares, hbinding, htext⟩ : x.2.start = 41 ∧ x.1.declares = false ∧
      x.2.binding = some 1 ∧ x.2.text = "a" := by simpa using hx
  have hown : own = own.take 5 ++ x :: own.drop 6 := by
    obtain ⟨hlt, rfl⟩ := List.getElem?_eq_some_iff.mp hget
    simp
  obtain ⟨-, hlatest, -⟩ :=
    (ordinals_denote_declarations shadowed shadowedTree hspelled).2 none _ _ _ hown
  refine ⟨hspelled, _, x, _, hown, hstart, hdeclares, hbinding, ?_⟩
  rw [← htext]
  exact hlatest hdeclares 1 hbinding

end CodeAtlas
