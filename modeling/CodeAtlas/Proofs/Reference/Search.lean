import CodeAtlas.Proofs.Reference.Links

/-!
# The search for the type of an expression

The type of an expression follows from that of at most one other expression, its *basis*, so the
search for it is a walk along bases. What is found depends on the texts on the way and on the names
that are looked up there, and on what stands around the expression only up to a conditional access.

## Main definitions

* `Tree.basis?`: the expression from whose type that of another one follows.
* `Reader.typeFrom`: the type of an expression, given that of its basis.
* `Tree.searched`, `Reader.asked?`: the expressions that a search meets and the names that they look
  up.
* `Reader.Akin`: two readers of which one may stand for the other below a node.

## Main statements

* `Reader.typeOf_succ`: one step of a search.
* `Reader.typeOf_congr`: a search depends on the names that it looks up.
* `Reader.typeOf_append`: a search does not see ancestors outside of conditional accesses.
-/
namespace CodeAtlas

/-! ## One step of a search -/

/-- The expression from whose type that of the expression `t` follows, after the ancestors of that
expression. -/
def Tree.basis? (above : List Tree) (t : Tree) : Option (List Tree × Tree) :=
  match t.kind with
  | "member_access_expression" =>
    match t.field? "expression", t.field? "name" with
    | some receiver, some _ => some (t :: above, receiver)
    | _, _ => none
  | "invocation_expression" =>
    match t.callee? above with
    | some (.member receiver around _) => some (around, receiver)
    | _ => none
  | "parenthesized_expression" | "equals_value_clause" | "await_expression"
  | "postfix_unary_expression" => t.namedChildren.head?.map (t :: above, ·)
  | _ => none

namespace Reader

variable {r r' : Reader} {place : Place} {locals locals' : Locals} {above outer : List Tree}
  {t : Tree} {fuel : Nat}

/-- The type of the expression `t`, given the `type` of its basis. -/
def typeFrom (r : Reader) (place : Place) (locals : Locals) (above : List Tree) (t : Tree)
    (type : Option Nat) : Option Nat :=
  match t.kind with
  | "identifier" => r.identifierType place locals t
  | "this_expression" | "this" => place.type
  | "base_expression" | "base" => place.type.bind r.table.superclass?
  | "member_access_expression" =>
    match t.field? "expression", t.field? "name" with
    | some _, some name =>
      match type with
      | some type => (r.table.dataMember type (r.text name.nameSite)).bind r.table.valueType?
      | none => r.dottedType? place locals t
    | _, _ => none
  | "invocation_expression" =>
    match t.callee? above with
    | none => none
    | some (.plain site) => (r.plainCall? place locals t site).bind r.table.valueType?
    | some (.member _ _ site) => do
      let type ← type
      let called ← r.table.calledMethod (r.text site) (some type) none t.argumentCount
      r.table.valueType? called
  | "object_creation_expression" | "cast_expression" => (t.field? "type").bind (r.named? place)
  | "as_expression" => (t.field? "right").bind (r.named? place)
  | "generic_name" | "qualified_name" => r.named? place t
  | "parenthesized_expression" | "equals_value_clause" | "await_expression"
  | "postfix_unary_expression" => type
  | _ => none

/-- One step of a search for the type of `t`: the type is known, or it follows from that of the
basis. -/
theorem typeOf_succ (r : Reader) (place : Place) (locals : Locals) (fuel : Nat)
    (above : List Tree) (t : Tree) : r.typeOf place locals (fuel + 1) above t =
      match t.basis? above with
      | none => some (r.typeFrom place locals above t none)
      | some (around, s) =>
        (r.typeOf place locals fuel around s).map (r.typeFrom place locals above t) := by
  rw [typeOf]
  unfold Tree.basis? typeFrom
  generalize t.kind = kind
  split
  case h_6 => cases t.field? "expression" <;> cases t.field? "name" <;> rfl
  case h_7 =>
    cases t.callee? above with
    | none => rfl
    | some callee => cases callee <;> rfl
  case h_13 | h_14 | h_15 | h_16 =>
    cases t.namedChildren.head? with
    | none => rfl
    | some inner => simp
  case h_17 => simp_all
  all_goals rfl

/-! ## What a search depends on -/

/-- The name that the expression `t` looks up first if it is a dotted one. -/
def dottedHead (r : Reader) (t : Tree) : String :=
  String.ofList (Text.trimChars ((r.text t).toList.takeWhile (· != '.')))

/-- The name that the type of the expression `t` depends on, other than through its basis. -/
def asked? (r : Reader) (t : Tree) : Option String :=
  match t.kind with
  | "identifier" => some (r.text t)
  | "member_access_expression" => some (r.dottedHead t)
  | "invocation_expression" =>
    match t.callee? [] with
    | some (.plain site) => some (r.text site)
    | _ => none
  | _ => none

/-- The readers `r` and `r'` find the same in the table and read the same texts below `t`. -/
structure Akin (r r' : Reader) (t : Tree) : Prop where
  table_eq : r'.table = r.table
  path_eq : r'.path = r.path
  granular_eq : r'.granular = r.granular
  text_eq : ∀ n ∈ t.preorder, r'.text n = r.text n

namespace Akin

theorem refl (r : Reader) (t : Tree) : r.Akin r t :=
  ⟨rfl, rfl, rfl, fun _ _ => rfl⟩

theorem below {n : Tree} (h : r.Akin r' t) (hn : n ∈ t.preorder) : r.Akin r' n :=
  ⟨h.table_eq, h.path_eq, h.granular_eq, fun _ hm => h.text_eq _ (Tree.mem_preorder_trans hn hm)⟩

theorem text (h : r.Akin r' t) : r'.text t = r.text t :=
  h.text_eq t (Tree.mem_preorder_self t)

theorem named? (h : r.Akin r' t) : r'.named? place t = r.named? place t := by
  unfold Reader.named?
  rw [h.table_eq, h.text]

theorem bind_named? (h : r.Akin r' t) (field : String) :
    (t.field? field).bind (r'.named? place) = (t.field? field).bind (r.named? place) := by
  refine Option.bind_congr fun c hc => ?_
  exact (h.below (Tree.mem_preorder_of_field? hc)).named?

end Akin

theorem binds_eq_of_lookup_eq {x : String} (h : locals'.lookup x = locals.lookup x) :
    locals'.binds x = locals.binds x :=
  congrArg Option.isSome h

theorem identifierType_congr (hr : r.Akin r' t)
    (h : locals'.lookup (r.text t) = locals.lookup (r.text t)) :
    r'.identifierType place locals' t = r.identifierType place locals t := by
  unfold identifierType
  rw [hr.table_eq, hr.text]
  dsimp only
  rw [h]

theorem dottedType?_congr (hr : r.Akin r' t)
    (h : locals'.lookup (r.dottedHead t) = locals.lookup (r.dottedHead t)) :
    r'.dottedType? place locals' t = r.dottedType? place locals t := by
  have hbinds := binds_eq_of_lookup_eq h
  unfold dottedHead at hbinds
  unfold dottedType?
  rw [hr.table_eq, hr.text]
  dsimp only
  rw [hbinds]

theorem plainCall?_congr {site : Tree} (hr : r.Akin r' t) (hsite : site ∈ t.preorder)
    (h : locals'.lookup (r.text site) = locals.lookup (r.text site)) :
    r'.plainCall? place locals' t site = r.plainCall? place locals t site := by
  unfold plainCall?
  rw [hr.table_eq, hr.text_eq site hsite]
  dsimp only
  rw [binds_eq_of_lookup_eq h]

end Reader

namespace Tree

/-- The expressions that a search bounded by `fuel` meets below the ancestors `above`. -/
def searched : (fuel : Nat) → (above : List Tree) → Tree → List Tree
  | 0, _, _ => []
  | fuel + 1, above, t =>
    t :: match t.basis? above with
      | none => []
      | some (around, s) => searched fuel around s

variable {above outer : List Tree} {t : Tree}

/-- Whether a call is one by plain name does not depend on what stands around it. -/
theorem callee?_plain {site : Tree}
    (h : t.callee? above = some (.plain site)) : t.callee? [] = some (.plain site) := by
  obtain ⟨function, hfunction, h⟩ := Option.bind_eq_some_iff.mp h
  refine Option.bind_eq_some_iff.mpr ⟨function, hfunction, ?_⟩
  split at h
  case h_1 hkind => simpa [hkind] using h
  case h_2 hkind => simpa [hkind] using h
  all_goals simp [Option.bind_eq_some_iff] at h

theorem conditionAbove?_append (h : conditionAbove? outer = none) (above : List Tree) :
    conditionAbove? (above ++ outer) =
      (conditionAbove? above).map fun p => (p.1, p.2 ++ outer) := by
  induction above with
  | nil => exact h
  | cons a above ih =>
    rw [List.cons_append, conditionAbove?, conditionAbove?]
    split
    · simp [Function.comp_def]
    · exact ih

end Tree

/-- The same function of a call in a larger tree, whose further ancestors are `outer`. -/
def Callee.below (outer : List Tree) : Callee → Callee
  | plain site => plain site
  | member receiver above site => member receiver (above ++ outer) site

namespace Tree

variable {above outer : List Tree} {t : Tree}

theorem callee?_append (h : conditionAbove? outer = none) (above : List Tree) (t : Tree) :
    t.callee? (above ++ outer) = (t.callee? above).map (Callee.below outer) := by
  unfold callee?
  cases t.field? "function" with
  | none => rfl
  | some function =>
    simp only [Option.bind_eq_bind, Option.bind_some, conditionAbove?_append h]
    split
    case h_1 | h_2 => rfl
    case h_3 => cases function.field? "name" <;> cases function.field? "expression" <;> rfl
    case h_4 => cases function.field? "name" <;> cases conditionAbove? above <;> rfl
    case h_5 =>
      simp only [Option.map_bind, Function.comp_def]
      rfl
    case h_6 => rfl

theorem basis?_append (h : conditionAbove? outer = none) (above : List Tree) (t : Tree) :
    t.basis? (above ++ outer) = (t.basis? above).map fun p => (p.1 ++ outer, p.2) := by
  unfold basis?
  rw [callee?_append h]
  split
  case h_1 => cases t.field? "expression" <;> cases t.field? "name" <;> rfl
  case h_2 =>
    cases t.callee? above with
    | none => rfl
    | some callee => cases callee <;> rfl
  case h_7 => rfl
  all_goals cases t.namedChildren.head? <;> rfl

end Tree

namespace Reader

variable {r r' : Reader} {place : Place} {locals locals' : Locals} {above outer : List Tree}
  {t : Tree} {fuel : Nat}

/-- What an expression adds to the type of its basis depends on the texts below it and on the name
that it looks up. -/
theorem typeFrom_congr (hr : r.Akin r' t)
    (h : ∀ x, r.asked? t = some x → locals'.lookup x = locals.lookup x) :
    r'.typeFrom place locals' above t = r.typeFrom place locals above t := by
  funext type
  have hfield (field : String) : (t.field? field).bind (r'.named? place) =
      (t.field? field).bind (r.named? place) := hr.bind_named? field
  unfold typeFrom
  split
  case h_1 hkind => exact identifierType_congr hr (h _ (by simp [asked?, hkind]))
  case h_6 hkind =>
    have hdotted : r'.dottedType? place locals' t = r.dottedType? place locals t :=
      dottedType?_congr hr (h _ (by simp [asked?, hkind]))
    split
    · next name hname =>
      rw [hr.table_eq, hr.text_eq _ (Tree.nameSite_mem_of_field? hname), hdotted]
    · rfl
  case h_7 hkind =>
    split
    · rfl
    · next site hsite =>
      have hmem : site ∈ t.preorder := Tree.site_mem_of_callee? hsite
      have hplain : r'.plainCall? place locals' t site = r.plainCall? place locals t site :=
        plainCall?_congr hr hmem (h _ (by simp [asked?, hkind, Tree.callee?_plain hsite]))
      rw [hr.table_eq, hplain]
    · next site hsite =>
      have hmem : site ∈ t.preorder := Tree.site_mem_of_callee? hsite
      rw [hr.table_eq, hr.text_eq site hmem]
  case h_4 | h_5 => rw [hr.table_eq]
  case h_8 | h_9 | h_10 => exact hfield _
  case h_11 | h_12 => exact hr.named?
  all_goals rfl

/-- A search depends on the texts that it reads and on the names that it looks up. -/
theorem typeOf_congr (h : ∀ s ∈ t.searched fuel above, r.Akin r' s ∧
    ∀ x, r.asked? s = some x → locals'.lookup x = locals.lookup x) :
    r'.typeOf place locals' fuel above t = r.typeOf place locals fuel above t := by
  induction fuel generalizing above t with
  | zero => rfl
  | succ fuel ih =>
    rw [Tree.searched, List.forall_mem_cons] at h
    rw [typeOf_succ, typeOf_succ, typeFrom_congr h.1.1 h.1.2]
    cases hbasis : t.basis? above with
    | none => rfl
    | some p =>
      rw [hbasis] at h
      dsimp only
      rw [ih h.2]

/-! ## Ancestors outside of conditional accesses -/

@[simp] theorem typeFrom_append (h : Tree.conditionAbove? outer = none) :
    r.typeFrom place locals (above ++ outer) t = r.typeFrom place locals above t := by
  funext type
  unfold typeFrom
  rw [Tree.callee?_append h]
  cases t.callee? above with
  | none => rfl
  | some callee => cases callee <;> rfl

/-- A search does not see the ancestors around which there is no conditional access. -/
@[simp] theorem typeOf_append (h : Tree.conditionAbove? outer = none) :
    r.typeOf place locals fuel (above ++ outer) t = r.typeOf place locals fuel above t := by
  induction fuel generalizing above t with
  | zero => rfl
  | succ fuel ih =>
    rw [typeOf_succ, typeOf_succ, Tree.basis?_append h, typeFrom_append h]
    cases t.basis? above with
    | none => rfl
    | some p =>
      dsimp only [Option.map_some]
      rw [ih]

@[simp] theorem typeOf?_append (h : Tree.conditionAbove? outer = none) :
    r.typeOf? place locals (above ++ outer) t = r.typeOf? place locals above t :=
  congrArg Option.join (typeOf_append h)

/-- The method that a call denotes depends on the name that the call looks up and on the type of its
basis. -/
theorem callTarget?_congr (hr : r.Akin r' t) (hout : Tree.conditionAbove? outer = none)
    (hkind : t.kind = "invocation_expression")
    (h : ∀ x, r.asked? t = some x → locals'.lookup x = locals.lookup x)
    (htype : ∀ around s, t.basis? above = some (around, s) →
      r'.typeOf? place locals' (around ++ outer) s = r.typeOf? place locals around s) :
    r'.callTarget? place locals' (above ++ outer) t = r.callTarget? place locals above t := by
  unfold callTarget?
  rw [Tree.callee?_append hout]
  cases hcallee : t.callee? above with
  | none => rfl
  | some callee =>
    have hsite := Tree.site_mem_of_callee? hcallee
    cases callee with
    | plain site =>
      have hplain : r'.plainCall? place locals' t site = r.plainCall? place locals t site :=
        plainCall?_congr hr hsite (h _ (by simp [asked?, hkind, Tree.callee?_plain hcallee]))
      simp only [Option.map_some, Callee.below, Option.bind_eq_bind, Option.bind_some, hplain]
    | member receiver around site =>
      have hbasis : t.basis? above = some (around, receiver) := by
        simp [Tree.basis?, hkind, hcallee]
      simp only [Option.map_some, Callee.below, Option.bind_eq_bind, Option.bind_some,
        htype around receiver hbasis, hr.table_eq, hr.text_eq site hsite]

end Reader

end CodeAtlas
