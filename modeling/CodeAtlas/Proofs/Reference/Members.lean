import CodeAtlas.Graph.Build
import CodeAtlas.Proofs.Reference.Dependence

/-!
# Members on their own

A member leaves the names as it found them, and what stands around it does not matter to it unless
that is a conditional access. So a type contributes what its parameters, its bases and its members
do, and each member contributes what it would on its own: neither its siblings nor the rest of the
file have a part in it.

## Main definitions

* `Reader.alone`: what a node contributes on its own.

## Main statements

* `Reader.walk_alone`: ancestors outside of conditional accesses do not matter.
* `Reader.walk_akin`: the rest of the file does not matter.
* `Reader.walk_type_eq_members`: a type contributes what its parts do.
-/
namespace CodeAtlas

/-- No part of a type is a file-scoped namespace. -/
theorem Role.ofTypeDeclaration_ne_fileScope (t : Tree) (i : Nat) (c : Tree) :
    ofTypeDeclaration t i c ≠ .fileScope := by
  simp only [ofTypeDeclaration, first, only]
  grind

namespace Reader

variable {r r' : Reader} {role : Role} {place : Place} {locals : Locals} {above outer : List Tree}
  {root t c body : Tree} {cs ds : List Tree} {f : Nat → Tree → Role} {i k : Nat}

/-- What the node `c` contributes that is read as code on its own. -/
def alone (r : Reader) (place : Place) (locals : Locals) (c : Tree) : List Contribution :=
  (r.walk .code place [] locals c).2

/-! ## What stands around a node -/

section Around

variable (hr : r.Akin r' root) (hout : Tree.conditionAbove? outer = none)
  (htype : ∀ above t, Tree.Within root above t → ∀ place locals,
    r'.typeOf? place locals (above ++ outer) t = r.typeOf? place locals above t)
include hr hout htype

theorem sameAnswers_of_within (h : Tree.Within root above t) :
    r.SameAnswers r' place locals locals above (above ++ outer) t where
  lookup_eq _ _ := rfl
  typeOf?_eq := htype above t h place locals
  receiver_eq e he := htype (t :: above) e (h.child (Tree.mem_children_of_field? he)) place locals
  callTarget?_eq hkind :=
    callTarget?_congr (hr.below h.mem_preorder) hout hkind (fun _ _ => rfl) fun around s hs =>
      htype around s (h.of_basis? hs) place locals

theorem walk_around : r'.walk role place outer locals root = r.walk role place [] locals root := by
  have hanswered : Answered r r' [] outer locals locals
      (r.visits role place [] locals [] root) := by
    intro v hv _ inner bs habove _
    have hwithin : Tree.Within root v.above v.node :=
      forall_mem_visits (P := fun _ above t => Tree.Within root above t) r
        (fun _ _ _ _ _ h hc => h.child (List.mem_of_getElem? hc)) root _ _ _ _ _ .root v hv
    rw [habove, List.append_nil] at hwithin
    rw [List.append_nil]
    exact sameAnswers_of_within hr hout htype hwithin
  obtain ⟨bs, out, hw, hw'⟩ := walk_like root hr role place [] outer locals locals [] hanswered
  rw [hw, hw']

end Around

/-- Ancestors outside of conditional accesses do not matter to a walk. -/
theorem walk_alone (hout : Tree.conditionAbove? outer = none) :
    r.walk role place outer locals t = r.walk role place [] locals t :=
  walk_around (.refl r t) hout fun _ _ _ _ _ => typeOf?_append hout

/-- Nor does the rest of the file. -/
theorem walk_akin (hr : r.Akin r' t) (hsteps : t.size ≤ r.steps) (hsteps' : t.size ≤ r'.steps) :
    r'.walk role place [] locals t = r.walk role place [] locals t := by
  refine walk_around hr rfl fun above s hs place locals => ?_
  rw [List.append_nil]
  exact hr.typeOf? hsteps hsteps' hs

/-! ## Names after a member -/

@[simp] theorem walkAll_skipped :
    r.walkAll (fun _ _ => .skipped) place above i locals cs = (locals, []) := by
  induction cs generalizing place i with
  | nil => rfl
  | cons c cs ih =>
    cases c
    simp [walkAll, walk, ih]

/-- The plan of a type declaration. -/
@[simp] theorem codePlan_of_isType (h : t.typeKind?.isSome = true) :
    r.codePlan place locals above t = r.typeDeclarationPlan place locals t := by
  have hspace : (t.kind == "namespace_declaration") = false := by
    rw [beq_eq_false_iff_ne]
    intro hkind
    simp [Tree.typeKind?, hkind] at h
  have hscope : t.isFileScope = false := by
    rw [Tree.isFileScope, beq_eq_false_iff_ne]
    intro hkind
    simp [Tree.typeKind?, hkind] at h
  simp [codePlan, hspace, hscope, h]

/-- A comment is not looked into. -/
@[simp] theorem codePlan_of_comment (h : c.kind = "comment") :
    r.codePlan place locals above c = { place, locals } := by
  have hscope : c.isFileScope = false := by simp [Tree.isFileScope, h]
  have htype : c.typeKind? = none := by simp [Tree.typeKind?, h]
  have hmember : c.memberKind? = none := by simp [Tree.memberKind?, h]
  have hflow : c.controlFlow? = none := by simp [Tree.controlFlow?, h]
  have hstatement : r.statementPlan place locals above c = { place, locals } := by
    unfold statementPlan
    rw [h]
    rfl
  simp [codePlan, h, hscope, htype, hmember, hflow, hstatement]

/-- A declaration restores the names from before it, or is not looked into, and so is a comment. -/
theorem codePlan_settled (r : Reader) (place : Place) (locals : Locals) (above : List Tree)
    (h : c.declares = true ∨ c.kind = "comment") :
    (r.codePlan place locals above c).after = some locals ∨
      r.codePlan place locals above c = { place, locals } := by
  rcases h with h | h
  · by_cases htype : c.typeKind?.isSome = true
    · rw [codePlan_of_isType htype, typeDeclarationPlan]
      cases r.table.at? r.path c.start with
      | none => exact .inr rfl
      | some i => exact .inl rfl
    · obtain ⟨hmember, hlocal⟩ : c.memberKind?.isSome = true ∧ c.isLocalFunction = false := by
        simpa [Tree.declares, htype] using h
      obtain ⟨kind, hkind⟩ := Option.isSome_iff_exists.mp hmember
      refine .inl ?_
      unfold codePlan
      split
      · next hspace => simp [Tree.memberKind?, beq_iff_eq.mp hspace] at hkind
      · split
        · next hscope => simp [Tree.memberKind?, beq_iff_eq.mp hscope] at hkind
        · simp [hkind, memberPlan_eq, functionBinding, hlocal]
  · exact .inr (codePlan_of_comment h)

/-- A declaration leaves the names as it found them, and so does a comment. -/
theorem walk_fst_eq (h : c.declares = true ∨ c.kind = "comment") :
    (r.walk .code place above locals c).1 = locals := by
  rw [walk_eq_of_plan (by simp) (by simp)]
  dsimp only [plan]
  rcases codePlan_settled r place locals above h with h | h
  · rw [h]
    rfl
  · rw [h]
    simp [walkAll_skipped]

/-! ## The parts of a type -/

@[simp] theorem placeOf_eq_self (h : role ≠ .fileScope) : r.placeOf role place c = place := by
  rw [placeOf, if_neg h]

theorem walkAll_cons (h : f i c ≠ .fileScope) : r.walkAll f place above i locals (c :: cs) =
    let first := r.walk (f i c) place above locals c
    let rest := r.walkAll f place above (i + 1) first.1 cs
    (rest.1, first.2 ++ rest.2) := by
  rw [walkAll, placeOf_eq_self h]

/-- The siblings `cs` are walked before the siblings `ds`. -/
theorem walkAll_append (hf : ∀ i c, f i c ≠ .fileScope) (cs ds : List Tree) :
    r.walkAll f place above i locals (cs ++ ds) =
      let front := r.walkAll f place above i locals cs
      let back := r.walkAll f place above (i + cs.length) front.1 ds
      (back.1, front.2 ++ back.2) := by
  induction cs generalizing i locals with
  | nil => rfl
  | cons c cs ih =>
    have hlength : i + 1 + cs.length = i + (c :: cs).length := by
      rw [List.length_cons]
      omega
    rw [List.cons_append, walkAll_cons (hf i c), walkAll_cons (hf i c), ← hlength]
    simp only [ih, List.append_assoc]

/-- Nor do ancestors outside of conditional accesses matter to a walk through siblings. -/
theorem walkAll_alone (hout : Tree.conditionAbove? outer = none) :
    r.walkAll f place outer i locals cs = r.walkAll f place [] i locals cs := by
  induction cs generalizing place i locals with
  | nil => rfl
  | cons c cs ih =>
    rw [walkAll, walkAll, walk_alone hout]
    simp only [ih]

/-- A walk through siblings, taken apart at one of them. -/
theorem walkAll_at (hf : ∀ i c, f i c ≠ .fileScope) (hc : cs[k]? = some c) :
    r.walkAll f place above 0 locals cs =
      let front := r.walkAll f place above 0 locals (cs.take k)
      let here := r.walk (f k c) place above front.1 c
      let back := r.walkAll f place above (k + 1) here.1 (cs.drop (k + 1))
      (back.1, front.2 ++ here.2 ++ back.2) := by
  obtain ⟨hk, rfl⟩ := List.getElem?_eq_some_iff.mp hc
  have hlength : 0 + (cs.take k).length = k := by
    rw [Nat.zero_add, List.length_take, Nat.min_eq_left (Nat.le_of_lt hk)]
  have hsplit : r.walkAll f place above 0 locals (cs.take k ++ cs[k] :: cs.drop (k + 1)) = _ :=
    walkAll_append hf _ _
  rw [List.getElem_cons_drop, List.take_append_drop, hlength,
    List.drop_eq_getElem_cons hk] at hsplit
  simpa only [walkAll_cons (hf k cs[k]), List.append_assoc] using hsplit

/-- Members that leave the names as they found them are walked one by one. -/
theorem walkAll_eachCode
    (h : ∀ c ∈ cs, c.named = true → c.declares = true ∨ c.kind = "comment") :
    r.walkAll Role.eachCode place above i locals cs =
      (locals, (cs.filter (·.named)).flatMap fun c => (r.walk .code place above locals c).2) := by
  induction cs generalizing i with
  | nil => rfl
  | cons c cs ih =>
    obtain ⟨hc, hcs⟩ := List.forall_mem_cons.mp h
    rw [walkAll_cons (by unfold Role.eachCode; split <;> simp)]
    cases hnamed : c.named with
    | false =>
      cases c
      simp [Role.eachCode, hnamed, walk, ih hcs]
    | true => simp [Role.eachCode, hnamed, walk_fst_eq (hc hnamed), ih hcs]

/-- The body of a type leaves the names as it found them, and its members are walked one by one. -/
theorem walk_body
    (hmembers : ∀ c ∈ body.namedChildren, c.declares = true ∨ c.kind = "comment")
    (hplain : Tree.conditionAbove? (body :: above) = none) :
    r.walk .body place above locals body =
      (locals, body.namedChildren.flatMap (r.alone place locals)) := by
  have heach : r.walkAll Role.eachCode place (body :: above) 0 locals body.children = _ :=
    walkAll_eachCode fun c hc hnamed => hmembers c (List.mem_filter.mpr ⟨hc, hnamed⟩)
  rw [walk_eq_of_plan (by simp) (by simp)]
  simp only [plan, heach, Option.getD_none, List.nil_append]
  refine congrArg (locals, ·) (List.flatMap_congr fun c _ => ?_)
  exact congrArg Prod.snd (walk_alone hplain)

/-- The type `t` contributes what its parameters and its bases do and what each member in its `body`
does on its own. A member `c` on its own contributes the same in any file in which it has the same
text. -/
theorem walk_type_eq_members (r : Reader) (place : Place) (above : List Tree) (locals : Locals)
    {t body : Tree} {k : Nat} (htype : t.typeKind?.isSome = true)
    (hbody : t.children[k]? = some body) (hrole : Role.ofTypeDeclaration t k body = .body)
    (hkind : body.kind ≠ "conditional_access_expression")
    (hmembers : ∀ c ∈ body.namedChildren, c.declares = true ∨ c.kind = "comment")
    (hplain : Tree.conditionAbove? above = none) :
    (r.table.at? r.path t.start = none → (r.walk .code place above locals t).2 = []) ∧
    ∀ i, r.table.at? r.path t.start = some i →
      let inner : Place := { place with node := some i, type := some i }
      let front := r.walkAll (Role.ofTypeDeclaration t) inner [] 0 locals (t.children.take k)
      let back := r.walkAll (Role.ofTypeDeclaration t) inner [] (k + 1) front.1
        (t.children.drop (k + 1))
      (r.walk .code place above locals t).2 =
        front.2 ++ body.namedChildren.flatMap (r.alone inner front.1) ++ back.2 ∧
      ∀ r' c, r.Akin r' c → c.size ≤ r.steps → c.size ≤ r'.steps →
        r'.alone inner front.1 c = r.alone inner front.1 c := by
  have htypeKind : t.kind ≠ "conditional_access_expression" := by
    intro hkind
    simp [Tree.typeKind?, hkind] at htype
  have haround : Tree.conditionAbove? (t :: above) = none := by
    simpa [Tree.conditionAbove?, htypeKind] using hplain
  have hinside : Tree.conditionAbove? (body :: t :: above) = none := by
    simpa [Tree.conditionAbove?, hkind] using haround
  have hwalk : r.walk .code place above locals t = _ := walk_eq_of_plan (by simp) (by simp)
  rw [plan, codePlan_of_isType htype, typeDeclarationPlan] at hwalk
  refine ⟨fun hat => ?_, fun i hat => ⟨?_, fun r' c hr hsteps hsteps' => ?_⟩⟩
  · rw [hwalk, hat]
    simp [walkAll_skipped]
  · rw [hwalk, hat]
    simp only [walkAll_at (Role.ofTypeDeclaration_ne_fileScope t) hbody, hrole,
      walk_body hmembers hinside, walkAll_alone haround, List.nil_append]
  · exact congrArg Prod.snd (walk_akin hr hsteps hsteps')

/-- A class with two overloads of a method. -/
def overloadsClass : Tree :=
  .ofClass 0 42 [.ofOverload 10 3, .ofOverload 25 4]

def overloadsFile : SourceFile where
  path := "a.cs"
  text := "class C \x7b void A(int n); void A(long n); \x7d"
  tree := .node { kind := "compilation_unit", length := 42 } [overloadsClass]

/-- The class without the second overload. -/
def overloadFile : SourceFile where
  path := "a.cs"
  text := "class C \x7b void A(int n); \x7d"
  tree := .ofFile 26 [.ofOverload 10 3]

theorem walk_type_eq_members_overloads :
    let table := tableOf [overloadsFile] { granular := true }
    let r := overloadsFile.reader table { granular := true }
    let inner : Place := { node := some 0, type := some 0 }
    (r.walk .code {} [] [] overloadsClass).2 =
      r.alone inner [] (.ofOverload 10 3) ++ r.alone inner [] (.ofOverload 25 4) ∧
    (overloadFile.reader table { granular := true }).alone inner [] (.ofOverload 10 3) =
      [.granular .parameter "n" 17 5] := by
  intro table r inner
  have hat : r.table.at? r.path overloadsClass.start = some 0 := by decide +kernel
  have hfront : r.walkAll (Role.ofTypeDeclaration overloadsClass) inner [] 0 []
      (overloadsClass.children.take 2) = ([], []) := by decide +kernel
  have hakin : r.Akin (overloadFile.reader table { granular := true }) (.ofOverload 10 3) :=
    ⟨rfl, rfl, rfl, by decide +kernel⟩
  obtain ⟨hparts, halone⟩ := (walk_type_eq_members r {} [] [] (t := overloadsClass) (k := 2) rfl rfl
    rfl (by decide) (by decide) rfl).2 0 hat
  rw [hfront] at hparts halone
  refine ⟨hparts.trans ?_, (halone _ _ hakin (by decide) (by decide)).trans ?_⟩
  · show [] ++ [Tree.ofOverload 10 3, Tree.ofOverload 25 4].flatMap (r.alone inner []) ++ [] = _
    simp
  · decide +kernel

end Reader

end CodeAtlas
