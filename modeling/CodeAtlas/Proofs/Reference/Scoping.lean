import CodeAtlas.Graph.Build
import CodeAtlas.Proofs.Reference.Dependence

/-!
# Names after a block

Only types, members, lambdas and `foreach` restore the names from before them; a block does not. So
a name that is declared in a block stays bound after it, unless one of these constructs in the block
is around the declaration. What follows the block does not notice as long as it looks up none of the
names, and a name that it does look up hides whatever member or type has the same name.

## Main definitions

* `Reader.restores`: the node restores the names from before it.
* `Reader.Leaks`: a name that is still bound after what some visits read.
* `Reader.consulted`: the names that a visited node looks up.

## Main statements

* `Reader.exists_leaked`: exactly the names that leak are bound after a node in addition.
* `Reader.walkAll_after_block`: what a block does to what follows it.
-/
namespace CodeAtlas

/-! ## Names that leak -/

namespace Reader

variable {r : Reader} {role : Role} {place : Place} {above : List Tree} {l l' : Locals}
  {address : List Nat} {t : Tree} {x : String} {vs ws : List PlacedVisit} {v : PlacedVisit}
  {i : Nat}

/-- The names from before the visited node are restored after it, but for the name that it declares
itself. -/
def restores (r : Reader) (v : Visit) : Bool :=
  (r.planOf v).after.isSome

/-- One of the visits `vs` binds the name `x`, and none of the others is of a node around it that
restores the names from before. -/
def Leaks (r : Reader) (vs : List PlacedVisit) (x : String) : Prop :=
  ∃ v ∈ vs, r.introduced? v.role v.node = some x ∧
    ∀ w ∈ vs, w.address <:+ v.address → w.address ≠ v.address → r.restores w.toVisit = false

theorem not_leaks_nil : ¬ r.Leaks [] x := by
  simp [Leaks]

/-- Around the nodes below a child there are none that are below a later one, and conversely. -/
theorem leaks_append (hvs : ∀ v ∈ vs, (i :: address) <:+ v.address)
    (hws : ∀ w ∈ ws, BelowChild address (i + 1) w.address) :
    r.Leaks (vs ++ ws) x ↔ r.Leaks vs x ∨ r.Leaks ws x := by
  have hapart (v w : PlacedVisit) (hv : v ∈ vs) (hw : w ∈ ws) (a : List Nat)
      (hva : v.address <:+ a) (hwa : w.address <:+ a) : False := by
    obtain ⟨j, hj, hsuffix⟩ := hws w hw
    have := head_eq_of_suffix ((hvs v hv).trans hva) (hsuffix.trans hwa)
    omega
  constructor
  · rintro ⟨v, hv, hx, hopen⟩
    rcases List.mem_append.mp hv with hv | hv
    · exact .inl ⟨v, hv, hx, fun w hw => hopen w (List.mem_append_left _ hw)⟩
    · exact .inr ⟨v, hv, hx, fun w hw => hopen w (List.mem_append_right _ hw)⟩
  · rintro (⟨v, hv, hx, hopen⟩ | ⟨v, hv, hx, hopen⟩)
    · refine ⟨v, List.mem_append_left _ hv, hx, fun w hw hsuffix hne => ?_⟩
      rcases List.mem_append.mp hw with hw | hw
      · exact hopen w hw hsuffix hne
      · exact (hapart v w hv hw v.address List.suffix_rfl hsuffix).elim
    · refine ⟨v, List.mem_append_right _ hv, hx, fun w hw hsuffix hne => ?_⟩
      rcases List.mem_append.mp hw with hw | hw
      · exact (hapart w v hw hv v.address hsuffix List.suffix_rfl).elim
      · exact hopen w hw hsuffix hne

/-- A node lets through the names that leak below it, unless it restores the names from before. -/
theorem leaks_cons (hvs : ∀ w ∈ vs, BelowChild v.address 0 w.address) :
    r.Leaks (v :: vs) x ↔ r.introduced? v.role v.node = some x ∨
      r.restores v.toVisit = false ∧ r.Leaks vs x := by
  have hbelow (w : PlacedVisit) (hw : w ∈ vs) : ∃ j, (j :: v.address) <:+ w.address := by
    obtain ⟨j, -, hsuffix⟩ := hvs w hw
    exact ⟨j, hsuffix⟩
  constructor
  · rintro ⟨w, hw, hx, hopen⟩
    rcases List.mem_cons.mp hw with rfl | hw
    · exact .inl hx
    · obtain ⟨j, hsuffix⟩ := hbelow w hw
      refine .inr ⟨hopen v List.mem_cons_self ((List.suffix_cons j _).trans hsuffix) ?_, w, hw, hx,
        fun u hu => hopen u (List.mem_cons_of_mem _ hu)⟩
      exact (ne_of_cons_suffix hsuffix).symm
  · rintro (hx | ⟨hrestores, w, hw, hx, hopen⟩)
    · refine ⟨v, List.mem_cons_self, hx, fun w hw hsuffix hne => ?_⟩
      rcases List.mem_cons.mp hw with rfl | hw
      · exact absurd rfl hne
      · obtain ⟨j, hbelow⟩ := hbelow w hw
        have hle := (hbelow.trans hsuffix).length_le
        rw [List.length_cons] at hle
        omega
    · refine ⟨w, List.mem_cons_of_mem _ hw, hx, fun u hu hsuffix hne => ?_⟩
      rcases List.mem_cons.mp hu with rfl | hu
      · exact hrestores
      · exact hopen u hu hsuffix hne

/-- The order of the visits does not matter. -/
theorem leaks_concat (hvs : ∀ w ∈ vs, BelowChild v.address 0 w.address) :
    r.Leaks (vs ++ [v]) x ↔ r.introduced? v.role v.node = some x ∨
      r.restores v.toVisit = false ∧ r.Leaks vs x := by
  have hmem (w : PlacedVisit) : w ∈ vs ++ [v] ↔ w ∈ v :: vs := by simp [or_comm]
  rw [← leaks_cons hvs]
  simp only [Leaks, hmem]

@[grind →] theorem belowChild_of_mem_visitsValues {cs : List Tree} {name : Option Nat}
    (hv : v ∈ r.visitsValues place above address name i l cs) : BelowChild address i v.address := by
  have hbelow (c : Tree) := forall_mem_visits (P := fun a _ _ => BelowChild address i a) r
    (fun _ _ _ k _ ha _ => ha.cons k) c
  exact forall_mem_visitsValues (fun c _ => hbelow c) (fun k _ _ => belowChild_add address i k)
    place name l v hv

section Children

variable {cs : List Tree}
  (hwalk : ∀ c ∈ cs, ∀ role place above l address, ∃ bs,
    (r.walk role place above l c).1 = bs ++ l ∧
      ∀ x, x ∈ bs.map (·.1) ↔ r.Leaks (r.visits role place above l address c) x)
include hwalk

theorem exists_leaked_walkAll (f : Nat → Tree → Role) (place : Place) (above : List Tree)
    (address : List Nat) (l : Locals) (i : Nat) :
    ∃ bs, (r.walkAll f place above i l cs).1 = bs ++ l ∧
      ∀ x, x ∈ bs.map (·.1) ↔ r.Leaks (r.visitsAll f place above address i l cs) x := by
  induction cs generalizing place i l with
  | nil => exact ⟨[], rfl, fun x => by simp [visitsAll, not_leaks_nil]⟩
  | cons c cs ih =>
    obtain ⟨hc, hrest⟩ := List.forall_mem_cons.mp hwalk
    obtain ⟨bs, hw, hbs⟩ := hc (f i c) (r.placeOf (f i c) place c) above l (i :: address)
    obtain ⟨ds, hws, hds⟩ := ih hrest (r.placeOf (f i c) place c) (bs ++ l) (i + 1)
    refine ⟨ds ++ bs, ?_, fun x => ?_⟩
    · rw [walkAll, List.append_assoc, ← hws, ← hw]
    · rw [visitsAll, leaks_append (fun _ => suffix_of_mem_visits)
        (fun _ => belowChild_of_mem_visitsAll), hw, ← hbs, ← hds, List.map_append, List.mem_append,
        or_comm]

theorem exists_leaked_walkValues (place : Place) (above : List Tree) (address : List Nat)
    (name inferred : Option Nat) (l : Locals) (i : Nat) :
    ∃ bs, (r.walkValues place above name i l inferred cs).1 = bs ++ l ∧
      ∀ x, x ∈ bs.map (·.1) ↔ r.Leaks (r.visitsValues place above address name i l cs) x := by
  induction cs generalizing i l inferred with
  | nil => exact ⟨[], rfl, fun x => by simp [visitsValues, not_leaks_nil]⟩
  | cons c cs ih =>
    obtain ⟨hc, hrest⟩ := List.forall_mem_cons.mp hwalk
    rw [walkValues, visitsValues]
    split
    · exact ih hrest _ _ _
    · obtain ⟨bs, hw, hbs⟩ := hc .code place above l (i :: address)
      obtain ⟨ds, hws, hds⟩ := ih hrest (inferred <|> r.typeOf? place l above c) (bs ++ l) (i + 1)
      refine ⟨ds ++ bs, ?_, fun x => ?_⟩
      · rw [List.append_assoc, ← hws, ← hw]
      · rw [leaks_append (fun _ => suffix_of_mem_visits)
          (fun _ => belowChild_of_mem_visitsValues), hw, ← hbs, ← hds, List.map_append,
          List.mem_append, or_comm]

/-- The name of a local variable leaks, and so do the names that leak from its value. -/
theorem exists_leaked_declarator {d : NodeData} (declared : Option Nat) (isLocal : Bool) :
    ∃ bs, (r.walk (.declarator declared isLocal) place above l (.node d cs)).1 = bs ++ l ∧
      ∀ x, x ∈ bs.map (·.1) ↔ r.Leaks
        (r.visits (.declarator declared isLocal) place above l address (.node d cs)) x := by
  obtain ⟨bs, hw, hbs⟩ := exists_leaked_walkValues hwalk place (.node d cs :: above) address
    (Tree.node d cs).declaratorNameIndex? none l 0
  have hleaks (x : String) : r.Leaks (r.visits (.declarator declared isLocal) place above l
      address (.node d cs)) x ↔
      r.introduced? (.declarator declared isLocal) (.node d cs) = some x ∨ x ∈ bs.map (·.1) := by
    let self : PlacedVisit :=
      ⟨⟨.declarator declared isLocal, place, l, above, .node d cs⟩, address⟩
    have hopen : r.restores self.toVisit = false := rfl
    rw [visits, hbs]
    refine (leaks_concat (v := self) fun _ => belowChild_of_mem_visitsValues).trans ?_
    exact or_congr_right (and_iff_right hopen)
  simp only [hleaks]
  rw [walk]
  cases isLocal with
  | false => exact ⟨bs, hw, fun x => by simp [introduced?]⟩
  | true =>
    cases hid : (Tree.node d cs).declaratorNameIndex?.bind (cs[·]?) with
    | none => exact ⟨bs, hw, fun x => by simp [introduced?, hid]⟩
    | some id =>
      refine ⟨(r.text id, declared <|> _) :: bs, congrArg (_ :: ·) hw, fun x => ?_⟩
      simp [introduced?, hid, eq_comm]

end Children

theorem SameAnswers.refl (r : Reader) (place : Place) (l : Locals) (above : List Tree) (t : Tree) :
    r.SameAnswers r place l l above above t :=
  ⟨fun _ _ => rfl, rfl, fun _ _ => rfl, fun _ => rfl⟩

/-- After a node exactly the names that leak from it are bound in addition to those before. -/
theorem exists_leaked (r : Reader) (t : Tree) : ∀ role place above l address, ∃ bs,
    (r.walk role place above l t).1 = bs ++ l ∧
      ∀ x, x ∈ bs.map (·.1) ↔ r.Leaks (r.visits role place above l address t) x := by
  induction t using Tree.childInduction with
  | inherit t ih =>
    intro role place above l address
    by_cases hskipped : role = .skipped
    · subst hskipped
      cases t
      exact ⟨[], by simp [walk], fun x => by simp [visits, not_leaks_nil]⟩
    by_cases hdeclarator : ∃ declared isLocal, role = .declarator declared isLocal
    · obtain ⟨declared, isLocal, rfl⟩ := hdeclarator
      obtain ⟨d, cs⟩ := t
      exact exists_leaked_declarator ih declared isLocal
    · have hrole (declared : Option Nat) (isLocal : Bool) : role ≠ .declarator declared isLocal :=
        fun hrole => hdeclarator ⟨declared, isLocal, hrole⟩
      let plan := r.plan role place l above t
      obtain ⟨-, -, -, ⟨bs, hlocals, -, hbs⟩, hafter⟩ :=
        like_plan hrole (.refl r t) fun _ => SameAnswers.refl r place l above t
      obtain ⟨ds, hw, hds⟩ := exists_leaked_walkAll ih plan.role plan.place (t :: above) address
        plan.locals 0
      rw [walk_eq_of_plan hskipped hrole, visits_eq_cons hskipped hrole]
      dsimp only
      rcases hafter with ⟨hnone, -⟩ | ⟨es, hsome, -, hes⟩
      · refine ⟨ds ++ bs, ?_, fun x => ?_⟩
        · rw [hnone, Option.getD_none, hw, hlocals, List.append_assoc]
        · have hopen : r.restores ⟨role, place, l, above, t⟩ = false := congrArg Option.isSome hnone
          rw [leaks_cons fun _ => belowChild_of_mem_visitsAll, ← hds, List.map_append,
            List.mem_append, hbs hnone, Option.mem_toList, or_comm]
          exact or_congr_right (and_iff_right hopen).symm
      · refine ⟨es, by rw [hsome]; rfl, fun x => ?_⟩
        have hclosed : r.restores ⟨role, place, l, above, t⟩ = true := congrArg Option.isSome hsome
        rw [leaks_cons fun _ => belowChild_of_mem_visitsAll, hes, Option.mem_toList]
        simp [hclosed]

end Reader

/-! ## Names that are looked up -/

namespace Tree

variable {above : List Tree} {t : Tree} {fuel : Nat}

theorem searched_subset_succ : t.searched fuel above ⊆ t.searched (fuel + 1) above := by
  induction fuel generalizing above t with
  | zero => simp [searched]
  | succ fuel ih =>
    rw [searched, searched]
    refine List.cons_subset_cons t ?_
    cases t.basis? above with
    | none => simp
    | some p => exact ih

/-- The expressions on which the reading of `t`, below the ancestors `above`, depends: those that
the search for its type meets, and for a member access those that the search for the type of its
receiver does. -/
def consulted (steps : Nat) (above : List Tree) (t : Tree) : List Tree :=
  t.searched (steps + 1) above ++
    match t.field? "expression" with
    | some e => e.searched steps (t :: above)
    | none => []

end Tree

namespace Reader

variable {r : Reader} {role : Role} {place : Place} {above : List Tree} {l l' : Locals}
  {address : List Nat} {t : Tree} {x : String} {cs : List Tree} {i : Nat}

/-- The names that the node of the visit `v` looks up. -/
def consulted (r : Reader) (v : Visit) : List String :=
  if v.role = .code ∨ v.role = .callee then
    (v.node.consulted r.steps v.above).filterMap r.asked?
  else []

theorem sameAnswers_of_lookup_eq
    (h : ∀ s ∈ t.consulted r.steps above, ∀ x, r.asked? s = some x → l'.lookup x = l.lookup x) :
    r.SameAnswers r place l l' above above t := by
  have hsearch (s : Tree) (hs : s ∈ t.searched (r.steps + 1) above) (x : String)
      (hx : r.asked? s = some x) : l'.lookup x = l.lookup x :=
    h s (List.mem_append_left _ hs) x hx
  have hself : t ∈ t.searched (r.steps + 1) above := by
    rw [Tree.searched]
    exact List.mem_cons_self
  refine ⟨fun x hx => hsearch t hself x hx, ?_, fun e he => ?_, fun hkind => ?_⟩
  · refine congrArg Option.join (typeOf_congr fun s hs => ⟨.refl r s, fun x hx => ?_⟩)
    exact hsearch s (Tree.searched_subset_succ hs) x hx
  · refine congrArg Option.join (typeOf_congr fun s hs => ⟨.refl r s, fun x hx => ?_⟩)
    refine h s (List.mem_append_right _ ?_) x hx
    rw [he]
    exact hs
  · have hcall : r.callTarget? place l' (above ++ []) t = r.callTarget? place l above t := by
      refine callTarget?_congr (.refl r t) rfl hkind (fun x hx => hsearch t hself x hx)
        fun around s hs => ?_
      rw [List.append_nil]
      refine congrArg Option.join (typeOf_congr fun u hu => ⟨.refl r u, fun x hx => ?_⟩)
      refine hsearch u ?_ x hx
      rw [Tree.searched, hs]
      exact List.mem_cons_of_mem _ hu
    rwa [List.append_nil] at hcall

/-- A walk through siblings does not notice a change of names that it does not look up. -/
theorem walkAll_snd_eq_of_lookup_eq (f : Nat → Tree → Role) (address : List Nat)
    (h : ∀ v ∈ r.visitsAll f place above address i l cs, ∀ x ∈ r.consulted v.toVisit,
      l'.lookup x = l.lookup x) :
    (r.walkAll f place above i l' cs).2 = (r.walkAll f place above i l cs).2 := by
  have hanswered : Answered r r above above l l' (r.visitsAll f place above address i l cs) := by
    intro v hv hrole inner bs habove hlocals
    rw [← habove]
    refine sameAnswers_of_lookup_eq fun s hs x hx => ?_
    have hconsulted : x ∈ r.consulted v.toVisit := by
      rw [consulted, if_pos hrole]
      exact List.mem_filterMap.mpr ⟨s, hs, hx⟩
    rw [List.lookup_append, List.lookup_append, h v hv x hconsulted]
  obtain ⟨bs, out, hw, hw'⟩ := walkAll_like (fun c _ => walk_like c (.refl r c))
    (fun c _ => .refl r c) f hanswered
  rw [hw, hw']

/-! ## What follows a block -/

@[simp]
theorem binds_append_of_mem {bs : Locals} (h : x ∈ bs.map (·.1)) : (bs ++ l).binds x = true := by
  obtain ⟨p, hp, rfl⟩ := List.mem_map.mp h
  exact List.lookup_isSome_iff.mpr ⟨p, List.mem_append_left _ hp, beq_self_eq_true _⟩

@[simp] theorem lookup_append_of_not_mem {bs : Locals} (h : x ∉ bs.map (·.1)) :
    (bs ++ l).lookup x = l.lookup x := by
  have hnone : bs.lookup x = none := by
    refine List.lookup_eq_none_iff.mpr fun p hp => bne_iff_ne.mpr ?_
    rintro rfl
    exact h (List.mem_map_of_mem hp)
  rw [List.lookup_append, hnone, Option.none_or]

/-- The block `b` leaves exactly the names bound that leak from it. What follows the block, `cs`,
contributes what it would without it if it looks up none of these names; a name among them that it
does look up denotes no member, no type and no method any more. -/
theorem walkAll_after_block (r : Reader) (place : Place) (above : List Tree) (l : Locals)
    (b : Tree) (f : Nat → Tree → Role) (i : Nat) (cs : List Tree) :
    ∃ leaked : Locals, (r.walk .code place above l b).1 = leaked ++ l ∧
      (∀ x, x ∈ leaked.map (·.1) ↔ r.Leaks (r.visits .code place above l [] b) x) ∧
      ((∀ v ∈ r.visitsAll f place above [] i l cs, ∀ x ∈ r.consulted v.toVisit,
          ¬ r.Leaks (r.visits .code place above l [] b) x) →
        (r.walkAll f place above i (leaked ++ l) cs).2 = (r.walkAll f place above i l cs).2) ∧
      ∀ place' t, r.Leaks (r.visits .code place above l [] b) (r.text t) →
        r.identifierUse place' (leaked ++ l) t = [] ∧
        ∀ call, r.plainCall? place' (leaked ++ l) call t = none := by
  obtain ⟨leaked, hw, hleaked⟩ := exists_leaked r b .code place above l []
  refine ⟨leaked, hw, hleaked, fun hno => ?_, fun place' t hleaks => ?_⟩
  · refine walkAll_snd_eq_of_lookup_eq f [] fun v hv x hx => ?_
    exact lookup_append_of_not_mem fun hmem => hno v hv x hx ((hleaked x).mp hmem)
  · have hbinds : (leaked ++ l).binds (r.text t) = true :=
      binds_append_of_mem ((hleaked _).mpr hleaks)
    exact ⟨by simp [identifierUse, hbinds], fun call => by simp [plainCall?, hbinds]⟩

/-- The tree of a block with a local variable `x` of one byte: the block `{ int x = 1; }`. -/
def innerBlock : Tree :=
  .node { kind := "block", start := 28, length := 14 }
    [.ofToken "\x7b" 28,
      .node { kind := "local_declaration_statement", start := 30, length := 10 }
        [.node { kind := "variable_declaration", start := 30, length := 9 }
          [.ofLeaf "predefined_type" "type" 30 3,
            .node { kind := "variable_declarator", start := 34, length := 5 }
              [.ofLeaf "identifier" "name" 34 1, .ofToken "=" 36,
                .node { kind := "integer_literal", start := 38, length := 1 } []]],
          .ofToken ";" 39],
      .ofToken "\x7d" 41]

/-- The tree of the statement `n = 2;`. -/
def nextStatement : Tree :=
  .node { kind := "expression_statement", start := 43, length := 6 }
    [.node { kind := "assignment_expression", start := 43, length := 5 }
      [.ofLeaf "identifier" "left" 43 1, .ofToken "=" 45, .ofLeaf "integer_literal" "right" 47 1],
      .ofToken ";" 48]

/-- A method that assigns to a field behind a block with a local variable called `name`. -/
def scopedFile (name : String) : SourceFile where
  path := "a.cs"
  text := "class A \x7b int n; void M() \x7b \x7b int " ++ name ++ " = 1; \x7d n = 2; \x7d \x7d"
  tree := .ofFile 53
    [.node { kind := "field_declaration", start := 10, length := 6 }
      [.node { kind := "variable_declaration", start := 10, length := 5 }
        [.ofLeaf "predefined_type" "type" 10 3,
          .node { kind := "variable_declarator", start := 14, length := 1 }
            [.ofLeaf "identifier" "name" 14 1]],
        .ofToken ";" 15],
      .node { kind := "method_declaration", start := 17, length := 34 }
        [.ofLeaf "predefined_type" "returns" 17 4, .ofLeaf "identifier" "name" 22 1,
          .node { kind := "parameter_list", label := some "parameters", start := 23, length := 2 }
            [.ofToken "(" 23, .ofToken ")" 24],
          .node { kind := "block", label := some "body", start := 26, length := 25 }
            [.ofToken "\x7b" 26, innerBlock, nextStatement, .ofToken "\x7d" 50]]]

theorem walkAll_after_block_unused :
    let r := (scopedFile "k").reader (tableOf [scopedFile "k"] {}) {}
    let place : Place := { node := some 2, type := some 0 }
    r.Leaks (r.visits .code place [] [] [] innerBlock) "k" ∧
    (r.walkAll Role.eachInSequence place [] 2 (r.walk .code place [] [] innerBlock).1
      [nextStatement]).2 = [.link 2 ⟨"A.n", .accesses, 43, 1⟩] := by
  intro r place
  obtain ⟨leaked, hw, hleaked, hsame, -⟩ := walkAll_after_block r place [] [] innerBlock
    Role.eachInSequence 2 [nextStatement]
  have hnames : (r.walk .code place [] [] innerBlock).1.map (·.1) = ["k"] := by decide +kernel
  rw [hw, List.append_nil] at hnames
  rw [hnames] at hleaked
  have hunused : ∀ v ∈ r.visitsAll Role.eachInSequence place [] [] 2 [] [nextStatement],
      ∀ x ∈ r.consulted v.toVisit, x ∉ ["k"] := by decide +kernel
  refine ⟨(hleaked "k").mp List.mem_cons_self, ?_⟩
  rw [hw, hsame fun v hv x hx hleaks => hunused v hv x hx ((hleaked x).mpr hleaks)]
  decide +kernel

/-- A field is not found behind a block that has a local variable of the same name. -/
theorem walkAll_after_block_shadowed :
    ((SymbolGraph.ofFiles [scopedFile "k"] {}).node? "A.M()").map (·.links) =
      some [⟨"A.n", .accesses, 43, 1⟩] ∧
    ((SymbolGraph.ofFiles [scopedFile "n"] {}).node? "A.M()").map (·.links) = some [] := by
  constructor <;> decide +kernel

end Reader

end CodeAtlas
