import CodeAtlas.Proofs.Reference.Search
import Mathlib.Data.List.Perm.Subperm

/-!
# How long the search for a type takes

The search for the type of an expression stays in the tree around it. If it ends it meets no node
twice, so it takes fewer steps than the tree has nodes; if it does not end it finds nothing, however
many steps it may take. So a limit that is at least the size of the tree does not show.

## Main definitions

* `Tree.BasisAt`: where the basis of an expression stands.
* `Tree.Ends`: the search from an expression ends after some steps.

## Main statements

* `Tree.Within.of_basis?`: a search stays in the tree.
* `Tree.Ends.lt_size`: a search that ends takes fewer steps than the tree has nodes.
* `Reader.Akin.typeOf?`: akin readers find the same types, whatever their limits.
-/
namespace CodeAtlas

namespace Tree

/-! ## A search stays in the tree -/

variable {root t c : Tree} {above around : List Tree} {k l : Nat}

@[grind →] theorem mem_children_of_condition? (h : t.condition? = some c) : c ∈ t.children := by
  rcases Option.or_eq_some_iff.mp (Option.orElse_eq_or.symm.trans h) with h | ⟨-, h⟩
  · exact mem_children_of_field? h
  · exact (List.mem_filter.mp (List.mem_of_head? h)).1

theorem Within.of_conditionAbove? (h : Within root above t)
    (hc : conditionAbove? above = some (c, around)) : Within root around c := by
  induction h with
  | root => simp [conditionAbove?] at hc
  | child ha _ ih =>
    rw [conditionAbove?] at hc
    split at hc
    · obtain ⟨c, hcondition, heq⟩ := Option.map_eq_some_iff.mp hc
      obtain ⟨rfl, rfl⟩ := Prod.mk.inj heq
      exact ha.child (mem_children_of_condition? hcondition)
    · exact ih hc

/-- The places where the basis of the expression `t` stands: right below it, as the receiver or the
condition below the function of a call, or, if that function is a member binding, as the condition
of the nearest conditional access. -/
inductive BasisAt (above : List Tree) (t : Tree) : List Tree → Tree → Prop
  | child {c : Tree} (hcall : t.kind ≠ "invocation_expression")
      (haccess : t.kind ≠ "conditional_access_expression") (hc : c ∈ t.children) :
      BasisAt above t (t :: above) c
  | receiver {f c : Tree} (hf : t.field? "function" = some f)
      (hkind : f.kind = "member_access_expression") (hc : f.field? "expression" = some c)
      (hcall : t.kind = "invocation_expression") : BasisAt above t (f :: t :: above) c
  | condition {f c : Tree} (hf : t.field? "function" = some f)
      (hkind : f.kind = "conditional_access_expression") (hc : f.condition? = some c)
      (hcall : t.kind = "invocation_expression") : BasisAt above t (f :: t :: above) c
  | climb {f c : Tree} {around : List Tree} (hf : t.field? "function" = some f)
      (hkind : f.kind = "member_binding_expression") (hc : conditionAbove? above = some (c, around))
      (hcall : t.kind = "invocation_expression") : BasisAt above t around c

theorem BasisAt.of_callee? {site : Tree} (hcall : t.kind = "invocation_expression")
    (hcallee : t.callee? above = some (.member c around site)) : BasisAt above t around c := by
  obtain ⟨f, hf, hcallee⟩ := Option.bind_eq_some_iff.mp hcallee
  split at hcallee
  case h_1 | h_2 => simp at hcallee
  case h_3 hkind =>
    obtain ⟨name, -, hcallee⟩ := Option.bind_eq_some_iff.mp hcallee
    obtain ⟨receiver, hreceiver, hcallee⟩ := Option.bind_eq_some_iff.mp hcallee
    obtain ⟨rfl, rfl, -⟩ := Callee.member.inj (Option.some.inj hcallee)
    exact .receiver hf hkind hreceiver hcall
  case h_4 hkind =>
    obtain ⟨name, -, hcallee⟩ := Option.bind_eq_some_iff.mp hcallee
    obtain ⟨⟨receiver, outer⟩, hreceiver, hcallee⟩ := Option.bind_eq_some_iff.mp hcallee
    obtain ⟨rfl, rfl, -⟩ := Callee.member.inj (Option.some.inj hcallee)
    exact .climb hf hkind hreceiver hcall
  case h_5 hkind =>
    obtain ⟨binding, -, hcallee⟩ := Option.bind_eq_some_iff.mp hcallee
    obtain ⟨name, -, hcallee⟩ := Option.bind_eq_some_iff.mp hcallee
    obtain ⟨receiver, hreceiver, hcallee⟩ := Option.bind_eq_some_iff.mp hcallee
    obtain ⟨rfl, rfl, -⟩ := Callee.member.inj (Option.some.inj hcallee)
    exact .condition hf hkind hreceiver hcall
  case h_6 => simp at hcallee

@[grind →] theorem BasisAt.of_basis? (hbasis : t.basis? above = some (around, c)) :
    BasisAt above t around c := by
  unfold basis? at hbasis
  split at hbasis
  case h_1 hkind =>
    split at hbasis
    · next hreceiver _ =>
      obtain ⟨rfl, rfl⟩ := Prod.mk.inj (Option.some.inj hbasis)
      exact .child (by simp [hkind]) (by simp [hkind]) (mem_children_of_field? hreceiver)
    · simp at hbasis
  case h_2 hkind =>
    split at hbasis
    · next hcallee =>
      obtain ⟨rfl, rfl⟩ := Prod.mk.inj (Option.some.inj hbasis)
      exact .of_callee? hkind hcallee
    · simp at hbasis
  case h_7 => simp at hbasis
  all_goals
    rename_i hkind
    obtain ⟨inner, hinner, heq⟩ := Option.map_eq_some_iff.mp hbasis
    obtain ⟨rfl, rfl⟩ := Prod.mk.inj heq
    exact .child (by simp [hkind]) (by simp [hkind])
      (List.mem_filter.mp (List.mem_of_head? hinner)).1

/-- A search stays in the tree. -/
theorem Within.of_basis? (h : Within root above t) (hbasis : t.basis? above = some (around, c)) :
    Within root around c := by
  cases BasisAt.of_basis? hbasis with
  | child _ _ hc => exact h.child hc
  | receiver hf _ hc =>
    exact (h.child (mem_children_of_field? hf)).child (mem_children_of_field? hc)
  | condition hf _ hc =>
    exact (h.child (mem_children_of_field? hf)).child (mem_children_of_condition? hc)
  | climb _ _ hc => exact h.of_conditionAbove? hc

theorem Within.of_mem_searched (h : Within root above t) {fuel : Nat} {s : Tree}
    (hs : s ∈ t.searched fuel above) : s ∈ root.preorder := by
  induction fuel generalizing above t with
  | zero => simp [searched] at hs
  | succ fuel ih =>
    rw [searched] at hs
    rcases List.mem_cons.mp hs with rfl | hs
    · exact h.mem_preorder
    · cases hbasis : t.basis? above with
      | none => simp [hbasis] at hs
      | some p =>
        rw [hbasis] at hs
        exact ih (h.of_basis? hbasis) hs

mutual

/-- The nodes of a tree below the ancestors `above`, each with its own ancestors. -/
def places (above : List Tree) : Tree → List (List Tree × Tree)
  | node d cs => (above, node d cs) :: placesAll (node d cs :: above) cs

/-- The nodes of several trees below the same ancestors `above`. -/
def placesAll (above : List Tree) : List Tree → List (List Tree × Tree)
  | [] => []
  | c :: cs => places above c ++ placesAll above cs

end

mutual

@[simp] theorem length_places : ∀ (above : List Tree) (t : Tree), (places above t).length = t.size
  | above, node d cs => by simp [places, size, length_placesAll _ cs]

@[simp]
theorem length_placesAll : ∀ (above cs : List Tree), (placesAll above cs).length = sizeAll cs
  | _, [] => rfl
  | above, c :: cs => by
    simp [placesAll, sizeAll, length_places above c, length_placesAll above cs]

end

theorem mem_places_self (above : List Tree) (t : Tree) : (above, t) ∈ places above t := by
  cases t
  simp [places]

@[simp] theorem mem_placesAll {cs : List Tree} {p : List Tree × Tree} :
    p ∈ placesAll above cs ↔ ∃ c ∈ cs, p ∈ places above c := by
  induction cs with
  | nil => simp [placesAll]
  | cons c cs ih => simp [placesAll, ih]

mutual

theorem mem_places_child : ∀ {u : Tree} {up : List Tree}, (above, t) ∈ places up u →
    c ∈ t.children → (t :: above, c) ∈ places up u
  | node d cs, up, h, hc => by
    rw [places] at h ⊢
    refine List.mem_cons_of_mem _ ?_
    rcases List.mem_cons.mp h with heq | h
    · obtain ⟨rfl, rfl⟩ := Prod.mk.inj heq
      exact mem_placesAll.mpr ⟨c, hc, mem_places_self _ c⟩
    · exact mem_placesAll_child h hc

theorem mem_placesAll_child : ∀ {cs up : List Tree}, (above, t) ∈ placesAll up cs →
    c ∈ t.children → (t :: above, c) ∈ placesAll up cs
  | [], _, h, _ => by simp [placesAll] at h
  | u :: cs, up, h, hc => by
    rw [placesAll] at h ⊢
    rcases List.mem_append.mp h with h | h
    · exact List.mem_append_left _ (mem_places_child h hc)
    · exact List.mem_append_right _ (mem_placesAll_child h hc)

end

@[grind →] theorem Within.mem_places (h : Within root above t) : (above, t) ∈ places [] root := by
  induction h with
  | root => exact mem_places_self [] root
  | child _ hc ih => exact mem_places_child ih hc

/-! ## Searches that end -/

/-- The search from an expression ends after some steps. -/
inductive Ends : Nat → List Tree → Tree → Prop
  | here {above : List Tree} {t : Tree} (h : t.basis? above = none) : Ends 0 above t
  | step {k : Nat} {above around : List Tree} {t c : Tree}
      (h : t.basis? above = some (around, c)) (hends : Ends k around c) : Ends (k + 1) above t

theorem Ends.unique (h : Ends k above t) (h' : Ends l above t) : k = l := by
  induction h generalizing l with
  | here h =>
    cases h' with
    | here => rfl
    | step h' => simp [h] at h'
  | step h _ ih =>
    cases h' with
    | here h' => simp [h] at h'
    | step h' hends' =>
      obtain ⟨rfl, rfl⟩ := Prod.mk.inj (Option.some.inj (h.symm.trans h'))
      rw [ih hends']

/-- A search that ends meets no expression twice: each is met with another number of steps left. -/
theorem Ends.exists_nodup (h : Ends k above t) (hwithin : Within root above t) :
    ∃ ps : List (List Tree × Tree), ps.length = k + 1 ∧ ps.Nodup ∧
      ∀ p ∈ ps, Within root p.1 p.2 ∧ ∃ j ≤ k, Ends j p.1 p.2 := by
  induction h with
  | @here above t h =>
    exact ⟨[(above, t)], rfl, by simp, by simpa using ⟨hwithin, .here h⟩⟩
  | @step k above around t c h hends ih =>
    obtain ⟨ps, hlength, hnodup, hps⟩ := ih (hwithin.of_basis? h)
    refine ⟨(above, t) :: ps, by simp [hlength], List.nodup_cons.mpr ⟨fun hmem => ?_, hnodup⟩, ?_⟩
    · obtain ⟨-, j, hj, hends'⟩ := hps _ hmem
      have := hends'.unique (.step h hends)
      omega
    · have hself : ∃ j ≤ k + 1, Ends j above t := ⟨k + 1, Nat.le_refl _, .step h hends⟩
      refine List.forall_mem_cons.mpr ⟨⟨hwithin, hself⟩, fun p hp => ?_⟩
      obtain ⟨hp, j, hj, hends'⟩ := hps p hp
      exact ⟨hp, j, by omega, hends'⟩

/-- A search that ends takes fewer steps than the tree has nodes. -/
theorem Ends.lt_size (h : Ends k above t) (hwithin : Within root above t) : k < root.size := by
  obtain ⟨ps, hlength, hnodup, hps⟩ := h.exists_nodup hwithin
  have hsub : ps ⊆ places [] root := fun p hp => (hps p hp).1.mem_places
  have hle := (hnodup.subperm hsub).length_le
  rw [hlength, length_places] at hle
  omega

end Tree

namespace Reader

variable {r r' : Reader} {place : Place} {locals : Locals} {above : List Tree} {root t : Tree}
  {k m n : Nat}

/-- A search that ends finds the same with any number of steps that lets it end. -/
theorem typeOf_eq_of_ends (h : Tree.Ends k above t) (hm : k < m) (hn : k < n) :
    r.typeOf place locals m above t = r.typeOf place locals n above t := by
  obtain ⟨m, rfl⟩ := Nat.exists_eq_succ_of_ne_zero (Nat.ne_zero_of_lt hm)
  obtain ⟨n, rfl⟩ := Nat.exists_eq_succ_of_ne_zero (Nat.ne_zero_of_lt hn)
  induction h generalizing m n with
  | here h => rw [typeOf_succ, typeOf_succ, h]
  | step h hends ih =>
    rw [typeOf_succ, typeOf_succ, h]
    obtain ⟨m, rfl⟩ := Nat.exists_eq_succ_of_ne_zero (n := m) (by omega)
    obtain ⟨n, rfl⟩ := Nat.exists_eq_succ_of_ne_zero (n := n) (by omega)
    exact congrArg (Option.map _) (ih m (by omega) n (by omega))

/-- A search that does not end finds nothing. -/
@[simp] theorem typeOf_eq_none (h : ∀ k, ¬ Tree.Ends k above t) :
    r.typeOf place locals n above t = none := by
  induction n generalizing above t with
  | zero => rfl
  | succ n ih =>
    rw [typeOf_succ]
    cases hbasis : t.basis? above with
    | none => exact absurd (.here hbasis) (h 0)
    | some p =>
      have hnever : ∀ k, ¬ Tree.Ends k p.1 p.2 := fun k hends => h (k + 1) (.step hbasis hends)
      simp only [ih hnever, Option.map_none]

/-- No search in a tree needs more steps than the tree has nodes. -/
theorem typeOf_eq_of_size_le (h : Tree.Within root above t) (hm : root.size ≤ m)
    (hn : root.size ≤ n) :
    r.typeOf place locals m above t = r.typeOf place locals n above t := by
  by_cases hends : ∃ k, Tree.Ends k above t
  · obtain ⟨k, hk⟩ := hends
    have hlt := hk.lt_size h
    exact typeOf_eq_of_ends hk (by omega) (by omega)
  · have hnever := not_exists.mp hends
    rw [typeOf_eq_none hnever, typeOf_eq_none hnever]

/-- Akin readers find the same type in a tree that neither takes too long to search. -/
theorem Akin.typeOf? (hr : r.Akin r' root) (hsteps : root.size ≤ r.steps)
    (hsteps' : root.size ≤ r'.steps) (h : Tree.Within root above t) :
    r'.typeOf? place locals above t = r.typeOf? place locals above t := by
  have hsame : r'.typeOf place locals r.steps above t = r.typeOf place locals r.steps above t :=
    typeOf_congr fun s hs => ⟨hr.below (h.of_mem_searched hs), fun _ _ => rfl⟩
  unfold Reader.typeOf?
  rw [typeOf_eq_of_size_le h hsteps' hsteps, hsame]

end Reader

end CodeAtlas
