import CodeAtlas.Proofs.Declaration.Membership

/-!
# What a call denotes

A call is bound in two steps. The methods of its name are looked up on the type of the receiver or
around the call, nearest type first, and without a receiver also in the whole project. One of them
is then chosen by the number of arguments. The number counts only among the methods of one type: a
type of the chain that has a method of the name hides those of its bases, whatever they take.

## Main definitions

* `Table.HasMethod`: a method of a name in a type.
* `Table.ProperMethods`: methods go by one name each and stand in types.

## Main statements

* `Table.holds_paramCount_of_bestOverload`: a method that takes the given number is preferred.
* `Table.exists_owner_of_nearest`, `Table.exists_owner_of_everywhere`: whose method is found in the
  chain of a type and in the project.
* `Table.calledMethod_arity_iff`: when a call with a receiver binds to a method that takes as many
  arguments.
-/
namespace CodeAtlas

/-- The entry `e` is a method, also a destructor or operator. -/
def Entry.isMethod (e : Entry) : Bool :=
  e.kind == .method

namespace Table

variable {t : Table} {is : List Nat} {name : String} {type owner args i k m : Nat}
  {receiver context : Option Nat}

/-! ## Overloads -/

@[simp] theorem bestOverload_eq_none : t.bestOverload is args = none ↔ is = [] := by
  unfold bestOverload
  split
  · simp
  · simp
  · next hempty _ =>
    rw [Option.orElse_eq_orElse, Option.orElse_eq_or, Option.or_eq_none_iff, List.head?_eq_none_iff,
      List.head?_eq_none_iff]
    exact ⟨And.right, fun h => absurd h hempty⟩

/-- If one of the candidates `is` takes `args` arguments, the chosen `m` does. -/
theorem holds_paramCount_of_bestOverload (h : t.bestOverload is args = some m) (hk : k ∈ is)
    (hargs : t.Holds k (·.paramCount = args)) : t.Holds m (·.paramCount = args) := by
  unfold bestOverload at h
  split at h
  · simp at h
  · next only =>
    obtain rfl := Option.some.inj h
    obtain rfl := List.mem_singleton.mp hk
    exact hargs
  · have hmem : k ∈ t.select is (·.paramCount == args) :=
      mem_select.mpr ⟨hk, hargs.imp fun e he => by simpa using he⟩
    obtain ⟨first, hfirst⟩ :=
      Option.isSome_iff_exists.mp (List.isSome_head?.mpr (List.ne_nil_of_mem hmem))
    rw [hfirst] at h
    obtain rfl := Option.some.inj h
    exact (mem_select.mp (List.mem_of_head? hfirst)).2.imp fun e he => by simpa using he

/-! ## Methods of a type -/

/-- The entry `m` is a method of a name in the type `owner`. -/
def HasMethod (t : Table) (owner : Nat) (name : String) (m : Nat) : Prop :=
  t.Holds m fun e => e.kind = .method ∧ e.name = name ∧ t.owner? e = some owner

/-- Every method of `t` goes by its one name and stands in a type. -/
def ProperMethods (t : Table) : Prop :=
  ∀ (i : Nat) (e : Entry), t.entries[i]? = some e → e.kind = .method →
    e.names = [e.name] ∧ e.parent.isSome = true

theorem ProperMethods.offers_iff (h : t.ProperMethods) :
    t.Offers owner name Entry.isMethod m ↔ t.HasMethod owner name m := by
  unfold Offers HasMethod Holds
  refine exists_congr fun e => and_congr_right fun he => ?_
  simp only [Entry.isMethod, beq_iff_eq, owner?, Option.map_eq_some_iff]
  constructor
  · rintro ⟨howner, hname, hkind⟩
    rw [(h m e he hkind).1, List.mem_singleton] at hname
    exact ⟨hkind, hname.symm, howner⟩
  · rintro ⟨hkind, rfl, howner⟩
    exact ⟨howner, by simp [(h m e he hkind).1], hkind⟩

@[simp] theorem mem_methodsNamed :
    m ∈ t.methodsNamed name ↔ t.Holds m fun e => e.kind = .method ∧ e.name = name := by
  simp [methodsNamed, mem_positions]

/-- What is found in the chain of a type is a method of one of its types. It is chosen among all
methods of that name in its own type. -/
theorem exists_owner_of_nearest (ht : t.ProperMethods)
    (h : t.bestOverload (t.nearestMembers type name Entry.isMethod) args = some m) :
    ∃ owner ∈ t.ancestry type, t.HasMethod owner name m ∧
      ∀ k, t.HasMethod owner name k → t.Holds k (·.paramCount = args) →
        t.Holds m (·.paramCount = args) := by
  have hmem := mem_of_bestOverload h
  rcases nearestMembers_cases t type name Entry.isMethod with
      ⟨hnil, -⟩ | ⟨pre, owner, post, hchain, hfound, -, -⟩
  · simp [hnil] at hmem
  · rw [hfound] at h hmem
    refine ⟨owner, by simp [hchain], ht.offers_iff.mp (mem_membersNamed.mp hmem), fun k hk => ?_⟩
    exact holds_paramCount_of_bestOverload h (mem_membersNamed.mpr (ht.offers_iff.mpr hk))

theorem eq_of_length_eraseDups {α : Type} [BEq α] [LawfulBEq α] {xs : List α}
    (h : xs.eraseDups.length = 1) {x y : α} (hx : x ∈ xs) (hy : y ∈ xs) : x = y := by
  obtain ⟨z, hz⟩ := List.length_eq_one_iff.mp h
  rw [← List.mem_eraseDups, hz, List.mem_singleton] at hx hy
  rw [hx, hy]

/-- What is found in the whole project belongs to the type that all methods of the name belong
to. -/
theorem exists_owner_of_everywhere (ht : t.ProperMethods)
    (howners :
      ((t.methodsNamed name).map fun i => (t.entries[i]?).bind t.owner?).eraseDups.length = 1)
    (h : t.bestOverload (t.methodsNamed name) args = some m) :
    ∃ owner, t.HasMethod owner name m ∧
      (∀ (k : Nat) (e : Entry), t.entries[k]? = some e → e.kind = .method → e.name = name →
        t.owner? e = some owner) ∧
      ∀ k, t.HasMethod owner name k → t.Holds k (·.paramCount = args) →
        t.Holds m (·.paramCount = args) := by
  have hmem := mem_of_bestOverload h
  obtain ⟨e, he, hkind, hname⟩ := mem_methodsNamed.mp hmem
  obtain ⟨p, hparent⟩ := Option.isSome_iff_exists.mp (ht m e he hkind).2
  have howner : t.owner? e = some (t.leadPart p) := by simp [owner?, hparent]
  refine ⟨t.leadPart p, ⟨e, he, hkind, hname, howner⟩, fun k e' he' hkind' hname' => ?_,
    fun k hk => ?_⟩
  · have hmem' : k ∈ t.methodsNamed name := mem_methodsNamed.mpr ⟨e', he', hkind', hname'⟩
    have heq := eq_of_length_eraseDups howners
      (List.mem_map.mpr ⟨k, hmem', rfl⟩) (List.mem_map.mpr ⟨m, hmem, rfl⟩)
    simpa [he, he', howner] using heq
  · exact holds_paramCount_of_bestOverload h
      (mem_methodsNamed.mpr (hk.imp fun _ hk => ⟨hk.1, hk.2.1⟩))

/-! ## Calls -/

/-- A call is bound in the chain of its receiver, in the chain of the type around it, or in the
whole project if that chain has no method of the name and one type has them all. -/
theorem calledMethod_cases (h : t.calledMethod name receiver context args = some m) :
    (∃ type, (receiver = some type ∨ receiver = none ∧ context = some type) ∧
      t.bestOverload (t.nearestMembers type name Entry.isMethod) args = some m) ∨
    (receiver = none ∧
      (∀ type, context = some type → t.nearestMembers type name Entry.isMethod = []) ∧
      ((t.methodsNamed name).map fun i => (t.entries[i]?).bind t.owner?).eraseDups.length = 1 ∧
      t.bestOverload (t.methodsNamed name) args = some m) := by
  unfold calledMethod at h
  dsimp only at h
  cases receiver with
  | some type => exact .inl ⟨type, .inl rfl, h⟩
  | none =>
    simp only [Option.orElse_eq_orElse, Option.orElse_eq_or, Option.or_eq_some_iff] at h
    rcases h with h | ⟨hnone, h⟩
    · obtain ⟨type, rfl, h⟩ := Option.bind_eq_some_iff.mp h
      exact .inl ⟨type, .inr ⟨rfl, rfl⟩, h⟩
    · split at h
      · next howners =>
        refine .inr ⟨rfl, fun type htype => ?_, howners, h⟩
        subst htype
        exact bestOverload_eq_none.mp hnone
      · simp at h

theorem nearestMembers_eq_nil {accept : Entry → Bool} :
    t.nearestMembers type name accept = [] ↔
      ∀ owner ∈ t.ancestry type, ∀ m, ¬ t.Offers owner name accept m := by
  rcases nearestMembers_cases t type name accept with
      ⟨hnil, hnone⟩ | ⟨pre, owner, post, hchain, hfound, ⟨m, hm⟩, -⟩
  · exact iff_of_true hnil hnone
  · refine iff_of_false (fun hnil => ?_) fun hnone => hnone owner (by simp [hchain]) m hm
    exact membersNamed_eq_nil.mp (hfound.symm.trans hnil) m hm

/-- The nearest type that has an accepted member of the name is the one that is searched. -/
theorem nearestMembers_eq_membersNamed {accept : Entry → Bool} {pre post : List Nat}
    (hchain : t.ancestry type = pre ++ owner :: post)
    (hpre : ∀ nearer ∈ pre, ∀ m, ¬ t.Offers nearer name accept m)
    (howner : t.Offers owner name accept m) :
    t.nearestMembers type name accept = t.membersNamed owner name accept := by
  have hnone : (pre.map (t.membersNamed · name accept)).find? (!·.isEmpty) = none := by
    refine List.find?_eq_none.mpr fun found hfound => ?_
    obtain ⟨nearer, hnearer, rfl⟩ := List.mem_map.mp hfound
    simp [membersNamed_eq_nil.mpr (hpre nearer hnearer)]
  have hsome : t.membersNamed owner name accept ≠ [] :=
    List.ne_nil_of_mem (mem_membersNamed.mpr howner)
  rw [nearestMembers, hchain, List.map_append, List.find?_append, hnone, Option.none_or,
    List.map_cons, List.find?_cons_of_pos (by simpa using hsome), Option.getD_some]

/-- With a receiver of the type at position `type`, a call of `name` is bound in the chain of that
type whatever stands around it, and to nothing only if the chain has no method of the name. It is
bound to a method of the nearest type that has one. This method takes `args` arguments if and only
if some method of the name in that very type does; bases are not consulted then. -/
theorem calledMethod_arity_iff (t : Table) (name : String) (type : Nat) (context : Option Nat)
    (args : Nat) :
    (t.calledMethod name (some type) context args = none ↔
      ∀ owner ∈ t.ancestry type, ∀ m, ¬ t.Offers owner name Entry.isMethod m) ∧
    ∀ pre owner post, t.ancestry type = pre ++ owner :: post →
      (∀ nearer ∈ pre, ∀ m, ¬ t.Offers nearer name Entry.isMethod m) →
      (∃ m, t.Offers owner name Entry.isMethod m) →
      ∃ m, t.calledMethod name (some type) context args = some m ∧
        t.Offers owner name Entry.isMethod m ∧
        (t.Holds m (·.paramCount = args) ↔
          ∃ k, t.Offers owner name Entry.isMethod k ∧ t.Holds k (·.paramCount = args)) := by
  have hcall : t.calledMethod name (some type) context args =
      t.bestOverload (t.nearestMembers type name Entry.isMethod) args := rfl
  refine ⟨by rw [hcall, bestOverload_eq_none, nearestMembers_eq_nil], ?_⟩
  rintro pre owner post hchain hpre ⟨k, hk⟩
  rw [hcall, nearestMembers_eq_membersNamed hchain hpre hk]
  have hsome : t.membersNamed owner name Entry.isMethod ≠ [] :=
    List.ne_nil_of_mem (mem_membersNamed.mpr hk)
  obtain ⟨m, hm⟩ := Option.ne_none_iff_exists'.mp (mt bestOverload_eq_none.mp hsome)
  have howner := mem_membersNamed.mp (mem_of_bestOverload hm)
  refine ⟨m, hm, howner, fun hargs => ⟨m, howner, hargs⟩, ?_⟩
  rintro ⟨k', hk', hargs⟩
  exact holds_paramCount_of_bestOverload hm (mem_membersNamed.mpr hk') hargs

/-- The declaration of a method `name` that takes one number, inside the type at position `parent`
of its file. -/
def numberMethod (name : String) (parent : Nat) : Declaration :=
  { plainMethod name parent with segment := name ++ "(int)", paramCount := 1 }

/-- A class with a method that takes a number, and a class based on it with a method of the same
name that takes nothing. -/
def hidingTable : Table :=
  .ofFiles [[plainClass "A" [] false, numberMethod "M" 0],
    [plainClass "B" ["A"] false, plainMethod "M" 0]] []

theorem calledMethod_arity_iff_hiding :
    hidingTable.ancestry 2 = [2, 0] ∧
    (∃ m, hidingTable.calledMethod "M" (some 2) none 0 = some m ∧
      hidingTable.Offers 2 "M" Entry.isMethod m ∧ hidingTable.Holds m (·.paramCount = 0)) ∧
    hidingTable.calledMethod "N" (some 2) none 0 = none := by
  have hchain : hidingTable.ancestry 2 = [2, 0] := by decide +kernel
  have hoffers : hidingTable.Offers 2 "M" Entry.isMethod 3 := by decide +kernel
  obtain ⟨-, hnearest⟩ := calledMethod_arity_iff hidingTable "M" 2 none 0
  obtain ⟨hnone, -⟩ := calledMethod_arity_iff hidingTable "N" 2 none 0
  obtain ⟨m, hcall, howner, hargs⟩ := hnearest [] 2 [0] hchain (by simp) ⟨3, hoffers⟩
  refine ⟨hchain, ⟨m, hcall, howner, hargs.mpr ⟨3, hoffers, by decide +kernel⟩⟩, hnone.mpr ?_⟩
  rw [← nearestMembers_eq_nil]
  decide +kernel

/-- A method of the nearest type is taken although only a base has one that takes the given
number. -/
theorem calledMethod_arity_hidden :
    (∃ owner ∈ hidingTable.ancestry 2, ∃ k, hidingTable.Offers owner "M" Entry.isMethod k ∧
      hidingTable.Holds k (·.paramCount = 1)) ∧
    hidingTable.calledMethod "M" (some 2) none 1 = some 3 ∧
    ¬ hidingTable.Holds 3 (·.paramCount = 1) := by
  have hchain : hidingTable.ancestry 2 = [2, 0] := by decide +kernel
  refine ⟨⟨0, by simp [hchain], 1, ?_⟩, ?_⟩
  · decide +kernel
  · decide +kernel

end Table

end CodeAtlas
