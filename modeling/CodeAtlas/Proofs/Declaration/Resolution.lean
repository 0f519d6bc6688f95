import CodeAtlas.Declaration.Resolution

/-!
# What a resolved reference denotes

Whatever the syntax tree looks like, a reference that is bound at all is bound to an entry of the
kind that it asks for: a type reference to a type whose name is not built in, a call to a method, an
object creation to a constructor, a read of a member to a property or field.

## Main statements

* `Table.denotedType_eq_some`: the entry that a type reference denotes.
* `Table.calledMethod_eq_some`, `Table.calledConstructor_eq_some`, `Table.dataMember_eq_some`: the
  entries that calls, object creations and reads of members denote.
-/
namespace CodeAtlas.Table

variable {t : Table} {i : Nat} {is : List Nat} {p accept : Entry → Bool}

/-- The entry at a position satisfies `p`. -/
def Holds (t : Table) (i : Nat) (p : Entry → Prop) : Prop :=
  ∃ e, t.entries[i]? = some e ∧ p e

instance (t : Table) (i : Nat) (p : Entry → Prop) [DecidablePred p] : Decidable (t.Holds i p) :=
  decidable_of_iff (∃ e ∈ t.entries[i]?, p e) Iff.rfl

theorem Holds.imp {q q' : Entry → Prop} (h : t.Holds i q) (himp : ∀ e, q e → q' e) :
    t.Holds i q' := by
  obtain ⟨e, he, hq⟩ := h
  exact ⟨e, he, himp e hq⟩

/-! ## Choosing among positions -/

@[simp] theorem mem_indexed {e : Entry} : (i, e) ∈ t.indexed ↔ t.entries[i]? = some e := by
  simp only [indexed, List.mem_map, Prod.mk.injEq, Prod.exists]
  constructor
  · rintro ⟨e', i', hmem, rfl, rfl⟩
    simpa using List.mem_zipIdx_iff_getElem?.mp hmem
  · intro he
    exact ⟨e, i, List.mem_zipIdx_iff_getElem?.mpr (by simpa using he), rfl, rfl⟩

@[simp] theorem mem_positions : i ∈ t.positions p ↔ t.Holds i (p · = true) := by
  simp [positions, Holds, mem_indexed]

/-- What is found by place stands there. -/
@[grind →] theorem at?_eq_some {path : String} {start : Nat} (h : t.at? path start = some i) :
    t.Holds i fun e => e.path = path ∧ e.start = start :=
  (mem_positions.mp (List.mem_of_getLast? h)).imp fun e he => by simpa using he

@[simp] theorem mem_select : i ∈ t.select is p ↔ i ∈ is ∧ t.Holds i (p · = true) := by
  simp [select, Holds, Option.any_eq_true]

@[grind →] theorem mem_of_unique? (h : unique? is = some i) : i ∈ is := by
  unfold unique? at h
  split at h
  · simp_all
  · simp at h

@[grind →] theorem mem_of_qualifiedMatch? {text : String} (h : t.qualifiedMatch? is text = some i) :
    i ∈ is := by
  unfold qualifiedMatch? at h
  dsimp only at h
  split at h
  · exact (mem_select.mp (List.mem_of_head? h)).1
  · simp at h

@[grind →]
theorem mem_of_bestOverload {args : Nat} (h : t.bestOverload is args = some i) : i ∈ is := by
  unfold bestOverload at h
  split at h
  · simp at h
  · simp_all
  · simp only [Option.orElse_eq_orElse, Option.orElse_eq_or, Option.or_eq_some_iff] at h
    rcases h with h | ⟨-, h⟩
    · exact (mem_select.mp (List.mem_of_head? h)).1
    · exact List.mem_of_head? h

/-! ## References -/

/-- A type reference denotes a type by its simple name, and no built-in name. -/
theorem denotedType_eq_some {text ns : String} (h : t.denotedType text ns = some i) :
    t.Holds i fun e => e.kind.isType = true ∧ e.firstPart = none ∧
      e.name = TypeName.simple text ∧ t.isPredefined e.name = false := by
  unfold denotedType at h
  dsimp only at h
  split at h
  · simp at h
  · next hname =>
    have hmem : i ∈ t.typesNamed (TypeName.simple text) := by
      simp only [Option.orElse_eq_orElse, Option.orElse_eq_or, Option.or_eq_some_iff] at h
      rcases h with h | ⟨-, h | ⟨-, h | ⟨-, h⟩⟩⟩
      · exact mem_of_unique? h
      · exact mem_of_qualifiedMatch? h
      · exact (mem_select.mp (mem_of_unique? h)).1
      · exact (mem_select.mp (mem_of_unique? h)).1
    refine (mem_positions.mp hmem).imp fun e he => ?_
    simp only [Bool.and_eq_true, Option.isNone_iff_eq_none, beq_iff_eq] at he
    obtain ⟨⟨htype, hpart⟩, hsimple⟩ := he
    refine ⟨htype, hpart, hsimple, ?_⟩
    simp_all

@[grind →] theorem holds_of_mem_nearestMembers {type : Nat} {name : String}
    (h : i ∈ t.nearestMembers type name accept) : t.Holds i (accept · = true) := by
  unfold nearestMembers at h
  cases hfound : ((t.ancestry type).map (t.membersNamed · name accept)).find? (!·.isEmpty) with
  | none => simp [hfound] at h
  | some members =>
    rw [hfound, Option.getD_some] at h
    obtain ⟨owner, -, rfl⟩ := List.mem_map.mp (List.mem_of_find?_eq_some hfound)
    refine (mem_select.mp h).2.imp fun e he => ?_
    exact (Bool.and_eq_true _ _ ▸ he).2

@[grind →] theorem calledMethod_eq_some {name : String} {receiver context : Option Nat} {args : Nat}
    (h : t.calledMethod name receiver context args = some i) : t.Holds i (·.kind = .method) := by
  have hnearest {type : Nat}
      (h : t.bestOverload (t.nearestMembers type name (·.kind == .method)) args = some i) :
      t.Holds i (·.kind = .method) :=
    (holds_of_mem_nearestMembers (mem_of_bestOverload h)).imp fun e he => by simpa using he
  unfold calledMethod at h
  dsimp only at h
  split at h
  · exact hnearest h
  · simp only [Option.orElse_eq_orElse, Option.orElse_eq_or, Option.or_eq_some_iff] at h
    rcases h with h | ⟨-, h⟩
    · obtain ⟨type, -, h⟩ := Option.bind_eq_some_iff.mp h
      exact hnearest h
    · split at h
      · refine (mem_positions.mp (mem_of_bestOverload h)).imp fun e he => ?_
        simp_all
      · simp at h

@[grind →]
theorem calledConstructor_eq_some {type args : Nat} (h : t.calledConstructor type args = some i) :
    t.Holds i (·.kind = .constructor) := by
  refine (mem_select.mp (List.mem_of_head? h)).2.imp fun e he => ?_
  simp_all

@[grind →]
theorem dataMember_eq_some {type : Nat} {name : String} (h : t.dataMember type name = some i) :
    t.Holds i (·.kind.isData = true) :=
  holds_of_mem_nearestMembers (List.mem_of_head? h)

end CodeAtlas.Table
