import CodeAtlas.Proofs.Declaration.Ids
import CodeAtlas.Proofs.Declaration.Membership

/-!
# The parts of a type

The parts of a partial type are joined while a table is built, from what the table holds at that
moment. What comes of it can be read off the finished table: the first part is the first entry with
the `baseId`, if that entry is partial, and it has no ordinal in its id. Its base types are those
that the parts have in their files.

## Main definitions

* `Table.SettlesParts`: the first parts are those that the finished table shows.
* `Table.countBefore`: how many entries in front of a position have a given `baseId`.
* `Table.CountsIds`: the ids count the entries with the same `baseId`.
* `Table.Gathers`: the base types of the first parts are those of all declarations added so far.

## Main statements

* `Table.leadPart_ofFiles`: the first part of an entry, read off the finished table.
* `Table.leadPart_eq_iff`: which entries are parts of one type.
* `Table.id_ofFiles`: the id of an entry, read off the finished table.
* `Table.mem_baseTypes_ofFiles`: the base types of a first part.
-/
namespace CodeAtlas.Table

variable {t : Table} {d : Declaration} {ds : List Declaration} {files : List (List Declaration)}
  {extraBuiltins : List String} {i j p : Nat} {e a b : Entry} {baseId : String}

/-! ## Adding a declaration -/

/-- The entries after adding a declaration: a later part of a partial type adds to the base types of
the first part. -/
theorem entries_add_eq (t : Table) (d : Declaration) :
    (t.add d).entries =
      ((t.entryOf d).firstPart.elim t.entries fun first => t.entries.modify first fun e =>
        { e with baseTypes := mergeBases e.baseTypes d.baseTypes }).push (t.entryOf d) := by
  unfold add
  dsimp only
  cases hpart : (t.entryOf d).firstPart with
  | none =>
    have hpart : (if d.isPartial then t.partialNamed? (t.baseIdOf d) else none) = none := hpart
    split
    · rfl
    · next hsome => simp [hpart] at hsome
  | some first =>
    have hpart : (if d.isPartial then t.partialNamed? (t.baseIdOf d) else none) = some first :=
      hpart
    split
    · next hnone => simp [hpart] at hnone
    · next first' hsome =>
      obtain rfl : first = first' := Option.some.inj (hpart.symm.trans hsome)
      rfl

@[simp] theorem getElem?_add_size (t : Table) (d : Declaration) :
    (t.add d).entries[t.size]? = some (t.entryOf d) := by
  rw [entries_add_eq]
  cases (t.entryOf d).firstPart with
  | none => exact Array.getElem?_push_size
  | some first =>
    have hsize : t.size = (t.entries.modify first fun e =>
        { e with baseTypes := mergeBases e.baseTypes d.baseTypes }).size := Array.size_modify.symm
    rw [hsize]
    exact Array.getElem?_push_size

theorem getElem?_add_of_lt (hi : i < t.size) :
    (t.add d).entries[i]? = (t.entries[i]?).map fun e =>
      if (t.entryOf d).firstPart = some i then
        { e with baseTypes := mergeBases e.baseTypes d.baseTypes }
      else e := by
  have hne : i ≠ t.entries.size := Nat.ne_of_lt hi
  rw [entries_add_eq]
  cases (t.entryOf d).firstPart with
  | none => simp [Array.getElem?_push, hne]
  | some first =>
    rw [Option.elim_some, Array.getElem?_push, Array.size_modify, if_neg hne,
      Array.getElem?_modify]
    by_cases hfirst : first = i
    · simp [hfirst]
    · simp [hfirst]

@[grind →] theorem lt_size_of_getElem? (he : t.entries[i]? = some e) : i < t.size :=
  (Array.getElem?_eq_some_iff.mp he).1

/-- An entry after adding a declaration is the new one or an earlier one, which has more base types
if the new one is a later part of it. -/
theorem getElem?_add_cases (he : (t.add d).entries[i]? = some e) :
    (i = t.size ∧ e = t.entryOf d) ∨
    ∃ e', i < t.size ∧ t.entries[i]? = some e' ∧
      ((t.entryOf d).firstPart ≠ some i ∧ e = e' ∨ (t.entryOf d).firstPart = some i ∧
        e = { e' with baseTypes := mergeBases e'.baseTypes d.baseTypes }) := by
  have hi := lt_size_of_getElem? he
  rw [size_add] at hi
  rcases Nat.lt_succ_iff_lt_or_eq.mp hi with hi | rfl
  · rw [getElem?_add_of_lt hi] at he
    obtain ⟨e', he', rfl⟩ := Option.map_eq_some_iff.mp he
    refine .inr ⟨e', hi, he', ?_⟩
    split
    · next hpart => exact .inr ⟨hpart, rfl⟩
    · next hpart => exact .inl ⟨hpart, rfl⟩
  · rw [getElem?_add_size] at he
    exact .inl ⟨rfl, (Option.some.inj he).symm⟩

theorem holds_add_of_lt {q : Entry → Prop} (hq : ∀ e bases, q { e with baseTypes := bases } ↔ q e)
    (hi : i < t.size) : (t.add d).Holds i q ↔ t.Holds i q := by
  unfold Holds
  rw [getElem?_add_of_lt hi]
  simp only [Option.map_eq_some_iff]
  constructor
  · rintro ⟨_, ⟨e, he, rfl⟩, h⟩
    refine ⟨e, he, ?_⟩
    split at h
    · exact (hq e _).mp h
    · exact h
  · rintro ⟨e, he, h⟩
    refine ⟨_, ⟨e, he, rfl⟩, ?_⟩
    split
    · exact (hq e _).mpr h
    · exact h

/-! ## The first part -/

/-- The first entry with a `baseId` is found if it is partial. -/
theorem partialNamed?_eq_some_iff : t.partialNamed? baseId = some p ↔
    t.Holds p (fun e => e.baseId = baseId ∧ e.isPartial = true) ∧
      ∀ j < p, ¬ t.Holds j (·.baseId = baseId) := by
  constructor
  · intro h
    obtain ⟨e, he, hbase, hpartial, hfirst⟩ := partialNamed?_eq_some h
    refine ⟨⟨e, he, hbase, hpartial⟩, ?_⟩
    rintro j hj ⟨e', he', hbase'⟩
    exact hfirst j e' hj he' hbase'
  · rintro ⟨⟨e, he, hbase, hpartial⟩, hfirst⟩
    have hfind : t.entries.findIdx? (·.baseId == baseId) = some p := by
      obtain ⟨hp, heq⟩ := Array.getElem?_eq_some_iff.mp he
      refine Array.findIdx?_eq_some_iff_getElem.mpr ⟨hp, by simp [heq, hbase], fun j hj => ?_⟩
      have := hfirst j hj
      simpa [Holds, Nat.lt_trans hj hp] using this
    simp [partialNamed?, hfind, he, hpartial]

/-- The first entry with a `baseId` stays the first one. -/
theorem partialNamed?_add (h : t.Holds i (·.baseId = baseId)) :
    (t.add d).partialNamed? baseId = t.partialNamed? baseId := by
  obtain ⟨e, he, -⟩ := id h
  have hi := lt_size_of_getElem? he
  have hbase (j : Nat) (hj : j < t.size) :
      (t.add d).Holds j (·.baseId = baseId) ↔ t.Holds j (·.baseId = baseId) :=
    holds_add_of_lt (fun _ _ => Iff.rfl) hj
  apply Option.ext
  intro p
  rw [partialNamed?_eq_some_iff, partialNamed?_eq_some_iff]
  by_cases hp : p < t.size
  · rw [holds_add_of_lt (fun _ _ => Iff.rfl) hp]
    refine and_congr_right fun _ => forall₂_congr fun j hj => ?_
    rw [hbase j (Nat.lt_trans hj hp)]
  · -- the first entry stands no later than `i`
    have hip : i < p := by omega
    refine iff_of_false (fun hfirst => ?_) fun hfirst => hfirst.2 i hip h
    exact hfirst.2 i hip ((hbase i hi).mpr h)

/-- A `baseId` that no entry has leads to the entry that brings it. -/
theorem getD_partialNamed?_add (h : ∀ i, ¬ t.Holds i (·.baseId = baseId)) :
    ((t.add d).partialNamed? baseId).getD t.size = t.size := by
  cases hfirst : (t.add d).partialNamed? baseId with
  | none => rfl
  | some p =>
    obtain ⟨hp, -⟩ := partialNamed?_eq_some_iff.mp hfirst
    rw [Option.getD_some]
    by_contra hne
    obtain ⟨e, he, hbase, -⟩ := id hp
    have hlt : p < t.size := by
      have := lt_size_of_getElem? he
      rw [size_add] at this
      omega
    exact h p (((holds_add_of_lt (fun _ _ => Iff.rfl) hlt).mp hp).imp fun _ => And.left)

theorem leadPart_add_size (t : Table) (d : Declaration) :
    (t.add d).leadPart t.size =
      if d.isPartial then ((t.add d).partialNamed? (t.baseIdOf d)).getD t.size else t.size := by
  have hlead : (t.add d).leadPart t.size =
      (if d.isPartial then t.partialNamed? (t.baseIdOf d) else none).getD t.size := by
    simp [leadPart, getElem?_add_size, entryOf]
  rw [hlead]
  by_cases hpartial : d.isPartial = true
  · rw [if_pos hpartial, if_pos hpartial]
    -- an earlier entry with the `baseId` decides, or the new one is the first
    by_cases hbase : ∃ i, t.Holds i (·.baseId = t.baseIdOf d)
    · obtain ⟨i, hi⟩ := hbase
      rw [partialNamed?_add hi]
    · rw [not_exists] at hbase
      rw [getD_partialNamed?_add hbase]
      cases hfirst : t.partialNamed? (t.baseIdOf d) with
      | none => rfl
      | some p =>
        exact absurd ((partialNamed?_eq_some_iff.mp hfirst).1.imp fun _ => And.left) (hbase p)
  · rw [if_neg hpartial, if_neg hpartial]
    rfl

/-- The first part of each entry is the first entry with its `baseId`, if both are partial. -/
def SettlesParts (t : Table) : Prop :=
  ∀ i e, t.entries[i]? = some e →
    t.leadPart i = if e.isPartial then (t.partialNamed? e.baseId).getD i else i

theorem SettlesParts.add (h : t.SettlesParts) (d : Declaration) : (t.add d).SettlesParts := by
  intro i e he
  rcases getElem?_add_cases he with ⟨rfl, rfl⟩ | ⟨e', hi, he', hcases⟩
  · exact leadPart_add_size t d
  · have hbase : (t.add d).partialNamed? e'.baseId = t.partialNamed? e'.baseId :=
      partialNamed?_add ⟨e', he', rfl⟩
    rw [leadPart_add hi, h i e' he', ← hbase]
    rcases hcases with ⟨-, rfl⟩ | ⟨-, rfl⟩
    · rfl
    · rfl

theorem settlesParts_ofFiles (files : List (List Declaration)) (extraBuiltins : List String) :
    (ofFiles files extraBuiltins).SettlesParts :=
  ofFiles_induction files extraBuiltins (by simp [SettlesParts, empty])
    fun _ _ _ _ _ _ h => h.add _

/-- The first part of an entry, read off the finished table. -/
theorem leadPart_ofFiles (he : (ofFiles files extraBuiltins).entries[i]? = some e) :
    (ofFiles files extraBuiltins).leadPart i =
      if e.isPartial then ((ofFiles files extraBuiltins).partialNamed? e.baseId).getD i else i :=
  settlesParts_ofFiles files extraBuiltins i e he

theorem leadPart_le (h : Orderly t.outline) (i : Nat) : t.leadPart i ≤ i := by
  cases he : t.entries[i]? with
  | none => simp [leadPart, he]
  | some e =>
    cases hpart : e.firstPart with
    | none => rw [leadPart_eq_self he hpart]
    | some p =>
      have hlt := (h.parts i p _ (getElem?_outline he) hpart).1
      simpa [leadPart, he, hpart] using Nat.le_of_lt hlt

@[simp] theorem leadPart_leadPart (h : Orderly t.outline) (i : Nat) :
    t.leadPart (t.leadPart i) = t.leadPart i := by
  cases he : t.entries[i]? with
  | none => simp [leadPart, he]
  | some e =>
    obtain ⟨lead, hlead, hnone, -⟩ := exists_leadPart h he
    exact leadPart_eq_self hlead hnone

/-- An entry leads itself, or it is partial and the first entry with its `baseId` leads it. -/
theorem leadPart_cases (ht : t = ofFiles files extraBuiltins) (he : t.entries[i]? = some e) :
    t.leadPart i = i ∨ e.isPartial = true ∧ t.partialNamed? e.baseId = some (t.leadPart i) := by
  subst ht
  rw [leadPart_ofFiles he]
  split
  · next hpartial =>
    cases (ofFiles files extraBuiltins).partialNamed? e.baseId with
    | none => exact .inl rfl
    | some p => exact .inr ⟨hpartial, rfl⟩
  · exact .inl rfl

/-- Two entries are parts of one type if and only if they and the first entry with their `baseId`
are partial. -/
theorem leadPart_eq_iff (ht : t = ofFiles files extraBuiltins) (hne : i ≠ j)
    (ha : t.entries[i]? = some a) (hb : t.entries[j]? = some b) :
    t.leadPart i = t.leadPart j ↔ a.isPartial = true ∧ b.isPartial = true ∧
      a.baseId = b.baseId ∧ (t.partialNamed? a.baseId).isSome = true := by
  have hfirst {k : Nat} {c : Entry} {base : String} (hc : t.entries[k]? = some c)
      (h : t.partialNamed? base = some k) : c.baseId = base ∧ c.isPartial = true := by
    obtain ⟨⟨c', hc', hboth⟩, -⟩ := partialNamed?_eq_some_iff.mp h
    obtain rfl : c = c' := Option.some.inj (hc.symm.trans hc')
    exact hboth
  constructor
  · intro hlead
    rcases leadPart_cases ht ha with hi | ⟨hpartial, hi⟩
    · rcases leadPart_cases ht hb with hj | ⟨hpartial', hj⟩
      · exact absurd (hi.symm.trans (hlead.trans hj)) hne
      · -- the first of the two leads the second one
        rw [← hlead, hi] at hj
        obtain ⟨hbase, hpartial⟩ := hfirst ha hj
        exact ⟨hpartial, hpartial', hbase, by simp [hbase, hj]⟩
    · rcases leadPart_cases ht hb with hj | ⟨hpartial', hj⟩
      · rw [hlead, hj] at hi
        obtain ⟨hbase, hpartial'⟩ := hfirst hb hi
        exact ⟨hpartial, hpartial', hbase.symm, by simp [hi]⟩
      · -- both are led by the same entry
        obtain ⟨⟨lead, hat, hbase, -⟩, -⟩ := partialNamed?_eq_some_iff.mp hi
        rw [← hlead] at hj
        exact ⟨hpartial, hpartial', hbase.symm.trans (hfirst hat hj).1, by simp [hi]⟩
  · rintro ⟨hpartial, hpartial', hbase, hsome⟩
    obtain ⟨p, hp⟩ := Option.isSome_iff_exists.mp hsome
    subst ht
    rw [leadPart_ofFiles ha, leadPart_ofFiles hb, if_pos hpartial, if_pos hpartial', ← hbase, hp]
    rfl

theorem baseId_eq_of_leadPart_eq (ht : t = ofFiles files extraBuiltins)
    (ha : t.entries[i]? = some a) (hb : t.entries[j]? = some b)
    (hlead : t.leadPart i = t.leadPart j) : a.baseId = b.baseId := by
  by_cases hne : i = j
  · subst hne
    rw [Option.some.inj (ha.symm.trans hb)]
  · exact ((leadPart_eq_iff ht hne ha hb).mp hlead).2.2.1

/-! ## Ids -/

/-- How many entries in front of a position have a given `baseId`. -/
def countBefore (t : Table) (i : Nat) (baseId : String) : Nat :=
  ((t.entries.toList.map (·.baseId)).take i).count baseId

@[simp] theorem countBefore_add (hi : i ≤ t.size) :
    (t.add d).countBefore i baseId = t.countBefore i baseId := by
  unfold countBefore
  rw [map_entries_add (fun e => e.baseId) fun _ _ => rfl,
    List.take_append_of_le_length (by simpa [size] using hi)]

theorem countBefore_size (t : Table) (baseId : String) :
    t.countBefore t.size baseId = (t.entries.filter (·.baseId == baseId)).size := by
  rw [size_filter_baseId, countBefore, List.take_of_length_le (by simp [size]), idPairs,
    List.map_map]
  rfl

/-- The id of each entry tells how many earlier ones have its `baseId`. -/
def CountsIds (t : Table) : Prop :=
  ∀ i e, t.entries[i]? = some e → e.id = ordinalId e.baseId (t.countBefore i e.baseId)

theorem CountsIds.add (h : t.CountsIds) (d : Declaration) : (t.add d).CountsIds := by
  intro i e he
  rcases getElem?_add_cases he with ⟨rfl, rfl⟩ | ⟨e', hi, he', hcases⟩
  · rw [countBefore_add (Nat.le_refl _), countBefore_size]
    rfl
  · rw [countBefore_add (Nat.le_of_lt hi)]
    rcases hcases with ⟨-, rfl⟩ | ⟨-, rfl⟩
    · exact h i e he'
    · exact h i e' he'

/-- The id of an entry, read off the finished table. -/
theorem id_ofFiles (he : (ofFiles files extraBuiltins).entries[i]? = some e) :
    e.id = ordinalId e.baseId ((ofFiles files extraBuiltins).countBefore i e.baseId) :=
  ofFiles_induction (P := CountsIds) files extraBuiltins (by simp [CountsIds, empty])
    (fun _ _ _ _ _ _ h => h.add _) i e he

/-- The id of an entry ends in an ordinal from the second one with its `baseId` on. -/
theorem id_eq_append_iff (he : (ofFiles files extraBuiltins).entries[i]? = some e) {n : Nat}
    (hn : 2 ≤ n) : e.id = e.baseId ++ "#" ++ toString n ↔
      (ofFiles files extraBuiltins).countBefore i e.baseId + 1 = n := by
  rw [id_ofFiles he]
  unfold ordinalId
  split
  · next hzero =>
    rw [hzero]
    refine iff_of_false (fun h => ?_) (by omega)
    have hlength := congrArg (fun s => s.toList.length) h
    simp at hlength
  · next hpos =>
    refine ⟨fun h => (append_ordinal_inj h).2, ?_⟩
    rintro rfl
    rfl

/-- The first part of a type has no ordinal in its id. -/
theorem id_of_partialNamed? (ht : t = ofFiles files extraBuiltins)
    (h : t.partialNamed? baseId = some p) (he : t.entries[p]? = some e) : e.id = baseId := by
  obtain ⟨⟨e', he', hbase, -⟩, hfirst⟩ := partialNamed?_eq_some_iff.mp h
  obtain rfl : e = e' := Option.some.inj (he.symm.trans he')
  have hzero : t.countBefore p e.baseId = 0 := by
    refine List.count_eq_zero.mpr fun hmem => ?_
    obtain ⟨j, hj, heq⟩ := List.mem_take_iff_getElem.mp hmem
    rw [List.length_map, Array.length_toList] at hj
    rw [List.getElem_map, Array.getElem_toList] at heq
    exact hfirst j (by omega) ⟨_, Array.getElem?_eq_getElem (by omega), heq.trans hbase⟩
  subst ht
  rw [id_ofFiles he, hzero, ordinalId, if_pos rfl, hbase]

/-- What is declared outside of all types is named by its segment alone. -/
theorem baseId_eq_segment (he : (ofFiles files extraBuiltins).entries[i]? = some e)
    (hparent : e.parent = none) : e.baseId = e.segment := by
  refine ofFiles_induction (P := fun t => ∀ (i : Nat) (e : Entry), t.entries[i]? = some e →
    e.parent = none → e.baseId = e.segment) files extraBuiltins (by simp [empty]) ?_ i e he hparent
  intro t _ _ d _ parent h i e he hparent
  rcases getElem?_add_cases he with ⟨rfl, rfl⟩ | ⟨e', -, he', ⟨-, rfl⟩ | ⟨-, rfl⟩⟩
  · have hparent : parent = none := hparent
    simp [entryOf, baseIdOf, hparent]
  · exact h i e he' hparent
  · exact h i e' he' hparent

/-- What is declared in a type is named after the first part of the type. -/
theorem exists_baseId_eq (ht : t = ofFiles files extraBuiltins) (he : t.entries[i]? = some e)
    (hparent : e.parent = some p) (hlt : p < i) :
    ∃ lead, t.entries[t.leadPart p]? = some lead ∧ e.baseId = lead.id ++ "." ++ e.segment := by
  have horder : Orderly t.outline := ht ▸ orderly_ofFiles files extraBuiltins
  obtain ⟨owner, howner⟩ : ∃ owner, t.entries[p]? = some owner :=
    ⟨_, Array.getElem?_eq_getElem (Nat.lt_trans hlt (lt_size_of_getElem? he))⟩
  have hnamed : e.baseId = owner.scope ++ "." ++ e.segment :=
    (horder.named i p _ _ (getElem?_outline he) (getElem?_outline howner) hlt hparent :)
  obtain ⟨lead, hlead, hnone, -⟩ := exists_leadPart horder howner
  refine ⟨lead, hlead, ?_⟩
  have hself (heq : t.leadPart p = p) : owner = lead := by
    rw [heq, howner] at hlead
    exact Option.some.inj hlead
  rw [hnamed, Entry.scope]
  rcases leadPart_cases ht howner with heq | ⟨-, hfirst⟩
  · obtain rfl := hself heq
    simp [hnone]
  · rw [id_of_partialNamed? ht hfirst hlead]
    cases hpart : owner.firstPart with
    | none =>
      obtain rfl := hself (leadPart_eq_self howner hpart)
      simp [id_of_partialNamed? ht hfirst hlead]
    | some q => simp

/-! ## Base types -/

@[simp] theorem mem_mergeBases {bases more : List String} {text : String} :
    text ∈ mergeBases bases more ↔ text ∈ bases ∨ text ∈ more := by
  unfold mergeBases
  induction more generalizing bases with
  | nil => simp
  | cons base more ih =>
    rw [List.foldl_cons, ih, List.mem_cons]
    split
    · next hmem =>
      have hmem : base ∈ bases := by simpa using hmem
      constructor
      · rintro (h | h)
        · exact .inl h
        · exact .inr (.inr h)
      · rintro (h | rfl | h)
        · exact .inl h
        · exact .inl hmem
        · exact .inr h
    · rw [List.mem_append, List.mem_singleton, or_assoc]

/-- The table `t` is one of the declarations `ds`, in which the base types of the first parts are
those that the parts are declared with. -/
structure Gathers (t : Table) (ds : List Declaration) : Prop where
  orderly : Orderly t.outline
  size_eq : t.size = ds.length
  mem_iff : ∀ i e text, t.entries[i]? = some e → t.leadPart i = i →
    (text ∈ e.baseTypes ↔ ∃ j d, ds[j]? = some d ∧ t.leadPart j = i ∧ text ∈ d.baseTypes)

/-- The parts of a type are the earlier ones and perhaps the new entry. -/
theorem exists_part_add {q : Declaration → Prop} (hsize : t.size = ds.length) :
    (∃ j d', (ds ++ [d])[j]? = some d' ∧ (t.add d).leadPart j = i ∧ q d') ↔
      (∃ j d', ds[j]? = some d' ∧ t.leadPart j = i ∧ q d') ∨
        (t.add d).leadPart t.size = i ∧ q d := by
  constructor
  · rintro ⟨j, d', hj, hlead, hq⟩
    rcases Nat.lt_or_ge j ds.length with hlt | hge
    · rw [List.getElem?_append_left hlt] at hj
      rw [leadPart_add (hsize ▸ hlt)] at hlead
      exact .inl ⟨j, d', hj, hlead, hq⟩
    · rw [List.getElem?_append_right hge, List.getElem?_singleton] at hj
      split at hj
      · next hlast =>
        obtain rfl := Option.some.inj hj
        obtain rfl : j = t.size := by omega
        exact .inr ⟨hlead, hq⟩
      · simp at hj
  · rintro (⟨j, d', hj, hlead, hq⟩ | ⟨hlead, hq⟩)
    · have hlt := (List.getElem?_eq_some_iff.mp hj).1
      refine ⟨j, d', ?_, ?_, hq⟩
      · rw [List.getElem?_append_left hlt, hj]
      · rw [leadPart_add (hsize ▸ hlt), hlead]
    · exact ⟨t.size, d, by simp [hsize], hlead, hq⟩

theorem Gathers.add (h : t.Gathers ds) (d : Declaration) : (t.add d).Gathers (ds ++ [d]) where
  orderly := orderly_add h.orderly d
  size_eq := by simp [h.size_eq]
  mem_iff := by
    intro i e text he hi
    rw [exists_part_add h.size_eq]
    rcases getElem?_add_cases he with ⟨rfl, rfl⟩ | ⟨e', hlt, he', hcases⟩
    · -- no earlier entry is a part of the new one
      constructor
      · exact fun hmem => .inr ⟨hi, hmem⟩
      · rintro (⟨j, d', hj, hlead, -⟩ | ⟨-, hmem⟩)
        · have hlt := (List.getElem?_eq_some_iff.mp hj).1
          have hle := leadPart_le h.orderly j
          have hsize := h.size_eq
          omega
        · exact hmem
    · rw [leadPart_add hlt] at hi
      have hnew : (t.add d).leadPart t.size = i ↔ (t.entryOf d).firstPart = some i := by
        have hlead : (t.add d).leadPart t.size = (t.entryOf d).firstPart.getD t.size := by
          simp [leadPart, getElem?_add_size]
        rw [hlead]
        cases (t.entryOf d).firstPart with
        | none => simpa using Nat.ne_of_gt hlt
        | some first => simp
      rw [hnew, ← h.mem_iff i e' text he' hi]
      rcases hcases with ⟨hpart, rfl⟩ | ⟨hpart, rfl⟩
      · simp [hpart]
      · simp [hpart, mem_mergeBases]

theorem Gathers.foldl_add {more : List Declaration} (h : t.Gathers ds) :
    (more.foldl Table.add t).Gathers (ds ++ more) := by
  induction more generalizing t ds with
  | nil => simpa using h
  | cons d more ih =>
    rw [List.append_cons]
    exact ih (h.add d)

theorem gathers_ofFiles (files : List (List Declaration)) (extraBuiltins : List String) :
    (ofFiles files extraBuiltins).Gathers (joined 0 files) := by
  have hempty : (empty extraBuiltins).Gathers [] := ⟨orderly_nil, rfl, by simp [empty]⟩
  rw [ofFiles_eq_foldl]
  exact hempty.foldl_add

/-- The base types of a first part are those that its parts have in their files. -/
theorem mem_baseTypes_ofFiles {text : String}
    (he : (ofFiles files extraBuiltins).entries[i]? = some e)
    (hi : (ofFiles files extraBuiltins).leadPart i = i) :
    text ∈ e.baseTypes ↔ ∃ j d, files.flatten[j]? = some d ∧
      (ofFiles files extraBuiltins).leadPart j = i ∧ text ∈ d.baseTypes := by
  have hsame (j : Nat) : ((joined 0 files)[j]?).map (·.baseTypes) =
      (files.flatten[j]?).map (·.baseTypes) := by
    have hmap := congrArg (·[j]?) (map_joined (·.baseTypes) (fun _ _ => rfl) 0 files)
    simpa only [List.getElem?_map] using hmap
  rw [(gathers_ofFiles files extraBuiltins).mem_iff i e text he hi]
  constructor
  · rintro ⟨j, d, hj, hlead, hmem⟩
    have hbases := hsame j
    rw [hj, Option.map_some] at hbases
    obtain ⟨d', hd', heq⟩ := Option.map_eq_some_iff.mp hbases.symm
    exact ⟨j, d', hd', hlead, heq ▸ hmem⟩
  · rintro ⟨j, d, hj, hlead, hmem⟩
    have hbases := hsame j
    rw [hj, Option.map_some] at hbases
    obtain ⟨d', hd', heq⟩ := Option.map_eq_some_iff.mp hbases
    exact ⟨j, d', hd', hlead, heq ▸ hmem⟩

end CodeAtlas.Table
