import CodeAtlas.Declaration.Table

/-!
# How a table is built

A table grows at its end. Adding a declaration changes nothing of the earlier entries but the base
types of the first part of a partial type, so whatever is said of entries without their base types
is said once and for all when they are added.

## Main definitions

* `Table.entryOf`: the entry that a declaration gets.
* `Table.outline`: the entries without their base types.
* `joined`: the declarations of several files in one list.
* `Orderly`: entries that are named after their owners, and parts that lead back to the first part.

## Main statements

* `Table.ofFiles_induction`: what holds of the empty table and is kept by adding a declaration holds
  of the table of some files.
* `Table.map_entries_joined`: the entries of a table are the declarations of the files.
* `Table.orderly_ofFiles`: the entries of a table are orderly.
-/
namespace CodeAtlas

/-- The id of an entry, given how many earlier ones have its `baseId`. -/
def ordinalId (base : String) (k : Nat) : String :=
  if k = 0 then base else base ++ "#" ++ toString (k + 1)

namespace Table

variable {t : Table} {d : Declaration} {β : Type}

/-! ## Adding a declaration -/

/-- The entry that `d` gets in the table `t`. -/
def entryOf (t : Table) (d : Declaration) : Entry :=
  { d with
    baseId := t.baseIdOf d
    id := ordinalId (t.baseIdOf d) (t.entries.filter (·.baseId == t.baseIdOf d)).size
    firstPart := if d.isPartial then t.partialNamed? (t.baseIdOf d) else none }

theorem map_modify_eq (xs : Array Entry) (i : Nat) (g : Entry → Entry) (f : Entry → β)
    (h : ∀ e, f (g e) = f e) : (xs.modify i g).toList.map f = xs.toList.map f := by
  apply List.ext_getElem?
  intro j
  rw [List.getElem?_map, List.getElem?_map, Array.getElem?_toList, Array.getElem?_toList,
    Array.getElem?_modify]
  split
  · cases xs[j]? <;> simp [h]
  · rfl

/-- Adding a declaration puts its entry at the end. A later part of a partial type adds to the base
types of the first part. -/
theorem entries_add (t : Table) (d : Declaration) :
    (t.add d).entries = t.entries.push (t.entryOf d) ∨
      ∃ first, (t.add d).entries = (t.entries.modify first fun e =>
        { e with baseTypes := mergeBases e.baseTypes d.baseTypes }).push (t.entryOf d) := by
  unfold add
  dsimp only
  split
  · exact .inl rfl
  · next first _ => exact .inr ⟨first, rfl⟩

theorem map_entries_add (f : Entry → β) (hf : ∀ e bases, f { e with baseTypes := bases } = f e) :
    (t.add d).entries.toList.map f = t.entries.toList.map f ++ [f (t.entryOf d)] := by
  rcases entries_add t d with heq | ⟨first, heq⟩
  · simp [heq]
  · rw [heq, Array.toList_push, List.map_append, map_modify_eq _ _ _ f fun e => hf e _]
    rfl

/-- What holds of the empty table and is kept by adding a declaration, wherever its parent stands,
holds of the table of some files. -/
theorem ofFiles_induction {P : Table → Prop} (files : List (List Declaration))
    (extraBuiltins : List String) (hempty : P (empty extraBuiltins))
    (hadd : ∀ t, ∀ file ∈ files, ∀ d ∈ file, ∀ parent, P t → P (t.add { d with parent })) :
    P (ofFiles files extraBuiltins) := by
  have hfile (offset : Nat) (file : List Declaration)
      (hadd : ∀ t, ∀ d ∈ file, ∀ parent, P t → P (t.add { d with parent })) (t : Table)
      (ht : P t) :
      P (file.foldl (fun t d => t.add { d with parent := d.parent.map (· + offset) }) t) := by
    induction file generalizing t with
    | nil => exact ht
    | cons d file ih =>
      refine ih (fun t d' hd' => hadd t d' (List.mem_cons_of_mem _ hd')) _ ?_
      exact hadd t d List.mem_cons_self _ ht
  have hrun (t : Table) (ht : P t) : P (files.foldl addFile t) := by
    induction files generalizing t with
    | nil => exact ht
    | cons file files ih =>
      refine ih (fun t f hf => hadd t f (List.mem_cons_of_mem _ hf)) _ ?_
      exact hfile _ file (fun t => hadd t file List.mem_cons_self) t ht
  exact hrun _ hempty

/-! ## The declarations of several files -/

end Table

/-- The declaration in a list that has `offset` more elements in front. -/
def Declaration.shift (offset : Nat) (d : Declaration) : Declaration :=
  { d with parent := d.parent.map (· + offset) }

/-- The declarations of several files in one list, in front of which `offset` others stand. -/
def joined (offset : Nat) : List (List Declaration) → List Declaration
  | [] => []
  | file :: files => file.map (·.shift offset) ++ joined (offset + file.length) files

/-- Where in the joined list the declarations of a file stand. -/
theorem getElem?_joined {offset i : Nat} {files : List (List Declaration)} {d : Declaration}
    (h : (joined offset files)[i]? = some d) :
    ∃ pre file post k d', files = pre ++ file :: post ∧ i = pre.flatten.length + k ∧
      file[k]? = some d' ∧ d = d'.shift (offset + pre.flatten.length) := by
  induction files generalizing offset i with
  | nil => simp [joined] at h
  | cons file files ih =>
    rw [joined, List.getElem?_append] at h
    split at h
    · rw [List.getElem?_map] at h
      obtain ⟨d', hd', rfl⟩ := Option.map_eq_some_iff.mp h
      exact ⟨[], file, files, i, d', rfl, by simp, hd', rfl⟩
    · next hi =>
      obtain ⟨pre, file', post, k, d', rfl, hk, hd', rfl⟩ := ih h
      refine ⟨file :: pre, file', post, k, d', rfl, ?_, hd', ?_⟩
      · simp only [List.length_map] at hi hk
        simp only [List.flatten_cons, List.length_append]
        omega
      · simp [Nat.add_assoc]

@[simp] theorem joined_append (offset : Nat) (files files' : List (List Declaration)) :
    joined offset (files ++ files') =
      joined offset files ++ joined (offset + files.flatten.length) files' := by
  induction files generalizing offset with
  | nil => simp [joined]
  | cons file files ih => simp [joined, ih, Nat.add_assoc]

@[simp] theorem length_joined (offset : Nat) (files : List (List Declaration)) :
    (joined offset files).length = files.flatten.length := by
  induction files generalizing offset with
  | nil => rfl
  | cons file files ih => simp [joined, ih]

/-- The joined declarations are those of the files, but for their parents. -/
theorem map_joined {β : Type} (f : Declaration → β)
    (hparent : ∀ d parent, f { d with parent := parent } = f d) (offset : Nat)
    (files : List (List Declaration)) : (joined offset files).map f = files.flatten.map f := by
  induction files generalizing offset with
  | nil => rfl
  | cons file files ih => simp [joined, ih, Declaration.shift, Function.comp_def, hparent]

/-- The declarations of a file keep their order in the joined list. -/
theorem getElem?_joined_of_file {pre post : List (List Declaration)} {file : List Declaration}
    {k : Nat} {d : Declaration} (h : file[k]? = some d) :
    (joined 0 (pre ++ file :: post))[pre.flatten.length + k]? =
      some (d.shift pre.flatten.length) := by
  have hk : k < file.length := (List.getElem?_eq_some_iff.mp h).1
  rw [joined_append, List.getElem?_append_right (by rw [length_joined]; omega), length_joined,
    joined, List.getElem?_append_left (by simp; omega), List.getElem?_map]
  simp [h]

namespace Table

variable {t : Table} {β : Type}

/-- The entries of a table are the declarations of the files. Only base types are added. -/
theorem map_entries_joined (files : List (List Declaration)) (extraBuiltins : List String)
    (f : Declaration → β) (hf : ∀ d bases, f { d with baseTypes := bases } = f d) :
    (ofFiles files extraBuiltins).entries.toList.map (fun e => f e.toDeclaration) =
      (joined 0 files).map f := by
  have hfile (t : Table) (offset : Nat) (file : List Declaration) :
      (file.foldl (fun t d => t.add { d with parent := d.parent.map (· + offset) })
        t).entries.toList.map (fun e => f e.toDeclaration) =
      t.entries.toList.map (fun e => f e.toDeclaration) ++
        (file.map (·.shift offset)).map f := by
    induction file generalizing t with
    | nil => simp
    | cons d file ih =>
      rw [List.foldl_cons, ih, map_entries_add _ fun e bases => hf e.toDeclaration bases]
      simp [entryOf, Declaration.shift]
  have hrun (t : Table) : (files.foldl addFile t).entries.toList.map (fun e => f e.toDeclaration) =
      t.entries.toList.map (fun e => f e.toDeclaration) ++
        (joined t.entries.size files).map f := by
    induction files generalizing t with
    | nil => simp [joined]
    | cons file files ih =>
      have hsize : (t.addFile file).entries.size = t.entries.size + file.length := by
        have hmap := congrArg List.length (hfile t t.entries.size file)
        simpa [addFile] using hmap
      rw [List.foldl_cons, ih, hsize, addFile, hfile]
      simp [joined]
  exact hrun (empty extraBuiltins)

/-- The entries of the table of `files` are the declarations of the files for every `f` that reads
neither base types nor parents, which are counted anew. -/
theorem map_entries_ofFiles (files : List (List Declaration)) (extraBuiltins : List String)
    (f : Declaration → β) (hbases : ∀ d bases, f { d with baseTypes := bases } = f d)
    (hparent : ∀ d parent, f { d with parent := parent } = f d) :
    (ofFiles files extraBuiltins).entries.toList.map (fun e => f e.toDeclaration) =
      files.flatten.map f := by
  rw [map_entries_joined files extraBuiltins f hbases, map_joined f hparent]

/-- The entry at a position is the declaration at that position of the joined list. -/
theorem map_getElem?_entries (files : List (List Declaration)) (extraBuiltins : List String)
    (f : Declaration → β) (hf : ∀ d bases, f { d with baseTypes := bases } = f d) (i : Nat) :
    ((ofFiles files extraBuiltins).entries[i]?).map (fun e => f e.toDeclaration) =
      ((joined 0 files)[i]?).map f := by
  have hmap := congrArg (·[i]?) (map_entries_joined files extraBuiltins f hf)
  simpa using hmap

/-! ## Owners and parts -/

/-- The entries of `t` without their base types, which alone may change later. -/
def outline (t : Table) : List Entry :=
  t.entries.toList.map fun e => { e with baseTypes := [] }

theorem getElem?_outline {i : Nat} {e : Entry} (h : t.entries[i]? = some e) :
    t.outline[i]? = some { e with baseTypes := [] } := by
  simp [outline, h]

theorem outline_add (t : Table) (d : Declaration) :
    (t.add d).outline = t.outline ++ [{ t.entryOf d with baseTypes := [] }] :=
  map_entries_add _ fun _ _ => rfl

end Table

/-- An entry of `es` is named after its owner, and a later part of a type leads back to its first
part, which is no later part itself. -/
structure Orderly (es : List Entry) : Prop where
  numbered : ∀ e ∈ es, ∃ k, e.id = ordinalId e.baseId k
  named : ∀ (i p : Nat) (e owner : Entry), es[i]? = some e → es[p]? = some owner → p < i →
    e.parent = some p → e.baseId = owner.scope ++ "." ++ e.segment
  parts : ∀ (i p : Nat) (e : Entry), es[i]? = some e → e.firstPart = some p → p < i ∧
    ∃ lead, es[p]? = some lead ∧ lead.baseId = e.baseId ∧ lead.isPartial = true ∧
      lead.firstPart = none

theorem orderly_nil : Orderly [] := by
  constructor <;> simp

theorem Orderly.append {es : List Entry} {e : Entry} (h : Orderly es)
    (hid : ∃ k, e.id = ordinalId e.baseId k)
    (hnamed : ∀ (p : Nat) (owner : Entry), es[p]? = some owner → e.parent = some p →
      e.baseId = owner.scope ++ "." ++ e.segment)
    (hpart : ∀ p, e.firstPart = some p → ∃ lead, es[p]? = some lead ∧
      lead.baseId = e.baseId ∧ lead.isPartial = true ∧ lead.firstPart = none) :
    Orderly (es ++ [e]) where
  numbered := by
    intro e' he'
    rcases List.mem_append.mp he' with he' | he'
    · exact h.numbered e' he'
    · obtain rfl := List.mem_singleton.mp he'
      exact hid
  named := by
    intro i p e' owner hi hp hlt hparent
    have := h.named i p e' owner
    grind
  parts := by
    intro i p e' hi hfirst
    have := h.parts i p e'
    have := hpart p
    grind

namespace Table

variable {t : Table} {baseId : String} {p : Nat}

theorem exists_of_getElem?_outline {i : Nat} {e : Entry} (h : t.outline[i]? = some e) :
    ∃ e', t.entries[i]? = some e' ∧ e = { e' with baseTypes := [] } := by
  simp only [outline, List.getElem?_map, Array.getElem?_toList, Option.map_eq_some_iff] at h
  obtain ⟨e', he', rfl⟩ := h
  exact ⟨e', he', rfl⟩

/-- A partial entry that is found by its `baseId` is the first one with it. -/
theorem partialNamed?_eq_some (h : t.partialNamed? baseId = some p) :
    ∃ e, t.entries[p]? = some e ∧ e.baseId = baseId ∧ e.isPartial = true ∧
      ∀ (j : Nat) (e' : Entry), j < p → t.entries[j]? = some e' → e'.baseId ≠ baseId := by
  obtain ⟨i, hfind, h⟩ := Option.bind_eq_some_iff.mp h
  obtain ⟨e, he, h⟩ := Option.bind_eq_some_iff.mp h
  split at h
  · next hpartial =>
    obtain rfl := Option.some.inj h
    obtain ⟨hi, hbase, hfirst⟩ := Array.findIdx?_eq_some_iff_getElem.mp hfind
    refine ⟨e, he, ?_, hpartial, fun j e' hj he' => ?_⟩
    · simpa [Array.getElem_eq_iff.mpr he] using hbase
    · have := hfirst j hj
      simpa [Array.getElem_eq_iff.mpr he'] using this
  · simp at h

/-- What an entry is named after and what it is a part of is settled when it is added. -/
theorem orderly_add (h : Orderly t.outline) (d : Declaration) : Orderly (t.add d).outline := by
  rw [outline_add]
  refine h.append ⟨_, rfl⟩ (fun p owner hp hparent => ?_) fun p hp => ?_
  · obtain ⟨owner, howner, rfl⟩ := exists_of_getElem?_outline hp
    have hparent : d.parent = some p := hparent
    show t.baseIdOf d = _
    simp [baseIdOf, hparent, howner, Entry.scope, entryOf]
  · have hp : (if d.isPartial then t.partialNamed? (t.baseIdOf d) else none) = some p := hp
    split at hp
    · obtain ⟨lead, hlead, hbase, hpartial, hfirst⟩ := partialNamed?_eq_some hp
      refine ⟨_, getElem?_outline hlead, hbase, hpartial, ?_⟩
      -- were it a later part itself, an earlier entry would have its `baseId`
      cases hpart : lead.firstPart with
      | none => rfl
      | some q =>
        obtain ⟨hlt, lead', hlead', hbase', -⟩ := h.parts p q _ (getElem?_outline hlead) hpart
        obtain ⟨other, hother, rfl⟩ := exists_of_getElem?_outline hlead'
        exact absurd (hbase'.trans hbase) (hfirst q other hlt hother)
    · simp at hp

/-- The entries of a table are orderly. -/
theorem orderly_ofFiles (files : List (List Declaration)) (extraBuiltins : List String) :
    Orderly (ofFiles files extraBuiltins).outline :=
  ofFiles_induction (P := fun t => Orderly t.outline) files extraBuiltins orderly_nil
    fun _ _ _ _ _ _ h => orderly_add h _

theorem leadPart_eq_self {i : Nat} {e : Entry} (he : t.entries[i]? = some e)
    (h : e.firstPart = none) : t.leadPart i = i := by
  simp [leadPart, he, h]

/-- Every entry has a first part, which is no later part of anything. It is the entry itself or
partial. -/
theorem exists_leadPart {i : Nat} {e : Entry} (h : Orderly t.outline)
    (he : t.entries[i]? = some e) : ∃ lead, t.entries[t.leadPart i]? = some lead ∧
      lead.firstPart = none ∧ (lead = e ∨ lead.isPartial = true) := by
  cases hpart : e.firstPart with
  | none => exact ⟨e, by rw [leadPart_eq_self he hpart, he], hpart, .inl rfl⟩
  | some p =>
    obtain ⟨-, lead, hlead, -, hpartial, hnone⟩ := h.parts i p _ (getElem?_outline he) hpart
    obtain ⟨first, hfirst, rfl⟩ := exists_of_getElem?_outline hlead
    refine ⟨first, ?_, hnone, .inr hpartial⟩
    simpa [leadPart, he, hpart] using hfirst

end Table

end CodeAtlas
