import CodeAtlas.Graph.Build
import CodeAtlas.Proofs.Declaration.Ids
import CodeAtlas.Proofs.Declaration.Resolution
import CodeAtlas.Proofs.Declaration.Sites
import CodeAtlas.Proofs.Symbol.TypeName
import CodeAtlas.Proofs.Text.Slice

/-!
# References by full names

A type whose id is a dotted name can be referred to by that id. Of several types with its simple
name the reference denotes the first one, in the order of the files, whose id is the written name or
ends in it. So a type in an outer namespace of the same inner names stands in the way of the type
that is meant, if and only if it comes first.

## Main statements

* `Table.head?_positions`: the first position with a property.
* `Table.denotedType_id_iff`: when the id of a type denotes that type.
-/
namespace CodeAtlas

/-! ## First positions -/

namespace Table

variable {t : Table} {i j : Nat} {e : Entry} {p q : Entry → Bool}

theorem pairwise_positions (t : Table) (p : Entry → Bool) : (t.positions p).Pairwise (· < ·) := by
  have hall : t.indexed.Pairwise fun a b => a.1 < b.1 := by
    rw [indexed, List.pairwise_map, List.pairwise_iff_getElem]
    intro a b ha hb hab
    simpa using hab
  rw [positions, List.pairwise_map]
  exact hall.filter _

@[simp]
theorem select_positions : t.select (t.positions p) q = t.positions fun e => p e && q e := by
  have hmem (a : Nat × Entry) (ha : a ∈ t.indexed) : t.entries[a.1]? = some a.2 := mem_indexed.mp ha
  rw [select, positions, positions, List.filter_map, List.filter_filter]
  congr 1
  refine List.filter_congr fun a ha => ?_
  simp [hmem a ha, Bool.and_comm]

/-- The first position with a property has it, and no earlier one does. -/
theorem head?_positions : (t.positions p).head? = some i ↔
    t.Holds i (p · = true) ∧ ∀ j < i, ¬ t.Holds j (p · = true) := by
  have hsorted := pairwise_positions t p
  simp only [← mem_positions]
  generalize t.positions p = is at hsorted
  cases is with
  | nil => simp
  | cons k ks =>
    rw [List.pairwise_cons] at hsorted
    simp only [List.head?_cons, Option.some.injEq]
    constructor
    · rintro rfl
      refine ⟨List.mem_cons_self, fun j hj hmem => ?_⟩
      rcases List.mem_cons.mp hmem with rfl | hmem
      · omega
      · have := hsorted.1 j hmem
        omega
    · rintro ⟨hi, hfirst⟩
      rcases List.mem_cons.mp hi with rfl | hi
      · rfl
      · exact absurd List.mem_cons_self (hfirst k (hsorted.1 i hi))

theorem unique?_eq_some {is : List Nat} (h : unique? is = some i) : is = [i] := by
  unfold unique? at h
  split at h
  · simp_all
  · simp at h

/-! ## The ids of types -/

/-- An entry is named by its segment, alone or behind the name of its owner. -/
theorem baseId_cases (files : List (List Declaration)) (extraBuiltins : List String) :
    ∀ e ∈ (ofFiles files extraBuiltins).outline,
      e.baseId = e.segment ∨ ∃ scope, e.baseId = scope ++ "." ++ e.segment := by
  refine ofFiles_induction (P := fun t => ∀ e ∈ t.outline,
    e.baseId = e.segment ∨ ∃ scope, e.baseId = scope ++ "." ++ e.segment) files extraBuiltins
    (by simp [outline, empty]) fun t _ _ d _ parent ht e he => ?_
  rw [outline_add, List.mem_append, List.mem_singleton] at he
  rcases he with he | rfl
  · exact ht e he
  · show t.baseIdOf { d with parent } = d.segment ∨
      ∃ scope, t.baseIdOf { d with parent } = scope ++ "." ++ d.segment
    unfold baseIdOf
    split
    · exact .inr ⟨_, rfl⟩
    · exact .inl rfl

theorem sharp_mem_ordinalId {base : String} {k : Nat} (h : k ≠ 0) :
    '#' ∈ (ordinalId base k).toList := by
  simp [ordinalId, h]

/-- An id without a `#` is the name of an entry that no earlier one has, be it as its name or as its
id. -/
structure Unnumbered (ps : List (String × String)) : Prop where
  numbered : ∀ p ∈ ps, ∃ k, p.2 = ordinalId p.1 k
  first : ps.Pairwise fun p q => '#' ∉ q.2.toList → p.2 ≠ q.2

theorem Unnumbered.append {ps : List (String × String)} {base : String} (h : Unnumbered ps) :
    Unnumbered (ps ++ [(base, ordinalId base ((ps.map (·.1)).count base))]) := by
  refine ⟨?_, ?_⟩
  · intro p hp
    rcases List.mem_append.mp hp with hp | hp
    · exact h.numbered p hp
    · obtain rfl := List.mem_singleton.mp hp
      exact ⟨_, rfl⟩
  · refine List.pairwise_append.mpr ⟨h.first, List.pairwise_singleton _ _, fun p hp q hq => ?_⟩
    obtain rfl := List.mem_singleton.mp hq
    intro hsharp heq
    -- without a number, the entry is the first one with its name, and the other is unnumbered too
    have hcount : (ps.map (·.1)).count base = 0 := by
      by_contra hne
      exact hsharp (sharp_mem_ordinalId hne)
    obtain ⟨k, hk⟩ := h.numbered p hp
    have hzero : k = 0 := by
      by_contra hne
      rw [← heq, hk] at hsharp
      exact hsharp (sharp_mem_ordinalId hne)
    have hbase : p.1 = base := by
      rw [hk, hcount, hzero] at heq
      exact heq
    exact List.count_eq_zero.mp hcount (List.mem_map.mpr ⟨p, hp, hbase⟩)

theorem unnumbered_ofFiles (files : List (List Declaration)) (extraBuiltins : List String) :
    Unnumbered (ofFiles files extraBuiltins).idPairs := by
  refine ofFiles_induction (P := fun t => Unnumbered t.idPairs) files extraBuiltins
    ⟨by simp [idPairs, empty], by simp [idPairs, empty]⟩ fun t _ _ d _ parent ht => ?_
  rw [idPairs_add]
  exact ht.append

variable {files : List SourceFile} {options : IndexSettings} {i j : Nat} {e c : Entry}

/-- The segment of a type is its name, alone or behind its namespace. -/
theorem segment_of_entry (he : (tableOf files options).entries[i]? = some e)
    (htype : e.kind.isType = true) :
    e.segment = e.name ∨ e.segment = qualify e.namespace e.name := by
  have hmap := map_entries_ofFiles (files.map (·.declarations)) options.extraBuiltins
    (fun d => (d.segment, d.name, d.namespace, d.kind)) (fun _ _ => rfl) fun _ _ => rfl
  have hmem : e ∈ (tableOf files options).entries.toList :=
    Array.mem_toList_iff.mpr (Array.mem_of_getElem? he)
  have hfound : (e.segment, e.name, e.namespace, e.kind) ∈ (files.map (·.declarations)).flatten.map
      fun d => (d.segment, d.name, d.namespace, d.kind) := by
    rw [← hmap]
    exact List.mem_map.mpr ⟨e, hmem, rfl⟩
  obtain ⟨d, hd, heq⟩ := List.mem_map.mp hfound
  simp only [Prod.mk.injEq] at heq
  obtain ⟨hsegment, hname, hspace, hkind⟩ := heq
  obtain ⟨list, hlist, hd⟩ := List.mem_flatten.mp hd
  obtain ⟨f, -, rfl⟩ := List.mem_map.mp hlist
  rw [← hkind] at htype
  rw [← hsegment, ← hname, ← hspace]
  rw [SourceFile.declarations, ← Tree.map_declaration_sites] at hd
  obtain ⟨s, hs, rfl⟩ := List.mem_map.mp hd
  have hmade := (Tree.forall_mem_sites _ _ _ s hs).2.segment_eq htype
  split at hmade
  · exact .inl hmade
  · exact .inr hmade

/-- An id without a number is the name of the type, alone or behind a dot. -/
theorem id_cases (he : (tableOf files options).entries[i]? = some e)
    (htype : e.kind.isType = true) (hname : e.name ≠ "") (hsharp : '#' ∉ e.id.toList) :
    e.id = e.name ∨ ∃ outer, e.id = outer ++ "." ++ e.name := by
  have hout := List.mem_of_getElem? (getElem?_outline he)
  have hid : e.id = e.baseId := by
    obtain ⟨k, hk⟩ := (orderly_ofFiles _ _).numbered _ hout
    by_cases hzero : k = 0
    · rw [hzero] at hk
      exact hk
    · exact absurd (hk ▸ sharp_mem_ordinalId hzero) hsharp
  have hsegment : e.segment = e.name ∨ ∃ outer, e.segment = outer ++ "." ++ e.name := by
    rcases segment_of_entry he htype with h | h
    · exact .inl h
    · unfold qualify at h
      have hempty : e.name.isEmpty = false := by simpa using hname
      grind
  rcases baseId_cases _ _ _ hout with hbase | ⟨scope, hbase⟩
  · rwa [hid, show e.baseId = e.segment from hbase]
  · have hbase : e.baseId = scope ++ "." ++ e.segment := hbase
    rcases hsegment with h | ⟨outer, h⟩
    · exact .inr ⟨scope, by rw [hid, hbase, h]⟩
    · exact .inr ⟨scope ++ "." ++ outer, by simp [hid, hbase, h, String.append_assoc]⟩

/-- An id without a number is the id of one entry only. -/
theorem id_ne_of_lt (he : (tableOf files options).entries[i]? = some e)
    (hc : (tableOf files options).entries[j]? = some c) (hlt : j < i)
    (hsharp : '#' ∉ e.id.toList) : c.id ≠ e.id := by
  have hfirst := (unnumbered_ofFiles (files.map (·.declarations)) options.extraBuiltins).first
  rw [idPairs, List.pairwise_map, List.pairwise_iff_getElem] at hfirst
  obtain ⟨hi, rfl⟩ := Array.getElem?_eq_some_iff.mp he
  obtain ⟨hj, rfl⟩ := Array.getElem?_eq_some_iff.mp hc
  exact hfirst j i hj hi hlt hsharp

/-! ## What a full name denotes -/

/-- The entry `e` is a type of the simple name `name`, no later part, and answers to `dotted`. -/
def isCalled (name dotted : String) (e : Entry) : Bool :=
  e.kind.isType && e.firstPart.isNone && e.name == name && answersTo e dotted

@[simp] theorem isCalled_iff {name dotted : String} : isCalled name dotted e = true ↔
    e.kind.isType = true ∧ e.firstPart = none ∧ e.name = name ∧
      (e.id = dotted ∨ ∃ outer, e.id = outer ++ "." ++ dotted) := by
  have hends : e.id.endsWith ("." ++ dotted) = true ↔
      ∃ outer, e.id = outer ++ "." ++ dotted := by
    rw [Text.endsWith_iff]
    simp only [String.append_assoc]
  simp [isCalled, answersTo, hends, and_assoc]

/-- If some type of its simple name answers to a dotted reference, the reference denotes the first
one that does. -/
theorem denotedType_eq_head? {t : Table} {name dotted : String} (ns : String)
    (hplain : TypeName.Plain dotted) (hdot : '.' ∈ dotted.toList)
    (hsimple : TypeName.simple dotted = name) (hname : name ≠ "")
    (hbuiltin : t.isPredefined name = false) (hi : t.Holds i (isCalled name dotted · = true)) :
    t.denotedType dotted ns = (t.positions (isCalled name dotted)).head? := by
  have hmatch : t.qualifiedMatch? (t.typesNamed name) dotted =
      (t.positions (isCalled name dotted)).head? := by
    have hcontains : dotted.contains '.' = true := by simpa [String.contains_char_eq] using hdot
    unfold qualifiedMatch?
    dsimp only
    rw [TypeName.qualified_of_plain hplain, if_pos hcontains, typesNamed, select_positions]
    rfl
  have hsome : ((t.positions (isCalled name dotted)).head?).isSome = true := by
    rw [List.isSome_head?]
    simpa using List.ne_nil_of_mem (mem_positions.mpr hi)
  obtain ⟨k, hk⟩ := Option.isSome_iff_exists.mp hsome
  have hguard : (name.isEmpty || t.isPredefined name) = false := by simp [hname, hbuiltin]
  unfold denotedType
  dsimp only
  rw [hsimple, hguard, hmatch, hk]
  cases hunique : unique? (t.typesNamed name) with
  | none => rfl
  | some m =>
    -- the only type of the name is the one that answers
    have hmem : k ∈ t.typesNamed name := by
      refine mem_positions.mpr ((head?_positions.mp hk).1.imp fun e he => ?_)
      simp only [isCalled, Bool.and_eq_true] at he
      simpa using he.1
    rw [unique?_eq_some hunique, List.mem_singleton] at hmem
    simp [hmem]

/-- The id of the type `e`, if it is a dotted name without a number, denotes a type of the same
simple name whose id is that name or ends in it. It denotes `e` itself exactly if no earlier type of
its simple name has a longer id that ends in it. -/
theorem denotedType_id_iff (files : List SourceFile) (options : IndexSettings) (ns : String)
    (he : (tableOf files options).entries[i]? = some e) (htype : e.kind.isType = true)
    (hlead : e.firstPart = none)
    (hbuiltin : (tableOf files options).isPredefined e.name = false) (hname : e.name ≠ "")
    (hsegment : '.' ∉ e.name.toList) (hplain : TypeName.Plain e.id) (hdot : '.' ∈ e.id.toList)
    (hsharp : '#' ∉ e.id.toList) :
    (∃ j ≤ i, (tableOf files options).denotedType e.id ns = some j ∧
      (tableOf files options).Holds j fun c => c.kind.isType = true ∧ c.name = e.name ∧
        (c.id = e.id ∨ ∃ outer, c.id = outer ++ "." ++ e.id)) ∧
    ((tableOf files options).denotedType e.id ns = some i ↔
      ∀ j < i, ¬ (tableOf files options).Holds j fun c => c.kind.isType = true ∧
        c.firstPart = none ∧ c.name = e.name ∧ ∃ outer, c.id = outer ++ "." ++ e.id) := by
  have hsimple : TypeName.simple e.id = e.name := by
    rcases id_cases he htype hname hsharp with hid | ⟨outer, hid⟩
    · exact absurd (hid ▸ hdot) hsegment
    · rw [hid] at hplain ⊢
      exact TypeName.simple_append hplain hsegment
  have hself : (tableOf files options).Holds i (isCalled e.name e.id · = true) :=
    ⟨e, he, isCalled_iff.mpr ⟨htype, hlead, rfl, .inl rfl⟩⟩
  rw [denotedType_eq_head? ns hplain hdot hsimple hname hbuiltin hself]
  refine ⟨?_, ?_⟩
  · cases hhead : ((tableOf files options).positions (isCalled e.name e.id)).head? with
    | none =>
      rw [List.head?_eq_none_iff] at hhead
      exact absurd (mem_positions.mpr hself) (by simp [hhead])
    | some j =>
      obtain ⟨hj, hfirst⟩ := head?_positions.mp hhead
      refine ⟨j, Nat.le_of_not_lt fun hlt => hfirst i hlt hself, rfl, hj.imp fun c hc => ?_⟩
      obtain ⟨hc, -, hcalled⟩ := isCalled_iff.mp hc
      exact ⟨hc, hcalled⟩
  · rw [head?_positions]
    constructor
    · rintro ⟨-, hfirst⟩ j hj hholds
      refine hfirst j hj (hholds.imp fun c hc => ?_)
      obtain ⟨hc, hpart, hsame, hlonger⟩ := hc
      exact isCalled_iff.mpr ⟨hc, hpart, hsame, .inr hlonger⟩
    · intro hfirst
      refine ⟨hself, fun j hj hholds => ?_⟩
      obtain ⟨c, hc, hcalled⟩ := hholds
      obtain ⟨hkind, hpart, hsame, hid | hlonger⟩ := isCalled_iff.mp hcalled
      · exact id_ne_of_lt he hc hj hsharp hid
      · exact hfirst j hj ⟨c, hc, hkind, hpart, hsame, hlonger⟩

/-- A class in a namespace. -/
def innerSpaceFile : SourceFile where
  path := "b.cs"
  text := "namespace B \x7b class C \x7b \x7d \x7d"
  tree := .node { kind := "compilation_unit", length := 27 } [.ofBlock 0 27 [.ofClass 14 11 []]]

/-- A class of the same name in a namespace of the same name inside another one. -/
def outerSpaceFile : SourceFile where
  path := "a.cs"
  text := "namespace A \x7b namespace B \x7b class C \x7b \x7d \x7d \x7d"
  tree := .node { kind := "compilation_unit", length := 43 }
    [.ofBlock 0 43 [.ofBlock 14 27 [.ofClass 28 11 []]]]

theorem denotedType_id_iff_innerFirst :
    (tableOf [innerSpaceFile, outerSpaceFile] {}).entries.toList.map (·.id) =
      ["B.C", "A.B.C"] ∧
    (tableOf [innerSpaceFile, outerSpaceFile] {}).denotedType "B.C" "A" = some 0 := by
  have hentry : ((tableOf [innerSpaceFile, outerSpaceFile] {}).entries[0]?).map
      (fun e => (e.kind.isType, e.firstPart, e.name, e.id)) =
      some (true, none, "C", "B.C") := by decide +kernel
  obtain ⟨e, he, hparts⟩ := Option.map_eq_some_iff.mp hentry
  simp only [Prod.mk.injEq] at hparts
  obtain ⟨htype, hlead, hname, hid⟩ := hparts
  refine ⟨by decide +kernel, ?_⟩
  have hiff := (denotedType_id_iff [innerSpaceFile, outerSpaceFile] {} "A" he htype hlead
    (by rw [hname]; decide +kernel) (by rw [hname]; decide) (by rw [hname]; decide)
    (by rw [hid]; decide) (by rw [hid]; decide) (by rw [hid]; decide)).2
  rw [hid] at hiff
  exact hiff.mpr fun j hj => absurd hj (Nat.not_lt_zero j)

/-- A full name denotes another type if one with a longer id that ends in it comes first. -/
theorem denotedType_id_outerFirst :
    (tableOf [outerSpaceFile, innerSpaceFile] {}).entries.toList.map
      (fun e => (e.id, e.kind.isType, e.firstPart)) =
      [("A.B.C", true, none), ("B.C", true, none)] ∧
    (tableOf [outerSpaceFile, innerSpaceFile] {}).isPredefined "C" = false ∧
    (tableOf [outerSpaceFile, innerSpaceFile] {}).denotedType "B.C" "" = some 0 := by
  refine ⟨by decide +kernel, by decide +kernel, ?_⟩
  have hsecond : (tableOf [outerSpaceFile, innerSpaceFile] {}).Holds 1
      (isCalled "C" "B.C" · = true) := mem_positions.mp (by decide +kernel)
  rw [denotedType_eq_head? "" (by decide) (by decide) (by decide) (by decide) (by decide +kernel)
    hsecond]
  decide +kernel

end Table

end CodeAtlas
