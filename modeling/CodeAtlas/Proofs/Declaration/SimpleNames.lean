import CodeAtlas.Proofs.Declaration.FullNames

/-!
# References by simple names

A reference without a dot names a type by its simple name alone. If several types have that name,
the namespace decides in which the reference stands: the only one of them in this namespace is
meant, and else the only one in a namespace that the text of this one starts with. The namespaces
around it are of that kind, but so is every namespace whose last name is only the beginning of a
longer name, such as `A` for `AB`.

## Main definitions

* `Encloses`, `RunsInto`: the two ways in which the text of a namespace starts with another one.
* `Table.Sole`: the only type of a name with a property.

## Main statements

* `startsWith_iff_encloses`: there are no other ways.
* `Table.denotedType_eq_or`: which choices are left if the name is ambiguous.
* `Table.denotedType_ambiguous_iff`: what an ambiguous name denotes.
-/
namespace CodeAtlas

/-! ## Namespaces that start with another one -/

/-- The namespace `outer` is `inner` itself or a namespace around it. -/
def Encloses (outer inner : String) : Prop :=
  inner = outer ∨ ∃ rest, inner = outer ++ "." ++ rest

/-- The text of the namespace `inner` starts with `outer` and goes on with something else than a
dot. -/
def RunsInto (outer inner : String) : Prop :=
  ∃ c rest, c ≠ '.' ∧ inner = outer ++ String.ofList (c :: rest)

theorem startsWith_iff_encloses {outer inner : String} :
    inner.startsWith outer = true ↔ Encloses outer inner ∨ RunsInto outer inner := by
  rw [String.startsWith_string_iff]
  constructor
  · rintro ⟨rest, hrest⟩
    have hinner : inner = outer ++ String.ofList rest := by simp [← String.toList_inj, hrest]
    cases rest with
    | nil => exact .inl (.inl (by simpa using hinner))
    | cons c rest =>
      by_cases hc : c = '.'
      · refine .inl (.inr ⟨String.ofList rest, ?_⟩)
        simp [← String.toList_inj, ← hrest, hc]
      · exact .inr ⟨c, rest, hc, hinner⟩
  · rintro ((rfl | ⟨rest, rfl⟩) | ⟨c, rest, -, rfl⟩) <;> simp

@[grind →] theorem not_encloses_of_runsInto {outer inner : String} (h : RunsInto outer inner) :
    ¬ Encloses outer inner := by
  obtain ⟨c, rest, hc, rfl⟩ := h
  rintro (heq | ⟨rest', heq⟩)
  · simp [← String.toList_inj] at heq
  · have hchars : c = '.' ∧ rest = rest'.toList := by
      simpa using congrArg String.toList heq
    exact hc hchars.1

namespace TypeName

variable {cs rest : List Char} {c : Char}

/-! ## Names without a dot -/

@[grind →]
theorem mem_of_mem_dropArguments (depth : Nat) (h : c ∈ dropArguments depth cs) : c ∈ cs := by
  fun_induction dropArguments depth cs <;> grind

@[grind →] theorem afterAlias?_suffix (h : afterAlias? cs = some rest) : rest <:+ cs := by
  induction cs generalizing rest with
  | nil => simp [afterAlias?] at h
  | cons c cs ih =>
    unfold afterAlias? at h
    split at h
    · next later hlater =>
      obtain rfl := Option.some.inj h
      exact (ih hlater).trans (List.suffix_cons c cs)
    · split at h
      · obtain rfl := Option.some.inj h
        exact (List.suffix_cons _ _).trans (List.suffix_cons _ _)
      · simp at h

/-- What the dotted name of a reference consists of stands in the reference. -/
@[grind →]
theorem mem_of_mem_qualified {s : String} (h : c ∈ (qualified s).toList) : c ∈ s.toList := by
  rw [qualified, String.toList_ofList, dropAlias] at h
  refine mem_of_mem_dropArguments 0 ?_
  cases hafter : afterAlias? (dropArguments 0 s.toList) with
  | none => simpa [hafter] using h
  | some rest =>
    rw [hafter, Option.getD_some] at h
    exact (afterAlias?_suffix hafter).subset h

end TypeName

namespace Table

variable {t : Table} {text ns name : String} {i j : Nat} {is : List Nat} {q : Entry → Bool}

/-! ## The only type of a name -/

/-- The entry `e` is a type of the simple name `name`, and no later part. -/
def IsNamed (name : String) (e : Entry) : Prop :=
  e.kind.isType = true ∧ e.firstPart = none ∧ e.name = name

/-- The entry `i` is the only type of a simple name that satisfies `p`. -/
def Sole (t : Table) (name : String) (p : Entry → Prop) (i : Nat) : Prop :=
  ∀ j, t.Holds j (fun e => IsNamed name e ∧ p e) ↔ j = i

theorem Sole.holds {p : Entry → Prop} (h : t.Sole name p i) :
    t.Holds i fun e => IsNamed name e ∧ p e :=
  (h i).mpr rfl

@[simp] theorem mem_typesNamed : i ∈ t.typesNamed name ↔ t.Holds i (IsNamed name) := by
  simp [typesNamed, mem_positions, Holds, IsNamed, and_assoc]

theorem unique?_eq_some_iff (hnodup : is.Nodup) :
    unique? is = some i ↔ ∀ j, j ∈ is ↔ j = i := by
  constructor
  · intro h
    simp [unique?_eq_some h]
  · intro h
    have hmem : i ∈ is := (h i).mpr rfl
    have hperm : is.Perm [i] := (List.perm_ext_iff_of_nodup hnodup (by simp)).mpr (by simpa using h)
    rw [List.perm_singleton.mp hperm]
    rfl

/-- The choice among the types of a name takes the only one that satisfies the condition. -/
theorem unique?_select_typesNamed {p : Entry → Prop} (hq : ∀ e, q e = true ↔ p e) :
    unique? (t.select (t.typesNamed name) q) = some i ↔ t.Sole name p i := by
  have hnodup : (t.select (t.typesNamed name) q).Nodup :=
    ((pairwise_positions t _).imp Nat.ne_of_lt).filter _
  rw [unique?_eq_some_iff hnodup]
  refine forall_congr' fun j => iff_congr ?_ Iff.rfl
  rw [mem_select, mem_typesNamed]
  constructor
  · rintro ⟨⟨e, he, hnamed⟩, e', he', hp⟩
    obtain rfl := Option.some.inj (he.symm.trans he')
    exact ⟨e, he, hnamed, (hq e).mp hp⟩
  · rintro ⟨e, he, hnamed, hp⟩
    exact ⟨⟨e, he, hnamed⟩, e, he, (hq e).mpr hp⟩

/-! ## Ambiguous names -/

@[simp]
theorem qualifiedMatch?_eq_none (hdot : '.' ∉ text.toList) : t.qualifiedMatch? is text = none := by
  have hcontains : (TypeName.qualified text).contains '.' = false := by
    rw [String.contains_char_eq]
    simpa using fun h => hdot (TypeName.mem_of_mem_qualified h)
  simp [qualifiedMatch?, hcontains]

/-- For an ambiguous name `text`, the namespace `ns` is the first choice and what `ns` starts with
is the second one. -/
theorem denotedType_eq_or (hdot : '.' ∉ text.toList)
    (hmany : 2 ≤ (t.typesNamed (TypeName.simple text)).length)
    (hname : TypeName.simple text ≠ "") (hbuiltin : t.isPredefined (TypeName.simple text) = false) :
    t.denotedType text ns =
      (unique? (t.select (t.typesNamed (TypeName.simple text)) (·.namespace == ns))).or
        (unique? (t.select (t.typesNamed (TypeName.simple text)) fun e =>
          !e.namespace.isEmpty && ns.startsWith e.namespace)) := by
  have hunique : unique? (t.typesNamed (TypeName.simple text)) = none := by
    cases hfound : unique? (t.typesNamed (TypeName.simple text)) with
    | none => rfl
    | some k => simp [unique?_eq_some hfound] at hmany
  have hguard : ((TypeName.simple text).isEmpty || t.isPredefined (TypeName.simple text)) = false :=
    by simp [hname, hbuiltin]
  unfold denotedType
  dsimp only
  rw [hguard, hunique, qualifiedMatch?_eq_none hdot]
  simp

/-- The type `e` is in a namespace that `ns` starts with. The empty namespace does not count. -/
def Precedes (ns : String) (e : Entry) : Prop :=
  e.namespace ≠ "" ∧ ns.startsWith e.namespace = true

/-- If the only type of `name` in `ns` is at `j` and the only one in what `ns` starts with at `i`,
they are one: the second choice does not depend on whether the first one has been made. -/
theorem eq_of_sole (hin : t.Sole name (·.namespace = ns) j)
    (hbefore : t.Sole name (Precedes ns) i) : j = i := by
  obtain ⟨e, he, hnamed, rfl⟩ := hin.holds
  obtain ⟨c, -, -, hne, hstart⟩ := hbefore.holds
  refine (hbefore j).mp ⟨e, he, hnamed, fun hempty => hne ?_, by simp⟩
  -- nothing but the empty text is the beginning of the empty text
  rw [hempty, String.startsWith_string_iff] at hstart
  simpa using hstart

/-- An ambiguous name denotes the only type of the name in the namespace, or the only one in some
namespace that this one starts with. -/
theorem denotedType_eq_some_iff_sole (hdot : '.' ∉ text.toList)
    (hmany : 2 ≤ (t.typesNamed (TypeName.simple text)).length) :
    t.denotedType text ns = some i ↔
      TypeName.simple text ≠ "" ∧ t.isPredefined (TypeName.simple text) = false ∧
        (t.Sole (TypeName.simple text) (·.namespace = ns) i ∨
          t.Sole (TypeName.simple text) (Precedes ns) i) := by
  by_cases hname : TypeName.simple text = ""
  · simp [denotedType, hname]
  · cases hbuiltin : t.isPredefined (TypeName.simple text) with
    | true => simp [denotedType, hbuiltin]
    | false =>
      rw [denotedType_eq_or hdot hmany hname hbuiltin, Option.or_eq_some_iff,
        unique?_select_typesNamed fun e => beq_iff_eq,
        unique?_select_typesNamed (p := Precedes ns) fun e => by simp [Precedes]]
      constructor
      · rintro (hin | ⟨-, hbefore⟩)
        · exact ⟨hname, rfl, .inl hin⟩
        · exact ⟨hname, rfl, .inr hbefore⟩
      · rintro ⟨-, -, hin | hbefore⟩
        · exact .inl hin
        · cases hfirst : unique?
            (t.select (t.typesNamed (TypeName.simple text)) (·.namespace == ns)) with
          | none => exact .inr ⟨rfl, hbefore⟩
          | some j =>
            have hin := (unique?_select_typesNamed fun e => beq_iff_eq).mp hfirst
            obtain rfl := eq_of_sole hin hbefore
            exact .inl hin

/-- The type that is chosen is alone in its own namespace. -/
theorem Sole.of_precedes {e : Entry} (he : t.entries[i]? = some e)
    (h : t.Sole name (Precedes ns) i) : t.Sole name (·.namespace = e.namespace) i := by
  obtain ⟨c, hc, hnamed, hbefore⟩ := h.holds
  obtain rfl := Option.some.inj (he.symm.trans hc)
  intro j
  constructor
  · rintro ⟨c, hc, hcnamed, hsame⟩
    refine (h j).mp ⟨c, hc, hcnamed, ?_⟩
    rwa [Precedes, hsame]
  · rintro rfl
    exact ⟨e, he, hnamed, rfl⟩

theorem precedes_iff {e : Entry} : Precedes ns e ↔ e.namespace ≠ "" ∧
    (Encloses e.namespace ns ∨ RunsInto e.namespace ns) := by
  rw [Precedes, startsWith_iff_encloses]

/-- What an ambiguous name `text` denotes from the namespace `ns`, if it denotes anything: the only
type of the name in `ns`, or the only one in some namespace that `ns` starts with, be it a namespace
around it or one that runs into it. The type is then the only one of the name in its own namespace,
which is `ns` or one around it unless it runs into it. -/
theorem denotedType_ambiguous_iff (t : Table) (text ns : String) (i : Nat)
    (hdot : '.' ∉ text.toList) (hmany : 2 ≤ (t.typesNamed (TypeName.simple text)).length) :
    (t.denotedType text ns = some i ↔
      TypeName.simple text ≠ "" ∧ t.isPredefined (TypeName.simple text) = false ∧
        (t.Sole (TypeName.simple text) (·.namespace = ns) i ∨
          t.Sole (TypeName.simple text) (fun e => e.namespace ≠ "" ∧
            (Encloses e.namespace ns ∨ RunsInto e.namespace ns)) i)) ∧
    (t.denotedType text ns = some i →
      t.Holds i fun e => t.Sole (TypeName.simple text) (·.namespace = e.namespace) i ∧
        (Encloses e.namespace ns ∨ e.namespace ≠ "" ∧ RunsInto e.namespace ns)) := by
  have hiff : t.denotedType text ns = some i ↔ _ := denotedType_eq_some_iff_sole hdot hmany
  refine ⟨?_, fun hdenoted => ?_⟩
  · simpa only [Sole, precedes_iff] using hiff
  · obtain ⟨-, -, hin | hbefore⟩ := hiff.mp hdenoted
    · obtain ⟨e, he, -, rfl⟩ := hin.holds
      exact ⟨e, he, hin, .inl (.inl rfl)⟩
    · obtain ⟨e, he, -, hprecedes⟩ := hbefore.holds
      obtain ⟨hne, hencloses | hruns⟩ := precedes_iff.mp hprecedes
      · exact ⟨e, he, hbefore.of_precedes he, .inl hencloses⟩
      · exact ⟨e, he, hbefore.of_precedes he, .inr ⟨hne, hruns⟩⟩

/-- A class in the namespace whose name is `letter`. -/
def spaceFile (letter : String) : SourceFile where
  path := letter ++ ".cs"
  text := "namespace " ++ letter ++ " \x7b class C \x7b \x7d \x7d"
  tree := .node { kind := "compilation_unit", length := 27 } [.ofBlock 0 27 [.ofClass 14 11 []]]

theorem denotedType_ambiguous_iff_inner :
    (tableOf [spaceFile "A", spaceFile "B"] {}).typesNamed "C" = [0, 1] ∧
    (tableOf [spaceFile "A", spaceFile "B"] {}).denotedType "C" "A.D" = some 0 ∧
    (tableOf [spaceFile "A", spaceFile "B"] {}).Holds 0 fun e =>
      (tableOf [spaceFile "A", spaceFile "B"] {}).Sole "C" (·.namespace = e.namespace) 0 ∧
      (Encloses e.namespace "A.D" ∨ e.namespace ≠ "" ∧ RunsInto e.namespace "A.D") := by
  have hsimple : TypeName.simple "C" = "C" := by decide +kernel
  have htypes : (tableOf [spaceFile "A", spaceFile "B"] {}).typesNamed "C" = [0, 1] := by
    decide +kernel
  have hmany : 2 ≤ ((tableOf [spaceFile "A", spaceFile "B"] {}).typesNamed
      (TypeName.simple "C")).length := by simp [hsimple, htypes]
  have hdenoted : (tableOf [spaceFile "A", spaceFile "B"] {}).denotedType "C" "A.D" = some 0 := by
    rw [denotedType_eq_or (by decide) hmany (by decide +kernel) (by decide +kernel)]
    decide +kernel
  have hambiguous := denotedType_ambiguous_iff (tableOf [spaceFile "A", spaceFile "B"] {}) "C"
    "A.D" 0 (by decide) hmany
  rw [hsimple] at hambiguous
  exact ⟨htypes, hdenoted, hambiguous.2 hdenoted⟩

/-- An ambiguous name can denote a type in a namespace that has nothing to do with the given one but
its first letters. -/
theorem denotedType_ambiguous_runsInto :
    (tableOf [spaceFile "A", spaceFile "B"] {}).entries.toList.map (fun e => (e.id, e.namespace)) =
      [("A.C", "A"), ("B.C", "B")] ∧
    (tableOf [spaceFile "A", spaceFile "B"] {}).typesNamed (TypeName.simple "C") = [0, 1] ∧
    (tableOf [spaceFile "A", spaceFile "B"] {}).denotedType "C" "AB" = some 0 ∧
    ¬ Encloses "A" "AB" := by
  have htypes : (tableOf [spaceFile "A", spaceFile "B"] {}).typesNamed (TypeName.simple "C") =
      [0, 1] := by decide +kernel
  refine ⟨by decide +kernel, htypes, ?_, not_encloses_of_runsInto ⟨'B', [], by decide, rfl⟩⟩
  rw [denotedType_eq_or (by decide) (by simp [htypes]) (by decide +kernel) (by decide +kernel)]
  decide +kernel

end Table

end CodeAtlas
