import CodeAtlas.Proofs.Difference.Lines
import CodeAtlas.Proofs.Syntax.Legible

/-!
# Comparing members where nothing changed

Two texts that differ in layout and comments only have members of the same identities and contents,
one after the other. A member is still compared with the *first* old member of its identity, and an
identity need not be unique: it tells neither the number of type parameters nor the interface that a
member implements, nor the namespace of its type. So a comparison marks no line exactly if members
that share an identity have contents of the same key.

## Main definitions

* `IdentityDetermines`: members of one identity have contents of the same key.

## Main statements

* `forall_isUnchanged_iff`: when all members are unchanged.
* `unmarked_iff_identityDetermines`: when a comparison marks no line although nothing changed.
* `exists_marked_of_skeleton_eq`: lines are marked although nothing changed.
-/
namespace CodeAtlas

variable {κ : Type} [DecidableEq κ] {key : Content → κ} {grammar : Grammar} {old new : String}
  {olds news : List Member}

/-- Those of the members `ms` that have one identity have contents of the same `key`. -/
def IdentityDetermines (key : Content → κ) (source : String) (ms : List Member) : Prop :=
  ∀ a ∈ ms, ∀ b ∈ ms, a.sameIdentity b = true →
    key (a.tree.content source) = key (b.tree.content source)

instance (key : Content → κ) (source : String) (ms : List Member) :
    Decidable (IdentityDetermines key source ms) :=
  inferInstanceAs (Decidable (∀ a ∈ ms, ∀ b ∈ ms, _ → _))

/-! ## Unchanged members -/

namespace Member

theorem sameIdentity_of_summary_eq {o m : Member} (h : o.summary old = m.summary new) :
    o.sameIdentity m = true :=
  sameIdentity_iff.mpr ⟨congrArg Prod.fst h, congrArg (·.2.1) h⟩

theorem content_eq_of_summary_eq {o m : Member} (h : o.summary old = m.summary new) :
    o.tree.content old = m.tree.content new :=
  congrArg (·.2.2) h

/-- Of members that share an identity all have the same counterpart, the first of them. -/
theorem exists_counterpart?_of_mem {o : Member} (ho : o ∈ olds) :
    ∃ first ∈ olds, first.sameIdentity o = true ∧
      ∀ m, o.sameIdentity m = true → m.counterpart? olds = some first := by
  cases hfind : olds.find? (·.sameIdentity o) with
  | none =>
    have hself : o.sameIdentity o = true := sameIdentity_iff.mpr ⟨rfl, rfl⟩
    exact absurd hself (List.find?_eq_none.mp hfind o ho)
  | some first =>
    have hsame := List.find?_some hfind
    refine ⟨first, List.mem_of_find?_eq_some hfind, hsame, fun m hm => ?_⟩
    have hid (a : Member) : a.sameIdentity m = a.sameIdentity o := by
      obtain ⟨hcontainers, hsignature⟩ := sameIdentity_iff.mp hm
      simp [sameIdentity, hcontainers, hsignature]
    simp only [counterpart?, hid, hfind]

end Member

/-- Where the members `olds` and `news` have the same summaries, all of `news` are unchanged exactly
if an identity determines the `key` of the content. -/
theorem forall_isUnchanged_iff
    (h : olds.map (Member.summary old) = news.map (Member.summary new)) :
    (∀ m ∈ news, m.isUnchanged key old new olds = true) ↔ IdentityDetermines key old olds := by
  constructor
  · intro hall
    -- every old member has a copy in the new text, which is compared with the first of its identity
    have hfirst {o : Member} (ho : o ∈ olds) {first : Member}
        (hcounter : ∀ m : Member, o.sameIdentity m = true → m.counterpart? olds = some first) :
        key (first.tree.content old) = key (o.tree.content old) := by
      obtain ⟨m, hm, hmo⟩ := List.mem_map.mp (h ▸ List.mem_map_of_mem ho)
      obtain ⟨c, hc, hkey⟩ := Member.isUnchanged_iff.mp (hall m hm)
      rw [hcounter m (Member.sameIdentity_of_summary_eq hmo.symm)] at hc
      rw [Option.some.inj hc, hkey, Member.content_eq_of_summary_eq hmo.symm]
    intro a ha b hb hab
    obtain ⟨first, -, -, hcounter⟩ := Member.exists_counterpart?_of_mem ha
    have hcounter' (m : Member) (hm : b.sameIdentity m = true) :
        m.counterpart? olds = some first := by
      obtain ⟨hcontainers, hsignature⟩ := Member.sameIdentity_iff.mp hab
      obtain ⟨hcontainers', hsignature'⟩ := Member.sameIdentity_iff.mp hm
      exact hcounter m (Member.sameIdentity_iff.mpr
        ⟨hcontainers.trans hcontainers', hsignature.trans hsignature'⟩)
    rw [← hfirst ha hcounter, hfirst hb hcounter']
  · intro hdet m hm
    obtain ⟨o, ho, hom⟩ := List.mem_map.mp (h ▸ List.mem_map_of_mem hm)
    obtain ⟨first, hmem, hsame, hcounter⟩ := Member.exists_counterpart?_of_mem ho
    refine Member.isUnchanged_iff.mpr
      ⟨first, hcounter m (Member.sameIdentity_of_summary_eq hom), ?_⟩
    rw [hdet first hmem o ho hsame, Member.content_eq_of_summary_eq hom]

/-! ## Unmarked lines -/

theorem unmarked_of_forall_isUnchanged
    (h : ∀ m ∈ (grammar new).members new,
      m.isUnchanged key old new ((grammar old).members old) = true) :
    ∀ l ∈ compareMembersBy key grammar old new, l.changed = false := by
  intro l hl
  obtain ⟨row, hrow⟩ := List.mem_iff_getElem?.mp hl
  rw [← Bool.not_eq_true, changed_iff_of_getElem? hrow]
  rintro ⟨m, hm, hchanged, -⟩
  simp [h m hm] at hchanged

/-- A changed member is not overlooked: it starts on a line of the text. -/
theorem forall_isUnchanged_of_unmarked (hwf : (grammar new).WellFormed new)
    (hlength : ∀ m ∈ (grammar new).members new, 0 < m.tree.length)
    (h : ∀ l ∈ compareMembersBy key grammar old new, l.changed = false) :
    ∀ m ∈ (grammar new).members new,
      m.isUnchanged key old new ((grammar old).members old) = true := by
  intro m hm
  by_contra hchanged
  have hplaced := (Tree.placed_of_mem_members hwf hm).wellFormed
  have hstart : m.start < new.utf8ByteSize := by
    have hstop : m.tree.start + m.tree.length ≤ new.utf8ByteSize := hplaced.isBoundary_stop.le
    have := hlength m hm
    exact show m.tree.start < _ by omega
  obtain ⟨l, hl⟩ := exists_getElem?_of_lt key grammar old
    (Text.rowAt_lt_length_lines hplaced.isBoundary_start hstart)
  have htouches : m.touches new (Text.rowAt new m.start) = true :=
    Member.touches_iff.mpr ⟨Nat.le_refl _, Text.rowAt_le_rowAt new m.start_le_stop⟩
  have hmarked := (changed_iff_of_getElem? hl).mpr
    ⟨m, hm, Bool.eq_false_iff.mpr hchanged, htouches⟩
  simp [h l (List.mem_of_getElem? hl)] at hmarked

/-- Let the text `new` be `old`, or let both be legible and differ in layout and comments only. If
members of one identity have contents of the same `key`, no line is marked; in particular if no two
members share an identity. Only then is no line marked, where the tree of `new` is well formed and
its members are not empty. -/
theorem unmarked_iff_identityDetermines (key : Content → κ) (grammar : Grammar)
    (old new : String) (h : old = new ∨ Tree.AlikeFiles old new (grammar old) (grammar new)) :
    (IdentityDetermines key old ((grammar old).members old) →
      ∀ l ∈ compareMembersBy key grammar old new, l.changed = false) ∧
    ((grammar new).WellFormed new → (∀ m ∈ (grammar new).members new, 0 < m.tree.length) →
      (∀ l ∈ compareMembersBy key grammar old new, l.changed = false) →
      IdentityDetermines key old ((grammar old).members old)) := by
  have hsummaries : ((grammar old).members old).map (Member.summary old) =
      ((grammar new).members new).map (Member.summary new) := by
    rcases h with rfl | halike
    · rfl
    · exact halike.map_summary_members
  constructor
  · intro hdet
    exact unmarked_of_forall_isUnchanged ((forall_isUnchanged_iff hsummaries).mpr hdet)
  · intro hwf hlength hunmarked
    exact (forall_isUnchanged_iff hsummaries).mp
      (forall_isUnchanged_of_unmarked hwf hlength hunmarked)

/-- That class with a comment in front of the method and a line break inside it. -/
def overloadLaidOut : String := "class C \x7b /* n */ void A(int\n n); \x7d"

def overloadLaidOutTree : Tree :=
  .ofFile 35
    [.node { kind := "comment", start := 10, length := 7 } [],
      .node { kind := "method_declaration", start := 18, length := 15 }
        [.ofLeaf "predefined_type" "returns" 18 4, .ofLeaf "identifier" "name" 23 1,
          .node { kind := "parameter_list", label := some "parameters", start := 24, length := 8 }
            [.ofToken "(" 24,
              .node { kind := "parameter", start := 25, length := 6 }
                [.ofLeaf "predefined_type" "type" 25 3, .ofLeaf "identifier" "name" 30 1],
              .ofToken ")" 31],
          .ofToken ";" 32]]

/-- Neither the comment nor the line break marks a line. -/
theorem unmarked_iff_identityDetermines_overloadLaidOut :
    let grammar : Grammar := fun text =>
      if text = singleOverload then .ofFile 26 [.ofOverload 10 3] else overloadLaidOutTree
    Tree.AlikeFiles singleOverload overloadLaidOut (grammar singleOverload)
      (grammar overloadLaidOut) ∧
    IdentityDetermines id singleOverload ((grammar singleOverload).members singleOverload) ∧
    (grammar overloadLaidOut).WellFormed overloadLaidOut ∧
    (∀ m ∈ (grammar overloadLaidOut).members overloadLaidOut, 0 < m.tree.length) ∧
    ∀ l ∈ compareMembers grammar singleOverload overloadLaidOut, l.changed = false := by
  intro grammar
  have halike : Tree.AlikeFiles singleOverload overloadLaidOut (grammar singleOverload)
      (grammar overloadLaidOut) :=
    ⟨by decide +kernel, by decide +kernel, by decide +kernel, by decide +kernel, by decide +kernel⟩
  have hdet : IdentityDetermines id singleOverload
      ((grammar singleOverload).members singleOverload) := by decide +kernel
  exact ⟨halike, hdet, by decide +kernel, by decide +kernel,
    (unmarked_iff_identityDetermines id grammar singleOverload _ (.inr halike)).1 hdet⟩

/-! ## Marked lines without a change -/

/-- An interface with two methods `M`, one of them with a type parameter. -/
def genericOverloads : String := "interface I \x7b void M(); void M<T>(); \x7d"

def genericOverloadsTree : Tree :=
  .node { kind := "compilation_unit", length := 38 }
    [.node { kind := "interface_declaration", length := 38 }
      [.ofToken "interface" 0, .ofLeaf "identifier" "name" 10 1,
        .node { kind := "declaration_list", label := some "body", start := 12, length := 26 }
          [.ofToken "\x7b" 12,
            .node { kind := "method_declaration", start := 14, length := 9 }
              [.ofLeaf "predefined_type" "returns" 14 4, .ofLeaf "identifier" "name" 19 1,
                .node { kind := "parameter_list", label := some "parameters", start := 20,
                        length := 2 }
                  [.ofToken "(" 20, .ofToken ")" 21],
                .ofToken ";" 22],
            .node { kind := "method_declaration", start := 24, length := 12 }
              [.ofLeaf "predefined_type" "returns" 24 4, .ofLeaf "identifier" "name" 29 1,
                .node { kind := "type_parameter_list", label := some "type_parameters",
                        start := 30, length := 3 }
                  [.ofToken "<" 30,
                    .node { kind := "type_parameter", start := 31, length := 1 }
                      [.ofLeaf "identifier" "name" 31 1],
                    .ofToken ">" 32],
                .node { kind := "parameter_list", label := some "parameters", start := 33,
                        length := 2 }
                  [.ofToken "(" 33, .ofToken ")" 34],
                .ofToken ";" 35],
            .ofToken "\x7d" 37]]]

/-- A class with a method `A(List<int>)`, where a comment may stand in front of `int`. -/
def listParameter (comment : String) : String :=
  "class C \x7b void A(List<" ++ comment ++ "int> n); \x7d"

/-- The tree of that class; the comments in front of `int` take `width` bytes. -/
def listParameterTree (width : Nat) (comments : List Tree) : Tree :=
  .ofFile (32 + width)
    [.node { kind := "method_declaration", start := 10, length := 20 + width }
      [.ofLeaf "predefined_type" "returns" 10 4, .ofLeaf "identifier" "name" 15 1,
        .node { kind := "parameter_list", label := some "parameters", start := 16,
                length := 13 + width }
          [.ofToken "(" 16,
            .node { kind := "parameter", start := 17, length := 11 + width }
              [.node { kind := "generic_name", label := some "type", start := 17,
                       length := 9 + width }
                [.node { kind := "identifier", start := 17, length := 4 } [],
                  .node { kind := "type_argument_list", start := 21, length := 5 + width }
                    (.ofToken "<" 21 :: (comments ++
                      [.node { kind := "predefined_type", start := 22 + width, length := 3 } [],
                        .ofToken ">" (25 + width)]))],
                .ofLeaf "identifier" "name" (27 + width) 1],
            .ofToken ")" (28 + width)],
        .ofToken ";" (29 + width)]]

/-- The line of an interface with two methods of one identity is marked when the interface is
compared with itself. The line of a method is marked when a comment is written into the type of its
parameter, since the text of the type is part of its signature. -/
theorem exists_marked_of_skeleton_eq :
    let commented := listParameter "/**/"
    let grammar : Grammar := fun text =>
      if text = genericOverloads then genericOverloadsTree
      else if text = commented then
        listParameterTree 4 [.node { kind := "comment", start := 22, length := 4 } []]
      else listParameterTree 0 []
    (∃ l ∈ compareMembers grammar genericOverloads genericOverloads, l.changed = true) ∧
    (grammar (listParameter "")).skeleton (listParameter "") =
      (grammar commented).skeleton commented ∧
    ∃ l ∈ compareMembers grammar (listParameter "") commented, l.changed = true := by
  decide +kernel

end CodeAtlas
