import CodeAtlas.Difference.Meaning
import CodeAtlas.Proofs.Syntax.Members
import CodeAtlas.Proofs.Text.Row

/-!
# The lines of changed members

A comparison of members has one record for every line of the new text. A line is marked if a changed
member touches it. A member is compared with one of its own signature only, so it is changed unless
the old text has a member of that signature and of equal content. Since a member ends visibly, all
rows that it touches are lines of the text, also the last one.

## Main definitions

* `Member.HasRow`: the rows from the first to the last byte of a member.

## Main statements

* `Member.counterpart?_eq_some`: what is known of the member that a member is compared with.
* `changed_iff_of_getElem?`: which lines are marked.
* `changed_members_marked`: no line of a changed member is missed, and no line outside of members is
  marked.
-/
namespace CodeAtlas

variable {κ : Type} [DecidableEq κ] {key : Content → κ} {grammar : Grammar} {old new : String}
  {row : Nat} {l : LineReport} {m : Member}

namespace Member

/-! ## Counterparts -/

@[simp] theorem sameIdentity_iff {a b : Member} :
    a.sameIdentity b = true ↔ a.containers = b.containers ∧ a.signature = b.signature := by
  simp [sameIdentity]

/-- A member is compared with one of its own signature. -/
@[grind →]
theorem counterpart?_eq_some {ms : List Member} {o : Member} (h : m.counterpart? ms = some o) :
    o ∈ ms ∧ o.signature = m.signature := by
  unfold counterpart? at h
  split at h
  · next found hfound =>
    obtain rfl : found = o := Option.some.inj h
    have hsame := List.find?_some hfound
    exact ⟨List.mem_of_find?_eq_some hfound, (sameIdentity_iff.mp hsame).2⟩
  · split at h
    · next only honly =>
      obtain rfl : only = o := Option.some.inj h
      have hmem : only ∈ ms.filter (·.signature == m.signature) := by simp [honly]
      simpa using List.mem_filter.mp hmem
    · simp at h

theorem isUnchanged_iff {ms : List Member} :
    m.isUnchanged key old new ms = true ↔
      ∃ o, m.counterpart? ms = some o ∧ key (o.tree.content old) = key (m.tree.content new) := by
  simp [isUnchanged, Option.any_eq_true]

/-! ## Rows -/

/-- The `row` is one of those from the first byte of `m` to its last byte. -/
def HasRow (source : String) (m : Member) (row : Nat) : Prop :=
  Text.rowAt source m.start ≤ row ∧ row ≤ Text.rowAt source (m.stop - 1)

@[simp] theorem touches_iff {source : String} : m.touches source row = true ↔
    Text.rowAt source m.start ≤ row ∧ row ≤ Text.rowAt source m.stop := by
  simp [touches]

/-- The member covers a readable part of the text and ends visibly. -/
theorem exists_slice?_of_mem {t : Tree} {source : String} (hwf : t.WellFormed source)
    (hend : ∀ m ∈ t.members source, Text.EndsVisibly (m.tree.text source))
    (hm : m ∈ t.members source) :
    ∃ s, Text.slice? source m.start m.stop = some s ∧ Text.EndsVisibly s := by
  obtain ⟨s, hs⟩ := (Tree.placed_of_mem_members hwf hm).wellFormed.exists_slice?
  have htext : m.tree.text source = s := Text.slice_eq_of_slice? hs
  exact ⟨s, hs, htext ▸ hend m hm⟩

end Member

/-! ## Marked lines -/

theorem getElem?_compareMembersBy :
    (compareMembersBy key grammar old new)[row]? = (Text.lines new)[row]?.map fun text =>
      { number := row + 1
        text
        changed := ((grammar new).members new).any fun m =>
          !m.isUnchanged key old new ((grammar old).members old) && m.touches new row } := by
  simp [compareMembersBy, List.any_filter, Function.comp_def]

/-- A line is marked if a changed member touches it. -/
theorem changed_iff_of_getElem? (h : (compareMembersBy key grammar old new)[row]? = some l) :
    l.changed = true ↔ ∃ m ∈ (grammar new).members new,
      m.isUnchanged key old new ((grammar old).members old) = false ∧ m.touches new row = true := by
  rw [getElem?_compareMembersBy] at h
  obtain ⟨text, -, rfl⟩ := Option.map_eq_some_iff.mp h
  simp

theorem exists_getElem?_of_lt (key : Content → κ) (grammar : Grammar) (old : String)
    (h : row < (Text.lines new).length) :
    ∃ l, (compareMembersBy key grammar old new)[row]? = some l := by
  simp [getElem?_compareMembersBy, List.getElem?_eq_getElem h]

/-- There is one record for each line of the text `new`, with its number and its text. Where the
tree of `new` is well formed and its members end visibly, all lines of a member are marked that
equals no member of `old` with its signature, and a line is not marked on which there is no member.
Members are compared by a `key` of their contents, such as the content itself or a digest. -/
theorem changed_members_marked (key : Content → κ) (grammar : Grammar) (old new : String)
    (hwf : (grammar new).WellFormed new)
    (hend : ∀ m ∈ (grammar new).members new, Text.EndsVisibly (m.tree.text new)) :
    let records := compareMembersBy key grammar old new
    (records.map fun l => (l.number, l.text)) =
      (Text.lines new).zipIdx.map (fun line => (line.2 + 1, line.1)) ∧
    (∀ m ∈ (grammar new).members new,
      (∀ o ∈ (grammar old).members old, o.signature = m.signature →
        key (o.tree.content old) ≠ key (m.tree.content new)) →
      ∀ row, m.HasRow new row → ∃ l, records[row]? = some l ∧ l.changed = true) ∧
    ∀ row l, records[row]? = some l →
      (∀ m ∈ (grammar new).members new, ¬ m.HasRow new row) → l.changed = false := by
  intro records
  -- the row of the end of a member is that of its last byte
  have hlast {m : Member} (hm : m ∈ (grammar new).members new) :
      Text.rowAt new (m.stop - 1) = Text.rowAt new m.stop ∧
        Text.rowAt new m.stop < (Text.lines new).length := by
    obtain ⟨s, hs, hvisible⟩ := Member.exists_slice?_of_mem hwf hend hm
    exact Text.rowAt_pred_of_endsVisibly hs hvisible
  refine ⟨by simp [records, compareMembersBy, Function.comp_def], fun m hm hne row hrow => ?_,
    fun row l hl hnone => ?_⟩
  · obtain ⟨heq, hlt⟩ := hlast hm
    obtain ⟨hfirst, hrow⟩ := hrow
    have hchanged : m.isUnchanged key old new ((grammar old).members old) = false := by
      rw [← Bool.not_eq_true, Member.isUnchanged_iff]
      rintro ⟨o, ho, hkey⟩
      obtain ⟨hmem, hsignature⟩ := Member.counterpart?_eq_some ho
      exact hne o hmem hsignature hkey
    obtain ⟨l, hl⟩ := exists_getElem?_of_lt key grammar old (Nat.lt_of_le_of_lt hrow (heq ▸ hlt))
    have htouches : m.touches new row = true := Member.touches_iff.mpr ⟨hfirst, by omega⟩
    exact ⟨l, hl, (changed_iff_of_getElem? hl).mpr ⟨m, hm, hchanged, htouches⟩⟩
  · rw [← Bool.not_eq_true, changed_iff_of_getElem? hl]
    rintro ⟨m, hm, -, htouches⟩
    obtain ⟨hfirst, hrow⟩ := Member.touches_iff.mp htouches
    exact hnone m hm ⟨hfirst, by rw [(hlast hm).1]; exact hrow⟩

/-- A class with a method `A(int)`, and another one on the next line. The first line ends with a
carriage return and a line feed, the second one without either. -/
def overloadOnNextLine : String := "class C \x7b void A(int n);\r\nvoid A(long n); \x7d"

def overloadOnNextLineTree : Tree := .ofFile 43 [.ofOverload 10 3, .ofOverload 26 4]

/-- The class without the second method. -/
def singleOverload : String := "class C \x7b void A(int n); \x7d"

/-- The line of the new overload is marked. -/
theorem changed_members_marked_overloadOnNextLine :
    let grammar : Grammar := fun text =>
      if text = overloadOnNextLine then overloadOnNextLineTree else .ofFile 26 [.ofOverload 10 3]
    (grammar overloadOnNextLine).WellFormed overloadOnNextLine ∧
    (∀ m ∈ (grammar overloadOnNextLine).members overloadOnNextLine,
      Text.EndsVisibly (m.tree.text overloadOnNextLine)) ∧
    ∃ l, (compareMembers grammar singleOverload overloadOnNextLine)[1]? = some l ∧
      l.changed = true := by
  intro grammar
  have hwf : (grammar overloadOnNextLine).WellFormed overloadOnNextLine := by decide +kernel
  have hend : ∀ m ∈ (grammar overloadOnNextLine).members overloadOnNextLine,
      Text.EndsVisibly (m.tree.text overloadOnNextLine) := by decide +kernel
  refine ⟨hwf, hend, ?_⟩
  obtain ⟨m, hm, hne, hrow⟩ : ∃ m ∈ (grammar overloadOnNextLine).members overloadOnNextLine,
      (∀ o ∈ (grammar singleOverload).members singleOverload, o.signature = m.signature →
        o.tree.content singleOverload ≠ m.tree.content overloadOnNextLine) ∧
      m.HasRow overloadOnNextLine 1 := by
    unfold Member.HasRow
    decide +kernel
  exact (changed_members_marked id grammar _ overloadOnNextLine hwf hend).2.1 m hm hne 1 hrow

end CodeAtlas
