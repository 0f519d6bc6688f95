import CodeAtlas.Proofs.Declaration.Entries
import CodeAtlas.Proofs.Syntax.WellFormed
import Mathlib.Data.List.TakeWhile
import Std.Data.String.ToNat

/-!
# The ids of a table

The entries of a table with the same `baseId` are numbered, and the number from the second on is
written behind it. No `baseId` ends in such a number itself: a declared name or signature does not,
and a dot stands in front of the last one. So an id tells the `baseId` and the number, and ids are
distinct.

## Main definitions

* `EndsInOrdinal`: a text that ends in `#` and a number.
* `Tree.PlainNames`: the names that a node declares do not end in an ordinal.
* `Table.Numbered`: what holds of a table while it is built.

## Main statements

* `ordinalId_inj`: an id tells its parts.
* `Tree.plain_of_mem_declarations`: the declarations of a file have plain segments.
* `Table.numbered_ofFiles`: the ids of a table are numbered and distinct.
-/
namespace CodeAtlas

variable {s l base base' outer name : String} {m n k k' : Nat}

/-! ## Ordinals -/

/-- The text ends in `#` and a number. -/
def EndsInOrdinal (s : String) : Prop :=
  ∃ front digits, s.toList = front ++ '#' :: digits ∧ digits ≠ [] ∧
    ∀ c ∈ digits, Char.isDigit c = true

theorem toList_toString (n : Nat) : (toString n).toList = Nat.toDigits 10 n := by
  rw [Nat.toString_eq_repr, Nat.toList_repr]

theorem isDigit_of_mem_toString {c : Char} (h : c ∈ (toString n).toList) : c.isDigit = true := by
  rw [toList_toString] at h
  exact Nat.isDigit_of_mem_toDigits (by decide) (by decide) h

theorem toString_inj (h : toString m = toString n) : m = n := by
  rw [Nat.toString_eq_repr, Nat.toString_eq_repr] at h
  exact Nat.repr_inj.mp h

theorem endsInOrdinal_append (base : String) (n : Nat) :
    EndsInOrdinal (base ++ "#" ++ toString n) := by
  refine ⟨base.toList, (toString n).toList, by simp, ?_, fun c => isDigit_of_mem_toString⟩
  rw [toList_toString]
  exact Nat.toDigits_ne_nil

theorem sharp_not_mem_toString (n : Nat) : '#' ∉ (toString n).toList := by
  intro hmem
  exact absurd (isDigit_of_mem_toString hmem) (by decide)

/-- The last occurrence of a character splits a list in one way. -/
theorem append_cons_inj {c : Char} {xs xs' ys ys' : List Char} (hy : c ∉ ys) (hy' : c ∉ ys')
    (h : xs ++ c :: ys = xs' ++ c :: ys') : xs = xs' ∧ ys = ys' := by
  rcases List.append_eq_append_iff.mp h with ⟨rest, hxs, hrest⟩ | ⟨rest, hxs, hrest⟩
  · cases rest with
    | nil => exact ⟨by simp [hxs], by simpa using hrest⟩
    | cons d rest =>
      obtain ⟨rfl, hys⟩ := List.cons.inj hrest
      simp [hys] at hy
  · cases rest with
    | nil => exact ⟨by simp [hxs], by simpa using hrest.symm⟩
    | cons d rest =>
      obtain ⟨rfl, hys⟩ := List.cons.inj hrest
      simp [hys] at hy'

/-- The last `#` tells where the number starts. -/
theorem append_ordinal_inj (h : base ++ "#" ++ toString m = base' ++ "#" ++ toString n) :
    base = base' ∧ m = n := by
  have hchars : base.toList ++ '#' :: (toString m).toList =
      base'.toList ++ '#' :: (toString n).toList := by
    simpa using congrArg String.toList h
  obtain ⟨hbase, hnumber⟩ :=
    append_cons_inj (sharp_not_mem_toString m) (sharp_not_mem_toString n) hchars
  exact ⟨String.toList_inj.mp hbase, toString_inj (String.toList_inj.mp hnumber)⟩

/-- An id tells its `baseId` and its number. -/
theorem ordinalId_inj (hbase : ¬ EndsInOrdinal base) (hbase' : ¬ EndsInOrdinal base')
    (h : ordinalId base k = ordinalId base' k') : base = base' ∧ k = k' := by
  unfold ordinalId at h
  split at h <;> split at h
  · exact ⟨h, by omega⟩
  · exact absurd (h ▸ endsInOrdinal_append base' (k' + 1)) hbase
  · exact absurd (h ▸ endsInOrdinal_append base (k + 1)) hbase'
  · obtain ⟨hb, hk⟩ := append_ordinal_inj h
    exact ⟨hb, by omega⟩

/-- What follows a dot decides, since no number contains one. -/
theorem not_endsInOrdinal_append_dot (l : String) (h : ¬ EndsInOrdinal s) :
    ¬ EndsInOrdinal (l ++ "." ++ s) := by
  rintro ⟨front, digits, heq, hne, hdigits⟩
  have hchars : (l.toList ++ ['.']) ++ s.toList = front ++ '#' :: digits := by
    simpa using heq
  rcases List.append_eq_append_iff.mp hchars with ⟨rest, hfront, hs⟩ | ⟨rest, hfront, hs⟩
  · exact h ⟨rest, digits, hs, hne, hdigits⟩
  · rcases List.eq_nil_or_concat rest with rfl | ⟨init, c, rfl⟩
    · exact h ⟨[], digits, by simpa using hs.symm, hne, hdigits⟩
    · -- the number would reach over the dot
      rw [List.concat_eq_append, ← List.append_assoc] at hfront
      obtain ⟨-, hc⟩ := List.append_inj' hfront rfl
      obtain rfl : '.' = c := (List.cons.inj hc).1
      have hmem : '.' ∈ '#' :: digits := by simp [hs]
      rcases List.mem_cons.mp hmem with hdot | hdot
      · exact absurd hdot (by decide)
      · exact absurd (hdigits '.' hdot) (by decide)

theorem not_endsInOrdinal_empty : ¬ EndsInOrdinal "" := by
  rintro ⟨front, digits, h, -⟩
  simp at h

theorem not_endsInOrdinal_qualify (houter : ¬ EndsInOrdinal outer) (hname : ¬ EndsInOrdinal name) :
    ¬ EndsInOrdinal (qualify outer name) := by
  unfold qualify
  split
  · exact hname
  · split
    · exact houter
    · exact not_endsInOrdinal_append_dot outer hname

theorem endsInOrdinal_iff :
    EndsInOrdinal s ↔ s.toList.reverse.takeWhile Char.isDigit ≠ [] ∧
      (s.toList.reverse.dropWhile Char.isDigit).head? = some '#' := by
  constructor
  · rintro ⟨front, digits, heq, hne, hdigits⟩
    have hall : ∀ c ∈ digits.reverse, Char.isDigit c = true :=
      fun c hc => hdigits c (List.mem_reverse.mp hc)
    have hrev : s.toList.reverse = digits.reverse ++ '#' :: front.reverse := by simp [heq]
    rw [hrev, List.takeWhile_append_of_pos hall, List.dropWhile_append_of_pos hall]
    simp [hne]
  · rintro ⟨hne, hhead⟩
    obtain ⟨front, hfront⟩ := List.head?_eq_some_iff.mp hhead
    refine ⟨front.reverse, (s.toList.reverse.takeWhile Char.isDigit).reverse, ?_,
      by simpa using hne, fun c hc => ?_⟩
    · rw [← List.reverse_inj, List.reverse_append, List.reverse_cons, List.reverse_reverse,
        List.reverse_reverse, List.append_assoc, List.singleton_append, ← hfront,
        List.takeWhile_append_dropWhile]
    · exact List.mem_takeWhile_imp (List.mem_reverse.mp hc)

instance (s : String) : Decidable (EndsInOrdinal s) :=
  decidable_of_iff' _ endsInOrdinal_iff

/-- What is named after an entry does not have the id of that entry, be it named after the id or
after the `baseId`. -/
theorem ordinalId_append_dot_ne {segment : String} (h : s = ordinalId base k' ∨ s = base) :
    ordinalId (s ++ "." ++ segment) k ≠ ordinalId base k' := by
  have hdot : ∃ rest, (ordinalId (s ++ "." ++ segment) k).toList = s.toList ++ '.' :: rest := by
    unfold ordinalId
    split
    · exact ⟨segment.toList, by simp⟩
    · exact ⟨segment.toList ++ '#' :: (toString (k + 1)).toList, by simp⟩
  obtain ⟨rest, hrest⟩ := hdot
  intro heq
  rw [heq] at hrest
  rcases h with rfl | rfl
  · simp at hrest
  · unfold ordinalId at hrest
    split at hrest <;> simp at hrest

/-- An entry does not have the id of its owner. -/
theorem Orderly.id_ne_owner {es : List Entry} {i p : Nat} {e owner : Entry} (h : Orderly es)
    (he : es[i]? = some e) (howner : es[p]? = some owner) (hlt : p < i)
    (hparent : e.parent = some p) : e.id ≠ owner.id := by
  obtain ⟨k, hid⟩ := h.numbered e (List.mem_of_getElem? he)
  obtain ⟨k', hid'⟩ := h.numbered owner (List.mem_of_getElem? howner)
  have hscope : owner.scope = ordinalId owner.baseId k' ∨ owner.scope = owner.baseId := by
    unfold Entry.scope
    split
    · exact .inr rfl
    · exact .inl hid'
  rw [hid, hid', h.named i p e owner he howner hlt hparent]
  exact ordinalId_append_dot_ne hscope

theorem Table.id_ne_owner {t : Table} {i p : Nat} {e owner : Entry} (h : Orderly t.outline)
    (he : t.entries[i]? = some e) (howner : t.entries[p]? = some owner) (hlt : p < i)
    (hparent : e.parent = some p) : e.id ≠ owner.id := by
  have hne := h.id_ne_owner (getElem?_outline he) (getElem?_outline howner) hlt hparent
  exact hne

/-! ## The declarations of a file -/

namespace Tree

variable {source path ns : String} {parent : Option Nat} {next : Nat} {d : Declaration}

/-- What the node `t` declares has a name and a signature that do not end in an ordinal. -/
def PlainNames (source : String) (t : Tree) : Prop :=
  (∀ name, t.declaredName? source = some name → ¬ EndsInOrdinal name) ∧
    ∀ signature, t.signature? source = some signature → ¬ EndsInOrdinal signature

instance (source : String) (t : Tree) : Decidable (t.PlainNames source) :=
  inferInstanceAs (Decidable ((∀ name ∈ t.declaredName? source, ¬ EndsInOrdinal name) ∧
    ∀ signature ∈ t.signature? source, ¬ EndsInOrdinal signature))

theorem PlainNames.getD {t : Tree} (h : t.PlainNames source) :
    ¬ EndsInOrdinal ((t.declaredName? source).getD "") := by
  cases hname : t.declaredName? source with
  | none => exact not_endsInOrdinal_empty
  | some name => exact h.1 name hname

theorem segment_of_ofMember? {t : Tree} {kind : MemberKind} {owner : Nat}
    (h : Declaration.ofMember? t source path ns kind owner = some d) :
    t.signature? source = some d.segment := by
  obtain ⟨name, -, h⟩ := Option.bind_eq_some_iff.mp h
  obtain ⟨signature, hsig, h⟩ := Option.bind_eq_some_iff.mp h
  obtain rfl := Option.some.inj h
  exact hsig

-- Along the recursion over the tree, the namespace that is passed down stays plain.
mutual

theorem plain_of_mem_declarationsAt : ∀ {t : Tree} {ns : String} {parent : Option Nat} {next : Nat},
    (∀ n ∈ t.preorder, n.PlainNames source) → ¬ EndsInOrdinal ns →
    d ∈ declarationsAt source path ns parent next t → ¬ EndsInOrdinal d.segment
  | node data cs, ns, parent, next, hplain, hns, hd => by
    have hself := hplain _ (mem_preorder_self _)
    have hkids : ∀ n ∈ preorderAll cs, n.PlainNames source :=
      fun n hn => hplain n (List.mem_cons_of_mem _ hn)
    unfold declarationsAt at hd
    dsimp only at hd
    split at hd
    · exact plain_of_mem_declarationsOf hkids (not_endsInOrdinal_qualify hns hself.getD) hd
    · split at hd
      · split at hd
        · simp at hd
        · next name hname =>
          rcases List.mem_cons.mp hd with rfl | hd
          · have hname := hself.1 name hname
            simp only [Declaration.ofType]
            split
            · exact hname
            · exact not_endsInOrdinal_qualify hns hname
          · exact plain_of_mem_declarationsOf hkids hns hd
      · split at hd
        · simp at hd
        · exact hself.2 _ (segment_of_ofMember? (Option.mem_toList.mp hd))
      · simp at hd

theorem plain_of_mem_declarationsOf : ∀ {i : Option Nat} {cs : List Tree} {ns : String}
    {parent : Option Nat} {next : Nat}, (∀ n ∈ preorderAll cs, n.PlainNames source) →
    ¬ EndsInOrdinal ns → d ∈ declarationsOf source path ns parent next i cs →
    ¬ EndsInOrdinal d.segment
  | none, _, _, _, _, _, _, hd => by simp [declarationsOf] at hd
  | some _, [], _, _, _, _, _, hd => by simp [declarationsOf] at hd
  | some 0, node _ kids :: cs, ns, parent, next, hplain, hns, hd => by
    rw [declarationsOf] at hd
    refine plain_of_mem_declarationsIn (fun n hn => hplain n ?_) hns hd
    simp [preorderAll, preorder, hn]
  | some (i + 1), c :: cs, ns, parent, next, hplain, hns, hd => by
    rw [declarationsOf] at hd
    exact plain_of_mem_declarationsOf (fun n hn => hplain n (List.mem_append_right _ hn)) hns hd

theorem plain_of_mem_declarationsIn : ∀ {cs : List Tree} {ns : String} {parent : Option Nat}
    {next : Nat}, (∀ n ∈ preorderAll cs, n.PlainNames source) → ¬ EndsInOrdinal ns →
    d ∈ declarationsIn source path ns parent next cs → ¬ EndsInOrdinal d.segment
  | [], _, _, _, _, _, hd => by simp [declarationsIn] at hd
  | node data kids :: cs, ns, parent, next, hplain, hns, hd => by
    have hrest : ∀ n ∈ preorderAll cs, n.PlainNames source :=
      fun n hn => hplain n (List.mem_append_right _ hn)
    have hc : ∀ n ∈ (node data kids).preorder, n.PlainNames source :=
      fun n hn => hplain n (List.mem_append_left _ hn)
    rw [declarationsIn] at hd
    split at hd
    · exact plain_of_mem_declarationsIn hrest hns hd
    · split at hd
      · have hinner : ¬ EndsInOrdinal
            ((((node data kids).declaredName? source).map (qualify ns)).getD ns) := by
          cases hname : (node data kids).declaredName? source with
          | none => exact hns
          | some name =>
            have := (hc _ (mem_preorder_self _)).1 name hname
            exact not_endsInOrdinal_qualify hns this
        rcases List.mem_append.mp hd with hd | hd
        · exact plain_of_mem_declarationsIn (fun n hn => hc n (List.mem_cons_of_mem _ hn)) hinner hd
        · exact plain_of_mem_declarationsIn hrest hinner hd
      · rcases List.mem_append.mp hd with hd | hd
        · exact plain_of_mem_declarationsAt hc hns hd
        · exact plain_of_mem_declarationsIn hrest hns hd

end

/-- The declarations of a file are named by segments that do not end in an ordinal. -/
theorem plain_of_mem_declarations {t : Tree} (h : ∀ n ∈ t.preorder, n.PlainNames source)
    (hd : d ∈ t.declarations source path) : ¬ EndsInOrdinal d.segment := by
  refine plain_of_mem_declarationsIn (fun n hn => h n ?_) not_endsInOrdinal_empty hd
  obtain ⟨c, hc, hn⟩ := mem_preorderAll.mp hn
  exact mem_preorder_trans (mem_preorder_of_mem_children hc) hn

end Tree

/-! ## Numbered ids -/

/-- In the list `ps` of base ids and ids, the ids number those with the same base. -/
structure Numbered (ps : List (String × String)) : Prop where
  plain : ∀ p ∈ ps, ¬ EndsInOrdinal p.1
  numbered : ∀ p ∈ ps, ∃ k < (ps.map (·.1)).count p.1, p.2 = ordinalId p.1 k
  nodup : (ps.map (·.2)).Nodup

theorem numbered_nil : Numbered [] := by
  constructor <;> simp

/-- The next number is not taken. -/
theorem Numbered.append {ps : List (String × String)} (h : Numbered ps)
    (hbase : ¬ EndsInOrdinal base) :
    Numbered (ps ++ [(base, ordinalId base ((ps.map (·.1)).count base))]) := by
  refine ⟨?_, ?_, ?_⟩
  · simpa [or_imp, forall_and, hbase] using h.plain
  · intro p hp
    rw [List.map_append, List.count_append]
    rcases List.mem_append.mp hp with hp | hp
    · obtain ⟨k, hk, hid⟩ := h.numbered p hp
      exact ⟨k, by omega, hid⟩
    · obtain rfl := List.mem_singleton.mp hp
      exact ⟨_, by simp, rfl⟩
  · rw [List.map_append, List.nodup_append]
    refine ⟨h.nodup, by simp, ?_⟩
    rintro id hid new hnew rfl
    obtain ⟨p, hp, rfl⟩ := List.mem_map.mp hid
    obtain ⟨k, hk, heq⟩ := h.numbered p hp
    have hnew : p.2 = ordinalId base ((ps.map (·.1)).count base) := by simpa using hnew
    obtain ⟨hsame, hcount⟩ := ordinalId_inj (h.plain p hp) hbase (heq.symm.trans hnew)
    rw [hsame] at hk
    omega

namespace Table

variable {t : Table} {d : Declaration}

/-- The base ids and ids of the entries of `t`. -/
def idPairs (t : Table) : List (String × String) :=
  t.entries.toList.map fun e => (e.baseId, e.id)

theorem size_filter_baseId (t : Table) (base : String) :
    (t.entries.filter (·.baseId == base)).size = (t.idPairs.map (·.1)).count base := by
  rw [← Array.countP_eq_size_filter, ← Array.countP_toList, idPairs, List.map_map,
    List.count_eq_countP, List.countP_map]
  rfl

theorem idPairs_add (t : Table) (d : Declaration) :
    (t.add d).idPairs = t.idPairs ++
      [(t.baseIdOf d, ordinalId (t.baseIdOf d) ((t.idPairs.map (·.1)).count (t.baseIdOf d)))] := by
  rw [idPairs, map_entries_add _ fun _ _ => rfl, ← size_filter_baseId]
  rfl

/-- A declaration is named by its segment alone or by what stands in front of a dot and its
segment. -/
theorem not_endsInOrdinal_baseIdOf (h : ¬ EndsInOrdinal d.segment) :
    ¬ EndsInOrdinal (t.baseIdOf d) := by
  unfold baseIdOf
  split
  · exact not_endsInOrdinal_append_dot _ h
  · exact h

theorem numbered_add (ht : Numbered t.idPairs) (hd : ¬ EndsInOrdinal d.segment) :
    Numbered (t.add d).idPairs := by
  rw [idPairs_add]
  exact ht.append (not_endsInOrdinal_baseIdOf hd)

/-- The ids of a table number the entries with the same `baseId`. -/
theorem numbered_ofFiles {files : List (List Declaration)} {extraBuiltins : List String}
    (hfiles : ∀ file ∈ files, ∀ d ∈ file, ¬ EndsInOrdinal d.segment) :
    Numbered (ofFiles files extraBuiltins).idPairs :=
  ofFiles_induction (P := fun t => Numbered t.idPairs) files extraBuiltins numbered_nil
    fun _ file hfile d hd _ ht => numbered_add ht (hfiles file hfile d hd)

end Table

end CodeAtlas
