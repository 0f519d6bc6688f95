import CodeAtlas.Patch.Merge
import CodeAtlas.Proofs.Patch.Edit
import CodeAtlas.Proofs.Syntax.WellFormed

/-!
# Which member replaces which

The members of a fragment choose one after the other: each takes the first free member of its
signature, else the first free one of its name. What one has taken is not free for the next. So a
member finds those of its own signature taken exactly if earlier members, of other signatures, have
taken all of them by their name.

## Main definitions

* `Member.Same`, `Member.Namesake`: members of one kind and signature, of one kind and name.
* `taken`: the positions that a list of choices takes.
* `TakenByName`: a position that an earlier member of another signature has taken.
* `ReplacesSame`: a member that replaces one of its own signature and nothing else.
* `Shadows`: a member without a counterpart of its own that has the name of another one's.

## Main statements

* `replacedIndex?_cases`: what one member chooses.
* `getElem?_matchMembers`: every member chooses among what the earlier ones left.
* `nodup_taken_matchMembers`: no position is taken twice.
* `mergeFragment_eq_some_iff`: what a merge writes.
* `same_counterpart_wins_iff`: which members replace one of their own signature.
-/
namespace CodeAtlas

variable {existing ms : List Member} {used : List Nat} {m e : Member} {r : Option Nat} {i k : Nat}

/-! ## Members of one signature -/

namespace Member

/-- The members `a` and `b` have one kind and signature. -/
def Same (a b : Member) : Prop :=
  a.kind = b.kind ∧ a.signature = b.signature

/-- The members `a` and `b` have one kind and name. -/
def Namesake (a b : Member) : Prop :=
  a.kind = b.kind ∧ a.name = b.name

instance (a b : Member) : Decidable (a.Same b) :=
  inferInstanceAs (Decidable (_ ∧ _))

instance (a b : Member) : Decidable (a.Namesake b) :=
  inferInstanceAs (Decidable (_ ∧ _))

theorem Same.symm {a b : Member} (h : a.Same b) : b.Same a :=
  ⟨h.1.symm, h.2.symm⟩

theorem Same.trans {a b c : Member} (h : a.Same b) (h' : b.Same c) : a.Same c :=
  ⟨h.1.trans h'.1, h.2.trans h'.2⟩

end Member

/-! ## One choice -/

/-- The position among `existing` of the first member that is not `used` and satisfies `p`. -/
def firstFree? (existing : List Member) (used : List Nat) (p : Member → Bool) : Option Nat :=
  ((existing.zipIdx.filter fun (_, i) => !used.contains i).find? fun (e, _) => p e).map (·.2)

theorem replacedIndex?_eq (existing : List Member) (used : List Nat) (m : Member) :
    replacedIndex? existing used m =
      (firstFree? existing used (fun e => e.kind == m.kind && e.signature == m.signature) <|>
        firstFree? existing used fun e => e.kind == m.kind && e.name == m.name) :=
  rfl

theorem firstFree?_eq_some {p : Member → Bool} (h : firstFree? existing used p = some i) :
    ∃ e, existing[i]? = some e ∧ i ∉ used ∧ p e = true := by
  obtain ⟨⟨e, j⟩, hfind, hj⟩ := Option.map_eq_some_iff.mp h
  obtain rfl : j = i := hj
  obtain ⟨hmem, hfree⟩ := List.mem_filter.mp (List.mem_of_find?_eq_some hfind)
  have hp : p e = true := by simpa using List.find?_some hfind
  exact ⟨e, List.mem_zipIdx_iff_getElem?.mp hmem, by simpa using hfree, hp⟩

theorem firstFree?_eq_none {p : Member → Bool} (h : firstFree? existing used p = none)
    (he : existing[i]? = some e) (hi : i ∉ used) : p e = false := by
  have hnone := List.find?_eq_none.mp (Option.map_eq_none_iff.mp h)
  have hmem : (e, i) ∈ existing.zipIdx.filter fun x => !used.contains x.2 :=
    List.mem_filter.mpr ⟨List.mem_zipIdx_iff_getElem?.mpr he, by simpa using hi⟩
  simpa using hnone (e, i) hmem

/-- A member takes a free one of its signature. If there is none it takes a free one of its name,
and without one of those either it takes none. -/
theorem replacedIndex?_cases (existing : List Member) (used : List Nat) (m : Member) :
    (∃ i e, replacedIndex? existing used m = some i ∧ existing[i]? = some e ∧ i ∉ used ∧
      e.Same m) ∨
    (∀ i e, existing[i]? = some e → i ∉ used → ¬ e.Same m) ∧
      ((∃ i e, replacedIndex? existing used m = some i ∧ existing[i]? = some e ∧ i ∉ used ∧
        e.Namesake m) ∨
      replacedIndex? existing used m = none) := by
  rw [replacedIndex?_eq]
  cases hsame : firstFree? existing used
      (fun e => e.kind == m.kind && e.signature == m.signature) with
  | some i =>
    obtain ⟨e, he, hi, hp⟩ := firstFree?_eq_some hsame
    exact .inl ⟨i, e, rfl, he, hi, by simpa [Member.Same] using hp⟩
  | none =>
    refine .inr ⟨fun i e he hi hs => ?_, ?_⟩
    · simpa [hs.1, hs.2] using firstFree?_eq_none hsame he hi
    · cases hname : firstFree? existing used (fun e => e.kind == m.kind && e.name == m.name) with
      | some i =>
        obtain ⟨e, he, hi, hp⟩ := firstFree?_eq_some hname
        exact .inl ⟨i, e, rfl, he, hi, by simpa [Member.Namesake] using hp⟩
      | none => exact .inr rfl

/-- What a member takes is free and of its kind. -/
theorem replacedIndex?_eq_some (h : replacedIndex? existing used m = some i) :
    ∃ e, existing[i]? = some e ∧ i ∉ used ∧ (e.Same m ∨ e.Namesake m) := by
  obtain ⟨j, e, hj, he, hfree, hs⟩ | ⟨-, ⟨j, e, hj, he, hfree, hs⟩ | hnone⟩ :=
    replacedIndex?_cases existing used m
  · obtain rfl : i = j := Option.some.inj (h.symm.trans hj)
    exact ⟨e, he, hfree, .inl hs⟩
  · obtain rfl : i = j := Option.some.inj (h.symm.trans hj)
    exact ⟨e, he, hfree, .inr hs⟩
  · simp [hnone] at h

/-! ## All choices -/

/-- The positions that the choices in `matched` take. -/
def taken (matched : List (Member × Option Nat)) : List Nat :=
  matched.filterMap (·.2)

@[simp] theorem mem_taken {matched : List (Member × Option Nat)} :
    i ∈ taken matched ↔ ∃ m, (m, some i) ∈ matched := by
  simp [taken]

@[simp] theorem map_fst_matchMembers (existing ms : List Member) (used : List Nat) :
    (matchMembers existing used ms).map (·.1) = ms := by
  induction ms generalizing used with
  | nil => rfl
  | cons m ms ih =>
    rw [matchMembers]
    split <;> simp [ih]

/-- Every member chooses among what the earlier ones have left. -/
theorem getElem?_matchMembers (h : (matchMembers existing used ms)[k]? = some (m, r)) :
    r = replacedIndex? existing
      ((taken ((matchMembers existing used ms).take k)).reverse ++ used) m := by
  induction ms generalizing used k with
  | nil => simp [matchMembers] at h
  | cons n ms ih =>
    rw [matchMembers] at h ⊢
    cases k with
    | zero =>
      split at h
      · next i hi =>
        obtain ⟨rfl, rfl⟩ : n = m ∧ some i = r := by simpa using h
        simpa [taken] using hi.symm
      · next hi =>
        obtain ⟨rfl, rfl⟩ : n = m ∧ none = r := by simpa using h
        simpa [taken] using hi.symm
    | succ k =>
      -- the first choice joins those in use, for the rest to avoid
      split at h
      · have := ih (by simpa using h)
        simpa [taken] using this
      · have := ih (by simpa using h)
        simpa [taken] using this

/-- No position is taken twice, and none that was in use. -/
theorem nodup_taken_matchMembers (existing ms : List Member) (used : List Nat) :
    (taken (matchMembers existing used ms)).Nodup ∧
      ∀ i ∈ taken (matchMembers existing used ms), i ∉ used := by
  induction ms generalizing used with
  | nil => simp [matchMembers, taken]
  | cons m ms ih =>
    rw [matchMembers]
    split
    · next i hi =>
      obtain ⟨hnodup, hfree⟩ := ih (i :: used)
      obtain ⟨e, -, hused, -⟩ := replacedIndex?_eq_some hi
      refine ⟨List.nodup_cons.mpr ⟨fun hmem => hfree i hmem (by simp), hnodup⟩, ?_⟩
      intro j hj
      rcases List.mem_cons.mp hj with rfl | hj
      · exact hused
      · exact fun hmem => hfree j hj (List.mem_cons_of_mem i hmem)
    · exact ih used

/-! ## What is replaced and what is appended -/

/-- The members that are replaced: each position that a member of the fragment takes. -/
@[simp] theorem mem_replacements {matched : List (Member × Option Nat)} :
    (e, m) ∈ replacements existing matched ↔
      ∃ i, (m, some i) ∈ matched ∧ existing[i]? = some e := by
  simp only [replacements, List.mem_filterMap, Prod.exists]
  constructor
  · rintro ⟨n, r, hmem, h⟩
    obtain ⟨old, hold, heq⟩ := Option.map_eq_some_iff.mp h
    obtain ⟨rfl, rfl⟩ := Prod.mk.inj heq
    obtain ⟨i, rfl, hi⟩ := Option.bind_eq_some_iff.mp hold
    exact ⟨i, hmem, hi⟩
  · rintro ⟨i, hmem, hi⟩
    exact ⟨m, some i, hmem, by simp [hi]⟩

/-- Different members are replaced, so what `R` says of any two `existing` members it says of any
two that are replaced, in one order or the other. -/
theorem pairwise_replacements {R : Member → Member → Prop} (hR : existing.Pairwise R) :
    (replacements existing (matchMembers existing used ms)).Pairwise
      fun x y => R x.1 y.1 ∨ R y.1 x.1 := by
  have hnodup := (nodup_taken_matchMembers existing ms used).1
  rw [taken, List.Nodup, List.pairwise_filterMap] at hnodup
  rw [replacements, List.pairwise_filterMap]
  refine hnodup.imp fun {x y} hne p hp q hq => ?_
  obtain ⟨old, hold, rfl⟩ := Option.map_eq_some_iff.mp hp
  obtain ⟨old', hold', rfl⟩ := Option.map_eq_some_iff.mp hq
  obtain ⟨i, hi, hiold⟩ := Option.bind_eq_some_iff.mp hold
  obtain ⟨j, hj, hjold⟩ := Option.bind_eq_some_iff.mp hold'
  obtain ⟨hilt, rfl⟩ := List.getElem?_eq_some_iff.mp hiold
  obtain ⟨hjlt, rfl⟩ := List.getElem?_eq_some_iff.mp hjold
  rcases Nat.lt_or_gt_of_ne (hne i hi j hj) with hlt | hlt
  · exact .inl (List.pairwise_iff_getElem.mp hR i j hilt hjlt hlt)
  · exact .inr (List.pairwise_iff_getElem.mp hR j i hjlt hilt hlt)

@[grind →]
theorem fst_mem_of_mem_replacements {matched : List (Member × Option Nat)} {p : Member × Member}
    (h : p ∈ replacements existing matched) : p.1 ∈ existing := by
  obtain ⟨i, -, hi⟩ := mem_replacements.mp h
  exact List.mem_of_getElem? hi

/-- The members that replace one are those that have made a choice. -/
theorem map_snd_replacements (existing ms : List Member) (used : List Nat) :
    (replacements existing (matchMembers existing used ms)).map (·.2) =
      ((matchMembers existing used ms).filter (·.2.isSome)).map (·.1) := by
  induction ms generalizing used with
  | nil => rfl
  | cons m ms ih =>
    rw [matchMembers]
    split
    · next i hi =>
      obtain ⟨e, he, -⟩ := replacedIndex?_eq_some hi
      rw [replacements, List.filterMap_cons_some (b := (e, m)) (by simp [he])]
      exact congrArg (m :: ·) (ih (i :: used))
    · exact ih used

/-- Every member of a fragment replaces one or is appended, and they keep their order. -/
theorem perm_replacements_additions (existing ms : List Member) (used : List Nat) :
    let matched := matchMembers existing used ms
    ((replacements existing matched).map (·.2)).Sublist ms ∧ (additions matched).Sublist ms ∧
      ((replacements existing matched).map (·.2) ++ additions matched).Perm ms := by
  intro matched
  have hms : matched.map (·.1) = ms := map_fst_matchMembers existing ms used
  have hsub (p : Member × Option Nat → Bool) : ((matched.filter p).map (·.1)).Sublist ms := by
    have := (List.filter_sublist (p := p) (l := matched)).map (·.1)
    rwa [hms] at this
  have hperm := (List.filter_append_perm (fun x => x.2.isSome) matched).map (·.1)
  rw [hms, List.map_append] at hperm
  rw [map_snd_replacements, additions]
  exact ⟨hsub _, hsub _, by simpa using hperm⟩

@[simp] theorem mem_additions {matched : List (Member × Option Nat)} :
    m ∈ additions matched ↔ (m, none) ∈ matched := by
  simp [additions]

/-- A merge makes the edits of the type that it finds, if they change something. -/
theorem mergeFragment_eq_some_iff {grammar : Grammar} {text out : String} {target : Owner}
    {fragment : Fragment} {report : MergeReport} :
    mergeFragment grammar text target fragment = some (out, report) ↔
      ∃ type body, (grammar text).typeDeclaration? text target = some type ∧
        type.field? "body" = some body ∧ (mergeEdits text type body fragment).1 ≠ [] ∧
        out ≠ text ∧ out = applyEdits text (mergeEdits text type body fragment).1 ∧
        report = (mergeEdits text type body fragment).2 := by
  constructor
  · intro h
    obtain ⟨type, htype, h⟩ := Option.bind_eq_some_iff.mp h
    obtain ⟨body, hbody, h⟩ := Option.bind_eq_some_iff.mp h
    simp only [Bool.or_eq_true, decide_eq_true_eq, List.isEmpty_iff] at h
    split at h
    · simp at h
    · next hchange =>
      obtain ⟨rfl, rfl⟩ := Prod.mk.inj (Option.some.inj h)
      obtain ⟨hne, hout⟩ := not_or.mp hchange
      exact ⟨type, body, htype, hbody, hne, hout, rfl, rfl⟩
  · rintro ⟨type, body, htype, hbody, hne, hout, rfl, rfl⟩
    simp [mergeFragment, htype, hbody, hne, hout]

/-! ## Members of the same signature -/

/-- A position that a member before the `k`-th has taken by its name only. -/
def TakenByName (existing : List Member) (matched : List (Member × Option Nat)) (k i : Nat) :
    Prop :=
  ∃ j < k, ∃ n e, matched[j]? = some (n, some i) ∧ existing[i]? = some e ∧
    e.Namesake n ∧ ¬ e.Same n

/-- No `existing` member has the signature of `a`, but one with the signature of `b` has the name of
`a`. -/
def Shadows (existing : List Member) (a b : Member) : Prop :=
  (∀ e ∈ existing, ¬ e.Same a) ∧ ∃ e ∈ existing, e.Same b ∧ e.Namesake a

instance (existing : List Member) (a b : Member) : Decidable (Shadows existing a b) :=
  inferInstanceAs (Decidable ((∀ e ∈ existing, _) ∧ ∃ e ∈ existing, _))

theorem mem_taken_take {matched : List (Member × Option Nat)} :
    i ∈ taken (matched.take k) ↔ ∃ j < k, ∃ m, matched[j]? = some (m, some i) := by
  rw [mem_taken]
  constructor
  · rintro ⟨m, hmem⟩
    obtain ⟨j, hj⟩ := List.mem_iff_getElem?.mp hmem
    rw [List.getElem?_take] at hj
    split at hj
    · next hjk => exact ⟨j, hjk, m, hj⟩
    · simp at hj
  · rintro ⟨j, hjk, m, hj⟩
    refine ⟨m, List.mem_iff_getElem?.mpr ⟨j, ?_⟩⟩
    rw [List.getElem?_take, if_pos hjk, hj]

theorem getElem?_of_getElem?_matchMembers (h : (matchMembers existing used ms)[k]? = some (m, r)) :
    ms[k]? = some m := by
  rw [← map_fst_matchMembers existing ms used, List.getElem?_map, h]
  rfl

theorem exists_getElem?_matchMembers (h : ms[k]? = some m) :
    ∃ r, (matchMembers existing used ms)[k]? = some (m, r) := by
  rw [← map_fst_matchMembers existing ms used, List.getElem?_map] at h
  obtain ⟨⟨n, r⟩, hn, rfl⟩ := Option.map_eq_some_iff.mp h
  exact ⟨r, hn⟩

/-- What `R` says of any two members of a fragment it says of any two choices. -/
theorem rel_of_getElem?_matchMembers {R : Member → Member → Prop} {n : Member} {r' : Option Nat}
    {j : Nat} (hR : ms.Pairwise R) (hj : (matchMembers existing used ms)[j]? = some (n, r'))
    (hk : (matchMembers existing used ms)[k]? = some (m, r)) (hjk : j < k) : R n m := by
  obtain ⟨hjlt, rfl⟩ := List.getElem?_eq_some_iff.mp (getElem?_of_getElem?_matchMembers hj)
  obtain ⟨hklt, rfl⟩ := List.getElem?_eq_some_iff.mp (getElem?_of_getElem?_matchMembers hk)
  exact List.pairwise_iff_getElem.mp hR j k hjlt hklt hjk

/-- A member replaces one of its signature exactly if one of them is left: if earlier members have
not taken all of them by their name. -/
theorem same_iff_not_takenByName (hdistinct : ms.Pairwise fun a b => ¬ a.Same b)
    (h : (matchMembers existing [] ms)[k]? = some (m, r)) :
    (∃ i e, r = some i ∧ existing[i]? = some e ∧ e.Same m) ↔
      ∃ i e, existing[i]? = some e ∧ e.Same m ∧
        ¬ TakenByName existing (matchMembers existing [] ms) k i := by
  have hr := getElem?_matchMembers h
  rw [List.append_nil] at hr
  constructor
  · rintro ⟨i, e, rfl, he, hs⟩
    refine ⟨i, e, he, hs, ?_⟩
    rintro ⟨j, hjk, n, -, hj, -⟩
    obtain ⟨-, -, hfree, -⟩ := replacedIndex?_eq_some hr.symm
    exact hfree (List.mem_reverse.mpr (mem_taken_take.mpr ⟨j, hjk, n, hj⟩))
  · rintro ⟨i, e, he, hs, htaken⟩
    -- whoever took `i` before is of another signature, so took it by its name
    have hfree : i ∉ (taken ((matchMembers existing [] ms).take k)).reverse := by
      rw [List.mem_reverse, mem_taken_take]
      rintro ⟨j, hjk, n, hj⟩
      have hne : ¬ n.Same m := rel_of_getElem?_matchMembers hdistinct hj h hjk
      obtain ⟨e', he', -, hcase⟩ := replacedIndex?_eq_some (getElem?_matchMembers hj).symm
      obtain rfl : e' = e := Option.some.inj (he'.symm.trans he)
      have hnot : ¬ e'.Same n := fun hn => hne (hn.symm.trans hs)
      exact htaken ⟨j, hjk, n, e', hj, he, hcase.resolve_left hnot, hnot⟩
    obtain ⟨i', e', hi', he', -, hs'⟩ | ⟨hnone, -⟩ := replacedIndex?_cases existing _ m
    · exact ⟨i', e', hr.trans hi', he', hs'⟩
    · exact absurd hs (hnone i e he hfree)

/-- If no member shadows a later one, every member that has a counterpart of its signature replaces
one. -/
theorem same_of_not_shadows (hdistinct : ms.Pairwise fun a b => ¬ a.Same b)
    (hshadow : ms.Pairwise fun a b => ¬ Shadows existing a b)
    (h : (matchMembers existing [] ms)[k]? = some (m, r)) (hm : ∃ e ∈ existing, e.Same m) :
    ∃ i e, r = some i ∧ existing[i]? = some e ∧ e.Same m := by
  induction k using Nat.strongRecOn generalizing m r with
  | _ k ih =>
    obtain ⟨e, he, hs⟩ := hm
    obtain ⟨i, hi⟩ := List.mem_iff_getElem?.mp he
    refine (same_iff_not_takenByName hdistinct h).mpr ⟨i, e, hi, hs, ?_⟩
    rintro ⟨j, hjk, n, e', hj, he', hname, hnot⟩
    obtain rfl : e' = e := Option.some.inj (he'.symm.trans hi)
    -- had the earlier member a counterpart of its own, it would have taken that
    have hnone : ∀ e ∈ existing, ¬ e.Same n := by
      intro e hmem hse
      obtain ⟨i', e'', hi', he'', hs''⟩ := ih j hjk hj ⟨e, hmem, hse⟩
      obtain rfl : i = i' := Option.some.inj hi'
      obtain rfl : e'' = e' := Option.some.inj (he''.symm.trans hi)
      exact hnot hs''
    exact rel_of_getElem?_matchMembers hshadow hj h hjk ⟨hnone, e', he, hs, hname⟩

/-- A member that is unlike the others of the fragment makes one choice. -/
theorem eq_of_mem_matchMembers {r' : Option Nat} (hdistinct : ms.Pairwise fun a b => ¬ a.Same b)
    (hk : (matchMembers existing used ms)[k]? = some (m, r))
    (h : (m, r') ∈ matchMembers existing used ms) : r' = r := by
  obtain ⟨j, hj⟩ := List.mem_iff_getElem?.mp h
  obtain rfl : j = k := by
    rcases Nat.lt_trichotomy j k with hlt | heq | hlt
    · exact absurd ⟨rfl, rfl⟩ (rel_of_getElem?_matchMembers hdistinct hj hk hlt)
    · exact heq
    · exact absurd ⟨rfl, rfl⟩ (rel_of_getElem?_matchMembers hdistinct hk hj hlt)
  simpa [hj] using hk

/-- The member `m` of a fragment replaces one of its own signature, and neither is it appended nor
does it replace one of another signature. -/
def ReplacesSame (existing : List Member) (matched : List (Member × Option Nat)) (m : Member) :
    Prop :=
  (∃ old, (old, m) ∈ replacements existing matched ∧ old.Same m) ∧
    m ∉ additions matched ∧ ∀ old, (old, m) ∈ replacements existing matched → old.Same m

theorem replacesSame_iff (hdistinct : ms.Pairwise fun a b => ¬ a.Same b)
    (hk : (matchMembers existing used ms)[k]? = some (m, r)) :
    ReplacesSame existing (matchMembers existing used ms) m ↔
      ∃ i old, r = some i ∧ existing[i]? = some old ∧ old.Same m := by
  constructor
  · rintro ⟨⟨old, hmem, hs⟩, -⟩
    obtain ⟨i, hi, hold⟩ := mem_replacements.mp hmem
    exact ⟨i, old, (eq_of_mem_matchMembers hdistinct hk hi).symm, hold, hs⟩
  · rintro ⟨i, old, rfl, hold, hs⟩
    refine ⟨⟨old, mem_replacements.mpr ⟨i, List.mem_of_getElem? hk, hold⟩, hs⟩, ?_, ?_⟩
    · intro hadd
      have := eq_of_mem_matchMembers hdistinct hk (mem_additions.mp hadd)
      simp at this
    · intro old' hmem
      obtain ⟨i', hi', hold'⟩ := mem_replacements.mp hmem
      obtain rfl : i' = i := Option.some.inj (eq_of_mem_matchMembers hdistinct hk hi')
      obtain rfl : old' = old := Option.some.inj (hold'.symm.trans hold)
      exact hs

/-- Which members of the `fragment` replace one of their own signature in `type`: those of which
earlier members have left one. They all do in a fragment in which none shadows a later one. -/
theorem same_counterpart_wins_iff (text : String) (type : Tree) (fragment : Fragment)
    (hdistinct : fragment.members.Pairwise fun a b => ¬ a.Same b) :
    let existing := type.directMembers text
    let matched := matchMembers existing [] fragment.members
    (∀ k new, fragment.members[k]? = some new →
      (ReplacesSame existing matched new ↔
        ∃ i old, existing[i]? = some old ∧ old.Same new ∧ ¬ TakenByName existing matched k i)) ∧
    (fragment.members.Pairwise (fun a b => ¬ Shadows existing a b) →
      ∀ new ∈ fragment.members, (∃ old ∈ existing, old.Same new) →
        ReplacesSame existing matched new) := by
  intro existing matched
  refine ⟨fun k new hk => ?_, fun hshadow new hnew hold => ?_⟩
  · obtain ⟨r, hr⟩ := exists_getElem?_matchMembers hk
    exact (replacesSame_iff hdistinct hr).trans (same_iff_not_takenByName hdistinct hr)
  · obtain ⟨k, hk⟩ := List.mem_iff_getElem?.mp hnew
    obtain ⟨r, hr⟩ := exists_getElem?_matchMembers hk
    exact (replacesSame_iff hdistinct hr).mpr (same_of_not_shadows hdistinct hshadow hr hold)

/-! ## A fragment with overloads -/

/-- A class with a method `A(int)`. -/
def oneOverload : String := "class C \x7b void A(int n); \x7d"

def oneOverloadTree : Tree := .ofFile 26 [.ofOverload 10 3]

def oneOverloadClass : Tree := .ofClass 0 26 [.ofOverload 10 3]

/-- A fragment with that method in front of a new overload. -/
def knownFirst : Fragment where
  source := "class C \x7b void A(int n); void A(long n); \x7d"
  tree := .ofFile 42 [.ofOverload 10 3, .ofOverload 25 4]
  container := some "C"

/-- A fragment with that method behind a new overload. -/
def newFirst : Fragment where
  source := "class C \x7b void A(long n); void A(int n); \x7d"
  tree := .ofFile 42 [.ofOverload 10 4, .ofOverload 26 3]
  container := some "C"

/-- Nothing shadows the method in front. -/
theorem same_counterpart_wins_knownFirst :
    ∃ new ∈ knownFirst.members, new.signature = "A(int)" ∧
      ReplacesSame (oneOverloadClass.directMembers oneOverload)
        (matchMembers (oneOverloadClass.directMembers oneOverload) [] knownFirst.members) new := by
  obtain ⟨new, hnew, hsignature, hold⟩ : ∃ new ∈ knownFirst.members, new.signature = "A(int)" ∧
      ∃ old ∈ oneOverloadClass.directMembers oneOverload, old.Same new := by decide +kernel
  have hwins := (same_counterpart_wins_iff oneOverload oneOverloadClass knownFirst
    (by decide +kernel)).2 (by decide +kernel)
  exact ⟨new, hnew, hsignature, hwins new hnew hold⟩

theorem mergeFragment_newFirst :
    mergeFragment (fun _ => oneOverloadTree) oneOverload ⟨"C", "C", "C.cs", 0⟩ newFirst =
      some ("class C \x7b void A(long n); \n\nvoid A(int n);\n\x7d",
        { replaced := ["A(long)"], appended := ["A(int)"] }) := by
  refine mergeFragment_eq_some_iff.mpr
    ⟨_, _, rfl, rfl, by decide +kernel, by decide +kernel, ?_, ?_⟩
  · rw [applyEdits_of_pairwise (by decide +kernel)]
    decide +kernel
  · decide +kernel

/-- The new overload takes the place of `A(int)` by its name, so that the member that is `A(int)` is
appended. -/
theorem exists_same_appended :
    (newFirst.members.Pairwise fun a b => ¬ a.Same b) ∧
    (∃ old ∈ oneOverloadClass.directMembers oneOverload,
      ∃ new ∈ newFirst.members, new.signature = "A(int)" ∧ old.Same new) ∧
    (mergeFragment (fun _ => oneOverloadTree) oneOverload ⟨"C", "C", "C.cs", 0⟩ newFirst).map
        (·.2) =
      some { replaced := ["A(long)"], appended := ["A(int)"] } :=
  ⟨by decide +kernel, by decide +kernel, by rw [mergeFragment_newFirst]; rfl⟩

end CodeAtlas
