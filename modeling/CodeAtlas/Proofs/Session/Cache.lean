import CodeAtlas.Session

/-!
# Sequences of requests to a cache

A cache keeps what it gave last and shows it to others. The two copies are written in the same
places, so they agree after every request, and what is there after a request tells all about it: the
cache is empty if the request failed, and holds the answer under the root of the request if not.

## Main definitions

* `RootCache.Call`: a request, with what a build gives if the request makes one.
* `RootCache.Reuses`, `RootCache.Builds`: where the answer to a request comes from.
* `RootCache.after`: the cache after some requests.

## Main statements

* `RootCache.next_cases`: what a request leaves in the cache.
* `RootCache.answers_of_calls`: what holds after every request.
-/
namespace CodeAtlas

namespace RootCache

variable {γ ε : Type} {c : RootCache γ} {root : String} {g : γ}

/-- A request for what belongs to a root, with what a build gives if the request makes one. -/
structure Call (ε γ : Type) where
  root : String
  outcome : Except ε γ

/-- What the request `q` is answered with when it finds the cache `c`. -/
def answer (c : RootCache γ) (q : Call ε γ) : Except ε γ :=
  (c.get q.root fun _ => q.outcome).1

/-- The cache after the request `q` that found the cache `c`. -/
def next (c : RootCache γ) (q : Call ε γ) : RootCache γ :=
  (c.get q.root fun _ => q.outcome).2

/-- The cache after the requests `qs`, the first of which finds it empty. -/
def after (qs : List (Call ε γ)) : RootCache γ :=
  qs.foldl next {}

/-- A request for `root` is answered with `g`, which is kept: whatever a build would give, the
answer is the same and the cache `c` stays as it is. -/
def Reuses (ε : Type) (c : RootCache γ) (root : String) (g : γ) : Prop :=
  ∀ build : Unit → Except ε γ, c.get root build = (.ok g, c)

/-- A request for `root` that finds the cache `c` is answered with what a build gives. -/
def Builds (ε : Type) (c : RootCache γ) (root : String) : Prop :=
  ∀ build : Unit → Except ε γ, (c.get root build).1 = build ()

/-- What the cache `c` keeps is what others see. -/
def Consistent (c : RootCache γ) : Prop :=
  c.slot.map Prod.snd = c.published

/-! ## Single requests -/

@[simp] theorem get_of_hit? (h : c.hit? root = some g) (build : Unit → Except ε γ) :
    c.get root build = (.ok g, c) := by
  simp [get, h]

theorem builds_of_hit? (h : c.hit? root = none) : c.Builds ε root := by
  intro build
  unfold get
  rw [h]
  cases build () <;> rfl

@[simp] theorem hit?_eq_some :
    c.hit? root = some g ↔ ∃ kept, c.slot = some (kept, g) ∧ sameRoot kept root := by
  unfold hit?
  split
  · next kept g' hslot =>
    rw [hslot]
    grind
  · next hslot => simp [hslot]

/-- An answer is reused exactly if something is kept for the root. -/
@[simp] theorem reuses_iff : c.Reuses ε root g ↔ c.hit? root = some g := by
  refine ⟨fun h => ?_, fun h build => get_of_hit? h build⟩
  cases hhit : c.hit? root with
  | some g' =>
    have hget := (get_of_hit? hhit fun _ => .ok g).symm.trans (h fun _ => .ok g)
    simpa using congrArg Prod.fst hget
  | none =>
    -- a build that gives `g` would be kept, and then there is something for the root
    have hget := h fun _ => .ok g
    simp only [get, hhit] at hget
    have hkept : c.slot = some (root, g) := (congrArg (·.2.slot) hget).symm
    exact hhit.symm.trans (hit?_eq_some.mpr ⟨root, hkept, by simp [sameRoot]⟩)

/-- A request leaves its answer under its root, or nothing if it fails. -/
theorem next_cases (h : c.Consistent) (q : Call ε γ) :
    (∃ g kept, c.answer q = .ok g ∧ sameRoot kept q.root ∧
      c.next q = { slot := some (kept, g), published := some g }) ∨
    ∃ e, c.answer q = .error e ∧ c.next q = {} := by
  cases hhit : c.hit? q.root with
  | some g =>
    obtain ⟨kept, hslot, hroot⟩ := hit?_eq_some.mp hhit
    refine .inl ⟨g, kept, ?_, hroot, ?_⟩
    · simp [answer, get_of_hit? hhit]
    · have hpublished : c.published = some g := by
        rw [← h, hslot]
        rfl
      simp [next, get_of_hit? hhit, ← hslot, ← hpublished]
  | none =>
    cases houtcome : q.outcome with
    | ok g =>
      refine .inl ⟨g, q.root, ?_, by simp [sameRoot], ?_⟩
      · simp [answer, get, hhit, houtcome]
      · simp [next, get, hhit, houtcome]
    | error e =>
      refine .inr ⟨e, ?_, ?_⟩
      · simp [answer, get, hhit, houtcome]
      · simp [next, get, hhit, houtcome]

/-! ## Sequences of requests -/

@[simp] theorem after_append (qs : List (Call ε γ)) (q : Call ε γ) :
    after (qs ++ [q]) = (after qs).next q := by
  simp [after]

theorem Consistent.next (h : c.Consistent) (q : Call ε γ) : (c.next q).Consistent := by
  obtain ⟨g, kept, -, -, hnext⟩ | ⟨e, -, hnext⟩ := next_cases h q
  · rw [hnext]
    rfl
  · rw [hnext]
    rfl

theorem consistent_after (qs : List (Call ε γ)) : (after qs).Consistent := by
  have hrun (c : RootCache γ) (h : c.Consistent) : (qs.foldl RootCache.next c).Consistent := by
    induction qs generalizing c with
    | nil => exact h
    | cons q qs ih => exact ih _ (h.next q)
  exact hrun {} rfl

theorem sameRoot_congr {a b : String} (h : sameRoot a b = true) (root : String) :
    sameRoot a root = sameRoot b root := by
  have heq : Path.components a = Path.components b := by simpa [sameRoot] using h
  simp [sameRoot, heq]

/-- Something is kept for a root exactly if the last request succeeded for that root. -/
theorem hit?_after_iff (qs : List (Call ε γ)) (root : String) (g : γ) :
    (after qs).hit? root = some g ↔
      ∃ qs' q, qs = qs' ++ [q] ∧ sameRoot q.root root ∧ (after qs').answer q = .ok g := by
  rcases List.eq_nil_or_concat qs with rfl | ⟨qs', q, rfl⟩
  · simp [after, hit?]
  · rw [List.concat_eq_append, after_append]
    constructor
    · intro hhit
      obtain ⟨g', kept, hanswer, hroot, hnext⟩ | ⟨e, -, hnext⟩ :=
        next_cases (consistent_after qs') q
      · rw [hnext] at hhit
        obtain ⟨kept', hslot, hkept⟩ := hit?_eq_some.mp hhit
        obtain ⟨rfl, rfl⟩ : kept = kept' ∧ g' = g := by simpa using hslot
        exact ⟨qs', q, rfl, by rwa [← sameRoot_congr hroot], hanswer⟩
      · simp [hnext, hit?] at hhit
    · rintro ⟨qs'', q', heq, hroot, hanswer⟩
      obtain ⟨rfl, hq⟩ := List.append_inj' heq rfl
      obtain rfl : q = q' := by simpa using hq
      obtain ⟨g', kept, hanswer', hkept, hnext⟩ | ⟨e, herror, -⟩ :=
        next_cases (consistent_after qs') q
      · obtain rfl : g' = g := by simpa [hanswer] using hanswer'.symm
        rw [hnext]
        exact hit?_eq_some.mpr ⟨kept, rfl, by rwa [sameRoot_congr hkept]⟩
      · simp [hanswer] at herror

/-- After every request `q`, what is kept is what others see, and that is the answer of the request,
if it succeeded. A request reuses an answer exactly if the request before it gave that answer for
the same root, and else makes a build. Where a build fails nothing is left, so that the next request
makes a build, whatever its root. -/
theorem answers_of_calls (qs : List (Call ε γ)) (q : Call ε γ) :
    (after (qs ++ [q])).slot.map Prod.snd = (after (qs ++ [q])).published ∧
    (∀ g, (after (qs ++ [q])).published = some g ↔ (after qs).answer q = .ok g) ∧
    (∀ g, (after qs).Reuses ε q.root g ↔
      ∃ qs' p, qs = qs' ++ [p] ∧ sameRoot p.root q.root ∧ (after qs').answer p = .ok g) ∧
    ((¬∃ g, (after qs).Reuses ε q.root g) → (after qs).Builds ε q.root) ∧
    ∀ e, (after qs).answer q = .error e →
      after (qs ++ [q]) = {} ∧ ∀ root, (after (qs ++ [q])).Builds ε root := by
  refine ⟨consistent_after _, fun g => ?_, fun g => ?_, fun hnone => ?_, fun e herror => ?_⟩
  · rw [after_append]
    obtain ⟨g', kept, hanswer, -, hnext⟩ | ⟨e, herror, hnext⟩ := next_cases (consistent_after qs) q
    · simp [hanswer, hnext]
    · simp [herror, hnext]
  · rw [reuses_iff, hit?_after_iff]
  · refine builds_of_hit? (Option.eq_none_iff_forall_ne_some.mpr fun g hhit => ?_)
    exact hnone ⟨g, reuses_iff.mpr hhit⟩
  · have hempty : after (qs ++ [q]) = {} := by
      rw [after_append]
      obtain ⟨g', kept, hanswer, -, -⟩ | ⟨e', -, hnext⟩ := next_cases (consistent_after qs) q
      · simp [herror] at hanswer
      · exact hnext
    refine ⟨hempty, fun root => ?_⟩
    rw [hempty]
    exact builds_of_hit? rfl

end RootCache

end CodeAtlas
