import CodeAtlas.Proofs.Cleanup.Passes
import CodeAtlas.Proofs.Cleanup.Strict

/-!
# Unwrapping until no namespace is left

Namespaces are taken out one by one, and after each of them the text is read anew. Nothing is known
about the next tree but that its ranges fit the next text. Every round makes the text shorter: a
header that is removed is not empty, and where a namespace is replaced by its body at least the
braces go. So the rounds come to an end, at a text in which no namespace is found that could be
taken out.

## Main definitions

* `Tree.Spanned`: the ranges of a tree fit a text.
* `round?`: one round, which has no result if it reads a range that is not readable.
* `Rounds`: round after round until the text stays as it is.

## Main statements

* `round?_eq`: a round reads readable ranges only.
* `size_lt_of_unwrapOnce?`: a round makes the text shorter.
* `withoutNamespaces_thorough`: the rounds end, and no namespace is left that could be taken out.
-/
namespace CodeAtlas

open Text

variable {grammar : Grammar} {text next : String} {t n : Tree} {fuel : Nat}

/-! ## Ranges that fit a text -/

/-- The ranges of the nodes of `t` are readable in `text`, children lie inside their parents, and
namespaces have neither an empty header nor an empty body. -/
structure Tree.Spanned (text : String) (t : Tree) : Prop where
  isSome_slice? : ∀ n ∈ t.preorder, (slice? text n.start n.stop).isSome = true
  inside : ∀ n ∈ t.preorder, ∀ c ∈ n.children, n.start ≤ c.start ∧ c.stop ≤ n.stop
  header_nonempty : ∀ n ∈ t.preorder, n.isFileScope = true → n.start < n.headerSpan.stop
  body_nonempty : ∀ n ∈ t.preorder, n.isNamespace = true →
    ∀ body ∈ n.field? "body", 0 < body.length

namespace Tree.Spanned

theorem valid_span (h : t.Spanned text) (hn : n ∈ t.preorder) : n.span.Valid text := by
  obtain ⟨s, hs⟩ := Option.isSome_iff_exists.mp (h.isSome_slice? n hn)
  exact ⟨n.start_le_stop, isBoundary_left hs, isBoundary_right hs⟩

theorem valid_headerSpan (h : t.Spanned text) (hn : n ∈ t.preorder) :
    n.headerSpan.Valid text := by
  refine Tree.valid_headerSpan (h.valid_span hn) fun c hc => ⟨(h.inside n hn c hc).1, ?_⟩
  exact h.valid_span (mem_preorder_trans hn (mem_preorder_of_mem_children hc))

/-- A namespace with a body in braces wraps it. -/
theorem wraps {body : Tree} (h : t.Spanned text) (hn : n ∈ t.preorder)
    (hnamespace : n.isNamespace = true) (hbody : n.field? "body" = some body)
    (hbraces : body.InBraces text) : n.Wraps text body :=
  ⟨hbody, (h.valid_span hn).isBoundary_start, (h.inside n hn body (mem_children_of_field? hbody)).1,
    h.body_nonempty n hn hnamespace body hbody, hbraces⟩

end Tree.Spanned

/-! ## One round -/

/-- Takes the first namespace out of `text`. There is no result if a range is read that is not
readable, and no text if there is nothing to take out. -/
def round? (grammar : Grammar) (text : String) : Option (Option String) :=
  (grammar text).namespaceIn?.elim (some none) fun t =>
    if t.isFileScope then (removeSpans? text [t.headerSpan]).map some
    else (t.field? "body").elim (some none) fun body =>
      if body.stop = 0 || !hasAscii text body.start '\x7b' ||
          !hasAscii text (body.stop - 1) '\x7d' then some none
      else (unwrapBody? text t body).map some

/-- A round reads readable ranges only. -/
@[simp] theorem round?_eq (h : (grammar text).Spanned text) :
    round? grammar text = some (unwrapOnce? grammar text) := by
  rw [round?, unwrapOnce?]
  cases ht : (grammar text).namespaceIn? with
  | none => rfl
  | some t =>
    obtain ⟨hmem, hnamespace⟩ := Tree.mem_preorder_of_namespaceIn? ht
    rw [Option.elim_some, Option.bind_eq_bind, Option.bind_some]
    split
    · have hheader : ∀ s ∈ [t.headerSpan], s.Valid text := by
        simpa using h.valid_headerSpan hmem
      rw [removeSpans?_eq hheader]
      rfl
    · cases hbody : t.field? "body" with
      | none => rw [Option.elim_none, unwrapNamespace?, hbody]; rfl
      | some body =>
        rw [Option.elim_some]
        split
        · next hcond =>
          rw [unwrapNamespace?, hbody, Option.bind_eq_bind, Option.bind_some, if_pos hcond]
        · next hcond =>
          simp only [Bool.or_eq_true, Bool.not_eq_true', decide_eq_true_eq, not_or,
            Bool.not_eq_false] at hcond
          have hwraps := h.wraps hmem hnamespace hbody ⟨hcond.1.2, hcond.2⟩
          rw [hwraps.unwrapBody?_eq, hwraps.unwrapNamespace?_eq]
          rfl

/-- Removing a range that is not empty makes a text shorter. -/
theorem size_removeSpans_lt {s : Span} (h : s.Valid text) (hne : s.start < s.stop) :
    (removeSpans text [s]).utf8ByteSize < text.utf8ByteSize := by
  have hwiden := widens_widen h
  have hstart := hwiden.start_le
  have hstop := hwiden.le_stop
  have hle := hwiden.valid.isBoundary_stop.le
  have hfront : (if 0 < (widen text s).start then slice text 0 (widen text s).start
      else "").utf8ByteSize = (widen text s).start := by
    split
    · have := size_of_slice? (slice?_before hwiden.valid.isBoundary_start)
      rwa [Nat.zero_add] at this
    · rw [String.utf8ByteSize_empty]
      omega
  have hback := size_of_slice? (slice?_after hwiden.valid.isBoundary_stop)
  rw [removeSpans_of_pairwise (List.pairwise_singleton _ _), List.map_singleton, cutFrom, cutFrom,
    String.utf8ByteSize_append, hfront, Nat.zero_max, Nat.min_eq_left hle]
  omega

/-- A round makes the text shorter. -/
theorem size_lt_of_unwrapOnce? (h : (grammar text).Spanned text)
    (hnext : unwrapOnce? grammar text = some next) :
    next.utf8ByteSize < text.utf8ByteSize := by
  unfold unwrapOnce? at hnext
  obtain ⟨t, ht, hnext⟩ := Option.bind_eq_some_iff.mp hnext
  obtain ⟨hmem, hnamespace⟩ := Tree.mem_preorder_of_namespaceIn? ht
  split at hnext
  · next hscope =>
    obtain rfl := Option.some.inj hnext
    exact size_removeSpans_lt (h.valid_headerSpan hmem) (h.header_nonempty t hmem hscope)
  · have hsome : (unwrapNamespace? text t).isSome = true := by simp [hnext]
    obtain ⟨body, hbody, hbraces⟩ := isSome_unwrapNamespace?_iff.mp hsome
    exact (h.wraps hmem hnamespace hbody hbraces).size_lt hnext

/-- What a namespace is like that is not taken out. -/
theorem kind_of_unwrapOnce?_eq_none (h : unwrapOnce? grammar text = none)
    (ht : (grammar text).namespaceIn? = some t) :
    t.kind = "namespace_declaration" ∧
      ∀ body, t.field? "body" = some body → ¬ body.InBraces text := by
  obtain ⟨-, hnamespace⟩ := Tree.mem_preorder_of_namespaceIn? ht
  rw [unwrapOnce?, ht, Option.bind_eq_bind, Option.bind_some] at h
  split at h
  · simp at h
  · next hscope =>
    refine ⟨?_, fun body hbody hbraces => ?_⟩
    · rw [Tree.isNamespace, Bool.or_eq_true, beq_iff_eq] at hnamespace
      exact hnamespace.resolve_right hscope
    · have hsome := isSome_unwrapNamespace?_iff.mpr ⟨body, hbody, hbraces⟩
      simp [h] at hsome

/-! ## Round after round -/

/-- The first text becomes the last one in some rounds, each of which changes it. After them there
is nothing to take out, or taking it out changes nothing. -/
inductive Rounds (grammar : Grammar) : Nat → String → String → Prop where
  | done {text : String} (h : round? grammar text = some none) : Rounds grammar 0 text text
  | same {text : String} (h : round? grammar text = some (some text)) : Rounds grammar 0 text text
  | step {text next last : String} {n : Nat} (h : round? grammar text = some (some next))
      (hne : next ≠ text) (hrest : Rounds grammar n next last) : Rounds grammar (n + 1) text last

/-- With as much fuel as the text has bytes, and more, the rounds come to an end. -/
theorem exists_rounds_unwrapAll (h : ∀ text, (grammar text).Spanned text)
    (hfuel : text.utf8ByteSize < fuel) :
    unwrapOnce? grammar (unwrapAll grammar fuel text) = none ∧
      ∃ n, n + (unwrapAll grammar fuel text).utf8ByteSize ≤ text.utf8ByteSize ∧
        Rounds grammar n text (unwrapAll grammar fuel text) := by
  induction fuel generalizing text with
  | zero => exact absurd hfuel (Nat.not_lt_zero _)
  | succ fuel ih =>
    have hround := round?_eq (h text)
    rw [unwrapAll]
    cases hnext : unwrapOnce? grammar text with
    | none =>
      rw [hnext] at hround
      exact ⟨hnext, 0, by simp, .done hround⟩
    | some next =>
      have hlt := size_lt_of_unwrapOnce? (h text) hnext
      have hne : next ≠ text := by
        rintro rfl
        exact Nat.lt_irrefl _ hlt
      have hfuel : next.utf8ByteSize < fuel := by omega
      obtain ⟨hnone, n, hsize, hrounds⟩ := ih hfuel
      rw [hnext] at hround
      dsimp only
      rw [if_neg hne]
      exact ⟨hnone, n + 1, by omega, .step hround hne hrounds⟩

/-- For a `grammar` whose ranges fit their texts, namespaces are taken out in at most as many rounds
as `text` has bytes. No round reads a range that is not readable. What is left has no namespace at
its top, or one whose body is missing or not in braces. -/
theorem withoutNamespaces_thorough (h : ∀ text, (grammar text).Spanned text) (text : String) :
    (∃ n, n + (withoutNamespaces grammar text).utf8ByteSize ≤ text.utf8ByteSize ∧
        Rounds grammar n text (withoutNamespaces grammar text)) ∧
      ∀ t, (grammar (withoutNamespaces grammar text)).namespaceIn? = some t →
        t.kind = "namespace_declaration" ∧ ∀ body, t.field? "body" = some body →
          ¬ body.InBraces (withoutNamespaces grammar text) := by
  obtain ⟨hnone, hrounds⟩ := exists_rounds_unwrapAll h (Nat.lt_succ_self text.utf8ByteSize)
  exact ⟨hrounds, fun t ht => kind_of_unwrapOnce?_eq_none hnone ht⟩

/-! ## Namespaces in a namespace -/

/-- A well-formed tree without namespaces. -/
theorem Tree.WellFormed.spanned (h : t.WellFormed text)
    (hnone : ∀ n ∈ t.preorder, n.isNamespace = false) : t.Spanned text where
  isSome_slice? n hn := by
    obtain ⟨s, hs⟩ := (h.of_mem hn).exists_slice?
    rw [hs, Option.isSome_some]
  inside n hn c hc := ⟨(h.of_mem hn).start_le hc, (h.of_mem hn).stop_le hc⟩
  header_nonempty n hn hscope := by
    have := hnone n hn
    rw [isNamespace, hscope, Bool.or_true] at this
    exact absurd this Bool.noConfusion
  body_nonempty n hn hnamespace := by
    rw [hnone n hn] at hnamespace
    exact absurd hnamespace Bool.noConfusion

/-- The grammar that finds the trees of the texts in `table` and nothing in the others. -/
def Grammar.ofTrees (table : List (String × Tree)) : Grammar :=
  fun text => (table.lookup text).getD (.ofNodes text [])

theorem Grammar.spanned_ofTrees {table : List (String × Tree)}
    (h : ∀ x ∈ table, x.2.Spanned x.1) (text : String) : (ofTrees table text).Spanned text := by
  rw [ofTrees]
  cases hlookup : table.lookup text with
  | none =>
    refine (Tree.wellFormed_ofNodes_nil text).spanned fun n hn => ?_
    simp only [Tree.ofNodes, List.map_nil, Tree.preorder, Tree.preorderAll,
      List.mem_singleton] at hn
    rw [hn]
    rfl
  | some t =>
    obtain ⟨l, r, rfl, -⟩ := List.lookup_eq_some_iff.mp hlookup
    exact h (text, t) (by simp)

/-- A namespace that contains nothing but a namespace. -/
def nestedText : String := "namespace A \x7b\n\tnamespace B \x7b \x7d\n\x7d\n"

def nestedGrammar : Grammar :=
  .ofTrees [
    (nestedText, .node { kind := "compilation_unit", length := 33 }
      [.ofBlock 0 32 [.ofBlock 15 15 []]]),
    ("namespace B \x7b \x7d\n", .node { kind := "compilation_unit", length := 16 }
      [.ofBlock 0 15 []])]

/-- The inner namespace is moved to the margin when the outer one goes, and goes in the next
round. -/
theorem withoutNamespaces_thorough_nested :
    (∀ text, (nestedGrammar text).Spanned text) ∧
      withoutNamespaces nestedGrammar nestedText = "\n" ∧
      (∃ n, n + 1 ≤ 33 ∧ Rounds nestedGrammar n nestedText "\n") ∧
      ∀ t, (nestedGrammar "\n").namespaceIn? = some t → t.kind = "namespace_declaration" ∧
        ∀ body, t.field? "body" = some body → ¬ body.InBraces "\n" := by
  have hspanned : ∀ text, (nestedGrammar text).Spanned text := by
    refine Grammar.spanned_ofTrees fun x hx => ?_
    simp only [List.mem_cons, List.not_mem_nil, or_false] at hx
    rcases hx with rfl | rfl
    · exact ⟨by decide +kernel, by decide +kernel, by decide +kernel, by decide +kernel⟩
    · exact ⟨by decide +kernel, by decide +kernel, by decide +kernel, by decide +kernel⟩
  have hresult : withoutNamespaces nestedGrammar nestedText = "\n" := by decide +kernel
  have hthorough := withoutNamespaces_thorough hspanned nestedText
  rw [hresult] at hthorough
  exact ⟨hspanned, hresult, hthorough⟩

end CodeAtlas
