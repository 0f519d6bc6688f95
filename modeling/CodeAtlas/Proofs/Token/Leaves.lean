import CodeAtlas.Proofs.Syntax.WellFormed
import CodeAtlas.Syntax.Content
import CodeAtlas.Token.Basic

/-!
# Tokens and leaves

The tokens of a text are the texts of some nodes of its tree: of the leaves, and of the outermost
string literals in place of the leaves inside them. Comments and missing nodes give none. Which
names are declared decides on the kinds and the ordinals of tokens, not on where they stand.

## Main definitions

* `Token.reading`, `Tree.reading`: where a token or a node stands and what it reads.
* `Tree.Lexical`: the trees whose leaves are tokens.
* `Tree.tokenNodes`: the nodes that give the tokens of a tree.
* `Tree.tokenNode`: the node whose token a leaf lies in.

## Main statements

* `Tree.reading_tokensAt`: the tokens of a tree read as the nodes that give them, in order.
* `Tree.pairwise_tokenNodes`: these nodes follow each other.
* `Tree.Within.tokenNode_mem`: a leaf that counts lies in one of them.
* `tokens_cover_leaves`: tokens lie apart, are slices of the text, and cover every leaf once.
-/
namespace CodeAtlas

open Text (slice?)

variable {source text : String}

/-- Where the token `k` starts, how many bytes it has and what it reads. -/
def Token.reading (k : Token) : Nat × Nat × String :=
  (k.start, k.length, k.text)

namespace Tree

variable {t n leaf root : Tree} {above : List Tree}

/-- Where the token of the node `t` starts, how many bytes it has and what it reads. -/
def reading (source : String) (t : Tree) : Nat × Nat × String :=
  (t.start, (t.text source).utf8ByteSize, t.text source)

/-- The tree `t` describes `text`, types and members have parts and numbers have none. -/
structure Lexical (text : String) (t : Tree) : Prop where
  readable : ∀ n ∈ t.preorder, ∃ s, slice? text n.start n.stop = some s
  layered : t.Layered
  opens : ∀ n ∈ t.preorder, n.opensBindings = true → n.children ≠ []
  numeric : ∀ n ∈ t.preorder, n.isNumericLiteral = true → n.children = []

instance (text : String) (t : Tree) : Decidable (t.Lexical text) :=
  decidable_of_iff ((∀ n ∈ t.preorder, (slice? text n.start n.stop).isSome) ∧ t.Layered ∧
      (∀ n ∈ t.preorder, n.opensBindings = true → n.children ≠ []) ∧
      ∀ n ∈ t.preorder, n.isNumericLiteral = true → n.children = [])
    ⟨fun h => ⟨fun n hn => Option.isSome_iff_exists.mp (h.1 n hn), h.2.1, h.2.2.1, h.2.2.2⟩,
      fun h => ⟨fun n hn => Option.isSome_iff_exists.mpr (h.readable n hn), h.layered, h.opens,
        h.numeric⟩⟩

theorem Lexical.child {c : Tree} (h : t.Lexical text) (hc : c ∈ t.children) : c.Lexical text :=
  have hsub {n : Tree} (hn : n ∈ c.preorder) : n ∈ t.preorder :=
    mem_preorder_trans (mem_preorder_of_mem_children hc) hn
  { readable := fun n hn => h.readable n (hsub hn)
    layered := h.layered.child hc
    opens := fun n hn => h.opens n (hsub hn)
    numeric := fun n hn => h.numeric n (hsub hn) }

/-- A readable node has as many bytes as its text. -/
theorem Lexical.text_eq (h : t.Lexical text) (hn : n ∈ t.preorder) :
    slice? text n.start n.stop = some (n.text text) ∧
      n.start + (n.text text).utf8ByteSize = n.stop := by
  obtain ⟨s, hs⟩ := h.readable n hn
  have htext : n.text text = s := Text.slice_eq_of_slice? hs
  rw [htext]
  exact ⟨hs, Text.size_of_slice? hs⟩

theorem Lexical.text_ne_iff (h : t.Lexical text) (hn : n ∈ t.preorder) :
    n.text text ≠ "" ↔ n.start < n.stop := by
  have hsize := (h.text_eq hn).2
  rw [ne_eq, ← String.utf8ByteSize_eq_zero_iff]
  omega

/-! ## The nodes of the tokens -/

mutual

/-- The nodes that give the tokens of a tree of `source`: leaves and string literals with a text,
unless they are trivia or inside trivia or another string literal. -/
def tokenNodes (source : String) : Tree → List Tree
  | node d cs =>
    let t := node d cs
    if t.isTrivia then []
    else if t.isStringLiteral || cs.isEmpty then if (t.text source).isEmpty then [] else [t]
    else tokenNodesIn source cs

/-- The nodes that give the tokens of several trees, one after the other. -/
def tokenNodesIn (source : String) : List Tree → List Tree
  | [] => []
  | c :: cs => tokenNodes source c ++ tokenNodesIn source cs

end

@[simp] theorem mem_tokenNodesIn {cs : List Tree} :
    n ∈ tokenNodesIn source cs ↔ ∃ c ∈ cs, n ∈ c.tokenNodes source := by
  induction cs with
  | nil => simp [tokenNodesIn]
  | cons c cs ih => simp [tokenNodesIn, ih]

/-- A string literal or a leaf gives its own token. -/
theorem tokenNodes_of_whole (htrivia : t.isTrivia = false)
    (hwhole : (t.isStringLiteral || t.isLeaf) = true) :
    t.tokenNodes source = if (t.text source).isEmpty then [] else [t] := by
  obtain ⟨d, cs⟩ := t
  rw [tokenNodes, if_neg (by simp [htrivia])]
  exact if_pos hwhole

/-- Any other node gives those of its children. -/
theorem tokenNodes_of_parts (htrivia : t.isTrivia = false) (hliteral : t.isStringLiteral = false)
    (hleaf : t.isLeaf = false) : t.tokenNodes source = tokenNodesIn source t.children := by
  obtain ⟨d, cs⟩ := t
  have hleaf : cs.isEmpty = false := hleaf
  rw [tokenNodes, if_neg (by simp [htrivia])]
  exact if_neg (by simp [hliteral, hleaf])

theorem text_ne_of_mem_tokenNodes (hn : n ∈ t.tokenNodes source) : n.text source ≠ "" := by
  induction t using childInduction with
  | inherit t ih =>
    obtain ⟨d, cs⟩ := t
    rw [tokenNodes] at hn
    split at hn
    · simp at hn
    split at hn
    · split at hn
      · simp at hn
      · next hne =>
        obtain rfl := List.mem_singleton.mp hn
        simpa using hne
    · obtain ⟨c, hc, hn⟩ := mem_tokenNodesIn.mp hn
      exact ih c hc hn

theorem mem_preorder_of_mem_tokenNodes (hn : n ∈ t.tokenNodes source) :
    n ∈ t.preorder ∧ n.isTrivia = false ∧ (n.isStringLiteral || n.isLeaf) = true := by
  induction t using childInduction with
  | inherit t ih =>
    obtain ⟨d, cs⟩ := t
    rw [tokenNodes] at hn
    split at hn
    · simp at hn
    next htrivia =>
    split at hn
    · next hwhole =>
      split at hn
      · simp at hn
      · obtain rfl := List.mem_singleton.mp hn
        exact ⟨mem_preorder_self _, by simpa using htrivia, hwhole⟩
    · obtain ⟨c, hc, hn⟩ := mem_tokenNodesIn.mp hn
      obtain ⟨hmem, hrest⟩ := ih c hc hn
      exact ⟨mem_preorder_iff.mpr (.inr ⟨c, hc, hmem⟩), hrest⟩

/-! ## Their tokens -/

theorem isStringLiteral_of_opensBindings (h : t.opensBindings = true) :
    t.isStringLiteral = false := by
  refine Bool.eq_false_iff.mpr fun hliteral => ?_
  have hkind : t.kind ∈ ["string_literal", "verbatim_string_literal", "raw_string_literal",
      "character_literal", "interpolated_string_expression"] := by
    simpa [isStringLiteral] using hliteral
  simp only [List.mem_cons, List.not_mem_nil, or_false] at hkind
  rcases hkind with hkind | hkind | hkind | hkind | hkind <;>
    simp [opensBindings, memberKind?, typeKind?, hkind] at h

theorem reading_token (t : Tree) (source : String) (kind : TokenKind) (binding : Option Nat) :
    (t.token source kind binding).map Token.reading =
      (if (t.text source).isEmpty then [] else [t]).map (reading source) := by
  unfold token
  dsimp only
  split <;> rfl

mutual

/-- The tokens of a tree read as the nodes that give them, in order. -/
theorem reading_tokensAt : ∀ {t : Tree} (crumbs : List Crumb) (b : Bindings), t.Lexical text →
    (tokensAt source crumbs b t).2.map Token.reading = (t.tokenNodes source).map (reading source)
  | node d cs, crumbs, b, h => by
    have hparts (b : Bindings) := reading_tokensIn (node d cs) crumbs 0 b fun c hc => h.child hc
    rw [tokensAt]
    split
    · next htrivia =>
      have htrivia : isTrivia (node d cs) = true := by simpa [isTrivia] using htrivia
      rw [tokenNodes, if_pos htrivia]
      rfl
    next htrivia =>
    have htrivia : isTrivia (node d cs) = false := by simpa [isTrivia] using htrivia
    split
    · next hopens =>
      have hleaf : isLeaf (node d cs) = false := by
        simpa [isLeaf] using h.opens _ (mem_preorder_self _) hopens
      rw [tokenNodes_of_parts htrivia (isStringLiteral_of_opensBindings hopens) hleaf]
      exact hparts {}
    split
    · next hliteral =>
      rw [tokenNodes_of_whole htrivia (by simp [hliteral])]
      exact reading_token _ _ _ _
    next hliteral =>
    split
    · next hnumeric =>
      have hleaf : isLeaf (node d cs) = true := by
        simpa [isLeaf] using h.numeric _ (mem_preorder_self _) hnumeric
      rw [tokenNodes_of_whole htrivia (by simp [hleaf])]
      exact reading_token _ _ _ _
    split
    · next hcs =>
      rw [tokenNodes_of_parts htrivia (by simpa using hliteral) (by simpa [isLeaf] using hcs)]
      exact hparts b
    next hcs =>
    have hleaf : isLeaf (node d cs) = true := by simpa [isLeaf] using hcs
    rw [tokenNodes_of_whole htrivia (by simp [hleaf])]
    -- a name may declare something, but its token reads the same
    split
    · split <;> exact reading_token _ _ _ _
    · exact reading_token _ _ _ _

theorem reading_tokensIn : ∀ {cs : List Tree} (parent : Tree) (crumbs : List Crumb) (i : Nat)
    (b : Bindings), (∀ c ∈ cs, c.Lexical text) →
    (tokensIn source parent crumbs i b cs).2.map Token.reading =
      (tokenNodesIn source cs).map (reading source)
  | [], _, _, _, _, _ => rfl
  | c :: cs, parent, crumbs, i, b, h => by
    obtain ⟨hc, hcs⟩ := List.forall_mem_cons.mp h
    have hfirst := reading_tokensAt ((parent, i) :: crumbs) b hc
    have hrest := reading_tokensIn parent crumbs (i + 1)
      (tokensAt source ((parent, i) :: crumbs) b c).1 hcs
    rw [tokenNodesIn, List.map_append, ← hfirst, ← hrest, ← List.map_append]
    rfl

end

/-! ## Where these nodes lie -/

mutual

/-- The nodes that give tokens follow each other. -/
theorem pairwise_tokenNodes : ∀ {t : Tree}, t.Layered → (t.tokenNodes source).Pairwise Precedes
  | node d cs, h => by
    rw [tokenNodes]
    split
    · exact .nil
    split
    · split <;> simp
    · exact pairwise_tokenNodesIn (fun c hc => h.child hc) h.pairwise_children

theorem pairwise_tokenNodesIn : ∀ {cs : List Tree}, (∀ c ∈ cs, c.Layered) →
    cs.Pairwise Precedes → (tokenNodesIn source cs).Pairwise Precedes
  | [], _, _ => .nil
  | c :: cs, h, hord => by
    obtain ⟨hc, hcs⟩ := List.forall_mem_cons.mp h
    obtain ⟨hnext, hord⟩ := List.pairwise_cons.mp hord
    rw [tokenNodesIn, List.pairwise_append]
    refine ⟨pairwise_tokenNodes hc, pairwise_tokenNodesIn hcs hord, fun m hm n hn => ?_⟩
    -- between the two nodes lies the border of two children
    obtain ⟨e, he, hn⟩ := mem_tokenNodesIn.mp hn
    have hm := (hc.start_le_of_mem (mem_preorder_of_mem_tokenNodes hm).1).2
    have hn := ((hcs e he).start_le_of_mem (mem_preorder_of_mem_tokenNodes hn).1).1
    exact Nat.le_trans hm (Nat.le_trans (hnext e he) hn)

end

/-! ## The token of a leaf -/

/-- The node whose token the `leaf` lies in: the outermost string literal around it, else the leaf.
Its ancestors are `above`, nearest first. -/
def tokenNode (leaf : Tree) (above : List Tree) : Tree :=
  (((leaf :: above).filter (·.isStringLiteral)).getLast?).getD leaf

/-- What the node `t` below no trivia and no string literal gives is given by `root`. -/
theorem Within.mem_tokenNodes (h : Within root above t)
    (habove : ∀ u ∈ above, u.isTrivia = false ∧ u.isStringLiteral = false)
    (hn : n ∈ t.tokenNodes source) : n ∈ root.tokenNodes source := by
  induction h with
  | root => exact hn
  | @child above u c _ hc ih =>
    obtain ⟨⟨htrivia, hliteral⟩, habove⟩ := List.forall_mem_cons.mp habove
    have hleaf : u.isLeaf = false := by
      simpa [isLeaf] using List.ne_nil_of_mem hc
    refine ih habove ?_
    rw [tokenNodes_of_parts htrivia hliteral hleaf]
    exact mem_tokenNodesIn.mpr ⟨c, hc, hn⟩

theorem Layered.start_le_of_within (h : root.Layered) (hwithin : Within root above t) {u : Tree}
    (hu : u ∈ t :: above) : u.start ≤ t.start ∧ t.stop ≤ u.stop := by
  induction hwithin with
  | root =>
    obtain rfl : u = root := by simpa using hu
    exact ⟨Nat.le_refl _, Nat.le_refl _⟩
  | @child above v c hv hc ih =>
    rcases List.mem_cons.mp hu with rfl | hu
    · exact ⟨Nat.le_refl _, Nat.le_refl _⟩
    · have hlayered := h.of_mem hv.mem_preorder
      obtain ⟨hstart, hstop⟩ := ih hu
      exact ⟨Nat.le_trans hstart (hlayered.start_le hc), Nat.le_trans (hlayered.stop_le hc) hstop⟩

/-- The outermost string literal around a leaf has none above it, or there is none at all. -/
theorem tokenNode_cases (leaf : Tree) (above : List Tree) :
    (∃ front back, leaf :: above = front ++ tokenNode leaf above :: back ∧
      (tokenNode leaf above).isStringLiteral = true ∧ ∀ u ∈ back, u.isStringLiteral = false) ∨
    tokenNode leaf above = leaf ∧ ∀ u ∈ above, u.isStringLiteral = false := by
  unfold tokenNode
  cases hlast : ((leaf :: above).filter (·.isStringLiteral)).getLast? with
  | none =>
    refine .inr ⟨rfl, fun u hu => ?_⟩
    have hnil := List.filter_eq_nil_iff.mp (List.getLast?_eq_none_iff.mp hlast)
    simpa using hnil u (List.mem_cons_of_mem _ hu)
  | some u =>
    obtain ⟨init, hinit⟩ := List.getLast?_eq_some_iff.mp hlast
    obtain ⟨front, back, hsplit, -, hback⟩ := List.filter_eq_append_iff.mp hinit
    obtain ⟨mid, back, rfl, -, hu, hrest⟩ := List.filter_eq_cons_iff.mp hback
    refine .inl ⟨front ++ mid, back, by simpa using hsplit, hu, fun v hv => ?_⟩
    simpa using List.filter_eq_nil_iff.mp hrest v hv

/-- A leaf with a text that is no trivia and not inside trivia lies in the node that gives its
token. -/
theorem Within.tokenNode_mem (h : Within root above leaf) (hroot : root.Lexical source)
    (hleaf : leaf.isLeaf = true) (htext : leaf.text source ≠ "")
    (htrivia : ∀ u ∈ leaf :: above, u.isTrivia = false) :
    leaf.tokenNode above ∈ root.tokenNodes source ∧
      (leaf.tokenNode above).start ≤ leaf.start ∧ leaf.stop ≤ (leaf.tokenNode above).stop := by
  have hmem : leaf.tokenNode above ∈ leaf :: above := by
    rcases tokenNode_cases leaf above with ⟨front, back, hsplit, -⟩ | ⟨heq, -⟩
    · simp [hsplit]
    · simp [heq]
  have hinside := hroot.layered.start_le_of_within h hmem
  refine ⟨?_, hinside⟩
  rcases tokenNode_cases leaf above with ⟨front, back, hsplit, hliteral, hback⟩ | ⟨heq, habove⟩
  · have hwithin : Within root back (leaf.tokenNode above) := by
      cases front with
      | nil =>
        obtain ⟨heq, rfl⟩ := List.cons.inj hsplit
        rwa [← heq]
      | cons _ front =>
        rw [(List.cons.inj hsplit).2] at h
        exact h.ancestor
    have hwhole : (leaf.tokenNode above).tokenNodes source = _ :=
      tokenNodes_of_whole (htrivia _ hmem) (by rw [hliteral, Bool.true_or])
    refine hwithin.mem_tokenNodes (fun u hu => ⟨htrivia u (by simp [hsplit, hu]), hback u hu⟩) ?_
    -- the literal has a text since the leaf inside it has one
    have hlt := (hroot.text_ne_iff h.mem_preorder).mp htext
    have hne := (hroot.text_ne_iff hwithin.mem_preorder).mpr (by omega)
    rw [hwhole, if_neg (by simpa using hne)]
    exact List.mem_singleton_self _
  · rw [heq]
    refine h.mem_tokenNodes (fun u hu => ⟨htrivia u (by simp [hu]), habove u hu⟩) ?_
    rw [tokenNodes_of_whole (htrivia _ (by simp)) (by simp [hleaf]), if_neg (by simpa using htext)]
    exact List.mem_singleton_self _

/-! ## All tokens -/

namespace Lexical

theorem reading_tokens (h : t.Lexical text) :
    (t.tokens text).map Token.reading = (t.tokenNodes text).map (reading text) :=
  reading_tokensAt [] {} h

/-- Every token is that of a node. -/
theorem exists_node (h : t.Lexical text) {k : Token} (hk : k ∈ t.tokens text) :
    ∃ n ∈ t.tokenNodes text, k.start = n.start ∧ k.stop = n.stop ∧ k.text = n.text text := by
  have hmem := List.mem_map_of_mem (f := Token.reading) hk
  rw [h.reading_tokens] at hmem
  obtain ⟨n, hn, heq⟩ := List.mem_map.mp hmem
  obtain ⟨hstart, hrest⟩ := Prod.mk.inj heq
  obtain ⟨hlength, htext⟩ := Prod.mk.inj hrest
  have hsize := (h.text_eq (mem_preorder_of_mem_tokenNodes hn).1).2
  refine ⟨n, hn, hstart.symm, ?_, htext.symm⟩
  rw [Token.stop, ← hstart, ← hlength, hsize]

/-- And every node that gives a token has one. -/
theorem exists_token (h : t.Lexical text) (hn : n ∈ t.tokenNodes text) :
    ∃ k ∈ t.tokens text, k.start = n.start ∧ k.stop = n.stop := by
  have hmem := List.mem_map_of_mem (f := reading text) hn
  rw [← h.reading_tokens] at hmem
  obtain ⟨k, hk, heq⟩ := List.mem_map.mp hmem
  obtain ⟨hstart, hrest⟩ := Prod.mk.inj heq
  obtain ⟨hlength, -⟩ := Prod.mk.inj hrest
  have hsize := (h.text_eq (mem_preorder_of_mem_tokenNodes hn).1).2
  exact ⟨k, hk, hstart, by rw [Token.stop, hstart, hlength, hsize]⟩

theorem pairwise_tokens (h : t.Lexical text) :
    (t.tokens text).Pairwise fun a b => a.stop ≤ b.start := by
  have hnodes : ((t.tokenNodes text).map (reading text)).Pairwise
      fun a b => a.1 + a.2.1 ≤ b.1 := by
    refine List.pairwise_map.mpr ((pairwise_tokenNodes h.layered).imp_of_mem fun hm _ hle => ?_)
    rwa [reading, (h.text_eq (mem_preorder_of_mem_tokenNodes hm).1).2]
  rw [← h.reading_tokens] at hnodes
  exact List.pairwise_map.mp hnodes

/-- Two tokens that share a byte with a leaf are the same token, if one of them covers it. -/
theorem token_eq (h : t.Lexical text) {k k' : Token} {start stop : Nat}
    (hk : k ∈ t.tokens text) (hk' : k' ∈ t.tokens text) (hstart : k.start ≤ start)
    (hstop : stop ≤ k.stop) (hbefore : k'.start < stop) (hafter : start < k'.stop) : k' = k := by
  obtain ⟨i, hi, rfl⟩ := List.mem_iff_getElem.mp hk
  obtain ⟨j, hj, rfl⟩ := List.mem_iff_getElem.mp hk'
  have hpair := List.pairwise_iff_getElem.mp h.pairwise_tokens
  rcases Nat.lt_trichotomy i j with hlt | rfl | hlt
  · have := hpair i j hi hj hlt
    omega
  · rfl
  · have := hpair j i hj hi hlt
    omega

theorem start_lt_stop (h : t.Lexical text) {k : Token} (hk : k ∈ t.tokens text) :
    k.start < k.stop := by
  obtain ⟨n, hn, hstart, hstop, -⟩ := h.exists_node hk
  rw [hstart, hstop, ← h.text_ne_iff (mem_preorder_of_mem_tokenNodes hn).1]
  exact text_ne_of_mem_tokenNodes hn

end Lexical

end Tree

/-- The tokens of `text` stand one after the other, each reads its slice of the text, which is that
of a leaf or of a string literal, and a `leaf` with a text that does not count as trivia lies in one
token only: that of the outermost string literal around it, else its own. -/
theorem tokens_cover_leaves (grammar : Grammar) (text : String)
    (h : (grammar text).Lexical text) :
    (tokenize grammar text).Pairwise (fun a b => a.start < b.start ∧ a.stop ≤ b.start) ∧
      (∀ k ∈ tokenize grammar text,
        slice? text k.start (k.start + k.length) = some k.text ∧ k.text ≠ "" ∧
          ∃ n ∈ (grammar text).preorder, n.isTrivia = false ∧
            (n.isStringLiteral || n.isLeaf) = true ∧ k.start = n.start ∧ k.stop = n.stop) ∧
      ∀ above leaf, Tree.Within (grammar text) above leaf → leaf.isLeaf = true →
        leaf.text text ≠ "" → (∀ u ∈ leaf :: above, u.isTrivia = false) →
        ∃ k ∈ tokenize grammar text,
          k.start = (leaf.tokenNode above).start ∧ k.stop = (leaf.tokenNode above).stop ∧
            k.start ≤ leaf.start ∧ leaf.stop ≤ k.stop ∧
            ∀ k' ∈ tokenize grammar text, k'.start < leaf.stop → leaf.start < k'.stop → k' = k := by
  refine ⟨?_, fun k hk => ?_, fun above leaf hwithin hleaf htext htrivia => ?_⟩
  · refine h.pairwise_tokens.imp_of_mem fun {a b} ha _ hle => ⟨?_, hle⟩
    have := h.start_lt_stop ha
    omega
  · obtain ⟨n, hn, hstart, hstop, htext⟩ := h.exists_node hk
    obtain ⟨hmem, htrivia, hwhole⟩ := Tree.mem_preorder_of_mem_tokenNodes hn
    refine ⟨?_, ?_, n, hmem, htrivia, hwhole, hstart, hstop⟩
    · change slice? text k.start k.stop = _
      rw [hstart, hstop, htext]
      exact (h.text_eq hmem).1
    · rw [htext]
      exact Tree.text_ne_of_mem_tokenNodes hn
  · obtain ⟨hmem, hinside⟩ := hwithin.tokenNode_mem h hleaf htext htrivia
    obtain ⟨k, hk, hstart, hstop⟩ := h.exists_token hmem
    rw [← hstart, ← hstop] at hinside
    exact ⟨k, hk, hstart, hstop, hinside.1, hinside.2, fun k' hk' hbefore hafter =>
      h.token_eq hk hk' hinside.1 hinside.2 hbefore hafter⟩

/-- The text `$"{"b"}"; // c`, where a string literal stands inside another one. -/
def nestedLiteralText : String :=
  "$\"\x7b\"b\"\x7d\"; // c"

/-- The inner literal of `nestedLiteralText`. -/
def innerLiteral : Tree :=
  .node { kind := "string_literal", start := 3, length := 3 }
    [.ofToken "\"" 3, .node { kind := "string_literal_content", start := 4, length := 1 } [],
      .ofToken "\"" 5]

/-- Its interpolation. -/
def innerInterpolation : Tree :=
  .node { kind := "interpolation", start := 2, length := 5 }
    [.ofToken "\x7b" 2, innerLiteral, .ofToken "\x7d" 6]

/-- The outer literal. -/
def outerLiteral : Tree :=
  .node { kind := "interpolated_string_expression", length := 8 }
    [.ofToken "$\"" 0, innerInterpolation, .ofToken "\"" 7]

/-- The tree of the whole text. -/
def nestedLiteralTree : Tree :=
  .node { kind := "compilation_unit", length := 14 }
    [outerLiteral, .ofToken ";" 8, .node { kind := "comment", start := 10, length := 4 } []]

/-- The content of the inner literal lies in the token of the outer one and in no other. -/
theorem tokens_cover_nestedLiteral :
    nestedLiteralTree.Lexical nestedLiteralText ∧
      ∃ k ∈ tokenize (fun _ => nestedLiteralTree) nestedLiteralText, k.start = 0 ∧ k.stop = 8 ∧
        ∀ k' ∈ tokenize (fun _ => nestedLiteralTree) nestedLiteralText,
          k'.start < 5 → 4 < k'.stop → k' = k := by
  have hlexical : nestedLiteralTree.Lexical nestedLiteralText := by decide +kernel
  refine ⟨hlexical, ?_⟩
  have hwithin : Tree.Within nestedLiteralTree
      [innerLiteral, innerInterpolation, outerLiteral, nestedLiteralTree]
      (.node { kind := "string_literal_content", start := 4, length := 1 } []) :=
    .child (.child (.child (.child .root (by simp [nestedLiteralTree, Tree.children]))
      (by simp [outerLiteral, Tree.children])) (by simp [innerInterpolation, Tree.children]))
      (by simp [innerLiteral, Tree.children])
  obtain ⟨k, hk, hstart, hstop, -, -, honly⟩ :=
    (tokens_cover_leaves (fun _ => nestedLiteralTree) nestedLiteralText hlexical).2.2 _ _ hwithin
      rfl (by decide +kernel) (by decide +kernel)
  exact ⟨k, hk, hstart, hstop, honly⟩

end CodeAtlas
