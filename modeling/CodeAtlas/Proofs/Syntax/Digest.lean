import CodeAtlas.Proofs.Syntax.Content
import Mathlib.Data.Set.Function

/-!
# Digests of syntax trees

A digest stands for the content of a node. It is the hash of the node's kind, a mark that tells a
childless node from any other, and either its text or the digests of the children that count. The
hash function is arbitrary. If it has no collision on what is hashed for two trees, and no kind
contains a byte that serves as a mark, then digests tell contents apart.

## Main definitions

* `Tree.digest`: the digest of a tree.
* `Tree.hashedBytes`: everything that is hashed for a tree.
* `PlainKind`: kinds without marks.
* `CollisionFree`: digests tell the contents of the nodes of two trees apart.

## Main statements

* `Tree.digest_eq`: a digest depends on the content only.
* `Content.eq_of_digest_eq`, `collisionFree_of_injOn`: when digests tell contents apart.
-/
namespace CodeAtlas

variable {hash : List UInt8 → UInt64} {source : String}

/-! ## Bytes -/

def utf8Bytes (s : String) : List UInt8 :=
  s.toByteArray.data.toList

theorem utf8Bytes_inj {s t : String} (h : utf8Bytes s = utf8Bytes t) : s = t :=
  String.toByteArray_inj.mp (ByteArray.ext (Array.toList_inj.mp h))

/-- The bytes of the word `w`, the lowest first. -/
def littleEndian (w : UInt64) : List UInt8 :=
  [w.toUInt8, (w >>> 8).toUInt8, (w >>> 16).toUInt8, (w >>> 24).toUInt8, (w >>> 32).toUInt8,
    (w >>> 40).toUInt8, (w >>> 48).toUInt8, (w >>> 56).toUInt8]

theorem littleEndian_inj {v w : UInt64} (h : littleEndian v = littleEndian w) : v = w := by
  simp only [littleEndian, List.cons.injEq, ← UInt8.toNat_inj] at h
  simp [Nat.shiftRight_eq_div_pow] at h
  have := v.toNat_lt
  have := w.toNat_lt
  apply UInt64.toNat_inj.mp
  omega

/-- Words of eight bytes each can be cut apart again. -/
theorem flatMap_littleEndian_inj {vs ws : List UInt64}
    (h : vs.flatMap littleEndian = ws.flatMap littleEndian) : vs = ws := by
  induction vs generalizing ws with
  | nil =>
    cases ws with
    | nil => rfl
    | cons w ws => simp [littleEndian] at h
  | cons v vs ih =>
    cases ws with
    | nil => simp [littleEndian] at h
    | cons w ws =>
      rw [List.flatMap_cons, List.flatMap_cons] at h
      obtain ⟨hhead, htail⟩ := List.append_inj h rfl
      rw [littleEndian_inj hhead, ih htail]

/-- The `kind` contains none of the bytes that mark its end. -/
def PlainKind (kind : String) : Prop :=
  ∀ b ∈ utf8Bytes kind, b ≠ 0 ∧ b ≠ 1

instance (kind : String) : Decidable (PlainKind kind) :=
  inferInstanceAs (Decidable (∀ b ∈ utf8Bytes kind, b ≠ 0 ∧ b ≠ 1))

/-- What is hashed for a childless node of this `kind` and `text`. -/
def leafBytes (kind text : String) : List UInt8 :=
  utf8Bytes kind ++ 0 :: utf8Bytes text

/-- What is hashed for a node of this `kind` whose children have the digests `parts`. -/
def branchBytes (kind : String) (parts : List UInt64) : List UInt8 :=
  utf8Bytes kind ++ 1 :: parts.flatMap littleEndian

/-- The first mark tells where a kind ends. -/
theorem append_mark_inj {ks ks' xs ys : List UInt8} {m m' : UInt8}
    (hks : ∀ b ∈ ks, b ≠ 0 ∧ b ≠ 1) (hks' : ∀ b ∈ ks', b ≠ 0 ∧ b ≠ 1) (hm : m = 0 ∨ m = 1)
    (hm' : m' = 0 ∨ m' = 1) (h : ks ++ m :: xs = ks' ++ m' :: ys) :
    ks = ks' ∧ m = m' ∧ xs = ys := by
  induction ks generalizing ks' with
  | nil =>
    cases ks' with
    | nil => simpa using h
    | cons k' ks' =>
      have := hks' k' (by simp)
      simp_all
  | cons k ks ih =>
    cases ks' with
    | nil =>
      have := hks k (by simp)
      simp_all
    | cons k' ks' =>
      rw [List.cons_append, List.cons_append, List.cons.injEq] at h
      obtain ⟨rfl, hmark⟩ := ih (fun b hb => hks b (by simp [hb]))
        (fun b hb => hks' b (by simp [hb])) h.2
      exact ⟨by rw [h.1], hmark⟩

/-! ## Digests of contents -/

namespace Content

mutual

/-- The digest that `hash` gives a content. -/
def digest (hash : List UInt8 → UInt64) : Content → UInt64
  | .leaf k t => hash (leafBytes k t)
  | .branch k ps => hash (branchBytes k (digests hash ps))

def digests (hash : List UInt8 → UInt64) : List Content → List UInt64
  | [] => []
  | c :: cs => digest hash c :: digests hash cs

end

/-- What is given to `hash` for a content. -/
def bytes (hash : List UInt8 → UInt64) : Content → List UInt8
  | .leaf k t => leafBytes k t
  | .branch k ps => branchBytes k (digests hash ps)

theorem digest_eq_hash (c : Content) : c.digest hash = hash (c.bytes hash) := by
  cases c <;> simp [digest, bytes]

/-- What is given to `hash` for each of the contents `cs` is in `s`, and its kind has no marks. -/
def Readable (hash : List UInt8 → UInt64) (s : Set (List UInt8)) (cs : List Content) : Prop :=
  ∀ c ∈ cs, c.bytes hash ∈ s ∧ PlainKind c.kind

-- Equal digests come from equal bytes. These tell the kinds and either the texts or the digests of
-- the parts, to which the induction applies.
mutual

theorem eq_of_digest_eq {s : Set (List UInt8)} (hfree : Set.InjOn hash s) : ∀ {a b : Content},
    Readable hash s a.preorder → Readable hash s b.preorder → a.digest hash = b.digest hash →
    a = b
  | a, b, ha, hb, h => by
    obtain ⟨hbytes, hplain⟩ := ha a (mem_preorder_self a)
    obtain ⟨hbytes', hplain'⟩ := hb b (mem_preorder_self b)
    rw [digest_eq_hash, digest_eq_hash] at h
    have heq := hfree hbytes hbytes' h
    match a, b with
    | .leaf k t, .leaf k' t' =>
      obtain ⟨hk, -, ht⟩ := append_mark_inj hplain hplain' (.inl rfl) (.inl rfl) heq
      have hkind : k = k' := utf8Bytes_inj hk
      rw [hkind, utf8Bytes_inj ht]
    | .leaf k t, .branch k' ps' =>
      obtain ⟨-, hmark, -⟩ := append_mark_inj hplain hplain' (.inl rfl) (.inr rfl) heq
      exact absurd hmark (by decide)
    | .branch k ps, .leaf k' t' =>
      obtain ⟨-, hmark, -⟩ := append_mark_inj hplain hplain' (.inr rfl) (.inl rfl) heq
      exact absurd hmark (by decide)
    | .branch k ps, .branch k' ps' =>
      obtain ⟨hk, -, hps⟩ := append_mark_inj hplain hplain' (.inr rfl) (.inr rfl) heq
      have hkind : k = k' := utf8Bytes_inj hk
      have hparts := eq_of_digests_eq hfree (fun c hc => ha c (List.mem_cons_of_mem _ hc))
        (fun c hc => hb c (List.mem_cons_of_mem _ hc)) (flatMap_littleEndian_inj hps)
      rw [hkind, hparts]

theorem eq_of_digests_eq {s : Set (List UInt8)} (hfree : Set.InjOn hash s) :
    ∀ {as bs : List Content}, Readable hash s (preorderAll as) → Readable hash s (preorderAll bs) →
    digests hash as = digests hash bs → as = bs
  | [], [], _, _, _ => rfl
  | [], _ :: _, _, _, h => by simp [digests] at h
  | _ :: _, [], _, _, h => by simp [digests] at h
  | a :: as, b :: bs, ha, hb, h => by
    simp only [digests, List.cons.injEq] at h
    have hhead := eq_of_digest_eq hfree (fun c hc => ha c (List.mem_append_left _ hc))
      (fun c hc => hb c (List.mem_append_left _ hc)) h.1
    have htail := eq_of_digests_eq hfree (fun c hc => ha c (List.mem_append_right _ hc))
      (fun c hc => hb c (List.mem_append_right _ hc)) h.2
    rw [hhead, htail]

end

end Content

/-! ## Digests of trees -/

namespace Tree

mutual

/-- The digest that `hash` gives a tree of `source`. -/
def digest (hash : List UInt8 → UInt64) (source : String) : Tree → UInt64
  | node d cs =>
    hash (if cs.isEmpty then leafBytes d.kind ((node d cs).text source)
      else branchBytes d.kind (digests hash source cs))

/-- The digests of the trees in a list that count. -/
def digests (hash : List UInt8 → UInt64) (source : String) : List Tree → List UInt64
  | [] => []
  | c :: cs =>
    if c.isTrivia then digests hash source cs
    else digest hash source c :: digests hash source cs

end

mutual

/-- A digest depends on the content only. -/
theorem digest_eq : ∀ t : Tree, t.digest hash source = (t.content source).digest hash
  | node d [] => by simp [digest, content_node, Content.digest]
  | node d (c :: cs) => by
    have hparts := digests_eq (c :: cs)
    simp [digest, content_node, Content.digest, hparts]

theorem digests_eq : ∀ cs : List Tree,
    digests hash source cs = Content.digests hash (contents source cs)
  | [] => by simp [digests, Content.digests]
  | c :: cs => by
    rw [digests, contents_cons]
    split
    · exact digests_eq cs
    · rw [Content.digests, digest_eq c, digests_eq cs]

end

/-- What is given to `hash` for the node `t` of `source`. -/
def bytes (hash : List UInt8 → UInt64) (source : String) (t : Tree) : List UInt8 :=
  if t.isLeaf then leafBytes t.kind (t.text source)
  else branchBytes t.kind (digests hash source t.children)

theorem bytes_eq (t : Tree) : t.bytes hash source = (t.content source).bytes hash := by
  cases t with
  | node d cs =>
    cases cs with
    | nil => rfl
    | cons c cs =>
      have hparts := @digests_eq hash source (c :: cs)
      simp [bytes, content_node, Content.bytes, isLeaf, hparts, kind]

/-- Everything that is given to `hash` for the nodes of `t` that count. -/
def hashedBytes (hash : List UInt8 → UInt64) (source : String) (t : Tree) : List (List UInt8) :=
  t.visible.map fun p => p.2.bytes hash source

theorem readable_content {t : Tree} {p : Nat × Tree} {s : Set (List UInt8)}
    (hbytes : ∀ b ∈ t.hashedBytes hash source, b ∈ s)
    (hkinds : ∀ u ∈ t.preorder, PlainKind u.kind) (hp : p ∈ t.visible) :
    Content.Readable hash s (p.2.content source).preorder := by
  intro c hc
  obtain ⟨q, hq, rfl⟩ := List.mem_map.mp (mem_contents_visible hp hc)
  constructor
  · rw [← bytes_eq]
    exact hbytes _ (List.mem_map_of_mem hq)
  · rw [kind_content]
    exact hkinds _ (mem_preorder_of_mem_visibleFrom hq)

end Tree

/-! ## Collisions -/

/-- The digests tell the contents of the nodes of `old` and `new` apart. -/
def CollisionFree (hash : List UInt8 → UInt64) (oldSource newSource : String) (old new : Tree) :
    Prop :=
  ∀ q ∈ old.visible, ∀ p ∈ new.visible,
    q.2.digest hash oldSource = p.2.digest hash newSource →
      q.2.content oldSource = p.2.content newSource

variable {oldSource newSource : String} {old new : Tree}

theorem CollisionFree.symm (h : CollisionFree hash oldSource newSource old new) :
    CollisionFree hash newSource oldSource new old :=
  fun p hp q hq heq => (h q hq p hp heq.symm).symm

/-- It is enough that `hash` has no collision on what is hashed for `old` and `new`, and that their
kinds have no marks. -/
theorem collisionFree_of_injOn
    (hfree : Set.InjOn hash
      {b | b ∈ old.hashedBytes hash oldSource ∨ b ∈ new.hashedBytes hash newSource})
    (hold : ∀ u ∈ old.preorder, PlainKind u.kind) (hnew : ∀ u ∈ new.preorder, PlainKind u.kind) :
    CollisionFree hash oldSource newSource old new := by
  intro q hq p hp h
  rw [Tree.digest_eq, Tree.digest_eq] at h
  exact Content.eq_of_digest_eq hfree (Tree.readable_content (fun b => .inl) hold hq)
    (Tree.readable_content (fun b => .inr) hnew hp) h

/-- The hash of `bytes` by a function to compute with. -/
def fnv (bytes : List UInt8) : UInt64 :=
  bytes.foldl (fun h b => (h ^^^ b.toUInt64) * 0x100000001b3) 0xcbf29ce484222325

end CodeAtlas
