import CodeAtlas.Proofs.Difference.Report

/-!
# Trees without a difference

The root of the new tree is reported unless its key occurs in the old tree. So an empty comparison
means that the roots have the same key, and hence, if keys are digests that tell contents apart,
that the trees are equal but for comments, missing nodes and layout.

The converse has an exception. Whether a node is a leaf is decided before comments are left out, so
a comment that is put into an empty node changes the content of that node.

## Main statements

* `isEmpty_of_key_eq`, `has_of_isEmpty`: the comparison is empty if the roots have the same key, and
  only if the key of the new root occurs in the old tree.
* `outline_eq_of_isEmpty`: an empty comparison means no change.
* `unchanged_iff_of_outline_eq`: when trees that differ in comments and layout compare as equal.
-/
namespace CodeAtlas

open CodeAtlas.Tree

/-! ## Roots -/

section Roots

variable {κ : Type} [DecidableEq κ] {old new : ComparedTree κ}

theorem isEmpty_compareTrees_iff : (compareTrees old new).isEmpty = true ↔
    (new.tree.newSide old new 0).reported = [] ∧ old.tree.oldSide old new 0 = [] := by
  simp only [TreeComparison.isEmpty, compareTrees, TreeReport.reported, Bool.and_eq_true,
    List.isEmpty_iff, List.map_eq_nil_iff, List.append_eq_nil_iff]
  tauto

theorem Tree.root_mem_visible {t : Tree} (h : t.isTrivia = false) : (0, t) ∈ t.visible := by
  rw [visible, visibleFrom_of_not_isTrivia h]
  exact List.mem_cons_self

@[simp] theorem ComparedTree.has_key_tree (h : new.tree.isTrivia = false) :
    new.has (new.key new.tree) = true :=
  has_iff.mpr ⟨_, root_mem_visible h, rfl⟩

@[simp] theorem Tree.reported_newSide_eq_nil {t : Tree} (h : old.has (new.key t) = true) :
    (t.newSide old new 0).reported = [] := by
  have hreached : reached old new 0 t = [] := by
    obtain ⟨d, cs⟩ := t
    simp [reached, h]
  refine List.eq_nil_iff_forall_not_mem.mpr fun p hp => ?_
  simp [mem_reported_newSide, hreached] at hp

@[simp] theorem Tree.oldSide_eq_nil {t : Tree} (h : new.has (old.key t) = true) :
    t.oldSide old new 0 = [] := by
  obtain ⟨d, cs⟩ := t
  simp [oldSide, h]

/-- Trees whose roots have the same key do not differ. -/
theorem isEmpty_of_key_eq (hold : old.tree.isTrivia = false) (hnew : new.tree.isTrivia = false)
    (h : old.key old.tree = new.key new.tree) : (compareTrees old new).isEmpty = true := by
  refine isEmpty_compareTrees_iff.mpr ⟨reported_newSide_eq_nil ?_, oldSide_eq_nil ?_⟩
  · exact h ▸ ComparedTree.has_key_tree hold
  · exact h ▸ ComparedTree.has_key_tree hnew

/-- A root whose key does not occur in the old tree is reported, as added or as modified. -/
theorem has_of_isEmpty (hnew : new.tree.isTrivia = false) (hnamed : new.tree.named = true)
    (hempty : (compareTrees old new).isEmpty = true) : old.has (new.key new.tree) = true := by
  by_contra hhas
  have hroot : (0, new.tree) ∈ (new.tree.newSide old new 0).reported := by
    rw [mem_reported_newSide, reached_eq hnew, if_neg hhas]
    exact ⟨List.mem_cons_self, hnamed⟩
  simp [(isEmpty_compareTrees_iff.mp hempty).1] at hroot

/-- A root that counts is removed if that of the new tree does not. -/
theorem isTrivia_of_isEmpty (hnew : new.tree.isTrivia = true) (hnamed : old.tree.named = true)
    (hempty : (compareTrees old new).isEmpty = true) : old.tree.isTrivia = true := by
  by_contra hold
  rw [Bool.not_eq_true] at hold
  have hnodes : new.nodes = [] := new.nodes_eq.trans (visibleFrom_of_isTrivia hnew)
  have hhas (k : κ) : new.has k = false := by simp [ComparedTree.has, new.keys_eq, hnodes]
  have hremoved := (isEmpty_compareTrees_iff.mp hempty).2
  cases htree : old.tree with
  | node d cs =>
    rw [htree] at hold hnamed hremoved
    simp [oldSide, hold, hhas, hnodes, counterpart?, hnamed] at hremoved

end Roots

/-! ## Contents -/

variable {hash : List UInt8 → UInt64} {oldSource newSource : String} {old new : Tree}

theorem Tree.eq_or_mem_preorderAll {t : Tree} {p : Nat × Tree} (hp : p ∈ t.visible) :
    p.2 = t ∨ p.2 ∈ preorderAll t.children := by
  cases h : t.isTrivia with
  | true => simp [visible, visibleFrom_of_isTrivia h] at hp
  | false =>
    rw [visible, visibleFrom_of_not_isTrivia h] at hp
    rcases List.mem_cons.mp hp with rfl | hp
    · exact .inl rfl
    · exact .inr (mem_preorderAll_of_mem_visibleAll hp)

/-- The root of the new tree has a kind that only the root of the old tree can have. -/
theorem content_eq_of_isEmpty (hfree : CollisionFree hash oldSource newSource old new)
    (hnew : new.isTrivia = false) (hnamed : new.named = true)
    (hroot : ∀ t ∈ preorderAll old.children, t.kind ≠ new.kind)
    (hempty :
      (compareTrees (.hashed hash oldSource old) (.hashed hash newSource new)).isEmpty = true) :
    old.isTrivia = false ∧ old.content oldSource = new.content newSource := by
  obtain ⟨q, hq, hkey⟩ := ComparedTree.has_iff.mp (has_of_isEmpty hnew hnamed hempty)
  obtain ⟨hkind, hdigest⟩ := Prod.mk.inj hkey
  have hcontent := hfree q hq (0, new) (root_mem_visible hnew) hdigest
  rcases eq_or_mem_preorderAll hq with heq | hbelow
  · rw [heq] at hcontent
    refine ⟨?_, hcontent⟩
    by_contra htrivia
    rw [Bool.not_eq_false] at htrivia
    simp [ComparedTree.hashed, visible, visibleFrom_of_isTrivia htrivia] at hq
  · exact absurd hkind (hroot _ hbelow)

@[simp] theorem Tree.outlines_singleton {source : String} {t : Tree} : outlines source [t] =
    if t.isTrivia then [] else [t.outline source] := by
  simp [outlines]

/-- An empty comparison means that `old` and `new` are equal once comments and missing nodes are
removed. The `hash` must have no collision on what is hashed for the two trees, kinds must have no
marks, roots are named and the kind of the new root occurs in the old tree at most at the root. -/
theorem outline_eq_of_isEmpty
    (hfree : Set.InjOn hash
      {b | b ∈ old.hashedBytes hash oldSource ∨ b ∈ new.hashedBytes hash newSource})
    (holdKinds : ∀ t ∈ old.preorder, PlainKind t.kind)
    (hnewKinds : ∀ t ∈ new.preorder, PlainKind t.kind)
    (hold : old.named = true) (hnew : new.named = true)
    (hroot : ∀ t ∈ preorderAll old.children, t.kind ≠ new.kind) :
    compareTrees (.hashed hash oldSource old) (.hashed hash newSource new) =
      compareTrees (.make oldSource old) (.make newSource new) ∧
    ((compareTrees (.hashed hash oldSource old) (.hashed hash newSource new)).isEmpty = true →
      outlines oldSource [old] = outlines newSource [new]) := by
  have hfree := collisionFree_of_injOn hfree holdKinds hnewKinds
  refine ⟨compareTrees_hashed hfree, fun hempty => ?_⟩
  cases htrivia : new.isTrivia with
  | true =>
    have holdTrivia : old.isTrivia = true := isTrivia_of_isEmpty htrivia hold hempty
    simp [outlines_singleton, holdTrivia, htrivia]
  | false =>
    obtain ⟨holdTrivia, hcontent⟩ := content_eq_of_isEmpty hfree htrivia hnew hroot hempty
    have houtline : old.outline oldSource = new.outline newSource := by
      rw [← outline_content, ← outline_content, hcontent]
    simp [outlines_singleton, holdTrivia, htrivia, houtline]

/-- The tree of `a/**/;b;` with a missing token at the end. -/
def Tree.annotatedStatements : Tree :=
  .node { kind := "compilation_unit", length := 8 }
    [.node { kind := "expression_statement", length := 6 }
      [.node { kind := "identifier", length := 1 } [],
        .node { kind := "comment", start := 1, length := 4 } [], .ofToken ";" 5],
      .ofStatement 6, .node { kind := ";", named := false, missing := true, start := 8 } []]

theorem outline_eq_of_isEmpty_annotatedStatements :
    Set.InjOn fnv {b | b ∈ twoStatements.hashedBytes fnv "a;b;" ∨
      b ∈ annotatedStatements.hashedBytes fnv "a/**/;b;"} ∧
    (∀ t ∈ twoStatements.preorder, PlainKind t.kind) ∧
    (∀ t ∈ annotatedStatements.preorder, PlainKind t.kind) ∧
    (∀ t ∈ preorderAll twoStatements.children, t.kind ≠ annotatedStatements.kind) ∧
    (compareTrees (.hashed fnv "a;b;" twoStatements)
      (.hashed fnv "a/**/;b;" annotatedStatements)).isEmpty = true ∧
    outlines "a;b;" [twoStatements] = outlines "a/**/;b;" [annotatedStatements] := by
  have hinj : ∀ b ∈ twoStatements.hashedBytes fnv "a;b;" ++
      annotatedStatements.hashedBytes fnv "a/**/;b;",
      ∀ c ∈ twoStatements.hashedBytes fnv "a;b;" ++
        annotatedStatements.hashedBytes fnv "a/**/;b;", fnv b = fnv c → b = c := by
    decide +kernel
  have hfree : Set.InjOn fnv {b | b ∈ twoStatements.hashedBytes fnv "a;b;" ∨
      b ∈ annotatedStatements.hashedBytes fnv "a/**/;b;"} :=
    fun b hb c hc => hinj b (List.mem_append.mpr hb) c (List.mem_append.mpr hc)
  have hold : ∀ t ∈ twoStatements.preorder, PlainKind t.kind := by decide +kernel
  have hnew : ∀ t ∈ annotatedStatements.preorder, PlainKind t.kind := by decide +kernel
  have hroot : ∀ t ∈ preorderAll twoStatements.children, t.kind ≠ annotatedStatements.kind := by
    decide +kernel
  have hempty : (compareTrees (.hashed fnv "a;b;" twoStatements)
      (.hashed fnv "a/**/;b;" annotatedStatements)).isEmpty = true := by decide +kernel
  exact ⟨hfree, hold, hnew, hroot, hempty,
    (outline_eq_of_isEmpty hfree hold hnew rfl rfl hroot).2 hempty⟩

/-! ## Comments and layout -/

theorem Tree.map_isLeaf_visible {source : String} {t : Tree} (h : t.isTrivia = false) :
    t.visible.map (·.2.isLeaf) = (t.content source).preorder.map Content.isLeaf := by
  rw [← map_content_visibleFrom (n := 0) h, List.map_map]
  simp [visible, Function.comp_def]

/-- Trees that differ in comments, missing nodes and layout only have the same content if the same
nodes are leaves. -/
theorem content_eq_iff_of_outline_eq (hold : old.isTrivia = false) (hnew : new.isTrivia = false)
    (houtline : old.outline oldSource = new.outline newSource) :
    old.content oldSource = new.content newSource ↔
      old.visible.map (·.2.isLeaf) = new.visible.map (·.2.isLeaf) := by
  rw [Content.eq_iff_outline, outline_content, outline_content, map_isLeaf_visible hold,
    map_isLeaf_visible hnew]
  exact and_iff_right houtline

/-- Of trees `old` and `new` that differ in comments, missing nodes and layout only, the digests are
equal and the comparison is empty if the same nodes are leaves. Where digests tell contents apart,
this is the only case in which the digests are equal, and, if the kind of the root occurs nowhere
else, the only one in which the comparison is empty. -/
theorem unchanged_iff_of_outline_eq (hold : old.isTrivia = false) (hnew : new.isTrivia = false)
    (houtline : old.outline oldSource = new.outline newSource) :
    let sameLeaves := old.visible.map (·.2.isLeaf) = new.visible.map (·.2.isLeaf)
    let difference := fun hash =>
      compareTrees (.hashed hash oldSource old) (.hashed hash newSource new)
    (sameLeaves → ∀ hash, old.digest hash oldSource = new.digest hash newSource ∧
      (difference hash).isEmpty = true) ∧
    ∀ hash, CollisionFree hash oldSource newSource old new →
      difference hash = compareTrees (.make oldSource old) (.make newSource new) ∧
      (old.digest hash oldSource = new.digest hash newSource ↔ sameLeaves) ∧
      (new.named = true → (∀ t ∈ preorderAll old.children, t.kind ≠ new.kind) →
        ((difference hash).isEmpty = true ↔ sameLeaves)) := by
  intro sameLeaves difference
  have hcontent := content_eq_iff_of_outline_eq hold hnew houtline
  have hdigest (hleaves : sameLeaves) (hash : List UInt8 → UInt64) :
      old.digest hash oldSource = new.digest hash newSource := by
    rw [digest_eq, digest_eq, hcontent.mpr hleaves]
  have hempty (hleaves : sameLeaves) (hash : List UInt8 → UInt64) :
      (difference hash).isEmpty = true := by
    have hkind : old.kind = new.kind := by
      rw [← kind_content old, ← kind_content new, hcontent.mpr hleaves]
    exact isEmpty_of_key_eq hold hnew (Prod.ext hkind (hdigest hleaves hash))
  refine ⟨fun hleaves hash => ⟨hdigest hleaves hash, hempty hleaves hash⟩, fun hash hfree => ?_⟩
  refine ⟨compareTrees_hashed hfree, ⟨fun h => hcontent.mp ?_, (hdigest · hash)⟩,
    fun hnamed hroot => ⟨fun h => hcontent.mp ?_, (hempty · hash)⟩⟩
  · exact hfree _ (root_mem_visible hold) _ (root_mem_visible hnew) h
  · exact (content_eq_of_isEmpty hfree hnew hnamed hroot h).2

theorem unchanged_iff_of_outline_eq_annotatedStatements :
    twoStatements.isTrivia = false ∧ annotatedStatements.isTrivia = false ∧
    twoStatements.outline "a;b;" = annotatedStatements.outline "a/**/;b;" ∧
    ∀ hash, twoStatements.digest hash "a;b;" = annotatedStatements.digest hash "a/**/;b;" ∧
      (compareTrees (.hashed hash "a;b;" twoStatements)
        (.hashed hash "a/**/;b;" annotatedStatements)).isEmpty = true := by
  have hold : twoStatements.isTrivia = false := by decide +kernel
  have hnew : annotatedStatements.isTrivia = false := by decide +kernel
  have hcontent : twoStatements.content "a;b;" = annotatedStatements.content "a/**/;b;" := by
    decide +kernel
  have houtline : twoStatements.outline "a;b;" = annotatedStatements.outline "a/**/;b;" := by
    rw [← outline_content, ← outline_content, hcontent]
  exact ⟨hold, hnew, houtline,
    (unchanged_iff_of_outline_eq hold hnew houtline).1 (by decide +kernel)⟩

/-- The tree of an empty file. -/
def Tree.emptyFile : Tree :=
  .node { kind := "compilation_unit" } []

/-- The tree of a file with the comment `// c`. -/
def Tree.commentFile : Tree :=
  .node { kind := "compilation_unit", length := 4 } [.node { kind := "comment", length := 4 } []]

/-- A comment that is written into an empty file changes the digest of its root, and the root is
reported as modified. -/
theorem comment_changes_emptyFile :
    emptyFile.outline "" = commentFile.outline "// c" ∧
    emptyFile.digest fnv "" ≠ commentFile.digest fnv "// c" ∧
    compareTrees (.hashed fnv "" emptyFile) (.hashed fnv "// c" commentFile) =
      compareTrees (.make "" emptyFile) (.make "// c" commentFile) ∧
    compareTrees (.make "" emptyFile) (.make "// c" commentFile) =
      { added := []
        removed := []
        modified := [⟨⟨"compilation_unit", 0, 0, 1, 1, ""⟩,
          ⟨"compilation_unit", 0, 4, 1, 1, "// c"⟩, .internalStructureChanged⟩] } := by
  have htext : emptyFile.text "" = "" := by decide +kernel
  have htrivia : (Tree.node { kind := "comment", length := 4 } []).isTrivia = true := by
    decide +kernel
  refine ⟨?_, by decide +kernel, by decide +kernel, by decide +kernel⟩
  simpa [outline, outlines, emptyFile, commentFile, htrivia] using htext

end CodeAtlas
