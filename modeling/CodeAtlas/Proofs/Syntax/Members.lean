import CodeAtlas.Member
import CodeAtlas.Proofs.Syntax.WellFormed

/-!
# Where the members of a text lie

In a well-formed tree the members follow each other, each together with the comments directly in
front of it. A run of comments ends at the first sibling that is no comment, and a comment has no
members of its own, so it never reaches back over another member.

## Main definitions

* `Member.comments`: the comments directly in front of a member.
* `Member.Placed`: a member that lies in a range with its comments.

## Main statements

* `Tree.placed_of_mem_members`: the members of a node lie in it.
* `Tree.pairwise_members`: members follow each other.
-/
namespace CodeAtlas

variable {text source : String} {containers : List String} {preceding : List Tree} {lo hi : Nat}

namespace Member

/-- The comments directly in front of `m`, nearest first. -/
def comments (m : Member) : List Tree :=
  m.preceding.takeWhile (·.kind == "comment")

/-- The member `m` and the comments in front of it lie in the range of `text` from `lo` to `hi`. -/
structure Placed (text : String) (lo hi : Nat) (m : Member) : Prop where
  isMember : m.tree.memberKind?.isSome
  wellFormed : m.tree.WellFormed text
  lo_le : lo ≤ m.start
  le_hi : m.stop ≤ hi
  comment : ∀ c ∈ m.comments, c.WellFormed text ∧ lo ≤ c.start ∧ c.stop ≤ m.start

theorem start_le_stop (m : Member) : m.start ≤ m.stop :=
  m.tree.start_le_stop

theorem startWithComments_eq (m : Member) :
    m.startWithComments = m.start ∨ ∃ c ∈ m.comments, m.startWithComments = c.start := by
  unfold startWithComments leadingComment?
  cases h : (m.preceding.takeWhile (·.kind == "comment")).getLast? with
  | none => exact .inl rfl
  | some c => exact .inr ⟨c, List.mem_of_getLast? h, rfl⟩

@[grind →] theorem Placed.lo_le_startWithComments {m : Member} (h : m.Placed text lo hi) :
    lo ≤ m.startWithComments := by
  obtain heq | ⟨c, hc, heq⟩ := m.startWithComments_eq <;> rw [heq]
  · exact h.lo_le
  · exact (h.comment c hc).2.1

@[grind →] theorem Placed.isBoundary_startWithComments {m : Member} (h : m.Placed text lo hi) :
    Text.IsBoundary text m.startWithComments := by
  obtain heq | ⟨c, hc, heq⟩ := m.startWithComments_eq <;> rw [heq]
  · exact h.wellFormed.isBoundary_start
  · exact (h.comment c hc).1.isBoundary_start

@[grind →] theorem Placed.startWithComments_le {m : Member} (h : m.Placed text lo hi) :
    m.startWithComments ≤ m.start := by
  obtain heq | ⟨c, hc, heq⟩ := m.startWithComments_eq
  · exact Nat.le_of_eq heq
  · rw [heq]
    exact Nat.le_trans c.start_le_stop (h.comment c hc).2.2

end Member

namespace Tree

/-! ## Members among siblings -/

theorem member?_eq_some {t : Tree} {kind : MemberKind} {m : Member}
    (h : t.member? source containers preceding kind = some m) :
    m.tree = t ∧ m.kind = kind ∧ m.containers = containers ∧ m.preceding = preceding := by
  unfold member? at h
  split at h
  · simp at h
  · split at h
    · cases h
      exact ⟨rfl, rfl, rfl, rfl⟩
    · simp at h

/-- A node that is no member has the members of its children. -/
theorem exists_membersAt_eq {t : Tree} (h : t.memberKind? = none) :
    ∃ inner, membersAt source containers preceding t = membersIn source inner [] t.children := by
  cases t with
  | node d cs => exact ⟨_, by rw [membersAt]; simp only [h]; rfl⟩

theorem membersAt_leaf {t : Tree} (h : t.memberKind? = none) (hleaf : t.children = []) :
    membersAt source containers preceding t = [] := by
  obtain ⟨inner, hinner⟩ := exists_membersAt_eq h
  rw [hinner, hleaf, membersIn]

@[simp] theorem membersIn_append (xs ys : List Tree) :
    membersIn source containers preceding (xs ++ ys) =
      membersIn source containers preceding xs ++
        membersIn source containers (xs.reverse ++ preceding) ys := by
  induction xs generalizing preceding with
  | nil => simp [membersIn]
  | cons x xs ih => simp [membersIn, ih]

mutual

/-- A member is declared by a node of the tree. -/
@[grind →] theorem tree_mem_of_mem_membersAt {m : Member} : ∀ {t : Tree} {containers : List String}
    {preceding : List Tree}, m ∈ membersAt source containers preceding t → m.tree ∈ t.preorder
  | node d cs, containers, preceding, hm => by
    rw [membersAt] at hm
    split at hm
    · obtain ⟨htree, -⟩ := member?_eq_some (Option.mem_toList.mp hm)
      rw [htree]
      exact mem_preorder_self _
    · exact List.mem_cons_of_mem _ (tree_mem_of_mem_membersIn hm)

@[grind →]
theorem tree_mem_of_mem_membersIn {m : Member} : ∀ {cs : List Tree} {containers : List String}
    {preceding : List Tree}, m ∈ membersIn source containers preceding cs →
    m.tree ∈ preorderAll cs
  | [], _, _, hm => by simp [membersIn] at hm
  | c :: cs, containers, preceding, hm => by
    rw [membersIn, List.mem_append] at hm
    rw [preorderAll, List.mem_append]
    rcases hm with hm | hm
    · split at hm
      · exact .inl (tree_mem_of_mem_membersAt hm)
      · simp at hm
    · exact .inr (tree_mem_of_mem_membersIn hm)

end

/-- The `preceding` siblings of a node at `start`, as far as they are comments, lie between `lo` and
the node. -/
def CommentsPlaced (text : String) (lo : Nat) (preceding : List Tree) (start : Nat) : Prop :=
  ∀ c ∈ preceding.takeWhile (·.kind == "comment"),
    c.WellFormed text ∧ lo ≤ c.start ∧ c.stop ≤ start

theorem commentsPlaced_nil (start : Nat) : CommentsPlaced text lo [] start := by
  simp [CommentsPlaced]

/-- Going one sibling further, that sibling may continue the run of comments or end it. -/
theorem CommentsPlaced.cons {c : Tree} {start : Nat}
    (h : CommentsPlaced text lo preceding c.start) (hc : c.WellFormed text) (hlo : lo ≤ c.start)
    (hstart : c.stop ≤ start) : CommentsPlaced text lo (c :: preceding) start := by
  intro x hx
  rw [List.takeWhile_cons] at hx
  split at hx
  · rcases List.mem_cons.mp hx with rfl | hx
    · exact ⟨hc, hlo, hstart⟩
    · obtain ⟨hwf, hlo, hstop⟩ := h x hx
      have := c.start_le_stop
      exact ⟨hwf, hlo, by omega⟩
  · simp at hx

mutual

/-- The members in a node lie in the node. -/
theorem placed_of_mem_membersAt {m : Member} : ∀ {t : Tree} {containers : List String}
    {preceding : List Tree}, t.WellFormed text → lo ≤ t.start → t.stop ≤ hi →
    CommentsPlaced text lo preceding t.start → m ∈ membersAt source containers preceding t →
    m.Placed text lo hi
  | node d cs, containers, preceding, hwf, hlo, hhi, hpre, hm => by
    rw [membersAt] at hm
    split at hm
    · next kind hkind =>
      obtain ⟨htree, -, -, hprec⟩ := member?_eq_some (Option.mem_toList.mp hm)
      refine ⟨?_, ?_, ?_, ?_, ?_⟩ <;> simp only [Member.start, Member.stop, htree]
      · simp [hkind]
      · exact hwf
      · exact hlo
      · exact hhi
      · rw [Member.comments, hprec]
        exact hpre
    · have hchild : ∀ c ∈ cs, c.WellFormed text ∧ lo ≤ c.start ∧ c.stop ≤ hi := by
        intro c hc
        exact ⟨hwf.child hc, Nat.le_trans hlo (hwf.start_le hc), Nat.le_trans (hwf.stop_le hc) hhi⟩
      exact placed_of_mem_membersIn hchild hwf.pairwise_children
        (fun c _ => commentsPlaced_nil c.start) hm

/-- The members among some siblings lie where the siblings do, or in the comments before them. -/
theorem placed_of_mem_membersIn {m : Member} : ∀ {cs : List Tree} {containers : List String}
    {preceding : List Tree},
    (∀ c ∈ cs, c.WellFormed text ∧ lo ≤ c.start ∧ c.stop ≤ hi) → cs.Pairwise Precedes →
    (∀ c ∈ cs, CommentsPlaced text lo preceding c.start) →
    m ∈ membersIn source containers preceding cs → m.Placed text lo hi
  | [], _, _, _, _, _, hm => by simp [membersIn] at hm
  | c :: cs, containers, preceding, hwf, hord, hpre, hm => by
    obtain ⟨⟨hc, hlo, hhi⟩, hwf⟩ := List.forall_mem_cons.mp hwf
    obtain ⟨hnext, hord⟩ := List.pairwise_cons.mp hord
    obtain ⟨hprec, -⟩ := List.forall_mem_cons.mp hpre
    rw [membersIn, List.mem_append] at hm
    rcases hm with hm | hm
    · split at hm
      · exact placed_of_mem_membersAt hc hlo hhi hprec hm
      · simp at hm
    · refine placed_of_mem_membersIn hwf hord (fun d hd => ?_) hm
      exact hprec.cons hc hlo (hnext d hd)

end

theorem placed_of_mem_members {t : Tree} {m : Member} (h : t.WellFormed text)
    (hm : m ∈ t.members source) : m.Placed text t.start t.stop :=
  placed_of_mem_membersAt h (Nat.le_refl _) (Nat.le_refl _) (commentsPlaced_nil _) hm

/-! ## The order of members -/

/-- A comment has no members. -/
theorem membersAt_comment {t : Tree} (h : t.WellFormed text) (hkind : t.kind = "comment") :
    membersAt source containers preceding t = [] := by
  refine membersAt_leaf ?_ (h.comment_leaf t (mem_preorder_self t) hkind)
  simp [memberKind?, hkind]

/-- The members among some siblings end before what follows the siblings. -/
theorem placed_before {front back : List Tree} {c : Tree} {m : Member}
    (hwf : ∀ d ∈ front, d.WellFormed text) (hord : (front ++ c :: back).Pairwise Precedes)
    (hm : m ∈ membersIn source containers [] front) : m.Placed text 0 c.start := by
  obtain ⟨hfront, -, hnext⟩ := List.pairwise_append.mp hord
  refine placed_of_mem_membersIn (fun d hd => ?_) hfront (fun d _ => commentsPlaced_nil _) hm
  exact ⟨hwf d hd, Nat.zero_le _, hnext d hd c List.mem_cons_self⟩

/-- What follows a node other than a comment starts after it, comments included: a run of comments
ends at the node. -/
theorem placed_after {c : Tree} {cs : List Tree} {m : Member} (hcomment : c.kind ≠ "comment")
    (hwf : ∀ d ∈ cs, d.WellFormed text) (hord : (c :: cs).Pairwise Precedes)
    (hm : m ∈ membersIn source containers (c :: preceding) cs) :
    m.Placed text c.stop text.utf8ByteSize := by
  obtain ⟨hnext, hord⟩ := List.pairwise_cons.mp hord
  refine placed_of_mem_membersIn (fun d hd => ?_) hord (fun d _ x hx => ?_) hm
  · exact ⟨hwf d hd, hnext d hd, (hwf d hd).isBoundary_stop.le⟩
  · simp [hcomment] at hx

-- Among siblings, a member ends before the next sibling starts, and the comments of a later member
-- do not reach back over it, since it is no comment itself.
mutual

theorem pairwise_membersAt : ∀ {t : Tree} {containers : List String} {preceding : List Tree},
    t.WellFormed text →
    (membersAt source containers preceding t).Pairwise fun a b => a.stop ≤ b.startWithComments
  | node d cs, containers, preceding, hwf => by
    rw [membersAt]
    split
    · next kind _ => cases (node d cs).member? source containers preceding kind <;> simp
    · exact pairwise_membersIn (fun c hc => hwf.child hc) hwf.pairwise_children
        fun c _ => commentsPlaced_nil c.start

theorem pairwise_membersIn : ∀ {cs : List Tree} {containers : List String}
    {preceding : List Tree}, (∀ c ∈ cs, c.WellFormed text) → cs.Pairwise Precedes →
    (∀ c ∈ cs, CommentsPlaced text 0 preceding c.start) →
    (membersIn source containers preceding cs).Pairwise fun a b => a.stop ≤ b.startWithComments
  | [], _, _, _, _, _ => by simp [membersIn]
  | c :: cs, containers, preceding, hwf, hord, hpre => by
    obtain ⟨hc, hwf⟩ := List.forall_mem_cons.mp hwf
    obtain ⟨hnext, hord'⟩ := List.pairwise_cons.mp hord
    obtain ⟨hprec, -⟩ := List.forall_mem_cons.mp hpre
    rw [membersIn, List.pairwise_append]
    refine ⟨?_, pairwise_membersIn hwf hord' fun d hd => ?_, ?_⟩
    · split
      · exact pairwise_membersAt hc
      · exact .nil
    · exact hprec.cons hc (Nat.zero_le _) (hnext d hd)
    · intro a ha b hb
      split at ha
      · have hcomment : c.kind ≠ "comment" := by
          intro hkind
          simp [membersAt_comment hc hkind] at ha
        have ha := placed_of_mem_membersAt hc (Nat.zero_le _) (Nat.le_refl _) hprec ha
        have hb := placed_after hcomment hwf hord hb
        exact Nat.le_trans ha.le_hi hb.lo_le_startWithComments
      · simp at ha

end

/-- The members of a well-formed tree follow each other, each with its comments. -/
theorem pairwise_members {t : Tree} (h : t.WellFormed text) :
    (t.members source).Pairwise fun a b => a.stop ≤ b.startWithComments :=
  pairwise_membersAt h

end Tree

end CodeAtlas
