import CodeAtlas.Proofs.Cleanup.Passes
import CodeAtlas.Proofs.Text.Segment
import Mathlib.Data.List.SplitBy

/-!
# Runs of blank lines

The lines of a text fall into blocks: maximal runs of blank lines and what stands between them.
Shortening acts on the blocks one by one. A run of three or more blank lines becomes two empty
lines and every other block stays as it is, so the blocks of the result are the shortened ones, and
shortening them again changes nothing.

Read from the front, the result is what the leftmost and longest matches of three or more blank
lines leave when each of them is replaced by two line feeds.

## Main definitions

* `blocks`: the blocks of a list of lines.
* `shortenBlock`, `shortened`: what becomes of a block, and of all blocks.
* `Replaced`: replacing the leftmost longest runs of blank lines.

## Main statements

* `shortenRuns_eq_shortened`: shortening acts on the blocks.
* `blocks_flatten_map_shortenBlock`: the shortened blocks are the blocks of the result.
* `replaced_iff`: the result is what replacing the runs from the left gives.
* `shortenBlankRuns_normalizes`: what is left of the lines of a text.
-/
namespace CodeAtlas

open Text

variable {seg : List Char} {segs run block : List (List Char)}

/-! ## Blocks -/

/-- The lines `a` and `b` are both blank, or neither is. -/
def alike (a b : List Char) : Bool :=
  isBlankSegment a == isBlankSegment b

/-- The maximal runs of blank lines and of other lines in `segs`. -/
def blocks (segs : List (List Char)) : List (List (List Char)) :=
  segs.splitBy alike

/-- Of three or more blank lines in `block` two empty ones are left. -/
def shortenBlock (block : List (List Char)) : List (List Char) :=
  if block.all isBlankSegment && 2 < block.length then [['\n'], ['\n']] else block

theorem isChain_alike_iff : block.IsChain (fun a b => alike a b = true) ↔
    ∃ b, ∀ seg ∈ block, isBlankSegment seg = b := by
  constructor
  · intro h
    induction block with
    | nil => exact ⟨true, by simp⟩
    | cons seg block ih =>
      obtain ⟨b, hb⟩ := ih h.tail
      refine ⟨isBlankSegment seg, List.forall_mem_cons.mpr ⟨rfl, fun s hs => ?_⟩⟩
      cases block with
      | nil => simp at hs
      | cons next block =>
        have hnext : isBlankSegment seg = isBlankSegment next := by
          simpa [alike] using (List.isChain_cons_cons.mp h).1
        rw [hb s hs, hnext, hb next (by simp)]
  · rintro ⟨b, hb⟩
    refine List.Pairwise.isChain (List.pairwise_of_forall_mem_list fun a ha c hc => ?_)
    simp [alike, hb a ha, hb c hc]

@[simp] theorem shortenBlock_of_blank (h : ∀ seg ∈ run, isBlankSegment seg = true) :
    shortenBlock run = writeRun run := by
  rw [shortenBlock, writeRun, List.all_eq_true.mpr h, Bool.true_and]
  by_cases hlength : run.length < 3
  · rw [if_pos hlength, if_neg (by simp; omega)]
  · rw [if_neg hlength, if_pos (by simp; omega)]

theorem shortenBlock_of_not_blank (hseg : seg ∈ block) (h : isBlankSegment seg = false) :
    shortenBlock block = block := by
  have hall : block.all isBlankSegment = false :=
    List.all_eq_false.mpr ⟨seg, hseg, by simp [h]⟩
  rw [shortenBlock, hall, Bool.false_and]
  rfl

theorem shortenBlock_ne_nil (h : block ≠ []) : shortenBlock block ≠ [] := by
  unfold shortenBlock
  split
  · simp
  · exact h

@[simp] theorem shortenBlock_shortenBlock (block : List (List Char)) :
    shortenBlock (shortenBlock block) = shortenBlock block := by
  by_cases h : (block.all isBlankSegment && 2 < block.length) = true
  · have hshort : shortenBlock block = [['\n'], ['\n']] := if_pos h
    rw [hshort]
    rfl
  · have hsame : shortenBlock block = block := if_neg h
    rw [hsame, hsame]

/-- At its ends a block is as blank as before. -/
theorem isBlankSegment_ends_shortenBlock (h : block ≠ []) (h' : shortenBlock block ≠ []) :
    isBlankSegment ((shortenBlock block).head h') = isBlankSegment (block.head h) ∧
      isBlankSegment ((shortenBlock block).getLast h') = isBlankSegment (block.getLast h) := by
  by_cases hlong : (block.all isBlankSegment && 2 < block.length) = true
  · have hall := List.all_eq_true.mp (Bool.and_eq_true_iff.mp hlong).1
    have hshort : shortenBlock block = [['\n'], ['\n']] := if_pos hlong
    have hempty : isBlankSegment ['\n'] = true := rfl
    simp [hshort, hempty, hall _ (List.head_mem h), hall _ (List.getLast_mem h)]
  · have hsame : shortenBlock block = block := if_neg hlong
    simp only [hsame, and_self]

/-- The blocks that are left are the blocks of what is left. -/
@[simp] theorem blocks_flatten_map_shortenBlock (segs : List (List Char)) :
    blocks ((blocks segs).map shortenBlock).flatten = (blocks segs).map shortenBlock := by
  refine List.splitBy_flatten ?_ ?_ ?_
  · intro hmem
    obtain ⟨block, hblock, hnil⟩ := List.mem_map.mp hmem
    exact shortenBlock_ne_nil (List.ne_nil_of_mem_splitBy hblock) hnil
  · intro short hmem
    obtain ⟨block, hblock, rfl⟩ := List.mem_map.mp hmem
    unfold shortenBlock
    split
    · simp [alike]
    · exact List.isChain_of_mem_splitBy hblock
  · rw [List.isChain_map]
    refine (List.isChain_getLast_head_splitBy alike segs).imp fun a b hab => ?_
    obtain ⟨ha, hb, hdiffer⟩ := hab
    refine ⟨shortenBlock_ne_nil ha, shortenBlock_ne_nil hb, ?_⟩
    rwa [alike, (isBlankSegment_ends_shortenBlock ha _).2,
      (isBlankSegment_ends_shortenBlock hb _).1]

/-! ## Shortening block by block -/

/-- The lines that are left of the blocks of `segs`. -/
def shortened (segs : List (List Char)) : List (List Char) :=
  ((blocks segs).map shortenBlock).flatten

/-- Blocks do not reach from a line to one that is not like it. -/
theorem shortened_append {l m : List (List Char)}
    (h : ∀ x ∈ l.getLast?, ∀ y ∈ m.head?, alike x y = false) :
    shortened (l ++ m) = shortened l ++ shortened m := by
  rw [shortened, blocks, List.splitBy_append h, List.map_append, List.flatten_append]
  rfl

@[simp] theorem shortened_of_blank (h : ∀ seg ∈ run, isBlankSegment seg = true) :
    shortened run = writeRun run := by
  cases hrun : run with
  | nil => rfl
  | cons first rest =>
    rw [← hrun, shortened, blocks,
      List.splitBy_of_isChain (by simp [hrun]) (isChain_alike_iff.mpr ⟨true, h⟩)]
    simp [shortenBlock_of_blank h]

@[simp] theorem shortened_of_not_blank {l : List (List Char)}
    (h : ∀ seg ∈ l, isBlankSegment seg = false) : shortened l = l := by
  cases hl : l with
  | nil => rfl
  | cons first rest =>
    have hfirst : first ∈ l := by simp [hl]
    rw [← hl, shortened, blocks,
      List.splitBy_of_isChain (by simp [hl]) (isChain_alike_iff.mpr ⟨false, h⟩)]
    simp [shortenBlock_of_not_blank hfirst (h first hfirst)]

/-- A line that is not blank stays, and the others are shortened as they would be without it. -/
@[simp] theorem shortened_cons (h : isBlankSegment seg = false) (segs : List (List Char)) :
    shortened (seg :: segs) = seg :: shortened segs := by
  -- the lines up to the next run of blank ones
  have hsplit := List.takeWhile_append_dropWhile (p := (!isBlankSegment ·)) (l := segs)
  have hfront (s : List Char) (hs : s ∈ segs.takeWhile (!isBlankSegment ·)) :
      isBlankSegment s = false := by simpa using List.mem_takeWhile_imp hs
  have hback (s : List Char) (hs : s ∈ (segs.dropWhile (!isBlankSegment ·)).head?) :
      isBlankSegment s = true := by
    have := List.head?_dropWhile_not (!isBlankSegment ·) segs
    rw [hs] at this
    simpa using this
  generalize segs.takeWhile (!isBlankSegment ·) = front at *
  generalize segs.dropWhile (!isBlankSegment ·) = back at *
  subst hsplit
  have happend {l : List (List Char)} (hl : ∀ s ∈ l, isBlankSegment s = false) :
      shortened (l ++ back) = l ++ shortened back := by
    rw [shortened_append, shortened_of_not_blank hl]
    intro x hx y hy
    simp [alike, hl x (List.mem_of_getLast? hx), hback y hy]
  rw [happend hfront, ← List.cons_append, happend (List.forall_mem_cons.mpr ⟨h, hfront⟩),
    List.cons_append]

/-- Shortening acts on the blocks. -/
theorem shortenRuns_eq_shortened (h : ∀ seg ∈ run, isBlankSegment seg = true) :
    shortenRuns run segs = shortened (run ++ segs) := by
  induction segs generalizing run with
  | nil => rw [List.append_nil, shortened_of_blank h, shortenRuns]
  | cons seg segs ih =>
    rw [shortenRuns]
    split
    · next hseg =>
      rw [ih (List.forall_mem_append.mpr ⟨h, by simpa using hseg⟩), List.append_assoc]
      rfl
    · next hseg =>
      have hseg : isBlankSegment seg = false := by simpa using hseg
      have hsplit : shortened (run ++ seg :: segs) = shortened run ++ shortened (seg :: segs) := by
        refine shortened_append fun x hx y hy => ?_
        obtain rfl : seg = y := by simpa using hy
        simp [alike, h x (List.mem_of_getLast? hx), hseg]
      rw [hsplit, ih (by simp), shortened_of_blank h, shortened_cons hseg, List.nil_append]

/-- The lines that are not blank are left. -/
@[simp] theorem filter_shortened (segs : List (List Char)) :
    (shortened segs).filter (!isBlankSegment ·) = segs.filter (!isBlankSegment ·) := by
  have hblock (block : List (List Char)) : (shortenBlock block).filter (!isBlankSegment ·) =
      block.filter (!isBlankSegment ·) := by
    unfold shortenBlock
    split
    · next h =>
      have hall := List.all_eq_true.mp (Bool.and_eq_true_iff.mp h).1
      exact (List.filter_eq_nil_iff.mpr fun s hs => by simp [hall s hs]).symm
    · rfl
  calc (shortened segs).filter (!isBlankSegment ·)
      = ((blocks segs).map fun block =>
          (shortenBlock block).filter (!isBlankSegment ·)).flatten := by
        rw [shortened, List.filter_flatten, List.map_map]
        rfl
    _ = ((blocks segs).map fun block => block.filter (!isBlankSegment ·)).flatten := by
        simp only [hblock]
    _ = segs.filter (!isBlankSegment ·) := by
        rw [← List.filter_flatten, blocks, List.flatten_splitBy]

/-! ## No three blank lines in a row -/

/-- What does not have an element is on one side of it. -/
theorem infix_of_infix_append_cons {α : Type*} {x : α} {l a b : List α} (hx : x ∉ l)
    (h : l <:+: a ++ x :: b) : l <:+: a ∨ l <:+: b := by
  obtain ⟨front, back, heq⟩ := h
  rw [List.append_assoc] at heq
  rcases List.append_eq_append_iff.mp heq with ⟨c, rfl, hc⟩ | ⟨c, rfl, hc⟩
  · rcases List.append_eq_append_iff.mp hc with ⟨d, rfl, -⟩ | ⟨d, rfl, hd⟩
    · exact .inl ⟨front, d, by simp⟩
    · cases d with
      | nil => exact .inl ⟨front, [], by simp⟩
      | cons y d =>
        obtain rfl : x = y := (List.cons.inj hd).1
        exact absurd (by simp) hx
  · cases c with
    | nil =>
      cases l with
      | nil => exact .inl ⟨[], _, rfl⟩
      | cons y l =>
        obtain rfl : x = y := (List.cons.inj hc).1
        exact absurd (by simp) hx
    | cons y c =>
      obtain ⟨-, rfl⟩ := List.cons.inj hc
      exact .inr ⟨c, back, by simp⟩

theorem not_infix_shortenRuns {a b c : List Char} (ha : isBlankSegment a = true)
    (hb : isBlankSegment b = true) (hc : isBlankSegment c = true) (run segs : List (List Char)) :
    ¬ [a, b, c] <:+: shortenRuns run segs := by
  have hrun (run : List (List Char)) : ¬ [a, b, c] <:+: writeRun run := by
    intro h
    have hlength := h.length_le
    unfold writeRun at hlength
    split at hlength
    · simp at hlength
      omega
    · simp at hlength
  induction segs generalizing run with
  | nil => exact hrun run
  | cons seg segs ih =>
    rw [shortenRuns]
    split
    · exact ih _
    · next hseg =>
      intro h
      have hmem : seg ∉ [a, b, c] := by
        intro hmem
        simp only [List.mem_cons, List.not_mem_nil, or_false] at hmem
        rcases hmem with rfl | rfl | rfl <;> contradiction
      rcases infix_of_infix_append_cons hmem h with h | h
      · exact hrun run h
      · exact ih _ h

/-! ## The lines of the result -/

/-- A blank line is some spaces and tabs and a line feed, in front of which a carriage return may
stand. -/
theorem isBlankSegment_iff : isBlankSegment seg = true ↔
    ∃ indent : List Char, (∀ c ∈ indent, isIndent c = true) ∧
      (seg = indent ++ ['\n'] ∨ seg = indent ++ ['\r', '\n']) := by
  constructor
  · intro h
    refine ⟨seg.takeWhile isIndent, fun c hc => List.mem_takeWhile_imp hc, ?_⟩
    unfold isBlankSegment at h
    split at h
    · next heq =>
      left
      rw [← heq, List.takeWhile_append_dropWhile]
    · next heq =>
      right
      rw [← heq, List.takeWhile_append_dropWhile]
    · simp at h
  · rintro ⟨indent, hindent, rfl | rfl⟩
    · rw [isBlankSegment, List.dropWhile_append_of_pos hindent]
      rfl
    · rw [isBlankSegment, List.dropWhile_append_of_pos hindent]
      rfl

@[grind →]
theorem terminated_of_isBlankSegment (h : isBlankSegment seg = true) : Terminated seg := by
  obtain ⟨indent, hindent, rfl | rfl⟩ := isBlankSegment_iff.mp h
  · refine ⟨indent, fun hmem => ?_, rfl⟩
    exact absurd (hindent _ hmem) (by decide)
  · refine ⟨indent ++ ['\r'], fun hmem => ?_, by simp⟩
    rcases List.mem_append.mp hmem with hmem | hmem
    · exact absurd (hindent _ hmem) (by decide)
    · simp at hmem

@[simp] theorem isBlankSegment_of_not_mem (h : '\n' ∉ seg) : isBlankSegment seg = false := by
  by_contra hseg
  obtain ⟨line, -, rfl⟩ := terminated_of_isBlankSegment (by simpa using hseg)
  simp at h

theorem segmented_append (hrun : ∀ seg ∈ run, isBlankSegment seg = true) (h : Segmented segs) :
    Segmented (run ++ segs) := by
  induction run with
  | nil => exact h
  | cons first run ih =>
    obtain ⟨hfirst, hrun⟩ := List.forall_mem_cons.mp hrun
    exact .cons (terminated_of_isBlankSegment hfirst) (ih hrun)

/-- The lines that are left can be joined. -/
theorem segmented_shortenRuns (hrun : ∀ seg ∈ run, isBlankSegment seg = true) (h : Segmented segs) :
    Segmented (shortenRuns run segs) := by
  have hwrite {run : List (List Char)} (hrun : ∀ seg ∈ run, isBlankSegment seg = true) :=
    isBlankSegment_of_mem_writeRun hrun
  induction h generalizing run with
  | nil =>
    rw [shortenRuns, ← List.append_nil (writeRun run)]
    exact segmented_append (hwrite hrun) .nil
  | last hne hfeed =>
    rw [shortenRuns, if_neg (by simp [isBlankSegment_of_not_mem hfeed])]
    exact segmented_append (hwrite hrun) (.last hne hfeed)
  | cons hterminated _ ih =>
    rw [shortenRuns]
    split
    · next hseg => exact ih (List.forall_mem_append.mpr ⟨hrun, by simpa using hseg⟩)
    · exact segmented_append (hwrite hrun) (.cons hterminated (ih (by simp)))

/-- The lines of the result are the lines that are left. -/
@[simp] theorem segmentChars_shortenBlankRuns (text : String) :
    segmentChars (shortenBlankRuns text).toList = shortened (segmentChars text.toList) := by
  have hsegmented : Segmented (shortenRuns [] (segmentChars text.toList)) :=
    segmented_shortenRuns (by simp) (segmented_segmentChars text.toList)
  rw [shortenBlankRuns, String.toList_ofList, segmentChars_flatten hsegmented,
    shortenRuns_eq_shortened (by simp), List.nil_append]

/-! ## Replacing runs from the left -/

/-- A run of three or more blank lines stands at the front of `cs`. -/
def StartsRun (cs : List Char) : Prop :=
  ∃ (lines : List (List Char)) (rest : List Char), cs = lines.flatten ++ rest ∧
    3 ≤ lines.length ∧ ∀ line ∈ lines, isBlankSegment line = true

/-- A blank line stands at the front of `cs`. -/
def StartsBlank (cs : List Char) : Prop :=
  ∃ line rest, cs = line ++ rest ∧ isBlankSegment line = true

/-- The second text is the first one in which, from left to right, every run of three or more blank
lines that begins at the start of a line is replaced by two line feeds. A run that is replaced is as
long as possible. The flag tells whether the first text begins at the start of a line. -/
inductive Replaced : Bool → List Char → List Char → Prop where
  | nil (atStart : Bool) : Replaced atStart [] []
  | run {cs rest out : List Char} {lines : List (List Char)} (hcs : cs = lines.flatten ++ rest)
      (hlines : ∀ line ∈ lines, isBlankSegment line = true) (hlength : 3 ≤ lines.length)
      (hlongest : ¬ StartsBlank rest) (h : Replaced true rest out) :
      Replaced true cs ('\n' :: '\n' :: out)
  | char {atStart : Bool} {c : Char} {cs out : List Char}
      (hnone : atStart = true → ¬ StartsRun (c :: cs)) (h : Replaced (c == '\n') cs out) :
      Replaced atStart (c :: cs) (c :: out)

section Replaced

variable {cs rest out : List Char} {lines : List (List Char)}

@[grind →] theorem StartsRun.startsBlank (h : StartsRun cs) : StartsBlank cs := by
  obtain ⟨lines, rest, rfl, hlength, hlines⟩ := h
  cases lines with
  | nil => simp at hlength
  | cons line lines => exact ⟨line, lines.flatten ++ rest, by simp, hlines line (by simp)⟩

theorem not_startsBlank_nil : ¬ StartsBlank [] := by
  rintro ⟨line, rest, heq, hline⟩
  have hne := (terminated_of_isBlankSegment hline).ne_nil
  simp_all

@[simp] theorem segmentChars_append_of_blank (h : ∀ line ∈ lines, isBlankSegment line = true)
    (rest : List Char) : segmentChars (lines.flatten ++ rest) = lines ++ segmentChars rest := by
  induction lines with
  | nil => rfl
  | cons line lines ih =>
    obtain ⟨hline, hlines⟩ := List.forall_mem_cons.mp h
    rw [List.flatten_cons, List.append_assoc,
      (terminated_of_isBlankSegment hline).segmentChars_append, ih hlines, List.cons_append]

/-- Where no blank line stands at the front, the first line is not blank. -/
theorem takeWhile_segmentChars_eq_nil (h : ¬ StartsBlank rest) :
    (segmentChars rest).takeWhile isBlankSegment = [] := by
  cases hsegs : segmentChars rest with
  | nil => rfl
  | cons seg segs =>
    have hrest : rest = seg ++ segs.flatten := by
      simpa [hsegs] using (flatten_segmentChars rest).symm
    have hseg : isBlankSegment seg = false := by
      by_contra hseg
      exact h ⟨seg, segs.flatten, hrest, by simpa using hseg⟩
    rw [List.takeWhile_cons_of_neg (by simp [hseg])]

/-- A longest run of blank lines at the front of a text is made of its first lines. -/
theorem takeWhile_segmentChars_append (hlines : ∀ line ∈ lines, isBlankSegment line = true)
    (hlongest : ¬ StartsBlank rest) :
    (segmentChars (lines.flatten ++ rest)).takeWhile isBlankSegment = lines := by
  rw [segmentChars_append_of_blank hlines, List.takeWhile_append_of_pos hlines,
    takeWhile_segmentChars_eq_nil hlongest, List.append_nil]

theorem not_startsRun (hlines : ∀ line ∈ lines, isBlankSegment line = true)
    (hlength : lines.length < 3) (hlongest : ¬ StartsBlank rest) :
    ¬ StartsRun (lines.flatten ++ rest) := by
  rintro ⟨more, rest', heq, hthree, hmore⟩
  have hfirst := takeWhile_segmentChars_append hlines hlongest
  rw [heq, segmentChars_append_of_blank hmore, List.takeWhile_append_of_pos hmore] at hfirst
  have := congrArg List.length hfirst
  rw [List.length_append] at this
  omega

namespace Replaced

theorem append_of_not_mem {x : List Char} (hx : '\n' ∉ x) (h : Replaced false cs out) :
    Replaced false (x ++ cs) (x ++ out) := by
  induction x with
  | nil => exact h
  | cons c x ih =>
    have hc : (c == '\n') = false := by simpa using fun heq : c = '\n' => hx (by simp [heq])
    exact .char (by simp) (hc ▸ ih fun hmem => hx (by simp [hmem]))

/-- A line at whose start no run begins is copied. -/
theorem append_line (hseg : Terminated seg) (hnone : ¬ StartsRun (seg ++ cs))
    (h : Replaced true cs out) : Replaced true (seg ++ cs) (seg ++ out) := by
  obtain ⟨line, hline, rfl⟩ := hseg
  have hend : Replaced false ('\n' :: cs) ('\n' :: out) := .char (by simp) h
  cases line with
  | nil => exact .char (fun _ => hnone) h
  | cons c line =>
    have hc : (c == '\n') = false := by simpa using fun heq : c = '\n' => hline (by simp [heq])
    have hrest : Replaced false (line ++ '\n' :: cs) (line ++ '\n' :: out) :=
      append_of_not_mem (fun hmem => hline (by simp [hmem])) hend
    simp only [List.append_assoc, List.cons_append, List.nil_append] at hnone ⊢
    exact .char (fun _ => hnone) (hc ▸ hrest)

/-- A longest run of blank lines is written as it is or shortened. -/
theorem append_run (hrun : ∀ line ∈ run, isBlankSegment line = true) (hlongest : ¬ StartsBlank cs)
    (h : Replaced true cs out) :
    Replaced true (run.flatten ++ cs) ((writeRun run).flatten ++ out) := by
  unfold writeRun
  split
  · next hlength =>
    induction run with
    | nil => exact h
    | cons line run ih =>
      obtain ⟨hline, hrest⟩ := List.forall_mem_cons.mp hrun
      have hnone := not_startsRun hrun hlength hlongest
      rw [List.flatten_cons, List.append_assoc] at hnone ⊢
      rw [List.append_assoc]
      refine append_line (terminated_of_isBlankSegment hline) hnone (ih hrest ?_)
      rw [List.length_cons] at hlength
      omega
  · exact .run rfl hrun (by omega) hlongest h

/-- There is only one way to replace the runs of a text. -/
theorem unique {atStart : Bool} {out' : List Char} (h : Replaced atStart cs out)
    (h' : Replaced atStart cs out') : out = out' := by
  induction h generalizing out' with
  | nil =>
    cases h' with
    | nil => rfl
    | run hcs hlines hlength =>
      exact absurd (StartsRun.startsBlank ⟨_, _, hcs, hlength, hlines⟩) not_startsBlank_nil
  | @run cs rest out lines hcs hlines hlength hlongest h ih =>
    cases h' with
    | nil => exact absurd (StartsRun.startsBlank ⟨_, _, hcs, hlength, hlines⟩) not_startsBlank_nil
    | @run _ rest' _ lines' hcs' hlines' hlength' hlongest' h' =>
      have hfirst := takeWhile_segmentChars_append hlines hlongest
      rw [← hcs, hcs', takeWhile_segmentChars_append hlines' hlongest'] at hfirst
      subst hfirst
      obtain rfl : rest = rest' := List.append_cancel_left (hcs.symm.trans hcs')
      rw [ih h']
    | char hnone => exact absurd ⟨lines, rest, hcs, hlength, hlines⟩ (hnone rfl)
  | char hnone h ih =>
    cases h' with
    | @run _ rest' _ lines' hcs' hlines' hlength' =>
      exact absurd ⟨lines', rest', hcs', hlength', hlines'⟩ (hnone rfl)
    | char hnone' h' => rw [ih h']

end Replaced

/-- A line that is not blank is no beginning of a run, whatever follows it. -/
theorem not_startsBlank (h : Segmented (seg :: segs)) (hseg : isBlankSegment seg = false) :
    ¬ StartsBlank (seg :: segs).flatten := by
  rintro ⟨line, rest, heq, hline⟩
  have hsegs := segmentChars_flatten h
  rw [heq, (terminated_of_isBlankSegment hline).segmentChars_append] at hsegs
  obtain ⟨rfl, -⟩ := List.cons.inj hsegs
  simp [hseg] at hline

/-- The lines that are left are what is left when the runs are replaced from the left. -/
theorem replaced_shortenRuns (hrun : ∀ line ∈ run, isBlankSegment line = true)
    (h : Segmented segs) :
    Replaced true (run.flatten ++ segs.flatten) (shortenRuns run segs).flatten := by
  induction h generalizing run with
  | nil =>
    rw [shortenRuns, ← List.append_nil (writeRun run).flatten]
    exact .append_run hrun not_startsBlank_nil (.nil true)
  | @last seg hne hfeed =>
    have hseg := isBlankSegment_of_not_mem hfeed
    have hblank := not_startsBlank (.last hne hfeed) hseg
    rw [shortenRuns, if_neg (by simp [hseg]), List.flatten_append]
    refine .append_run hrun hblank ?_
    -- the unterminated line is copied character by character
    obtain ⟨c, line, rfl⟩ := List.exists_cons_of_ne_nil hne
    have hc : (c == '\n') = false := by simpa using fun heq : c = '\n' => hfeed (by simp [heq])
    have hline : Replaced false (line ++ []) (line ++ []) :=
      .append_of_not_mem (fun hmem => hfeed (by simp [hmem])) (.nil false)
    refine .char (fun _ hstarts => hblank ?_) (hc ▸ by simpa [shortenRuns, writeRun] using hline)
    simpa using hstarts.startsBlank
  | @cons seg segs hterminated hsegs ih =>
    rw [shortenRuns]
    split
    · next hseg =>
      have hlonger : ∀ line ∈ run ++ [seg], isBlankSegment line = true :=
        List.forall_mem_append.mpr ⟨hrun, by simpa using hseg⟩
      simpa using ih hlonger
    · next hseg =>
      have hblank := not_startsBlank (.cons hterminated hsegs) (by simpa using hseg)
      have hrest : Replaced true segs.flatten (shortenRuns [] segs).flatten := by
        simpa using ih (List.forall_mem_nil _)
      rw [List.flatten_append]
      refine .append_run hrun hblank (.append_line hterminated ?_ hrest)
      exact fun hstarts => hblank hstarts.startsBlank

end Replaced

/-- Replacing the runs of a text from the left gives the text with shortened runs. -/
theorem replaced_iff (text : String) (out : List Char) :
    Replaced true text.toList out ↔ out = (shortenBlankRuns text).toList := by
  have hresult : Replaced true text.toList (shortenBlankRuns text).toList := by
    have := replaced_shortenRuns (List.forall_mem_nil _) (segmented_segmentChars text.toList)
    rw [shortenBlankRuns, String.toList_ofList]
    simpa using this
  constructor
  · intro h
    exact h.unique hresult
  · rintro rfl
    exact hresult

/-- Shortening the runs of `text` replaces its leftmost longest runs of three or more blank lines by
two line feeds. Three blank lines in a row are not left. The other lines, and a last line without a
line feed, stay as they are. Every block of lines stays as it is, save that a longer run of blank
lines becomes two empty ones, and doing it again changes nothing. -/
theorem shortenBlankRuns_normalizes (text : String) :
    (∀ out, Replaced true text.toList out ↔ out = (shortenBlankRuns text).toList) ∧
    (∀ a b c, [a, b, c] <:+: segmentChars (shortenBlankRuns text).toList →
      ¬ (isBlankSegment a = true ∧ isBlankSegment b = true ∧ isBlankSegment c = true)) ∧
    (segmentChars (shortenBlankRuns text).toList).filter (!isBlankSegment ·) =
      (segmentChars text.toList).filter (!isBlankSegment ·) ∧
    blocks (segmentChars (shortenBlankRuns text).toList) =
      (blocks (segmentChars text.toList)).map shortenBlock ∧
    shortenBlankRuns (shortenBlankRuns text) = shortenBlankRuns text := by
  have hlines := segmentChars_shortenBlankRuns text
  refine ⟨replaced_iff text, ?_, ?_, ?_, ?_⟩
  · rintro a b c h ⟨ha, hb, hc⟩
    rw [hlines, ← List.nil_append (segmentChars text.toList),
      ← shortenRuns_eq_shortened (by simp)] at h
    exact not_infix_shortenRuns ha hb hc _ _ h
  · rw [hlines, filter_shortened]
  · rw [hlines, shortened, blocks_flatten_map_shortenBlock]
  · -- the blocks are short already
    have hagain := segmentChars_shortenBlankRuns (shortenBlankRuns text)
    rw [hlines, shortened, shortened, blocks_flatten_map_shortenBlock, List.map_map] at hagain
    have hsame : shortenBlock ∘ shortenBlock = shortenBlock := by
      funext block
      simp
    rw [hsame, ← shortened, ← hlines] at hagain
    rw [← String.toList_inj, ← flatten_segmentChars (shortenBlankRuns _).toList, hagain,
      flatten_segmentChars]

example : shortenBlankRuns " \n\t\r\n\na\n\n \nb\r\n\n\n\n  " = "\n\na\n\n \nb\r\n\n\n  " := by
  decide +kernel

end CodeAtlas
