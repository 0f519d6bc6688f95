import CodeAtlas.Proofs.Symbol.TypeName

/-!
# Type references and their texts

A type reference consists of segments with dots between them. It can start with a qualifier and end
with marks, and each segment can have type arguments, which are references again. The text of a
reference holds its parts one after the other, with any white space between and around them.

## Main definitions

* `TypeName.Identifier`, `TypeName.Mark`, `TypeName.Reference`, `TypeName.Segment`: the grammar.
* `TypeName.Reference.tokens`: the parts of a reference.
* `TypeName.Spells`: a text holds the given parts.
* `TypeName.Tight`: a text without white space at its ends.

## Main statements

* `TypeName.Reference.isToken_of_mem`: what the parts of references have in common.
* `TypeName.Spells.exists_append`: a text can be cut where its parts can.
* `TypeName.Spells.exists_alias`: a text can be cut at its last `::`.
* `TypeName.Spells.trim`: trimming a text keeps its parts.
-/
namespace CodeAtlas.TypeName

/-! ## The grammar -/

/-- The character `c` may stand in an identifier: it is neither white space nor a character that has
a meaning of its own in a type reference. -/
def isNameChar (c : Char) : Bool :=
  isPlainChar c && c != '.' && c != ','

/-- An identifier. -/
@[ext] structure Identifier where
  chars : List Char
  ne_nil : chars ≠ []
  all_isNameChar : chars.all isNameChar = true

/-- What can follow the name of a type: `?`, `*`, and brackets with commas. -/
inductive Mark
  | nullable
  | pointer
  | rank (commas : Nat)

mutual

/-- A type reference: segments with dots between them, behind a qualifier and `::` if it has one,
and followed by marks. -/
inductive Reference
  | mk (qualifier : Option Identifier) (outer : List Segment) (last : Segment) (marks : List Mark)

/-- A segment of a type reference: an identifier with type arguments in angle brackets, or without
any. -/
inductive Segment
  | mk (name : Identifier) (arguments : List Reference)

end

/-- The parts of a mark. -/
def Mark.tokens : Mark → List (List Char)
  | nullable => [['?']]
  | pointer => [['*']]
  | rank commas => ['['] :: (List.replicate commas [','] ++ [[']']])

/-- The parts of a qualifier. -/
def qualifierTokens : Option Identifier → List (List Char)
  | none => []
  | some name => [name.chars, [':', ':']]

mutual

/-- The parts of a reference, in the order in which they are written. -/
def Reference.tokens : Reference → List (List Char)
  | .mk qualifier outer last marks =>
    qualifierTokens qualifier ++ (outerTokens outer ++ last.tokens) ++ marks.flatMap Mark.tokens

/-- The parts of a segment and of its type arguments. -/
def Segment.tokens : Segment → List (List Char)
  | .mk name arguments => name.chars :: argumentTokens arguments

/-- The parts of the segments in front of the last one. -/
def outerTokens : List Segment → List (List Char)
  | [] => []
  | s :: outer => s.tokens ++ ['.'] :: outerTokens outer

/-- The parts of type arguments. -/
def argumentTokens : List Reference → List (List Char)
  | [] => []
  | r :: rest => ['<'] :: (r.tokens ++ furtherTokens rest)

/-- The parts of the type arguments behind the first one. -/
def furtherTokens : List Reference → List (List Char)
  | [] => [['>']]
  | r :: rest => [','] :: (r.tokens ++ furtherTokens rest)

end

/-- The text consists of the given parts with white space between and around them. -/
inductive Spells : List (List Char) → List Char → Prop
  | nil (blanks : List Char) (hblanks : blanks.all Text.isBlank = true) : Spells [] blanks
  | cons (blanks : List Char) (hblanks : blanks.all Text.isBlank = true) {token : List Char}
      {tokens : List (List Char)} {rest : List Char} (h : Spells tokens rest) :
      Spells (token :: tokens) (blanks ++ token ++ rest)

/-! ## The parts of a reference -/

namespace Segment

def name : Segment → Identifier
  | .mk name _ => name

/-- The segment has type arguments. -/
def isGeneric : Segment → Bool
  | .mk _ arguments => !arguments.isEmpty

end Segment

namespace Reference

def qualifier : Reference → Option Identifier
  | .mk qualifier _ _ _ => qualifier

def outer : Reference → List Segment
  | .mk _ outer _ _ => outer

def last : Reference → Segment
  | .mk _ _ last _ => last

def marks : Reference → List Mark
  | .mk _ _ _ marks => marks

def segments (r : Reference) : List Segment :=
  r.outer ++ [r.last]

/-- The parts of the segments of `r` and of their type arguments. -/
def segmentTokens (r : Reference) : List (List Char) :=
  outerTokens r.outer ++ r.last.tokens

/-- The parts of `r` in front of its marks. -/
def nameTokens (r : Reference) : List (List Char) :=
  qualifierTokens r.qualifier ++ r.segmentTokens

def markTokens (r : Reference) : List (List Char) :=
  r.marks.flatMap Mark.tokens

theorem tokens_eq (r : Reference) : r.tokens = r.nameTokens ++ r.markTokens := by
  cases r
  simp [tokens, nameTokens, segmentTokens, markTokens, qualifier, outer, last, marks]

end Reference

/-- A part of a reference holds no white space, and no colon unless it is `::`. -/
structure IsToken (token : List Char) : Prop where
  ne_nil : token ≠ []
  solid : ∀ c ∈ token, Text.isBlank c = false
  colon : ':' ∈ token → token = [':', ':']

theorem Identifier.isNameChar (name : Identifier) {c : Char} (hc : c ∈ name.chars) :
    TypeName.isNameChar c = true :=
  List.all_eq_true.mp name.all_isNameChar c hc

theorem isNameChar_iff {c : Char} :
    isNameChar c = true ↔ isPlainChar c = true ∧ c ≠ '.' ∧ c ≠ ',' := by
  simp [isNameChar, and_assoc]

theorem Identifier.isToken (name : Identifier) : IsToken name.chars where
  ne_nil := name.ne_nil
  solid := fun c hc => (isPlainChar_iff.mp (isNameChar_iff.mp (name.isNameChar hc)).1).1
  colon := by
    intro hc
    have := isPlainChar_iff.mp (isNameChar_iff.mp (name.isNameChar hc)).1
    simp at this

theorem isToken_singleton {c : Char} (hblank : Text.isBlank c = false) (hcolon : c ≠ ':') :
    IsToken [c] where
  ne_nil := by simp
  solid := by simpa using hblank
  colon := by simpa using hcolon.symm

theorem Mark.eq_singleton_of_mem {m : Mark} {token : List Char} (h : token ∈ m.tokens) :
    ∃ c ∈ ['?', '*', '[', ',', ']'], token = [c] := by
  cases m with
  | nullable => exact ⟨'?', by simp, List.mem_singleton.mp h⟩
  | pointer => exact ⟨'*', by simp, List.mem_singleton.mp h⟩
  | rank commas =>
    simp only [tokens, List.mem_cons, List.mem_append, List.mem_replicate, List.not_mem_nil] at h
    rcases h with rfl | ⟨-, rfl⟩ | rfl | h
    · exact ⟨'[', by simp, rfl⟩
    · exact ⟨',', by simp, rfl⟩
    · exact ⟨']', by simp, rfl⟩
    · exact absurd h id

@[grind →] theorem Mark.isToken_of_mem {m : Mark} {token : List Char} (h : token ∈ m.tokens) :
    IsToken token := by
  obtain ⟨c, hc, rfl⟩ := eq_singleton_of_mem h
  simp only [List.mem_cons, List.not_mem_nil] at hc
  rcases hc with rfl | rfl | rfl | rfl | rfl | h
  case inr.inr.inr.inr.inr => exact absurd h id
  all_goals exact isToken_singleton rfl (by decide)

@[grind →]
theorem isToken_of_mem_qualifierTokens {qualifier : Option Identifier} {token : List Char}
    (h : token ∈ qualifierTokens qualifier) : IsToken token := by
  cases qualifier with
  | none => simp [qualifierTokens] at h
  | some name =>
    rcases List.mem_cons.mp h with rfl | h
    · exact name.isToken
    · obtain rfl := List.mem_singleton.mp h
      exact ⟨by simp, by simp; rfl, fun _ => rfl⟩

mutual

@[grind →]
theorem Reference.isToken_of_mem : ∀ {r : Reference} {token : List Char}, token ∈ r.tokens →
    IsToken token
  | .mk qualifier outer last marks, token, h => by
    simp only [Reference.tokens, List.mem_append, List.mem_flatMap] at h
    rcases h with (h | h | h) | ⟨m, -, h⟩
    · exact isToken_of_mem_qualifierTokens h
    · exact isToken_of_mem_outerTokens h
    · exact Segment.isToken_of_mem h
    · exact Mark.isToken_of_mem h

@[grind →] theorem Segment.isToken_of_mem : ∀ {s : Segment} {token : List Char}, token ∈ s.tokens →
    IsToken token
  | .mk name arguments, token, h => by
    rw [Segment.tokens] at h
    rcases List.mem_cons.mp h with rfl | h
    · exact name.isToken
    · exact isToken_of_mem_argumentTokens h

@[grind →] theorem isToken_of_mem_outerTokens : ∀ {outer : List Segment} {token : List Char},
    token ∈ outerTokens outer → IsToken token
  | [], token, h => by simp [outerTokens] at h
  | s :: outer, token, h => by
    simp only [outerTokens, List.mem_append, List.mem_cons] at h
    rcases h with h | rfl | h
    · exact Segment.isToken_of_mem h
    · exact isToken_singleton rfl (by decide)
    · exact isToken_of_mem_outerTokens h

@[grind →]
theorem isToken_of_mem_argumentTokens : ∀ {arguments : List Reference} {token : List Char},
    token ∈ argumentTokens arguments → IsToken token
  | [], token, h => by simp [argumentTokens] at h
  | r :: rest, token, h => by
    simp only [argumentTokens, List.mem_append, List.mem_cons] at h
    rcases h with rfl | h | h
    · exact isToken_singleton rfl (by decide)
    · exact Reference.isToken_of_mem h
    · exact isToken_of_mem_furtherTokens h

@[grind →] theorem isToken_of_mem_furtherTokens : ∀ {rest : List Reference} {token : List Char},
    token ∈ furtherTokens rest → IsToken token
  | [], token, h => by
    obtain rfl : token = ['>'] := by simpa [furtherTokens] using h
    exact isToken_singleton rfl (by decide)
  | r :: rest, token, h => by
    simp only [furtherTokens, List.mem_append, List.mem_cons] at h
    rcases h with rfl | h | h
    · exact isToken_singleton rfl (by decide)
    · exact Reference.isToken_of_mem h
    · exact isToken_of_mem_furtherTokens h

end

/-! ## Texts of a reference -/

variable {a b cs : List Char} {tokens more : List (List Char)} {c : Char}

theorem not_mem_of_all_isBlank (h : cs.all Text.isBlank = true) (hc : Text.isBlank c = false) :
    c ∉ cs := by
  intro hmem
  simp [List.all_eq_true.mp h c hmem] at hc

theorem Spells.mem (h : Spells tokens cs) (hc : c ∈ cs) :
    Text.isBlank c = true ∨ ∃ token ∈ tokens, c ∈ token := by
  induction h with
  | nil blanks hblanks => exact .inl (List.all_eq_true.mp hblanks c hc)
  | cons blanks hblanks h ih =>
    rcases List.mem_append.mp hc with hc | hc
    · rcases List.mem_append.mp hc with hc | hc
      · exact .inl (List.all_eq_true.mp hblanks c hc)
      · exact .inr ⟨_, List.mem_cons_self, hc⟩
    · refine (ih hc).imp_right ?_
      rintro ⟨token, htoken, hmem⟩
      exact ⟨token, List.mem_cons_of_mem _ htoken, hmem⟩

theorem Spells.colon_not_mem (h : Spells tokens cs) (htokens : ∀ token ∈ tokens, IsToken token)
    (halias : [':', ':'] ∉ tokens) : ':' ∉ cs := by
  intro hc
  rcases h.mem hc with hblank | ⟨token, htoken, hmem⟩
  · simp [show Text.isBlank ':' = false from rfl] at hblank
  · exact halias ((htokens token htoken).colon hmem ▸ htoken)

/-- A text can be cut at its last `::`. -/
theorem Spells.exists_alias (h : Spells tokens cs) (htokens : ∀ token ∈ tokens, IsToken token)
    (halias : [':', ':'] ∈ tokens) :
    ∃ front rest, cs = front ++ ':' :: ':' :: rest ∧ ':' ∉ rest := by
  induction h with
  | nil => simp at halias
  | @cons blanks hblanks token tokens behind h ih =>
    have hmore := (List.forall_mem_cons.mp htokens).2
    by_cases hlater : [':', ':'] ∈ tokens
    · obtain ⟨front, rest, rfl, hrest⟩ := ih hmore hlater
      exact ⟨blanks ++ token ++ front, rest, by simp, hrest⟩
    · obtain rfl := (List.mem_cons.mp halias).resolve_right hlater
      exact ⟨blanks, behind, by simp, h.colon_not_mem hmore hlater⟩

/-- White space in front of a text belongs to it. -/
theorem Spells.blanks_append {blanks : List Char} (hblanks : blanks.all Text.isBlank = true)
    (h : Spells tokens cs) : Spells tokens (blanks ++ cs) := by
  cases h with
  | nil blanks' hblanks' => exact .nil _ (by simp [hblanks, hblanks'])
  | cons blanks' hblanks' h =>
    rw [← List.append_assoc, ← List.append_assoc]
    exact .cons _ (by simp [hblanks, hblanks']) h

/-- A text can be cut where its parts can. -/
theorem Spells.exists_append (h : Spells (tokens ++ more) cs) :
    ∃ a b, cs = a ++ b ∧ Spells tokens a ∧ Spells more b := by
  induction tokens generalizing cs with
  | nil => exact ⟨[], cs, rfl, .nil [] rfl, h⟩
  | cons token tokens ih =>
    cases h with
    | cons blanks hblanks h =>
      obtain ⟨a, b, rfl, ha, hb⟩ := ih h
      exact ⟨blanks ++ token ++ a, b, by simp, .cons blanks hblanks ha, hb⟩

/-- The text `cs` neither starts nor ends with white space. -/
def Tight (cs : List Char) : Prop :=
  (∃ c rest, cs = c :: rest ∧ Text.isBlank c = false) ∧
    ∃ front c, cs = front ++ [c] ∧ Text.isBlank c = false

@[grind →] theorem IsToken.tight (h : IsToken cs) : Tight cs := by
  refine ⟨?_, ?_⟩
  · obtain ⟨c, rest, rfl⟩ := List.exists_cons_of_ne_nil h.ne_nil
    exact ⟨c, rest, rfl, h.solid c List.mem_cons_self⟩
  · obtain ⟨front, c, rfl⟩ := List.eq_nil_or_concat cs |>.resolve_left h.ne_nil
    exact ⟨front, c, by simp, h.solid c (by simp)⟩

theorem Tight.append (ha : Tight a) (gap : List Char) (hb : Tight b) : Tight (a ++ gap ++ b) := by
  obtain ⟨c, rest, rfl, hc⟩ := ha.1
  obtain ⟨front, d, rfl, hd⟩ := hb.2
  exact ⟨⟨c, rest ++ gap ++ (front ++ [d]), by simp, hc⟩,
    c :: rest ++ gap ++ front, d, by simp, hd⟩

/-- Without the white space around it, a text has the same parts. -/
theorem Spells.exists_tight (h : Spells tokens cs) (hne : tokens ≠ [])
    (htokens : ∀ token ∈ tokens, IsToken token) :
    ∃ a core b, cs = a ++ core ++ b ∧ a.all Text.isBlank = true ∧ b.all Text.isBlank = true ∧
      Tight core ∧ Spells tokens core := by
  induction h with
  | nil => exact absurd rfl hne
  | @cons blanks hblanks token tokens rest h ih =>
    obtain ⟨htoken, htokens⟩ := List.forall_mem_cons.mp htokens
    cases h with
    | nil _ hrest =>
      refine ⟨blanks, token, _, rfl, hblanks, hrest, htoken.tight, ?_⟩
      simpa using Spells.cons [] rfl (.nil [] rfl)
    | cons =>
      obtain ⟨a, core, b, heq, ha, hb, hcore, hspells⟩ := ih (by simp) htokens
      rw [heq]
      refine ⟨blanks, token ++ a ++ core, b, by simp, hblanks, hb, htoken.tight.append a hcore, ?_⟩
      simpa using Spells.cons [] rfl (hspells.blanks_append ha)

/-! ## Trimming -/

@[grind →]
theorem mem_of_mem_trimEndWhile {p : Char → Bool} (h : c ∈ Text.trimEndWhile p cs) : c ∈ cs :=
  List.mem_reverse.mp ((List.dropWhile_sublist p).subset (List.mem_reverse.mp h))

@[simp] theorem trimEndWhile_append_cons {p : Char → Bool} (hc : p c = false) :
    Text.trimEndWhile p (a ++ c :: b) = a ++ c :: Text.trimEndWhile p b := by
  have hdrop : (b.reverse ++ c :: a.reverse).dropWhile p =
      b.reverse.dropWhile p ++ c :: a.reverse := by
    rw [List.dropWhile_append]
    split
    · next hempty => simp [List.isEmpty_iff.mp hempty, hc]
    · rfl
  simp [Text.trimEndWhile, hdrop]

@[simp] theorem trimEndWhile_append_of_forall {p : Char → Bool} (h : ∀ c ∈ a, p c = false) :
    Text.trimEndWhile p (a ++ b) = a ++ Text.trimEndWhile p b := by
  rcases List.eq_nil_or_concat a with rfl | ⟨front, c, rfl⟩
  · rfl
  · simpa using trimEndWhile_append_cons (a := front) (b := b) (h c (by simp))

@[simp] theorem trimEndWhile_eq_nil {p : Char → Bool} (h : ∀ c ∈ cs, p c = true) :
    Text.trimEndWhile p cs = [] := by
  have hdrop : cs.reverse.dropWhile p = [] :=
    List.dropWhile_eq_nil_iff.mpr fun c hc => h c (List.mem_reverse.mp hc)
  simp [Text.trimEndWhile, hdrop]

@[simp] theorem trimChars_eq_nil (h : cs.all Text.isBlank = true) : Text.trimChars cs = [] := by
  have hdrop : cs.dropWhile Text.isBlank = [] :=
    List.dropWhile_eq_nil_iff.mpr (List.all_eq_true.mp h)
  simp [Text.trimChars, hdrop]

/-- Trimming takes the white space around a text and nothing else. -/
theorem trimChars_append (ha : a.all Text.isBlank = true) (hb : b.all Text.isBlank = true)
    (h : Tight cs) : Text.trimChars (a ++ cs ++ b) = cs := by
  have hdrop : (a ++ cs ++ b).dropWhile Text.isBlank = cs ++ b := by
    obtain ⟨c, rest, rfl, hc⟩ := h.1
    rw [List.append_assoc, List.dropWhile_append_of_pos (List.all_eq_true.mp ha), List.cons_append]
    simp [hc]
  obtain ⟨front, c, rfl, hc⟩ := h.2
  rw [Text.trimChars, hdrop, List.append_assoc, List.singleton_append, trimEndWhile_append_cons hc,
    trimEndWhile_eq_nil (List.all_eq_true.mp hb)]

/-- A trimmed text has the same parts. -/
theorem Spells.trim (h : Spells tokens cs) (htokens : ∀ token ∈ tokens, IsToken token) :
    Spells tokens (Text.trimChars cs) ∧
    (tokens = [] ∧ Text.trimChars cs = [] ∨ Tight (Text.trimChars cs)) ∧
    ∃ a b, cs = a ++ Text.trimChars cs ++ b ∧ a.all Text.isBlank = true ∧
      b.all Text.isBlank = true := by
  by_cases hne : tokens = []
  · subst hne
    cases h with
    | nil _ hblanks =>
      rw [trimChars_eq_nil hblanks]
      exact ⟨.nil [] rfl, .inl ⟨rfl, rfl⟩, cs, [], by simp, hblanks, rfl⟩
  · obtain ⟨a, core, b, rfl, ha, hb, hcore, hspells⟩ := h.exists_tight hne htokens
    rw [trimChars_append ha hb hcore]
    exact ⟨hspells, .inr hcore, a, b, rfl, ha, hb⟩

end CodeAtlas.TypeName
