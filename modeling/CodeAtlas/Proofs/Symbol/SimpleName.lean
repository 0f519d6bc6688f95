import CodeAtlas.Proofs.Symbol.TypeReference

/-!
# The simple name of a type reference

The simple name is cut out of the text of a reference: what stands up to the last `::` goes, what
stands from the first `<` on, the marks at the end, and what stands up to the last dot. This gives
the last name of the reference, with or without type arguments, in most of its forms. It does not
if `::` stands in type arguments, if type arguments stand in front of a dot, or if `?` or `*` is
followed by white space or a comma, since the marks are cut off as long as there is none.

## Main definitions

* `TypeName.bareName`: the cuts behind the qualifier.
* `TypeName.leftover`: what remains of the marks.

## Main statements

* `TypeName.simpleChars_append_alias`: nothing in front of the last `::` counts.
* `TypeName.exists_segments`: what is left of a reference without its qualifier.
* `TypeName.simpleChars_of_generic`, `TypeName.simpleChars_of_not_generic`: the simple name of a
  reference with and without type arguments.
* `TypeName.leftover_blank_iff`: when the marks are cut off.
* `TypeName.simple_eq_last_iff`: when the simple name is the last name.
-/
namespace CodeAtlas.TypeName

variable {a b cs gap rest : List Char} {c : Char}

/-! ## Cutting a text -/

@[simp] theorem dropAlias_append (h : ':' ∉ cs) : dropAlias (a ++ ':' :: ':' :: cs) = cs := by
  have hsome : afterAlias? (a ++ ':' :: ':' :: cs) = some cs := by
    induction a with
    | nil =>
      have hcolon : afterAlias? (':' :: cs) = none := by
        rw [afterAlias?, afterAlias?_eq_none h]
        cases cs <;> grind
      rw [List.nil_append, afterAlias?, hcolon]
    | cons c a ih =>
      unfold afterAlias?
      simp [ih]
  simp [dropAlias, hsome]

/-- What remains of the reference `cs` without qualifier when it is cut down to its simple name. -/
def bareName (cs : List Char) : List Char :=
  Text.trimChars (lastSegment
    ((Text.trimEndWhile isSuffixMark (cs.takeWhile (· != '<'))).takeWhile (· != '[')))

theorem simpleChars_eq_bareName (cs : List Char) :
    simpleChars cs = bareName (dropAlias (Text.trimChars cs)) := rfl

/-- The character `c` may stand in a dotted name with white space between its parts. -/
def isDottedChar (c : Char) : Bool :=
  !(['<', '>', '?', '*', '[', ']', ':', ','].contains c)

theorem isDottedChar_iff : isDottedChar c = true ↔ c ≠ '<' ∧ c ≠ '>' ∧ c ≠ '?' ∧ c ≠ '*' ∧
    c ≠ '[' ∧ c ≠ ']' ∧ c ≠ ':' ∧ c ≠ ',' := by
  simp [isDottedChar]

@[grind →] theorem isDottedChar_of_isBlank (h : Text.isBlank c = true) : isDottedChar c = true := by
  refine isDottedChar_iff.mpr ?_
  refine ⟨?_, ?_, ?_, ?_, ?_, ?_, ?_, ?_⟩ <;> rintro rfl <;> exact absurd h (by decide)

@[grind →]
theorem isDottedChar_of_isNameChar (h : isNameChar c = true) : isDottedChar c = true := by
  obtain ⟨hplain, -, hcomma⟩ := isNameChar_iff.mp h
  obtain ⟨-, hrest⟩ := isPlainChar_iff.mp hplain
  simp [isDottedChar_iff, hrest, hcomma]

@[grind →]
theorem isSuffixMark_of_isDottedChar (h : isDottedChar c = true) : isSuffixMark c = false := by
  have := isDottedChar_iff.mp h
  simp [isSuffixMark, this]

/-- What the `marks` at the end of a reference leave behind when they are cut off. -/
def leftover (marks : List Char) : List Char :=
  (Text.trimEndWhile isSuffixMark marks).takeWhile (· != '[')

@[simp] theorem leftover_nil : leftover [] = [] := rfl

theorem takeWhile_append_of_dotted {stop : Char} (hstop : isDottedChar stop = false)
    (h : ∀ c ∈ cs, isDottedChar c = true) :
    (cs ++ rest).takeWhile (· != stop) = cs ++ rest.takeWhile (· != stop) := by
  refine List.takeWhile_append_of_pos fun c hc => ?_
  have hne : c ≠ stop := fun heq => by simp [heq ▸ h c hc] at hstop
  simpa using hne

/-- The cuts leave dotted names alone but for the last one, which is taken from them. -/
theorem bareName_append (h : ∀ c ∈ cs, isDottedChar c = true) (rest : List Char) :
    bareName (cs ++ rest) =
      Text.trimChars (lastSegment (cs ++ leftover (rest.takeWhile (· != '<')))) := by
  have hmarks : ∀ c ∈ cs, isSuffixMark c = false := fun c hc =>
    isSuffixMark_of_isDottedChar (h c hc)
  rw [bareName, takeWhile_append_of_dotted rfl h, trimEndWhile_append_of_forall hmarks,
    takeWhile_append_of_dotted rfl h, leftover]

@[simp] theorem lastSegment_eq_self (h : '.' ∉ cs) : lastSegment cs = cs := by
  have htake : cs.reverse.takeWhile (· != '.') = cs.reverse :=
    List.takeWhile_eq_self_iff.mpr fun c hc => by
      simpa using ne_of_mem_of_not_mem (List.mem_reverse.mp hc) h
  simp [lastSegment, htake]

/-- A dot ends what stands in front of it. -/
@[simp] theorem lastSegment_append_dot : lastSegment (a ++ '.' :: b) = lastSegment b := by
  have htake : (b.reverse ++ '.' :: a.reverse).takeWhile (· != '.') =
      b.reverse.takeWhile (· != '.') := by
    rw [List.takeWhile_append]
    split
    · next hall =>
      have hself := (List.takeWhile_prefix (· != '.')).eq_of_length hall
      simp [hself]
    · rfl
  simp [lastSegment, htake]

@[simp] theorem trimChars_blanks_append (ha : a.all Text.isBlank = true) :
    Text.trimChars (a ++ cs) = Text.trimChars cs := by
  rw [Text.trimChars, List.dropWhile_append_of_pos (List.all_eq_true.mp ha), Text.trimChars]

/-- White space in front of a reference makes no difference to what remains of it. -/
@[simp] theorem bareName_blanks_append (ha : a.all Text.isBlank = true) :
    bareName (a ++ cs) = bareName cs := by
  have hdotted (c : Char) (hc : c ∈ a) := isDottedChar_of_isBlank (List.all_eq_true.mp ha c hc)
  rw [bareName_append hdotted cs]
  change _ = Text.trimChars (lastSegment (leftover (cs.takeWhile (· != '<'))))
  generalize leftover (cs.takeWhile (· != '<')) = rest
  by_cases hdot : '.' ∈ rest
  · obtain ⟨front, back, rfl⟩ := List.append_of_mem hdot
    rw [← List.append_assoc, lastSegment_append_dot, lastSegment_append_dot]
  · have hdot' : '.' ∉ a ++ rest := by
      simpa [hdot] using not_mem_of_all_isBlank (c := '.') ha rfl
    rw [lastSegment_eq_self hdot, lastSegment_eq_self hdot', trimChars_blanks_append ha]

/-- Trimmed at its end only, a text keeps the white space in front of it. -/
theorem exists_trimEndWhile_eq (cs : List Char) :
    ∃ blanks, blanks.all Text.isBlank = true ∧
      Text.trimEndWhile Text.isBlank cs = blanks ++ Text.trimChars cs := by
  have hsplit := List.takeWhile_append_dropWhile (p := Text.isBlank) (l := cs)
  rw [Text.trimChars]
  cases hdrop : cs.dropWhile Text.isBlank with
  | nil => exact ⟨[], rfl, trimEndWhile_eq_nil (List.dropWhile_eq_nil_iff.mp hdrop)⟩
  | cons c rest =>
    have hc : Text.isBlank c = false := by
      have hne : cs.dropWhile Text.isBlank ≠ [] := by simp [hdrop]
      simpa [hdrop] using List.head_dropWhile_not Text.isBlank hne
    rw [hdrop] at hsplit
    refine ⟨cs.takeWhile Text.isBlank, List.all_takeWhile, ?_⟩
    calc Text.trimEndWhile Text.isBlank cs
        = Text.trimEndWhile Text.isBlank (cs.takeWhile Text.isBlank ++ c :: rest) := by rw [hsplit]
      _ = cs.takeWhile Text.isBlank ++ c :: Text.trimEndWhile Text.isBlank rest :=
          trimEndWhile_append_cons hc
      _ = cs.takeWhile Text.isBlank ++ Text.trimEndWhile Text.isBlank (c :: rest) :=
          congrArg _ (trimEndWhile_append_cons (a := []) hc).symm

theorem exists_trimChars_alias (a cs : List Char) :
    ∃ front, Text.trimChars (a ++ ':' :: ':' :: cs) =
      front ++ ':' :: ':' :: Text.trimEndWhile Text.isBlank cs := by
  have hcolon : Text.isBlank ':' = false := rfl
  have hdrop : (a ++ ':' :: ':' :: cs).dropWhile Text.isBlank =
      a.dropWhile Text.isBlank ++ ':' :: ':' :: cs := by
    rw [List.dropWhile_append]
    split
    · next hempty => simp [List.isEmpty_iff.mp hempty, hcolon]
    · rfl
  have htail := trimEndWhile_append_cons (a := []) (b := cs) hcolon
  refine ⟨a.dropWhile Text.isBlank, ?_⟩
  rw [Text.trimChars, hdrop, trimEndWhile_append_cons hcolon]
  simpa using htail

/-- Nothing in front of the last `::` counts, wherever that one stands. -/
@[simp] theorem simpleChars_append_alias (h : ':' ∉ cs) :
    simpleChars (a ++ ':' :: ':' :: cs) = simpleChars cs := by
  have hsub : ':' ∉ Text.trimEndWhile Text.isBlank cs := fun hc => h (mem_of_mem_trimEndWhile hc)
  obtain ⟨blanks, hblanks, htrim⟩ := exists_trimEndWhile_eq cs
  obtain ⟨front, hfront⟩ := exists_trimChars_alias a cs
  have hself : dropAlias (Text.trimChars cs) = Text.trimChars cs :=
    dropAlias_eq_self fun hc => hsub (htrim ▸ List.mem_append_right _ hc)
  rw [simpleChars_eq_bareName, simpleChars_eq_bareName, hself, hfront, dropAlias_append hsub, htrim,
    bareName_blanks_append hblanks]

/-! ## The segments of a reference -/

/-- The segments in front of a name leave nothing but white space in its own segment. -/
theorem lastSegment_of_spells_outer {outer : List Segment}
    (hplain : ∀ s ∈ outer, s.isGeneric = false) (ha : Spells (outerTokens outer) a)
    (hb : '.' ∉ b) :
    (∀ c ∈ a, isDottedChar c = true) ∧
    ∃ blanks, blanks.all Text.isBlank = true ∧ lastSegment (a ++ b) = blanks ++ b := by
  induction outer generalizing a with
  | nil =>
    cases ha with
    | nil _ hblanks =>
      refine ⟨fun c hc => ?_, a, hblanks, ?_⟩
      · exact isDottedChar_of_isBlank (List.all_eq_true.mp hblanks c hc)
      · refine lastSegment_eq_self fun hdot => ?_
        rcases List.mem_append.mp hdot with hdot | hdot
        · exact not_mem_of_all_isBlank hblanks rfl hdot
        · exact hb hdot
  | cons s outer ih =>
    obtain ⟨hs, hrest⟩ := List.forall_mem_cons.mp hplain
    obtain ⟨name, arguments⟩ := s
    obtain rfl : arguments = [] := by simpa [Segment.isGeneric] using hs
    rw [outerTokens, Segment.tokens, argumentTokens] at ha
    cases ha with
    | cons blanks hblanks ha =>
      cases ha with
      | @cons blanks' hblanks' _ _ rest ha =>
        obtain ⟨hdotted, white, hwhite, hlast⟩ := ih hrest ha
        refine ⟨fun c hc => ?_, white, hwhite, ?_⟩
        · simp only [List.mem_append, List.mem_singleton] at hc
          rcases hc with (hc | hc) | (hc | rfl) | hc
          · exact isDottedChar_of_isBlank (List.all_eq_true.mp hblanks c hc)
          · exact isDottedChar_of_isNameChar (name.isNameChar hc)
          · exact isDottedChar_of_isBlank (List.all_eq_true.mp hblanks' c hc)
          · decide
          · exact hdotted c hc
        · have hdot :=
            lastSegment_append_dot (a := blanks ++ name.chars ++ blanks') (b := rest ++ b)
          simpa [hlast] using hdot

/-- The parts of a reference up to its first type arguments. -/
theorem Reference.segmentTokens_of_generic {r : Reference} {s : Segment}
    (hs : r.segments.find? Segment.isGeneric = some s) :
    ∃ outer more, r.segmentTokens = outerTokens outer ++ s.name.chars :: ['<'] :: more ∧
      ∀ q ∈ outer, q.isGeneric = false := by
  obtain ⟨qualifier, outer, last, marks⟩ := r
  simp only [segments, segmentTokens, Reference.outer, Reference.last] at hs ⊢
  have hgeneric {q : Segment} (hq : q.isGeneric = true) :
      ∃ more, q.tokens = q.name.chars :: ['<'] :: more := by
    obtain ⟨name, arguments⟩ := q
    cases arguments with
    | nil => simp [Segment.isGeneric] at hq
    | cons r rest => exact ⟨_, by rw [Segment.tokens, argumentTokens]; rfl⟩
  induction outer with
  | nil =>
    obtain ⟨hlast, rfl⟩ : last.isGeneric = true ∧ last = s := by simpa using hs
    obtain ⟨more, hmore⟩ := hgeneric hlast
    exact ⟨[], more, by simpa [outerTokens] using hmore, by simp⟩
  | cons q outer ih =>
    cases hq : q.isGeneric with
    | true =>
      obtain rfl : q = s := by simpa [hq] using hs
      obtain ⟨more, hmore⟩ := hgeneric hq
      exact ⟨[], _, by simp [outerTokens, hmore]; rfl, by simp⟩
    | false =>
      obtain ⟨front, more, htokens, hplain⟩ := ih (by simpa [hq] using hs)
      refine ⟨q :: front, more, ?_, List.forall_mem_cons.mpr ⟨hq, hplain⟩⟩
      simp [outerTokens, List.append_assoc, htokens]

/-! ## The text of a reference without its qualifier -/

@[grind →] theorem Reference.isToken_of_mem_nameTokens {r : Reference} {token : List Char}
    (h : token ∈ r.nameTokens) : IsToken token :=
  isToken_of_mem (r := r) (by rw [tokens_eq]; exact List.mem_append_left _ h)

@[grind →] theorem Reference.isToken_of_mem_markTokens {r : Reference} {token : List Char}
    (h : token ∈ r.markTokens) : IsToken token :=
  isToken_of_mem (r := r) (by rw [tokens_eq]; exact List.mem_append_right _ h)

/-- The text of marks holds no other characters than theirs and white space. -/
theorem not_mem_of_spells_markTokens {r : Reference} (h : Spells r.markTokens cs)
    (hblank : Text.isBlank c = false) (hmark : c ∉ ['?', '*', '[', ',', ']']) : c ∉ cs := by
  intro hc
  rcases h.mem hc with hc | ⟨token, htoken, hmem⟩
  · simp [hblank] at hc
  · obtain ⟨m, -, hm⟩ := List.mem_flatMap.mp htoken
    obtain ⟨d, hd, rfl⟩ := Mark.eq_singleton_of_mem hm
    exact hmark (List.mem_singleton.mp hmem ▸ hd)

/-- A qualifier and what stands around it is dropped, but for some white space. -/
theorem dropAlias_of_spells_qualifier {qualifier : Option Identifier}
    (ha : Spells (qualifierTokens qualifier) a) (hb : ':' ∉ b) :
    ∃ blanks, blanks.all Text.isBlank = true ∧ dropAlias (a ++ b) = blanks ++ b := by
  have hblank {blanks : List Char} (h : blanks.all Text.isBlank = true) : ':' ∉ blanks ++ b := by
    intro hc
    rcases List.mem_append.mp hc with hc | hc
    · exact not_mem_of_all_isBlank h rfl hc
    · exact hb hc
  cases qualifier with
  | none =>
    cases ha with
    | nil _ hblanks => exact ⟨a, hblanks, dropAlias_eq_self (hblank hblanks)⟩
  | some name =>
    cases ha with
    | cons blanks _ ha =>
      cases ha with
      | @cons blanks' _ _ _ rest ha =>
        cases ha with
        | nil _ hrest =>
          have hdrop := dropAlias_append (a := blanks ++ name.chars ++ blanks') (hblank hrest)
          exact ⟨rest, hrest, by simpa using hdrop⟩

/-- Trimming two texts at once keeps some of the white space between them. -/
theorem exists_trimChars_append {head tail core marks a' b' : List Char}
    (hhead : head = a ++ core ++ b) (htail : tail = a' ++ marks ++ b')
    (ha : a.all Text.isBlank = true) (hb : b.all Text.isBlank = true)
    (ha' : a'.all Text.isBlank = true) (hb' : b'.all Text.isBlank = true)
    (hcore : Tight core) (hmarks : marks = [] ∨ Tight marks) :
    ∃ gap, gap.all Text.isBlank = true ∧
      Text.trimChars (head ++ tail) = core ++ gap ++ marks := by
  rcases hmarks with rfl | hmarks
  · have htrim := trimChars_append (b := b ++ a' ++ b') ha (by simp [hb, ha', hb']) hcore
    exact ⟨[], rfl, by simpa [hhead, htail] using htrim⟩
  · have htrim := trimChars_append ha hb' (hcore.append (b ++ a') hmarks)
    exact ⟨b ++ a', by simp [hb, ha'], by simpa [hhead, htail] using htrim⟩

/-- Trimming and the loss of the qualifier leave the segments and the trimmed marks. -/
theorem exists_segments (r : Reference) {head tail : List Char} (hhead : Spells r.nameTokens head)
    (htail : Spells r.markTokens tail) (halias : [':', ':'] ∉ r.segmentTokens) :
    ∃ body gap, dropAlias (Text.trimChars (head ++ tail)) = body ++ gap ++ Text.trimChars tail ∧
      gap.all Text.isBlank = true ∧ Spells r.segmentTokens body := by
  obtain ⟨hcore, htight, a, b, hcut, ha, hb⟩ :=
    hhead.trim fun _ => Reference.isToken_of_mem_nameTokens
  obtain ⟨hmarks, hmtight, a', b', hcut', ha', hb'⟩ :=
    htail.trim fun _ => Reference.isToken_of_mem_markTokens
  have htight : Tight (Text.trimChars head) := by
    refine htight.resolve_left fun hempty => ?_
    obtain ⟨qualifier, outer, ⟨name, arguments⟩, marks⟩ := r
    simp [Reference.nameTokens, Reference.segmentTokens, Reference.last, Segment.tokens] at hempty
  obtain ⟨gap, hgap, htrim⟩ := exists_trimChars_append hcut hcut' ha hb ha' hb' htight
    (hmtight.imp_left And.right)
  obtain ⟨q, body, hsplit, hq, hbody⟩ := hcore.exists_append
  have hcolon : ':' ∉ body ++ gap ++ Text.trimChars tail := by
    have hsegments : ∀ token ∈ r.segmentTokens, IsToken token := fun token htoken =>
      Reference.isToken_of_mem_nameTokens (List.mem_append_right _ htoken)
    simp only [List.mem_append, not_or]
    exact ⟨⟨hbody.colon_not_mem hsegments halias, not_mem_of_all_isBlank hgap rfl⟩,
      not_mem_of_spells_markTokens hmarks rfl (by decide)⟩
  obtain ⟨blanks, hblanks, hdrop⟩ := dropAlias_of_spells_qualifier hq hcolon
  refine ⟨blanks ++ body, gap, ?_, hgap, hbody.blanks_append hblanks⟩
  rw [htrim, hsplit]
  simpa using hdrop

/-! ## The simple name -/

/-- Of dotted names, the last segment and what follows it remain. -/
theorem trimChars_lastSegment {outer : List Segment} {front left : List Char} (name : Identifier)
    (hplain : ∀ s ∈ outer, s.isGeneric = false) (hfront : Spells (outerTokens outer) front)
    (ha : a.all Text.isBlank = true) (hb : b.all Text.isBlank = true) (hleft : '.' ∉ left) :
    (∀ c ∈ front ++ (a ++ name.chars ++ b), isDottedChar c = true) ∧
    Text.trimChars (lastSegment (front ++ (a ++ name.chars ++ b) ++ left)) =
      Text.trimChars (name.chars ++ (b ++ left)) := by
  have hdot : '.' ∉ a ++ name.chars ++ b ++ left := by
    simp only [List.mem_append, not_or]
    refine ⟨⟨⟨not_mem_of_all_isBlank ha rfl, fun hc => ?_⟩, not_mem_of_all_isBlank hb rfl⟩, hleft⟩
    exact absurd (name.isNameChar hc) (by decide)
  obtain ⟨hdotted, blanks, hblanks, hlast⟩ := lastSegment_of_spells_outer hplain hfront hdot
  refine ⟨fun c hc => ?_, ?_⟩
  · simp only [List.mem_append] at hc
    rcases hc with hc | (hc | hc) | hc
    · exact hdotted c hc
    · exact isDottedChar_of_isBlank (List.all_eq_true.mp ha c hc)
    · exact isDottedChar_of_isNameChar (name.isNameChar hc)
    · exact isDottedChar_of_isBlank (List.all_eq_true.mp hb c hc)
  · rw [List.append_assoc front, hlast, trimChars_blanks_append hblanks, List.append_assoc,
      List.append_assoc, trimChars_blanks_append ha]

/-- The name in front of the first type arguments is the simple name. -/
theorem simpleChars_of_generic {r : Reference} {s : Segment} {head tail : List Char}
    (hhead : Spells r.nameTokens head) (htail : Spells r.markTokens tail)
    (halias : [':', ':'] ∉ r.segmentTokens)
    (hs : r.segments.find? Segment.isGeneric = some s) :
    simpleChars (head ++ tail) = s.name.chars := by
  obtain ⟨body, gap, hdrop, -, hbody⟩ := exists_segments r hhead htail halias
  obtain ⟨outer, more, htokens, hplain⟩ := Reference.segmentTokens_of_generic hs
  rw [htokens] at hbody
  obtain ⟨front, rest, rfl, hfront, hrest⟩ := hbody.exists_append
  cases hrest with
  | cons a ha hrest =>
    cases hrest with
    | @cons b hb _ _ behind hrest =>
      obtain ⟨hdotted, hlast⟩ := trimChars_lastSegment s.name hplain hfront ha hb List.not_mem_nil
      have hname := trimChars_append (a := []) rfl hb s.name.isToken.tight
      have hbare := bareName_append hdotted ('<' :: (behind ++ gap ++ Text.trimChars tail))
      rw [simpleChars_eq_bareName, hdrop]
      rw [List.takeWhile_cons_of_neg (by simp), leftover_nil, hlast] at hbare
      rw [List.nil_append] at hname
      simpa [hname] using hbare

@[grind →] theorem mem_of_mem_leftover (h : c ∈ leftover cs) : c ∈ cs :=
  mem_of_mem_trimEndWhile (List.takeWhile_subset _ h)

/-- Without type arguments, the last name and what the marks leave behind is the simple name. -/
theorem simpleChars_of_not_generic {r : Reference} {head tail : List Char}
    (hhead : Spells r.nameTokens head) (htail : Spells r.markTokens tail)
    (halias : [':', ':'] ∉ r.segmentTokens)
    (hs : r.segments.find? Segment.isGeneric = none) :
    ∃ gap, gap.all Text.isBlank = true ∧ simpleChars (head ++ tail) =
      Text.trimChars (r.last.name.chars ++ (gap ++ leftover (Text.trimChars tail))) := by
  obtain ⟨body, gap, hdrop, hgap, hbody⟩ := exists_segments r hhead htail halias
  have hmarks := (htail.trim fun _ => Reference.isToken_of_mem_markTokens).1
  have hangle : (Text.trimChars tail).takeWhile (· != '<') = Text.trimChars tail := by
    refine List.takeWhile_eq_self_iff.mpr fun c hc => ?_
    simpa using ne_of_mem_of_not_mem hc (not_mem_of_spells_markTokens hmarks rfl (by decide))
  have hdot : '.' ∉ leftover (Text.trimChars tail) := fun hmem =>
    not_mem_of_spells_markTokens hmarks rfl (by decide) (mem_of_mem_leftover hmem)
  have hplain : ∀ s ∈ r.segments, s.isGeneric = false := by simpa using hs
  obtain ⟨qualifier, outer, ⟨name, arguments⟩, marks⟩ := r
  simp only [Reference.segments, Reference.outer, Reference.last, List.forall_mem_append,
    List.forall_mem_singleton] at hplain
  obtain ⟨hplain, hlast⟩ := hplain
  obtain rfl : arguments = [] := by simpa [Segment.isGeneric] using hlast
  simp only [Reference.segmentTokens, Reference.outer, Reference.last, Segment.tokens,
    argumentTokens] at hbody
  obtain ⟨front, rest, rfl, hfront, hrest⟩ := hbody.exists_append
  cases hrest with
  | @cons a ha _ _ b hrest =>
    cases hrest with
    | nil _ hb =>
      have hblanks : (b ++ gap).all Text.isBlank = true := by simp [hb, hgap]
      obtain ⟨hdotted, hname⟩ := trimChars_lastSegment name hplain hfront ha hblanks hdot
      have hbare := bareName_append hdotted (Text.trimChars tail)
      refine ⟨b ++ gap, hblanks, ?_⟩
      rw [hangle, hname] at hbare
      rw [simpleChars_eq_bareName, hdrop]
      simpa [Reference.last, Segment.name] using hbare

/-! ## What the marks leave behind -/

/-- The mark is a pair of brackets. -/
def Mark.isRank : Mark → Bool
  | rank _ => true
  | _ => false

/-- Characters are cut off the end, so that the first one goes with all others or stays. -/
theorem trimEndWhile_cons_cases (p : Char → Bool) (c : Char) (rest : List Char) :
    (∀ d ∈ c :: rest, p d = true) ∧ Text.trimEndWhile p (c :: rest) = [] ∨
    (¬ ∀ d ∈ c :: rest, p d = true) ∧ ∃ front, Text.trimEndWhile p (c :: rest) = c :: front := by
  by_cases hall : ∀ d ∈ c :: rest, p d = true
  · exact .inl ⟨hall, trimEndWhile_eq_nil hall⟩
  · refine .inr ⟨hall, ?_⟩
    have hprefix : Text.trimEndWhile p (c :: rest) <+: c :: rest := by
      rw [← List.reverse_suffix, Text.trimEndWhile, List.reverse_reverse]
      exact List.dropWhile_suffix p
    rcases List.prefix_cons_iff.mp hprefix with hnil | ⟨front, hfront, -⟩
    · refine absurd (fun d hd => ?_) hall
      have hdrop : (c :: rest).reverse.dropWhile p = [] := by simpa [Text.trimEndWhile] using hnil
      exact List.dropWhile_eq_nil_iff.mp hdrop d (List.mem_reverse.mpr hd)
    · exact ⟨front, hfront⟩

/-- The first character of marks that neither start nor end with white space. -/
theorem exists_cons_of_spells_marks {m : Mark} {ms : List Mark} (htight : Tight cs)
    (h : Spells ((m :: ms).flatMap Mark.tokens) cs) :
    ∃ c rest, cs = c :: rest ∧ Text.isBlank c = false ∧ (c = '[' ↔ m.isRank = true) := by
  obtain ⟨⟨c, rest, hcons, hc⟩, -⟩ := htight
  have hfirst (d : Char) (more : List (List Char)) (hm : m.tokens = [d] :: more) : c = d := by
    rw [List.flatMap_cons, hm] at h
    cases h with
    | cons blanks hblanks h =>
      cases blanks with
      | nil => exact (List.cons.inj hcons).1.symm
      | cons b blanks =>
        obtain rfl : b = c := (List.cons.inj hcons).1
        simp [hc] at hblanks
  refine ⟨c, rest, hcons, hc, ?_⟩
  cases m with
  | nullable => simp [hfirst '?' [] rfl, Mark.isRank]
  | pointer => simp [hfirst '*' [] rfl, Mark.isRank]
  | rank commas => simp [hfirst '[' _ rfl, Mark.isRank]

/-- The marks are cut off completely if the first one is a pair of brackets, or if neither white
space nor a comma stands among them. -/
theorem leftover_blank_iff {r : Reference} {tail : List Char} (htail : Spells r.markTokens tail) :
    (leftover (Text.trimChars tail)).all Text.isBlank = true ↔
      r.marks.head?.all Mark.isRank = true ∨
        ∀ c ∈ Text.trimChars tail, isSuffixMark c = true := by
  obtain ⟨hmarks, htight, -⟩ := htail.trim fun _ => Reference.isToken_of_mem_markTokens
  rw [Reference.markTokens] at hmarks htight
  generalize Text.trimChars tail = cs at hmarks htight
  cases hlist : r.marks with
  | nil =>
    rw [hlist] at hmarks
    obtain rfl : cs = [] := by
      rcases htight with ⟨-, hnil⟩ | ⟨⟨c, rest, rfl, hc⟩, -⟩
      · exact hnil
      · cases hmarks with
        | nil _ hblanks => simp [hc] at hblanks
    simp [leftover]
  | cons m ms =>
    rw [hlist] at hmarks htight
    have htight : Tight cs := by
      refine htight.resolve_left fun hempty => ?_
      cases m <;> simp [Mark.tokens] at hempty
    obtain ⟨c, rest, rfl, hc, hrank⟩ := exists_cons_of_spells_marks htight hmarks
    rcases trimEndWhile_cons_cases isSuffixMark c rest with ⟨hall, htrim⟩ | ⟨hsome, front, htrim⟩
    · simp only [leftover, htrim]
      exact ⟨fun _ => .inr hall, fun _ => rfl⟩
    · simp only [hsome, or_false, List.head?_cons, Option.all_some, ← hrank, leftover, htrim]
      by_cases hbracket : c = '['
      · simp [hbracket]
      · simp [hbracket, hc]

theorem mem_trimChars_of_not_isBlank (hc : c ∈ cs) (hblank : Text.isBlank c = false) :
    c ∈ Text.trimChars cs := by
  have hdrop {xs : List Char} (hx : c ∈ xs) : c ∈ xs.dropWhile Text.isBlank := by
    rw [← List.takeWhile_append_dropWhile (p := Text.isBlank) (l := xs)] at hx
    refine (List.mem_append.mp hx).resolve_left fun htake => ?_
    simp [List.mem_takeWhile_imp htake] at hblank
  rw [Text.trimChars, Text.trimEndWhile]
  exact List.mem_reverse.mpr (hdrop (List.mem_reverse.mpr (hdrop hc)))

/-- A name stands alone if nothing but white space is left behind it. -/
theorem trimChars_eq_name_iff {r : Reference} {tail : List Char} (name : Identifier)
    (htail : Spells r.markTokens tail) (hgap : gap.all Text.isBlank = true) :
    Text.trimChars (name.chars ++ (gap ++ leftover (Text.trimChars tail))) = name.chars ↔
      (leftover (Text.trimChars tail)).all Text.isBlank = true := by
  constructor
  · intro heq
    refine List.all_eq_true.mpr fun c hc => ?_
    by_contra hblank
    rw [Bool.not_eq_true] at hblank
    -- what is left of the marks would belong to the name
    have hname : c ∈ name.chars := by
      rw [← heq]
      exact mem_trimChars_of_not_isBlank (by simp [hc]) hblank
    have hdotted := isDottedChar_iff.mp (isDottedChar_of_isNameChar (name.isNameChar hname))
    have hmarks := (htail.trim fun _ => Reference.isToken_of_mem_markTokens).1
    refine not_mem_of_spells_markTokens hmarks hblank ?_ (mem_of_mem_leftover hc)
    simp [hdotted]
  · intro hleft
    simpa using trimChars_append (a := []) rfl (by simp [hgap, hleft]) name.isToken.tight

/-- The simple name of a reference. If no `::` stands in its type arguments, this is the last name
of the reference exactly if the first segment with type arguments goes by that name, and if, where
no segment has any, the marks are cut off: the first of them is a pair of brackets, or neither white
space nor a comma stands among them. Otherwise it is the simple name of what stands behind the last
`::`, wherever that one stands. -/
theorem simple_eq_last_iff (r : Reference) {head tail : List Char}
    (hhead : Spells r.nameTokens head) (htail : Spells r.markTokens tail) :
    ([':', ':'] ∉ r.segmentTokens →
      (simple (String.ofList (head ++ tail)) = String.ofList r.last.name.chars ↔
        (∀ s, r.segments.find? Segment.isGeneric = some s → s.name = r.last.name) ∧
        (r.segments.find? Segment.isGeneric = none →
          r.marks.head?.all Mark.isRank = true ∨
            ∀ c ∈ Text.trimChars tail, isSuffixMark c = true))) ∧
    ([':', ':'] ∈ r.segmentTokens → ∃ front rest, head ++ tail = front ++ ':' :: ':' :: rest ∧
      ':' ∉ rest ∧ simple (String.ofList (head ++ tail)) = simple (String.ofList rest)) := by
  constructor
  · intro halias
    rw [simple, String.toList_ofList, String.ofList_inj]
    cases hs : r.segments.find? Segment.isGeneric with
    | none =>
      obtain ⟨gap, hgap, hsimple⟩ := simpleChars_of_not_generic hhead htail halias hs
      rw [hsimple, trimChars_eq_name_iff _ htail hgap, leftover_blank_iff htail]
      simp
    | some s =>
      rw [simpleChars_of_generic hhead htail halias hs]
      simp [Identifier.ext_iff]
  · intro halias
    obtain ⟨front, rest, rfl, hrest⟩ := hhead.exists_alias
      (fun _ => Reference.isToken_of_mem_nameTokens) (List.mem_append_right _ halias)
    have hcolon : ':' ∉ rest ++ tail := by
      simpa [hrest] using not_mem_of_spells_markTokens (c := ':') htail rfl (by decide)
    refine ⟨front, rest ++ tail, by simp, hcolon, ?_⟩
    rw [simple, simple, String.toList_ofList, String.toList_ofList, List.append_assoc]
    exact congrArg String.ofList (simpleChars_append_alias hcolon)

/-! ## Some references -/

/-- The identifier of the one letter `c`. -/
def Identifier.ofChar (c : Char) (h : TypeName.isNameChar c = true) : Identifier where
  chars := [c]
  ne_nil := by simp
  all_isNameChar := by simpa using h

/-- The reference by the `name` alone. -/
def Reference.ofName (name : Identifier) : Reference :=
  .mk none [] (.mk name []) []

/-- The reference `x::A.B<C>[]?`. -/
def qualifiedArray : Reference :=
  .mk (some (.ofChar 'x' rfl)) [.mk (.ofChar 'A' rfl) []]
    (.mk (.ofChar 'B' rfl) [.ofName (.ofChar 'C' rfl)]) [.rank 0, .nullable]

theorem simple_eq_last_iff_spaced :
    [':', ':'] ∉ qualifiedArray.segmentTokens ∧
    Spells qualifiedArray.nameTokens "x:: A. B < C>".toList ∧
    Spells qualifiedArray.markTokens " [ ] ?".toList ∧
    simple "x:: A. B < C> [ ] ?" = "B" := by
  have halias : [':', ':'] ∉ qualifiedArray.segmentTokens := by decide
  have hhead : Spells qualifiedArray.nameTokens "x:: A. B < C>".toList := by
    exact .cons [] rfl (.cons [] rfl (.cons [' '] rfl (.cons [] rfl (.cons [' '] rfl
      (.cons [' '] rfl (.cons [' '] rfl (.cons [] rfl (.nil [] rfl))))))))
  have htail : Spells qualifiedArray.markTokens " [ ] ?".toList := by
    exact .cons [' '] rfl (.cons [' '] rfl (.cons [' '] rfl (.nil [] rfl)))
  refine ⟨halias, hhead, htail, ?_⟩
  have hiff := (simple_eq_last_iff qualifiedArray hhead htail).1 halias
  have hfirst : qualifiedArray.segments.find? Segment.isGeneric = some qualifiedArray.last := rfl
  have hsimple := hiff.mpr ⟨fun s hs => ?_, fun hnone => ?_⟩
  · exact hsimple
  · rw [hfirst] at hs
    rw [Option.some.inj hs]
  · simp [hfirst] at hnone

/-- The reference `A<x::B>`. -/
def qualifiedArgument : Reference :=
  .mk none []
    (.mk (.ofChar 'A' rfl) [.mk (some (.ofChar 'x' rfl)) [] (.mk (.ofChar 'B' rfl) []) []]) []

/-- The reference `A<B>.C`. -/
def genericOuter : Reference :=
  .mk none [.mk (.ofChar 'A' rfl) [.ofName (.ofChar 'B' rfl)]] (.mk (.ofChar 'C' rfl) []) []

/-- The reference `A?[,]`. -/
def nullableElement : Reference :=
  .mk none [] (.mk (.ofChar 'A' rfl) []) [.nullable, .rank 1]

theorem spells_flatten (tokens : List (List Char)) : Spells tokens tokens.flatten := by
  induction tokens with
  | nil => exact .nil [] rfl
  | cons token tokens ih => exact .cons [] rfl ih

/-- The simple name is not the last name of a reference with `::` in its type arguments, with type
arguments in front of a dot, or with `?` in front of brackets that hold a comma. -/
theorem simple_ne_last :
    (Spells qualifiedArgument.tokens "A<x::B>".toList ∧
      String.ofList qualifiedArgument.last.name.chars = "A" ∧ simple "A<x::B>" = "B>") ∧
    (Spells genericOuter.tokens "A<B>.C".toList ∧
      String.ofList genericOuter.last.name.chars = "C" ∧ simple "A<B>.C" = "A") ∧
    Spells nullableElement.tokens "A?[,]".toList ∧
      String.ofList nullableElement.last.name.chars = "A" ∧ simple "A?[,]" = "A?" := by
  exact ⟨⟨spells_flatten _, rfl, by decide +kernel⟩, ⟨spells_flatten _, rfl, by decide +kernel⟩,
    spells_flatten _, rfl, by decide +kernel⟩

end CodeAtlas.TypeName
