/-!
# Texts in a settings file

Readers for blanks, comments, line ends, quoted texts and keys. Each takes the characters that are
left and gives what it read with the characters after it.

## Main definitions

* `skipBlanks`, `skipTrivia`, `endLine?`: what stands between values.
* `readText?`: quoted texts, on one line or several.
* `readKey?`: dotted keys.
-/
namespace CodeAtlas.Toml

/-! ## Between values -/

def isBlank (c : Char) : Bool := c == ' ' || c == '\t'

/-- The character `c` may stand in a comment or a text: it is no control character except a tab. -/
def isPlain (c : Char) : Bool :=
  c == '\t' || (32 ≤ c.toNat && c.toNat ≠ 127)

def skipBlanks (cs : List Char) : List Char :=
  cs.dropWhile isBlank

/-- Takes a line end. -/
def newline? : List Char → Option (List Char)
  | '\n' :: rest => some rest
  | '\r' :: '\n' :: rest => some rest
  | _ => none

def skipComment : List Char → List Char
  | '#' :: rest => rest.dropWhile isPlain
  | cs => cs

/-- Takes the end of a line off `cs`: blanks, a comment, and a line end or the end of the file. -/
def endLine? (cs : List Char) : Option (List Char) :=
  match skipComment (skipBlanks cs) with
  | [] => some []
  | rest => newline? rest

/-- Skips blanks, line ends and comments, where `inComment` says whether it starts in one. -/
def skipTrivia (inComment : Bool) : List Char → List Char
  | [] => []
  | c :: rest =>
    if c = '\n' then skipTrivia false rest
    else if c = '\r' && rest.head? == some '\n' then skipTrivia false rest
    else if inComment then if isPlain c then skipTrivia true rest else c :: rest
    else if isBlank c then skipTrivia false rest
    else if c = '#' then skipTrivia true rest
    else c :: rest

/-! ## Quoted texts -/

def hexDigit? (c : Char) : Option Nat :=
  if c.isDigit then some (c.toNat - '0'.toNat)
  else if 'a' ≤ c && c ≤ 'f' then some (c.toNat - 'a'.toNat + 10)
  else if 'A' ≤ c && c ≤ 'F' then some (c.toNat - 'A'.toNat + 10)
  else none

/-- The number with these hexadecimal `digits`. -/
def hexNumber? (digits : List Char) : Option Nat :=
  digits.foldlM (fun n c => (hexDigit? c).map (16 * n + ·)) 0

/-- The character whose number has these hexadecimal `digits`. -/
def hexChar? (digits : List Char) : Option Char := do
  let n ← hexNumber? digits
  if h : n.isValidChar then some (Char.ofNatAux n h) else none

/-- The character that a letter after a backslash stands for. -/
def escaped? : Char → Option Char
  | 'b' => some '\x08'
  | 'f' => some '\x0c'
  | 'n' => some '\n'
  | 'r' => some '\r'
  | 't' => some '\t'
  | '\\' => some '\\'
  | '"' => some '"'
  | _ => none

/-- Puts `c` in front of what was read. -/
def consChar (c : Char) (r : Option (List Char × List Char)) : Option (List Char × List Char) :=
  r.map fun (cs, rest) => (c :: cs, rest)

/-- Reads a text on one line after its opening quotation mark. -/
def readQuoted? : List Char → Option (List Char × List Char)
  | [] => none
  | '"' :: rest => some ([], rest)
  | '\\' :: 'u' :: a :: b :: c :: d :: rest => do
    consChar (← hexChar? [a, b, c, d]) (readQuoted? rest)
  | '\\' :: 'U' :: a :: b :: c :: d :: e :: f :: g :: h :: rest => do
    consChar (← hexChar? [a, b, c, d, e, f, g, h]) (readQuoted? rest)
  | '\\' :: c :: rest => do consChar (← escaped? c) (readQuoted? rest)
  | c :: rest => if isPlain c && c != '\\' then consChar c (readQuoted? rest) else none

/-- Reads a text on one line without escapes after its opening apostrophe. -/
def readLiteral? : List Char → Option (List Char × List Char)
  | [] => none
  | '\'' :: rest => some ([], rest)
  | c :: rest => if isPlain c then consChar c (readLiteral? rest) else none

/-- A backslash in front of `rest` ends its line: only blanks stand between it and the line end. -/
def joinsLines (rest : List Char) : Bool :=
  (newline? (skipBlanks rest)).isSome

/-- Reads a text on several lines. Up to two quotation marks may stand in front of the three that
end it. After a backslash that ends a line, blanks and line ends are skipped, which is going on if
`skipping`. -/
def readQuotedLines? (skipping : Bool) : List Char → Option (List Char × List Char)
  | [] => none
  | '"' :: '"' :: '"' :: '"' :: '"' :: rest => some (['"', '"'], rest)
  | '"' :: '"' :: '"' :: '"' :: rest => some (['"'], rest)
  | '"' :: '"' :: '"' :: rest => some ([], rest)
  | '\\' :: 'u' :: a :: b :: c :: d :: rest => do
    consChar (← hexChar? [a, b, c, d]) (readQuotedLines? false rest)
  | '\\' :: 'U' :: a :: b :: c :: d :: e :: f :: g :: h :: rest => do
    consChar (← hexChar? [a, b, c, d, e, f, g, h]) (readQuotedLines? false rest)
  | '\\' :: c :: rest =>
    if joinsLines (c :: rest) then readQuotedLines? true (c :: rest)
    else do consChar (← escaped? c) (readQuotedLines? false rest)
  | '\r' :: '\n' :: rest =>
    if skipping then readQuotedLines? true rest else consChar '\n' (readQuotedLines? false rest)
  | c :: rest =>
    if skipping && (isBlank c || c == '\n') then readQuotedLines? true rest
    else if c == '\n' || (isPlain c && c != '\\') then consChar c (readQuotedLines? false rest)
    else none

/-- Reads a text on several lines without escapes. Up to two apostrophes may stand in front of the
three that end it. -/
def readLiteralLines? : List Char → Option (List Char × List Char)
  | [] => none
  | '\'' :: '\'' :: '\'' :: '\'' :: '\'' :: rest => some (['\'', '\''], rest)
  | '\'' :: '\'' :: '\'' :: '\'' :: rest => some (['\''], rest)
  | '\'' :: '\'' :: '\'' :: rest => some ([], rest)
  | '\r' :: '\n' :: rest => consChar '\n' (readLiteralLines? rest)
  | c :: rest => if c == '\n' || isPlain c then consChar c (readLiteralLines? rest) else none

/-- Reads a text in quotation marks or apostrophes. A line end right after three opening marks is
dropped. -/
def readText? : List Char → Option (String × List Char)
  | '"' :: '"' :: '"' :: rest =>
    (readQuotedLines? false ((newline? rest).getD rest)).map fun (cs, rest) =>
      (String.ofList cs, rest)
  | '"' :: rest => (readQuoted? rest).map fun (cs, rest) => (String.ofList cs, rest)
  | '\'' :: '\'' :: '\'' :: rest =>
    (readLiteralLines? ((newline? rest).getD rest)).map fun (cs, rest) => (String.ofList cs, rest)
  | '\'' :: rest => (readLiteral? rest).map fun (cs, rest) => (String.ofList cs, rest)
  | _ => none

/-! ## Keys -/

def isKeyChar (c : Char) : Bool :=
  c.isAlphanum || c == '_' || c == '-'

/-- Reads one part of a key. -/
def readKeyPart? : List Char → Option (String × List Char)
  | '"' :: rest => (readQuoted? rest).map fun (cs, rest) => (String.ofList cs, rest)
  | '\'' :: rest => (readLiteral? rest).map fun (cs, rest) => (String.ofList cs, rest)
  | cs =>
    let name := cs.takeWhile isKeyChar
    if name.isEmpty then none else some (String.ofList name, cs.dropWhile isKeyChar)

/-- Reads a key of at most `fuel` parts. Blanks may stand around each part. -/
def readKeyParts? : (fuel : Nat) → List Char → Option (List String × List Char)
  | 0, _ => none
  | fuel + 1, cs => do
    let (part, rest) ← readKeyPart? (skipBlanks cs)
    match skipBlanks rest with
    | '.' :: rest =>
      let (parts, rest) ← readKeyParts? fuel rest
      return (part :: parts, rest)
    | rest => return ([part], rest)

/-- How deep keys and values may be nested. -/
def depthLimit : Nat := 79

/-- Reads a key from `cs`. -/
def readKey? (cs : List Char) : Option (List String × List Char) :=
  readKeyParts? depthLimit cs

end CodeAtlas.Toml
