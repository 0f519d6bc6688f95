/-!
# Patterns for paths

A pattern describes paths byte by byte. `?` stands for a byte and `*` for any number of bytes other
than slashes, `[a-z]` for a byte of a class, `{a,b}` for one of several patterns, and `**` as a
whole part of the path for any number of parts.

## Main definitions

* `Glob.Piece`: the pieces of a pattern.
* `Glob.parse?`: reading a pattern.
* `Glob.describes`: the paths that a pattern describes.
-/
namespace CodeAtlas.Glob

/-! ## Patterns -/

/-- The pieces of a pattern. -/
inductive Piece where
  | literal (bytes : List UInt8)
  /-- A byte other than a slash. -/
  | one
  /-- Any bytes other than slashes. -/
  | many
  /-- A byte inside, or outside, of some ranges. -/
  | oneOf (outside : Bool) (ranges : List (UInt8 × UInt8))
  /-- Any parts in front of the rest. -/
  | leading
  /-- A slash, then any parts. -/
  | between
  /-- A slash, then anything. -/
  | inside
  | choice (options : List (List Piece))

def slash : UInt8 := 47

/-- The bytes of `c`. -/
def bytesOf (c : Char) : List UInt8 :=
  c.toString.toUTF8.toList

/-! ## Classes -/

/-- The outcome of reading a class. -/
inductive ClassReading where
  /-- The ranges of the class, and how many characters it took. -/
  | closed (ranges : List (Char × Char)) (width : Nat)
  | unclosed
  /-- A range that ends before it starts. -/
  | invalid

/-- Ends the range that was started last at the character `stop`. The ranges are listed
backwards. -/
def endRange? (stop : Char) : List (Char × Char) → Option (List (Char × Char))
  | [] => none
  | (start, _) :: rest => if stop < start then none else some ((start, stop) :: rest)

/-- Reads a class after its opening bracket, of which `ranges` and `width` characters are read. A
closing bracket or a dash in `first` place stands for itself, and `inRange` says that a range is to
be ended. -/
def readClass (first inRange : Bool) (ranges : List (Char × Char)) (width : Nat) :
    List Char → ClassReading
  | [] => .unclosed
  | c :: rest =>
    if c = ']' && !first then .closed (if inRange then ('-', '-') :: ranges else ranges) (width + 1)
    else if c = '-' && !first && !inRange then readClass false true ranges (width + 1) rest
    else if inRange then
      match endRange? c ranges with
      | some ranges => readClass false false ranges (width + 1) rest
      | none => .invalid
    else readClass false false ((c, c) :: ranges) (width + 1) rest

/-- The ranges of bytes of a `range` of characters. -/
def byteRanges (range : Char × Char) : List (UInt8 × UInt8) :=
  let single (b : UInt8) : UInt8 × UInt8 := (b, b)
  let low := bytesOf range.1
  let high := bytesOf range.2
  if range.1 = range.2 then low.map single
  else
    match low.getLast?, high with
    | some a, b :: more => low.dropLast.map single ++ [(a, b)] ++ more.map single
    | _, _ => []

/-! ## Reading -/

/-- The part of a pattern that has been read. Pieces are kept the last one first. -/
structure Reading where
  /-- The pieces of the innermost open option. -/
  pieces : List Piece := []
  /-- The open choices, the innermost first: their finished options, and the pieces in front of
  them. -/
  outer : List (List (List Piece) × List Piece) := []

namespace Reading

def push (r : Reading) (p : Piece) : Reading :=
  { r with pieces := p :: r.pieces }

/-- Puts `p` in the place of the last piece, unless that one already stands for any parts at an
end. -/
def replaceLast (r : Reading) (p : Piece) : Reading :=
  match r.pieces with
  | .leading :: _ | .inside :: _ => r
  | _ :: rest => { r with pieces := p :: rest }
  | [] => r

def openChoice (r : Reading) : Reading :=
  { pieces := [], outer := ([], r.pieces) :: r.outer }

def nextOption (r : Reading) : Reading :=
  match r.outer with
  | [] => r
  | (options, front) :: rest =>
    { pieces := [], outer := (r.pieces.reverse :: options, front) :: rest }

def closeChoice? (r : Reading) : Option Reading :=
  match r.outer with
  | [] => none
  | (options, front) :: rest =>
    some { pieces := .choice (r.pieces.reverse :: options).reverse :: front, outer := rest }

/-- What is read for two stars, given the character `before` them and the `rest` of the pattern; and
whether a following slash belongs to them. -/
def doubleStar (r : Reading) (before : Option Char) (rest : List Char) : Reading × Bool :=
  let plain := (r.push .many).push .many
  let inChoice := !r.outer.isEmpty
  match r.pieces, rest with
  | [], [] => (r.push .leading, false)
  | [], c :: _ => if c = '/' then (r.push .leading, true) else (plain, false)
  | _ :: _, rest =>
    if before != some '/' && !(inChoice && (before == some ',' || before == some '\x7b')) then
      (plain, false)
    else
      match rest with
      | [] => (r.replaceLast .inside, false)
      | c :: _ =>
        if inChoice && (c = ',' || c = '\x7d') then (r.replaceLast .inside, false)
        else if c = '/' then (r.replaceLast .between, true)
        else (plain, false)

end Reading

/-- Reads the rest of a pattern, given what is read as `r` and the character `before` it. An opening
bracket that is never closed stands for itself, as do all after it, and then `classes` is off. -/
def readFrom (r : Reading) (before : Option Char) (classes : Bool) : List Char → Option (List Piece)
  | [] => if r.outer.isEmpty then some r.pieces.reverse else none
  | '?' :: rest => readFrom (r.push .one) (some '?') classes rest
  | '*' :: '*' :: rest =>
    let (r, takesSlash) := r.doubleStar before rest
    if takesSlash then readFrom r (some '/') classes (rest.drop 1)
    else readFrom r (some '*') classes rest
  | '*' :: rest => readFrom (r.push .many) (some '*') classes rest
  | '\x7b' :: rest => readFrom r.openChoice (some '\x7b') classes rest
  | '\x7d' :: rest => do readFrom (← r.closeChoice?) (some '\x7d') classes rest
  | ['\\'] => none
  | '\\' :: c :: rest => readFrom (r.push (.literal (bytesOf c))) (some c) classes rest
  | c :: rest =>
    if c = ',' && !r.outer.isEmpty then readFrom r.nextOption (some ',') classes rest
    else if c = '[' && classes then
      let outside := rest.head? == some '!' || rest.head? == some '^'
      let inner := if outside then rest.tail else rest
      match readClass true false [] (if outside then 1 else 0) inner with
      | .closed ranges width =>
        let piece := Piece.oneOf outside (ranges.reverse.flatMap byteRanges)
        readFrom (r.push piece) (some ']') classes (rest.drop width)
      | .unclosed => readFrom (r.push (.literal (bytesOf c))) (some c) false rest
      | .invalid => none
    else readFrom (r.push (.literal (bytesOf c))) (some c) classes rest
termination_by cs => cs.length
decreasing_by all_goals simp <;> omega

/-- Reads `pattern`. A pattern that is nothing but any parts describes every path. -/
def parse? (pattern : String) : Option (List Piece) := do
  match ← readFrom {} none true pattern.toList with
  | [.leading] => return [.leading, .many]
  | pieces => return pieces

/-! ## Matching -/

/-- What remains after each slash. -/
def afterSlashes : List UInt8 → List (List UInt8)
  | [] => []
  | b :: bs => if b = slash then bs :: afterSlashes bs else afterSlashes bs

/-- What remains after any number of bytes other than slashes. -/
def afterMany : List UInt8 → List (List UInt8)
  | [] => [[]]
  | b :: bs => if b = slash then [b :: bs] else (b :: bs) :: afterMany bs

/-- What remains after any number of bytes. -/
def afterAny : List UInt8 → List (List UInt8)
  | [] => [[]]
  | b :: bs => (b :: bs) :: afterAny bs

/-- What remains of `path` after the literal `bytes`. -/
def afterLiteral : (bytes path : List UInt8) → List (List UInt8)
  | [], path => [path]
  | b :: bytes, c :: path => if b = c then afterLiteral bytes path else []
  | _ :: _, [] => []

mutual

/-- What may remain of a path after a piece of a pattern. -/
def Piece.rests : Piece → List UInt8 → List (List UInt8)
  | .literal bytes, path => afterLiteral bytes path
  | .one, path =>
    match path with
    | [] => []
    | b :: bs => if b = slash then [] else [bs]
  | .many, path => afterMany path
  | .oneOf outside ranges, path =>
    match path with
    | [] => []
    | b :: bs => if ranges.any (fun (low, high) => low ≤ b && b ≤ high) != outside then [bs] else []
  | .leading, path => path :: afterSlashes path
  | .between, path =>
    match path with
    | [] => []
    | b :: bs => if b = slash then bs :: afterSlashes bs else []
  | .inside, path =>
    match path with
    | [] => []
    | b :: bs => if b = slash then afterAny bs else []
  | .choice options, path => restsOfAny options path

/-- What may remain of a path after some pieces in a row. -/
def restsOfAll : List Piece → List UInt8 → List (List UInt8)
  | [], path => [path]
  | p :: ps, path => (p.rests path).flatMap (restsOfAll ps)

/-- What may remain of a path after one of several patterns. -/
def restsOfAny : List (List Piece) → List UInt8 → List (List UInt8)
  | [], _ => []
  | option :: options, path => restsOfAll option path ++ restsOfAny options path

end

/-- The `pattern` describes the whole `path`. -/
def describes (pattern : List Piece) (path : String) : Bool :=
  (restsOfAll pattern path.toUTF8.toList).any (·.isEmpty)

end CodeAtlas.Glob
