import CodeAtlas.Symbol.Signature
import CodeAtlas.Text.Line

/-!
# Cleaning up a text

Passes that take out of a text what does not help to read it: comments, imports, namespaces around
the code and surplus blank lines. A pass that cuts out syntax reads the text anew with the grammar.

## Main definitions

* `Span`: a range of bytes.
* `removeSpans`: a text without some ranges, and without the lines that they leave blank.
* `withoutComments`, `withoutImports`: cutting out nodes of some kinds.
* `withoutNamespaces`: unwrapping namespaces.
* `shortenBlankRuns`: shortening runs of blank lines.
* `CleanupFlags`, `cleanUp`: the passes in a row.
-/
namespace CodeAtlas

/-- A range of bytes. -/
structure Span where
  start : Nat
  stop : Nat
deriving DecidableEq, Inhabited

namespace Span

/-- The range `a` comes before `b` or with it: by start, then by end. -/
def before (a b : Span) : Bool :=
  a.start < b.start || (a.start == b.start && a.stop ≤ b.stop)

end Span

/-! ## Removing ranges -/

/-- Widens a range `s` that is to be removed from `text`. If nothing else stands on its lines they
go with it; if nothing follows it on its line, neither do the spaces and tabs in front of it
stay. -/
def widen (text : String) (s : Span) : Span :=
  let lead := Text.lastLine (Text.before text s.start)
  let tail := Text.firstLine (Text.after text s.stop)
  if Text.blank lead && Text.blank tail then
    { start := s.start - lead.utf8ByteSize
      stop := min (s.stop + tail.utf8ByteSize + 1) text.utf8ByteSize }
  else if Text.blank tail then
    let kept := String.ofList (Text.trimEndWhile Text.isIndent lead.toList)
    { start := s.start - (lead.utf8ByteSize - kept.utf8ByteSize), stop := s.stop }
  else s

/-- The text from `pos` on without the given ranges, which are in order. -/
def cutFrom (text : String) (pos : Nat) : List Span → String
  | [] => Text.after text (min pos text.utf8ByteSize)
  | s :: rest =>
    (if pos < s.start then Text.slice text pos s.start else "") ++
      cutFrom text (max pos s.stop) rest

/-- The `text` without the ranges `spans`, which may overlap and come in any order. -/
def removeSpans (text : String) (spans : List Span) : String :=
  cutFrom text 0 ((spans.map (widen text)).mergeSort Span.before)

/-! ## Cutting out nodes -/

namespace Tree

def span (t : Tree) : Span := ⟨t.start, t.stop⟩

mutual

/-- The ranges of the outermost nodes that satisfy `p` and are reached through named nodes. -/
def spansOf (p : Tree → Bool) : Tree → List Span
  | node d cs => if p (node d cs) then [(node d cs).span] else spansIn p cs

/-- The ranges of the outermost nodes that satisfy `p` among the named nodes of a list. -/
def spansIn (p : Tree → Bool) : List Tree → List Span
  | [] => []
  | c :: cs => (if c.named then spansOf p c else []) ++ spansIn p cs

end

end Tree

/-- Removes the comments that `grammar` finds in `text`. What looks like one inside a literal
stays. -/
def withoutComments (grammar : Grammar) (text : String) : String :=
  removeSpans text ((grammar text).spansOf (·.kind == "comment"))

/-- Removes the directives of `text` that import names. -/
def withoutImports (grammar : Grammar) (text : String) : String :=
  removeSpans text ((grammar text).spansOf fun t =>
    t.kind == "using_directive" || t.kind == "extern_alias_directive")

/-! ## Unwrapping namespaces -/

namespace Tree

mutual

/-- The first namespace among the named children of a node. Nodes made by error recovery are looked
into. -/
def namespaceIn? : Tree → Option Tree
  | node _ cs => namespaceAmong? cs

/-- The first namespace among the named nodes of a list. -/
def namespaceAmong? : List Tree → Option Tree
  | [] => none
  | c :: cs =>
    if !c.named then namespaceAmong? cs
    else if c.isNamespace then some c
    else if c.kind == "ERROR" then
      match namespaceIn? c with
      | some found => some found
      | none => namespaceAmong? cs
    else namespaceAmong? cs

end

/-- The header of a file-scoped namespace `t`, up to and including its semicolon. -/
def headerSpan (t : Tree) : Span :=
  ⟨t.start, ((t.children.find? (·.kind == ";")).map (·.stop)).getD t.stop⟩

end Tree

/-- The number of spaces and tabs at the front of `line`. -/
def indentWidth (line : String) : Nat :=
  (line.toList.takeWhile Text.isIndent).length

/-- The least indentation of the lines of `text` that are not blank. -/
def commonIndent (text : String) : Nat :=
  (((Text.lines text).filter (!Text.blank ·)).map indentWidth).min?.getD 0

/-- Removes the indentation that all lines of `text` share. Blank lines lose all of theirs. -/
def outdent (text : String) : String :=
  let common := commonIndent text
  String.join ((Text.segments text).map fun line =>
    if Text.blank line then Text.dropIndent line else String.ofList (line.toList.drop common))

/-- Drops what follows the last line feed of `text`, if that is blank. A text without line feeds
stays as it is. -/
def dropBlankLastLine (text : String) : String :=
  if text.toList.contains '\n' && Text.blank (Text.lastLine text) then
    String.ofList (text.toList.take (text.length - (Text.lastLine text).length))
  else text

/-- The text `inner` of a namespace body without what stands on the lines of its braces. -/
def bodyText (inner : String) : String :=
  dropBlankLastLine ((Text.dropLeadingBreak? inner).getD (Text.dropIndent inner))

/-- Replaces the namespace `t` of `text` by its body, moved out to the margin. There must be a body
in braces. -/
def unwrapNamespace? (text : String) (t : Tree) : Option String := do
  let body ← t.field? "body"
  let open_ := body.start
  let close := body.stop - 1
  if body.stop = 0 || !Text.hasAscii text open_ '\x7b' || !Text.hasAscii text close '\x7d' then none
  else
    let inner := outdent (bodyText (Text.slice text (open_ + 1) close))
    let front := Text.before text t.start
    let lead := Text.lastLine front
    let front := if Text.blank lead then Text.before text (t.start - lead.utf8ByteSize) else front
    let back := Text.after text body.stop
    let back :=
      if inner.toList.getLast? == some '\n' then (Text.dropLeadingBreak? back).getD back else back
    some (front ++ inner ++ back)

/-- Takes the first namespace out of `text`. -/
def unwrapOnce? (grammar : Grammar) (text : String) : Option String := do
  let t ← (grammar text).namespaceIn?
  if t.isFileScope then some (removeSpans text [t.headerSpan]) else unwrapNamespace? text t

/-- Takes namespaces out of a text, at most `fuel` times and as long as that changes it. -/
def unwrapAll (grammar : Grammar) : (fuel : Nat) → String → String
  | 0, text => text
  | fuel + 1, text =>
    match unwrapOnce? grammar text with
    | none => text
    | some next => if next = text then text else unwrapAll grammar fuel next

/-- Takes all namespaces out of `text`. Every round makes it shorter. -/
def withoutNamespaces (grammar : Grammar) (text : String) : String :=
  unwrapAll grammar (text.utf8ByteSize + 1) text

/-! ## Blank lines -/

/-- The line `seg` has spaces and tabs only and ends with a line feed, in front of which a carriage
return may stand. -/
def isBlankSegment (seg : List Char) : Bool :=
  match seg.dropWhile Text.isIndent with
  | ['\n'] => true
  | ['\r', '\n'] => true
  | _ => false

/-- What a `run` of blank lines is written as: two empty lines if it is longer than that. -/
def writeRun (run : List (List Char)) : List (List Char) :=
  if run.length < 3 then run else [['\n'], ['\n']]

/-- Shortens the runs of blank lines; `run` is the one that the rest continues. -/
def shortenRuns (run : List (List Char)) : List (List Char) → List (List Char)
  | [] => writeRun run
  | seg :: rest =>
    if isBlankSegment seg then shortenRuns (run ++ [seg]) rest
    else writeRun run ++ seg :: shortenRuns [] rest

/-- Shortens every run of three or more blank lines of `text` to two empty ones. -/
def shortenBlankRuns (text : String) : String :=
  String.ofList (shortenRuns [] (Text.segmentChars text.toList)).flatten

/-! ## All passes -/

/-- Which passes a text goes through. -/
structure CleanupFlags where
  omitImports : Bool := true
  omitNamespaces : Bool := true
  omitComments : Bool := true
  omitBlankLines : Bool := true
deriving DecidableEq, Inhabited

/-- No pass at all. -/
def CleanupFlags.keepAll : CleanupFlags := ⟨false, false, false, false⟩

/-- The `text` after the passes that `flags` choose: comments, then imports, namespaces and blank
lines. -/
def cleanUp (grammar : Grammar) (flags : CleanupFlags) (text : String) : String :=
  let text := if flags.omitComments then withoutComments grammar text else text
  let text := if flags.omitImports then withoutImports grammar text else text
  let text := if flags.omitNamespaces then withoutNamespaces grammar text else text
  if flags.omitBlankLines then shortenBlankRuns text else text

end CodeAtlas
