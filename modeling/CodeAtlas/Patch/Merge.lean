import CodeAtlas.Patch.Owner
import CodeAtlas.Text.Line

/-!
# Merging a fragment

The members of a fragment are written into a type: each replaces the member with the same signature,
else the one with the same name, and what has neither is appended before the closing brace. The rest
of the text stays as it is.

## Main definitions

* `Tree.typeDeclaration?`: the declaration of the type.
* `shiftLines`: a text moved to another indentation.
* `Edit`, `applyEdits`: replacing ranges of a text.
* `mergeFragment`: the text with a fragment merged into it.
-/
namespace CodeAtlas

/-! ## Finding the type -/

namespace Tree

mutual

/-- The declarations of types called `name` in a node, reached through named nodes. -/
def typesNamed (source name : String) : Tree → List Tree
  | node d cs =>
    let t := node d cs
    (if t.typeKind?.isSome && t.declaredName? source == some name then [t] else []) ++
      typesNamedIn source name cs

/-- The declarations of types called `name` in the named nodes of a list. -/
def typesNamedIn (source name : String) : List Tree → List Tree
  | [] => []
  | c :: cs => (if c.named then typesNamed source name c else []) ++ typesNamedIn source name cs

end

/-- The declaration of `target` in `t`: of those with its name the one that starts where the index
says, else the first. -/
def typeDeclaration? (t : Tree) (source : String) (target : Owner) : Option Tree :=
  let candidates := t.typesNamed source target.typeName
  candidates.find? (·.start == target.start) <|> candidates.head?

end Tree

/-! ## Indentation -/

/-- Takes `front` off the front of `line`. -/
def dropFront? : (front line : List Char) → Option (List Char)
  | [], line => some line
  | c :: front, d :: line => if c = d then dropFront? front line else none
  | _ :: _, [] => none

/-- The `line` moved from the indentation `source` to `target`. A line that does not start with the
old one loses all of its own. Blank lines are not indented. -/
def shiftLine (source target line : List Char) : List Char :=
  if line.all Text.isBlank then line.dropWhile Text.isIndent
  else target ++ (dropFront? source line).getD (line.dropWhile Text.isIndent)

/-- The `text` whose lines after the first are moved from the indentation `source` to `target`. -/
def shiftLines (text source target : String) : String :=
  match Text.segmentChars text.toList with
  | [] => ""
  | first :: rest =>
    String.ofList (first ++ (rest.map (shiftLine source.toList target.toList)).flatten)

/-! ## Edits -/

/-- A range of a text and what it is replaced by. -/
structure Edit where
  start : Nat
  stop : Nat
  text : String
deriving DecidableEq, Inhabited

/-- The text from `pos` on with some edits made, which are ordered by start. An edit that starts in
the range of the one before it is passed over. -/
def editFrom (text : String) (pos : Nat) : List Edit → String
  | [] => Text.after text pos
  | e :: rest =>
    if e.start < pos then editFrom text pos rest
    else Text.slice text pos e.start ++ e.text ++ editFrom text e.stop rest

/-- The `text` with the `edits` made. -/
def applyEdits (text : String) (edits : List Edit) : String :=
  editFrom text 0 (edits.mergeSort fun a b => a.start ≤ b.start)

/-! ## Matching members -/

/-- The position among `existing` of the member that `m` replaces. Positions in `used` are taken
already. -/
def replacedIndex? (existing : List Member) (used : List Nat) (m : Member) : Option Nat :=
  let free := existing.zipIdx.filter fun (_, i) => !used.contains i
  let find (p : Member → Bool) : Option Nat := (free.find? fun (e, _) => p e).map (·.2)
  find (fun e => e.kind == m.kind && e.signature == m.signature) <|>
    find fun e => e.kind == m.kind && e.name == m.name

/-- Which member of `existing` each member of the fragment replaces, if any. Each is replaced once,
and those in `used` are not replaced at all. -/
def matchMembers (existing : List Member) (used : List Nat) :
    List Member → List (Member × Option Nat)
  | [] => []
  | m :: rest =>
    match replacedIndex? existing used m with
    | some i => (m, some i) :: matchMembers existing (i :: used) rest
    | none => (m, none) :: matchMembers existing used rest

/-- The members of `existing` that are replaced, each with its replacement. -/
def replacements (existing : List Member) (matched : List (Member × Option Nat)) :
    List (Member × Member) :=
  matched.filterMap fun (m, i) => (i.bind (existing[·]?)).map fun old => (old, m)

/-- The members of `matched` that replace none. -/
def additions (matched : List (Member × Option Nat)) : List Member :=
  (matched.filter (·.2.isNone)).map (·.1)

/-! ## Merging -/

/-- What was done with the members of a fragment, by their signatures. -/
structure MergeReport where
  replaced : List String
  appended : List String
deriving DecidableEq, Inhabited

def MergeReport.isEmpty (s : MergeReport) : Bool :=
  s.replaced.isEmpty && s.appended.isEmpty

namespace Fragment

/-- The member `m` of the fragment with its comments, moved to the indentation `indent`. -/
def textOf (f : Fragment) (m : Member) (indent : String) : String :=
  let start := m.startWithComments
  shiftLines (Text.slice f.source start m.stop) (Text.indentAt f.source start) indent

end Fragment

/-- The edit that replaces `old` by `new`. If the new member has comments, those of the old one go
too. -/
def replaceEdit (text : String) (fragment : Fragment) (old new : Member) : Edit :=
  let start := if new.leadingComment?.isSome then old.startWithComments else old.start
  { start, stop := old.stop, text := fragment.textOf new (Text.indentAt text start) }

/-- The indentation of the members of a type: that of the last one of `existing`, else one step more
than the closing brace of `body`. -/
def bodyIndent (text : String) (existing : List Member) (body : Tree) : String :=
  match existing.getLast? with
  | some last => Text.indentAt text last.start
  | none => Text.indentAt text (body.stop - 1) ++ "    "

/-- The lines of appended members at the indentation `indent`. An empty line separates them from
each other, and the first from existing members if it is to `separate`. -/
def appendedText (indent : String) : (separate : Bool) → List String → String
  | _, [] => ""
  | separate, m :: rest =>
    (if separate then "\n" else "") ++ indent ++ m ++ "\n" ++ appendedText indent true rest

/-- The edit that appends members with the given `texts` before the closing brace of `body`. -/
def additionEdit? (text : String) (body : Tree) (existing : List Member) (texts : List String) :
    Option Edit :=
  let close := body.stop - 1
  if body.stop = 0 || !Text.hasAscii text close '\x7d' then none
  else
    let added := appendedText (bodyIndent text existing body) (!existing.isEmpty) texts
    let lead := Text.lastLine (Text.before text close)
    let lineStart := close - lead.utf8ByteSize
    if Text.blank lead then some { start := lineStart, stop := lineStart, text := added }
    else
      some { start := close, stop := close, text := "\n" ++ added ++ Text.indentAt text lineStart }

/-- The edits that merge `fragment` into `type`, and what they do. -/
def mergeEdits (text : String) (type body : Tree) (fragment : Fragment) : List Edit × MergeReport :=
  let existing := type.directMembers text
  let matched := matchMembers existing [] fragment.members
  let replacing := replacements existing matched
  let appending := additions matched
  let indent := bodyIndent text existing body
  let texts := appending.map (fragment.textOf · indent)
  let appended := if texts.isEmpty then none else additionEdit? text body existing texts
  (replacing.map (fun (old, new) => replaceEdit text fragment old new) ++ appended.toList,
    { replaced := replacing.map (·.2.signature), appended := appending.map (·.signature) })

/-- The `text` with the members of `fragment` merged into the type `target`. There is none if the
text does not declare the type or nothing changes. -/
def mergeFragment (grammar : Grammar) (text : String) (target : Owner) (fragment : Fragment) :
    Option (String × MergeReport) := do
  let type ← (grammar text).typeDeclaration? text target
  let body ← type.field? "body"
  let (edits, status) := mergeEdits text type body fragment
  let merged := applyEdits text edits
  if edits.isEmpty || merged = text then none else some (merged, status)

end CodeAtlas
