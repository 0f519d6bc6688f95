import CodeAtlas.Text.Blank

/-!
# Names in type references

A type reference is looked up by its simple name and, where that is ambiguous, by its qualified
name. Both are cut out of the reference as it is written.

## Main definitions

* `TypeName.simple`: the bare name, `List` for `global::A.B.List<int>[]?`.
* `TypeName.qualified`: the dotted name without type arguments, `A.B.List` for the same text.
* `TypeName.normalized`: the reference with its white space removed, one space after each comma.
* `qualify`: a name inside a namespace.
-/
namespace CodeAtlas

namespace TypeName

/-- What follows the last `::`, if there is one. -/
def afterAlias? : List Char → Option (List Char)
  | [] => none
  | c :: cs =>
    match afterAlias? cs with
    | some rest => some rest
    | none =>
      match c, cs with
      | ':', ':' :: rest => some rest
      | _, _ => none

/-- Drops everything up to the last `::`. -/
def dropAlias (cs : List Char) : List Char :=
  (afterAlias? cs).getD cs

/-- The characters of the marks that follow a type name: `?`, `*` and brackets. -/
def isSuffixMark (c : Char) : Bool :=
  c == '?' || c == '*' || c == ']' || c == '['

/-- What follows the last dot of `cs`. -/
def lastSegment (cs : List Char) : List Char :=
  (cs.reverse.takeWhile (· != '.')).reverse

def simpleChars (cs : List Char) : List Char :=
  let name := (dropAlias (Text.trimChars cs)).takeWhile (· != '<')
  let name := (Text.trimEndWhile isSuffixMark name).takeWhile (· != '[')
  Text.trimChars (lastSegment name)

/-- The bare name by which a type reference is looked up. The reference loses what stands up to its
last `::`, what stands from its first `<` on, the marks at its end and all segments but the last. -/
def simple (text : String) : String :=
  String.ofList (simpleChars text.toList)

/-- Drops type arguments, white space, `?` and brackets; `depth` counts the open angle brackets. -/
def dropArguments : Nat → List Char → List Char
  | _, [] => []
  | depth, '<' :: cs => dropArguments (depth + 1) cs
  | depth, '>' :: cs => dropArguments (depth - 1) cs
  | 0, c :: cs =>
    if Text.isBlank c || c == '?' || c == '[' || c == ']' then dropArguments 0 cs
    else c :: dropArguments 0 cs
  | depth + 1, _ :: cs => dropArguments (depth + 1) cs

/-- The dotted name of the type reference `text`, without alias, type arguments, nullability and
ranks. -/
def qualified (text : String) : String :=
  String.ofList (dropAlias (dropArguments 0 text.toList))

/-- Writes a space after every comma. -/
def spaceCommas : List Char → List Char
  | [] => []
  | ',' :: cs => ',' :: ' ' :: spaceCommas cs
  | c :: cs => c :: spaceCommas cs

/-- The type reference `text` in the form in which signatures show it. -/
def normalized (text : String) : String :=
  String.ofList (spaceCommas (text.toList.filter (!Text.isBlank ·)))

end TypeName

/-- The `name` inside the namespace `outer`; either may be empty. -/
def qualify (outer name : String) : String :=
  if outer.isEmpty then name else if name.isEmpty then outer else outer ++ "." ++ name

end CodeAtlas
