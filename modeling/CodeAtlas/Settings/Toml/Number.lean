import CodeAtlas.Settings.Toml.Text
import CodeAtlas.Settings.Toml.Value

/-!
# Numbers and moments in a settings file

Integers of 64 bits, in four bases; floating-point numbers; dates and times. Digits may be separated
by single underscores.

## Main definitions

* `readDigits?`: digits with underscores.
* `readMoment?`: dates and times.
* `readNumber?`: integers and floating-point numbers.
-/
namespace CodeAtlas.Toml

/-! ## Digits -/

/-- Reads the digits of a number that follow a first one, as `isDigit` knows them. An underscore
stands between two digits. -/
def readMoreDigits (isDigit : Char → Bool) : List Char → List Char × List Char
  | [] => ([], [])
  | '_' :: d :: rest =>
    if isDigit d then
      let (ds, rest) := readMoreDigits isDigit rest
      (d :: ds, rest)
    else ([], '_' :: d :: rest)
  | c :: rest =>
    if isDigit c then
      let (ds, rest) := readMoreDigits isDigit rest
      (c :: ds, rest)
    else ([], c :: rest)

/-- Reads one or more digits, as `isDigit` knows them. -/
def readDigits? (isDigit : Char → Bool) : List Char → Option (List Char × List Char)
  | [] => none
  | c :: rest =>
    if isDigit c then
      let (ds, rest) := readMoreDigits isDigit rest
      some (c :: ds, rest)
    else none

/-- Takes a sign: whether it is a minus. -/
def takeSign : List Char → Bool × List Char
  | '-' :: rest => (true, rest)
  | '+' :: rest => (false, rest)
  | cs => (false, cs)

/-- The number with these `digits` in a `base` up to sixteen. -/
def numberOf (base : Nat) (digits : List Char) : Nat :=
  digits.foldl (fun n c => base * n + (hexDigit? c).getD 0) 0

/-- Reads decimal digits without a leading zero. -/
def readWhole? : List Char → Option (List Char × List Char)
  | '0' :: rest => some (['0'], rest)
  | cs => readDigits? Char.isDigit cs

/-! ## Moments -/

/-- Reads a number of exactly two digits from `low` to `high`. -/
def readPair? (low high : Nat) : List Char → Option (Nat × List Char)
  | a :: b :: rest =>
    if a.isDigit && b.isDigit then
      let n := numberOf 10 [a, b]
      if low ≤ n && n ≤ high then some (n, rest) else none
    else none
  | _ => none

/-- Takes the character `c`. -/
def take? (c : Char) : List Char → Option (List Char)
  | d :: rest => if c = d then some rest else none
  | [] => none

def isLeapYear (year : Nat) : Bool :=
  year % 4 == 0 && (year % 100 != 0 || year % 400 == 0)

def daysIn (year month : Nat) : Nat :=
  if month == 2 then if isLeapYear year then 29 else 28
  else if month == 4 || month == 6 || month == 9 || month == 11 then 30
  else 31

/-- Takes a date off `cs`. -/
def takeDate? (cs : List Char) : Option (List Char) := do
  let year := cs.take 4
  if year.length < 4 || !year.all Char.isDigit then none
  let (month, rest) ← readPair? 1 12 (← take? '-' (cs.drop 4))
  let (day, rest) ← readPair? 1 31 (← take? '-' rest)
  if day ≤ daysIn (numberOf 10 year) month then some rest else none

/-- Takes a fraction of a second, if there is one. -/
def takeFraction : List Char → List Char
  | '.' :: d :: rest => if d.isDigit then rest.dropWhile Char.isDigit else '.' :: d :: rest
  | cs => cs

/-- Takes a time of day off `cs`. -/
def takeTime? (cs : List Char) : Option (List Char) := do
  let (_, rest) ← readPair? 0 23 cs
  let (_, rest) ← readPair? 0 59 (← take? ':' rest)
  let (_, rest) ← readPair? 0 60 (← take? ':' rest)
  return takeFraction rest

/-- Takes the offset of a time zone. -/
def takeOffset? : List Char → Option (List Char)
  | 'Z' :: rest | 'z' :: rest => some rest
  | '+' :: rest | '-' :: rest => do
    let (_, rest) ← readPair? 0 23 rest
    let (_, rest) ← readPair? 0 59 (← take? ':' rest)
    return rest
  | _ => none

/-- Takes the time of day that follows a date, if there is one. -/
def takeTimeOfDate : List Char → List Char
  | c :: rest =>
    if c == 'T' || c == 't' || c == ' ' then
      match takeTime? rest with
      | some rest => (takeOffset? rest).getD rest
      | none => c :: rest
    else c :: rest
  | [] => []

/-- Reads a date, a time or both from `cs`. -/
def readMoment? (cs : List Char) : Option (Toml × List Char) :=
  match takeDate? cs with
  | some rest => some (.moment, takeTimeOfDate rest)
  | none => (takeTime? cs).map fun rest => (.moment, rest)

/-! ## Numbers -/

/-- The number nearest to `digits * 10 ^ exponent`. -/
def scientific (digits : Nat) (exponent : Int) : Float :=
  let width := (Nat.toDigits 10 digits).length
  if digits = 0 then 0
  else if exponent > 400 then 1 / 0
  else if exponent + width < -400 then 0
  else if exponent < 0 then Float.ofScientific digits true exponent.natAbs
  else Float.ofScientific digits false exponent.natAbs

def infinity : Float := 1 / 0

/-- Reads an exponent. -/
def readExponent? : List Char → Option (Int × List Char)
  | 'e' :: rest | 'E' :: rest => do
    let (negative, rest) := takeSign rest
    let (ds, rest) ← readDigits? Char.isDigit rest
    let n := numberOf 10 ds
    return (if negative then -n else n, rest)
  | _ => none

/-- Reads a fraction: its digits. -/
def readFraction? : List Char → Option (List Char × List Char)
  | '.' :: rest => readDigits? Char.isDigit rest
  | _ => none

/-- Reads a floating-point number from `cs`, which has a fraction or an exponent. One that is too
large is refused, but not one that is too small. -/
def readFloat? (cs : List Char) : Option (Toml × List Char) := do
  let (negative, rest) := takeSign cs
  let (whole, rest) ← readWhole? rest
  let (fraction, rest) ←
    match readFraction? rest with
    | some (ds, rest) => some (some ds, rest)
    | none => some (none, rest)
  let (exponent, rest) ←
    match readExponent? rest with
    | some (n, rest) => some (some n, rest)
    | none => some (none, rest)
  if fraction.isNone && exponent.isNone then none
  let places := (fraction.getD []).length
  let size := scientific (numberOf 10 (whole ++ fraction.getD [])) (exponent.getD 0 - places)
  if size == infinity && !negative then none
  else return (.float (if negative then -size else size), rest)

/-- Reads a number from `cs` that is no digits: infinity, or not a number. -/
def readSpecial? (cs : List Char) : Option (Toml × List Char) :=
  let (negative, rest) := takeSign cs
  match rest with
  | 'i' :: 'n' :: 'f' :: rest => some (.float (if negative then -infinity else infinity), rest)
  | 'n' :: 'a' :: 'n' :: rest => some (.float (if negative then -(0 / 0) else 0 / 0), rest)
  | _ => none

/-- The integer `n`, if it has 64 bits. -/
def integer? (n : Int) : Option Toml :=
  if Int64.minValue.toInt ≤ n && n ≤ Int64.maxValue.toInt then some (.integer n) else none

/-- Reads the digits of an integer in this `base` from `cs`. -/
def readBased? (base : Nat) (isDigit : Char → Bool) (cs : List Char) :
    Option (Toml × List Char) := do
  let (ds, rest) ← readDigits? isDigit cs
  return (← integer? (numberOf base ds), rest)

def isHexDigit (c : Char) : Bool := (hexDigit? c).isSome
def isOctalDigit (c : Char) : Bool := '0' ≤ c && c ≤ '7'
def isBinaryDigit (c : Char) : Bool := c == '0' || c == '1'

/-- Reads an integer. -/
def readInteger? : List Char → Option (Toml × List Char)
  | '0' :: 'x' :: rest => readBased? 16 isHexDigit rest
  | '0' :: 'o' :: rest => readBased? 8 isOctalDigit rest
  | '0' :: 'b' :: rest => readBased? 2 isBinaryDigit rest
  | cs => do
    let (negative, rest) := takeSign cs
    let (ds, rest) ← readWhole? rest
    let n := numberOf 10 ds
    return (← integer? (if negative then -n else n), rest)

/-- Reads a number from `cs`. -/
def readNumber? (cs : List Char) : Option (Toml × List Char) :=
  readFloat? cs <|> readSpecial? cs <|> readInteger? cs

end CodeAtlas.Toml
