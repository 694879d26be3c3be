import FlowTyping.Decimal.Binary64
import FlowTyping.Decimal.Digits
import FlowTyping.Json.Quoted
import FlowTyping.Reader
import FlowTyping.Toml

/-!
# TOML values without parts

How strings in their four spellings, integers in four bases, floating point numbers, dates and times
are read.  Dates and times are checked for their form and kept as they are written.
-/

namespace FlowTyping.Toml

/-! ### Blanks and line ends -/

def isBlank (c : Char) : Bool := c == ' ' || c == '\t'

def skipBlank (cs : List Char) : List Char := cs.dropWhile isBlank

/-- A character that may stand in a comment or in a literal string. -/
def isPlain (c : Char) : Bool := c == '\t' || (0x20 ≤ c.toNat && c.toNat != 0x7f)

/-- Skips a comment, if one is there. -/
def skipComment : List Char → List Char
  | '#' :: cs => cs.dropWhile isPlain
  | cs => cs

/-- Reads the end of a line; the end of the text will do. -/
def lineEnd? : List Char → Option (List Char)
  | [] => some []
  | '\n' :: cs => some cs
  | '\r' :: '\n' :: cs => some cs
  | _ => none

/-- Skips blanks, comments and line ends. -/
def skipLines : Nat → List Char → List Char
  | 0, cs => cs
  | fuel + 1, cs =>
    match skipComment (skipBlank cs) with
    | '\n' :: cs => skipLines fuel cs
    | '\r' :: '\n' :: cs => skipLines fuel cs
    | cs => cs

/-! ### Strings -/

/-- The number that a row of hexadecimal digits stands for. -/
def hexNumber? (ds : List Char) : Option Nat :=
  ds.foldlM (fun n d => do return 16 * n + (← Json.hexValue? d)) 0

/-- Reads what follows the backslash of an escape. -/
def escape? : Reader Char
  | 'b' :: cs => some ('\x08', cs)
  | 't' :: cs => some ('\t', cs)
  | 'n' :: cs => some ('\n', cs)
  | 'f' :: cs => some ('\x0c', cs)
  | 'r' :: cs => some ('\r', cs)
  | '"' :: cs => some ('"', cs)
  | '\\' :: cs => some ('\\', cs)
  | 'u' :: cs => code 4 cs
  | 'U' :: cs => code 8 cs
  | _ => none
where
  code (width : Nat) (cs : List Char) : Option (Char × List Char) := do
    if cs.length < width then none
    else return (← Json.charOf? (← hexNumber? (cs.take width)), cs.drop width)

/-- Reads the inside of a string on one line, up to its quote.  In a basic string a backslash starts
an escape. -/
def lineString? (quote : Char) : Nat → Reader (List Char)
  | 0, _ => none
  | _, [] => none
  | fuel + 1, c :: cs =>
    if c = quote then some ([], cs)
    else if c = '\\' ∧ quote = '"' then do
      let (d, cs) ← escape? cs
      let (s, cs) ← lineString? quote fuel cs
      return (d :: s, cs)
    else if isPlain c then do
      let (s, cs) ← lineString? quote fuel cs
      return (c :: s, cs)
    else none

/-- Skips blanks and line ends behind a backslash at the end of a line. -/
def skipContinuation : List Char → List Char
  | [] => []
  | '\r' :: '\n' :: cs => skipContinuation cs
  | c :: cs => if isBlank c || c == '\n' then skipContinuation cs else c :: cs

/-- Reads the inside of a string on several lines, up to its three quotes.  One or two quotes right
before those belong to the string. -/
def blockString? (quote : Char) : Nat → Reader (List Char)
  | 0, _ => none
  | _, [] => none
  | fuel + 1, c :: cs =>
    let quotes := ((c :: cs).takeWhile (· == quote)).length
    if 3 ≤ quotes then
      if quotes ≤ 5 then some (List.replicate (quotes - 3) quote, (c :: cs).drop quotes) else none
    else if c = '\\' ∧ quote = '"' then
      match lineEnd? (skipBlank cs) with
      | some rest =>
        if (skipBlank cs).isEmpty then none else blockString? quote fuel (skipContinuation rest)
      | none => do
        let (d, cs) ← escape? cs
        let (s, cs) ← blockString? quote fuel cs
        return (d :: s, cs)
    else if c = '\r' then
      match cs with
      | '\n' :: cs => do
        let (s, cs) ← blockString? quote fuel cs
        return ('\n' :: s, cs)
      | _ => none
    else if c = '\n' ∨ isPlain c then do
      let (s, cs) ← blockString? quote fuel cs
      return (c :: s, cs)
    else none

/-- A text without the line end right at its front. -/
def dropLineEnd : List Char → List Char
  | '\n' :: cs => cs
  | '\r' :: '\n' :: cs => cs
  | cs => cs

/-- Reads a string in quotes. -/
def string? : Reader String := fun cs =>
  let text (r : Option (List Char × List Char)) := r.map fun (s, cs) => (String.ofList s, cs)
  match cs with
  | '"' :: '"' :: '"' :: cs => text (blockString? '"' (cs.length + 1) (dropLineEnd cs))
  | '\'' :: '\'' :: '\'' :: cs => text (blockString? '\'' (cs.length + 1) (dropLineEnd cs))
  | '"' :: cs => text (lineString? '"' (cs.length + 1) cs)
  | '\'' :: cs => text (lineString? '\'' (cs.length + 1) cs)
  | _ => none

/-! ### Numbers -/

/-- The digits of a numeral in which single underscores stand between digits. -/
def separated? (isDigit : Char → Bool) : List Char → Option (List Char)
  | [] => none
  | [d] => if isDigit d then some [d] else none
  | d :: '_' :: ds => if isDigit d then (separated? isDigit ds).map (d :: ·) else none
  | d :: ds => if isDigit d then (separated? isDigit ds).map (d :: ·) else none

/-- The number that digits of some base stand for. -/
def ofBase (base : Nat) (ds : List Char) : Nat :=
  ds.foldl (fun n d => base * n + (Json.hexValue? d).getD 0) 0

/-- A number's sign and what follows it. -/
def splitSign : List Char → Bool × List Char
  | '-' :: cs => (true, cs)
  | '+' :: cs => (false, cs)
  | cs => (false, cs)

/-- The digits before the point of a decimal number: no zero stands in front of other digits. -/
def wholeDigits? (cs : List Char) : Option (List Char) := do
  let ds ← separated? Char.isDigit cs
  if ds.length > 1 ∧ ds.head? = some '0' then none else some ds

/-- The integer that a whole text spells, if it does and fits into 64 bits with a sign. -/
def intOf? (cs : List Char) : Option Int := do
  let i ← match cs with
    | '0' :: 'x' :: ds => do
      pure ((ofBase 16 (← separated? (fun d => (Json.hexValue? d).isSome) ds) : Nat) : Int)
    | '0' :: 'o' :: ds => do
      pure ((ofBase 8 (← separated? (fun d => '0' ≤ d && d ≤ '7') ds) : Nat) : Int)
    | '0' :: 'b' :: ds => do
      pure ((ofBase 2 (← separated? (fun d => d == '0' || d == '1') ds) : Nat) : Int)
    | _ => do
      let (negative, ds) := splitSign cs
      let n : Int := Decimal.ofDigits (← wholeDigits? ds)
      pure (if negative then -n else n)
  if -0x8000000000000000 ≤ i ∧ i < 0x8000000000000000 then some i else none

/-- The number that digits with a point, an exponent or both spell, rounded. -/
def fractional? (cs : List Char) : Option Binary64 := do
  let mantissa := cs.takeWhile fun c => c != 'e' && c != 'E'
  let exponent := cs.drop mantissa.length
  let whole := mantissa.takeWhile (· != '.')
  let fraction := mantissa.drop whole.length
  if fraction.isEmpty && exponent.isEmpty then none
  let places ← if fraction.isEmpty then some [] else separated? Char.isDigit (fraction.drop 1)
  let (negative, ds) := splitSign (exponent.drop 1)
  let power : Int := Decimal.ofDigits
    (← if exponent.isEmpty then some [] else separated? Char.isDigit ds)
  return .ofDecimal (Decimal.ofDigits ((← wholeDigits? whole) ++ places))
    ((if negative then -power else power) - places.length)

/-- The floating point number that a whole text spells, if it does.  Infinity has to be spelled out:
a number that is too great is refused, and only below zero it counts as infinite. -/
def floatOf? (cs : List Char) : Option Binary64 := do
  let (negative, cs) := splitSign cs
  let magnitude ←
    if cs = ['i', 'n', 'f'] then some .infinity
    else if cs = ['n', 'a', 'n'] then some .undefined
    else (fractional? cs).filter fun x => negative || x.isFinite
  return if negative then magnitude.neg else magnitude

/-! ### Dates and times -/

/-- A number of two digits, and what follows it. -/
def twoDigits? : Reader Nat
  | a :: b :: cs =>
    if a.isDigit && b.isDigit then some (Decimal.ofDigits [a, b], cs) else none
  | _ => none

/-- How many days a month has. -/
def daysIn (year month : Nat) : Nat :=
  if month = 2 then
    if year % 4 = 0 ∧ (year % 100 ≠ 0 ∨ year % 400 = 0) then 29 else 28
  else if month = 4 ∨ month = 6 ∨ month = 9 ∨ month = 11 then 30
  else 31

/-- What follows a character that has to be there. -/
def after? (c : Char) : List Char → Option (List Char)
  | d :: cs => if d = c then some cs else none
  | [] => none

/-- What follows a date. -/
def afterDate? (cs : List Char) : Option (List Char) := do
  let (century, cs) ← twoDigits? cs
  let (year, cs) ← twoDigits? cs
  let (month, cs) ← twoDigits? (← after? '-' cs)
  let (day, cs) ← twoDigits? (← after? '-' cs)
  if 1 ≤ month ∧ month ≤ 12 ∧ 1 ≤ day ∧ day ≤ daysIn (100 * century + year) month then some cs
  else none

/-- What follows a time of day. -/
def afterTime? (cs : List Char) : Option (List Char) := do
  let (hour, cs) ← twoDigits? cs
  let (minute, cs) ← twoDigits? (← after? ':' cs)
  let (second, cs) ← twoDigits? (← after? ':' cs)
  if hour ≤ 23 ∧ minute ≤ 59 ∧ second ≤ 60 then
    match cs with
    | '.' :: d :: cs => if d.isDigit then some (cs.dropWhile Char.isDigit) else none
    | cs => some cs
  else none

/-- Whether a whole text is nothing or an offset from universal time. -/
def isOffset (cs : List Char) : Bool :=
  match cs with
  | [] => true
  | ['Z'] => true
  | ['z'] => true
  | sign :: cs => Option.isSome do
    if sign ≠ '+' ∧ sign ≠ '-' then none
    let (hour, cs) ← twoDigits? cs
    let (minute, cs) ← twoDigits? (← after? ':' cs)
    if hour ≤ 23 ∧ minute ≤ 59 ∧ cs.isEmpty then some () else none

/-- Whether a whole text spells a date, a time, or both. -/
def isDateTime (cs : List Char) : Bool :=
  match afterDate? cs with
  | some [] => true
  | some (mark :: time) =>
    (mark == 'T' || mark == 't' || mark == ' ') &&
      match afterTime? time with
      | some offset => isOffset offset
      | none => false
  | none => afterTime? cs == some []

/-! ### Values -/

def isScalarChar (c : Char) : Bool :=
  c.isAlphanum || c == '_' || c == '+' || c == '-' || c == '.' || c == ':'

/-- Reads a value that is no string and has no parts. -/
def scalar? : Reader Toml := fun cs =>
  let text := cs.takeWhile isScalarChar
  let rest := cs.dropWhile isScalarChar
  let withTime := rest.take 1 ++ (rest.drop 1).takeWhile isScalarChar
  if afterDate? text = some [] ∧ isDateTime (text ++ withTime) ∧ withTime.length > 1 then
    some (dateTime (String.ofList (text ++ withTime)), rest.drop withTime.length)
  else if text = ['t', 'r', 'u', 'e'] then some (bool true, rest)
  else if text = ['f', 'a', 'l', 's', 'e'] then some (bool false, rest)
  else
    match intOf? text with
    | some i => some (int i, rest)
    | none =>
      match floatOf? text with
      | some x => some (float x, rest)
      | none => if isDateTime text then some (dateTime (String.ofList text), rest) else none

/-- Reads a string or another value without parts. -/
def simple? : Reader Toml
  | '"' :: cs => (string? ('"' :: cs)).map fun (s, cs) => (str s, cs)
  | '\'' :: cs => (string? ('\'' :: cs)).map fun (s, cs) => (str s, cs)
  | cs => scalar? cs

end FlowTyping.Toml
