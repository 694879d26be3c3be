import FlowTyping.Decimal.Digits
import FlowTyping.Json
import FlowTyping.Json.Quoted
import FlowTyping.Reader

/-!
# Reading JSON

`Json.read?` reads a text that holds one JSON value.  A number without point and exponent is an
integer as far as 64 bits reach, negative zero apart; every other number is a floating point number.
Of several members of an object with one name the last one counts.
-/

namespace FlowTyping.Json

def isBlank (c : Char) : Bool := c == ' ' || c == '\n' || c == '\t' || c == '\r'

def skipBlank (cs : List Char) : List Char := cs.dropWhile isBlank

/-! ### Numbers -/

/-- The pieces of a number as it is written. -/
structure Numeral where
  negative : Bool
  whole : List Char
  /-- The digits behind the point, if there is a point. -/
  fraction? : Option (List Char)
  /-- The exponent, if there is one. -/
  exponent? : Option Int

/-- The value of a number. -/
def Numeral.value (n : Numeral) : Json :=
  let digits := n.whole ++ n.fraction?.getD []
  let magnitude := Decimal.ofDigits digits
  let signed : Int := if n.negative then -magnitude else magnitude
  let isInt := n.fraction?.isNone && n.exponent?.isNone && !(n.negative && magnitude == 0)
  if isInt ∧ -0x8000000000000000 ≤ signed ∧ signed < 0x10000000000000000 then int signed
  else
    let exponent := n.exponent?.getD 0 - (n.fraction?.getD []).length
    let x := Binary64.ofDecimal magnitude exponent
    float (if n.negative then x.neg else x)

/-- Reads at least one digit. -/
def digits? : Reader (List Char) := fun cs =>
  match cs.takeWhile Char.isDigit with
  | [] => none
  | ds => some (ds, cs.dropWhile Char.isDigit)

/-- Reads what stands before the point: a zero, or digits that start with another one. -/
def whole? : Reader (List Char)
  | '0' :: rest => some (['0'], rest)
  | cs => digits? cs

/-- Reads a point and the digits behind it, if a point is there. -/
def fraction? : Reader (Option (List Char))
  | '.' :: cs => (digits? cs).map fun (ds, rest) => (some ds, rest)
  | cs => some (none, cs)

/-- Reads an exponent, if one is there. -/
def exponent? : Reader (Option Int)
  | 'e' :: cs | 'E' :: cs =>
    match cs with
    | '-' :: cs => (digits? cs).map fun (ds, rest) => (some (-Decimal.ofDigits ds), rest)
    | '+' :: cs => (digits? cs).map fun (ds, rest) => (some (Decimal.ofDigits ds), rest)
    | cs => (digits? cs).map fun (ds, rest) => (some (Decimal.ofDigits ds), rest)
  | cs => some (none, cs)

/-- Reads a number. -/
def number? : Reader Json := fun cs => do
  let (negative, cs) := match cs with
    | '-' :: cs => (true, cs)
    | cs => (false, cs)
  let (whole, cs) ← whole? cs
  let (fraction?, cs) ← fraction? cs
  let (exponent?, cs) ← exponent? cs
  return (Numeral.value ⟨negative, whole, fraction?, exponent?⟩, cs)

/-! ### Values -/

/-- Reads the items of an array from behind a bracket or a comma, at most `fuel` of them, and the
closing bracket. -/
def items? (value : Reader Json) : Nat → Reader (List Json)
  | 0, _ => none
  | fuel + 1, cs => do
    let (j, cs) ← value cs
    match skipBlank cs with
    | ',' :: cs =>
      let (js, cs) ← items? value fuel cs
      return (j :: js, cs)
    | ']' :: cs => return ([j], cs)
    | _ => none

/-- Reads the members of an object from behind a brace or a comma, at most `fuel` of them, and the
closing brace. -/
def members? (value : Reader Json) : Nat → Reader (List (String × Json))
  | 0, _ => none
  | fuel + 1, cs => do
    match skipBlank cs with
    | '"' :: cs =>
      let (key, cs) ← unquote? cs
      match skipBlank cs with
      | ':' :: cs =>
        let (j, cs) ← value cs
        match skipBlank cs with
        | ',' :: cs =>
          let (ms, cs) ← members? value fuel cs
          return ((String.ofList key, j) :: ms, cs)
        | '}' :: cs => return ([(String.ofList key, j)], cs)
        | _ => none
      | _ => none
    | _ => none

/-- Reads a value whose parts are read by `value`. -/
def layer? (value : Reader Json) : Reader Json := fun cs =>
  match skipBlank cs with
  | '[' :: cs =>
    match skipBlank cs with
    | ']' :: cs => some (arr [], cs)
    | cs => (items? value (cs.length + 1) cs).map fun (js, cs) => (arr js, cs)
  | '{' :: cs =>
    match skipBlank cs with
    | '}' :: cs => some (obj [], cs)
    | cs => (members? value (cs.length + 1) cs).map fun (ms, cs) => (obj (keepLast ms), cs)
  | '"' :: cs => (unquote? cs).map fun (s, cs) => (str (String.ofList s), cs)
  | 'n' :: 'u' :: 'l' :: 'l' :: cs => some (null, cs)
  | 't' :: 'r' :: 'u' :: 'e' :: cs => some (bool true, cs)
  | 'f' :: 'a' :: 'l' :: 's' :: 'e' :: cs => some (bool false, cs)
  | cs => number? cs

/-- Reads a value that nests at most `fuel` deep. -/
def value? : Nat → Reader Json
  | 0 => fun _ => none
  | fuel + 1 => layer? (value? fuel)

/-- The value that a text holds, if it holds one and blanks only besides. -/
def read? (text : List Char) : Option Json := do
  let (j, rest) ← value? (text.length + 1) text
  if (skipBlank rest).isEmpty then some j else none

end FlowTyping.Json
