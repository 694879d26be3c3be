import FlowTyping.Decimal.Digits
import FlowTyping.Decimal.Shortest
import FlowTyping.Json
import FlowTyping.Json.Quoted

/-!
# JSON text

Two ways to write a value: on one line without blanks (`Json.line`), and one item a line
(`Json.pretty`).  A value is written in front of the text that follows it, so that each character is
set down once, however deep the value nests.
-/

namespace FlowTyping.Json

/-! ### Numbers -/

/-- How a positive decimal number is written.  Up to sixteen places stand before the point, and up
to four zeros behind it before the first digit; beyond that the number gets an exponent, with its
sign.  A whole number keeps a zero behind its point. -/
def decimalText (d : ShortDecimal) : List Char :=
  let zeros := (Decimal.digits d.digits).reverse.takeWhile (· == '0')
  let digits := (Decimal.digits d.digits).take ((Decimal.digits d.digits).length - zeros.length)
  let exponent := d.exponent + zeros.length
  let point : Int := digits.length + exponent
  if 0 ≤ exponent ∧ point ≤ 16 then digits ++ List.replicate exponent.toNat '0' ++ ['.', '0']
  else if 0 < point ∧ point ≤ 16 then digits.take point.toNat ++ '.' :: digits.drop point.toNat
  else if -5 < point ∧ point ≤ 0 then '0' :: '.' :: List.replicate (-point).toNat '0' ++ digits
  else
    let fraction := if digits.length = 1 then [] else '.' :: digits.drop 1
    let sign := if 0 < point then ['+'] else []
    digits.take 1 ++ fraction ++ 'e' :: sign ++ Decimal.intDigits (point - 1)

/-- How a floating point number is written.  What is no finite number is written as `null`. -/
def floatText (x : Binary64) : List Char :=
  if !x.isFinite then ['n', 'u', 'l', 'l']
  else
    let sign := if x.isNegative then ['-'] else []
    let magnitude : Binary64 := ⟨x.bits &&& 0x7fffffffffffffff⟩
    sign ++ if magnitude.bits = 0 then ['0', '.', '0'] else decimalText magnitude.shortest

/-! ### One line -/

/-- How a value without parts is written. -/
def scalarText : Json → List Char
  | bool true => ['t', 'r', 'u', 'e']
  | bool false => ['f', 'a', 'l', 's', 'e']
  | int i => Decimal.intDigits i
  | float x => floatText x
  | str s => quote s
  | _ => ['n', 'u', 'l', 'l']

mutual

/-- A value without blanks, in front of `rest`. -/
def compactOnto (rest : List Char) : Json → List Char
  | arr [] => '[' :: ']' :: rest
  | arr (j :: js) => '[' :: compactOnto (compactItems (']' :: rest) js) j
  | obj [] => '{' :: '}' :: rest
  | obj ((k, j) :: ms) =>
    '{' :: (quote k ++ ':' :: compactOnto (compactMembers ('}' :: rest) ms) j)
  | j => scalarText j ++ rest

/-- The items after the first one, each behind its comma. -/
def compactItems (rest : List Char) : List Json → List Char
  | [] => rest
  | j :: js => ',' :: compactOnto (compactItems rest js) j

/-- The members after the first one, each behind its comma. -/
def compactMembers (rest : List Char) : List (String × Json) → List Char
  | [] => rest
  | (k, j) :: ms => ',' :: (quote k ++ ':' :: compactOnto (compactMembers rest ms) j)

end

/-- A value without blanks. -/
def compact (j : Json) : List Char := compactOnto [] j

/-- A value as text on one line. -/
def line (j : Json) : String := String.ofList j.compact

/-! ### One item a line -/

/-- A new line at a depth, two blanks for each level. -/
def newLine (depth : Nat) : List Char := '\n' :: List.replicate (2 * depth) ' '

mutual

/-- A value with one item or member a line, inside `depth` others and in front of `rest`. -/
def prettyOnto (rest : List Char) (depth : Nat) : Json → List Char
  | arr [] => '[' :: ']' :: rest
  | arr (j :: js) =>
    '[' :: (newLine (depth + 1) ++
      prettyOnto (prettyItems (newLine depth ++ ']' :: rest) (depth + 1) js) (depth + 1) j)
  | obj [] => '{' :: '}' :: rest
  | obj ((k, j) :: ms) =>
    '{' :: (newLine (depth + 1) ++ (quote k ++ ':' :: ' ' ::
      prettyOnto (prettyMembers (newLine depth ++ '}' :: rest) (depth + 1) ms) (depth + 1) j))
  | j => scalarText j ++ rest

/-- The items after the first one, each behind a comma and on a line of its own. -/
def prettyItems (rest : List Char) (depth : Nat) : List Json → List Char
  | [] => rest
  | j :: js => ',' :: (newLine depth ++ prettyOnto (prettyItems rest depth js) depth j)

/-- The members after the first one, each behind a comma and on a line of its own. -/
def prettyMembers (rest : List Char) (depth : Nat) : List (String × Json) → List Char
  | [] => rest
  | (k, j) :: ms =>
    ',' :: (newLine depth ++
      (quote k ++ ':' :: ' ' :: prettyOnto (prettyMembers rest depth ms) depth j))

end

/-- A value as text with one item a line. -/
def pretty (j : Json) : String := String.ofList (prettyOnto [] 0 j)

end FlowTyping.Json
