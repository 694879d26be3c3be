import FlowTyping.Decimal.Digits
import FlowTyping.Expr
import FlowTyping.Parse.Fault

/-!
# Literals

The value of a literal token: numerals drop their `_`, and quoted text is freed of its quotes and of
its escapes (`unescape`).
-/

namespace FlowTyping

/-- The character that a backslash followed by `c` stands for. -/
def escaped? : Char → Option Char
  | 'n' => some '\n'
  | 't' => some '\t'
  | 'r' => some '\r'
  | '0' => some '\x00'
  | '\\' => some '\\'
  | '\'' => some '\''
  | '"' => some '"'
  | _ => none

/-- The text that the inside of a quoted literal stands for. -/
def unescape : List Char → Except Fault.Cause (List Char)
  | [] => .ok []
  | '\\' :: [] => .error .danglingEscape
  | '\\' :: c :: cs =>
    match escaped? c with
    | some d => (unescape cs).map (d :: ·)
    | none => .error (.unknownEscape c)
  | c :: cs => (unescape cs).map (c :: ·)

/-- The inside of a quoted literal: its text without the first and the last character. -/
def insideQuotes (text : List Char) : List Char := text.tail.dropLast

/-- The characters of a numeral that count. -/
def withoutSeparators (text : List Char) : List Char := text.filter (· != '_')

/-- The value of an integer literal, which has to fit into 64 bits with a sign. -/
def intValue (text : List Char) : Except Fault.Cause Literal :=
  let n := Decimal.ofDigits (withoutSeparators text)
  if n < 0x8000000000000000 then .ok (.int (Int64.ofNat n)) else .error .intOutOfRange

/-- The value of a float literal: digits, a point, digits. -/
def floatValue (text : List Char) : Literal :=
  let digits := withoutSeparators text
  let fraction := (digits.dropWhile (· != '.')).drop 1
  .float (Binary64.ofDecimal (Decimal.ofDigits (digits.filter (· != '.'))) (-fraction.length))

/-- The value of a character literal, which has to hold one character. -/
def charValue (text : List Char) : Except Fault.Cause Literal := do
  match ← unescape (insideQuotes text) with
  | [c] => .ok (.char c)
  | _ => .error .notOneCharacter

/-- The value of a string literal. -/
def stringValue (text : List Char) : Except Fault.Cause Literal :=
  (unescape (insideQuotes text)).map fun cs => .str (String.ofList cs)

/-- The literal that a token stands for, if it stands for one. -/
def Token.literal? (t : Token) : Option (Except Fault.Cause Literal) :=
  match t.kind with
  | .int => some (intValue t.text.toList)
  | .float => some (.ok (floatValue t.text.toList))
  | .char => some (charValue t.text.toList)
  | .string => some (stringValue t.text.toList)
  | .trueKw => some (.ok (.bool true))
  | .falseKw => some (.ok (.bool false))
  | .nilKw => some (.ok .nil)
  | _ => none

end FlowTyping
