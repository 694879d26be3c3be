/-!
# Quoted JSON text

A string is written between quotes.  A quote, a backslash and the control characters are written as
escapes, everything else as it is.  Reading knows all escapes of the format, code points given in
two halves included.
-/

namespace FlowTyping.Json

/-- The digit of a number below sixteen. -/
def hexDigit (n : Nat) : Char :=
  if n < 10 then Char.ofNat ('0'.toNat + n) else Char.ofNat ('a'.toNat + (n - 10))

/-- The number that a hexadecimal digit stands for. -/
def hexValue? (c : Char) : Option Nat :=
  if c.isDigit then some (c.toNat - '0'.toNat)
  else if 'a' ≤ c ∧ c ≤ 'f' then some (c.toNat - 'a'.toNat + 10)
  else if 'A' ≤ c ∧ c ≤ 'F' then some (c.toNat - 'A'.toNat + 10)
  else none

/-- How a character is written inside a string. -/
def escapeChar (c : Char) : List Char :=
  if c = '"' then ['\\', '"']
  else if c = '\\' then ['\\', '\\']
  else if c = '\n' then ['\\', 'n']
  else if c = '\t' then ['\\', 't']
  else if c = '\r' then ['\\', 'r']
  else if c = '\x08' then ['\\', 'b']
  else if c = '\x0c' then ['\\', 'f']
  else if c.toNat < 0x20 then
    ['\\', 'u', '0', '0', hexDigit (c.toNat / 16), hexDigit (c.toNat % 16)]
  else [c]

def escape (cs : List Char) : List Char := cs.flatMap escapeChar

/-- A string between quotes. -/
def quote (s : String) : List Char := '"' :: (escape s.toList ++ ['"'])

/-- The number that four hexadecimal digits stand for. -/
def hexFour? (a b c d : Char) : Option Nat := do
  return (← hexValue? a) * 4096 + (← hexValue? b) * 256 + (← hexValue? c) * 16 + (← hexValue? d)

/-- The character of a code point, if it is one. -/
def charOf? (code : Nat) : Option Char :=
  if h : code.isValidChar then some (Char.ofNatAux code h) else none

/-- The character that a backslash followed by this one stands for, `u` apart. -/
def shortEscape? : Char → Option Char
  | '"' => some '"'
  | '\\' => some '\\'
  | '/' => some '/'
  | 'b' => some '\x08'
  | 'f' => some '\x0c'
  | 'n' => some '\n'
  | 'r' => some '\r'
  | 't' => some '\t'
  | _ => none

/-- Reads the inside of a string up to its closing quote; gives the string and what follows it. -/
def unquote? : List Char → Option (List Char × List Char)
  | [] => none
  | '"' :: rest => some ([], rest)
  | '\\' :: 'u' :: a :: b :: c :: d :: rest => do
    let high ← hexFour? a b c d
    if 0xd800 ≤ high ∧ high < 0xdc00 then
      match rest with
      | '\\' :: 'u' :: a :: b :: c :: d :: rest =>
        let low ← hexFour? a b c d
        if 0xdc00 ≤ low ∧ low < 0xe000 then
          let char ← charOf? (0x10000 + (high - 0xd800) * 0x400 + (low - 0xdc00))
          let (cs, rest) ← unquote? rest
          return (char :: cs, rest)
        else none
      | _ => none
    else
      let char ← charOf? high
      let (cs, rest) ← unquote? rest
      return (char :: cs, rest)
  | '\\' :: c :: rest => do
    let char ← shortEscape? c
    let (cs, rest) ← unquote? rest
    return (char :: cs, rest)
  | c :: rest =>
    if c.toNat < 0x20 ∨ c = '\\' then none
    else do
      let (cs, rest) ← unquote? rest
      return (c :: cs, rest)

end FlowTyping.Json
