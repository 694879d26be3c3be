import FlowTyping.Token

/-!
# Faults of a source text

A fault says why a text is no program: its cause, and where it is.  The wording is in one place,
`Fault.Cause.message`.
-/

namespace FlowTyping

namespace Fault

/-- The constructs that reach up to an `end`. -/
inductive Construct where
  | ifExpr | elsif | whileExpr | defExpr | doBlock
deriving DecidableEq, Repr

def Construct.describe : Construct → String
  | ifExpr => "`if`"
  | elsif => "`elsif`"
  | whileExpr => "`while`"
  | defExpr => "`def`"
  | doBlock => "`do` block"

/-- The parts of a program that a line feed or `;` has to follow. -/
inductive Part where
  | statement | methodName | methodParameters | ifCondition | whileCondition
deriving DecidableEq, Repr

def Part.describe : Part → String
  | statement => "statement"
  | methodName => "method name"
  | methodParameters => "method parameters"
  | ifCondition => "`if` condition"
  | whileCondition => "`while` condition"

/-- What would have been right instead of the token that was found. -/
inductive Wanted where
  | token (kind : Token.Kind)
  | expression
  | terminator (after : Part)
deriving DecidableEq, Repr

def Wanted.describe : Wanted → String
  | token kind => "expected " ++ kind.describe
  | expression => "expected expression"
  | terminator after => "expected newline or `;` after " ++ after.describe

/-- Why a text is no program. -/
inductive Cause where
  | unexpected (wanted : Wanted) (found : Token.Kind)
  /-- A construct without its `end`; `opener` is where it starts. -/
  | unclosed (construct : Construct) (opener : Span) (found : Token.Kind)
  | strayCharacter (c : Char)
  | unterminatedChar
  | unterminatedString
  | intOutOfRange
  | notOneCharacter
  | unknownEscape (c : Char)
  /-- A backslash with nothing behind it. -/
  | danglingEscape
deriving DecidableEq, Repr

def Cause.message : Cause → String
  | unexpected wanted found => wanted.describe ++ ", found " ++ found.describe
  | unclosed construct _ found =>
    "expected `end` to close " ++ construct.describe ++ ", found " ++ found.describe
  | strayCharacter c => "unexpected character `" ++ c.toString ++ "`"
  | unterminatedChar => "unterminated character literal"
  | unterminatedString => "unterminated string literal"
  | intOutOfRange => "integer literal out of range"
  | notOneCharacter => "character literal must contain exactly one character"
  | unknownEscape c => "unknown escape sequence `\\" ++ c.toString ++ "`"
  | danglingEscape => "dangling `\\` in literal"

/-- A second place that helps to understand the fault, with what happened there. -/
def Cause.related? : Cause → Option (String × Span)
  | unclosed construct opener _ => some (construct.describe ++ " started here", opener)
  | _ => none

end Fault

/-- A fault and where it is. -/
structure Fault where
  cause : Fault.Cause
  span : Span
deriving DecidableEq, Repr

namespace Fault

def message (f : Fault) : String := f.cause.message

def related? (f : Fault) : Option (String × Span) := f.cause.related?

/-- The fault of a token that stands where something else was wanted.  A piece that is no token at
all is reported as such, whatever was wanted. -/
def unexpectedToken (wanted : Wanted) (found : Token) : Fault :=
  let cause :=
    if found.kind = .invalid then
      match found.text.toList.head? with
      | some '\'' => .unterminatedChar
      | some '"' => .unterminatedString
      | some c => .strayCharacter c
      | none => .unexpected wanted found.kind
    else .unexpected wanted found.kind
  ⟨cause, found.span⟩

end Fault

end FlowTyping
