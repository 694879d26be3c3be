import FlowTyping.Expr
import FlowTyping.Parse.Fault

/-!
# Reading tokens

The cursor of the parser: the tokens that are left, how many parentheses are open, the next free
node identity, and the local names in sight.

A line feed ends a statement, so it is a token; inside parentheses it is none.  The functions here
see to that: `Cursor.visible` are the tokens as the parser sees them.
-/

namespace FlowTyping

/-- The names declared in one scope.  From a closed scope the scopes around it are out of sight. -/
structure LocalScope where
  closed : Bool
  names : List String := []
deriving DecidableEq, Repr

structure Cursor where
  /-- The tokens that are left, without comments and without the end of the text. -/
  rest : List Token
  /-- Where the text ends. -/
  stop : Nat
  /-- How many parentheses are open around the cursor. -/
  parens : Nat := 0
  nextId : NodeId := 0
  /-- The scopes around the cursor, innermost first. -/
  locals : List LocalScope := [⟨true, []⟩]
deriving Repr

namespace Cursor

/-- The cursor before the first token of a text. -/
def start (tokens : List Token) (stop : Nat) : Cursor :=
  { rest := tokens.filter (·.kind != .comment), stop }

/-- The tokens that are left, from the first one that the parser sees on. -/
def visible (c : Cursor) : List Token :=
  if c.parens = 0 then c.rest else c.rest.dropWhile (·.kind == .newline)

/-- The token that the cursor stands at. -/
def current (c : Cursor) : Token := c.visible.headD (.eofAt c.stop)

/-- The kind of the token that the cursor stands at. -/
def kind (c : Cursor) : Token.Kind := c.current.kind

/-- The cursor behind the current token. -/
def next (c : Cursor) : Cursor := { c with rest := c.visible.drop 1 }

/-- Whether one of the kinds of tokens that separate statements is meant. -/
def isTerminator (kind : Token.Kind) : Bool := kind == .newline || kind == .semicolon

/-- The cursor behind all line feeds and semicolons that it stands at. -/
def skipTerminators (c : Cursor) : Cursor :=
  { c with rest := c.rest.dropWhile (isTerminator ·.kind) }

/-- The cursor behind all line feeds that it stands at. -/
def skipNewlines (c : Cursor) : Cursor :=
  { c with rest := c.rest.dropWhile (·.kind == .newline) }

/-- Whether a name is local, seen from the innermost scope. -/
def isLocalIn (name : String) : List LocalScope → Bool
  | [] => false
  | scope :: outer => scope.names.contains name || (!scope.closed && isLocalIn name outer)

/-- Declares a name in the innermost scope. -/
def declareIn (name : String) : List LocalScope → List LocalScope
  | [] => []
  | scope :: outer =>
    if scope.names.contains name then scope :: outer
    else { scope with names := name :: scope.names } :: outer

end Cursor

/-! ### Parsers -/

/-- Why a parser gives no value: the text has a fault, or the number of nested expressions that it
was allowed to enter did not suffice. -/
inductive Setback where
  | fault (f : Fault)
  | outOfFuel
deriving DecidableEq, Repr

/-- A parser reads some tokens from a cursor. -/
abbrev Parser := EStateM Setback Cursor

namespace Parser

def fail (f : Fault) : Parser α := throw (.fault f)

/-- The kind of the current token. -/
def kind : Parser Token.Kind := return (← get).kind

/-- Reads the current token, whatever it is. -/
def bump : Parser Token := fun c => .ok c.current c.next

/-- Fails because something else was wanted at the current token. -/
def unexpected (wanted : Fault.Wanted) : Parser α :=
  fun c => .error (.fault (.unexpectedToken wanted c.current)) c

/-- Reads the current token if it is of the given kind. -/
def eat (kind : Token.Kind) : Parser Bool := fun c =>
  if c.kind = kind then .ok true c.next else .ok false c

/-- Reads a token that has to be of the given kind. -/
def expect (kind : Token.Kind) : Parser Token := fun c =>
  if c.kind = kind then .ok c.current c.next
  else .error (.fault (.unexpectedToken (.token kind) c.current)) c

/-- Reads the `end` of the construct that starts at `opener`. -/
def expectEnd (construct : Fault.Construct) (opener : Span) : Parser Token := fun c =>
  if c.kind = .endKw then .ok c.current c.next
  else .error (.fault ⟨.unclosed construct opener c.kind, c.current.span⟩) c

def skipTerminators : Parser Unit := modify Cursor.skipTerminators

def skipNewlines : Parser Unit := modify Cursor.skipNewlines

/-- Reads at least one line feed or semicolon. -/
def expectTerminator (after : Fault.Part) : Parser Unit := do
  if Cursor.isTerminator (← kind) then skipTerminators else unexpected (.terminator after)

/-- A fresh identity. -/
def freshId : Parser NodeId := fun c => .ok c.nextId { c with nextId := c.nextId + 1 }

/-- Reads `(` and stops seeing line feeds. -/
def openParen : Parser Token := do
  let token ← expect .lparen
  modify fun c => { c with parens := c.parens + 1 }
  return token

/-- Reads `)`, the partner of the last `(`. -/
def closeParen : Parser Token := do
  let token ← expect .rparen
  modify fun c => { c with parens := c.parens - 1 }
  return token

def declare (name : String) : Parser Unit :=
  modify fun c => { c with locals := Cursor.declareIn name c.locals }

def isLocal (name : String) : Parser Bool := return Cursor.isLocalIn name (← get).locals

/-- Runs a parser with line feeds in sight, whatever parentheses are open around it. -/
def withNewlines (p : Parser α) : Parser α := do
  let parens := (← get).parens
  modify fun c => { c with parens := 0 }
  let a ← p
  modify fun c => { c with parens }
  return a

/-- Runs a parser inside a new scope of local names. -/
def inScope (closed : Bool) (p : Parser α) : Parser α := do
  modify fun c => { c with locals := ⟨closed, []⟩ :: c.locals }
  let a ← p
  modify fun c => { c with locals := c.locals.drop 1 }
  return a

/-- Reads items with a comma between any two of them, at most `fuel` of them; `gap` runs behind each
comma. -/
def commaList (item : Parser α) (gap : Parser Unit) : Nat → Parser (List α)
  | 0 => throw .outOfFuel
  | fuel + 1 => do
    let first ← item
    if ← eat .comma then
      gap
      return first :: (← commaList item gap fuel)
    else
      return [first]

/-- More items than any list can hold that is read from here: each takes a token. -/
def itemFuel : Parser Nat := return (← get).rest.length + 1

end Parser

end FlowTyping
