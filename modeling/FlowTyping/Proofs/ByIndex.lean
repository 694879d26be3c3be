import FlowTyping.Parse.Grammar
import FlowTyping.Source.Slice

/-!
# Parsing by index

`Parser` takes tokens with their texts off a list.  Here the grammar is read once more by a machine: the
tokens are an array of kinds and spans, the place of the reader is an index into it, a text is a slice of
the source, and the open parentheses and the identities are counted in words of 32 bits.  `ByIndex.State`
is what the machine runs on.  It gives up (`Halt.outOfRange`) at an index or a slice that is out of range,
at a count that leaves its word, and at a closing parenthesis with none open.  A loop is bounded by the
number of tokens.
-/

namespace FlowTyping

/-- A token without its text. -/
structure Mark where
  kind : Token.Kind
  span : Span
deriving DecidableEq, Repr

def Token.mark (t : Token) : Mark := ⟨t.kind, t.span⟩

namespace ByIndex

/-- Why the machine stops early. -/
inductive Halt where
  | setback (s : Setback)
  | outOfRange
deriving DecidableEq, Repr

structure State where
  /-- The tokens without comments, the end of the text last. -/
  marks : Array Mark
  source : List Char
  pos : Nat := 0
  parens : Nat := 0
  nextId : Nat := 0
  locals : List LocalScope := [⟨true, []⟩]
deriving Repr

/-- The state at the beginning of a text. -/
def State.start (source : String) : State where
  marks := (((Token.scan source).filter (·.kind != .comment)).map Token.mark).toArray
  source := source.toList

abbrev Reader := EStateM Halt State

/-! ### Tokens -/

/-- Goes on if there is something to go on with. -/
def checked : Option α → Reader α
  | some a => return a
  | none => throw .outOfRange

/-- From index `i` on, the index of the token with number `n`, counted from 0, where line feeds do not
count if they are hidden.  Behind the last token it is the last token. -/
def significant (marks : Array Mark) (hidden : Bool) (n i : Nat) : Option Nat :=
  if marks.size = 0 then none
  else if marks.size - 1 ≤ i then some (marks.size - 1)
  else
    match marks[i]? with
    | none => none
    | some mark =>
      if mark.kind == .newline && hidden then significant marks hidden n (i + 1)
      else
        match n with
        | 0 => some i
        | n + 1 => significant marks hidden n (i + 1)
termination_by marks.size - i

/-- The index of the token with number `n` from here on. -/
def seek (n : Nat) : Reader Nat := fun s => checked (significant s.marks (0 < s.parens) n s.pos) s

def markAt (i : Nat) : Reader Mark := fun s => checked s.marks[i]? s

/-- The token with number `n` from here on. -/
def nth (n : Nat) : Reader Mark := do markAt (← seek n)

def kind : Reader Token.Kind := return (← nth 0).kind

/-- The piece of the source that a span marks out. -/
def text (span : Span) : Reader (List Char) := fun s => checked (span.slice? s.source) s

/-- Reads the current token.  The end of the text stays where it is. -/
def bump : Reader Mark := do
  let i ← seek 0
  let mark ← markAt i
  if mark.kind ≠ .eof then modify fun s => { s with pos := i + 1 }
  return mark

def fail (f : Fault) : Reader α := throw (.setback (.fault f))

/-- Fails at the current token.  Only what is no token at all is looked at in the source. -/
def unexpected (wanted : Fault.Wanted) : Reader α := do
  let mark ← nth 0
  let found ← if mark.kind = .invalid then text mark.span else pure []
  fail (.unexpectedToken wanted ⟨mark.kind, String.ofList found, mark.span⟩)

def eat (wanted : Token.Kind) : Reader Bool := do
  if (← kind) = wanted then
    let _ ← bump
    return true
  else
    return false

def expect (wanted : Token.Kind) : Reader Mark := do
  if (← kind) = wanted then bump else unexpected (.token wanted)

def expectEnd (construct : Fault.Construct) (opener : Span) : Reader Mark := do
  let mark ← nth 0
  if mark.kind = .endKw then bump
  else fail ⟨.unclosed construct opener mark.kind, mark.span⟩

/-- Reads tokens of some kinds, less than `fuel` of them. -/
def skip (p : Token.Kind → Bool) : Nat → Reader Unit
  | 0 => throw (.setback .outOfFuel)
  | fuel + 1 => do
    if p (← kind) then
      let _ ← bump
      skip p fuel
    else
      return ()

/-- As many as there are tokens. -/
def itemFuel : Reader Nat := return (← get).marks.size

def skipTerminators : Reader Unit := do skip Cursor.isTerminator (← itemFuel)

def skipNewlines : Reader Unit := do skip (· == .newline) (← itemFuel)

def expectTerminator (after : Fault.Part) : Reader Unit := do
  if Cursor.isTerminator (← kind) then skipTerminators else unexpected (.terminator after)

/-! ### Counts and scopes -/

/-- One more, if that fits into 32 bits. -/
def increment? (n : Nat) : Option Nat := if n + 1 < 0x100000000 then some (n + 1) else none

/-- One less, if there is one. -/
def decrement? : Nat → Option Nat
  | 0 => none
  | n + 1 => some n

def freshId : Reader NodeId := do
  let id := (← get).nextId
  let nextId ← checked (increment? id)
  modify fun s => { s with nextId }
  return id

def openParen : Reader Mark := do
  let mark ← expect .lparen
  let parens ← checked (increment? (← get).parens)
  modify fun s => { s with parens }
  return mark

def closeParen : Reader Mark := do
  let mark ← expect .rparen
  let parens ← checked (decrement? (← get).parens)
  modify fun s => { s with parens }
  return mark

def declare (name : String) : Reader Unit :=
  modify fun s => { s with locals := Cursor.declareIn name s.locals }

def isLocal (name : String) : Reader Bool := return Cursor.isLocalIn name (← get).locals

/-- Changes the state behind a reader, however the reader ends. -/
def afterwards (f : State → State) (m : Reader α) : Reader α := fun s =>
  match m s with
  | .ok a t => .ok a (f t)
  | .error e t => .error e (f t)

def withNewlines (m : Reader α) : Reader α := do
  let parens := (← get).parens
  modify fun s => { s with parens := 0 }
  afterwards (fun s => { s with parens }) m

def inScope (closed : Bool) (m : Reader α) : Reader α := do
  modify fun s => { s with locals := ⟨closed, []⟩ :: s.locals }
  afterwards (fun s => { s with locals := s.locals.drop 1 }) m

def commaList (item : Reader α) (gap : Reader Unit) : Nat → Reader (List α)
  | 0 => throw (.setback .outOfFuel)
  | fuel + 1 => do
    let first ← item
    if ← eat .comma then
      gap
      return first :: (← commaList item gap fuel)
    else
      return [first]

/-! ### Productions -/

abbrev ExprReader := Bool → Reader Expr

/-- The name that a token is. -/
def name (mark : Mark) : Reader String := return String.ofList (← text mark.span)

def ident : Reader Ident := do
  let mark ← expect .ident
  let name ← name mark
  return ⟨← freshId, name, mark.span⟩

def idents : Reader (List Ident) := do commaList ident (pure ()) (← itemFuel)

def statements (expr : ExprReader) (closers : List Token.Kind) :
    Nat → State → List Expr × EStateM.Result Halt State Unit
  | 0, s => ([], .error (.setback .outOfFuel) s)
  | fuel + 1, s =>
    match (skipTerminators >>= fun _ => kind) s with
    | .error e s => ([], .error e s)
    | .ok k s =>
      if Parser.closes closers k then ([], .ok () s)
      else
        match expr true s with
        | .error e s => ([], .error e s)
        | .ok stmt s =>
          match kind s with
          | .error e s => ([stmt], .error e s)
          | .ok k s =>
            if Cursor.isTerminator k || Parser.closes closers k then
              let (stmts, result) := statements expr closers fuel s
              (stmt :: stmts, result)
            else
              ([stmt], unexpected (.terminator .statement) s)

def body (expr : ExprReader) (closers : List Token.Kind) : Reader (List Expr) := fun s =>
  match statements expr closers s.marks.size s with
  | (stmts, .ok () s) => .ok stmts s
  | (_, .error e s) => .error e s

def parenArgs (expr : ExprReader) : Reader (List Expr × Span) := do
  let _ ← openParen
  let args ← if (← kind) = .rparen then pure [] else commaList (expr true) (pure ()) (← itemFuel)
  let close ← closeParen
  return (args, close.span)

def commandArgs (expr : ExprReader) : Reader (List Expr) := do
  commaList (expr false) skipNewlines (← itemFuel)

def args (expr : ExprReader) (span : Span) : Reader (List Expr × Span) := do
  if (← kind) = .lparen then
    let (args, close) ← parenArgs expr
    return (args, span.merge close)
  else if Parser.startsArgument (← kind) then
    let args ← commandArgs expr
    return (args, (args.getLast?.map fun last => span.merge last.span).getD span)
  else
    return ([], span)

def blockParams : Reader (List Ident) := do
  if ← eat .bar then
    let params ← if (← kind) = .bar then pure [] else idents
    let _ ← expect .bar
    return params
  else
    return []

def blockContents (expr : ExprReader) (closer : Token.Kind) : Reader (List Ident × List Expr) :=
  inScope false <| withNewlines do
    let params ← blockParams
    params.forM fun p => declare p.name
    return (params, ← body expr [closer])

def doBlock (expr : ExprReader) : Reader (Block Expr) := do
  let opener ← bump
  let (params, stmts) ← blockContents expr .endKw
  let close ← expectEnd .doBlock opener.span
  return ⟨← freshId, opener.span.merge close.span, params, stmts⟩

def braceBlock (expr : ExprReader) : Reader (Block Expr) := do
  let opener ← bump
  let (params, stmts) ← blockContents expr .rbrace
  let close ← expect .rbrace
  return ⟨← freshId, opener.span.merge close.span, params, stmts⟩

def block? (expr : ExprReader) (allowDo : Bool) : Reader (Option (Block Expr)) := do
  if (← kind) = .lbrace then
    return some (← braceBlock expr)
  else if allowDo && (← kind) == .doKw then
    return some (← doBlock expr)
  else
    return none

def assignment (expr : ExprReader) (allowDo : Bool) : Reader Expr := do
  let mark ← bump
  let name ← name mark
  let _ ← bump
  skipNewlines
  declare name
  let target : Ident := ⟨← freshId, name, mark.span⟩
  let value ← expr allowDo
  return .node (← freshId) (mark.span.merge value.span) (.assign target value)

def nameExpr (expr : ExprReader) (allowDo : Bool) : Reader Expr := do
  let mark ← bump
  let name ← name mark
  if (← isLocal name) && (← kind) != .lparen then
    return .node (← freshId) mark.span (.var name)
  else
    let (args, span) ← args expr mark.span
    let block ← block? expr allowDo
    let span := (block.map fun b => span.merge b.span).getD span
    return .node (← freshId) span (.call name mark.span args block)

def yieldExpr (expr : ExprReader) : Reader Expr := do
  let keyword ← bump
  let (args, span) ← args expr keyword.span
  return .node (← freshId) span (.yield args)

def branchRest (expr : ExprReader) : Nat → Fault.Construct → Span → Reader Expr
  | 0, _, _ => throw (.setback .outOfFuel)
  | fuel + 1, construct, opener => do
    let cond ← expr true
    expectTerminator .ifCondition
    let thenBody ← body expr [.elsifKw, .elseKw, .endKw]
    let (elseBody, stop) ←
      match ← kind with
      | .elsifKw => do
        let keyword ← bump
        let nested ← branchRest expr fuel .elsif keyword.span
        pure (some [nested], nested.span)
      | .elseKw => do
        let _ ← bump
        let stmts ← body expr [.endKw]
        let close ← expectEnd construct opener
        pure (some stmts, close.span)
      | _ => do
        let close ← expectEnd construct opener
        pure (none, close.span)
    return .node (← freshId) (opener.merge stop) (.branch cond thenBody elseBody)

def branchExpr (expr : ExprReader) : Reader Expr := do
  let keyword ← bump
  branchRest expr (← itemFuel) .ifExpr keyword.span

def loopExpr (expr : ExprReader) : Reader Expr := do
  let keyword ← bump
  let cond ← expr false
  if ← eat .doKw then skipTerminators else expectTerminator .whileCondition
  let stmts ← body expr [.endKw]
  let close ← expectEnd .whileExpr keyword.span
  return .node (← freshId) (keyword.span.merge close.span) (.loop cond stmts)

def defParams : Reader (List Ident) := do
  if (← kind) = .lparen then
    let _ ← openParen
    let params ← if (← kind) = .rparen then pure [] else idents
    let _ ← closeParen
    skipTerminators
    return params
  else if (← kind) = .ident then
    let params ← idents
    expectTerminator .methodParameters
    return params
  else
    expectTerminator .methodName
    return []

def defExpr (expr : ExprReader) : Reader Expr := do
  let keyword ← bump
  let name ← ident
  let params ← defParams
  let stmts ← inScope true do
    params.forM fun p => declare p.name
    withNewlines (body expr [.endKw])
  let close ← expectEnd .defExpr keyword.span
  return .node (← freshId) (keyword.span.merge close.span) (.define ⟨name, params, stmts⟩)

def parenExpr (expr : ExprReader) : Reader Expr := do
  let opener ← openParen
  let inner ← expr true
  let close ← closeParen
  return inner.withSpan (opener.span.merge close.span)

/-- The text of a quoted literal without its first and its last byte. -/
def insideOf (raw : List Char) : Reader (List Char) :=
  checked ((Span.mk 1 (byteLength raw - 1)).slice? raw)

/-- The character that the inside of a literal stands for. -/
def charOf (inside : List Char) : Except Fault.Cause Literal := do
  match ← unescape inside with
  | [c] => .ok (.char c)
  | _ => .error .notOneCharacter

/-- The literal that a token stands for, if it stands for one. -/
def literal? (mark : Mark) : Reader (Option (Except Fault.Cause Literal)) := do
  match mark.kind with
  | .int => return some (intValue (← text mark.span))
  | .float => return some (.ok (floatValue (← text mark.span)))
  | .char => return some (charOf (← insideOf (← text mark.span)))
  | .string => return some ((unescape (← insideOf (← text mark.span))).map fun cs => .str (String.ofList cs))
  | .trueKw => return some (.ok (.bool true))
  | .falseKw => return some (.ok (.bool false))
  | .nilKw => return some (.ok .nil)
  | _ => return none

def primary (expr : ExprReader) : Reader Expr := do
  let mark ← nth 0
  match ← literal? mark with
  | some (.ok value) =>
    let _ ← bump
    return .node (← freshId) mark.span (.literal value)
  | some (.error cause) => fail ⟨cause, mark.span⟩
  | none => if mark.kind = .lparen then parenExpr expr else unexpected .expression

def exprLayer (expr : ExprReader) (allowDo : Bool) : Reader Expr := do
  match ← kind with
  | .defKw => defExpr expr
  | .ifKw => branchExpr expr
  | .whileKw => loopExpr expr
  | .yieldKw => yieldExpr expr
  | .ident => if (← nth 1).kind = .eq then assignment expr allowDo else nameExpr expr allowDo
  | _ => primary expr

def expr : Nat → ExprReader
  | 0 => fun _ => throw (.setback .outOfFuel)
  | fuel + 1 => exprLayer (expr fuel)

/-- Reads a text: the statements read, and how the machine stops. -/
def run (source : String) : List Expr × EStateM.Result Halt State Unit :=
  let s := State.start source
  statements (expr s.marks.size) [] s.marks.size s

end ByIndex

end FlowTyping
