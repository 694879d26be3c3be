import FlowTyping.Parse.Cursor
import FlowTyping.Parse.Literal
import FlowTyping.Token.Scan

/-!
# Grammar

The productions of the language.  Each production that contains expressions takes the parser of
expressions as an argument, and `Parser.expr` ties the knot: `Parser.exprLayer` describes one
expression whose parts are read by the parser of one level less.  An expression takes at least one
token before it starts on its parts, so as many levels as there are tokens are enough.

Whether a bare name is a local variable or a call is decided here: it is a variable if it has been
assigned, or is a parameter, in a scope in sight.
-/

namespace FlowTyping

namespace Parser

/-- A parser of expressions.  The flag tells whether a `do` block may go with a call that ends the
expression; it may not where the block belongs to an outer call or where `do` opens a loop body. -/
abbrev ExprParser := Bool → Parser Expr

/-- Reads the name of a binding place. -/
def ident : Parser Ident := do
  let token ← expect .ident
  return ⟨← freshId, token.text, token.span⟩

/-- Reads names with commas between them. -/
def idents : Parser (List Ident) := do commaList ident (pure ()) (← itemFuel)

/-! ### Statements -/

/-- Whether the statements of a list end at a token of this kind. -/
def closes (closers : List Token.Kind) (kind : Token.Kind) : Bool :=
  kind == .eof || closers.contains kind

/-- Reads statements up to a token that closes the list, at most `fuel` of them, and leaves that
token.  The statements read before a fault are not lost. -/
def statements (expr : ExprParser) (closers : List Token.Kind) :
    Nat → Cursor → List Expr × EStateM.Result Setback Cursor Unit
  | 0, c => ([], .error .outOfFuel c)
  | fuel + 1, c =>
    let c := c.skipTerminators
    if closes closers c.kind then ([], .ok () c)
    else
      match expr true c with
      | .error e c => ([], .error e c)
      | .ok stmt c =>
        if Cursor.isTerminator c.kind || closes closers c.kind then
          let (stmts, result) := statements expr closers fuel c
          (stmt :: stmts, result)
        else
          ([stmt], .error (.fault (.unexpectedToken (.terminator .statement) c.current)) c)

/-- Reads the statements of a body up to a closing token, and leaves that token. -/
def body (expr : ExprParser) (closers : List Token.Kind) : Parser (List Expr) := fun c =>
  match statements expr closers (c.rest.length + 1) c with
  | (stmts, .ok () c) => .ok stmts c
  | (_, .error e c) => .error e c

/-! ### Arguments and blocks -/

/-- The tokens that an argument without parentheses may start with. -/
def startsArgument : Token.Kind → Bool
  | .ident | .int | .float | .char | .string | .trueKw | .falseKw | .nilKw => true
  | _ => false

/-- Reads arguments in parentheses.  The span is that of the closing parenthesis. -/
def parenArgs (expr : ExprParser) : Parser (List Expr × Span) := do
  let _ ← openParen
  let args ← if (← kind) = .rparen then pure [] else commaList (expr true) (pure ()) (← itemFuel)
  let close ← closeParen
  return (args, close.span)

/-- Reads arguments without parentheses, of which there has to be one.  A line may end behind a
comma. -/
def commandArgs (expr : ExprParser) : Parser (List Expr) := do
  commaList (expr false) skipNewlines (← itemFuel)

/-- Reads the arguments of a call or `yield` whose name has the given span, and widens the span to
reach over them. -/
def args (expr : ExprParser) (span : Span) : Parser (List Expr × Span) := do
  if (← kind) = .lparen then
    let (args, close) ← parenArgs expr
    return (args, span.merge close)
  else if startsArgument (← kind) then
    let args ← commandArgs expr
    return (args, (args.getLast?.map fun last => span.merge last.span).getD span)
  else
    return ([], span)

/-- Reads `|names|`, which may be missing. -/
def blockParams : Parser (List Ident) := do
  if ← eat .bar then
    let params ← if (← kind) = .bar then pure [] else idents
    let _ ← expect .bar
    return params
  else
    return []

/-- Reads what stands between the brackets of a block.  A block sees the names around it. -/
def blockContents (expr : ExprParser) (closer : Token.Kind) : Parser (List Ident × List Expr) :=
  inScope false <| withNewlines do
    let params ← blockParams
    params.forM fun p => declare p.name
    return (params, ← body expr [closer])

/-- Reads a block from `do` to `end`. -/
def doBlock (expr : ExprParser) : Parser (Block Expr) := do
  let opener ← bump
  let (params, stmts) ← blockContents expr .endKw
  let close ← expectEnd .doBlock opener.span
  return ⟨← freshId, opener.span.merge close.span, params, stmts⟩

/-- Reads a block from `{` to `}`. -/
def braceBlock (expr : ExprParser) : Parser (Block Expr) := do
  let opener ← bump
  let (params, stmts) ← blockContents expr .rbrace
  let close ← expect .rbrace
  return ⟨← freshId, opener.span.merge close.span, params, stmts⟩

/-- Reads the block of a call, if there is one. -/
def block? (expr : ExprParser) (allowDo : Bool) : Parser (Option (Block Expr)) := do
  if (← kind) = .lbrace then
    return some (← braceBlock expr)
  else if allowDo && (← kind) == .doKw then
    return some (← doBlock expr)
  else
    return none

/-! ### Expressions -/

/-- Reads `name = value`.  The name is local from here on, so in the value it is a variable. -/
def assignment (expr : ExprParser) (allowDo : Bool) : Parser Expr := do
  let name ← bump
  let _ ← bump
  skipNewlines
  declare name.text
  let target : Ident := ⟨← freshId, name.text, name.span⟩
  let value ← expr allowDo
  return .node (← freshId) (name.span.merge value.span) (.assign target value)

/-- Reads an expression that starts with a name: a local variable, or a call.  A local name with a
parenthesis behind it is called. -/
def nameExpr (expr : ExprParser) (allowDo : Bool) : Parser Expr := do
  let name ← bump
  if (← isLocal name.text) && (← kind) != .lparen then
    return .node (← freshId) name.span (.var name.text)
  else
    let (args, span) ← args expr name.span
    let block ← block? expr allowDo
    let span := (block.map fun b => span.merge b.span).getD span
    return .node (← freshId) span (.call name.text name.span args block)

/-- Reads a `yield` with its arguments. -/
def yieldExpr (expr : ExprParser) : Parser Expr := do
  let keyword ← bump
  let (args, span) ← args expr keyword.span
  return .node (← freshId) span (.yield args)

/-- Reads a choice from behind its `if` or `elsif`, whose span is given.  An `elsif` is a choice in
the else part, and all of them share one `end`. -/
def branchRest (expr : ExprParser) : Nat → Fault.Construct → Span → Parser Expr
  | 0, _, _ => throw .outOfFuel
  | fuel + 1, construct, opener => do
    let cond ← expr true
    expectTerminator .ifCondition
    let thenBody ← body expr [.elsifKw, .elseKw, .endKw]
    let (elseBody, stop) ←
      match ← kind with
      | .elsifKw => do
        let keyword ← bump
        let nested ← branchRest expr fuel .elsif keyword.span
        pure (some [nested], nested.span)
      | .elseKw => do
        let _ ← bump
        let stmts ← body expr [.endKw]
        let close ← expectEnd construct opener
        pure (some stmts, close.span)
      | _ => do
        let close ← expectEnd construct opener
        pure (none, close.span)
    return .node (← freshId) (opener.merge stop) (.branch cond thenBody elseBody)

/-- Reads a choice from `if` to `end`. -/
def branchExpr (expr : ExprParser) : Parser Expr := do
  let keyword ← bump
  branchRest expr (← itemFuel) .ifExpr keyword.span

/-- Reads a loop from `while` to `end`. -/
def loopExpr (expr : ExprParser) : Parser Expr := do
  let keyword ← bump
  let cond ← expr false
  if ← eat .doKw then skipTerminators else expectTerminator .whileCondition
  let stmts ← body expr [.endKw]
  let close ← expectEnd .whileExpr keyword.span
  return .node (← freshId) (keyword.span.merge close.span) (.loop cond stmts)

/-- Reads the parameters of a method definition and what has to stand behind them. -/
def defParams : Parser (List Ident) := do
  if (← kind) = .lparen then
    let _ ← openParen
    let params ← if (← kind) = .rparen then pure [] else idents
    let _ ← closeParen
    skipTerminators
    return params
  else if (← kind) = .ident then
    let params ← idents
    expectTerminator .methodParameters
    return params
  else
    expectTerminator .methodName
    return []

/-- Reads a method definition from `def` to `end`.  Its body sees its parameters only. -/
def defExpr (expr : ExprParser) : Parser Expr := do
  let keyword ← bump
  let name ← ident
  let params ← defParams
  let stmts ← inScope true do
    params.forM fun p => declare p.name
    withNewlines (body expr [.endKw])
  let close ← expectEnd .defExpr keyword.span
  return .node (← freshId) (keyword.span.merge close.span) (.define ⟨name, params, stmts⟩)

/-- Reads an expression in parentheses, which keeps its identity and gets their span. -/
def parenExpr (expr : ExprParser) : Parser Expr := do
  let opener ← openParen
  let inner ← expr true
  let close ← closeParen
  return inner.withSpan (opener.span.merge close.span)

/-- Reads a literal or an expression in parentheses. -/
def primary (expr : ExprParser) : Parser Expr := do
  let token := (← get).current
  match token.literal? with
  | some (.ok value) =>
    let _ ← bump
    return .node (← freshId) token.span (.literal value)
  | some (.error cause) => fail ⟨cause, token.span⟩
  | none => if token.kind = .lparen then parenExpr expr else unexpected .expression

/-- Reads one expression, with `expr` for the expressions inside it. -/
def exprLayer (expr : ExprParser) (allowDo : Bool) : Parser Expr := do
  let c ← get
  match c.kind with
  | .defKw => defExpr expr
  | .ifKw => branchExpr expr
  | .whileKw => loopExpr expr
  | .yieldKw => yieldExpr expr
  | .ident => if c.next.kind = .eq then assignment expr allowDo else nameExpr expr allowDo
  | _ => primary expr

/-- Reads an expression in which expressions nest at most `fuel` deep. -/
def expr : Nat → ExprParser
  | 0 => fun _ => throw .outOfFuel
  | fuel + 1 => exprLayer (expr fuel)

end Parser

/-! ### Programs -/

/-- What reading a text gives: the statements read, all of them or those before the first fault, the
setback that ended the reading early, and the cursor where it ended. -/
structure Parse where
  program : Program
  setback? : Option Setback
  cursor : Cursor

/-- Reads a program from its tokens, where the text ends at byte `stop`. -/
def Program.ofTokens (tokens : List Token) (stop : Nat) : Parse :=
  let c := Cursor.start tokens stop
  let fuel := c.rest.length + 1
  match Parser.statements (Parser.expr fuel) [] fuel c with
  | (stmts, .ok () c) => ⟨⟨stmts⟩, none, c⟩
  | (stmts, .error setback c) => ⟨⟨stmts⟩, some setback, c⟩

/-- Reads a program from its text. -/
def Program.parse (source : String) : Parse :=
  Program.ofTokens (Token.lexemes source) (byteLength source.toList)

namespace Parse

/-- The faults found: at most one, since reading stops there. -/
def faults (p : Parse) : List Fault :=
  match p.setback? with
  | some (.fault f) => [f]
  | _ => []

/-- The program, if the whole text was read. -/
def program? (p : Parse) : Option Program :=
  if p.setback?.isNone then some p.program else none

end Parse

end FlowTyping
