import FlowTyping.Inference.Engine

/-!
# Typing one expression

How the type of an expression comes from the types of the expressions inside it, and of those in the
method bodies and blocks that it runs.  Each function takes the inference for those as an argument;
`Infer.layer` puts them together, and `FlowTyping.Inference` ties the knot.

Types follow the flow of the program.  A local name has the type of what it holds at the point where
it is read, and where ways through the program meet the types are joined.  The body of a method is
evaluated for every signature that the method is called with, and the body of a block whenever the
method that it was given to reaches a `yield`.
-/

namespace FlowTyping

/-- The primitive that a literal belongs to. -/
def Literal.type : Literal → Ty
  | int _ => .int
  | float _ => .float
  | char _ => .char
  | str _ => .string
  | bool _ => .bool
  | nil => .nil

namespace Infer

variable (expr : Expr → Infer Ty)

/-- The type of a list of statements is that of the last one, and `Nil` if there is none. -/
def body (stmts : List Expr) : Infer Ty := stmts.foldlM (fun _ stmt => expr stmt) .nil

/-- The type of a variable is that of its innermost binding in sight. -/
def readVar (id : NodeId) (span : Span) (name : String) : Infer Ty := do
  match (← get).scopes.lookup (← context).scope name with
  | some ty => return ty
  | none => fail (.unboundVariable name) id span

/-- An assignment gives its target the type of the value. -/
def assign (target : Ident) (value : Expr) : Infer Ty := do
  let ty ← expr value
  modify fun s => { s with scopes := s.scopes.assign s.context.scope target.name ty }
  record target.id ty
  return ty

/-- Both parts of a choice start from the same tables, and afterwards a name has the types that
either of them left in it. -/
def branch (cond : Expr) (thenBody : List Expr) (elseBody : Option (List Expr)) : Infer Ty := do
  let _ ← expr cond
  let scope := (← context).scope
  let before ← snapshot scope
  let thenType ← body expr thenBody
  let afterThen ← snapshot scope
  restore before
  let elseType ← body expr (elseBody.getD [])
  let afterElse ← snapshot scope
  restore (afterThen.merge afterElse)
  return thenType.join elseType

/-- Once around a loop: the body, and then the condition. -/
def loopPass (cond : Expr) (stmts : List Expr) : Infer Ty := do
  let _ ← body expr stmts
  expr cond

/-- A loop evaluates its condition, and then its body and its condition any number of times. -/
def loop (fuel : Nat) (cond : Expr) (stmts : List Expr) : Infer Ty := do
  let _ ← expr cond
  let scope := (← context).scope
  let _ ← untilStable scope (loopPass expr cond stmts) fuel
  return .nil

/-- The type that the body of a method has for a signature.  It is evaluated in a scope of its own
with the parameters bound to the types of the arguments, and a `yield` in it runs the first of
`blocks`.  `id` and `span` are those of the call. -/
def methodBody (limit : Nat) (id : NodeId) (span : Span) (method : Method) (signature : Signature)
    (blocks : List BlockFrame) : Infer Ty := do
  let depth := (← context).depth
  if limit ≤ depth then
    fail (.recursionLimitExceeded method.name limit) id span
  else
    let scope ← openScope none (method.definition.params.zip signature)
    within ⟨scope, blocks, some method.name, depth + 1⟩ (body expr method.definition.body)

/-- A call without a block for a signature of which nothing is known evaluates the body; meanwhile
the signature counts as returning `Nil`, which ends a recursion. -/
def firstCall (limit : Nat) (id : NodeId) (span : Span) (method : Method) (signature : Signature) :
    Infer Ty := do
  updateMethod method.name (·.store signature .nil)
  let ty ← methodBody expr limit id span method signature []
  updateMethod method.name (·.store signature ty)
  return ty

/-- A call without a block returns what is known for its signature, if anything is. -/
def plainCall (limit : Nat) (id : NodeId) (span : Span) (method : Method) (signature : Signature) :
    Infer Ty :=
  match method.returns? signature with
  | some ty => return ty
  | none => firstCall expr limit id span method signature

/-- A call with a block always evaluates the body of the method, for what it returns hangs on the
block.  The same call with the same block inside that evaluation returns `Nil`. -/
def blockCall (limit : Nat) (id : NodeId) (span : Span) (method : Method) (signature : Signature)
    (block : Block Expr) : Infer Ty := do
  let call : BlockCall := ⟨method.name, signature, block.id⟩
  if call ∈ (← get).active then
    return .nil
  else
    let here ← context
    let frame : BlockFrame := ⟨block, here.scope, here.method?⟩
    let ty ← whileActive call
      (methodBody expr limit id span method signature (frame :: here.blocks))
    updateMethod method.name (·.observe signature ty)
    return ty

/-- What a call at a node does with the method that it has found. -/
abbrev Entry := NodeId → Span → Method → Signature → Option (Block Expr) → Infer Ty

/-- A call is treated by whether there is a block with it. -/
def enter (limit : Nat) : Entry
  | id, span, method, signature, none => plainCall expr limit id span method signature
  | id, span, method, signature, some block => blockCall expr limit id span method signature block

/-- A call evaluates its arguments and then the method that its name stands for at that moment. -/
def call (entry : Entry) (id : NodeId) (span : Span) (name : String) (nameSpan : Span)
    (args : List Expr) (block : Option (Block Expr)) : Infer Ty := do
  let signature ← args.mapM expr
  match (← get).module.method? name with
  | none => fail (.unresolvedMethod name) id nameSpan
  | some method =>
    if method.arity ≠ signature.length then
      fail (.arityMismatch name method.arity signature.length) id span
    else
      entry id span method signature block

/-- The types that the parameters of a block get.  A parameter without an argument is `Nil`. -/
def paramTypes (params : List Ident) (args : Signature) : List (Ident × Ty) :=
  params.zipIdx.map fun (param, i) => (param, args.getD i .nil)

/-- Once through the body of a block, in a scope inside that of the call that it goes with. -/
def blockPass (frame : BlockFrame) (outer : List BlockFrame) (depth : Nat) (args : Signature) :
    Infer Ty := do
  let scope ← openScope (some frame.scope) (paramTypes frame.block.params args)
  within ⟨scope, outer, frame.method?, depth⟩ (body expr frame.block.body)

/-- The type that a block has for the given arguments.  Its body may run any number of times, so it
is evaluated until the tables at the call that it goes with are stable. -/
def runBlock (fuel : Nat) (frame : BlockFrame) (outer : List BlockFrame) (args : Signature) :
    Infer Ty := do
  let depth := (← context).depth
  let ty := Ty.unionOf (← untilStable frame.scope (blockPass expr frame outer depth args) fuel)
  record frame.block.id ty
  return ty

/-- A `yield` evaluates its arguments and then the block that was given to the method. -/
def yield (fuel : Nat) (id : NodeId) (span : Span) (args : List Expr) : Infer Ty := do
  let signature ← args.mapM expr
  match (← context).blocks with
  | [] => fail .noBlockGiven id span
  | frame :: outer => runBlock expr fuel frame outer signature

/-- A definition registers the method and evaluates nothing. -/
def define (definition : Definition Expr) : Infer Ty := do
  modify fun s => { s with module := s.module.define definition }
  return .nil

/-- The type of a node by its form, with `expr` for the expressions inside it, `entry` for the
methods that it calls, and at most `fuel` passes over a loop. -/
def form (entry : Entry) (fuel : Nat) (id : NodeId) (span : Span) : Form Expr → Infer Ty
  | .literal v => return v.type
  | .var name => readVar id span name
  | .assign target value => assign expr target value
  | .call name nameSpan args block => call expr entry id span name nameSpan args block
  | .yield args => yield expr fuel id span args
  | .branch cond thenBody elseBody => branch expr cond thenBody elseBody
  | .loop cond stmts => loop expr fuel cond stmts
  | .define definition => define definition

/-- The type of an expression.  The node is seen to have it. -/
def layer (entry : Entry) (fuel : Nat) (e : Expr) : Infer Ty := do
  let ty ← form expr entry fuel e.id e.span e.form
  record e.id ty
  return ty

end Infer

end FlowTyping
