import FlowTyping.Expr
import FlowTyping.Json

/-!
# Programs as JSON

The JSON form of a program, to write it (`Program.toJson`) and to read it (`Program.ofJson?`).  A
record is an object with its fields as members, a choice is an object with one member named for the
alternative, and what is absent is `null`.  When a record is read, other members are passed over,
and an array of its fields in order will do as well.
-/

namespace FlowTyping

/-! ### Writing -/

def Span.toJson (s : Span) : Json := .obj [("start", .int s.start), ("end", .int s.stop)]

def Ident.toJson (i : Ident) : Json :=
  .obj [("id", .int i.id), ("name", .str i.name), ("span", i.span.toJson)]

def Literal.toJson : Literal → Json
  | int i => .obj [("Int", .int i.toInt)]
  | float x => .obj [("Float", .float x)]
  | char c => .obj [("Char", .str c.toString)]
  | str s => .obj [("Str", .str s)]
  | bool b => .obj [("Bool", .bool b)]
  | nil => .str "Nil"

def Block.toJson (b : Block Json) : Json :=
  .obj [("id", .int b.id), ("span", b.span.toJson), ("params", .arr (b.params.map Ident.toJson)),
    ("body", .arr b.body)]

/-- One layer of a program in JSON, with `literal` for the literals. -/
def Form.toJson (literal : Literal → Json) : Form Json → Json
  | .literal v => .obj [("Literal", literal v)]
  | var n => .obj [("Var", .str n)]
  | assign t v => .obj [("Assign", .obj [("target", t.toJson), ("value", v)])]
  | call n s args block =>
    .obj [("Call", .obj [("name", .str n), ("name_span", s.toJson), ("args", .arr args),
      ("block", Json.ofOption Block.toJson block)])]
  | yield args => .obj [("Yield", .obj [("args", .arr args)])]
  | branch c t e =>
    .obj [("If", .obj [("cond", c), ("then_body", .arr t), ("else_body", Json.ofOption .arr e)])]
  | loop c b => .obj [("While", .obj [("cond", c), ("body", .arr b)])]
  | define d =>
    .obj [("Def", .obj [("name", d.name.toJson), ("params", .arr (d.params.map Ident.toJson)),
      ("body", .arr d.body)])]

/-- The JSON form of an expression, with `literal` for the literals. -/
def Expr.toJsonWith (literal : Literal → Json) : Expr → Json :=
  Expr.fold fun id span form =>
    .obj [("id", .int id), ("span", span.toJson), ("kind", form.toJson literal)]

/-- The JSON form of a program, with `literal` for the literals. -/
def Program.toJsonWith (literal : Literal → Json) (p : Program) : Json :=
  .obj [("stmts", .arr (p.stmts.map (Expr.toJsonWith literal)))]

/-- The JSON form of a program. -/
def Program.toJson (p : Program) : Json := p.toJsonWith Literal.toJson

/-! ### Reading -/

namespace Json

/-- The values of the fields of a record, in order.  An optional field that is missing is `null`. -/
def record? (required optional : List String) : Json → Option (List Json)
  | obj members =>
    let absent := optional.map fun name => (member? name members).getD null
    (required.mapM (member? · members)).map (· ++ absent)
  | arr items => if items.length = required.length + optional.length then some items else none
  | _ => none

def str? : Json → Option String
  | str s => some s
  | _ => none

def arr? : Json → Option (List Json)
  | arr items => some items
  | _ => none

/-- A natural number of 32 bits. -/
def word? : Json → Option Nat
  | int i => if 0 ≤ i ∧ i < 0x100000000 then some i.toNat else none
  | _ => none

/-- A value that may be absent. -/
def option? (read : Json → Option α) : Json → Option (Option α)
  | null => some none
  | j => (read j).map some

end Json

def Span.ofJson? (j : Json) : Option Span := do
  match ← Json.record? ["start", "end"] [] j with
  | [start, stop] => return ⟨← start.word?, ← stop.word?⟩
  | _ => none

def Ident.ofJson? (j : Json) : Option Ident := do
  match ← Json.record? ["id", "name", "span"] [] j with
  | [id, name, span] => return ⟨← id.word?, ← name.str?, ← Span.ofJson? span⟩
  | _ => none

def idents? (j : Json) : Option (List Ident) := do (← j.arr?).mapM Ident.ofJson?

def Literal.ofJson? : Json → Option Literal
  | .str "Nil" => some nil
  | .obj [("Nil", .null)] => some nil
  | .obj [("Int", .int i)] =>
    if -0x8000000000000000 ≤ i ∧ i < 0x8000000000000000 then some (int (Int64.ofInt i)) else none
  | .obj [("Float", .float x)] => some (float x)
  | .obj [("Float", .int i)] =>
    let x := Binary64.ofDecimal i.natAbs 0
    some (float (if i < 0 then x.neg else x))
  | .obj [("Char", .str s)] =>
    match s.toList with
    | [c] => some (char c)
    | _ => none
  | .obj [("Str", .str s)] => some (str s)
  | .obj [("Bool", .bool b)] => some (bool b)
  | _ => none

section

variable (expr : Json → Option Expr)

def exprs? (j : Json) : Option (List Expr) := do (← j.arr?).mapM expr

def Block.ofJson? (j : Json) : Option (Block Expr) := do
  match ← Json.record? ["id", "span", "params", "body"] [] j with
  | [id, span, params, body] =>
    return ⟨← id.word?, ← Span.ofJson? span, ← idents? params, ← exprs? expr body⟩
  | _ => none

def Definition.ofJson? (j : Json) : Option (Definition Expr) := do
  match ← Json.record? ["name", "params", "body"] [] j with
  | [name, params, body] =>
    return ⟨← Ident.ofJson? name, ← idents? params, ← exprs? expr body⟩
  | _ => none

/-- Reads one layer whose parts are read by `expr`. -/
def Form.ofJson? : Json → Option (Form Expr)
  | .obj [("Literal", j)] => (Literal.ofJson? j).map literal
  | .obj [("Var", j)] => j.str?.map var
  | .obj [("Assign", j)] => do
    match ← Json.record? ["target", "value"] [] j with
    | [target, value] => return assign (← Ident.ofJson? target) (← expr value)
    | _ => none
  | .obj [("Call", j)] => do
    match ← Json.record? ["name", "name_span", "args"] ["block"] j with
    | [name, span, args, block] =>
      return call (← name.str?) (← Span.ofJson? span) (← exprs? expr args)
        (← block.option? (Block.ofJson? expr))
    | _ => none
  | .obj [("Yield", j)] => do
    match ← Json.record? ["args"] [] j with
    | [args] => return yield (← exprs? expr args)
    | _ => none
  | .obj [("If", j)] => do
    match ← Json.record? ["cond", "then_body"] ["else_body"] j with
    | [cond, thenBody, elseBody] =>
      return branch (← expr cond) (← exprs? expr thenBody) (← elseBody.option? (exprs? expr))
    | _ => none
  | .obj [("While", j)] => do
    match ← Json.record? ["cond", "body"] [] j with
    | [cond, body] => return loop (← expr cond) (← exprs? expr body)
    | _ => none
  | .obj [("Def", j)] => (Definition.ofJson? expr j).map define
  | _ => none

/-- Reads an expression whose parts are read by `expr`. -/
def Expr.layerOfJson? (j : Json) : Option Expr := do
  match ← Json.record? ["id", "span", "kind"] [] j with
  | [id, span, kind] => return node (← id.word?) (← Span.ofJson? span) (← Form.ofJson? expr kind)
  | _ => none

end

/-- Reads an expression that nests at most `fuel` deep. -/
def Expr.ofJsonWithin? : Nat → Json → Option Expr
  | 0, _ => none
  | fuel + 1, j => Expr.layerOfJson? (Expr.ofJsonWithin? fuel) j

/-- Reads an expression.  Expressions nest at most as deep as the value does. -/
def Expr.ofJson? (j : Json) : Option Expr := Expr.ofJsonWithin? j.height j

/-- Reads a program. -/
def Program.ofJson? (j : Json) : Option Program := do
  match ← Json.record? ["stmts"] [] j with
  | [stmts] => return ⟨← exprs? Expr.ofJson? stmts⟩
  | _ => none

end FlowTyping
