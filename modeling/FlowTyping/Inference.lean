import FlowTyping.Inference.Layer

/-!
# Inference

`Program.infer` finds the types of a program, or the first type error on its way.

An evaluation is allowed a number of nested evaluations, which is also the number of passes that it
allows a loop.  `Program.fuel` bounds what a program can use.  Along a chain of nested evaluations
at most `limit` bodies of methods are entered, and no more bodies of blocks than there were calls
with blocks; within one body the expressions nest no deeper than the program is large.  And every
pass over a loop but the last one binds a new name in one of the scopes in sight, or adds one of the
six primitives to a name there.
-/

namespace FlowTyping

/-- The type of an expression, with at most `fuel` nested evaluations and passes over a loop. -/
def Infer.expr (limit : Nat) : Nat → Expr → Infer Ty
  | 0 => fun _ => throw .outOfFuel
  | fuel + 1 => Infer.layer (Infer.expr limit fuel) (Infer.enter (Infer.expr limit fuel) limit) fuel

namespace Program

/-- How many nested evaluations and passes over a loop a program can use. -/
def fuel (p : Program) (limit : Nat) : Nat :=
  let n := p.size + 1
  (2 * limit + 2) * (n + 1) + 7 * n * n + 2

/-- Evaluates the statements of a program, one after the other. -/
def run (p : Program) (limit : Nat) : Infer Ty :=
  Infer.body (Infer.expr limit (p.fuel limit)) p.stmts

/-- Infers the types of a program in which at most `limit` bodies of methods may be under inference
at once. -/
def infer (p : Program) (limit : Nat) : Except Stop Module :=
  match p.run limit .initial with
  | .ok ty s => .ok { s.module with result := ty }
  | .error e _ => .error e

end Program

end FlowTyping
