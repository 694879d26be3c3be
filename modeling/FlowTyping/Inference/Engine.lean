import FlowTyping.Registry
import FlowTyping.Scopes
import FlowTyping.TypeError

/-!
# The state of inference

One run of the inference changes an `Engine`: what has been found out so far, the scopes, the calls
with blocks that are under way, and the context of the expression at hand.  A context is entered
with `Infer.within`, which comes back to the context before, however the run inside ends.
-/

namespace FlowTyping

/-- A block together with where it was written. -/
structure BlockFrame where
  block : Block Expr
  /-- The scope of the call that the block goes with. -/
  scope : ScopeId
  /-- The method around that call. -/
  method? : Option String
deriving Repr

/-- Where the expression at hand is evaluated. -/
structure Context where
  scope : ScopeId
  /-- The block that a `yield` runs is the first one.  A `yield` in the body of that block runs the
  second one, and so on. -/
  blocks : List BlockFrame
  /-- The method whose body is evaluated. -/
  method? : Option String
  /-- How many method bodies are under inference. -/
  depth : Nat
deriving Repr

/-- A call with a block: the method, the types of the arguments, and the block. -/
structure BlockCall where
  method : String
  signature : Signature
  block : NodeId
deriving DecidableEq, Repr

structure Engine where
  module : Module
  scopes : Scopes
  /-- The calls with a block whose method body is under inference. -/
  active : List BlockCall
  context : Context
deriving Repr

/-- Nothing is inferred, and the context is the top level. -/
def Engine.initial : Engine where
  module := .initial
  scopes := .initial
  active := []
  context := ⟨Scopes.root, [], none, 0⟩

/-- What ends an inference early: a type error, or the number of nested evaluations and of passes
over a loop that it was allowed did not suffice. -/
inductive Stop where
  | error (e : TypeError)
  | outOfFuel
deriving DecidableEq, Repr

/-- A step of the inference.  The engine is there after a failure, too. -/
abbrev Infer := EStateM Stop Engine

namespace Infer

/-- Ends the inference with a type error at a node. -/
def fail (cause : TypeError.Cause) (node : NodeId) (span : Span) : Infer α := fun s =>
  .error (.error ⟨cause, node, span, s.context.method?⟩) s

def context : Infer Context := return (← get).context

/-- Adds a type that a node was seen to have. -/
def record (node : NodeId) (ty : Ty) : Infer Unit :=
  modify fun s => { s with module := s.module.record node ty }

/-- Changes the method with a name. -/
def updateMethod (name : String) (f : Method → Method) : Infer Unit :=
  modify fun s => { s with module := s.module.updateMethod name f }

/-- Makes a scope. -/
def newScope (parent? : Option ScopeId) : Infer ScopeId := fun s =>
  let (scopes, scope) := s.scopes.push parent?
  .ok scope { s with scopes }

/-- Binds a parameter in a scope. -/
def bindParam (scope : ScopeId) (param : Ident) (ty : Ty) : Infer Unit := do
  modify fun s => { s with scopes := s.scopes.declare scope param.name ty }
  record param.id ty

/-- Makes a scope with parameters bound in it. -/
def openScope (parent? : Option ScopeId) (params : List (Ident × Ty)) : Infer ScopeId := do
  let scope ← newScope parent?
  params.forM fun (param, ty) => bindParam scope param ty
  return scope

/-- The tables of a scope and of the scopes around it. -/
def snapshot (scope : ScopeId) : Infer Snapshot := return (← get).scopes.snapshot scope

/-- Puts the tables of a snapshot back in place. -/
def restore (saved : Snapshot) : Infer Unit :=
  modify fun s => { s with scopes := s.scopes.restore saved }

/-- Runs a step in another context and comes back to the present one. -/
def within (context : Context) (step : Infer α) : Infer α := fun s =>
  match step { s with context } with
  | .ok a t => .ok a { t with context := s.context }
  | .error e t => .error e { t with context := s.context }

/-- Runs a step with a call counted among those that are under way. -/
def whileActive (call : BlockCall) (step : Infer α) : Infer α := fun s =>
  match step { s with active := call :: s.active } with
  | .ok a t => .ok a { t with active := t.active.erase call }
  | .error e t => .error e { t with active := t.active.erase call }

/-- Repeats a step that may run any number of times.  After each pass the tables of `scope` and of
the scopes around it are merged with what they were before, and once this changes nothing the
passes end.  Gives what each pass returned. -/
def untilStable (scope : ScopeId) (pass : Infer α) : Nat → Infer (List α)
  | 0 => throw .outOfFuel
  | fuel + 1 => do
    let before ← snapshot scope
    let a ← pass
    let merged := before.merge (← snapshot scope)
    restore merged
    if merged = before then return [a] else return a :: (← untilStable scope pass fuel)

end Infer

end FlowTyping
