import FlowTyping.Expr

/-!
# Type errors

A type error ends the inference.  It has a cause, the node and the span it is reported at, and the
method whose body the node is in, if it is in one.
-/

namespace FlowTyping

namespace TypeError

inductive Cause where
  /-- A variable is read before it is bound. -/
  | unboundVariable (name : String)
  /-- No method of the name is defined, at least not yet. -/
  | unresolvedMethod (name : String)
  /-- A `yield` runs in a method that was called without a block. -/
  | noBlockGiven
  /-- A call has another number of arguments than the method has parameters. -/
  | arityMismatch (name : String) (expected found : Nat)
  /-- More method bodies are under inference at once than allowed. -/
  | recursionLimitExceeded (name : String) (limit : Nat)
deriving DecidableEq, Repr

def Cause.message : Cause → String
  | unboundVariable name => "undefined local variable `" ++ name ++ "`"
  | unresolvedMethod name => "undefined method `" ++ name ++ "`"
  | noBlockGiven => "no block given (yield)"
  | arityMismatch name expected found =>
    "wrong number of arguments for `" ++ name ++ "` (given " ++ toString found ++ ", expected " ++
      toString expected ++ ")"
  | recursionLimitExceeded name limit =>
    "inferring `" ++ name ++ "` exceeded the recursion limit of " ++ toString limit

end TypeError

structure TypeError where
  cause : TypeError.Cause
  node : NodeId
  span : Span
  /-- The method whose body the node is in. -/
  method? : Option String
deriving DecidableEq, Repr

namespace TypeError

def message (e : TypeError) : String := e.cause.message

end TypeError

end FlowTyping
