import FlowTyping.Json.Print
import FlowTyping.Parse.Fault
import FlowTyping.Source.Lines
import FlowTyping.TypeError

/-!
# Diagnostics

What is said about an error, and how it is said in a JSON object: a code, what is wrong, where, and,
if there is one, a likely fix.
-/

namespace FlowTyping

namespace TypeError

/-! ### What is said about a type error -/

def Cause.code : Cause → String
  | unboundVariable _ => "E0001"
  | unresolvedMethod _ => "E0002"
  | noBlockGiven => "E0003"
  | arityMismatch _ _ _ => "E0004"
  | recursionLimitExceeded _ _ => "E0005"

/-- What is said about the place of the error. -/
def Cause.label : Cause → String
  | unboundVariable name => "`" ++ name ++ "` is not bound here"
  | unresolvedMethod name => "no method named `" ++ name ++ "`"
  | noBlockGiven => "this yield has no block to call"
  | arityMismatch _ expected found =>
    "expected " ++ toString expected ++ " argument" ++ (if expected = 1 then "" else "s") ++
      ", found " ++ toString found
  | recursionLimitExceeded _ limit => "nested method inference deeper than " ++ toString limit

/-- What may mend the error. -/
def fix? (e : TypeError) : Option String :=
  match e.cause, e.method? with
  | .unboundVariable name, _ => some ("assign `" ++ name ++ "` before reading it")
  | .unresolvedMethod name, some method =>
    some ("define `" ++ name ++ "` with `def`; locals of the caller are not visible inside `" ++
      method ++ "`")
  | .unresolvedMethod name, none => some ("define `" ++ name ++ "` with `def`")
  | .noBlockGiven, some method => some ("pass a block when calling `" ++ method ++ "`")
  | .noBlockGiven, none => none
  | .arityMismatch _ _ _, _ => none
  | .recursionLimitExceeded _ _, _ =>
    some "raise `max_depth` in the `[typeck]` table of rill.toml"

/-- In which method body the error is. -/
def note? (e : TypeError) : Option String :=
  e.method?.map fun method => "while inferring the body of `" ++ method ++ "`"

end TypeError

/-! ### Places -/

/-- A span inside a text of `length` bytes, one byte wide where the given one is empty and a byte is
left. -/
def Span.clamp (s : Span) (length : Nat) : Span :=
  let start := min s.start length
  let stop := max (min s.stop length) start
  if start = stop then ⟨start, min (stop + 1) length⟩ else ⟨start, stop⟩

/-- The span at which a fault of a text of `length` bytes is shown: at least one byte wide unless
the text ends there. -/
def Fault.shownSpan (f : Fault) (length : Nat) : Span :=
  let start := min f.span.start length
  ⟨start, min (max f.span.stop (start + 1)) (max length start)⟩

/-! ### JSON -/

namespace Diagnostic

/-- A labelled span. -/
def spanJson (span : Span) (label : String) : Json :=
  .obj [("end", .int span.stop), ("label", .str label), ("start", .int span.start)]

/-- A type error in a file with the given text. -/
def ofTypeError (e : TypeError) (source : List Char) (file : String) : Json :=
  .obj [
    ("code", .str e.cause.code),
    ("file", .str file),
    ("fix", Json.ofOption .str e.fix?),
    ("message", .str e.message),
    ("method", Json.ofOption .str e.method?),
    ("severity", .str "error"),
    ("spans", .arr [spanJson (e.span.clamp (byteLength source)) e.cause.label])]

/-- A fault of a file with the given text. -/
def ofFault (f : Fault) (source : List Char) (file : String) : Json :=
  let related := f.related?.toList.map fun r => spanJson r.2 r.1
  .obj [
    ("code", .str "P0001"),
    ("file", .str file),
    ("fix", .null),
    ("message", .str ("parse error: " ++ f.message)),
    ("severity", .str "error"),
    ("spans", .arr (spanJson (f.shownSpan (byteLength source)) f.message :: related))]

/-- A failure that has no place in a text. -/
def ofFailure (message file : String) : Json :=
  .obj [
    ("code", .str "C0001"),
    ("file", .str file),
    ("fix", .null),
    ("message", .str message),
    ("severity", .str "error"),
    ("spans", .arr [])]

end Diagnostic

end FlowTyping
