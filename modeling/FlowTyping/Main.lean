import FlowTyping.Command

/-!
# The program

Looks up the files that the command may need, runs the command on them, and prints its outcome.
-/

namespace FlowTyping

/-- Looks at a path. -/
def look (path : String) : IO Found := do
  try
    return .file (← IO.FS.readBinFile path)
  catch
    | .inappropriateType _ 21 _ => return .folder
    | .inappropriateType .. => return .blocked
    | .invalidArgument .. => return .tooLong
    | _ => return .missing

/-- Looks at some paths. -/
def lookAll (paths : List String) : IO Files := do
  let found ← paths.mapM fun path => return (path, ← look path)
  return fun path => (found.lookup path).getD .missing

end FlowTyping

open FlowTyping

def main (args : List String) : IO UInt32 := do
  let paths := match Command.ofArguments? args with
    | some command => command.paths
    | none => []
  let outcome := Command.runArguments (← lookAll paths) args
  IO.print outcome.stdout
  outcome.stderr.forM IO.eprintln
  return outcome.code.toUInt32
