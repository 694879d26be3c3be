import FlowTyping.Command.Arguments
import FlowTyping.Command.Files
import FlowTyping.Diagnostic.Report
import FlowTyping.Expr.Json
import FlowTyping.Inference
import FlowTyping.Listing
import FlowTyping.Parse.Grammar
import FlowTyping.Settings

/-!
# Commands

What the program prints for a command, given the files around it.  A check reads the source, then
the settings, then infers types; the first step that fails ends it.
-/

namespace FlowTyping

/-- What a run of the program leaves behind. -/
structure Outcome where
  code : Nat := 0
  stdout : String := ""
  /-- The lines on the error stream. -/
  stderr : List String := []
deriving DecidableEq, Repr

/-- Why a command has no answer. -/
inductive Failure where
  | source (path : String) (cause : ReadError)
  | settingsFile (path : String) (cause : ReadError)
  | settings
  /-- The source is no program.  What is wrong with it is known. -/
  | parse (path text : String) (faults : List Fault)
  /-- The program has no types. -/
  | typing (path text : String) (error? : Option TypeError)

namespace Failure

def message : Failure → String
  | source path cause => "failed to read '" ++ path ++ "': " ++ cause.message
  | settingsFile path cause => "failed to read " ++ path ++ ": " ++ cause.message
  | settings => "failed to parse config"
  | parse path _ _ => "could not parse '" ++ path ++ "'"
  | typing path _ _ => "could not type-check '" ++ path ++ "'"

/-- The reports of what is wrong with the source. -/
def reports : Failure → List String
  | parse _ text faults => faults.flatMap (Report.ofFault · text.toList)
  | typing _ text error? => error?.toList.flatMap (Report.ofTypeError · text.toList)
  | _ => []

/-- What is wrong with the source, in JSON. -/
def diagnostics : Failure → List Json
  | parse path text faults => faults.map (Diagnostic.ofFault · text.toList path)
  | typing path text error? => error?.toList.map (Diagnostic.ofTypeError · text.toList path)
  | _ => []

/-- The failure of a command that prints text. -/
def outcome (f : Failure) : Outcome :=
  { code := 1, stderr := f.reports ++ ["error: " ++ f.message] }

/-- The failure of a command on a file that answers in JSON. -/
def jsonOutcome (f : Failure) (file : String) : Outcome :=
  { code := 1, stderr := (f.diagnostics ++ [Diagnostic.ofFailure f.message file]).map Json.line }

end Failure

namespace Command

/-! ### Steps -/

def readSource (files : Files) (file : String) : Except Failure String :=
  (files.read file).mapError (.source file)

/-- Where the settings for a source are looked up unless they are elsewhere. -/
def settingsBeside? (file : String) : Option String := Files.beside? file "rill.toml"

def readSettings (files : Files) (path : String) : Except Failure Settings := do
  let text ← (files.read path).mapError (.settingsFile path)
  match Settings.parse? text with
  | some settings => return settings
  | none => throw .settings

/-- The settings for a source: those in the given file, or in the one beside the source, or else the
usual ones. -/
def loadSettings (files : Files) (config? : Option String) (file : String) :
    Except Failure Settings :=
  match config? with
  | some path => readSettings files path
  | none =>
    match (settingsBeside? file).filter files.isFile with
    | some path => readSettings files path
    | none => .ok {}

def parse (file source : String) : Except Failure Program :=
  let parsed := Program.parse source
  match parsed.program? with
  | some p => .ok p
  | none => .error (.parse file source parsed.faults)

def infer (file source : String) (p : Program) (limit : Nat) : Except Failure Module :=
  match p.infer limit with
  | .ok m => .ok m
  | .error (.error e) => .error (.typing file source (some e))
  | .error .outOfFuel => .error (.typing file source none)

/-! ### Answers -/

/-- Some lines as a text. -/
def unlines (lines : List String) : String := String.join (lines.map (· ++ "\n"))

/-- What a check prints for a program with its types. -/
def checked (options : CheckOptions) (source : String) (p : Program) (m : Module) : String :=
  if options.json then m.toJson.pretty ++ "\n"
  else
    let listing := if options.listing then m.listing p source.toList else []
    unlines (m.summary ++ listing.map Listed.render)

/-- What a check of a file prints. -/
def check? (files : Files) (file : String) (options : CheckOptions) : Except Failure String := do
  let source ← readSource files file
  let settings ← loadSettings files options.config? file
  let limit := options.maxDepth?.getD settings.maxDepth
  let p ← parse file source
  let m ← infer file source p limit
  return checked options source p m

/-- What is printed for the tree of a file. -/
def tree? (files : Files) (file : String) : Except Failure String := do
  let source ← readSource files file
  let p ← parse file source
  return p.toJson.pretty ++ "\n"

/-- The files that a command may look at. -/
def paths : Command → List String
  | version | help => []
  | check file options => file :: (options.config? <|> settingsBeside? file).toList
  | tree file => [file]

/-- Runs a command. -/
def run (files : Files) : Command → Outcome
  | version => { stdout := "rillc 0.1.0\n" }
  | help => {}
  | check file options =>
    match check? files file options with
    | .ok text => { stdout := text }
    | .error f => if options.json then f.jsonOutcome file else f.outcome
  | tree file =>
    match tree? files file with
    | .ok text => { stdout := text }
    | .error f => f.outcome

/-- Runs the program with the given arguments.  Arguments that do not fit are refused. -/
def runArguments (files : Files) (args : List String) : Outcome :=
  match ofArguments? args with
  | some command => command.run files
  | none => { code := 2 }

end Command

end FlowTyping
