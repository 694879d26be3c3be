import FlowTyping.Decimal.Digits

/-!
# Command lines

What the program can be asked to do, and how that is read off its arguments.  Arguments are read
from left to right; the first one that does not fit refuses them all, and the first one that asks
for help settles them all.
-/

namespace FlowTyping

/-- How a program is to be checked. -/
structure CheckOptions where
  /-- Whether to list the places with their types. -/
  listing : Bool := false
  /-- Whether to answer in JSON. -/
  json : Bool := false
  /-- Whether colours are turned off. -/
  noColor : Bool := false
  /-- Where the settings are. -/
  config? : Option String := none
  /-- The limit on method bodies under inference, in place of the one in the settings. -/
  maxDepth? : Option Nat := none
deriving DecidableEq, Repr

/-- What the program is asked to do. -/
inductive Command where
  | version
  | help
  /-- Infer the types of the program in a file. -/
  | check (file : String) (options : CheckOptions)
  /-- Print the tree of the program in a file. -/
  | tree (file : String)
deriving DecidableEq, Repr

/-! ### Single arguments -/

namespace Argument

/-- The argument behind which all others are operands. -/
def endOfOptions : String := "--"

/-- Whether an argument asks for help: in full, or as the first of some letters. -/
def isHelp (arg : String) : Bool := arg == "--help" || ['-', 'h'].isPrefixOf arg.toList

/-- Whether an argument asks for the version: in full, or as the first of some letters. -/
def isVersion (arg : String) : Bool := arg == "--version" || ['-', 'V'].isPrefixOf arg.toList

/-- Whether an argument has the form of an option.  A single dash does not. -/
def isOption (arg : String) : Bool := ['-'].isPrefixOf arg.toList && arg != "-"

/-- What stands behind an option's name and an equals sign. -/
def inlineValue? (name arg : String) : Option String :=
  let opening := name.toList ++ ['=']
  if opening.isPrefixOf arg.toList then some (String.ofList (arg.toList.drop opening.length))
  else none

/-- A path, which is not empty. -/
def path? (value : String) : Option String := if value = "" then none else some value

/-- A number of 64 bits.  A plus may stand in front of it. -/
def depth? (value : String) : Option Nat :=
  let digits := match value.toList with
    | '+' :: ds => ds
    | ds => ds
  if digits.isEmpty || !digits.all Char.isDigit then none
  else
    let n := Decimal.ofDigits digits
    if n < 0x10000000000000000 then some n else none

end Argument

/-! ### Options of a check -/

namespace CheckOptions

/-- Turns an option without a value on.  None may be given twice. -/
def switch? (o : CheckOptions) (arg : String) : Option CheckOptions :=
  match arg with
  | "--ast" => if o.listing then none else some { o with listing := true }
  | "--json" => if o.json then none else some { o with json := true }
  | "--no-color" => if o.noColor then none else some { o with noColor := true }
  | _ => none

/-- Sets an option that takes a value.  None may be given twice. -/
def set? (o : CheckOptions) (name value : String) : Option CheckOptions :=
  match name with
  | "--config" => do
    let path ← Argument.path? value
    if o.config?.isSome then none else some { o with config? := some path }
  | "--max-depth" => do
    let depth ← Argument.depth? value
    if o.maxDepth?.isSome then none else some { o with maxDepth? := some depth }
  | _ => none

/-- The names of the options that take a value. -/
def valued : List String := ["--config", "--max-depth"]

/-- Sets an option that comes in one argument with its value. -/
def setInline? (o : CheckOptions) (arg : String) : Option CheckOptions := do
  let (name, value) ← valued.findSome? fun name => (Argument.inlineValue? name arg).map (name, ·)
  o.set? name value

end CheckOptions

/-! ### All arguments -/

namespace Command

open Argument

/-- Takes an operand: there is exactly one, and it is a path. -/
def operand? (file? : Option String) (arg : String) : Option String :=
  if file?.isSome then none else path? arg

/-- The operand, where some arguments are operands only. -/
def operands? (file? : Option String) : List String → Option String
  | [] => file?
  | arg :: args => do operands? (← operand? file? arg) args

/-- Reads the arguments of a check behind `options` and `file?`. -/
def checkArguments? (options : CheckOptions) (file? : Option String) : List String → Option Command
  | [] => file?.map (check · options)
  | arg :: args =>
    if arg = endOfOptions then (operands? file? args).map (check · options)
    else if isHelp arg then some help
    else if !isOption arg then do checkArguments? options (← operand? file? arg) args
    else if arg ∈ CheckOptions.valued then
      match args with
      | [] => none
      | value :: args =>
        if isOption value then none
        else do checkArguments? (← CheckOptions.set? options arg value) file? args
    else do
      let options ← CheckOptions.switch? options arg <|> CheckOptions.setInline? options arg
      checkArguments? options file? args

/-- Reads the arguments for printing a tree behind `file?`. -/
def treeArguments? (file? : Option String) : List String → Option Command
  | [] => file?.map tree
  | arg :: args =>
    if arg = endOfOptions then (operands? file? args).map tree
    else if isHelp arg then some help
    else if isOption arg then none
    else do treeArguments? (← operand? file? arg) args

/-- The words that an argument list may start with. -/
def words : List String := ["check", "ast", "help"]

/-- Reads what stands behind a request for help in words: nothing, or one word to get help about. -/
def helpArguments? : List String → Option Command
  | [] => some help
  | [word] => if word ∈ words then some help else none
  | _ => none

/-- Reads the arguments of the program. -/
def ofArguments? : List String → Option Command
  | [] => none
  | "check" :: args => checkArguments? {} none args
  | "ast" :: args => treeArguments? none args
  | "help" :: args => helpArguments? args
  | arg :: _ => if isVersion arg then some version else if isHelp arg then some help else none

end Command

end FlowTyping
