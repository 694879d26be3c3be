import FlowTyping.Json
import FlowTyping.Registry
import FlowTyping.Source.Slice

/-!
# Listings

What is shown of the outcome of inference: the methods with the signatures they were called with, in
a text or in JSON, and the places of the program that have a type, in the order of the text.
-/

namespace FlowTyping

/-! ### Methods -/

def Instance.toJson (i : Instance) : Json :=
  .obj [
    ("signature", .arr (i.signature.map fun t => .str t.display)),
    ("returns", .str i.returns.display)]

def Method.toJson (m : Method) : Json :=
  .obj [
    ("name", .str m.name),
    ("params", .arr (m.params.map .str)),
    ("instances", .arr (m.instances.map Instance.toJson)),
    ("block_instances", .arr (m.blockInstances.map Instance.toJson))]

def Module.toJson (m : Module) : Json :=
  .obj [("methods", .arr (m.methods.map Method.toJson)), ("result", .str m.result.display)]

/-- A line for each signature that a method was called with. -/
def Method.summary (m : Method) : List String :=
  if m.instances.isEmpty && m.blockInstances.isEmpty then [m.name ++ ": never called"]
  else
    (m.instances.map fun i => m.name ++ i.signature.display ++ " -> " ++ i.returns.display) ++
    m.blockInstances.map fun i =>
      m.name ++ i.signature.display ++ " with block -> " ++ i.returns.display

/-- The calls of all methods, and the type of the program. -/
def Module.summary (m : Module) : List String :=
  m.methods.flatMap Method.summary ++ ["result: " ++ m.result.display]

/-! ### Places -/

/-- The order of places in the text: by where they start, outer places before inner ones. -/
def Place.le (a b : Place) : Bool :=
  a.span.start < b.span.start || (a.span.start == b.span.start &&
    (b.span.stop < a.span.stop || (a.span.stop == b.span.stop && a.id ≤ b.id)))

/-- The places of a layer besides the node itself that may have a type.  The name of a method has
none. -/
def Form.typedPlaces : Form α → List Place
  | define d => d.params.map Ident.place
  | form => form.places

/-- The places of an expression that may have a type. -/
def Expr.typedPlaces : Expr → List Place :=
  Expr.fold fun id span form => ⟨id, span⟩ :: (form.typedPlaces ++ form.parts.flatten)

/-- The places of a program that may have a type, in the order of the text. -/
def Program.typedPlaces (p : Program) : List Place :=
  (p.stmts.flatMap Expr.typedPlaces).mergeSort Place.le

/-! ### Snippets -/

/-- The first line of a text, without its line end. -/
def firstLine (text : List Char) : List Char :=
  let line := text.takeWhile (· != '\n')
  if line.length < text.length ∧ line.getLast? = some '\r' then line.dropLast else line

/-- The first line of a text, or what of it fits into 40 characters.  Three points stand for what is
left out. -/
def snippet (text : List Char) : List Char :=
  let line := firstLine text
  if 40 < line.length ∨ line.length < text.length then line.take 40 ++ ['.', '.', '.'] else line

/-! ### The listing of a program -/

/-- A place with its type, as it is listed. -/
structure Listed where
  place : Place
  line : Nat
  column : Nat
  /-- The beginning of the text at the place. -/
  snippet : List Char
  ty : Ty
deriving DecidableEq, Repr

def Listed.render (l : Listed) : String :=
  toString l.line ++ ":" ++ toString l.column ++ "\t" ++ String.ofList l.snippet ++ " : " ++
    l.ty.display

/-- The places of a program that have a type, in the order of the text. -/
def Module.listing (m : Module) (p : Program) (source : List Char) : List Listed :=
  let lines := LineIndex.ofText source
  p.typedPlaces.filterMap fun place =>
    (m.typeOf? place.id).map fun ty =>
      let (line, column) := lines.position place.span.start
      ⟨place, line, column, snippet ((place.span.slice? source).getD []), ty⟩

end FlowTyping
