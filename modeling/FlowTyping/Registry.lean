import FlowTyping.Expr
import FlowTyping.Table
import FlowTyping.Ty

/-!
# The outcome of inference

A module is what one run of the inference finds out: the methods that were defined, each with the
signatures it was called with and what it returns for them, the types of the nodes, and the type of
the program.
-/

namespace FlowTyping

/-- What a method returns for one signature. -/
structure Instance where
  signature : Signature
  returns : Ty
deriving DecidableEq, Repr

/-! ### Methods -/

/-- A method: its latest definition and the calls inferred since then. -/
structure Method where
  definition : Definition Expr
  /-- The calls without a block, one for each signature, in the order of the first ones. -/
  instances : List Instance := []
  /-- The calls with a block, one for each signature, in the order of the first ones. -/
  blockInstances : List Instance := []
deriving Repr

namespace Method

def name (m : Method) : String := m.definition.name.name

def params (m : Method) : List String := m.definition.params.map Ident.name

def arity (m : Method) : Nat := m.definition.params.length

end Method

namespace Instance

/-- The instance for a signature. -/
def find? (signature : Signature) (is : List Instance) : Option Instance :=
  is.find? fun i => i.signature == signature

/-- The instances after a call returned a type: it is combined with what is known for the signature,
or else added at the end. -/
def upsert (combine : Ty → Ty → Ty) (signature : Signature) (returns : Ty) :
    List Instance → List Instance
  | [] => [⟨signature, returns⟩]
  | i :: is =>
    if i.signature = signature then ⟨signature, combine i.returns returns⟩ :: is
    else i :: upsert combine signature returns is

end Instance

namespace Method

/-- What a call without a block is known to return for exactly this signature. -/
def returns? (m : Method) (signature : Signature) : Option Ty :=
  (Instance.find? signature m.instances).map (·.returns)

/-- Stores what a call without a block returns, in place of what was known. -/
def store (m : Method) (signature : Signature) (returns : Ty) : Method :=
  { m with instances := Instance.upsert (fun _ new => new) signature returns m.instances }

/-- Adds what a call with a block returned to what is known. -/
def observe (m : Method) (signature : Signature) (returns : Ty) : Method :=
  { m with blockInstances := Instance.upsert Ty.join signature returns m.blockInstances }

end Method

/-! ### Modules -/

structure Module where
  /-- The names that are known as types. -/
  primitives : List String
  /-- The methods, in the order in which they were first defined. -/
  methods : List Method := []
  /-- The types of the nodes that were looked at. -/
  types : Table NodeId Ty := .empty
  /-- The type of the last top-level statement. -/
  result : Ty := .nil
deriving Repr

namespace Module

/-- A module in which nothing is inferred. -/
def initial : Module := { primitives := ["Int", "Float", "Char", "String", "Bool", "Nil"] }

instance : Inhabited Module := ⟨initial⟩

/-- The primitive with a name.  The name is known as a type from then on. -/
def primitive (m : Module) (name : String) : Module × Ty :=
  (if m.primitives.contains name then m else { m with primitives := m.primitives ++ [name] },
    .prim name)

def hasType (m : Module) (name : String) : Bool := m.primitives.contains name

/-- The type of a node, over all times it was looked at. -/
def typeOf? (m : Module) (node : NodeId) : Option Ty := m.types.get? node

/-- Every node with a type, ordered by identity. -/
def annotations (m : Module) : List (NodeId × Ty) := m.types.entries

/-- Adds a type that a node was seen to have. -/
def record (m : Module) (node : NodeId) (ty : Ty) : Module :=
  let seen := match m.typeOf? node with
    | some old => old.join ty
    | none => ty
  { m with types := m.types.insert node seen }

/-- The method with a name. -/
def method? (m : Module) (name : String) : Option Method := m.methods.find? (·.name == name)

/-- Puts a method in the place of the one with its name, or else at the end. -/
def putMethod (new : Method) : List Method → List Method
  | [] => [new]
  | m :: ms => if m.name = new.name then new :: ms else m :: putMethod new ms

/-- Registers a definition.  What was inferred for an earlier one of the same name is forgotten. -/
def define (m : Module) (definition : Definition Expr) : Module :=
  { m with methods := putMethod { definition } m.methods }

/-- Changes the method with a name, if there is one. -/
def updateMethod (m : Module) (name : String) (f : Method → Method) : Module :=
  { m with methods := m.methods.map fun method => if method.name = name then f method else method }

end Module

end FlowTyping
