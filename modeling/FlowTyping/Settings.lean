import FlowTyping.Json
import FlowTyping.Toml.Document

/-!
# Settings

What a project may set, and how it is read from TOML and from JSON.  There is one setting, the
number of method bodies that may be under inference at once.  Names that are no setting are refused.
-/

namespace FlowTyping

structure Settings where
  /-- How many method bodies may be under inference at once. -/
  maxDepth : Nat := 64
deriving DecidableEq, Repr

namespace Settings

/-! ### From TOML -/

/-- A limit on the depth. -/
def depthOfToml? : Toml → Option Nat
  | .int i => if 0 ≤ i then some i.toNat else none
  | _ => none

/-- The settings in the table `typeck`.  They may be given by name, or in an array by position. -/
def ofToml? : Toml → Option Settings
  | .table [] => some {}
  | .table [("max_depth", v)] => (depthOfToml? v).map Settings.mk
  | .arr [] => some {}
  | .arr (v :: _) => (depthOfToml? v).map Settings.mk
  | _ => none

/-- The settings of a project.  Its only table is `typeck`. -/
def parse? (text : String) : Option Settings := do
  match ← Toml.document? text.toList with
  | [] => some {}
  | [("typeck", v)] => ofToml? v
  | _ => none

/-! ### From JSON -/

/-- A limit on the depth. -/
def depthOfJson? : Json → Option Nat
  | .int i => if 0 ≤ i ∧ i < 0x10000000000000000 then some i.toNat else none
  | _ => none

/-- The settings, given by name, or in an array by position. -/
def ofJson? : Json → Option Settings
  | .obj [] => some {}
  | .obj [("max_depth", j)] => (depthOfJson? j).map Settings.mk
  | .arr [] => some {}
  | .arr [j] => (depthOfJson? j).map Settings.mk
  | _ => none

end Settings

end FlowTyping
