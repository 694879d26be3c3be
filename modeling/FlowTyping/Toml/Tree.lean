import FlowTyping.Toml

/-!
# Tables under construction

The tables of a TOML text come into being by headers and by keys with points, and may be added to
from several places.  What may still be added to a table depends on how it came into being: each
table has at most one header, and only tables made by keys with points take further keys through
points.
-/

namespace FlowTyping.Toml

/-- How a table came into being. -/
inductive Origin where
  /-- By a header of its own. -/
  | header
  /-- By headers of tables inside it only. -/
  | implied
  /-- By keys with points. -/
  | dotted
deriving DecidableEq, Repr

/-- What is known under a key. -/
inductive Node where
  | value (v : Toml)
  | table (origin : Origin) (members : List (String × Node))
  /-- An array of tables with headers.  Only its last table may still be added to. -/
  | tables (closed : List Toml) (last : List (String × Node))
deriving Repr, Inhabited

namespace Node

/-- The nodes of a table with their keys, in the order in which they came up. -/
abbrev Members := List (String × Node)

mutual

/-- The value that a node stands for when nothing more is added. -/
def finish : Node → Toml
  | value v => v
  | table _ ms => .table (finishMembers ms)
  | tables closed last => .arr (closed ++ [.table (finishMembers last)])

def finishMembers : List (String × Node) → List (String × Toml)
  | [] => []
  | (key, node) :: ms => (key, node.finish) :: finishMembers ms

end

namespace Members

/-- The members with another node under a key, which is added if it is new. -/
def put (key : String) (node : Node) : Members → Members
  | [] => [(key, node)]
  | m :: ms => if m.1 = key then (key, node) :: ms else m :: put key node ms

/-- Puts a value under a key that is not in use, behind keys with points in front of it. -/
def addValue (v : Toml) : List String → Members → Option Members
  | [], _ => none
  | [key], ms => if (ms.lookup key).isSome then none else some (ms.put key (.value v))
  | key :: keys, ms =>
    match ms.lookup key with
    | none => do return ms.put key (.table .dotted (← addValue v keys []))
    | some (.table .dotted sub) => do return ms.put key (.table .dotted (← addValue v keys sub))
    | some _ => none

/-- Changes the members that a header leads to.  Tables on the way there come into being; of an
array of tables the way goes into the last one. -/
def within (change : Members → Option Members) : List String → Members → Option Members
  | [], ms => change ms
  | key :: path, ms =>
    match ms.lookup key with
    | none => do return ms.put key (.table .implied (← within change path []))
    | some (.table origin sub) => do return ms.put key (.table origin (← within change path sub))
    | some (.tables closed last) => do
      return ms.put key (.tables closed (← within change path last))
    | some (.value _) => none

/-- Opens a table by its header. -/
def openTable (path : List String) (key : String) : Members → Option Members :=
  within (fun ms =>
    match ms.lookup key with
    | none => some (ms.put key (.table .header []))
    | some (.table .implied sub) => some (ms.put key (.table .header sub))
    | some _ => none) path

/-- Opens the next table of an array of tables by its header. -/
def openNext (path : List String) (key : String) : Members → Option Members :=
  within (fun ms =>
    match ms.lookup key with
    | none => some (ms.put key (.tables [] []))
    | some (.tables closed last) =>
      some (ms.put key (.tables (closed ++ [.table (finishMembers last)]) []))
    | some _ => none) path

end Members

end Node

end FlowTyping.Toml
