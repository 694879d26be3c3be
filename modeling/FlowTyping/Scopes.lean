import FlowTyping.Bindings

/-!
# Scopes

All scopes of one run of the inference, each with its binding table and the scope around it.  The
top level and every method body have no scope around them, so a method does not see the names of its
callers; the body of a block runs in a scope inside the one where the call with the block is, so it
reads and writes the names there.

A snapshot is a copy of the tables from one scope outwards, to come back to or to merge with another
one.
-/

namespace FlowTyping

/-- A scope is known by how many scopes were made before it. -/
abbrev ScopeId := Nat

structure Scope where
  /-- The scope around this one. -/
  parent? : Option ScopeId
  table : Bindings
deriving Repr

/-- All scopes, in the order in which they were made. -/
structure Scopes where
  cells : Array Scope
deriving Repr

/-- The tables from one scope outwards, with the scopes that they belong to. -/
abbrev Snapshot := List (ScopeId × Bindings)

namespace Snapshot

/-- Merges the tables at equal places.  The scopes are those of the first snapshot. -/
def merge (a b : Snapshot) : Snapshot :=
  List.zipWith (fun x y => (x.1, Bindings.merge x.2 y.2)) a b

end Snapshot

namespace Scopes

/-- Only the scope of the top level, without bindings. -/
def initial : Scopes := ⟨#[⟨none, .empty⟩]⟩

instance : Inhabited Scopes := ⟨initial⟩

/-- The scope of the top level. -/
def root : ScopeId := 0

def size (s : Scopes) : Nat := s.cells.size

/-- The scope around a scope. -/
def parent? (s : Scopes) (scope : ScopeId) : Option ScopeId := do (← s.cells[scope]?).parent?

/-- The table of a scope. -/
def table (s : Scopes) (scope : ScopeId) : Bindings := (s.cells[scope]?.map Scope.table).getD .empty

/-- A new scope without bindings, and which one it is. -/
def push (s : Scopes) (parent? : Option ScopeId) : Scopes × ScopeId :=
  (⟨s.cells.push ⟨parent?, .empty⟩⟩, s.size)

/-- The scopes with another table in one of them. -/
def setTable (s : Scopes) (scope : ScopeId) (table : Bindings) : Scopes :=
  ⟨s.cells.modify scope fun cell => { cell with table }⟩

/-- A scope and the scopes around it, innermost first.  A scope is made after the one around it, so
the chain goes down in number. -/
def chain (s : Scopes) (scope : ScopeId) : List ScopeId :=
  scope ::
    match s.parent? scope with
    | some parent => if parent < scope then chain s parent else []
    | none => []
termination_by scope

/-- Binds a name in a scope itself. -/
def declare (s : Scopes) (scope : ScopeId) (name : String) (ty : Ty) : Scopes :=
  s.setTable scope ((s.table scope).insert name ty)

/-- The innermost binding of a name that is visible from a scope. -/
def lookup (s : Scopes) (scope : ScopeId) (name : String) : Option Ty :=
  (s.chain scope).findSome? fun id => (s.table id).get? name

/-- The scope that an assignment to a name writes to: the nearest one that binds it, or else the
scope of the assignment. -/
def holder (s : Scopes) (scope : ScopeId) (name : String) : ScopeId :=
  ((s.chain scope).find? fun id => (s.table id).contains name).getD scope

/-- Assigns to a name.  The new type takes the place of the old one. -/
def assign (s : Scopes) (scope : ScopeId) (name : String) (ty : Ty) : Scopes :=
  s.declare (s.holder scope name) name ty

/-- The tables of a scope and of the scopes around it. -/
def snapshot (s : Scopes) (scope : ScopeId) : Snapshot :=
  (s.chain scope).map fun id => (id, s.table id)

/-- Puts the tables of a snapshot back in place. -/
def restore (s : Scopes) (saved : Snapshot) : Scopes :=
  saved.foldl (fun s cell => s.setTable cell.1 cell.2) s

end Scopes

end FlowTyping
