import FlowTyping.Decimal.Binary64

/-!
# JSON values

A JSON value keeps integers and other numbers apart, and the members of an object in order.
-/

namespace FlowTyping

inductive Json where
  | null
  | bool (value : Bool)
  | int (value : Int)
  | float (value : Binary64)
  | str (value : String)
  | arr (items : List Json)
  | obj (members : List (String × Json))
deriving Repr, Inhabited, BEq

namespace Json

/-- The value of the member with a name. -/
def member? (name : String) (members : List (String × Json)) : Option Json := members.lookup name

/-- The members without those that a later one of the same name replaces. -/
def keepLast : List (String × Json) → List (String × Json)
  | [] => []
  | (name, j) :: ms =>
    if ms.any (·.1 == name) then keepLast ms else (name, j) :: keepLast ms

/-- A value or `null`. -/
def ofOption (f : α → Json) : Option α → Json
  | none => null
  | some a => f a

mutual

/-- How deep a value nests. -/
def height : Json → Nat
  | arr items => itemsHeight items + 1
  | obj members => membersHeight members + 1
  | _ => 1

def itemsHeight : List Json → Nat
  | [] => 0
  | j :: js => max (height j) (itemsHeight js)

def membersHeight : List (String × Json) → Nat
  | [] => 0
  | (_, j) :: ms => max (height j) (membersHeight ms)

end

theorem height_pos (j : Json) : 0 < j.height := by
  cases j <;> simp [height]

theorem height_le_itemsHeight {j : Json} {items : List Json} (h : j ∈ items) :
    j.height ≤ itemsHeight items := by
  induction items with
  | nil => exact absurd h List.not_mem_nil
  | cons i items ih =>
    simp only [itemsHeight]
    rcases List.mem_cons.1 h with rfl | h
    · omega
    · have := ih h
      omega

theorem height_le_membersHeight {m : String × Json} {members : List (String × Json)} (h : m ∈ members) :
    m.2.height ≤ membersHeight members := by
  induction members with
  | nil => exact absurd h List.not_mem_nil
  | cons i members ih =>
    simp only [membersHeight]
    rcases List.mem_cons.1 h with rfl | h
    · omega
    · have := ih h
      omega

end Json

end FlowTyping
