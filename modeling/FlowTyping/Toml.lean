import FlowTyping.Decimal.Binary64

/-!
# TOML values
-/

namespace FlowTyping

/-- A value of a TOML text. -/
inductive Toml where
  | str (value : String)
  | int (value : Int)
  | bool (value : Bool)
  | float (value : Binary64)
  /-- A date, a time, or both, as it is written. -/
  | dateTime (text : String)
  | arr (items : List Toml)
  | table (members : List (String × Toml))
deriving Repr, Inhabited

end FlowTyping
