/-!
# Readers

A reader takes something off the front of a text.
-/

namespace FlowTyping

/-- Takes a value off the front of a text and gives what is left of the text with it. -/
abbrev Reader (α : Type) := List Char → Option (α × List Char)

end FlowTyping
