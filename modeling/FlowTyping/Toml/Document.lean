import FlowTyping.Toml.Scalar
import FlowTyping.Toml.Tree

/-!
# TOML texts

A TOML text is a row of lines.  A line opens a table by its header, opens the next table of an array
by a header in two brackets, or puts a value under a key into the table that was opened last.
`Toml.document?` gives the members of the table that the whole text describes.
-/

namespace FlowTyping.Toml

/-- How many keys may be joined by points, and how deep arrays and tables may be nested inside a
value. -/
def maxNesting : Nat := 79

/-! ### Keys -/

def isBareKeyChar (c : Char) : Bool := c.isAlphanum || c == '_' || c == '-'

/-- Reads one key: a bare one or one in quotes. -/
def simpleKey? : Reader String
  | '"' :: cs => (lineString? '"' (cs.length + 1) cs).map fun (s, cs) => (String.ofList s, cs)
  | '\'' :: cs => (lineString? '\'' (cs.length + 1) cs).map fun (s, cs) => (String.ofList s, cs)
  | cs =>
    match cs.takeWhile isBareKeyChar with
    | [] => none
    | key => some (String.ofList key, cs.dropWhile isBareKeyChar)

/-- Reads up to `limit` keys with points between them, and the blanks around them. -/
def keys? : (limit : Nat) → Reader (List String)
  | 0, _ => none
  | limit + 1, cs => do
    let (key, cs) ← simpleKey? (skipBlank cs)
    match skipBlank cs with
    | '.' :: cs =>
      let (keys, cs) ← keys? limit cs
      return (key :: keys, cs)
    | cs => return ([key], cs)

/-- Reads keys, an equals sign and a value. -/
def keyValue? (value : Reader Toml) : Reader (List String × Toml) := fun cs => do
  let (keys, cs) ← keys? maxNesting cs
  let (v, cs) ← value (skipBlank (← after? '=' cs))
  return ((keys, v), cs)

/-! ### Values with parts -/

/-- Reads the items of an array, at most `fuel` of them, and its closing bracket.  The last item may
have a comma behind it. -/
def items? (value : Reader Toml) : (fuel : Nat) → Reader (List Toml)
  | 0, _ => none
  | fuel + 1, cs => do
    match skipLines (cs.length + 1) cs with
    | ']' :: cs => return ([], cs)
    | cs =>
      let (v, cs) ← value cs
      match skipLines (cs.length + 1) cs with
      | ',' :: cs =>
        let (vs, cs) ← items? value fuel cs
        return (v :: vs, cs)
      | ']' :: cs => return ([v], cs)
      | _ => none

/-- Reads the members of a table on one line, at most `fuel` of them, and its closing brace. -/
def members? (value : Reader Toml) : (fuel : Nat) → Reader (List (List String × Toml))
  | 0, _ => none
  | fuel + 1, cs => do
    let (m, cs) ← keyValue? value cs
    match skipBlank cs with
    | ',' :: cs =>
      let (ms, cs) ← members? value fuel cs
      return (m :: ms, cs)
    | '}' :: cs => return ([m], cs)
    | _ => none

/-- Reads a table on one line from behind its opening brace. -/
def inlineTable? (value : Reader Toml) : Reader Toml := fun cs =>
  match skipBlank cs with
  | '}' :: cs => some (table [], cs)
  | cs => do
    let (entries, cs) ← members? value (cs.length + 1) cs
    let add (ms : Node.Members) (e : List String × Toml) := ms.addValue e.2 e.1
    let ms ← entries.foldlM add []
    return (table (Node.finishMembers ms), cs)

/-- Reads a value in which arrays and tables are nested at most `depth` deep. -/
def value? : (depth : Nat) → Reader Toml
  | 0 => simple?
  | depth + 1 => fun cs =>
    match cs with
    | '[' :: cs => (items? (value? depth) (cs.length + 1) cs).map fun (vs, cs) => (arr vs, cs)
    | '{' :: cs => inlineTable? (value? depth) cs
    | cs => simple? cs

/-! ### Lines -/

/-- What a line says. -/
inductive Line where
  /-- Nothing, or a comment. -/
  | blank
  | header (path : List String)
  | arrayHeader (path : List String)
  | keyValue (keys : List String) (v : Toml)
deriving Repr

/-- Reads what a line says, up to its comment. -/
def line? : Reader Line := fun cs =>
  match skipBlank cs with
  | '[' :: '[' :: cs => do
    let (path, cs) ← keys? maxNesting cs
    return (.arrayHeader path, ← after? ']' (← after? ']' cs))
  | '[' :: cs => do
    let (path, cs) ← keys? maxNesting cs
    return (.header path, ← after? ']' cs)
  | [] => some (.blank, [])
  | c :: cs =>
    if c = '#' ∨ c = '\n' ∨ c = '\r' then some (.blank, c :: cs)
    else do
      let ((keys, v), cs) ← keyValue? (value? maxNesting) (c :: cs)
      return (.keyValue keys v, cs)

/-- The lines of a text, at most `fuel` of them. -/
def lines? : (fuel : Nat) → List Char → Option (List Line)
  | _, [] => some []
  | 0, _ => none
  | fuel + 1, cs => do
    let (line, cs) ← line? cs
    return line :: (← lines? fuel (← lineEnd? (skipComment (skipBlank cs))))

/-! ### The whole text -/

/-- A text that was read up to some line: its root table, and the way to the table that takes the
next keys. -/
structure Draft where
  root : Node.Members := []
  path : List String := []

/-- Adds what a line says. -/
def Draft.add (d : Draft) : Line → Option Draft
  | .blank => some d
  | .header path => do
    return ⟨← d.root.openTable path.dropLast (← path.getLast?), path⟩
  | .arrayHeader path => do
    return ⟨← d.root.openNext path.dropLast (← path.getLast?), path⟩
  | .keyValue keys v => do
    return { d with root := ← d.root.within (·.addValue v keys) d.path }

/-- A text without a byte order mark at its front. -/
def dropMark : List Char → List Char
  | '\ufeff' :: cs => cs
  | cs => cs

/-- The members of the table that a text describes, if the text is well formed. -/
def document? (text : List Char) : Option (List (String × Toml)) := do
  let cs := dropMark text
  let draft ← (← lines? (cs.length + 1) cs).foldlM Draft.add {}
  return Node.finishMembers draft.root

end FlowTyping.Toml
