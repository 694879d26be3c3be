import FlowTyping.Diagnostic

/-!
# Reports

The lines that report an error to a reader: its head, its place, a likely fix, and in which method
body it is.  Reports count characters, and all characters that Unicode calls mandatory breaks end a
line there.  Spans count bytes and are taken over as they are, so in a text with characters of
several bytes a span may lie behind the last character; a report with no span to show is its head
alone.
-/

namespace FlowTyping.Report

/-- A character that ends a line. -/
def isLineBreak (c : Char) : Bool :=
  c ∈ ['\n', '\r', '\x0b', '\x0c', '\x85', '\u2028', '\u2029']

/-- Where the lines after the first one start, for a text that begins at `pos`.  A carriage return
and a line feed end one line together, and behind the last break there is no line. -/
def lineStarts (pos : Nat) : List Char → List Nat
  | [] => []
  | '\r' :: '\n' :: cs => if cs.isEmpty then [] else (pos + 2) :: lineStarts (pos + 2) cs
  | c :: cs =>
    if isLineBreak c && !cs.isEmpty then (pos + 1) :: lineStarts (pos + 1) cs
    else lineStarts (pos + 1) cs

/-- The line and the column of an offset, if the text reaches that far. -/
def position? (source : List Char) (offset : Nat) : Option (Nat × Nat) :=
  if offset ≤ source.length then
    let starts := (lineStarts 0 source).takeWhile (· ≤ offset)
    some (starts.length + 1, offset - starts.getLastD 0 + 1)
  else none

/-- Whether a text reaches as far as a span. -/
def shows (source : List Char) (span : Span) : Bool :=
  span.start ≤ source.length && (span.stop ≤ span.start || span.stop ≤ source.length + 1)

/-- The line that names a place. -/
def placeLine (source : List Char) (offset : Nat) : String :=
  let (line, column) :=
    match position? source offset with
    | some (line, column) => (toString line, toString column)
    | none => ("?", "?")
  "at <unknown>:" ++ line ++ ":" ++ column

/-- The lines of a report on a span.  Related spans are shown along with it. -/
def lines (code message : String) (source : List Char) (span : Span) (related : List Span)
    (help? note? : Option String) : List String :=
  ("[" ++ code ++ "] Error: " ++ message) ::
    if (span :: related).any (shows source) then
      placeLine source span.start ::
        ((help?.map ("Help: " ++ ·)).toList ++ (note?.map ("Note: " ++ ·)).toList)
    else []

/-- The report of a type error in the given text. -/
def ofTypeError (e : TypeError) (source : List Char) : List String :=
  lines e.cause.code e.message source (e.span.clamp (byteLength source)) [] e.fix? e.note?

/-- The report of a fault of the given text. -/
def ofFault (f : Fault) (source : List Char) : List String :=
  lines "P0001" "parse error" source (f.shownSpan (byteLength source)) (f.related?.map (·.2)).toList
    none none

end FlowTyping.Report
