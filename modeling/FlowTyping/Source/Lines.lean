import FlowTyping.Source.Span

/-!
# Lines and columns

The line index of a text holds the byte offset at which each line starts; only a line feed ends a
line.  `LineIndex.lineAndColumn` turns an offset into a line and a column, both counted from 1 and the
column in bytes.  All of them are words of 32 bits, and the line is found by bisection.
-/

namespace FlowTyping

/-- How many bytes a text takes in UTF-8. -/
def byteLength (cs : List Char) : Nat := (cs.map Char.utf8Size).foldr (· + ·) 0

@[simp] theorem byteLength_nil : byteLength [] = 0 := rfl

@[simp] theorem byteLength_cons (c : Char) (cs : List Char) :
    byteLength (c :: cs) = c.utf8Size + byteLength cs := rfl

@[simp] theorem byteLength_append (as bs : List Char) :
    byteLength (as ++ bs) = byteLength as + byteLength bs := by
  induction as with
  | nil => simp
  | cons c as ih => rw [List.cons_append, byteLength_cons, byteLength_cons, ih, Nat.add_assoc]

/-- The bytes of a text in UTF-8. -/
def utf8 (cs : List Char) : List UInt8 := cs.flatMap String.utf8EncodeChar

theorem length_utf8 (cs : List Char) : (utf8 cs).length = byteLength cs := by
  induction cs with
  | nil => rfl
  | cons c cs ih => simpa [utf8, byteLength] using ih

/-- The byte that ends a line. -/
def lineFeed : UInt8 := 10

/-- The offsets right behind the line feeds of some bytes that begin at `pos`. -/
def lineStarts (pos : Nat) : List UInt8 → List Nat
  | [] => []
  | b :: bs => if b = lineFeed then (pos + 1) :: lineStarts (pos + 1) bs else lineStarts (pos + 1) bs

/-- The index between `low` and `high` at which the entries begin to fail `p`, found by bisection: no
entry that fails `p` may stand before one that satisfies it. -/
def bisect (p : α → Bool) (xs : Array α) (low high : Nat) (h : high ≤ xs.size) : Nat :=
  if hlt : low < high then
    let mid := (low + high) / 2
    if p xs[mid] then bisect p xs (mid + 1) high h else bisect p xs low mid (by omega)
  else low
termination_by high - low

theorem bisect_le {p : α → Bool} {xs : Array α} {low high : Nat} {h : high ≤ xs.size} (hlow : low ≤ high) :
    bisect p xs low high h ≤ high := by
  fun_induction bisect p xs low high h with
  | case1 low high h hlt mid hp ih => exact ih (by omega)
  | case2 low high h hlt mid hp ih =>
    have := ih (by omega)
    omega
  | case3 low high h hlt => exact hlow

/-- How many entries come before the first one that fails `p`. -/
def partitionPoint (p : α → Bool) (xs : Array α) : Nat := bisect p xs 0 xs.size (Nat.le_refl _)

/-- The starts of the lines of a text, in increasing order.  The first line starts at 0. -/
structure LineIndex where
  starts : Array UInt32
  nonempty : 0 < starts.size

namespace LineIndex

def ofText (cs : List Char) : LineIndex :=
  ⟨((0 :: lineStarts 0 (utf8 cs)).map UInt32.ofNat).toArray, by simp⟩

/-- How many lines the text has. -/
def count (lines : LineIndex) : Nat := lines.starts.size

/-- The index of the last line that starts at or before `offset`. -/
def lineOf (lines : LineIndex) (offset : UInt32) : Nat := partitionPoint (· ≤ offset) lines.starts - 1

theorem lineOf_lt (lines : LineIndex) (offset : UInt32) : lines.lineOf offset < lines.starts.size := by
  have hle : partitionPoint (· ≤ offset) lines.starts ≤ lines.starts.size := bisect_le (Nat.zero_le _)
  have := lines.nonempty
  rw [lineOf]
  omega

/-- The line and the column of an offset.  An offset past the end belongs to the last line. -/
def lineAndColumn (lines : LineIndex) (offset : UInt32) : UInt32 × UInt32 :=
  have := lines.lineOf_lt offset
  (.ofNat (lines.lineOf offset) + 1, offset - lines.starts[lines.lineOf offset] + 1)

/-- The line and the column of an offset, as numbers. -/
def position (lines : LineIndex) (offset : Nat) : Nat × Nat :=
  let (line, column) := lines.lineAndColumn (.ofNat offset)
  (line.toNat, column.toNat)

end LineIndex

end FlowTyping
