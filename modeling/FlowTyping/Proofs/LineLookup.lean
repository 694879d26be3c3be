import FlowTyping.Source.Lines
import Mathlib

/-!
# Looking up lines and columns

`LineIndex.lineAndColumn_exact`: the line of an offset counts the line feeds before it, the column is its
distance from where that line starts, and both together give the offset back, in order.  The table is
increasing because an entry lies at or before an offset just where enough line feeds come before that
offset (`LineStart.le_iff`), so bisection finds the line (`LineIndex.lineOf_ofText`).
-/

namespace FlowTyping

/-! ### Bisection -/

section
variable {p : α → Bool} {xs : Array α} {i : Nat}

theorem le_bisect {low high : Nat} {h : high ≤ xs.size} (hlow : low ≤ high) :
    low ≤ bisect p xs low high h := by
  fun_induction bisect p xs low high h with
  | case1 low high h hlt mid hp ih =>
    have := ih (by omega)
    omega
  | case2 low high h hlt mid hp ih => exact ih (by omega)
  | case3 low high h hlt => exact Nat.le_refl _

theorem lt_bisect_iff {low high : Nat} {h : high ≤ xs.size}
    (hp : ∀ i j (hj : j < xs.size) (hij : i ≤ j), p xs[j] → p xs[i]) (hlow : low ≤ i) (hhigh : i < high) :
    i < bisect p xs low high h ↔ p xs[i] := by
  fun_induction bisect p xs low high h with
  | case1 low high h hlt mid hmid ih =>
    by_cases hi : i ≤ mid
    · have hle : mid + 1 ≤ bisect p xs (mid + 1) high h := le_bisect (by omega)
      exact iff_of_true (by omega) (hp i mid _ hi hmid)
    · exact ih hp (by omega) hhigh
  | case2 low high h hlt mid hmid ih =>
    by_cases hi : mid ≤ i
    · have hsize : mid ≤ xs.size := by omega
      have hle : bisect p xs low mid hsize ≤ mid := bisect_le (by omega)
      exact iff_of_false (by omega) fun hpi => hmid (hp mid i _ hi hpi)
    · exact ih hp hlow (by omega)
  | case3 low high h hlt => omega

theorem lt_partitionPoint_iff (hp : ∀ i j (hj : j < xs.size) (hij : i ≤ j), p xs[j] → p xs[i])
    (hi : i < xs.size) : i < partitionPoint p xs ↔ p xs[i] :=
  lt_bisect_iff hp (Nat.zero_le _) hi

end

/-! ### Where lines start -/

/-- Line `line` starts at `start`: as many line feeds come before it as other lines, and it stands right
behind the last of them. -/
structure LineStart (bs : List UInt8) (line start : Nat) : Prop where
  count : (bs.take start).count lineFeed + 1 = line
  behind : start = 0 ∨ ∃ n, start = n + 1 ∧ bs[n]? = some lineFeed

namespace LineStart
variable {bs : List UInt8} {line start start' offset i : Nat}

/-- A line starts at or before an offset if all the line feeds before the line come before the offset. -/
theorem le_iff (h : LineStart bs line start) :
    start ≤ offset ↔ line ≤ (bs.take offset).count lineFeed + 1 := by
  rw [← h.count, Nat.add_le_add_iff_right]
  constructor
  · exact fun hle => ((List.take_prefix_take_left hle).sublist).count_le _
  · intro hle
    by_contra hlt
    obtain h0 | ⟨n, rfl, hn⟩ := h.behind
    · omega
    -- the line feed right before the line is missing among the first `offset` bytes
    have hfeed : (bs.take (n + 1)).count lineFeed = (bs.take n).count lineFeed + 1 := by
      rw [List.take_add_one, hn]
      simp
    have hfew : (bs.take offset).count lineFeed ≤ (bs.take n).count lineFeed :=
      (List.take_prefix_take_left (by omega)).sublist.count_le _
    omega

/-- A line starts at one place. -/
theorem unique (h : LineStart bs line start) (h' : LineStart bs line start') : start = start' :=
  Nat.le_antisymm (h.le_iff.2 (Nat.le_of_eq h'.count.symm)) (h'.le_iff.2 (Nat.le_of_eq h.count.symm))

end LineStart

theorem length_lineStarts (pos : Nat) (bs : List UInt8) :
    (lineStarts pos bs).length = bs.count lineFeed := by
  fun_induction lineStarts pos bs <;> simp_all

theorem of_getElem?_lineStarts {pos i s : Nat} {bs : List UInt8} (h : (lineStarts pos bs)[i]? = some s) :
    ∃ n, s = pos + (n + 1) ∧ bs[n]? = some lineFeed ∧ (bs.take n).count lineFeed = i := by
  fun_induction lineStarts pos bs generalizing i with
  | case1 => simp at h
  | case2 pos bs ih =>
    cases i with
    | zero => exact ⟨0, by simpa using h.symm, by simp⟩
    | succ i =>
      obtain ⟨n, rfl, hn, hi⟩ := ih h
      exact ⟨n + 1, by omega, hn, by simpa using hi⟩
  | case3 pos b bs hb ih =>
    obtain ⟨n, rfl, hn, hi⟩ := ih h
    exact ⟨n + 1, by omega, hn, by simpa [hb] using hi⟩

/-- The entries of the table are where the lines start. -/
theorem LineStart.of_getElem? {bs : List UInt8} {i s : Nat} (h : (0 :: lineStarts 0 bs)[i]? = some s) :
    LineStart bs (i + 1) s := by
  cases i with
  | zero =>
    obtain rfl : 0 = s := by simpa using h
    exact ⟨rfl, .inl rfl⟩
  | succ i =>
    obtain ⟨n, rfl, hn, hi⟩ := of_getElem?_lineStarts h
    refine ⟨?_, .inr ⟨n, by omega, hn⟩⟩
    rw [Nat.zero_add, List.take_add_one, hn]
    simpa using hi

namespace LineIndex
variable {cs : List Char} {offset : UInt32} {i : Nat}

theorem count_ofText (cs : List Char) : (ofText cs).count = (utf8 cs).count lineFeed + 1 := by
  simp [ofText, count, length_lineStarts]

/-- A text of fewer than 2 ^ 32 bytes has its line starts in the table as they are. -/
theorem lineStart_ofText (hcs : byteLength cs < 2 ^ 32) (hi : i < (ofText cs).starts.size) :
    LineStart (utf8 cs) (i + 1) (ofText cs).starts[i].toNat := by
  have hi' : i < (0 :: lineStarts 0 (utf8 cs)).length := by simpa [ofText] using hi
  have hstart := LineStart.of_getElem? (List.getElem?_eq_getElem hi')
  have hsmall : (0 :: lineStarts 0 (utf8 cs))[i] < 2 ^ 32 := by
    obtain h | ⟨n, h, hn⟩ := hstart.behind
    · omega
    · have := (List.getElem?_eq_some_iff.1 hn).1
      rw [length_utf8] at this
      omega
  have hword : (ofText cs).starts[i] = UInt32.ofNat (0 :: lineStarts 0 (utf8 cs))[i] := by
    simp only [ofText, List.getElem_toArray, List.getElem_map]
  rwa [hword, UInt32.toNat_ofNat', Nat.mod_eq_of_lt hsmall]

/-- Bisection finds the line of an offset. -/
theorem lineOf_ofText (hcs : byteLength cs < 2 ^ 32) (offset : UInt32) :
    (ofText cs).lineOf offset = ((utf8 cs).take offset.toNat).count lineFeed := by
  have hle (i : Nat) (hi : i < (ofText cs).starts.size) :
      decide ((ofText cs).starts[i] ≤ offset) = true ↔
        i ≤ ((utf8 cs).take offset.toNat).count lineFeed := by
    rw [decide_eq_true_iff, UInt32.le_iff_toNat_le, (lineStart_ofText hcs hi).le_iff,
      Nat.add_le_add_iff_right]
  have hfew : ((utf8 cs).take offset.toNat).count lineFeed < (ofText cs).starts.size := by
    have := (List.take_sublist offset.toNat (utf8 cs)).count_le lineFeed
    have := count_ofText cs
    rw [count] at this
    omega
  have hiff (i : Nat) (hi : i < (ofText cs).starts.size) :
      i < partitionPoint (fun start => decide (start ≤ offset)) (ofText cs).starts ↔
        i ≤ ((utf8 cs).take offset.toNat).count lineFeed := by
    rw [lt_partitionPoint_iff _ hi, hle i hi]
    exact fun i j hj hij hp => (hle i (by omega)).2 (Nat.le_trans hij ((hle j hj).1 hp))
  have hsize : partitionPoint (fun start => decide (start ≤ offset)) (ofText cs).starts ≤
      (ofText cs).starts.size := bisect_le (Nat.zero_le _)
  rw [lineOf]
  -- the border is neither at the line itself nor past the next one
  have hat := (hiff _ hfew).2 (Nat.le_refl _)
  by_contra hne
  have hnext := (hiff (((utf8 cs).take offset.toNat).count lineFeed + 1) (by omega)).1 (by omega)
  omega

/-- The line and the column of an offset of a text of fewer than 2 ^ 32 bytes. -/
theorem lineAndColumn_ofText (hcs : byteLength cs < 2 ^ 32) (hoffset : offset.toNat < 2 ^ 32 - 1) :
    ∃ line column start, (ofText cs).lineAndColumn offset = (line, column) ∧
      LineStart (utf8 cs) line.toNat start ∧ start ≤ offset.toNat ∧
      line.toNat = ((utf8 cs).take offset.toNat).count lineFeed + 1 ∧
      column.toNat = offset.toNat - start + 1 := by
  have hlt := (ofText cs).lineOf_lt offset
  have hline := lineOf_ofText hcs offset
  have hstart := lineStart_ofText hcs hlt
  have hfew : ((utf8 cs).take offset.toNat).count lineFeed ≤ offset.toNat :=
    Nat.le_trans List.count_le_length (List.length_take_le ..)
  have hle : (ofText cs).starts[(ofText cs).lineOf offset].toNat ≤ offset.toNat :=
    hstart.le_iff.2 (by omega)
  have hline' : (UInt32.ofNat ((ofText cs).lineOf offset) + 1).toNat = (ofText cs).lineOf offset + 1 := by
    simp only [UInt32.toNat_add, UInt32.toNat_ofNat', UInt32.toNat_one]
    omega
  refine ⟨_, _, _, rfl, hline'.symm ▸ hstart, hle, hline ▸ hline', ?_⟩
  rw [UInt32.toNat_add, UInt32.toNat_sub_of_le _ _ (UInt32.le_iff_toNat_le.2 hle), UInt32.toNat_one]
  omega

/-- Looking up lines and columns in a text of fewer than 2 ^ 32 bytes is exact: the line counts the line
feeds before the offset and the column the bytes from the start of the line, each from 1; start and column
give the offset back; and later offsets come later line by line and column by column. -/
theorem lineAndColumn_exact (hcs : byteLength cs < 2 ^ 32) :
    (∀ offset : UInt32, offset.toNat < 2 ^ 32 - 1 →
      ∃ line column, (ofText cs).lineAndColumn offset = (line, column) ∧
        line.toNat = 1 + ((utf8 cs).take offset.toNat).count lineFeed ∧
        (1 ≤ line.toNat ∧ line.toNat ≤ (ofText cs).count) ∧ 1 ≤ column.toNat ∧
        ∃ start, (∀ s, LineStart (utf8 cs) line.toNat s ↔ s = start) ∧
          start ≤ offset.toNat ∧ column.toNat - 1 = offset.toNat - start ∧
          offset.toNat = start + column.toNat - 1) ∧
    ∀ a b : UInt32, a < b → b.toNat < 2 ^ 32 - 1 →
      Prod.Lex (· < ·) (· < ·) ((ofText cs).lineAndColumn a) ((ofText cs).lineAndColumn b) := by
  constructor
  · intro offset hoffset
    obtain ⟨line, column, start, heq, hstart, hle, hline, hcolumn⟩ := lineAndColumn_ofText hcs hoffset
    have hcount := (List.take_sublist offset.toNat (utf8 cs)).count_le lineFeed
    have hlines := count_ofText cs
    exact ⟨line, column, heq, by omega, ⟨by omega, by omega⟩, by omega, start,
      fun s => ⟨fun h => h.unique hstart, fun h => h ▸ hstart⟩, hle, by omega, by omega⟩
  · intro a b hab hb
    have hab' : a.toNat < b.toNat := UInt32.lt_iff_toNat_lt.1 hab
    obtain ⟨lineA, columnA, startA, heqA, hstartA, hleA, hlineA, hcolumnA⟩ :=
      lineAndColumn_ofText hcs (Nat.lt_trans hab' hb)
    obtain ⟨lineB, columnB, startB, heqB, hstartB, hleB, hlineB, hcolumnB⟩ := lineAndColumn_ofText hcs hb
    have hcount : ((utf8 cs).take a.toNat).count lineFeed ≤ ((utf8 cs).take b.toNat).count lineFeed :=
      (List.take_prefix_take_left (Nat.le_of_lt hab')).sublist.count_le _
    rw [heqA, heqB, Prod.lex_def]
    simp only [UInt32.lt_iff_toNat_lt, ← UInt32.toNat_inj]
    obtain hlt | hsame := Nat.lt_or_eq_of_le hcount
    · exact .inl (by omega)
    · -- on one line both columns count from the same start
      have hlines : lineA.toNat = lineB.toNat := by omega
      obtain rfl := hstartA.unique (hlines ▸ hstartB)
      exact .inr ⟨hlines, by omega⟩

theorem lineAndColumn_exact_two_lines :
    byteLength "ab\ncd".toList < 2 ^ 32 ∧
      Prod.Lex (· < ·) (· < ·) ((ofText "ab\ncd".toList).lineAndColumn 2)
        ((ofText "ab\ncd".toList).lineAndColumn 3) ∧
      ∃ line column, (ofText "ab\ncd".toList).lineAndColumn 3 = (line, column) ∧
        line.toNat = 1 + ((utf8 "ab\ncd".toList).take 3).count lineFeed := by
  have hsize : byteLength "ab\ncd".toList < 2 ^ 32 := by decide
  have h := lineAndColumn_exact hsize
  obtain ⟨line, column, heq, hline, -⟩ := h.1 3 (by decide)
  exact ⟨hsize, h.2 2 3 (by decide) (by decide), line, column, heq, hline⟩

end LineIndex

end FlowTyping
