import FlowTyping.Proofs.Lexemes
import FlowTyping.Proofs.Nesting
import FlowTyping.Proofs.Progress

/-!
# How a text is cut

`Token.scan_tiles`: the tokens of a text and the blanks between them are the text.  The scanner cuts the
blanks and a lexeme off the front of what is left, so the tokens lie one behind the other, each behind
its blanks (`Token.Tiles`), and the end of the text is the last of them.  Where a line ends without an
invalid token the scanner begins anew (`Token.scan_append_line`).
-/

namespace FlowTyping

/-- What may stand between two tokens: spaces, tabs, carriage returns, and backslashes right before line
feeds. -/
inductive Blank : List Char → Prop
  | nil : Blank []
  | blank {c : Char} {cs : List Char} (hc : c = ' ' ∨ c = '\t' ∨ c = '\r') (h : Blank cs) : Blank (c :: cs)
  | continued {cs : List Char} (h : Blank cs) : Blank ('\\' :: '\n' :: cs)

theorem blank_takeBlank (cs : List Char) : Blank (takeBlank cs) := by
  fun_induction takeBlank cs with
  | case1 cs ih => exact .continued ih
  | case2 c cs h hc ih => exact .blank hc ih
  | case3 => exact .nil
  | case4 => exact .nil

namespace Token

/-- Some tokens from byte `p` on, each behind a gap, and the text that they and the gaps are. -/
inductive Tiles : Nat → List Token → List Char → Prop
  | nil (p : Nat) : Tiles p [] []
  | cons {p : Nat} {gap : List Char} {t : Token} {ts : List Token} {rest : List Char} (hgap : Blank gap)
    (hstart : t.span.start = p + byteLength gap)
    (hstop : t.span.stop = t.span.start + byteLength t.text.toList) (hts : Tiles t.span.stop ts rest) :
    Tiles p (t :: ts) (gap ++ (t.text.toList ++ rest))

theorem tiles_scanFrom (pos : Nat) (cs : List Char) :
    Tiles pos (scanFrom pos cs ++ [eofAt (pos + byteLength cs)]) cs := by
  fun_induction scanFrom pos cs with
  | case1 pos cs hcs =>
    -- what is left is blank, and it is the gap before the end of the text
    have hblank : takeBlank cs = cs := by simpa [hcs] using takeBlank_append_dropBlank cs
    simpa [eofAt, hblank] using Tiles.cons (blank_takeBlank cs) (t := eofAt (pos + byteLength cs)) (p := pos)
      (by simp [eofAt, hblank]) (by simp [eofAt]) (.nil _)
  | case2 pos cs c rest hcs start lexeme ih =>
    have hcut : cs = takeBlank cs ++ (lexeme.text ++ lexeme.rest) := by
      conv => lhs; rw [← takeBlank_append_dropBlank cs, hcs, ← Lexeme.from_append c rest]
    have hlength : pos + byteLength cs = start + byteLength lexeme.text + byteLength lexeme.rest := by
      conv => lhs; rw [hcut]
      simp only [byteLength_append, start]
      omega
    have htiles := Tiles.cons (t := lexeme.toToken start) (p := pos) (blank_takeBlank cs) rfl
      (by simp [Lexeme.toToken]) ih
    rw [List.cons_append, hlength]
    simpa [Lexeme.toToken, ← hcut] using htiles

namespace Tiles
variable {source cs : List Char} {p : Nat} {t : Token} {ts : List Token}

/-- A token is the piece of the text that its span marks out. -/
theorem slice? (h : Tiles p ts cs) (ht : t ∈ ts)
    (hsource : ∃ before, source = before ++ cs ∧ byteLength before = p) :
    t.span.slice? source = some t.text.toList := by
  induction h with
  | nil => exact absurd ht List.not_mem_nil
  | @cons p gap u us rest hgap hstart hstop hus ih =>
    obtain ⟨before, rfl, hbefore⟩ := hsource
    have hfront : byteLength (before ++ gap) = u.span.start := by rw [byteLength_append, hbefore, hstart]
    rcases List.mem_cons.1 ht with rfl | ht
    · refine Span.slice?_eq_some_iff.2 ⟨before ++ gap, rest, by simp, hfront, ?_, ?_⟩
      · rw [Span.length, hstop]
        omega
      · omega
    · exact ih ht ⟨before ++ gap ++ u.text.toList, by simp, by rw [byteLength_append, hfront, hstop]⟩

theorem le_start (h : Tiles p ts cs) (ht : t ∈ ts) : p ≤ t.span.start := by
  induction h with
  | nil => exact absurd ht List.not_mem_nil
  | cons hgap hstart hstop hus ih =>
    rcases List.mem_cons.1 ht with rfl | ht
    · omega
    · have := ih ht
      omega

theorem ordered (h : Tiles p ts cs) : ts.Pairwise fun a b => a.span.stop ≤ b.span.start := by
  induction h with
  | nil => exact .nil
  | cons hgap hstart hstop hus ih => exact .cons (fun u hu => hus.le_start hu) ih

end Tiles

theorem lt_of_mem_scanFrom {pos : Nat} {cs : List Char} {t : Token} (h : t ∈ scanFrom pos cs) :
    t.span.start < t.span.stop := by
  obtain ⟨start, c, rest, -, rfl⟩ := exists_lexeme_of_mem_scanFrom h
  have := c.utf8Size_pos
  show start < start + byteLength (Lexeme.from c rest).text
  rw [Lexeme.text_eq_cons, byteLength_cons]
  omega

theorem tiles_scan (source : String) : Tiles 0 (scan source) source.toList := by
  simpa [scan, lexemes] using tiles_scanFrom 0 source.toList

theorem slice?_of_mem_scan {source : String} {t : Token} (ht : t ∈ scan source) :
    t.span.slice? source.toList = some t.text.toList :=
  (tiles_scan source).slice? ht ⟨[], rfl, rfl⟩

/-- The tokens of a text are pieces of it, in order and without an overlap, and with the blanks between
them they are the whole text.  The end of the text is the last token and an empty one; no other is. -/
theorem scan_tiles (source : String) :
    Tiles 0 (scan source) source.toList ∧
    (∀ t ∈ scan source, Boundary source.toList t.span.start ∧ Boundary source.toList t.span.stop ∧
      t.span.slice? source.toList = some t.text.toList) ∧
    (scan source).Pairwise (fun a b => a.span.stop ≤ b.span.start) ∧
    ∃ ts, scan source = ts ++ [⟨.eof, "", ⟨byteLength source.toList, byteLength source.toList⟩⟩] ∧
      ∀ t ∈ ts, t.kind ≠ .eof ∧ t.span.start < t.span.stop := by
  refine ⟨tiles_scan source, fun t ht => ?_, (tiles_scan source).ordered, lexemes source, rfl, fun t ht => ?_⟩
  · have hslice := slice?_of_mem_scan ht
    obtain ⟨before, after, hsource, hstart, hstop, hle⟩ := Span.slice?_eq_some_iff.1 hslice
    rw [Span.length] at hstop
    exact ⟨⟨before, t.text.toList ++ after, by rw [hsource, List.append_assoc], hstart⟩,
      ⟨before ++ t.text.toList, after, hsource, by rw [byteLength_append]; omega⟩, hslice⟩
  · exact ⟨kind_ne_eof_of_mem_scanFrom ht, lt_of_mem_scanFrom ht⟩

/-! ### Lines -/

/-- A token that stands `n` bytes further on. -/
def shift (n : Nat) (t : Token) : Token := { t with span := ⟨t.span.start + n, t.span.stop + n⟩ }

theorem scanFrom_add (pos n : Nat) (cs : List Char) :
    scanFrom (pos + n) cs = (scanFrom pos cs).map (shift n) := by
  fun_induction scanFrom pos cs with
  | case1 pos cs hcs =>
    rw [scanFrom]
    split
    · rfl
    · next h => rw [hcs] at h; cases h
  | case2 pos cs c rest hcs start lexeme ih =>
    have hstart : pos + n + byteLength (takeBlank cs) = start + n := Nat.add_right_comm ..
    have hnext : start + n + byteLength lexeme.text = start + byteLength lexeme.text + n := Nat.add_right_comm ..
    have htoken : lexeme.toToken (start + n) = (lexeme.toToken start).shift n := by
      simp only [Lexeme.toToken, shift, hnext]
    rw [scanFrom_of_dropBlank_eq_cons hcs, List.map_cons, ← ih, ← hnext, ← htoken, hstart]

/-- A text without invalid tokens is cut in the same way if more lines follow, its end apart, and behind the
line feed the scanner begins anew. -/
theorem scan_append_line {a : String} (h : ∀ t ∈ scan a, t.kind ≠ .invalid) (b : String) :
    scan (a ++ "\n" ++ b) =
      (scan a).dropLast ++
        ⟨.newline, "\n", ⟨byteLength a.toList, byteLength a.toList + 1⟩⟩ ::
          (scan b).map (shift (byteLength a.toList + 1)) := by
  have hvalid : ∀ t ∈ scanFrom 0 a.toList, t.kind ≠ .invalid := fun t ht =>
    h t (List.mem_append_left _ ht)
  have htext : (a ++ "\n" ++ b).toList = a.toList ++ '\n' :: b.toList := by simp
  have hlexemes := scanFrom_append_newline hvalid b.toList
  have htail := scanFrom_add 0 (byteLength a.toList + 1) b.toList
  have hlength : byteLength (a ++ "\n" ++ b).toList = byteLength b.toList + (byteLength a.toList + 1) := by
    have hfeed : '\n'.utf8Size = 1 := rfl
    rw [htext, byteLength_append, byteLength_cons, hfeed]
    omega
  rw [Nat.zero_add] at hlexemes htail
  calc scan (a ++ "\n" ++ b)
    _ = scanFrom 0 a.toList ++ scanFrom (byteLength a.toList) ('\n' :: b.toList) ++
          [(eofAt (byteLength b.toList)).shift (byteLength a.toList + 1)] := by
        rw [scan, lexemes, hlength, htext, hlexemes]
        rfl
    _ = _ := by
        rw [scanFrom_newline, htail, scan, List.dropLast_concat, scan, List.map_append]
        simp [lexemes]

/-- A line feed in quotes and an apostrophe in a comment do not reach into the next line. -/
theorem scan_append_line_quoted :
    (∀ t ∈ scan "\"a\\\nb\" # it's", t.kind ≠ .invalid) ∧
      scan ("\"a\\\nb\" # it's" ++ "\n" ++ "f? 'c'") =
        [⟨.string, "\"a\\\nb\"", ⟨0, 6⟩⟩, ⟨.comment, "# it's", ⟨7, 13⟩⟩, ⟨.newline, "\n", ⟨13, 14⟩⟩,
          ⟨.ident, "f?", ⟨14, 16⟩⟩, ⟨.char, "'c'", ⟨17, 20⟩⟩, ⟨.eof, "", ⟨20, 20⟩⟩] := by
  have hall : (scan "\"a\\\nb\" # it's").all (·.kind != .invalid) = true := by decide +kernel
  have hvalid := fun t ht => bne_iff_ne.1 (List.all_eq_true.1 hall t ht)
  exact ⟨hvalid, (scan_append_line hvalid _).trans (by decide +kernel)⟩

end Token

end FlowTyping
