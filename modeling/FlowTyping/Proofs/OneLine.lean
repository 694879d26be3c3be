import FlowTyping.Command
import FlowTyping.Proofs.TreeText

/-!
# Diagnostics on one line

`Diagnostic.read?_ofTypeError`: the JSON text of a type error is one line, and all that is said about the
error is read back from it, at a span inside the text of the file.  That it is one line holds of every value
(`Json.printable_line`): what a string holds besides printable characters is written as an escape, and
nothing else that is written comes from outside.
-/

namespace FlowTyping

namespace Json

/-! ### One line -/

/-- No character of the text is a control character, so no line ends in it. -/
def Printable (cs : List Char) : Prop := ∀ c ∈ cs, 0x20 ≤ c.toNat

section
variable {c : Char} {cs ds : List Char}

@[simp] theorem printable_nil : Printable [] := List.forall_mem_nil _

@[simp] theorem printable_cons : Printable (c :: cs) ↔ 0x20 ≤ c.toNat ∧ Printable cs := List.forall_mem_cons

@[simp] theorem printable_append : Printable (cs ++ ds) ↔ Printable cs ∧ Printable ds :=
  List.forall_mem_append

theorem printable_of_isDigit (h : ∀ c ∈ cs, c.isDigit = true) : Printable cs := fun c hc => by
  have hdigit := h c hc
  simp only [Char.isDigit, Bool.and_eq_true, decide_eq_true_eq, ge_iff_le, UInt32.le_iff_toNat_le] at hdigit
  exact Nat.le_trans (by decide) hdigit.1

theorem printable_digits (n : Nat) : Printable (Decimal.digits n) :=
  printable_of_isDigit fun _ => Decimal.isDigit_of_mem_digits

theorem printable_hexDigit {n : Nat} (h : n < 16) : 0x20 ≤ (hexDigit n).toNat := by
  have all : ∀ n, n < 16 → 0x20 ≤ (hexDigit n).toNat := by decide
  exact all n h

theorem printable_escapeChar (c : Char) : Printable (escapeChar c) := by
  by_cases hcontrol : c.toNat < 0x20
  · have hhigh := printable_hexDigit (n := c.toNat / 16) (by omega)
    have hlow := printable_hexDigit (n := c.toNat % 16) (by omega)
    simp only [escapeChar, hcontrol, if_true]
    repeat' split
    all_goals simp [hhigh, hlow]
  · simp only [escapeChar, hcontrol, if_false]
    repeat' split
    all_goals simp [Nat.le_of_not_lt hcontrol]

theorem printable_quote (s : String) : Printable (quote s) := by
  have hescape : Printable (escape s.toList) := fun c hc => by
    obtain ⟨d, -, hc⟩ := List.mem_flatMap.1 hc
    exact printable_escapeChar d c hc
  simp [quote, hescape]

theorem Numeral.Regular.printable {n : Numeral} (h : n.Regular) : Printable n.text := by
  have hwhole : Printable n.whole := by
    rcases h.whole with heq | ⟨-, hdigits, -⟩
    · simp [heq]
    · exact printable_of_isDigit hdigits
  have hfraction : Printable (fractionText n.fraction?) := by
    cases hf : n.fraction? with
    | none => exact printable_nil
    | some ds => simp [fractionText, printable_of_isDigit (h.fraction ds hf).2]
  have hexponent : Printable (exponentText n.exponent?) := by
    cases n.exponent? with
    | none => exact printable_nil
    | some e => by_cases hneg : e < 0 <;> simp [exponentText, hneg, printable_digits]
  by_cases hneg : n.negative <;> simp [text, hneg, hwhole, hfraction, hexponent]

theorem printable_scalarText (j : Json) : Printable j.scalarText := by
  cases j with
  | bool b => cases b <;> simp [scalarText]
  | int i =>
    rw [scalarText, ← text_intNumeral]
    exact (regular_intNumeral i).printable
  | float x =>
    rw [scalarText]
    by_cases hfinite : x.isFinite = true
    · rw [floatText_of_isFinite hfinite]
      exact (regular_floatNumeral x).printable
    · simp [floatText, hfinite]
  | str s => exact printable_quote s
  | null | arr _ | obj _ => simp [scalarText]

mutual

theorem printable_compactOnto {rest : List Char} (hrest : Printable rest) (j : Json) :
    Printable (compactOnto rest j) := by
  match j with
  | arr [] => simp [compactOnto, hrest]
  | arr (j :: js) =>
    have hclose : Printable (']' :: rest) := by simp [hrest]
    have hitems := printable_compactItems hclose js
    simp [compactOnto, printable_compactOnto hitems j]
  | obj [] => simp [compactOnto, hrest]
  | obj ((k, j) :: ms) =>
    have hclose : Printable ('}' :: rest) := by simp [hrest]
    have hmembers := printable_compactMembers hclose ms
    simp [compactOnto, printable_quote, printable_compactOnto hmembers j]
  | null | bool _ | int _ | float _ | str _ => simp [compactOnto, printable_scalarText, hrest]

theorem printable_compactItems {rest : List Char} (hrest : Printable rest) (js : List Json) :
    Printable (compactItems rest js) := by
  match js with
  | [] => exact hrest
  | j :: js => simp [compactItems, printable_compactOnto (printable_compactItems hrest js) j]

theorem printable_compactMembers {rest : List Char} (hrest : Printable rest) (ms : List (String × Json)) :
    Printable (compactMembers rest ms) := by
  match ms with
  | [] => exact hrest
  | (k, j) :: ms =>
    simp [compactMembers, printable_quote, printable_compactOnto (printable_compactMembers hrest ms) j]

end

/-- Whatever the strings of a value hold, it is written on one line. -/
theorem printable_line (j : Json) : Printable j.line.toList := by
  rw [line, String.toList_ofList]
  exact printable_compactOnto printable_nil j

end

end Json

/-- A command that answers in JSON writes one value a line. -/
theorem Failure.printable_jsonOutcome (f : Failure) (file : String) :
    ∀ line ∈ (f.jsonOutcome file).stderr, Json.Printable line.toList := by
  intro line hline
  obtain ⟨j, -, rfl⟩ := List.mem_map.1 hline
  exact j.printable_line

/-! ### Places -/

namespace Span

/-- `shown` stands for `own` in a text of `length` bytes. -/
structure StandsFor (shown own : Span) (length : Nat) : Prop where
  start_le : shown.start ≤ shown.stop
  stop_le : shown.stop ≤ length
  same : own.start < own.stop → own.stop ≤ length → shown = own
  /-- At least one byte is shown if there is one. -/
  wide : own.start < length → shown.start < shown.stop

/-- A span outside of the text, and one that stops before it starts, is clamped as well. -/
theorem clamp_standsFor (s : Span) (length : Nat) : (s.clamp length).StandsFor s length := by
  unfold clamp
  dsimp only
  split
  · exact ⟨by dsimp only; omega, by dsimp only; omega, by omega, by dsimp only; omega⟩
  · next hne =>
    refine ⟨by dsimp only; omega, by dsimp only; omega, fun hlt hle => ?_, by dsimp only; omega⟩
    rw [Nat.min_eq_left (by omega), Nat.min_eq_left hle, Nat.max_eq_left (by omega)]

/-- Behind a span of 32 bits at most one byte is added. -/
theorem InWords.clamp_le {s : Span} (h : s.InWords) (length : Nat) :
    (s.clamp length).start ≤ 0x100000000 ∧ (s.clamp length).stop ≤ 0x100000000 := by
  obtain ⟨hstart, hstop⟩ := h
  unfold clamp
  dsimp only
  split <;> constructor <;> dsimp only <;> omega

end Span

/-! ### What is read back -/

namespace Diagnostic

/-- The text of a type error is one line from which all that is said about the error is read back. -/
theorem read?_ofTypeError (e : TypeError) (h : e.span.InWords) (source : List Char) (file : String) :
    Json.Printable (ofTypeError e source file).line.toList ∧
    ∃ shown : Span, shown.StandsFor e.span (byteLength source) ∧
      Json.read? (ofTypeError e source file).line.toList = some (.obj [
        ("code", .str e.cause.code),
        ("file", .str file),
        ("fix", Json.ofOption .str e.fix?),
        ("message", .str e.message),
        ("method", Json.ofOption .str e.method?),
        ("severity", .str "error"),
        ("spans", .arr [.obj [
          ("end", .int shown.stop),
          ("label", .str e.cause.label),
          ("start", .int shown.start)]])]) := by
  refine ⟨Json.printable_line _, e.span.clamp (byteLength source), Span.clamp_standsFor _ _, ?_⟩
  obtain ⟨hstart, hstop⟩ := h.clamp_le (byteLength source)
  replace hstart := Json.reread_nat (Nat.lt_of_le_of_lt hstart (by omega))
  replace hstop := Json.reread_nat (Nat.lt_of_le_of_lt hstop (by omega))
  have hread : Json.read? ((ofTypeError e source file).line.toList ++ []) = _ := Json.read?_line rfl _
  rw [List.append_nil] at hread
  rw [hread, ofTypeError, Json.reread_obj (by simp)]
  simp [spanJson, Json.reread_obj, Json.reread_arr, Json.reread_ofOption_str, hstart, hstop]

theorem read?_ofTypeError_outside :
    (⟨9, 3⟩ : Span).InWords ∧
    Json.Printable (ofTypeError ⟨.unboundVariable "a\"\n", 0, ⟨9, 3⟩, some "m"⟩ ['x'] "f").line.toList ∧
    ∃ shown : Span, shown.StandsFor ⟨9, 3⟩ 1 ∧
      Json.read? (ofTypeError ⟨.unboundVariable "a\"\n", 0, ⟨9, 3⟩, some "m"⟩ ['x'] "f").line.toList =
        some (.obj [
          ("code", .str "E0001"),
          ("file", .str "f"),
          ("fix", .str "assign `a\"\n` before reading it"),
          ("message", .str "undefined local variable `a\"\n`"),
          ("method", .str "m"),
          ("severity", .str "error"),
          ("spans", .arr [.obj [
            ("end", .int shown.stop),
            ("label", .str "`a\"\n` is not bound here"),
            ("start", .int shown.start)]])]) :=
  ⟨by decide, read?_ofTypeError _ (by decide) _ _⟩

end Diagnostic

end FlowTyping
