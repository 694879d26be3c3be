import FlowTyping.Proofs.Readings
import FlowTyping.Proofs.Rendering
import Mathlib.Data.List.TakeWhile

/-!
# Tokens and what follows them

How a text is cut into tokens hangs on what follows only at the ends of tokens, and there a line feed or
a space settles it.  A valid token read by itself is that token (`Lexeme.from_alone`), and a line feed
or a space behind a text leaves its last token as it is (`Lexeme.from_append_of_stops`).  So a text goes
on behind a line feed as if it began there (`Token.scanFrom_append_newline`), and tokens with spaces
between them are read back (`keys_spaced`).
-/

namespace FlowTyping

/-! ### Stops -/

/-- Characters that settle where a token before them ends. -/
def stops : List Char := [' ', '\n', ')']

/-- A text that is empty or begins with a space, a line feed or a closing parenthesis. -/
def Stops (cs : List Char) : Prop := ∀ c ∈ cs.head?, c ∈ stops

theorem stops_nil : Stops [] := fun _ h => nomatch h

theorem stops_cons {c : Char} (h : c ∈ stops) (cs : List Char) : Stops (c :: cs) :=
  fun _ h' => Option.some.inj h' ▸ h

theorem Stops.head_ne {c : Char} {cs : List Char} (h : Stops (c :: cs)) {d : Char} (hd : d ∉ stops) :
    c ≠ d := fun hc => hd (hc ▸ h c rfl)

theorem Stops.ends {cs : List Char} (h : Stops cs) {p : Char → Bool} (hp : stops.any p = false) :
    ∀ c ∈ cs.head?, p c = false := fun c hc => Bool.eq_false_iff.2 (List.any_eq_false.1 hp c (h c hc))

/-- A row of characters ends where something else follows. -/
theorem row_append {p : Char → Bool} (cs tail : List Char) (h : ∀ c ∈ tail.head?, p c = false) :
    (cs ++ tail).takeWhile p = cs.takeWhile p ∧ (cs ++ tail).dropWhile p = cs.dropWhile p ++ tail := by
  induction cs with
  | nil =>
    cases tail with
    | nil => exact ⟨rfl, rfl⟩
    | cons c tail => simp [h c rfl]
  | cons c cs ih => cases hc : p c <;> simp [hc, ih.1, ih.2]

theorem row_takeWhile (p : Char → Bool) (cs : List Char) :
    (cs.takeWhile p).takeWhile p = cs.takeWhile p ∧ (cs.takeWhile p).dropWhile p = [] := by
  have hall : ∀ c ∈ cs.takeWhile p, p c = true := List.all_eq_true.1 List.all_takeWhile
  exact ⟨List.takeWhile_eq_self_iff.2 hall, List.dropWhile_eq_nil_iff.2 hall⟩

/-! ### One lexeme -/

section
variable {c quote : Char} {cs tail : List Char}

/-- What is quoted ends at its closing quote. -/
theorem scanQuoted_of_closed (hquote : quote ≠ '\n' ∧ quote ≠ '\\') (h : (scanQuoted quote cs).1 = true)
    (tail : List Char) :
    scanQuoted quote ((scanQuoted quote cs).2.1 ++ tail) = (true, (scanQuoted quote cs).2.1, tail) := by
  fun_induction scanQuoted quote cs with
  | case1 => cases h
  | case2 => cases h
  | case3 c cs closed inside rest hrun ih =>
    rw [hrun] at ih
    simp only [scanQuoted, List.cons_append, ih h]
  | case4 => simp [scanQuoted, hquote]
  | case5 c cs hnewline hescape hc closed inside rest hrun ih =>
    rw [hrun] at ih
    have hbackslash : c ≠ '\\' := by
      rintro rfl
      cases cs with
      | nil => cases hrun; cases h
      | cons d cs => exact hescape d cs rfl rfl
    simp only [List.cons_append]
    rw [scanQuoted, ih h]
    · exact if_neg hc
    · exact hnewline
    · exact fun _ _ hc' => absurd hc' hbackslash

theorem isNumeralInner_stop : stops.any isNumeralInner = false := by decide

theorem Letters.isInner_stop : stops.any isInner = false := by decide +kernel

theorem scanNumber_append_of_stops (cs : List Char) (h : Stops tail) :
    scanNumber (cs ++ tail) =
      ((scanNumber cs).1, (scanNumber cs).2.1, (scanNumber cs).2.2 ++ tail) := by
  obtain ⟨htake, hdrop⟩ := row_append cs _ (h.ends isNumeralInner_stop)
  unfold scanNumber
  rw [htake, hdrop]
  generalize cs.takeWhile isNumeralInner = whole
  rcases cs.dropWhile isNumeralInner with _ | ⟨c, rest⟩
  · rcases tail with _ | ⟨c, tail⟩
    · rfl
    · have := h.head_ne (d := '.') (by decide)
      simp [this]
  by_cases hc : c = '.'
  · subst hc
    rcases rest with _ | ⟨d, rest⟩
    · rcases tail with _ | ⟨d, tail⟩
      · rfl
      · have hdigit := h.ends (p := Char.isDigit) (by decide) d rfl
        simp [hdigit]
    · obtain ⟨htake, hdrop⟩ := row_append (d :: rest) _ (h.ends isNumeralInner_stop)
      simp only [List.cons_append] at htake hdrop ⊢
      rw [htake, hdrop]
      split <;> rfl
  · simp [hc]

theorem scanNumber_alone (cs : List Char) :
    scanNumber (scanNumber cs).2.1 = ((scanNumber cs).1, (scanNumber cs).2.1, []) := by
  obtain ⟨htake, hdrop⟩ := row_takeWhile isNumeralInner cs
  have hwhole : scanNumber (cs.takeWhile isNumeralInner) = (.int, cs.takeWhile isNumeralInner, []) := by
    rw [scanNumber, htake, hdrop]
  rcases hrun : scanNumber cs with ⟨kind, row, rest⟩
  unfold scanNumber at hrun
  split at hrun
  · next d after hafter =>
    split at hrun
    · next hd =>
      cases hrun
      -- the point stops the first row, and the digit behind it begins the second one
      have hpoint (row : List Char) := row_append (cs.takeWhile isNumeralInner) ('.' :: row)
        (p := isNumeralInner) (fun c hc => Option.some.inj hc ▸ by decide)
      have hinner : isNumeralInner d = true := by simp [isNumeralInner, hd]
      obtain ⟨htake', hdrop'⟩ := row_takeWhile isNumeralInner (d :: after)
      rw [List.takeWhile_cons_of_pos hinner] at htake' hdrop' ⊢
      simp only [scanNumber, (hpoint _).1, (hpoint _).2, htake, hdrop, List.nil_append, hd, if_true,
        htake', hdrop']
    · cases hrun
      exact hwhole
  · cases hrun
    exact hwhole

theorem scanName_append_of_stops (cs : List Char) (h : Stops tail) :
    scanName (cs ++ tail) = ((scanName cs).1, (scanName cs).2 ++ tail) := by
  obtain ⟨htake, hdrop⟩ := row_append cs _ (h.ends Letters.isInner_stop)
  unfold scanName
  rw [htake, hdrop]
  generalize cs.takeWhile Letters.isInner = name
  match cs.dropWhile Letters.isInner, tail with
  | [], [] => rfl
  | [], c :: tail =>
    have hquery := h.head_ne (d := '?') (by decide)
    have hbang := h.head_ne (d := '!') (by decide)
    simp [hquery, hbang]
  | mark :: rest, tail =>
    have hnext : ((rest ++ tail).head? = some '=') = (rest.head? = some '=') := by
      cases rest with
      | nil =>
        have htail : tail.head? ≠ some '=' := fun heq => absurd (h _ heq) (by decide)
        simp [htail]
      | cons d rest => rfl
    simp only [List.cons_append, ne_eq, hnext]
    split <;> rfl

end

namespace Lexeme
variable {c : Char} {cs tail : List Char}

/-- The first character tells how a lexeme is read. -/
theorem from_cases (c : Char) :
    (∃ kind, ∀ cs, Lexeme.from c cs = ⟨kind, [c], cs⟩) ∨
    (∀ cs, Lexeme.from c cs =
      ⟨.comment, c :: cs.takeWhile (· != '\n'), cs.dropWhile (· != '\n')⟩) ∨
    (∀ cs, Lexeme.from c cs = ⟨(scanNumber cs).1, c :: (scanNumber cs).2.1, (scanNumber cs).2.2⟩) ∨
    ((c ≠ '\n' ∧ c ≠ '\\') ∧ ∃ kind, ∀ cs, Lexeme.from c cs =
      ⟨if (scanQuoted c cs).1 then kind else .invalid, c :: (scanQuoted c cs).2.1,
        (scanQuoted c cs).2.2⟩) ∨
    ∀ cs, Lexeme.from c cs = ⟨(Token.keyword? (String.ofList (c :: (scanName cs).1))).getD .ident,
      c :: (scanName cs).1, (scanName cs).2⟩ := by
  cases hc : punctuation? c with
  | some kind => exact .inl ⟨kind, fun cs => by simp only [Lexeme.from, hc]⟩
  | none =>
    simp only [Lexeme.from, hc]
    split_ifs with hhash hdigit hchar hstring hstart
    · exact .inr (.inl fun cs => rfl)
    · exact .inr (.inr (.inl fun cs => rfl))
    · exact .inr (.inr (.inr (.inl ⟨by rw [hchar]; decide, .char, fun cs => rfl⟩)))
    · exact .inr (.inr (.inr (.inl ⟨by rw [hstring]; decide, .string, fun cs => rfl⟩)))
    · exact .inr (.inr (.inr (.inr fun cs => rfl)))
    · exact .inl ⟨.invalid, fun cs => rfl⟩

/-- A stop behind a text leaves a valid token as it is.  A comment only ends with its line. -/
theorem from_append_of_stops (hkind : (Lexeme.from c cs).kind ≠ .invalid)
    (h : Stops tail) (hcomment : (Lexeme.from c cs).kind = .comment → ∀ d ∈ tail.head?, d = '\n') :
    Lexeme.from c (cs ++ tail) =
      ⟨(Lexeme.from c cs).kind, (Lexeme.from c cs).text, (Lexeme.from c cs).rest ++ tail⟩ := by
  rcases from_cases c with ⟨kind, hc⟩ | hc | hc | ⟨hquote, kind, hc⟩ | hc
  · rw [hc, hc]
  · rw [hc] at hcomment
    obtain ⟨htake, hdrop⟩ := row_append (p := (· != '\n')) cs _
      fun d hd => by rw [hcomment rfl d hd]; rfl
    rw [hc, hc, htake, hdrop]
  · rw [hc, hc, scanNumber_append_of_stops cs h]
  · have hclosed : (scanQuoted c cs).1 = true := by
      by_contra hopen
      rw [hc, if_neg hopen] at hkind
      exact hkind rfl
    have hscan : scanQuoted c (cs ++ tail) =
        (true, (scanQuoted c cs).2.1, (scanQuoted c cs).2.2 ++ tail) := by
      conv => lhs; rw [← scanQuoted_append c cs, List.append_assoc]
      exact scanQuoted_of_closed hquote hclosed _
    rw [hc, hc, hscan, hclosed]
  · rw [hc, hc, scanName_append_of_stops cs h]

/-- A lexeme starts with the character that it is read at. -/
theorem text_eq_cons (c : Char) (cs : List Char) :
    (Lexeme.from c cs).text = c :: (Lexeme.from c cs).text.tail := by
  have happend := Lexeme.from_append c cs
  cases htext : (Lexeme.from c cs).text with
  | nil => exact absurd htext (Lexeme.from_text_ne_nil c cs)
  | cons d ds =>
    rw [htext, List.cons_append] at happend
    rw [(List.cons.inj happend).1, List.tail_cons]

/-- A valid token is read from its characters alone. -/
theorem from_alone (hkind : (Lexeme.from c cs).kind ≠ .invalid) :
    Lexeme.from c (Lexeme.from c cs).text.tail =
      ⟨(Lexeme.from c cs).kind, (Lexeme.from c cs).text, []⟩ := by
  rcases from_cases c with ⟨kind, hc⟩ | hc | hc | ⟨hquote, kind, hc⟩ | hc
  · rw [hc, hc, List.tail_cons]
  · obtain ⟨htake, hdrop⟩ := row_takeWhile (· != '\n') cs
    rw [hc, hc, List.tail_cons, htake, hdrop]
  · rw [hc, hc, List.tail_cons, scanNumber_alone]
  · have hclosed : (scanQuoted c cs).1 = true := by
      by_contra hopen
      rw [hc, if_neg hopen] at hkind
      exact hkind rfl
    have hscan := scanQuoted_of_closed hquote hclosed []
    rw [List.append_nil] at hscan
    rw [hc, hc, List.tail_cons, hscan, hclosed]
  · rw [hc, hc, List.tail_cons, scanName_fst]

end Lexeme

/-! ### Blanks in front -/

section
variable {c : Char} {cs rest : List Char}

/-- What is left behind the blanks begins with none. -/
theorem not_mem_blanks_of_dropBlank (h : dropBlank cs = c :: rest) (hc : c ≠ '\\') : c ∉ blanks := by
  fun_induction dropBlank cs with
  | case1 cs ih => exact ih h
  | case2 d cs hd hblank ih => exact ih h
  | case3 d cs hd hblank =>
    obtain ⟨rfl, -⟩ := List.cons.inj h
    simp only [not_or] at hblank
    simp [blanks, hblank, hc]
  | case4 => cases h

theorem takeBlank_of_not_mem (hc : c ∉ blanks) (cs : List Char) : takeBlank (c :: cs) = [] := by
  have happend := takeBlank_append_dropBlank (c :: cs)
  rw [dropBlank_of_not_mem hc] at happend
  exact List.append_left_eq_self.1 happend

theorem blank_append_of_cons (h : dropBlank cs = c :: rest) (hc : c ≠ '\\') (tail : List Char) :
    takeBlank (cs ++ tail) = takeBlank cs ∧ dropBlank (cs ++ tail) = c :: (rest ++ tail) := by
  fun_induction dropBlank cs with
  | case1 cs ih => simp [takeBlank, dropBlank, ih h]
  | case2 d cs hd hblank ih =>
    have hback : d ≠ '\\' := by rcases hblank with rfl | rfl | rfl <;> decide
    simp [takeBlank, dropBlank, hback, hblank, ih h]
  | case3 d cs hd hblank =>
    obtain ⟨rfl, rfl⟩ := List.cons.inj h
    simp [takeBlank, dropBlank, hc, hblank]
  | case4 => cases h

theorem blank_append_of_nil (h : dropBlank cs = []) (tail : List Char) :
    takeBlank (cs ++ tail) = cs ++ takeBlank tail ∧ dropBlank (cs ++ tail) = dropBlank tail := by
  fun_induction dropBlank cs with
  | case1 cs ih => simp [takeBlank, dropBlank, ih h]
  | case2 d cs hd hblank ih =>
    have hback : d ≠ '\\' := by rcases hblank with rfl | rfl | rfl <;> decide
    simp [takeBlank, dropBlank, hback, hblank, ih h]
  | case3 => cases h
  | case4 => simp

end

/-! ### Whole texts -/

namespace Token
variable {pos : Nat} {c : Char} {cs rest : List Char}

theorem scanFrom_of_dropBlank_eq_cons (h : dropBlank cs = c :: rest) :
    scanFrom pos cs = (Lexeme.from c rest).toToken (pos + byteLength (takeBlank cs)) ::
      scanFrom (pos + byteLength (takeBlank cs) + byteLength (Lexeme.from c rest).text)
        (Lexeme.from c rest).rest := by
  rw [scanFrom]
  split
  · simp_all
  · next hcs =>
    obtain ⟨rfl, rfl⟩ := List.cons.inj (h.symm.trans hcs)
    rfl

/-- The line feed at the front of a text. -/
theorem scanFrom_newline (pos : Nat) (cs : List Char) :
    scanFrom pos ('\n' :: cs) = ⟨.newline, "\n", ⟨pos, pos + 1⟩⟩ :: scanFrom (pos + 1) cs := by
  have hdrop : dropBlank ('\n' :: cs) = '\n' :: cs := by simp [dropBlank]
  have htake : takeBlank ('\n' :: cs) = [] := by simp [takeBlank]
  rw [scanFrom_of_dropBlank_eq_cons hdrop, htake]
  rfl

/-- A backslash that does not continue a line is no token. -/
theorem ne_backslash_of_valid (h : (Lexeme.from c rest).kind ≠ .invalid) : c ≠ '\\' := by
  rintro rfl
  exact h rfl

theorem scanFrom_of_dropBlank_eq_nil (h : dropBlank cs = []) : scanFrom pos cs = [] := by
  rw [scanFrom]
  split <;> simp_all

/-- Blanks in front of a text only move its tokens. -/
theorem scanFrom_blank_append (h : dropBlank cs = []) (tail : List Char) :
    scanFrom pos (cs ++ tail) = scanFrom (pos + byteLength cs) tail := by
  obtain ⟨htake, hdrop⟩ := blank_append_of_nil h tail
  cases htail : dropBlank tail with
  | nil => rw [scanFrom_of_dropBlank_eq_nil htail, scanFrom_of_dropBlank_eq_nil (hdrop.trans htail)]
  | cons c rest =>
    rw [scanFrom_of_dropBlank_eq_cons htail, scanFrom_of_dropBlank_eq_cons (hdrop.trans htail), htake,
      byteLength_append, ← Nat.add_assoc]

/-- A text without invalid tokens is read in the same way if a stop follows, and the scanner then stands at
the stop.  Comments only end with their lines. -/
theorem scanFrom_append_of_stops {tail : List Char} (h : ∀ t ∈ scanFrom pos cs, t.kind ≠ .invalid)
    (htail : Stops tail)
    (hcomment : ∀ t ∈ scanFrom pos cs, t.kind = .comment → ∀ d ∈ tail.head?, d = '\n') :
    scanFrom pos (cs ++ tail) = scanFrom pos cs ++ scanFrom (pos + byteLength cs) tail := by
  fun_induction scanFrom pos cs with
  | case1 pos cs hcs => exact scanFrom_blank_append hcs tail
  | case2 pos cs c rest hcs start lexeme ih =>
    have hkind : (Lexeme.from c rest).kind ≠ .invalid := h _ List.mem_cons_self
    obtain ⟨htake, hdrop⟩ := blank_append_of_cons hcs (ne_backslash_of_valid hkind) tail
    have hlexeme := Lexeme.from_append_of_stops hkind htail (hcomment _ List.mem_cons_self)
    have hlength : pos + byteLength cs = start + byteLength lexeme.text + byteLength lexeme.rest := by
      have hsplit := takeBlank_append_dropBlank cs
      rw [hcs, ← Lexeme.from_append c rest] at hsplit
      rw [← hsplit, byteLength_append, byteLength_append]
      exact (Nat.add_assoc ..).symm.trans (Nat.add_assoc ..).symm
    rw [scanFrom_of_dropBlank_eq_cons hdrop, hlexeme, htake, hlength, List.cons_append,
      ← ih (fun t ht => h t (List.mem_cons_of_mem _ ht)) fun t ht => hcomment t (List.mem_cons_of_mem _ ht)]
    rfl

theorem scanFrom_append_newline (h : ∀ t ∈ scanFrom pos cs, t.kind ≠ .invalid) (tail : List Char) :
    scanFrom pos (cs ++ '\n' :: tail) =
      scanFrom pos cs ++ scanFrom (pos + byteLength cs) ('\n' :: tail) :=
  scanFrom_append_of_stops h (stops_cons (by decide) tail) fun _ _ _ _ hd => (Option.some.inj hd).symm

/-- Behind a text without invalid tokens and comments, and a space, the scanner goes on as if it began there. -/
theorem lexemes_append_space {a : String} (h : ∀ t ∈ lexemes a, t.kind ≠ .invalid ∧ t.kind ≠ .comment)
    (b : String) :
    lexemes (a ++ " " ++ b) = lexemes a ++ scanFrom (byteLength (a ++ " ").toList) b.toList := by
  have htext : (a ++ " " ++ b).toList = a.toList ++ ([' '] ++ b.toList) := by simp
  have hlength : byteLength (a ++ " ").toList = byteLength a.toList + byteLength [' '] := by
    rw [String.toList_append, byteLength_append]
    rfl
  have hstops : Stops ([' '] ++ b.toList) := stops_cons (by decide) _
  rw [lexemes, htext, scanFrom_append_of_stops (fun t ht => (h t ht).1) hstops
    fun t ht hcomment => absurd hcomment (h t ht).2, scanFrom_blank_append (by simp [dropBlank]), hlength,
    Nat.zero_add]
  rfl

/-- A token that no blank stands before starts where the scanner stands. -/
theorem start_scanFrom (hc : c ∉ blanks) : ∀ t ∈ (scanFrom pos (c :: cs)).head?, t.span.start = pos := by
  have hdrop : dropBlank (c :: cs) = c :: cs := dropBlank_of_not_mem hc cs
  have htake := takeBlank_of_not_mem hc cs
  intro t ht
  rw [scanFrom_of_dropBlank_eq_cons hdrop, htake] at ht
  exact (Option.some.inj ht) ▸ rfl

/-- A token that its characters alone are read as. -/
def Alone (t : Token) : Prop :=
  ∃ c cs, c ∉ blanks ∧ t.text = String.ofList (c :: cs) ∧ Lexeme.from c cs = ⟨t.kind, c :: cs, []⟩

theorem alone_of_mem_scanFrom {t : Token} (ht : t ∈ scanFrom pos cs) (hkind : t.kind ≠ .invalid) :
    t.Alone := by
  obtain ⟨start, c, rest, ⟨before, hbefore⟩, rfl⟩ := exists_lexeme_of_mem_scanFrom ht
  have htext : (Lexeme.from c rest).text = c :: (Lexeme.from c rest).text.tail := Lexeme.text_eq_cons c rest
  refine ⟨c, (Lexeme.from c rest).text.tail,
    not_mem_blanks_of_dropBlank hbefore (ne_backslash_of_valid hkind), ?_, ?_⟩
  · rw [← htext]
    rfl
  · rw [← htext]
    exact Lexeme.from_alone hkind

theorem Alone.keys_append {t : Token} (h : t.Alone) (hvalid : t.kind ≠ .invalid ∧ t.kind ≠ .comment)
    {tail : List Char} (htail : Stops tail) : keys (t.text.toList ++ tail) = t.key :: keys tail := by
  obtain ⟨c, cs, hc, htext, hlexeme⟩ := h
  have hkind : (Lexeme.from c cs).kind = t.kind := by rw [hlexeme]
  have happend := Lexeme.from_append_of_stops (hkind ▸ hvalid.1) htail
    fun hcomment => absurd (hkind.symm.trans hcomment) hvalid.2
  rw [htext, String.toList_ofList, List.cons_append, keys_lexeme hc, happend, hlexeme, List.nil_append,
    key, htext]

/-- The text of a token that is read alone is cut into just this token. -/
theorem Alone.lexemes {t : Token} (h : t.Alone) :
    lexemes t.text = [⟨t.kind, t.text, ⟨0, byteLength t.text.toList⟩⟩] := by
  obtain ⟨c, cs, hc, htext, hlexeme⟩ := h
  have hdrop : dropBlank (c :: cs) = c :: cs := dropBlank_of_not_mem hc cs
  have htake := takeBlank_of_not_mem hc cs
  have hend : scanFrom (byteLength (c :: cs)) [] = [] := by
    rw [scanFrom]
    rfl
  rw [htext, Token.lexemes, String.toList_ofList, scanFrom_of_dropBlank_eq_cons hdrop, hlexeme, htake,
    byteLength_nil, Nat.add_zero, Nat.zero_add, hend]
  simp only [Lexeme.toToken, Nat.zero_add]

end Token

theorem keys_append_of_stops {cs tail : List Char}
    (h : ∀ t ∈ Token.scanFrom 0 cs, t.kind ≠ .invalid ∧ t.kind ≠ .comment) (htail : Stops tail) :
    keys (cs ++ tail) = keys cs ++ keys tail := by
  rw [keys, Token.scanFrom_append_of_stops (fun t ht => (h t ht).1) htail
    fun t ht hcomment => absurd hcomment (h t ht).2, List.map_append, keys_scanFrom, keys_scanFrom]

/-- Texts without invalid tokens and comments, with a space between any two of them, are read one behind the
other. -/
theorem keys_intercalate {texts : List String}
    (h : ∀ s ∈ texts, ∀ t ∈ Token.lexemes s, t.kind ≠ .invalid ∧ t.kind ≠ .comment) :
    keys (" ".intercalate texts).toList = texts.flatMap fun s => (Token.lexemes s).map Token.key := by
  induction texts with
  | nil => exact keys_of_dropBlank_eq_nil (by simp [dropBlank])
  | cons s texts ih =>
    have hs := h s List.mem_cons_self
    cases texts with
    | nil => simp [keys, Token.lexemes]
    | cons s' texts =>
      rw [String.intercalate_cons_cons, String.toList_append, String.toList_append, List.append_assoc,
        List.flatMap_cons, ← ih fun s hs => h s (List.mem_cons_of_mem _ hs)]
      exact (keys_append_of_stops hs (stops_cons (by decide) _)).trans (congrArg _ (keys_space _))

/-- The texts of tokens with a space between any two of them are read as these tokens. -/
theorem keys_spaced {ts : List Token}
    (h : ∀ t ∈ ts, t.Alone ∧ t.kind ≠ .invalid ∧ t.kind ≠ .comment) :
    keys (" ".intercalate (ts.map Token.text)).toList = ts.map Token.key := by
  induction ts with
  | nil => exact keys_of_dropBlank_eq_nil (by simp [dropBlank])
  | cons t ts ih =>
    obtain ⟨halone, hvalid⟩ := h t List.mem_cons_self
    cases ts with
    | nil =>
      have := halone.keys_append hvalid stops_nil
      rw [List.append_nil, keys_of_dropBlank_eq_nil (show dropBlank [] = [] by simp [dropBlank])] at this
      simpa using this
    | cons u ts =>
      rw [List.map_cons, List.map_cons, String.intercalate_cons_cons, String.toList_append,
        String.toList_append, List.append_assoc, ← List.map_cons]
      exact (halone.keys_append hvalid (stops_cons (by decide) _)).trans
        (congrArg _ ((keys_space _).trans (ih fun t ht => h t (List.mem_cons_of_mem _ ht))))

end FlowTyping
