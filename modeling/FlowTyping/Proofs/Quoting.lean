import FlowTyping.Proofs.Progress
import FlowTyping.Proofs.RoundTrip

/-!
# Quoted text

`Program.quoted_round_trip`: text in quotes, with its escapes, is one token and one literal, the one that
was written.  The scanner and the decoder pair each backslash with the character behind it, so between the
quotes that the scanner finds no backslash stands alone (`Paired`).
-/

namespace FlowTyping

/-! ### Pairs -/

/-- Text in which each backslash has a character behind it that belongs to it. -/
inductive Paired : List Char → Prop
  | nil : Paired []
  | escape {c : Char} {cs : List Char} (h : Paired cs) : Paired ('\\' :: c :: cs)
  | plain {c : Char} {cs : List Char} (hc : c ≠ '\\') (h : Paired cs) : Paired (c :: cs)

theorem Paired.unescape_ne {cs : List Char} (h : Paired cs) : unescape cs ≠ .error .danglingEscape := by
  -- a fault behind a character that was decoded is a fault of the rest
  have hmap {d : Char} {cs : List Char} (h : unescape cs ≠ .error .danglingEscape) :
      (unescape cs).map (d :: ·) ≠ .error .danglingEscape := by
    cases hcs : unescape cs with
    | ok ds => simp [Except.map]
    | error e => exact fun he => h (hcs.trans (congrArg Except.error (Except.error.inj he)))
  induction h with
  | nil => simp [unescape]
  | @escape c cs _ ih =>
    rw [unescape]
    cases escaped? c with
    | some d => exact hmap ih
    | none => simp
  | @plain c cs hc _ ih =>
    rw [unescape]
    · exact hmap ih
    · exact fun h _ => hc h
    · exact fun d ds h _ => hc h

/-- A closing quote is the last character of what is quoted, and the backslashes before it are paired. -/
theorem paired_of_closed {quote : Char} {cs : List Char} (h : (scanQuoted quote cs).1 = true) :
    ∃ inside, (scanQuoted quote cs).2.1 = inside ++ [quote] ∧ Paired inside := by
  fun_induction scanQuoted quote cs with
  | case1 => cases h
  | case2 => cases h
  | case3 c cs closed inside rest hrun ih =>
    rw [hrun] at ih
    obtain ⟨front, rfl, hfront⟩ := ih h
    exact ⟨'\\' :: c :: front, rfl, .escape hfront⟩
  | case4 => exact ⟨[], rfl, .nil⟩
  | case5 c cs hnewline hescape hc closed inside rest hrun ih =>
    -- a backslash that is read on its own is the last character, and no quote comes behind it
    have hne : c ≠ '\\' := by
      rintro rfl
      cases cs with
      | nil => exact absurd (congrArg Prod.fst hrun).symm (by simp_all [scanQuoted])
      | cons d cs => exact hescape d cs rfl rfl
    rw [hrun] at ih
    obtain ⟨front, rfl, hfront⟩ := ih h
    exact ⟨c :: front, rfl, .plain hne hfront⟩

/-- A quoted token has a quote of one byte at either end, and what stands between them is paired. -/
theorem Lexeme.quoted {c : Char} {cs : List Char}
    (h : (Lexeme.from c cs).kind = .char ∨ (Lexeme.from c cs).kind = .string) :
    ∃ quote inside, quote.utf8Size = 1 ∧ (Lexeme.from c cs).text = quote :: (inside ++ [quote]) ∧
      Paired inside := by
  have hquoted {kind : Token.Kind} (hc : c.utf8Size = 1)
      (h : (if (scanQuoted c cs).1 then kind else .invalid) = .char ∨
        (if (scanQuoted c cs).1 then kind else .invalid) = .string) :
      ∃ quote inside, quote.utf8Size = 1 ∧ c :: (scanQuoted c cs).2.1 = quote :: (inside ++ [quote]) ∧
        Paired inside := by
    cases hclosed : (scanQuoted c cs).1 with
    | false => simp [hclosed] at h
    | true =>
      obtain ⟨inside, hinside, hpaired⟩ := paired_of_closed hclosed
      exact ⟨c, inside, hc, congrArg _ hinside, hpaired⟩
  unfold Lexeme.from at h ⊢
  split at h
  · next kind hkind =>
    have hne : kind ≠ .char ∧ kind ≠ .string := by
      unfold punctuation? at hkind
      split at hkind <;> cases hkind <;> decide
    exact absurd h (by simp [hne])
  · split_ifs at h ⊢ with hcomment hdigit hchar hstring hstart
    · simp at h
    · rcases kind_scanNumber cs with hnumber | hnumber <;> simp [hnumber] at h
    · exact hquoted (by rw [hchar]; decide) h
    · exact hquoted (by rw [hstring]; decide) h
    · have hword (kind : Token.Kind) (hkeyword : ∀ e ∈ Token.keywords, e.2 ≠ kind) (hident : .ident ≠ kind) :
          (Token.keyword? (String.ofList (c :: (scanName cs).1))).getD .ident ≠ kind := by
        cases hlookup : Token.keyword? (String.ofList (c :: (scanName cs).1)) with
        | none => exact hident
        | some found =>
          rintro rfl
          exact Token.keyword?_ne hkeyword _ hlookup
      rcases h with h | h
      · exact absurd h (hword .char (by decide) (by decide))
      · exact absurd h (hword .string (by decide) (by decide))
    · simp at h

theorem Token.quoted_of_mem_scanFrom {pos : Nat} {cs : List Char} {t : Token} (ht : t ∈ scanFrom pos cs)
    (hkind : t.kind = .char ∨ t.kind = .string) :
    ∃ quote inside, quote.utf8Size = 1 ∧ t.text.toList = quote :: (inside ++ [quote]) ∧ Paired inside := by
  obtain ⟨start, c, rest, -, rfl⟩ := exists_lexeme_of_mem_scanFrom ht
  obtain ⟨quote, inside, hquote, htext, hpaired⟩ := Lexeme.quoted hkind
  exact ⟨quote, inside, hquote, String.toList_ofList.trans htext, hpaired⟩

/-! ### One token, one literal -/

/-- The whole of a text. -/
def Span.whole (text : String) : Span := ⟨0, byteLength text.toList⟩

/-- Quoted text is one token. -/
theorem Token.lexemes_quoted {quote : Char} {kind : Token.Kind}
    (h : (quote, kind) ∈ [('\'', Token.Kind.char), ('"', .string)]) (cs : List Char) :
    Token.lexemes (String.ofList (Literal.quoted quote cs)) =
      [⟨kind, String.ofList (Literal.quoted quote cs), .whole (String.ofList (Literal.quoted quote cs))⟩] := by
  have hscan (hquote : quote ≠ '\n' ∧ quote ≠ '\\') := scanQuoted_escaped hquote cs []
  have hlexeme : Lexeme.from quote (cs.flatMap (Literal.escaped quote) ++ [quote]) =
      ⟨kind, Literal.quoted quote cs, []⟩ := by
    simp only [List.mem_cons, List.not_mem_nil, or_false, Prod.mk.injEq] at h
    rcases h with ⟨rfl, rfl⟩ | ⟨rfl, rfl⟩ <;> simp [Lexeme.from, punctuation?, hscan, Literal.quoted]
  have hblank : quote ∉ blanks := by
    simp only [List.mem_cons, List.not_mem_nil, or_false, Prod.mk.injEq] at h
    rcases h with ⟨rfl, -⟩ | ⟨rfl, -⟩ <;> decide
  have hdrop := dropBlank_of_not_mem hblank (cs.flatMap (Literal.escaped quote) ++ [quote])
  have htake : takeBlank (Literal.quoted quote cs) = [] := by
    have hcut := takeBlank_append_dropBlank (Literal.quoted quote cs)
    rw [Literal.quoted, hdrop] at hcut
    simpa [Literal.quoted] using hcut
  have hempty (pos : Nat) : Token.scanFrom pos [] = [] := by
    rw [Token.scanFrom]
    rfl
  rw [Token.lexemes, String.toList_ofList, Token.scanFrom]
  split
  · next hnil => exact absurd (hdrop.symm.trans hnil) (by simp)
  · next hcons =>
    obtain ⟨rfl, rfl⟩ := List.cons.inj (hdrop.symm.trans hcons)
    simp only [hlexeme, htake, hempty, Lexeme.toToken, Span.whole, String.toList_ofList, byteLength_nil,
      Nat.zero_add]

/-- A text of one token, which is a literal, is read as this literal. -/
theorem Program.parse_of_literal {source : String} {t : Token} {v : Literal}
    (hsource : Token.lexemes source = [t]) (hkind : t.kind = .char ∨ t.kind = .string)
    (hliteral : t.literal? = some (.ok v)) :
    (Program.parse source).program? = some ⟨[.node 0 t.span (.literal v)]⟩ := by
  have hne : (t.kind != .comment) = true ∧ Cursor.isTerminator t.kind = false ∧
      Parser.closes [] t.kind = false := by
    rcases hkind with hkind | hkind <;> rw [hkind] <;> decide
  have hstart : Cursor.ofText source = { rest := [t], stop := byteLength source.toList } := by
    simp [Cursor.ofText, Cursor.start, hsource, hne]
  rw [parse_eq, reading, hstart]
  generalize hc : ({ rest := [t], stop := byteLength source.toList } : Cursor) = c
  have hcurrent : c.current = t := hc ▸ rfl
  have hexpr (fuel : Nat) : Parser.expr (fuel + 1) true c =
      .ok (.node 0 t.span (.literal v)) { c with rest := [], nextId := 1 } := by
    have hprimary : Parser.expr (fuel + 1) true c = Parser.primary (Parser.expr fuel) c := by
      rw [Parser.expr, Parser.exprLayer_run, Cursor.kind, hcurrent]
      rcases hkind with hkind | hkind <;> rw [hkind]
    rw [hprimary, Parser.primary_run, hcurrent, hliteral]
    subst hc
    rfl
  have hlength : c.rest.length = 1 := hc ▸ rfl
  have hskip : c.skipTerminators = c := by
    subst hc
    simp [Cursor.skipTerminators, hne]
  have hdone : ({ c with rest := [], nextId := 1 } : Cursor).kind = .eof := hc ▸ rfl
  rw [hlength, Parser.statements, hskip, Cursor.kind, hcurrent]
  simp only [hne, hexpr, hdone, Bool.false_eq_true, if_false]
  subst hc
  rfl

/-- As a token and as a program, a text is a literal. -/
structure Literal.ReadFrom (v : Literal) (text : String) : Prop where
  scan : Token.scan text = [⟨v.kind, text, .whole text⟩, .eofAt (byteLength text.toList)]
  parse : (Program.parse text).program? = some ⟨[.node 0 (.whole text) (.literal v)]⟩

theorem Literal.readFrom_quoted {v : Literal} {quote : Char} {cs : List Char}
    (h : (quote, v.kind) ∈ [('\'', Token.Kind.char), ('"', .string)])
    (htext : v.text = String.ofList (quoted quote cs)) : v.ReadFrom (String.ofList (quoted quote cs)) := by
  have hlexemes := Token.lexemes_quoted h cs
  have hkind : v.kind = .char ∨ v.kind = .string := by
    simp only [List.mem_cons, List.not_mem_nil, or_false, Prod.mk.injEq] at h
    exact h.imp And.right And.right
  have hliteral : (Token.mk v.kind (String.ofList (quoted quote cs))
      (.whole (String.ofList (quoted quote cs)))).literal? = some (.ok v) := by
    refine Parser.literal?_of_key (congrArg _ htext.symm) ?_ ?_
    · cases v with
      | int => rcases hkind with hkind | hkind <;> cases hkind
      | _ => trivial
    · rintro x rfl
      exact absurd hkind (by simp [kind])
  exact ⟨by rw [Token.scan, hlexemes]; rfl, Program.parse_of_literal hlexemes hkind hliteral⟩

/-- Each text and each character, put in quotes with its escapes, is one token and one literal, which is
what was put in; and decoding the inside of a quoted token never comes upon a backslash that stands alone. -/
theorem Program.quoted_round_trip :
    (∀ s : String, (Literal.str s).ReadFrom (String.ofList (Literal.quoted '"' s.toList))) ∧
    (∀ c : Char, (Literal.char c).ReadFrom (String.ofList (Literal.quoted '\'' [c]))) ∧
    ∀ source, ∀ t ∈ Token.scan source, t.kind = .string ∨ t.kind = .char →
      unescape (insideQuotes t.text.toList) ≠ .error .danglingEscape := by
  refine ⟨fun s => Literal.readFrom_quoted (by simp [Literal.kind]) rfl,
    fun c => Literal.readFrom_quoted (by simp [Literal.kind]) rfl, ?_⟩
  intro source t ht hkind
  rcases List.mem_append.1 ht with ht | ht
  · obtain ⟨quote, inside, -, htext, hpaired⟩ := Token.quoted_of_mem_scanFrom ht hkind.symm
    rw [htext, insideQuotes, List.tail_cons, List.dropLast_concat]
    exact hpaired.unescape_ne
  · rw [List.mem_singleton.1 ht] at hkind
    exact absurd hkind (by simp [Token.eofAt])

/-- A token whose inside ends in an escaped backslash. -/
theorem Program.quoted_round_trip_backslash :
    (⟨.string, "\"\\\\\"", ⟨0, 4⟩⟩ : Token) ∈ Token.scan "\"\\\\\"" ∧
      unescape (insideQuotes "\"\\\\\"".toList) ≠ .error .danglingEscape := by
  have hmem : (⟨.string, "\"\\\\\"", ⟨0, 4⟩⟩ : Token) ∈ Token.scan "\"\\\\\"" := by
    have htext : String.ofList (Literal.quoted '"' "\\".toList) = "\"\\\\\"" := by decide
    rw [← htext, (Program.quoted_round_trip.1 "\\").scan]
    decide
  exact ⟨hmem, Program.quoted_round_trip.2.2 _ _ hmem (.inl rfl)⟩

end FlowTyping
