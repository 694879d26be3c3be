import FlowTyping.Source.Letters
import FlowTyping.Token

/-!
# Scanning

`Token.scan` cuts a text into tokens.  Blanks between tokens are dropped: spaces, tabs, carriage
returns, and a backslash right before a line feed, which continues the line.  Every character of the
text either is such a blank or belongs to exactly one token, because each piece is split off the
front of what is left (`takeBlank_append_dropBlank`, `Lexeme.from_append`).
-/

namespace FlowTyping

/-! ### Blanks -/

/-- The blanks at the front of a text. -/
def takeBlank : List Char → List Char
  | '\\' :: '\n' :: cs => '\\' :: '\n' :: takeBlank cs
  | c :: cs => if c = ' ' ∨ c = '\t' ∨ c = '\r' then c :: takeBlank cs else []
  | [] => []

/-- A text without the blanks at its front. -/
def dropBlank : List Char → List Char
  | '\\' :: '\n' :: cs => dropBlank cs
  | c :: cs => if c = ' ' ∨ c = '\t' ∨ c = '\r' then dropBlank cs else c :: cs
  | [] => []

theorem takeBlank_append_dropBlank (cs : List Char) : takeBlank cs ++ dropBlank cs = cs := by
  fun_induction takeBlank cs with
  | case1 cs ih => simp [dropBlank, ih]
  | case2 c cs h hc ih => simp [dropBlank, hc, ih]
  | case3 c cs h hc => simp [dropBlank, hc]
  | case4 => simp [dropBlank]

theorem length_dropBlank_le (cs : List Char) : (dropBlank cs).length ≤ cs.length := by
  conv => rhs; rw [← takeBlank_append_dropBlank cs, List.length_append]
  omega

/-! ### One lexeme -/

/-- A piece cut off the front of a text: its kind, its characters and what follows it. -/
structure Lexeme where
  kind : Token.Kind
  text : List Char
  rest : List Char
deriving DecidableEq, Repr

/-- The inside of a quoted literal from behind the opening quote, the closing quote included, and
what follows.  A backslash takes the next character with it.  The flag tells whether the closing
quote was there before the end of the line. -/
def scanQuoted (quote : Char) : List Char → Bool × List Char × List Char
  | [] => (false, [], [])
  | '\n' :: cs => (false, [], '\n' :: cs)
  | '\\' :: c :: cs =>
    let (closed, inside, rest) := scanQuoted quote cs
    (closed, '\\' :: c :: inside, rest)
  | c :: cs =>
    if c = quote then (true, [c], cs)
    else
      let (closed, inside, rest) := scanQuoted quote cs
      (closed, c :: inside, rest)

/-- A character of a number after its first digit. -/
def isNumeralInner (c : Char) : Bool := c.isDigit || c == '_'

/-- The rest of a number behind its first digit.  A point belongs to it if a digit follows. -/
def scanNumber (cs : List Char) : Token.Kind × List Char × List Char :=
  let whole := cs.takeWhile isNumeralInner
  match cs.dropWhile isNumeralInner with
  | '.' :: d :: rest =>
    if d.isDigit then
      (.float, whole ++ '.' :: (d :: rest).takeWhile isNumeralInner,
        (d :: rest).dropWhile isNumeralInner)
    else (.int, whole, '.' :: d :: rest)
  | rest => (.int, whole, rest)

/-- The rest of an identifier whose first character has been read.  A final `?` or `!` belongs to it
unless `=` follows. -/
def scanName (cs : List Char) : List Char × List Char :=
  let name := cs.takeWhile Letters.isInner
  match cs.dropWhile Letters.isInner with
  | mark :: rest =>
    if (mark = '?' ∨ mark = '!') ∧ rest.head? ≠ some '=' then (name ++ [mark], rest)
    else (name, mark :: rest)
  | [] => (name, [])

/-- The kind of the tokens that are one fixed character. -/
def punctuation? : Char → Option Token.Kind
  | '\n' => some .newline
  | '(' => some .lparen
  | ')' => some .rparen
  | '{' => some .lbrace
  | '}' => some .rbrace
  | ',' => some .comma
  | ';' => some .semicolon
  | '|' => some .bar
  | '=' => some .eq
  | _ => none

/-- The lexeme that starts with `c`, where `cs` follows `c`. -/
def Lexeme.from (c : Char) (cs : List Char) : Lexeme :=
  match punctuation? c with
  | some kind => ⟨kind, [c], cs⟩
  | none =>
    if c = '#' then ⟨.comment, c :: cs.takeWhile (· != '\n'), cs.dropWhile (· != '\n')⟩
    else if c.isDigit then
      let (kind, digits, rest) := scanNumber cs
      ⟨kind, c :: digits, rest⟩
    else if c = '\'' then
      let (closed, inside, rest) := scanQuoted c cs
      ⟨if closed then .char else .invalid, c :: inside, rest⟩
    else if c = '"' then
      let (closed, inside, rest) := scanQuoted c cs
      ⟨if closed then .string else .invalid, c :: inside, rest⟩
    else if Letters.isStart c then
      let (name, rest) := scanName cs
      ⟨(Token.keyword? (String.ofList (c :: name))).getD .ident, c :: name, rest⟩
    else ⟨.invalid, [c], cs⟩

theorem scanQuoted_append (quote : Char) (cs : List Char) :
    (scanQuoted quote cs).2.1 ++ (scanQuoted quote cs).2.2 = cs := by
  fun_induction scanQuoted quote cs <;> simp_all

theorem scanNumber_append (cs : List Char) : (scanNumber cs).2.1 ++ (scanNumber cs).2.2 = cs := by
  have h := List.takeWhile_append_dropWhile (p := isNumeralInner) (l := cs)
  unfold scanNumber
  split
  · rename_i d rest he
    rw [he] at h
    split
    · simp [List.append_assoc, List.takeWhile_append_dropWhile, h]
    · exact h
  · exact h

theorem scanName_append (cs : List Char) : (scanName cs).1 ++ (scanName cs).2 = cs := by
  have h := List.takeWhile_append_dropWhile (p := Letters.isInner) (l := cs)
  unfold scanName
  split
  · rename_i mark rest he
    rw [he] at h
    split <;> simp [h]
  · rename_i he
    rw [he] at h
    exact h

/-- The text of a lexeme and what follows it are the text that it was cut off. -/
theorem Lexeme.from_append (c : Char) (cs : List Char) :
    (Lexeme.from c cs).text ++ (Lexeme.from c cs).rest = c :: cs := by
  unfold Lexeme.from
  split
  · rfl
  · split
    · simp [List.takeWhile_append_dropWhile]
    · split
      · simp [scanNumber_append]
      · split
        · simp [scanQuoted_append]
        · split
          · simp [scanQuoted_append]
          · split
            · simp [scanName_append]
            · rfl

theorem Lexeme.from_text_ne_nil (c : Char) (cs : List Char) : (Lexeme.from c cs).text ≠ [] := by
  unfold Lexeme.from
  repeat' split
  all_goals simp

theorem Lexeme.length_from_rest_le (c : Char) (cs : List Char) :
    (Lexeme.from c cs).rest.length ≤ cs.length := by
  have h := congrArg List.length (Lexeme.from_append c cs)
  have hne := List.length_pos_iff.mpr (Lexeme.from_text_ne_nil c cs)
  simp only [List.length_append, List.length_cons] at h
  omega

/-! ### The whole text -/

/-- A lexeme as a token that starts at byte `pos`. -/
def Lexeme.toToken (l : Lexeme) (pos : Nat) : Token :=
  ⟨l.kind, String.ofList l.text, ⟨pos, pos + byteLength l.text⟩⟩

/-- The tokens of a text that begins at byte `pos`, the end of the text apart. -/
def Token.scanFrom (pos : Nat) (cs : List Char) : List Token :=
  match _h : dropBlank cs with
  | [] => []
  | c :: rest =>
    let start := pos + byteLength (takeBlank cs)
    let lexeme := Lexeme.from c rest
    lexeme.toToken start :: Token.scanFrom (start + byteLength lexeme.text) lexeme.rest
termination_by cs.length
decreasing_by
  have h₁ := length_dropBlank_le cs
  have h₂ := Lexeme.length_from_rest_le c rest
  rw [_h, List.length_cons] at h₁
  omega

/-- Every token was cut off where the blanks end. -/
theorem Token.exists_lexeme_of_mem_scanFrom {pos : Nat} {cs : List Char} {t : Token}
    (h : t ∈ Token.scanFrom pos cs) : ∃ start c rest,
      (∃ before, dropBlank before = c :: rest) ∧ t = (Lexeme.from c rest).toToken start := by
  fun_induction Token.scanFrom pos cs with
  | case1 => exact absurd h List.not_mem_nil
  | case2 pos cs c rest hcs start lexeme ih =>
    rcases List.mem_cons.1 h with rfl | h
    · exact ⟨start, c, rest, ⟨cs, hcs⟩, rfl⟩
    · exact ih h

/-- All tokens of a text, comments included, without the end of the text. -/
def Token.lexemes (source : String) : List Token := Token.scanFrom 0 source.toList

/-- All tokens of a text, comments included, and behind them the end of the text. -/
def Token.scan (source : String) : List Token :=
  Token.lexemes source ++ [Token.eofAt (byteLength source.toList)]

end FlowTyping
