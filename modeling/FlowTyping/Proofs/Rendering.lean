import FlowTyping.Proofs.Declarations

/-!
# Programs as source text

`Program.render` writes a program in one canonical way: statements with `; ` between them, arguments
always in parentheses, blocks always in braces.  `Program.spelling` lists the tokens of that text, and
`Program.spells_render` says that the scanner cuts the text into just these.

A piece of text is cut into the same tokens wherever it stands if what follows it cannot belong to its
last token.  Names and numbers (`Spells`) need a `Breaks` behind them; the marks between them have none
that could grow (`Free`), and most of them break what stands before (`Glue`).
-/

namespace FlowTyping

/-! ### The text -/

namespace Literal

/-- A character as it stands between quotes. -/
def escaped (quote c : Char) : List Char :=
  if c = '\n' then ['\\', 'n'] else if c = '\\' ∨ c = quote then ['\\', c] else [c]

def quoted (quote : Char) (cs : List Char) : List Char :=
  quote :: (cs.flatMap (escaped quote) ++ [quote])

/-- The text of a literal.  A float has none here. -/
def text : Literal → String
  | int v => String.ofList (Decimal.intDigits v.toInt)
  | float _ => ""
  | char c => String.ofList (quoted '\'' [c])
  | str s => String.ofList (quoted '"' s.toList)
  | bool true => "true"
  | bool false => "false"
  | nil => "nil"

/-- The kind of the token that a literal is written as. -/
def kind : Literal → Token.Kind
  | int _ => .int
  | float _ => .float
  | char _ => .char
  | str _ => .string
  | bool true => .trueKw
  | bool false => .falseKw
  | nil => .nilKw

end Literal

/-- Statements one after the other. -/
def sequenceText (stmts : List String) : String := "; ".intercalate stmts

/-- Arguments one after the other. -/
def listText (items : List String) : String := ", ".intercalate items

def namesText (params : List Ident) : String := listText (params.map Ident.name)

/-- The text of the block of a call, if it has one. -/
def Block.text : Option (Block String) → String
  | none => ""
  | some b =>
    " \x7b " ++ (if b.params = [] then "" else "|" ++ namesText b.params ++ "| ") ++
      sequenceText b.body ++ " \x7d"

/-- The text of an else part, up to the `end`. -/
def elseText : Option (List String) → String
  | none => ""
  | some stmts => "else" ++ "; " ++ sequenceText stmts ++ "; "

/-- The text of a layer from the texts of its parts. -/
def Form.text : Form String → String
  | literal v => v.text
  | var name => name
  | assign target value => target.name ++ " = " ++ value
  | call name _ args block => name ++ "(" ++ listText args ++ ")" ++ Block.text block
  | yield args => "yield" ++ "(" ++ listText args ++ ")"
  | branch cond thenBody elseBody =>
    "if" ++ " " ++ cond ++ "; " ++ sequenceText thenBody ++ "; " ++ elseText elseBody ++ "end"
  | loop cond body => "while" ++ " " ++ cond ++ "; " ++ sequenceText body ++ "; " ++ "end"
  | define d =>
    "def" ++ " " ++ d.name.name ++ "(" ++ namesText d.params ++ "); " ++ sequenceText d.body ++ "; " ++
      "end"

def Expr.text : Expr → String := fold fun _ _ form => form.text

/-- The canonical text of a program. -/
def Program.render (p : Program) : String := sequenceText (p.stmts.map Expr.text)

/-- Whether a layer is a float literal. -/
def Form.isFloat : Form α → Bool
  | literal (.float _) => true
  | _ => false

/-- Whether a float literal occurs in an expression. -/
def Expr.hasFloat : Expr → Bool := fold fun _ _ form => form.isFloat || form.parts.any (·)

/-- Whether a float literal occurs in a program. -/
def Program.hasFloat (p : Program) : Bool := p.stmts.any Expr.hasFloat

theorem Expr.hasFloat_eq (e : Expr) : e.hasFloat = (e.form.isFloat || e.form.parts.any hasFloat) := by
  have hmap : (e.form.map hasFloat).isFloat = e.form.isFloat := by
    rcases e.form with (_ | _ | _ | _ | _ | _) | _ | _ | _ | _ | _ | _ | _ <;> rfl
  conv => lhs; rw [eta e, hasFloat, fold_node]
  rw [Form.parts_map, List.any_map]
  exact congrArg (· || _) hmap

/-- In a program without floats no expression is one. -/
theorem Program.Has.not_float {p : Program} {e : Expr} (h : p.hasFloat = false) (he : p.Has e)
    (x : Binary64) : e.form ≠ .literal (.float x) := by
  have hexpr : e.hasFloat = false := by
    induction he with
    | stmt he => exact Bool.eq_false_of_not_eq_true (List.any_eq_false.1 h _ he)
    | part _ hpart ih =>
      rw [Expr.hasFloat_eq, Bool.or_eq_false_iff] at ih
      exact Bool.eq_false_of_not_eq_true (List.any_eq_false.1 ih.2 _ hpart)
  intro hform
  rw [Expr.hasFloat_eq, hform] at hexpr
  cases hexpr

theorem Expr.text_node (id : NodeId) (span : Span) (form : Form Expr) :
    (node id span form).text = (form.map text).text := fold_node ..

/-! ### Its tokens -/

/-- A token wherever it stands. -/
abbrev Token.Key := Token.Kind × String

open Token (Key)

def Token.key (t : Token) : Key := (t.kind, t.text)

def Literal.key (v : Literal) : Key := (v.kind, v.text)

/-- Statements one after the other. -/
def sequenceKeys (stmts : List (List Key)) : List Key := [(.semicolon, ";")].intercalate stmts

/-- Arguments one after the other. -/
def listKeys (items : List (List Key)) : List Key := [(.comma, ",")].intercalate items

/-- A name as it is spelled where it is bound. -/
def Ident.spelling (i : Ident) : List Key := [(.ident, i.name)]

def namesKeys (params : List Ident) : List Key := listKeys (params.map Ident.spelling)

/-- The tokens of the block of a call, if it has one. -/
def Block.spelling : Option (Block (List Key)) → List Key
  | none => []
  | some b =>
    [(.lbrace, "\x7b")] ++
      (if b.params = [] then [] else [(.bar, "|")] ++ namesKeys b.params ++ [(.bar, "|")]) ++
      sequenceKeys b.body ++ [(.rbrace, "\x7d")]

/-- The tokens of an else part, up to the `end`. -/
def elseKeys : Option (List (List Key)) → List Key
  | none => []
  | some stmts =>
    [(.elseKw, "else")] ++ [(.semicolon, ";")] ++ sequenceKeys stmts ++ [(.semicolon, ";")]

/-- The tokens of a layer from the tokens of its parts. -/
def Form.spelling : Form (List Key) → List Key
  | literal v => [v.key]
  | var name => [(.ident, name)]
  | assign target value => target.spelling ++ [(.eq, "=")] ++ value
  | call name _ args block =>
    [(.ident, name)] ++ [(.lparen, "(")] ++ listKeys args ++ [(.rparen, ")")] ++ Block.spelling block
  | yield args => [(.yieldKw, "yield")] ++ [(.lparen, "(")] ++ listKeys args ++ [(.rparen, ")")]
  | branch cond thenBody elseBody =>
    [(.ifKw, "if")] ++ cond ++ [(.semicolon, ";")] ++ sequenceKeys thenBody ++ [(.semicolon, ";")] ++
      elseKeys elseBody ++ [(.endKw, "end")]
  | loop cond body =>
    [(.whileKw, "while")] ++ cond ++ [(.semicolon, ";")] ++ sequenceKeys body ++ [(.semicolon, ";")] ++
      [(.endKw, "end")]
  | define d =>
    [(.defKw, "def")] ++ d.name.spelling ++ [(.lparen, "(")] ++ namesKeys d.params ++
      [(.rparen, ")"), (.semicolon, ";")] ++ sequenceKeys d.body ++ [(.semicolon, ";")] ++
      [(.endKw, "end")]

def Expr.spelling : Expr → List Key := fold fun _ _ form => form.spelling

/-- The tokens of the canonical text of a program. -/
def Program.spelling (p : Program) : List Key := sequenceKeys (p.stmts.map Expr.spelling)

theorem Expr.spelling_node (id : NodeId) (span : Span) (form : Form Expr) :
    (node id span form).spelling = (form.map spelling).spelling := fold_node ..

/-! ### Scanning -/

/-- The tokens of a text, wherever it stands. -/
def keys (cs : List Char) : List Key := (Token.scanFrom 0 cs).map Token.key

theorem keys_scanFrom (pos : Nat) (cs : List Char) :
    (Token.scanFrom pos cs).map Token.key = keys cs := by
  have hpos (pos pos' : Nat) :
      (Token.scanFrom pos cs).map Token.key = (Token.scanFrom pos' cs).map Token.key := by
    fun_induction Token.scanFrom pos cs generalizing pos' with
    | case1 pos cs hcs =>
      rw [Token.scanFrom]
      split <;> simp_all
    | case2 pos cs c rest hcs start lexeme ih =>
      conv => rhs; rw [Token.scanFrom]
      split
      · simp_all
      · next hcs' =>
        obtain ⟨rfl, rfl⟩ := List.cons.inj (hcs.symm.trans hcs')
        exact congrArg₂ List.cons rfl (ih _)
  exact hpos pos 0

section
variable {c : Char} {cs rest : List Char}

theorem keys_of_dropBlank_eq_nil (h : dropBlank cs = []) : keys cs = [] := by
  rw [keys, Token.scanFrom]
  split <;> simp_all

theorem keys_of_dropBlank_eq_cons (h : dropBlank cs = c :: rest) :
    keys cs = ((Lexeme.from c rest).kind, String.ofList (Lexeme.from c rest).text) ::
      keys (Lexeme.from c rest).rest := by
  rw [keys, Token.scanFrom]
  split
  · simp_all
  · next hcs =>
    obtain ⟨rfl, rfl⟩ := List.cons.inj (h.symm.trans hcs)
    exact congrArg (List.cons _) (keys_scanFrom _ _)

theorem keys_space (cs : List Char) : keys (' ' :: cs) = keys cs := by
  have hdrop : dropBlank (' ' :: cs) = dropBlank cs := by simp [dropBlank]
  cases hcs : dropBlank cs with
  | nil => rw [keys_of_dropBlank_eq_nil hcs, keys_of_dropBlank_eq_nil (hdrop.trans hcs)]
  | cons c rest => rw [keys_of_dropBlank_eq_cons hcs, keys_of_dropBlank_eq_cons (hdrop.trans hcs)]

/-- Where blanks begin. -/
def blanks : List Char := [' ', '\t', '\r', '\\']

theorem dropBlank_of_not_mem (hc : c ∉ blanks) (cs : List Char) : dropBlank (c :: cs) = c :: cs := by
  simp only [blanks, List.mem_cons, List.not_mem_nil, or_false, not_or] at hc
  rw [dropBlank]
  · simp [hc]
  · rintro cs' rfl
    exact absurd rfl hc.2.2.2

theorem keys_lexeme (hc : c ∉ blanks) (cs : List Char) :
    keys (c :: cs) = ((Lexeme.from c cs).kind, String.ofList (Lexeme.from c cs).text) ::
      keys (Lexeme.from c cs).rest :=
  keys_of_dropBlank_eq_cons (dropBlank_of_not_mem hc cs)

theorem keys_punctuation {kind : Token.Kind} (h : punctuation? c = some kind) (cs : List Char) :
    keys (c :: cs) = (kind, String.ofList [c]) :: keys cs := by
  have hc : c ∉ blanks := by
    intro hmem
    simp only [blanks, List.mem_cons, List.not_mem_nil, or_false] at hmem
    rcases hmem with rfl | rfl | rfl | rfl <;> cases h
  rw [keys_lexeme hc]
  simp only [Lexeme.from, h]

/-- A space, or a character that is a token of its own. -/
def isMark (c : Char) : Bool := c == ' ' || (punctuation? c).isSome

/-- The token of a mark.  A space is none. -/
def markKey? (c : Char) : Option Key := (punctuation? c).map (·, String.ofList [c])

theorem keys_marks (h : cs.all isMark = true) (rest : List Char) :
    keys (cs ++ rest) = cs.filterMap markKey? ++ keys rest := by
  induction cs with
  | nil => rfl
  | cons c cs ih =>
    simp only [List.all_cons, Bool.and_eq_true, isMark, Bool.or_eq_true, beq_iff_eq] at h
    have ih := ih h.2
    rcases h.1 with rfl | hc
    · rw [List.cons_append, keys_space, ih]
      rfl
    · obtain ⟨kind, hkind⟩ := Option.isSome_iff_exists.1 hc
      have hkey : markKey? c = some (kind, String.ofList [c]) := by rw [markKey?, hkind]; rfl
      rw [List.cons_append, keys_punctuation hkind, ih, List.filterMap_cons_some hkey, List.cons_append]

/-- The characters that begin something else than a name or a number. -/
def marks : List Char := ['\n', '(', ')', '{', '}', ',', ';', '|', '=', '#', '\'', '"']

theorem punctuation?_eq_none (h : c ∉ marks) : punctuation? c = none := by
  simp only [marks, List.mem_cons, List.not_mem_nil, or_false, not_or] at h
  unfold punctuation?
  split <;> simp_all

/-- What may follow a name or a number without being taken for a part of it. -/
def breakers : List Char := [' ', '(', ')', ',', ';', '|']

def Breaks (rest : List Char) : Prop := ∀ c ∈ rest.head?, c ∈ breakers

theorem breaks_nil : Breaks [] := fun _ h => by cases h

theorem Breaks.stops (h : Breaks rest) {p : Char → Bool} (hp : (breakers.any p) = false) :
    rest.takeWhile p = [] ∧ rest.dropWhile p = rest := by
  cases rest with
  | nil => exact ⟨rfl, rfl⟩
  | cons c rest => simp [List.any_eq_false.1 hp c (h c rfl)]

/-- A name is read up to what follows it. -/
theorem scanName_append_breaks (hname : scanName cs = (cs, [])) (h : Breaks rest) :
    scanName (cs ++ rest) = (cs, rest) := by
  obtain ⟨htake, hdrop⟩ := h.stops (p := Letters.isInner) (by decide +kernel)
  have hinner (c : Char) (hc : c ∈ cs.takeWhile Letters.isInner) : Letters.isInner c = true :=
    List.all_eq_true.1 List.all_takeWhile c hc
  have hcs := List.takeWhile_append_dropWhile (p := Letters.isInner) (l := cs)
  have hmark := List.head?_dropWhile_not Letters.isInner cs
  unfold scanName at hname
  generalize cs.takeWhile Letters.isInner = name at *
  split at hname
  · next mark tail htail =>
    rw [htail] at hcs hmark
    split at hname
    · next hlast =>
      obtain ⟨rfl, rfl⟩ := Prod.mk.inj hname
      have hnot : Letters.isInner mark = false := by simpa using hmark
      have hrest : rest.head? ≠ some '=' := fun heq => absurd (h _ heq) (by decide)
      unfold scanName
      rw [List.append_assoc, List.takeWhile_append_of_pos hinner, List.dropWhile_append_of_pos hinner]
      simp [hnot, hlast.1, hrest]
    · exact absurd (Prod.mk.inj hname).2 (List.cons_ne_nil _ _)
  · obtain ⟨rfl, -⟩ := Prod.mk.inj hname
    unfold scanName
    rw [List.takeWhile_append_of_pos hinner, List.dropWhile_append_of_pos hinner, htake, hdrop]
    cases rest with
    | nil => simp
    | cons c rest =>
      have hc : c ∈ breakers := h c rfl
      have hmark : ¬ (c = '?' ∨ c = '!') := by
        rintro (rfl | rfl) <;> exact absurd hc (by decide)
      simp [hmark]

theorem isStart_eq_false_of_isDigit (h : c.isDigit = true) : Letters.isStart c = false := by
  have hbounds : 48 ≤ c.toNat ∧ c.toNat ≤ 57 := by
    simpa [Char.isDigit, UInt32.le_iff_toNat_le] using h
  have hall : ∀ n, n < 58 → Letters.isStart (Char.ofNat n) = true → n < 48 := by decide +kernel
  have hc := hall c.toNat (by omega)
  rw [Char.ofNat_toNat] at hc
  cases hstart : Letters.isStart c with
  | false => rfl
  | true => have := hc hstart; omega

/-- A word is a name or a keyword. -/
theorem keys_word (hstart : Letters.isStart c = true) (hname : scanName cs = (cs, []))
    (h : Breaks rest) : keys (c :: (cs ++ rest)) =
      ((Token.keyword? (String.ofList (c :: cs))).getD .ident, String.ofList (c :: cs)) ::
        keys rest := by
  have hother : (blanks ++ marks).any Letters.isStart = false := by decide +kernel
  have hplain : c ∉ blanks ++ marks := fun hc => List.any_eq_false.1 hother c hc hstart
  simp only [List.mem_append, not_or] at hplain
  have hdigit : c.isDigit = false := by
    cases hdigit : c.isDigit with
    | false => rfl
    | true => simp [isStart_eq_false_of_isDigit hdigit] at hstart
  have hquote : c ≠ '#' ∧ c ≠ '\'' ∧ c ≠ '"' := by
    refine ⟨?_, ?_, ?_⟩ <;> rintro rfl <;> exact hplain.2 (by decide)
  rw [keys_lexeme hplain.1]
  simp only [Lexeme.from, punctuation?_eq_none hplain.2, hquote, hdigit, hstart,
    scanName_append_breaks hname h, if_false, if_true, Bool.false_eq_true]

/-- A row of digits is read up to what follows it. -/
theorem keys_digits (hdigits : ∀ d ∈ c :: cs, d.isDigit = true) (h : Breaks rest) :
    keys (c :: (cs ++ rest)) = (.int, String.ofList (c :: cs)) :: keys rest := by
  have hother : (blanks ++ marks).any Char.isDigit = false := by decide +kernel
  have hdigit : c.isDigit = true := hdigits c List.mem_cons_self
  have hplain : c ∉ blanks ++ marks := fun hc => List.any_eq_false.1 hother c hc hdigit
  simp only [List.mem_append, not_or] at hplain
  have hhash : c ≠ '#' := by rintro rfl; exact hplain.2 (by decide)
  have hscan : scanNumber (cs ++ rest) = (.int, cs, rest) := by
    obtain ⟨htake, hdrop⟩ := h.stops (p := isNumeralInner) (by decide +kernel)
    have hinner : ∀ d ∈ cs, isNumeralInner d = true := fun d hd => by
      simp [isNumeralInner, hdigits d (List.mem_cons_of_mem _ hd)]
    unfold scanNumber
    rw [List.takeWhile_append_of_pos hinner, List.dropWhile_append_of_pos hinner, htake, hdrop]
    split
    · exact absurd (h '.' rfl) (by decide)
    · simp
  rw [keys_lexeme hplain.1]
  simp only [Lexeme.from, punctuation?_eq_none hplain.2, hhash, hdigit, hscan, if_false, if_true]

theorem Literal.escaped_cases (quote c : Char) :
    (c = '\n' ∧ escaped quote c = ['\\', 'n']) ∨ ((c = '\\' ∨ c = quote) ∧ escaped quote c = ['\\', c]) ∨
      (c ≠ '\n' ∧ c ≠ '\\' ∧ c ≠ quote ∧ escaped quote c = [c]) := by
  unfold escaped
  split_ifs <;> simp_all

theorem scanQuoted_escaped {quote : Char} (hquote : quote ≠ '\n' ∧ quote ≠ '\\') (cs rest : List Char) :
    scanQuoted quote (cs.flatMap (Literal.escaped quote) ++ quote :: rest) =
      (true, cs.flatMap (Literal.escaped quote) ++ [quote], rest) := by
  induction cs with
  | nil => simp [scanQuoted, hquote]
  | cons c cs ih =>
    rw [List.flatMap_cons, List.append_assoc, List.append_assoc]
    rcases Literal.escaped_cases quote c with ⟨rfl, hc⟩ | ⟨-, hc⟩ | ⟨hnewline, hbackslash, hother, hc⟩
    · simp [hc, scanQuoted, ih]
    · simp [hc, scanQuoted, ih]
    · simp [hc, scanQuoted, hbackslash, hother, ih]

/-- Quoted text is read up to the closing quote. -/
theorem keys_quoted {quote : Char} {kind : Token.Kind}
    (h : (quote, kind) ∈ [('\'', Token.Kind.char), ('"', .string)]) (cs rest : List Char) :
    keys (Literal.quoted quote cs ++ rest) =
      (kind, String.ofList (Literal.quoted quote cs)) :: keys rest := by
  have hscan (hquote : quote ≠ '\n' ∧ quote ≠ '\\') := scanQuoted_escaped hquote cs rest
  simp only [List.mem_cons, List.not_mem_nil, or_false, Prod.mk.injEq] at h
  rw [Literal.quoted, List.cons_append, List.append_assoc, List.singleton_append]
  rcases h with ⟨rfl, rfl⟩ | ⟨rfl, rfl⟩ <;>
    rw [keys_lexeme (by decide)] <;> simp [Lexeme.from, punctuation?, hscan]

/-- What stands between quotes stands for the text that was quoted. -/
theorem unescape_escaped {quote : Char} (hquote : escaped? quote = some quote) (cs : List Char) :
    unescape (cs.flatMap (Literal.escaped quote)) = .ok cs := by
  induction cs with
  | nil => rfl
  | cons c cs ih =>
    rw [List.flatMap_cons]
    rcases Literal.escaped_cases quote c with ⟨rfl, hc⟩ | ⟨rfl | rfl, hc⟩ | ⟨-, hbackslash, -, hc⟩
    · simp [hc, unescape, escaped?, ih, Except.map]
    · simp [hc, unescape, escaped?, ih, Except.map]
    · simp [hc, unescape, hquote, ih, Except.map]
    · simp [hc, unescape, hbackslash, ih, Except.map]

end

/-! ### The scanner on the canonical text -/

/-- No line feeds and no comments, which the parser passes over. -/
def Plain (ks : List Key) : Prop := ∀ k ∈ ks, k.1 ≠ .newline ∧ k.1 ≠ .comment

instance (ks : List Key) : Decidable (Plain ks) := inferInstanceAs (Decidable (∀ _ ∈ _, _))

theorem Plain.append {ks ks' : List Key} (h : Plain ks) (h' : Plain ks') : Plain (ks ++ ks') :=
  List.forall_mem_append.2 ⟨h, h'⟩

/-- A text that is cut into these tokens if what follows cannot belong to it. -/
structure Spells (text : String) (ks : List Key) : Prop where
  plain : Plain ks
  keys : ∀ rest, Breaks rest → keys (text.toList ++ rest) = ks ++ keys rest

/-- A text that is cut into these tokens whatever follows. -/
structure Free (text : String) (ks : List Key) : Prop where
  plain : Plain ks
  keys : ∀ rest, keys (text.toList ++ rest) = ks ++ keys rest

/-- A text of marks and spaces that ends what stands before it. -/
structure Glue (text : String) (ks : List Key) : Prop where
  free : Free text ks
  breaks : ∀ rest, Breaks (text.toList ++ rest)

variable {text text' : String} {ks ks' : List Key}

theorem Free.spells (h : Free text ks) : Spells text ks := ⟨h.plain, fun rest _ => h.keys rest⟩

theorem Free.nil : Free "" [] := ⟨by decide, fun _ => rfl⟩

theorem Free.append (h : Free text ks) (h' : Spells text' ks') :
    Spells (text ++ text') (ks ++ ks') := by
  refine ⟨h.plain.append h'.plain, fun rest hrest => ?_⟩
  rw [String.toList_append, List.append_assoc, h.keys, h'.keys rest hrest, List.append_assoc]

theorem Free.join (h : Free text ks) (h' : Free text' ks') : Free (text ++ text') (ks ++ ks') := by
  refine ⟨h.plain.append h'.plain, fun rest => ?_⟩
  rw [String.toList_append, List.append_assoc, h.keys, h'.keys, List.append_assoc]

theorem Spells.glue (h : Spells text ks) (h' : Glue text' ks') : Free (text ++ text') (ks ++ ks') := by
  refine ⟨h.plain.append h'.free.plain, fun rest => ?_⟩
  rw [String.toList_append, List.append_assoc, h.keys _ (h'.breaks rest), h'.free.keys,
    List.append_assoc]

theorem Free.of_marks (h : text.toList.all isMark = true)
    (hks : text.toList.filterMap markKey? = ks) (hplain : Plain ks) : Free text ks :=
  ⟨hplain, fun rest => by rw [keys_marks h, hks]⟩

theorem Glue.of_marks (h : text.toList.all isMark = true)
    (hks : text.toList.filterMap markKey? = ks) (hplain : Plain ks)
    (hhead : text.toList.head?.any (breakers.contains ·) = true) : Glue text ks := by
  refine ⟨.of_marks h hks hplain, fun rest c hc => ?_⟩
  obtain ⟨d, htext, hd⟩ := (Option.any_eq_true _ _).1 hhead
  rw [List.head?_append, htext, Option.some_or] at hc
  exact Option.some.inj hc ▸ List.contains_iff_mem.1 hd

theorem glue_space : Glue " " [] := .of_marks (by decide) rfl (by decide) (by decide)

theorem glue_eq : Glue " = " [(.eq, "=")] := .of_marks (by decide) rfl (by decide) (by decide)

theorem glue_lparen : Glue "(" [(.lparen, "(")] := .of_marks (by decide) rfl (by decide) (by decide)

theorem glue_rparen : Glue ")" [(.rparen, ")")] := .of_marks (by decide) rfl (by decide) (by decide)

theorem glue_comma : Glue ", " [(.comma, ",")] := .of_marks (by decide) rfl (by decide) (by decide)

theorem glue_semicolon : Glue "; " [(.semicolon, ";")] :=
  .of_marks (by decide) rfl (by decide) (by decide)

theorem glue_header : Glue "); " [(.rparen, ")"), (.semicolon, ";")] :=
  .of_marks (by decide) rfl (by decide) (by decide)

theorem glue_bar : Glue "| " [(.bar, "|")] := .of_marks (by decide) rfl (by decide) (by decide)

theorem glue_rbrace : Glue " \x7d" [(.rbrace, "\x7d")] :=
  .of_marks (by decide) rfl (by decide) (by decide)

theorem free_lbrace : Free " \x7b " [(.lbrace, "\x7b")] := .of_marks (by decide) rfl (by decide)

theorem free_bar : Free "|" [(.bar, "|")] := .of_marks (by decide) rfl (by decide)

theorem Spells.word {c : Char} {cs : List Char} {kind : Token.Kind} (htext : text.toList = c :: cs)
    (hstart : Letters.isStart c = true) (hname : scanName cs = (cs, []))
    (hkind : (Token.keyword? text).getD .ident = kind) (hplain : Plain [(kind, text)]) :
    Spells text [(kind, text)] := by
  have hofList : String.ofList (c :: cs) = text := by rw [← htext, String.ofList_toList]
  refine ⟨hplain, fun rest hrest => ?_⟩
  rw [htext, List.cons_append, keys_word hstart hname hrest, hofList, hkind, List.singleton_append]

theorem Spells.name (h : IsName text) : Spells text [(.ident, text)] := by
  obtain ⟨c, cs, htext, hstart, hname, hkeyword⟩ := h
  exact word htext hstart hname (by rw [hkeyword]; rfl) (by simp [Plain])

theorem spells_if : Spells "if" [(.ifKw, "if")] := .word rfl rfl rfl rfl (by decide)

theorem spells_else : Spells "else" [(.elseKw, "else")] := .word rfl rfl rfl rfl (by decide)

theorem spells_end : Spells "end" [(.endKw, "end")] := .word rfl rfl rfl rfl (by decide)

theorem spells_while : Spells "while" [(.whileKw, "while")] := .word rfl rfl rfl rfl (by decide)

theorem spells_def : Spells "def" [(.defKw, "def")] := .word rfl rfl rfl rfl (by decide)

theorem spells_yield : Spells "yield" [(.yieldKw, "yield")] := .word rfl rfl rfl rfl (by decide)

theorem spells_true : Spells "true" [(.trueKw, "true")] := .word rfl rfl rfl rfl (by decide)

theorem spells_false : Spells "false" [(.falseKw, "false")] := .word rfl rfl rfl rfl (by decide)

theorem spells_nil : Spells "nil" [(.nilKw, "nil")] := .word rfl rfl rfl rfl (by decide)

theorem Literal.spells {v : Literal} (h : v.Spellable) (hfloat : ∀ x, v ≠ .float x) :
    Spells v.text [v.key] := by
  cases v with
  | int v =>
    have hpos : ¬ v.toInt < 0 := Int.not_lt.2 h
    have hdigits (d : Char) (hd : d ∈ Decimal.digits v.toInt.natAbs) := Decimal.isDigit_of_mem_digits hd
    have hne := Decimal.digits_ne_nil v.toInt.natAbs
    refine ⟨by simp [Plain, key, kind], fun rest hrest => ?_⟩
    simp only [key, kind, text, Decimal.intDigits, if_neg hpos, String.toList_ofList]
    generalize Decimal.digits v.toInt.natAbs = ds at *
    cases ds with
    | nil => exact absurd rfl hne
    | cons d ds => exact keys_digits hdigits hrest
  | float x => exact absurd rfl (hfloat x)
  | char c =>
    refine ⟨by simp [Plain, key, kind], fun rest _ => ?_⟩
    simp only [key, kind, text, String.toList_ofList]
    exact keys_quoted (by simp) [c] rest
  | str s =>
    refine ⟨by simp [Plain, key, kind], fun rest _ => ?_⟩
    simp only [key, kind, text, String.toList_ofList]
    exact keys_quoted (by simp) s.toList rest
  | bool b =>
    cases b with
    | true => exact spells_true
    | false => exact spells_false
  | nil => exact spells_nil

/-- With separators between them. -/
theorem Spells.intercalate {sep : String} {sepKeys : List Key} (hsep : Glue sep sepKeys)
    {items : List α} {f : α → String} {g : α → List Key} (h : ∀ a ∈ items, Spells (f a) (g a)) :
    Spells (sep.intercalate (items.map f)) (sepKeys.intercalate (items.map g)) := by
  induction items with
  | nil => exact Free.nil.spells
  | cons a items ih =>
    have ha := h a List.mem_cons_self
    have ih := ih fun b hb => h b (List.mem_cons_of_mem _ hb)
    cases items with
    | nil => simpa using ha
    | cons b items =>
      have := (ha.glue hsep).append ih
      simpa only [List.map_cons, String.intercalate_cons_cons, List.intercalate_cons_cons] using this

theorem Naming.Run.exists {R : Naming → α → Naming → Prop} {σ τ : Naming} {as : List α} {a : α}
    (h : Run R σ as τ) (ha : a ∈ as) : ∃ ρ υ, R ρ a υ := by
  induction as generalizing σ with
  | nil => exact absurd ha List.not_mem_nil
  | cons b as ih =>
    obtain ⟨ρ, hb, hrest⟩ := h
    rcases List.mem_cons.1 ha with rfl | ha
    · exact ⟨σ, ρ, hb⟩
    · exact ih hrest ha

theorem spells_names {params : List Ident} {σ τ : Naming} (h : Naming.Run Naming.Names σ params τ) :
    Spells (namesText params) (namesKeys params) :=
  .intercalate glue_comma fun i hi => by
    obtain ⟨_, _, hname, -⟩ := h.exists hi
    exact .name hname

section
variable {f : α → String} {g : α → List Key} {R : Naming → α → Naming → Prop} {σ τ : Naming}

theorem spells_sequence {es : List α} (h : ∀ a ∈ es, Spells (f a) (g a)) :
    Spells (sequenceText (es.map f)) (sequenceKeys (es.map g)) := .intercalate glue_semicolon h

theorem spells_list {es : List α} (h : ∀ a ∈ es, Spells (f a) (g a)) :
    Spells (listText (es.map f)) (listKeys (es.map g)) := .intercalate glue_comma h

theorem free_block {b : Option (Block α)} (hlaid : Block.LaidBy R σ b τ)
    (h : ∀ b' ∈ b, ∀ a ∈ b'.body, Spells (f a) (g a)) :
    Free (Block.text (b.map (Block.map f))) (Block.spelling (b.map (Block.map g))) := by
  cases b with
  | none => exact .nil
  | some b =>
    obtain ⟨_, ⟨_, _, hparams, -⟩, -⟩ := hlaid
    have hbars : Free (if b.params = [] then "" else "|" ++ namesText b.params ++ "| ")
        (if b.params = [] then [] else [(.bar, "|")] ++ namesKeys b.params ++ [(.bar, "|")]) := by
      split
      · exact .nil
      · exact (free_bar.append (spells_names hparams)).glue glue_bar
    exact ((free_lbrace.join hbars).append (spells_sequence (h b rfl))).glue glue_rbrace

theorem free_else {stmts : Option (List α)} (h : ∀ es ∈ stmts, ∀ a ∈ es, Spells (f a) (g a)) :
    Free (elseText (stmts.map (List.map f))) (elseKeys (stmts.map (List.map g))) := by
  cases stmts with
  | none => exact .nil
  | some es =>
    exact ((spells_else.glue glue_semicolon).append (spells_sequence (h es rfl))).glue glue_semicolon

/-- The text of a layer is cut into its spelling, once the texts of its parts are. -/
theorem Form.LaidBy.spells {form : Form α} (hlaid : Form.LaidBy R σ form τ)
    (hfloat : ∀ x, form ≠ .literal (.float x)) (h : ∀ a ∈ form.parts, Spells (f a) (g a)) :
    Spells (form.map f).text (form.map g).spelling := by
  cases form with
  | literal v => exact Literal.spells hlaid.1 fun x hx => hfloat x (hx ▸ rfl)
  | var name => exact .name hlaid.1
  | assign target value =>
    exact ((Spells.name hlaid.1).glue glue_eq).append (h value List.mem_cons_self)
  | call name s args block =>
    obtain ⟨hname, _, -, hblock⟩ := hlaid
    have hargs : ∀ a ∈ args, Spells (f a) (g a) := fun a ha => h a (mem_parts_of_arg ha)
    have hbody : ∀ b ∈ block, ∀ a ∈ b.body, Spells (f a) (g a) := by
      rintro b rfl a ha
      exact h a (List.mem_append_right _ ha)
    exact (((((Spells.name hname).glue glue_lparen).append (spells_list hargs)).glue glue_rparen).join
      (free_block hblock hbody)).spells
  | yield args =>
    exact (((spells_yield.glue glue_lparen).append (spells_list h)).glue glue_rparen).spells
  | branch cond thenBody elseBody =>
    rw [parts_branch] at h
    have hthen : ∀ a ∈ thenBody, Spells (f a) (g a) := fun a ha => h a (by simp [ha])
    have helse : ∀ es ∈ elseBody, ∀ a ∈ es, Spells (f a) (g a) := by
      rintro es rfl a ha
      exact h a (by simp [ha])
    exact ((((((spells_if.glue glue_space).append (h cond List.mem_cons_self)).glue glue_semicolon).append
      (spells_sequence hthen)).glue glue_semicolon).join (free_else helse)).append spells_end
  | loop cond body =>
    have hbody : ∀ a ∈ body, Spells (f a) (g a) := fun a ha => h a (List.mem_cons_of_mem _ ha)
    exact (((((spells_while.glue glue_space).append (h cond List.mem_cons_self)).glue
      glue_semicolon).append (spells_sequence hbody)).glue glue_semicolon).append spells_end
  | define d =>
    obtain ⟨hname, -, _, _, hparams, -⟩ := hlaid
    exact ((((((((spells_def.glue glue_space).append (.name hname)).glue glue_lparen).append
      (spells_names hparams)).glue glue_header).append (spells_sequence h)).glue glue_semicolon).append
      spells_end)

end

/-- A program that is laid down and has no float is written such that it is cut into its spelling. -/
theorem Program.spells_render {p : Program} {τ : Naming} (hlaid : LaidAll .start p.stmts τ)
    (hfloat : p.hasFloat = false) : Spells p.render p.spelling := by
  have hspells (e : Expr) : p.Has e → Spells e.text e.spelling := by
    induction e using Expr.induction with | step id span form ih
    intro he
    obtain ⟨_, _, -, he'⟩ := he.laid hlaid
    obtain ⟨_, hform, -⟩ := Expr.laid_iff.1 he'
    rw [Expr.text_node, Expr.spelling_node]
    exact hform.spells (he.not_float hfloat) fun part hpart => ih part hpart (he.part hpart)
  exact spells_sequence fun e he => hspells e (.stmt he)

end FlowTyping
