import FlowTyping.Proofs.CallForms
import FlowTyping.Proofs.Deepening
import FlowTyping.Proofs.Quoting

/-!
# Programs in parentheses

A text that is one expression is the same expression in parentheses (`Program.parse_parenthesized`), unless a
line feed in it does the work of a separator.  The tokens between the parentheses are those of the text, up to
where they stand (`Cursor.rest_parenthesized`).  They are read with one more parenthesis open around them,
which makes no difference (`Parser.deeper_expr`), and then `)` follows where the text had ended, which makes
none either (`Parser.carries_expr`).
-/

namespace FlowTyping

/-- A text in parentheses. -/
def parenthesized (text : String) : String := "(" ++ text ++ ")"

/-! ### Tokens -/

theorem Cursor.rest_parenthesized {text : String}
    (h : ∀ t ∈ Token.lexemes text, t.kind ≠ .invalid ∧ t.kind ≠ .comment) :
    ∃ left us right, (ofText (parenthesized text)).rest = left :: (us ++ [right]) ∧ left.kind = .lparen ∧
      us.map Token.key = (Token.lexemes text).map Token.key ∧ right.kind = .rparen := by
  have hkeys : keys (parenthesized text).toList = (.lparen, "(") :: (keys text.toList ++ [(.rparen, ")")]) := by
    have hleft : punctuation? '(' = some .lparen := rfl
    have hright : punctuation? ')' = some .rparen := rfl
    have htext : (parenthesized text).toList = '(' :: (text.toList ++ [')']) := by simp [parenthesized]
    have hclose : keys [')'] = [(.rparen, ")")] := by
      rw [keys_punctuation hright, keys_of_dropBlank_eq_nil (by simp [dropBlank])]
    rw [htext, keys_punctuation hleft, keys_append_of_stops h (stops_cons (by decide) _), hclose]
  obtain ⟨left, rest, hrest, hleft, hkeys⟩ := List.map_eq_cons_iff.1 hkeys
  obtain ⟨us, right, rfl, hus, hright⟩ := List.map_eq_append_iff.1 hkeys
  obtain ⟨right, rfl, hright⟩ := List.map_eq_singleton_iff.1 hright
  have hkind {t : Token} {k : Token.Key} (h : t.key = k) : t.kind = k.1 := congrArg Prod.fst h
  replace hleft : left.kind = .lparen := hkind hleft
  replace hright : right.kind = .rparen := hkind (List.head_eq_of_cons_eq hright)
  refine ⟨left, us, right, ?_, hleft, hus, hright⟩
  have hclean : ∀ t ∈ us, t.kind ≠ .comment :=
    Token.forall_kind_of_keys (p := (· ≠ .comment)) hus fun t ht => (h t ht).2
  have hlexemes : Token.lexemes (parenthesized text) = left :: (us ++ [right]) := hrest
  rw [rest_ofText, hlexemes]
  simpa [hlexemes, hleft, hright, or_imp, forall_and] using hclean

/-! ### The expression alone -/

theorem Cursor.kind_of_rest_eq_nil {c : Cursor} (h : c.rest = []) : c.kind = .eof := by
  rw [kind, current, visible, h, List.dropWhile_nil, ite_self]
  rfl

/-- A text that is one expression is read by the parser of expressions alone, from its first token on. -/
theorem Program.expr_of_whole {text : String} {e : Expr} (hparse : (parse text).program? = some ⟨[e]⟩)
    (hwhole : e.span = Span.whole text) :
    ∃ d, Parser.expr ((Cursor.ofText text).rest.length + 1) true (.ofText text) = .ok e d ∧ d.rest = [] := by
  obtain ⟨d, hrun⟩ := reading_of_program? hparse
  have htiled := Cursor.tiled_ofText text
  cases Parser.statements_eq_ok_iff.1 hrun with
  | @cons _ _ x _ _ _ _ hstmt =>
    obtain ⟨skipped, hskipped⟩ : (Cursor.ofText text).skipTerminators.rest <:+ (Cursor.ofText text).rest :=
      List.dropWhile_suffix _
    rw [← hskipped] at htiled
    obtain ⟨q, hq, ⟨hstart, -, hstop⟩, -⟩ := Parser.lays_expr _ _ trivial htiled.back hstmt
    rw [hwhole] at hstart hstop
    have hnone : skipped = [] := List.eq_nil_iff_forall_not_mem.2 fun t ht =>
      absurd ((htiled.front.start_lt ht).trans_le hstart) (Nat.not_lt_zero _)
    have hrest : x.rest = [] := by
      cases hrest : x.rest with
      | nil => rfl
      | cons t ts =>
        rw [hrest] at hq
        exact absurd (hq.1.trans_lt hq.2.1.lt) (hstop.trans' hq.2.2.le).not_gt
    have hsame : (Cursor.ofText text).skipTerminators = .ofText text := by
      rw [hnone, List.nil_append] at hskipped
      show ({ Cursor.ofText text with rest := (Cursor.ofText text).skipTerminators.rest } : Cursor) = _
      rw [hskipped]
    rw [hsame] at hstmt
    exact ⟨x, hstmt, hrest⟩

/-! ### The expression in parentheses -/

namespace Parser
variable {n n' : Nat} {c c' d : Cursor} {e : Expr}

/-- Tokens that are read to their end as an expression, with one more parenthesis open around them, are read
alike where `)` follows. -/
theorem exists_expr_of_keys {ts : List Token} {right : Token} (hright : right.kind = .rparen)
    (hkeys : ts.map Token.key = c.rest.map Token.key) (hrest : c'.rest = ts ++ [right]) (hparens : c.parens = 0)
    (hparens' : c'.parens = 0) (hnaming : c'.naming = c.naming) (hn : n ≤ n')
    (hrun : expr n true c.deeper = .ok e d) (hd : d.rest = []) :
    ∃ e' d', expr n' true c'.deeper = .ok e' d' ∧ e'.unspanned = e.unspanned ∧ d'.rest = [right] := by
  let s : Sides := ⟨[], [right], false, by decide, by simp [firstKind, hright, enders], Nat.zero_le _⟩
  have hfirst : firstKind s.first = .eof := rfl
  have hsecond : firstKind s.second = .rparen := hright
  have hopen : ¬ s.Blank := fun hblank => by
    have heof := hblank.2 right (List.mem_singleton_self _)
    rw [hright] at heof
    cases heof
  have hecho : c.deeper.Echoes .blind (Sides.Level.top (s := s)).inner c'.deeper :=
    ⟨⟨c.rest, ts, (List.append_nil _).symm, hrest, (Token.map_seen_blind hkeys).symm,
      fun _ _ hplain => absurd hplain Bool.false_ne_true⟩, fun hblank => absurd hblank hopen,
      congrArg (· + 1) hparens, congrArg (· + 1) hparens', hnaming⟩
  have hfits : (Sides.Level.top (s := s)).inner.Fits true true .safe :=
    ⟨fun _ => rfl, fun _ => .inr ⟨by rw [hfirst]; decide, by rw [hsecond]; decide⟩,
      fun _ _ => by rw [hfirst]; decide, fun _ _ => by rw [hsecond]; decide⟩
  obtain ⟨e', d', hrun', hseen, hdd'⟩ := (carries_expr hn hfits).ok trivial hecho hrun List.nil_suffix
  rw [Expr.seen_blind, Expr.seen_blind] at hseen
  exact ⟨e', d', hrun', hseen.symm, hdd'.rest_eq_second hd⟩

theorem expr_of_parens (allowDo : Bool) (hc : c.kind = .lparen) (hinner : expr n true c.next.deeper = .ok e d)
    (hd : d.kind = .rparen) : expr (n + 1) allowDo c =
      .ok (e.withSpan (c.current.span.merge d.current.span)) { d.next with parens := d.parens - 1 } := by
  have hopen : openParen c = .ok c.current c.next.deeper := by
    rw [openParen_run, if_pos hc]
    rfl
  have hclose : closeParen d = .ok d.current { d.next with parens := d.parens - 1 } := by
    rw [closeParen_run, if_pos hd]
  rw [expr_of_lparen hc]
  exact (bind_of_ok hopen).trans ((bind_of_ok hinner).trans (bind_of_ok hclose))

end Parser

namespace Program

/-- A text that is read to its end by the parser of expressions is one expression. -/
theorem program?_of_expr {text : String} {e : Expr} {d : Cursor}
    (hrun : Parser.expr ((Cursor.ofText text).rest.length + 1) true (.ofText text) = .ok e d)
    (hd : d.rest = []) : (parse text).program? = some ⟨[e]⟩ := by
  have hkind : ∀ k, Parser.startsArgument k = true ∨ k ∈ [.lparen, .defKw, .ifKw, .whileKw, .yieldKw] →
      Cursor.isTerminator k = false ∧ Parser.closes [] k = false := by
    rintro k (hk | hk)
    · cases k <;> first | exact ⟨rfl, rfl⟩ | cases hk
    · simp only [List.mem_cons, List.not_mem_nil, or_false] at hk
      rcases hk with rfl | rfl | rfl | rfl | rfl <;> exact ⟨rfl, rfl⟩
  obtain ⟨hterminator, hcloses⟩ := hkind _ (Parser.kind_of_expr hrun)
  have hskip := Cursor.skipTerminators_eq (Cursor.parens_ofText text) hterminator
  obtain ⟨m, hm⟩ : ∃ m, (Cursor.ofText text).rest.length = m + 1 := by
    refine ⟨_, (Nat.succ_pred_eq_of_pos (List.length_pos_iff.2 fun hnil => ?_)).symm⟩
    rw [Cursor.kind_of_rest_eq_nil hnil] at hcloses
    cases hcloses
  have hends {c : Cursor} (hc : c.rest = []) : Parser.closes [] c.kind = true := by
    rw [Cursor.kind_of_rest_eq_nil hc]
    rfl
  have hbehind : d.skipTerminators.rest = [] := by rw [Cursor.skipTerminators, hd, List.dropWhile_nil]
  rw [← hskip] at hcloses
  refine program?_of_reading (d := d.skipTerminators) ?_
  rw [reading, hm, Parser.statements_of_ok hcloses (by rw [hskip, ← hm]; exact hrun)
    (by rw [hends hd, Bool.or_true]), Parser.statements_of_closes (hends hbehind)]

/-- **Parentheses do not change an expression.**  A text that is one expression from its first to its last byte
is the same expression in parentheses, up to the spans, if no line feed in it does the work of a separator. -/
theorem parse_parenthesized {text : String} {e : Expr} (hclean : ∀ t ∈ Token.lexemes text, t.kind ≠ .comment)
    (hparse : (parse text).program? = some ⟨[e]⟩) (hwhole : e.span = Span.whole text)
    (hparted : e.Parted (Token.lexemes text)) :
    ∃ e', (parse (parenthesized text)).program? = some ⟨[e']⟩ ∧ e'.unspanned = e.unspanned := by
  obtain ⟨d, hreading⟩ := reading_of_program? hparse
  have hvalid := (valid_of_reading hreading).2
  have hrest := Cursor.rest_ofText hclean
  have htiled := Cursor.tiled_ofText text
  obtain ⟨x, hrun, hx⟩ := expr_of_whole hparse hwhole
  rw [hrest] at htiled hrun
  have hsettled : x.Settled := Cursor.settled_of_kind (by rw [Cursor.kind_of_rest_eq_nil hx]; decide)
  have hdeeper := Parser.deeper_expr htiled hrun (hrest ▸ List.suffix_refl _) hparted hsettled
  -- the same tokens behind `(`
  obtain ⟨left, us, right, hrest', hleft, hkeys, hright⟩ :=
    Cursor.rest_parenthesized fun t ht => ⟨hvalid t ht, hclean t ht⟩
  obtain ⟨hcurrent, hnext⟩ := Cursor.current_eq hrest' (.inl (Cursor.parens_ofText _))
  have hlparen : (Cursor.ofText (parenthesized text)).kind = .lparen :=
    (congrArg Token.kind hcurrent).trans hleft
  have hlength : (Token.lexemes text).length + 1 ≤ (Cursor.ofText (parenthesized text)).rest.length := by
    have hsame : us.length = (Token.lexemes text).length := by simpa using congrArg List.length hkeys
    simp [hrest', hsame]
  rw [← hrest] at hkeys
  obtain ⟨e', y, hrun', hunspanned, hy⟩ :=
    Parser.exists_expr_of_keys hright hkeys hnext rfl rfl rfl hlength hdeeper hx
  -- and then `)`
  obtain ⟨hclose, hend⟩ := Cursor.current_eq hy (.inr (by rw [hright]; decide))
  have hall := Parser.expr_of_parens true hlparen hrun' ((congrArg Token.kind hclose).trans hright)
  refine ⟨_, program?_of_expr hall hend, ?_⟩
  obtain ⟨id, span, form⟩ := e'
  rw [← hunspanned, Expr.withSpan, Expr.unspanned_node, Expr.unspanned_node]
  rfl

/-- A loop with line feeds in an argument list, in a method, before a semicolon and in a block. -/
def loopOverLines : String := "while f(1,\n2); def m(a)\na end\n; g do |y|\n3\n4 end\nend"

def treeOverLines : Expr :=
  .node 12 ⟨0, 52⟩ (.loop
    (.node 2 ⟨6, 13⟩ (.call "f" ⟨6, 7⟩
      [.node 0 ⟨8, 9⟩ (.literal (.int 1)), .node 1 ⟨11, 12⟩ (.literal (.int 2))] none))
    [.node 6 ⟨15, 29⟩ (.define ⟨⟨3, "m", ⟨19, 20⟩⟩, [⟨4, "a", ⟨21, 22⟩⟩], [.node 5 ⟨24, 25⟩ (.var "a")]⟩),
     .node 11 ⟨32, 48⟩ (.call "g" ⟨32, 33⟩ [] (some ⟨10, ⟨34, 48⟩, [⟨7, "y", ⟨38, 39⟩⟩],
      [.node 8 ⟨41, 42⟩ (.literal (.int 3)), .node 9 ⟨43, 44⟩ (.literal (.int 4))]⟩))])

theorem parse_loopOverLines : (parse loopOverLines).program? = some ⟨[treeOverLines]⟩ := by cbv

theorem parted_treeOverLines : treeOverLines.Parted (Token.lexemes loopOverLines) := by
  have hprefix (ks : List Token.Kind) (n : Nat)
      (h : ks.isPrefixOf (Token.kindsBehind (Token.lexemes loopOverLines) n) = true) :
      ks <+: Token.kindsBehind (Token.lexemes loopOverLines) n := List.isPrefixOf_iff_prefix.1 h
  have hcond := hprefix [.semicolon] 13 (by cbv)
  have hstmt := hprefix [.semicolon] 29 (by cbv)
  have hparams := hprefix [.lparen, .ident, .rparen] 20 (by cbv)
  refine .node ⟨.inl hcond, by simpa [Separated] using hstmt⟩ fun part hpart => ?_
  simp only [treeOverLines, Expr.form_node, Form.outside, Form.parts, List.mem_cons, List.not_mem_nil,
    or_false] at hpart
  have hleaf {id : NodeId} {span : Span} {value : Literal} :
      (Expr.node id span (.literal value)).Parted (Token.lexemes loopOverLines) :=
    .node trivial fun _ h => absurd h List.not_mem_nil
  rcases hpart with rfl | rfl | rfl
  · refine .node trivial fun arg harg => ?_
    simp only [Expr.form_node, Form.outside, List.mem_cons, List.not_mem_nil, or_false] at harg
    rcases harg with rfl | rfl <;> exact hleaf
  · exact .node (.inr hparams) fun _ h => absurd h List.not_mem_nil
  · exact .node trivial fun _ h => absurd h List.not_mem_nil

theorem parse_parenthesized_loop :
    ∃ e, (∀ t ∈ Token.lexemes loopOverLines, t.kind ≠ .comment) ∧
      (parse loopOverLines).program? = some ⟨[e]⟩ ∧ e.span = Span.whole loopOverLines ∧
      e.Parted (Token.lexemes loopOverLines) ∧
      ∃ e', (parse (parenthesized loopOverLines)).program? = some ⟨[e']⟩ ∧ e'.unspanned = e.unspanned := by
  have hall : ((Token.lexemes loopOverLines).all fun t => t.kind ≠ .comment) = true := by cbv
  have hclean : ∀ t ∈ Token.lexemes loopOverLines, t.kind ≠ .comment := by simpa using hall
  have hwhole : treeOverLines.span = Span.whole loopOverLines := by cbv
  exact ⟨treeOverLines, hclean, parse_loopOverLines, hwhole, parted_treeOverLines,
    parse_parenthesized hclean parse_loopOverLines hwhole parted_treeOverLines⟩

/-- In parentheses the line feed behind the condition separates nothing, so the choice is none. -/
theorem choice_over_lines :
    ∃ e, (∀ t ∈ Token.lexemes "if true\n1\nend", t.kind ≠ .comment) ∧
      (parse "if true\n1\nend").program? = some ⟨[e]⟩ ∧ e.span = Span.whole "if true\n1\nend" ∧
      (parse (parenthesized "if true\n1\nend")).program? = none := by
  have hall : ((Token.lexemes "if true\n1\nend").all fun t => t.kind ≠ .comment) = true := by cbv
  refine ⟨.node 2 ⟨0, 13⟩ (.branch (.node 0 ⟨3, 7⟩ (.literal (.bool true)))
    [.node 1 ⟨8, 9⟩ (.literal (.int 1))] none), by simpa using hall, by cbv, by cbv, by cbv⟩

end Program

end FlowTyping
