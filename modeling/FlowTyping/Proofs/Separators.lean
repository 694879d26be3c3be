import FlowTyping.Proofs.Echoes
import FlowTyping.Proofs.Reaching

/-!
# What separates

Inside of parentheses the parser sees no line feeds.  `Expr.Parted` says of an expression that no line feed
outside of the bodies of its blocks and methods does the work of a separator: there is a semicolon, `do` or a
parenthesis besides.

`Cursor.deeper` is a cursor with one more parenthesis open around it.  Where the one sees a line feed, the
other sees the token behind it (`Cursor.kind_deeper_eq`).  That makes no difference to an expression that ends
here if the token behind the line feed ends it as well (`Cursor.Settled`).
-/

namespace FlowTyping

/-! ### Tokens between line feeds -/

/-- The kinds of tokens, line feeds apart. -/
def Token.kinds (ts : List Token) : List Token.Kind := (ts.map Token.kind).filter (· != .newline)

namespace Token
variable {t : Token} {ts us : List Token}

@[simp] theorem kinds_nil : kinds [] = [] := rfl

theorem kinds_cons (t : Token) (ts : List Token) :
    kinds (t :: ts) = if t.kind = .newline then kinds ts else t.kind :: kinds ts := by
  by_cases ht : t.kind = .newline <;> simp [kinds, ht]

theorem kinds_append (ts us : List Token) : kinds (ts ++ us) = kinds ts ++ kinds us := by
  simp [kinds]

theorem kinds_newlines (h : ∀ t ∈ ts, t.kind = .newline) : kinds ts = [] := by
  simpa [kinds] using h

/-- Where line feeds and semicolons are skipped only the semicolons count. -/
theorem kinds_skipTerminators (ts : List Token) :
    kinds (ts.dropWhile (Cursor.isTerminator ·.kind)) = (kinds ts).dropWhile (· == .semicolon) := by
  induction ts with
  | nil => rfl
  | cons t ts ih =>
    by_cases hnewline : t.kind = .newline
    · simpa [kinds_cons, Cursor.isTerminator, hnewline] using ih
    · by_cases hsemicolon : t.kind = .semicolon
      · simpa [kinds_cons, Cursor.isTerminator, hsemicolon] using ih
      · simp [kinds_cons, Cursor.isTerminator, hnewline, hsemicolon]

end Token

/-! ### Line feeds that part nothing -/

/-- The kinds of the tokens from byte `n` on, line feeds apart. -/
def Token.kindsBehind (ts : List Token) (n : Nat) : List Token.Kind := Token.kinds (Token.behind ts n)

/-- A semicolon stands behind each statement that another one follows. -/
def Separated (ts : List Token) (stmts : List Expr) : Prop :=
  ∀ stmt ∈ stmts.dropLast, [.semicolon] <+: Token.kindsBehind ts stmt.span.stop

theorem Separated.tail {ts : List Token} {stmt : Expr} {stmts : List Expr} (h : Separated ts (stmt :: stmts)) :
    Separated ts stmts := by
  cases stmts with
  | nil => exact fun _ hs => absurd hs List.not_mem_nil
  | cons stmt' stmts => exact fun s hs => h s (List.mem_cons_of_mem _ hs)

/-- The tokens of some parameters in parentheses. -/
def paramKinds (params : List Ident) : List Token.Kind :=
  .lparen :: (params.map fun _ => Token.Kind.ident).intersperse .comma ++ [.rparen]

/-- What a layer needs so that no line feed separates its parts: a semicolon behind a condition and behind
the head of a method, or `do` behind the condition of a loop, or parentheses around the parameters; and
semicolons between statements. -/
def Form.Parted (ts : List Token) : Form Expr → Prop
  | .branch cond thenBody elseBody => [.semicolon] <+: Token.kindsBehind ts cond.span.stop ∧
      Separated ts thenBody ∧ Separated ts (elseBody.getD [])
  | .loop cond body =>
      ([.semicolon] <+: Token.kindsBehind ts cond.span.stop ∨
        [.doKw] <+: Token.kindsBehind ts cond.span.stop) ∧ Separated ts body
  | .define d => [.semicolon] <+: Token.kindsBehind ts (d.params.getLast?.getD d.name).span.stop ∨
      paramKinds d.params <+: Token.kindsBehind ts d.name.span.stop
  | _ => True

/-- The parts that do not lie in the body of a block or of a method. -/
def Form.outside : Form α → List α
  | .call _ _ args _ => args
  | .define _ => []
  | form => form.parts

/-- Outside of the bodies of blocks and methods no line feed does the work of a separator. -/
inductive Expr.Parted (ts : List Token) : Expr → Prop
  | node {e : Expr} (own : e.form.Parted ts) (parts : ∀ part ∈ e.form.outside, part.Parted ts) : e.Parted ts

namespace Expr.Parted
variable {ts : List Token} {e : Expr}

theorem own (h : e.Parted ts) : e.form.Parted ts := by
  cases h with
  | node own parts => exact own

theorem part {part : Expr} (h : e.Parted ts) (hpart : part ∈ e.form.outside) : part.Parted ts := by
  cases h with
  | node own parts => exact parts part hpart

/-- What is asked of a choice. -/
theorem branch {id : NodeId} {span : Span} {cond : Expr} {thenBody : List Expr} {elseBody : Option (List Expr)}
    (h : (Expr.node id span (.branch cond thenBody elseBody)).Parted ts) :
    [.semicolon] <+: Token.kindsBehind ts cond.span.stop ∧ cond.Parted ts ∧
      (Separated ts thenBody ∧ ∀ stmt ∈ thenBody, stmt.Parted ts) ∧
      Separated ts (elseBody.getD []) ∧ ∀ stmt ∈ elseBody.getD [], stmt.Parted ts := by
  have hparts : ∀ part ∈ (Form.branch cond thenBody elseBody).parts, part.Parted ts := fun _ => h.part
  simp only [Form.parts_branch, List.mem_cons, List.mem_append, or_imp, forall_and, forall_eq] at hparts
  obtain ⟨hcond, hthen, helse⟩ := hparts
  exact ⟨h.own.1, hcond, ⟨h.own.2.1, hthen⟩, h.own.2.2, helse⟩

/-- The span of an expression does not matter. -/
theorem of_withSpan {s : Span} (h : (e.withSpan s).Parted ts) : e.Parted ts := .node h.own fun _ => h.part

end Expr.Parted

/-! ### Cursors -/

/-- The kinds of tokens that end an expression as a line feed does. -/
def finishers : List Token.Kind := [.semicolon, .endKw, .elseKw, .elsifKw, .eof]

namespace Cursor
variable {c d : Cursor} {k : Token.Kind}

/-- The same place with one more parenthesis open around it. -/
def deeper (c : Cursor) : Cursor := { c with parens := c.parens + 1 }

/-- If a line feed ends an expression here, so does the token behind it. -/
def Settled (c : Cursor) : Prop := c.kind = .newline → c.deeper.kind ∈ finishers

theorem settled_of_kind (h : c.kind ≠ .newline) : c.Settled := fun hkind => absurd hkind h

theorem visible_deeper (h : c.kind ≠ .newline) : c.deeper.visible = c.visible := by
  have hdeeper : c.deeper.visible = c.rest.dropWhile (·.kind == .newline) := if_neg (Nat.succ_ne_zero _)
  by_cases hparens : c.parens = 0
  · rw [kind_eq_firstKind hparens] at h
    rw [hdeeper, visible, if_pos hparens]
    exact Sides.Split.dropWhile_firstKind (q := (· == .newline)) (beq_eq_false_iff_ne.2 h)
  · rw [hdeeper, visible, if_neg hparens]

theorem current_deeper (h : c.kind ≠ .newline) : c.deeper.current = c.current := by
  rw [current, visible_deeper h]
  rfl

theorem kind_deeper (h : c.kind ≠ .newline) : c.deeper.kind = c.kind := congrArg Token.kind (current_deeper h)

theorem next_deeper (h : c.kind ≠ .newline) : c.deeper.next = c.next.deeper := by
  rw [next, visible_deeper h]
  rfl

/-- Inside of parentheses the first token is seen that is no line feed. -/
theorem kind_deeper_eq (c : Cursor) : c.deeper.kind = (Token.kinds c.rest).headD .eof := by
  have hvisible : c.deeper.visible = c.rest.dropWhile (·.kind == .newline) := if_neg (Nat.succ_ne_zero _)
  unfold kind current
  rw [hvisible]
  induction c.rest with
  | nil => rfl
  | cons t ts ih =>
    by_cases ht : t.kind = .newline
    · simpa [Token.kinds_cons, ht] using ih
    · simp [Token.kinds_cons, ht]

theorem kind_deeper_of_prefix {ks : List Token.Kind} (h : k :: ks <+: Token.kinds c.rest) :
    c.deeper.kind = k := by
  obtain ⟨ks', hks⟩ := h
  rw [kind_deeper_eq, ← hks]
  rfl

theorem kinds_current (heof : c.kind ≠ .eof) (h : c.kind ≠ .newline) :
    Token.kinds c.rest = c.kind :: Token.kinds c.next.rest := by
  obtain ⟨hidden, hrest, hhidden⟩ := rest_eq_current heof
  rw [hrest, Token.kinds_append, Token.kinds_newlines hhidden, Token.kinds_cons]
  exact if_neg h

theorem kind_skipTerminators_ne (c : Cursor) : c.skipTerminators.kind ≠ .newline := by
  by_cases hparens : c.parens = 0
  · have hhead := List.head?_dropWhile_not (isTerminator ·.kind) c.rest
    rw [kind_eq_firstKind (c := c.skipTerminators) hparens, skipTerminators, firstKind]
    cases hrest : c.rest.dropWhile (isTerminator ·.kind) with
    | nil => simp [Token.eofAt]
    | cons t ts =>
      rw [hrest] at hhead
      rintro (hkind : t.kind = .newline)
      simp [hkind, isTerminator] at hhead
  · exact kind_ne_newline (c := c.skipTerminators) hparens

/-- What is seen behind line feeds and semicolons. -/
theorem kind_skipTerminators (c : Cursor) :
    c.skipTerminators.kind = ((Token.kinds c.rest).dropWhile (· == .semicolon)).headD .eof := by
  rw [← kind_deeper c.kind_skipTerminators_ne, kind_deeper_eq, skipTerminators, Token.kinds_skipTerminators]

/-- What ends a list of statements is seen at once, or a semicolon before it. -/
theorem kind_deeper_or (c : Cursor) : c.deeper.kind = .semicolon ∨ c.deeper.kind = c.skipTerminators.kind := by
  rw [kind_deeper_eq, kind_skipTerminators]
  cases Token.kinds c.rest with
  | nil => exact .inr rfl
  | cons k ks => by_cases hk : k = .semicolon <;> simp [hk]

/-- Whether a token of a kind stands here that may go on with an expression is seen in both runs. -/
theorem Settled.kind_eq_iff (h : c.Settled) (hk : k ∉ .newline :: finishers) :
    c.deeper.kind = k ↔ c.kind = k := by
  by_cases hnewline : c.kind = .newline
  · refine ⟨fun hkind => absurd (List.mem_cons_of_mem _ (hkind ▸ h hnewline)) hk, fun hkind => ?_⟩
    exact absurd (List.mem_cons.2 (.inl (hkind.symm.trans hnewline))) hk
  · rw [kind_deeper hnewline]

theorem Settled.startsArgument (h : c.Settled) :
    Parser.startsArgument c.deeper.kind = Parser.startsArgument c.kind := by
  by_cases hnewline : c.kind = .newline
  · have hnone : ∀ k ∈ finishers, Parser.startsArgument k = false := by decide
    rw [hnone _ (h hnewline), hnewline]
    rfl
  · rw [kind_deeper hnewline]

end Cursor

end FlowTyping
