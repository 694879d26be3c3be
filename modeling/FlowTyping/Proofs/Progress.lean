import FlowTyping.Proofs.Readings

/-!
# Reading makes progress

Whatever the parser reads, it goes forward over valid tokens, and it leaves as many parentheses and
scopes open as it found (`Cursor.Leads`).  An expression takes at least one token, so the numbers of
levels, of items and of statements that the productions are given are never used up:
`Program.parse_ends`.  `Parser.Proceeds` is the rule that the productions are taken through, with one
lemma each.
-/

namespace FlowTyping

/-! ### Where a cursor stands -/

namespace Cursor

/-- What a cursor does not see of its tokens are line feeds. -/
theorem rest_eq_visible (c : Cursor) :
    ∃ hidden, c.rest = hidden ++ c.visible ∧ ∀ t ∈ hidden, t.kind = .newline := by
  unfold visible
  split
  · exact ⟨[], rfl, fun _ h => absurd h List.not_mem_nil⟩
  · refine ⟨c.rest.takeWhile (·.kind == .newline), List.takeWhile_append_dropWhile.symm, fun t ht => ?_⟩
    simpa using List.all_eq_true.1 List.all_takeWhile t ht

/-- Before the end of the text a cursor stands at one of its tokens. -/
theorem rest_eq_current {c : Cursor} (h : c.kind ≠ .eof) :
    ∃ hidden, c.rest = hidden ++ c.current :: c.next.rest ∧ ∀ t ∈ hidden, t.kind = .newline := by
  obtain ⟨hidden, hrest, hhidden⟩ := c.rest_eq_visible
  refine ⟨hidden, ?_, hhidden⟩
  cases hvisible : c.visible with
  | nil => simp [kind, current, hvisible, Token.eofAt] at h
  | cons t ts => simp [hrest, hvisible, current, next]

/-- Inside parentheses no line feed is in sight. -/
theorem kind_ne_newline {c : Cursor} (h : c.parens ≠ 0) : c.kind ≠ .newline := by
  have hvisible : c.visible = c.rest.dropWhile (·.kind == .newline) := if_neg h
  have hhead := List.head?_dropWhile_not (·.kind == .newline) c.rest
  unfold kind current
  rw [hvisible]
  cases hrest : c.rest.dropWhile (·.kind == .newline) with
  | nil => exact fun hkind => nomatch hkind
  | cons t ts =>
    rw [hrest] at hhead
    simpa using hhead

/-- From `c` at least `k` tokens lead to `d`, all of them valid. -/
def Passes (c : Cursor) (k : Nat) (d : Cursor) : Prop :=
  ∃ read, c.rest = read ++ d.rest ∧ k ≤ read.length ∧ ∀ t ∈ read, t.kind ≠ .invalid

/-- `d` stands at least `k` tokens behind `c`, `opened` parentheses further out, in as many scopes. -/
structure Leads (opened : Nat) (c : Cursor) (k : Nat) (d : Cursor) : Prop where
  passes : c.Passes k d
  parens : ∀ outer, c.parens = outer + opened → d.parens = outer
  scopes : d.locals.length = c.locals.length

section
variable {c d e : Cursor} {k l opened : Nat}

theorem Passes.of_eq (h : d.rest = c.rest) : c.Passes 0 d :=
  ⟨[], h.symm, Nat.le_refl _, fun _ h => absurd h List.not_mem_nil⟩

theorem Passes.trans (hcd : c.Passes k d) (hde : d.Passes l e) : c.Passes (k + l) e := by
  obtain ⟨read, hc, hk, hread⟩ := hcd
  obtain ⟨read', hd, hl, hread'⟩ := hde
  refine ⟨read ++ read', by rw [hc, hd, List.append_assoc], ?_, fun t ht => ?_⟩
  · rw [List.length_append]
    exact Nat.add_le_add hk hl
  · rcases List.mem_append.1 ht with ht | ht
    · exact hread t ht
    · exact hread' t ht

theorem Passes.mono (h : c.Passes k d) (hl : l ≤ k) : c.Passes l d := by
  obtain ⟨read, hc, hk, hread⟩ := h
  exact ⟨read, hc, Nat.le_trans hl hk, hread⟩

theorem Passes.length_le (h : c.Passes k d) : d.rest.length + k ≤ c.rest.length := by
  obtain ⟨read, hc, hk, -⟩ := h
  rw [hc, List.length_append]
  omega

theorem passes_dropWhile {p : Token → Bool} (hp : ∀ t, p t = true → t.kind ≠ .invalid)
    (hd : d.rest = c.rest.dropWhile p) : c.Passes 0 d :=
  ⟨c.rest.takeWhile p, by rw [hd, List.takeWhile_append_dropWhile], Nat.zero_le _,
    fun t ht => hp t (List.all_eq_true.1 List.all_takeWhile t ht)⟩

theorem passes_next (h : c.kind ≠ .eof) (hvalid : c.kind ≠ .invalid) : c.Passes 1 c.next := by
  obtain ⟨hidden, hrest, hhidden⟩ := rest_eq_current h
  refine ⟨hidden ++ [c.current], by simp [hrest], by simp, fun t ht => ?_⟩
  rcases List.mem_append.1 ht with ht | ht
  · rw [hhidden t ht]
    decide
  · rw [List.mem_singleton.1 ht]
    exact hvalid

theorem Leads.mono (h : Leads opened c k d) (hl : l ≤ k) : Leads opened c l d :=
  ⟨h.passes.mono hl, h.parens, h.scopes⟩

/-- A step that only goes over tokens. -/
theorem Passes.leads (h : c.Passes k d) (hparens : d.parens = c.parens) (hlocals : d.locals = c.locals) :
    Leads 0 c k d :=
  ⟨h, fun _ hc => hparens.trans hc, congrArg List.length hlocals⟩

theorem Leads.refl (c : Cursor) : Leads 0 c 0 c := (Passes.of_eq rfl).leads rfl rfl

theorem length_declareIn (name : String) (scopes : List LocalScope) :
    (declareIn name scopes).length = scopes.length := by
  cases scopes with
  | nil => rfl
  | cons scope outer =>
    simp only [declareIn]
    split <;> rfl

end

end Cursor

/-- What stands for a literal may start an argument. -/
theorem Token.startsArgument_of_literal? {t : Token} {r : Except Fault.Cause Literal}
    (h : t.literal? = some r) : Parser.startsArgument t.kind = true := by
  unfold literal? at h
  split at h <;> simp_all [Parser.startsArgument]

/-! ### Rules -/

namespace Parser

theorem openParen_run (c : Cursor) : openParen c =
    if c.kind = .lparen then .ok c.current { c.next with parens := c.parens + 1 }
    else .error (.fault (.unexpectedToken (.token .lparen) c.current)) c := by
  unfold openParen
  split
  · next h => exact bind_of_ok (if_pos h)
  · next h => exact bind_of_error (if_neg h)

theorem closeParen_run (c : Cursor) : closeParen c =
    if c.kind = .rparen then .ok c.current { c.next with parens := c.parens - 1 }
    else .error (.fault (.unexpectedToken (.token .rparen) c.current)) c := by
  unfold closeParen
  split
  · next h => exact bind_of_ok (if_pos h)
  · next h => exact bind_of_error (if_neg h)

theorem withNewlines_run (m : Parser α) (c : Cursor) : withNewlines m c =
    match m { c with parens := 0 } with
    | .ok a d => .ok a { d with parens := c.parens }
    | .error e d => .error e d := by
  refine (bind_of_ok rfl).trans ((bind_of_ok rfl).trans ?_)
  cases hrun : m { c with parens := 0 } with
  | ok a d => exact bind_of_ok hrun
  | error e d => exact bind_of_error hrun

theorem inScope_run (closed : Bool) (m : Parser α) (c : Cursor) : inScope closed m c =
    match m { c with locals := ⟨closed, []⟩ :: c.locals } with
    | .ok a d => .ok a { d with locals := d.locals.drop 1 }
    | .error e d => .error e d := by
  refine (bind_of_ok rfl).trans ?_
  cases hrun : m { c with locals := ⟨closed, []⟩ :: c.locals } with
  | ok a d => exact bind_of_ok hrun
  | error e d => exact bind_of_error hrun

/-- What is read of an expression behind the name that it starts with. -/
def afterName (expr : ExprParser) (allowDo : Bool) (name : Token) : Parser Expr := do
  if (← isLocal name.text) && (← kind) != .lparen then
    return .node (← freshId) name.span (.var name.text)
  else
    let (args, span) ← args expr name.span
    let block ← block? expr allowDo
    let span := (block.map fun b => span.merge b.span).getD span
    return .node (← freshId) span (.call name.text name.span args block)

/-- What is read of an assignment behind the name. -/
def afterTarget (expr : ExprParser) (allowDo : Bool) (name : Token) : Parser Expr := do
  let _ ← bump
  skipNewlines
  declare name.text
  let target : Ident := ⟨← freshId, name.text, name.span⟩
  let value ← expr allowDo
  return .node (← freshId) (name.span.merge value.span) (.assign target value)

/-- What is read where a name stands: behind it comes `=` or something else. -/
def named (expr : ExprParser) (allowDo : Bool) : Parser Expr := do
  let name ← bump
  if (← kind) = .eq then afterTarget expr allowDo name else afterName expr allowDo name

theorem named_run (expr : ExprParser) (allowDo : Bool) (c : Cursor) : named expr allowDo c =
    if c.next.kind = .eq then assignment expr allowDo c else nameExpr expr allowDo c := by
  show (if c.next.kind = .eq then afterTarget expr allowDo c.current
    else afterName expr allowDo c.current : Parser Expr) c.next = _
  split <;> rfl

theorem ne_of_startsArgument {kind kind' : Token.Kind} (h : startsArgument kind = true)
    (h' : startsArgument kind' = false) : kind ≠ kind' := by
  rintro rfl
  exact absurd (h.symm.trans h') (by decide)

/-- How reading from `c` may end: at least `k` tokens ahead, or with a fault. -/
def EndsAhead (opened : Nat) (c : Cursor) (k : Nat) : EStateM.Result Setback Cursor α → Prop
  | .ok _ d => c.Leads opened k d
  | .error e _ => e ≠ .outOfFuel

section
variable {c d : Cursor} {k l opened : Nat} {r : EStateM.Result Setback Cursor α} {m : Parser α}
  {f : α → Parser β}

/-- Reading from `d` goes on from `c` if tokens lead from there to `d`. -/
theorem EndsAhead.behind {o : Nat} (h : c.Passes k d)
    (hparens : ∀ outer, c.parens = outer + o → d.parens = outer + opened)
    (hscopes : d.locals.length = c.locals.length) (hr : EndsAhead opened d l r) :
    EndsAhead o c (k + l) r := by
  cases r with
  | ok _ _ =>
    exact ⟨h.trans hr.passes, fun outer ho => hr.parens outer (hparens outer ho), hr.scopes.trans hscopes⟩
  | error _ _ => exact hr

theorem EndsAhead.trans (h : Cursor.Leads 0 c k d) (hr : EndsAhead opened d l r) :
    EndsAhead opened c (k + l) r :=
  hr.behind h.passes (fun _ ho => h.parens _ ho) h.scopes

theorem EndsAhead.mono (h : EndsAhead opened c k r) (hl : l ≤ k) : EndsAhead opened c l r := by
  cases r with
  | ok _ _ => exact Cursor.Leads.mono h hl
  | error _ _ => exact h

theorem EndsAhead.bind {o o' : Nat} (h : EndsAhead o c k (m c))
    (hf : ∀ a e, Cursor.Leads o c k e → EndsAhead o' d l (f a e)) : EndsAhead o' d l ((m >>= f) c) := by
  show EndsAhead o' d l (EStateM.bind m f c)
  unfold EStateM.bind
  cases hrun : m c with
  | error _ _ => rw [hrun] at h; exact h
  | ok a e => rw [hrun] at h; exact hf a e h

end

/-- From a cursor with `P` and less than `n` tokens left, a parser reads at least `k` tokens or finds a
fault.  It closes `opened` parentheses that were opened before, and all that it opens itself. -/
def Proceeds (opened : Nat) (P : Cursor → Prop) (n k : Nat) (m : Parser α) : Prop :=
  ∀ ⦃c⦄, P c → c.rest.length < n → EndsAhead opened c k (m c)

/-- From every cursor. -/
abbrev Anywhere : Cursor → Prop := fun _ => True

namespace Proceeds
variable {P Q : Cursor → Prop} {n n' k l opened : Nat} {m : Parser α} {f : α → Parser β} {a : α}

theorem pre (h : Proceeds opened Q n k m) (hP : ∀ c, P c → Q c) : Proceeds opened P n k m :=
  fun _ hc => h (hP _ hc)

theorem anywhere (h : Proceeds opened Anywhere n k m) : Proceeds opened P n k m := h.pre fun _ _ => trivial

theorem fewer (h : Proceeds opened P n k m) (hn : n' ≤ n) : Proceeds opened P n' k m :=
  fun _ hP hc => h hP (Nat.lt_of_lt_of_le hc hn)

/-- One parser behind another. -/
theorem bind (h : Proceeds 0 P n k m) (hf : ∀ a, Proceeds opened Anywhere n (l - k) (f a)) :
    Proceeds opened P n l (m >>= f) := fun c hP hc => (h hP hc).bind fun a d hd => by
  have hlength := hd.passes.length_le
  exact (EndsAhead.trans hd (hf a trivial (by omega))).mono (by omega)

/-- Behind a parser that reads a token there are fewer left. -/
theorem step (h : Proceeds 0 P (n + 1) 1 m) (hf : ∀ a, Proceeds opened Anywhere n (l - 1) (f a)) :
    Proceeds opened P (n + 1) l (m >>= f) := fun c hP hc => (h hP hc).bind fun a d hd => by
  have hlength := hd.passes.length_le
  exact (EndsAhead.trans hd (hf a trivial (by omega))).mono (by omega)

theorem give : Proceeds 0 P n 0 (pure a : Parser α) := fun c _ _ => Cursor.Leads.refl c

theorem kind {f : Token.Kind → Parser α}
    (hf : ∀ k, Proceeds opened (fun c => P c ∧ c.kind = k) n l (f k)) :
    Proceeds opened P n l (kind >>= f) := fun c hP hc => hf c.kind ⟨hP, rfl⟩ hc

theorem itemFuel {f : Nat → Parser α} (hf : ∀ fuel ≤ n, Proceeds opened P fuel l (f fuel)) :
    Proceeds opened P n l (itemFuel >>= f) :=
  fun c hP hc => hf (c.rest.length + 1) hc hP (Nat.lt_succ_self _)

theorem bump (hP : ∀ c, P c → c.kind ≠ .eof ∧ c.kind ≠ .invalid) : Proceeds 0 P n 1 bump :=
  fun c hc _ => (Cursor.passes_next (hP c hc).1 (hP c hc).2).leads rfl rfl

/-- Behind the current token, where it is known what stands at the next cursor. -/
theorem bumpThen {f : Token → Parser α} (hP : ∀ c, P c → c.kind ≠ .eof ∧ c.kind ≠ .invalid)
    (hQ : ∀ c, P c → Q c.next) (hf : ∀ t, Proceeds opened Q n (l - 1) (f t)) :
    Proceeds opened P (n + 1) l (Parser.bump >>= f) := by
  intro c hc hlt
  have hnext := (Cursor.passes_next (hP c hc).1 (hP c hc).2).leads rfl rfl
  have hlength := hnext.passes.length_le
  exact (EndsAhead.trans hnext (hf c.current (hQ c hc) (by omega))).mono (by omega)

theorem unexpected (wanted : Fault.Wanted) : Proceeds opened P n k (unexpected wanted : Parser α) :=
  fun _ _ _ => nofun

section
variable {kind : Token.Kind} (hkind : kind ≠ .eof ∧ kind ≠ .invalid)
include hkind

theorem eat : Proceeds 0 P n 0 (eat kind) := by
  intro c _ _
  unfold Parser.eat
  split
  · next h => exact ((Cursor.passes_next (h ▸ hkind.1) (h ▸ hkind.2)).mono (Nat.zero_le _)).leads rfl rfl
  · exact Cursor.Leads.refl c

theorem expect : Proceeds 0 P n 1 (expect kind) := by
  intro c _ _
  unfold Parser.expect
  split
  · next h => exact (Cursor.passes_next (h ▸ hkind.1) (h ▸ hkind.2)).leads rfl rfl
  · exact nofun

end

theorem expectEnd (construct : Fault.Construct) (opener : Span) :
    Proceeds 0 P n 1 (expectEnd construct opener) := by
  intro c _ _
  unfold Parser.expectEnd
  split
  · next h => exact (Cursor.passes_next (h ▸ by decide) (h ▸ by decide)).leads rfl rfl
  · exact nofun

theorem skipTerminators : Proceeds 0 P n 0 skipTerminators := fun c _ _ =>
  (Cursor.passes_dropWhile (fun t ht h => by rw [h] at ht; exact absurd ht (by decide)) rfl).leads rfl rfl

theorem skipNewlines : Proceeds 0 P n 0 skipNewlines := fun c _ _ =>
  (Cursor.passes_dropWhile (fun t ht h => by rw [h] at ht; exact absurd ht (by decide)) rfl).leads rfl rfl

theorem expectTerminator (after : Fault.Part) : Proceeds 0 P n 0 (expectTerminator after) := by
  refine kind fun k => ?_
  split
  · exact skipTerminators
  · exact unexpected _

/-- Behind `(` one parenthesis more is open. -/
theorem openParen {f : Token → Parser α} (hf : ∀ t, Proceeds 1 Anywhere (n - 1) (l - 1) (f t)) :
    Proceeds 0 P n l (openParen >>= f) := by
  intro c _ hc
  by_cases h : c.kind = .lparen
  · have hnext : c.Passes 1 { c.next with parens := c.parens + 1 } :=
      Cursor.passes_next (h ▸ by decide) (h ▸ by decide)
    have hlength := hnext.length_le
    rw [bind_of_ok ((openParen_run c).trans (if_pos h))]
    exact ((hf c.current trivial (by omega)).behind (o := 0) hnext (fun _ ho => congrArg (· + 1) ho) rfl).mono
      (by omega)
  · rw [bind_of_error ((openParen_run c).trans (if_neg h))]
    exact nofun

theorem closeParen {f : Token → Parser α} (hf : ∀ t, Proceeds 0 Anywhere n (l - 1) (f t)) :
    Proceeds 1 P n l (closeParen >>= f) := by
  intro c _ hc
  by_cases h : c.kind = .rparen
  · have hnext : c.Passes 1 { c.next with parens := c.parens - 1 } :=
      Cursor.passes_next (h ▸ by decide) (h ▸ by decide)
    have hlength := hnext.length_le
    rw [bind_of_ok ((closeParen_run c).trans (if_pos h))]
    exact ((hf c.current trivial (by omega)).behind hnext (fun _ ho => congrArg (· - 1) ho) rfl).mono
      (by omega)
  · rw [bind_of_error ((closeParen_run c).trans (if_neg h))]
    exact nofun

theorem freshId : Proceeds 0 P n 0 freshId := fun c _ _ =>
  Cursor.Passes.leads (c := c) (.of_eq rfl) rfl rfl

theorem isLocal (name : String) : Proceeds 0 P n 0 (isLocal name) := fun c _ _ => Cursor.Leads.refl c

theorem declare (name : String) : Proceeds 0 P n 0 (declare name) :=
  fun c _ _ => ⟨.of_eq rfl, fun _ h => h, Cursor.length_declareIn name c.locals⟩

theorem forM_declare (params : List Ident) :
    Proceeds 0 P n 0 (params.forM fun p => Parser.declare p.name) := by
  induction params generalizing P with
  | nil => exact give
  | cons p params ih => exact (declare p.name).bind fun _ => ih

theorem withNewlines (h : Proceeds 0 Anywhere n k m) : Proceeds 0 P n k (withNewlines m) :=
  fun c _ hc => EndsAhead.bind (c := { c with parens := 0 }) (h trivial hc)
    fun _ _ hd => ⟨hd.passes, fun _ h => h, hd.scopes⟩

theorem inScope (closed : Bool) (h : Proceeds 0 Anywhere n k m) : Proceeds 0 P n k (inScope closed m) :=
  fun c _ hc => EndsAhead.bind (c := { c with locals := ⟨closed, []⟩ :: c.locals }) (h trivial hc)
    fun _ d hd => by
      have hscopes : d.locals.length = c.locals.length + 1 := hd.scopes
      exact ⟨hd.passes, hd.parens, by simp [hscopes]⟩

theorem commaList {gap : Parser Unit} (h : Proceeds 0 Anywhere n 1 m)
    (hgap : ∀ n, Proceeds 0 Anywhere n 0 gap) {fuel : Nat} (hn : n ≤ fuel) :
    Proceeds 0 P n 1 (commaList m gap fuel) := by
  induction fuel generalizing n P with
  | zero => exact fun c _ hc => absurd hc (by omega)
  | succ fuel ih =>
    cases n with
    | zero => exact fun c _ hc => absurd hc (by omega)
    | succ n =>
      refine .step h.anywhere fun first => (eat (by decide)).bind fun more => ?_
      split
      · exact (hgap n).bind fun _ => (ih (h.fewer (Nat.le_succ n)) (by omega)).bind fun _ => give
      · exact give

end Proceeds

/-! ### Productions -/

section
variable {n : Nat} {P : Cursor → Prop}

theorem proceeds_ident : Proceeds 0 P n 1 ident :=
  (Proceeds.expect (by decide)).bind fun _ => Proceeds.freshId.bind fun _ => .give

theorem proceeds_idents : Proceeds 0 P n 1 idents :=
  .itemFuel fun _ _ => proceeds_ident.commaList (fun _ => .give) le_rfl

theorem proceeds_blockParams : Proceeds 0 P n 0 blockParams := by
  refine (Proceeds.eat (by decide)).bind fun some => ?_
  have hclose (params : List Ident) : Proceeds 0 Anywhere n 0 (expect .bar >>= fun _ => pure params) :=
    (Proceeds.expect (by decide)).bind fun _ => .give
  split
  · refine .kind fun k => ?_
    show Proceeds _ _ _ _ (ite _ _ _)
    split
    · exact Proceeds.give.bind hclose
    · exact proceeds_idents.bind hclose
  · exact .give

theorem proceeds_defParams : Proceeds 0 P n 0 defParams := by
  refine .kind fun k => ?_
  split
  · refine .openParen fun _ => .kind fun k => ?_
    have hclose (params : List Ident) : Proceeds 1 Anywhere (n - 1) 0
        (closeParen >>= fun _ => skipTerminators >>= fun _ => pure params) :=
      .closeParen fun _ => Proceeds.skipTerminators.bind fun _ => .give
    show Proceeds _ _ _ _ (ite _ _ _)
    split
    · exact Proceeds.give.bind hclose
    · exact proceeds_idents.bind hclose
  · refine .kind fun k => ?_
    split
    · exact proceeds_idents.bind fun _ => (Proceeds.expectTerminator _).bind fun _ => .give
    · exact (Proceeds.expectTerminator _).bind fun _ => .give

/-- At the end of a production the node gets its identity. -/
theorem proceeds_node {span : Span} {form : Form Expr} :
    Proceeds 0 P n 0 (freshId >>= fun id => pure (Expr.node id span form)) :=
  Proceeds.freshId.bind fun _ => .give

/-! ### Statements -/

section
variable {expr : ExprParser} {closers : List Token.Kind} {fuel : Nat} {c d : Cursor} {stmt : Expr}

theorem statements_of_closes (h : closes closers c.skipTerminators.kind = true) :
    statements expr closers (fuel + 1) c = ([], .ok () c.skipTerminators) := by
  simp only [statements, h, if_true]

variable (h : closes closers c.skipTerminators.kind = false)
include h

theorem statements_of_error {e : Setback} (hstmt : expr true c.skipTerminators = .error e d) :
    statements expr closers (fuel + 1) c = ([], .error e d) := by
  simp only [statements, h, hstmt, Bool.false_eq_true, if_false]

theorem statements_of_ok (hstmt : expr true c.skipTerminators = .ok stmt d)
    (hd : (Cursor.isTerminator d.kind || closes closers d.kind) = true) :
    statements expr closers (fuel + 1) c =
      (stmt :: (statements expr closers fuel d).1, (statements expr closers fuel d).2) := by
  simp only [statements, h, hstmt, hd, Bool.false_eq_true, if_false, if_true]

theorem statements_of_stuck (hstmt : expr true c.skipTerminators = .ok stmt d)
    (hd : (Cursor.isTerminator d.kind || closes closers d.kind) = false) :
    statements expr closers (fuel + 1) c =
      ([stmt], .error (.fault (.unexpectedToken (.terminator .statement) d.current)) d) := by
  simp only [statements, h, hstmt, hd, Bool.false_eq_true, if_false]

end

/-- The ways in which a run of statements goes on. -/
theorem statements_cases (expr : ExprParser) (closers : List Token.Kind) (c : Cursor) :
    closes closers c.skipTerminators.kind = true ∨
    closes closers c.skipTerminators.kind = false ∧
      ((∃ e d, expr true c.skipTerminators = .error e d) ∨
       ∃ stmt d, expr true c.skipTerminators = .ok stmt d ∧
        ((Cursor.isTerminator d.kind || closes closers d.kind) = true ∨
         (Cursor.isTerminator d.kind || closes closers d.kind) = false)) := by
  cases hstmt : expr true c.skipTerminators with
  | error e d =>
    cases closes closers c.skipTerminators.kind
    · exact .inr ⟨rfl, .inl ⟨e, d, rfl⟩⟩
    · exact .inl rfl
  | ok stmt d =>
    cases closes closers c.skipTerminators.kind
    · exact .inr ⟨rfl, .inr ⟨stmt, d, rfl, (Bool.eq_false_or_eq_true _)⟩⟩
    · exact .inl rfl

/-- Statements that are read from `c` on, one behind the other, and end at `d`. -/
inductive Statements (expr : ExprParser) (closers : List Token.Kind) : Nat → Cursor → List Expr → Cursor → Prop
  | nil {fuel : Nat} {c : Cursor} (hcloses : closes closers c.skipTerminators.kind = true) :
    Statements expr closers (fuel + 1) c [] c.skipTerminators
  | cons {fuel : Nat} {c x d : Cursor} {stmt : Expr} {stmts : List Expr}
    (hopen : closes closers c.skipTerminators.kind = false) (hstmt : expr true c.skipTerminators = .ok stmt x)
    (hends : (Cursor.isTerminator x.kind || closes closers x.kind) = true)
    (hrest : Statements expr closers fuel x stmts d) : Statements expr closers (fuel + 1) c (stmt :: stmts) d

theorem statements_eq_ok_iff {expr : ExprParser} {closers : List Token.Kind} {fuel : Nat} {c d : Cursor}
    {stmts : List Expr} :
    statements expr closers fuel c = (stmts, .ok () d) ↔ Statements expr closers fuel c stmts d := by
  constructor
  · intro hrun
    induction fuel generalizing c stmts with
    | zero => cases hrun
    | succ fuel ih =>
      rcases statements_cases expr closers c with hc | ⟨hc, ⟨e, x, hstmt⟩ | ⟨stmt, x, hstmt, hx | hx⟩⟩
      · rw [statements_of_closes hc] at hrun
        cases hrun
        exact .nil hc
      · rw [statements_of_error hc hstmt] at hrun
        cases hrun
      · rw [statements_of_ok hc hstmt hx] at hrun
        obtain ⟨rfl, hrest⟩ := Prod.mk.inj hrun
        exact .cons hc hstmt hx (ih (Prod.ext rfl hrest))
      · rw [statements_of_stuck hc hstmt hx] at hrun
        cases hrun
  · intro h
    induction h with
    | nil hcloses => exact statements_of_closes hcloses
    | cons hopen hstmt hends _ ih => rw [statements_of_ok hopen hstmt hends, ih]

section
variable {expr : ExprParser} (h : ∀ allowDo, Proceeds 0 Anywhere n 1 (expr allowDo))
include h

theorem proceeds_statements (closers : List Token.Kind) {fuel : Nat} {c : Cursor} (hn : n ≤ fuel)
    (hc : c.rest.length < n) : EndsAhead 0 c 0 (statements expr closers fuel c).2 := by
  induction fuel generalizing n c with
  | zero => omega
  | succ fuel ih =>
    have hskip : Cursor.Leads 0 c 0 c.skipTerminators := Proceeds.skipTerminators (P := Anywhere) trivial hc
    have hlength := hskip.passes.length_le
    simp only [statements]
    split
    · exact hskip
    · have hstmt := h true (c := c.skipTerminators) trivial (by omega)
      split
      · next hrun => rw [hrun] at hstmt; exact hstmt
      · next stmt d hrun =>
        rw [hrun] at hstmt
        have hd : Cursor.Leads 0 c.skipTerminators 1 d := hstmt
        have hlength' := hd.passes.length_le
        split
        · have hrest := ih (n := n - 1) (fun b => (h b).fewer (Nat.sub_le n 1)) (by omega) (c := d) (by omega)
          exact ((hrest.trans hd).trans hskip).mono (Nat.zero_le _)
        · rintro ⟨⟩

omit h in
/-- Where a list of statements ends without a fault it may end. -/
theorem closes_of_statements {closers : List Token.Kind} {fuel : Nat} {c d : Cursor} {stmts : List Expr}
    (hrun : statements expr closers fuel c = (stmts, .ok () d)) : closes closers d.kind = true := by
  replace hrun := statements_eq_ok_iff.1 hrun
  induction hrun with
  | nil hcloses => exact hcloses
  | cons _ _ _ _ ih => exact ih

theorem proceeds_body (closers : List Token.Kind) : Proceeds 0 P n 0 (body expr closers) := by
  intro c _ hc
  have hstmts := proceeds_statements (fun b => (h b).fewer hc) closers le_rfl (Nat.lt_succ_self c.rest.length)
  unfold body
  split
  · next hrun => rw [hrun] at hstmts; exact hstmts
  · next hrun => rw [hrun] at hstmts; exact hstmts

theorem proceeds_parenArgs : Proceeds 0 P n 1 (parenArgs expr) := by
  refine .openParen fun _ => .kind fun k => ?_
  have hclose (n : Nat) (args : List Expr) : Proceeds 1 Anywhere n 0
      (closeParen >>= fun close => pure (args, close.span)) := .closeParen fun _ => .give
  show Proceeds _ _ _ _ (ite _ _ _)
  split
  · exact Proceeds.give.bind (hclose _)
  · refine .itemFuel fun fuel hfuel => ?_
    exact (((h true).fewer (by omega)).commaList (fun _ => .give) le_rfl).bind fun args =>
      hclose fuel args

theorem proceeds_commandArgs : Proceeds 0 P n 1 (commandArgs expr) :=
  .itemFuel fun _ hfuel => ((h false).fewer hfuel).commaList (fun _ => .skipNewlines) le_rfl

theorem proceeds_args (span : Span) : Proceeds 0 P n 0 (args expr span) := by
  refine .kind fun k => ?_
  split
  · exact (proceeds_parenArgs h).bind fun _ => .give
  · refine .kind fun k => ?_
    split
    · exact (proceeds_commandArgs h).bind fun _ => .give
    · exact .give

theorem proceeds_blockContents (closer : Token.Kind) : Proceeds 0 P n 0 (blockContents expr closer) :=
  .inScope false <| .withNewlines <| proceeds_blockParams.bind fun params =>
    (Proceeds.forM_declare params).bind fun _ => (proceeds_body h _).bind fun _ => .give

theorem proceeds_bracketed {first closer : Token.Kind} (hfirst : first ≠ .eof ∧ first ≠ .invalid)
    {last : Token → Parser Token} (hlast : ∀ t n, Proceeds 0 Anywhere n 1 (last t)) :
    Proceeds 0 (·.kind = first) n 0 (bracketed expr closer last) :=
  (Proceeds.bump fun _ h => by rwa [h]).bind fun opener => (proceeds_blockContents h _).bind fun ⟨_, _⟩ =>
    (hlast opener _).bind fun _ => Proceeds.freshId.bind fun _ => .give

theorem proceeds_doBlock : Proceeds 0 (·.kind = .doKw) n 0 (doBlock expr) := by
  rw [doBlock_eq]
  exact proceeds_bracketed h (by decide) fun _ _ => .expectEnd _ _

theorem proceeds_braceBlock : Proceeds 0 (·.kind = .lbrace) n 0 (braceBlock expr) := by
  rw [braceBlock_eq]
  exact proceeds_bracketed h (by decide) fun _ _ => .expect (by decide)

theorem proceeds_block? (allowDo : Bool) : Proceeds 0 P n 0 (block? expr allowDo) := by
  refine .kind fun k => ?_
  split
  · next hk => exact ((proceeds_braceBlock h).pre fun c hc => hc.2.trans hk).bind fun _ => .give
  · refine .kind fun k => ?_
    split
    · next hk =>
      have hk : k = .doKw := by
        rw [Bool.and_eq_true, beq_iff_eq] at hk
        exact hk.2
      exact ((proceeds_doBlock h).pre fun c hc => hc.2.trans hk).bind fun _ => .give
    · exact .give

/-! ### Expressions -/

theorem proceeds_assignment (allowDo : Bool) :
    Proceeds 0 (fun c => c.kind = .ident ∧ c.next.kind = .eq) (n + 1) 1 (assignment expr allowDo) := by
  refine .bumpThen (Q := (·.kind = .eq)) (fun _ h => by rw [h.1]; decide) (fun _ h => h.2) fun name => ?_
  refine (Proceeds.bump fun _ h => by rw [h]; decide).bind fun _ => Proceeds.skipNewlines.bind fun _ => ?_
  refine (Proceeds.declare name.text).bind fun _ => Proceeds.freshId.bind fun id => ?_
  exact (h allowDo).bind fun value => proceeds_node

theorem proceeds_nameExpr (allowDo : Bool) :
    Proceeds 0 (·.kind = .ident) (n + 1) 1 (nameExpr expr allowDo) := by
  refine .step (.bump fun _ h => by rw [h]; decide) fun name => ?_
  refine (Proceeds.isLocal name.text).bind fun known => ?_
  have hcall : Proceeds 0 Anywhere n 0 (args expr name.span >>= fun r => do
      let block ← block? expr allowDo
      let span := (block.map fun b => r.2.merge b.span).getD r.2
      return Expr.node (← freshId) span (.call name.text name.span r.1 block)) :=
    (proceeds_args h name.span).bind fun r => (proceeds_block? h allowDo).bind fun _ => proceeds_node
  cases known with
  | false => exact .kind fun _ => hcall.anywhere
  | true =>
    refine .kind fun k => ?_
    split
    · exact proceeds_node
    · exact hcall.anywhere

theorem proceeds_yieldExpr : Proceeds 0 (·.kind = .yieldKw) (n + 1) 1 (yieldExpr expr) :=
  .step (.bump fun _ h => by rw [h]; decide) fun _ => (proceeds_args h _).bind fun ⟨_, _⟩ => proceeds_node

theorem proceeds_branchRest {fuel : Nat} (hn : n ≤ fuel) (construct : Fault.Construct) (opener : Span) :
    Proceeds 0 P n 0 (branchRest expr fuel construct opener) := by
  induction fuel generalizing n P construct opener with
  | zero => exact fun c _ hc => absurd hc (by omega)
  | succ fuel ih =>
    cases n with
    | zero => exact fun c _ hc => absurd hc (by omega)
    | succ n =>
      have hfewer (b : Bool) : Proceeds 0 Anywhere n 1 (expr b) := (h b).fewer (Nat.le_succ n)
      refine .step (h true).anywhere fun cond => (Proceeds.expectTerminator _).bind fun _ => ?_
      refine (proceeds_body hfewer _).bind fun thenBody => .kind fun k => ?_
      have hend (r : Option (List Expr) × Span) : Proceeds 0 Anywhere n 0
          (freshId >>= fun id =>
            pure (Expr.node id (opener.merge r.2) (.branch cond thenBody r.1))) := proceeds_node
      split
      · refine (Proceeds.bump fun c hc => by rw [hc.2]; decide).bind fun keyword => ?_
        exact (ih hfewer (by omega) _ _).bind fun nested => hend (some [nested], nested.span)
      · refine (Proceeds.bump fun c hc => by rw [hc.2]; decide).bind fun _ => ?_
        exact (proceeds_body hfewer _).bind fun stmts => (Proceeds.expectEnd _ _).bind fun close =>
          hend (some stmts, close.span)
      · exact (Proceeds.expectEnd _ _).bind fun close => hend (none, close.span)

theorem proceeds_branchExpr : Proceeds 0 (·.kind = .ifKw) (n + 1) 1 (branchExpr expr) :=
  .step (.bump fun _ h => by rw [h]; decide) fun _ => .itemFuel fun _ hfuel =>
    proceeds_branchRest (fun b => (h b).fewer hfuel) le_rfl _ _

theorem proceeds_loopExpr : Proceeds 0 (·.kind = .whileKw) (n + 1) 1 (loopExpr expr) := by
  refine .step (.bump fun _ h => by rw [h]; decide) fun keyword => (h false).bind fun cond => ?_
  have hbody : Proceeds 0 Anywhere n 0 (do
      let stmts ← body expr [.endKw]
      let close ← expectEnd .whileExpr keyword.span
      return Expr.node (← freshId) (keyword.span.merge close.span) (.loop cond stmts)) :=
    (proceeds_body h _).bind fun _ => (Proceeds.expectEnd _ _).bind fun _ => proceeds_node
  refine (Proceeds.eat (by decide)).bind fun some => ?_
  show Proceeds _ _ _ _ (ite _ _ _)
  split
  · exact Proceeds.skipTerminators.bind fun _ => hbody
  · exact (Proceeds.expectTerminator _).bind fun _ => hbody

theorem proceeds_defExpr : Proceeds 0 (·.kind = .defKw) (n + 1) 1 (defExpr expr) := by
  refine .step (.bump fun _ h => by rw [h]; decide) fun keyword => proceeds_ident.bind fun name => ?_
  refine proceeds_defParams.bind fun params => ?_
  have hbody : Proceeds 0 Anywhere n 0
      (params.forM (fun p => declare p.name) >>= fun _ => withNewlines (body expr [.endKw])) :=
    (Proceeds.forM_declare params).bind fun _ => (proceeds_body h _).withNewlines
  exact (hbody.inScope true).bind fun stmts => (Proceeds.expectEnd _ _).bind fun _ => proceeds_node

theorem proceeds_parenExpr : Proceeds 0 P (n + 1) 1 (parenExpr expr) :=
  .openParen fun _ => (h true).bind fun _ => .closeParen fun _ => .give

theorem proceeds_primary : Proceeds 0 P (n + 1) 1 (primary expr) := by
  intro c hP hc
  rw [primary_run]
  split
  · next v hliteral =>
    have hkind := Token.startsArgument_of_literal? hliteral
    have hnode : Proceeds 0 (· = c) (n + 1) 1 (bump >>= fun _ =>
        freshId >>= fun id => pure (Expr.node id c.current.span (.literal v))) :=
      (Proceeds.bump fun _ h => by
        rw [h]
        exact ⟨ne_of_startsArgument hkind rfl, ne_of_startsArgument hkind rfl⟩).bind fun _ => proceeds_node
    exact hnode rfl hc
  · exact nofun
  · split
    · exact proceeds_parenExpr h hP hc
    · exact nofun

theorem proceeds_exprLayer (allowDo : Bool) : Proceeds 0 P (n + 1) 1 (exprLayer expr allowDo) := by
  intro c hP hc
  rw [exprLayer_run]
  split
  · next hkind => exact proceeds_defExpr h hkind hc
  · next hkind => exact proceeds_branchExpr h hkind hc
  · next hkind => exact proceeds_loopExpr h hkind hc
  · next hkind => exact proceeds_yieldExpr h hkind hc
  · next hkind =>
    split
    · next hnext => exact proceeds_assignment h allowDo ⟨hkind, hnext⟩ hc
    · exact proceeds_nameExpr h allowDo hkind hc
  · exact proceeds_primary h hP hc

end

end

/-- As many levels as there are tokens are enough for an expression: each level reads a token before it
goes on to the next one. -/
theorem proceeds_expr (fuel : Nat) (allowDo : Bool) : Proceeds 0 Anywhere fuel 1 (expr fuel allowDo) := by
  induction fuel generalizing allowDo with
  | zero => exact fun c _ hc => absurd hc (Nat.not_lt_zero _)
  | succ fuel ih => exact proceeds_exprLayer ih allowDo

end Parser

theorem Lexeme.kind_ne_eof (c : Char) (cs : List Char) : (Lexeme.from c cs).kind ≠ .eof := by
  unfold Lexeme.from
  split
  · next kind hkind =>
    rintro rfl
    unfold punctuation? at hkind
    split at hkind <;> cases hkind
  · split_ifs with hcomment hdigit hchar hstring hstart
    · nofun
    · show (scanNumber cs).1 ≠ .eof
      rcases kind_scanNumber cs with h | h <;> rw [h] <;> decide
    · show (if (scanQuoted c cs).1 then Token.Kind.char else .invalid) ≠ .eof
      split <;> decide
    · show (if (scanQuoted c cs).1 then Token.Kind.string else .invalid) ≠ .eof
      split <;> decide
    · show (Token.keyword? (String.ofList (c :: (scanName cs).1))).getD .ident ≠ .eof
      cases hkw : Token.keyword? (String.ofList (c :: (scanName cs).1)) with
      | none => decide
      | some kind =>
        rintro rfl
        exact Token.keyword?_ne (by decide) _ hkw
    · nofun

/-- The end of the text is not among the tokens before it. -/
theorem Token.kind_ne_eof_of_mem_scanFrom {pos : Nat} {cs : List Char} {t : Token}
    (h : t ∈ Token.scanFrom pos cs) : t.kind ≠ .eof := by
  obtain ⟨start, c, rest, -, rfl⟩ := Token.exists_lexeme_of_mem_scanFrom h
  exact Lexeme.kind_ne_eof c rest

/-- The cursor before the first token of a text. -/
def Cursor.ofText (source : String) : Cursor :=
  .start (Token.lexemes source) (byteLength source.toList)

namespace Program

/-- The run of statements that a text is read by. -/
def reading (source : String) : List Expr × EStateM.Result Setback Cursor Unit :=
  Parser.statements (Parser.expr ((Cursor.ofText source).rest.length + 1)) []
    ((Cursor.ofText source).rest.length + 1) (.ofText source)

theorem parse_eq (source : String) : parse source = match reading source with
    | (stmts, .ok () c) => ⟨⟨stmts⟩, none, c⟩
    | (stmts, .error setback c) => ⟨⟨stmts⟩, some setback, c⟩ := rfl

theorem stmts_parse (source : String) : (parse source).program.stmts = (reading source).1 := by
  rw [parse_eq]
  split <;> simp [*]

theorem reading_of_program? {source : String} {p : Program} (h : (parse source).program? = some p) :
    ∃ d, reading source = (p.stmts, .ok () d) := by
  rw [parse_eq] at h
  split at h
  · next stmts d hrun =>
    cases h
    exact ⟨d, hrun⟩
  · cases h

theorem endsAhead_reading (source : String) :
    Parser.EndsAhead 0 (.ofText source) 0 (reading source).2 :=
  Parser.proceeds_statements (fun b => Parser.proceeds_expr _ b) [] le_rfl (Nat.lt_succ_self _)

/-- Parsing ends by itself: at the end of the text or at a fault. -/
theorem parse_ends (source : String) : (parse source).setback? ≠ some .outOfFuel := by
  have hrun := endsAhead_reading source
  rw [parse_eq]
  split
  · nofun
  · next h =>
    rw [h] at hrun
    exact fun h => hrun (Option.some.inj h)

/-- A text that parses is read up to its end, and all its tokens are valid. -/
theorem valid_of_reading {source : String} {stmts : List Expr} {d : Cursor}
    (h : reading source = (stmts, .ok () d)) :
    d.rest = [] ∧ ∀ t ∈ Token.lexemes source, t.kind ≠ .invalid := by
  have hd : Cursor.Leads 0 (.ofText source) 0 d := by
    have hrun := endsAhead_reading source
    rw [h] at hrun
    exact hrun
  obtain ⟨read, hread, -, hvalid⟩ := hd.passes
  have hkind : d.kind = .eof := by
    have hcloses := Parser.closes_of_statements h
    simpa [Parser.closes] using hcloses
  -- no parenthesis is open any more, so the cursor sees all that is left
  have hrest : d.rest = [] := by
    have hvisible : d.visible = d.rest := if_pos (hd.parens 0 rfl)
    cases hd : d.rest with
    | nil => rfl
    | cons t ts =>
      have ht : t ∈ (Cursor.ofText source).rest := by simp [hread, hd]
      have hcurrent : d.kind = t.kind := by simp [Cursor.kind, Cursor.current, hvisible, hd]
      exact absurd (hcurrent.symm.trans hkind)
        (Token.kind_ne_eof_of_mem_scanFrom (List.mem_of_mem_filter ht))
  refine ⟨hrest, fun t ht hinvalid => ?_⟩
  have hmem : t ∈ (Cursor.ofText source).rest := List.mem_filter.2 ⟨ht, by rw [hinvalid]; decide⟩
  rw [hread, hrest, List.append_nil] at hmem
  exact hvalid t hmem hinvalid

end Program

end FlowTyping
