import FlowTyping.Proofs.Agreeing
import FlowTyping.Proofs.Walking

/-!
# Calls with a block

A statement that is a call with a block: `CallRun.Reads` says what reading it comes to, and
`Parser.statements_of_reads` that this is enough.  Where the arguments end and where the block ends shows
from the brackets alone, if what stands between the brackets of the block is balanced
(`Parser.commandArgs_ends`, `Parser.commaList_ends`, `Parser.contents_end`).
-/

namespace FlowTyping

open Opening Brackets

theorem Cursor.rest_eq_of_kind {c : Cursor} (hparens : c.parens = 0) (h : c.kind ≠ .eof) :
    c.rest = c.current :: c.next.rest := by
  have hvisible : c.visible = c.rest := if_pos hparens
  cases hrest : c.rest with
  | nil => exact absurd (by rw [Cursor.kind_eq_firstKind hparens, hrest]; rfl) h
  | cons t ts => simp [Cursor.current, Cursor.next, hvisible, hrest]

/-- The first token is the current one, unless it is a line feed inside of parentheses. -/
theorem Cursor.current_eq {c : Cursor} {t : Token} {ts : List Token} (hrest : c.rest = t :: ts)
    (h : c.parens = 0 ∨ t.kind ≠ .newline) : c.current = t ∧ c.next.rest = ts := by
  have hvisible : c.visible = t :: ts := by
    unfold Cursor.visible
    split
    · exact hrest
    · next hparens => simp [hrest, h.resolve_left hparens]
  simp [Cursor.current, Cursor.next, hvisible]

/-- A token that starts an argument is never hidden. -/
theorem Cursor.startsArgument_kind {c : Cursor} {ts rest : List Token} (hrest : c.rest = ts ++ rest)
    (h : Parser.startsArgument (firstKind ts) = true) : Parser.startsArgument c.kind = true := by
  cases ts with
  | nil => cases h
  | cons t ts =>
    have hcurrent := (Cursor.current_eq hrest (.inr (Parser.ne_of_startsArgument h rfl))).1
    rwa [Cursor.kind, hcurrent]

namespace Parser

/-! ### The productions of a call -/

section
variable {expr : ExprParser} {c d : Cursor}

theorem args_of_startsArgument (h : startsArgument c.kind = true) (span : Span) : args expr span c =
    (commandArgs expr >>= fun args =>
      pure (args, (args.getLast?.map fun last => span.merge last.span).getD span)) c := by
  show (if c.kind = .lparen then _ else kind >>= _ : Parser _) c = _
  rw [if_neg (ne_of_startsArgument h rfl)]
  show (if startsArgument c.kind = true then _ else _ : Parser _) c = _
  rw [if_pos h]

theorem args_of_lparen (h : c.kind = .lparen) (span : Span) : args expr span c =
    (parenArgs expr >>= fun r => pure (r.1, span.merge r.2)) c :=
  congrFun (if_pos h) c

/-- Arguments in parentheses, where there is one. -/
theorem parenArgs_run (h : c.kind = .lparen)
    (hnext : ({ c.next with parens := c.parens + 1 } : Cursor).kind ≠ .rparen) : parenArgs expr c =
      (commaList (expr true) (pure ()) (c.next.rest.length + 1) >>= fun args =>
        closeParen >>= fun close => pure (args, close.span)) { c.next with parens := c.parens + 1 } := by
  refine (bind_of_ok ((openParen_run c).trans (if_pos h))).trans ((bind_of_ok rfl).trans ?_)
  exact congrFun (if_neg hnext) _

/-- The brackets of a block. -/
def Encloses (opener closer : Token.Kind) : Prop :=
  opener = .lbrace ∧ closer = .rbrace ∨ opener = .doKw ∧ closer = .endKw

/-- A block is read between its brackets, if it ends with the closing one. -/
theorem bracketed_eq_ok_iff {closer : Token.Kind} {last : Token → Parser Token} {err : Cursor → Setback}
    {b : Option (Block Expr)}
    (hlast : ∀ x, last c.current x = if x.kind = closer then .ok x.current x.next else .error (err x) x) :
    (bracketed expr closer last >>= fun block => pure (some block)) c = .ok b d ↔ ∃ params stmts x,
      blockContents expr closer c.next = .ok (params, stmts) x ∧ x.kind = closer ∧
        b = some ⟨x.nextId, c.current.span.merge x.current.span, params, stmts⟩ ∧
          d = { x.next with nextId := x.nextId + 1 } := by
  constructor
  · intro hrun
    obtain ⟨block, w, hblock, hrun⟩ := bind_eq_ok_iff.1 hrun
    cases hrun
    obtain ⟨opener, v, hopener, hblock⟩ := bind_eq_ok_iff.1 hblock
    cases hopener
    obtain ⟨⟨params, stmts⟩, x, hcontents, hblock⟩ := bind_eq_ok_iff.1 hblock
    obtain ⟨close, y, hclose, hblock⟩ := bind_eq_ok_iff.1 hblock
    rw [hlast] at hclose
    split at hclose <;> cases hclose
    next hk =>
      cases hblock
      exact ⟨params, stmts, x, hcontents, hk, rfl, rfl⟩
  · rintro ⟨params, stmts, x, hcontents, hk, rfl, rfl⟩
    exact bind_of_ok ((bind_of_ok rfl).trans
      ((bind_of_ok hcontents).trans (bind_of_ok ((hlast x).trans (if_pos hk)))))

/-- What is read of a block that is there. -/
theorem block?_eq_ok_iff {closer : Token.Kind} {b : Option (Block Expr)} (h : Encloses c.kind closer) :
    block? expr true c = .ok b d ↔ ∃ params stmts x,
      blockContents expr closer c.next = .ok (params, stmts) x ∧ x.kind = closer ∧
        b = some ⟨x.nextId, c.current.span.merge x.current.span, params, stmts⟩ ∧
          d = { x.next with nextId := x.nextId + 1 } := by
  rcases h with ⟨hk, rfl⟩ | ⟨hk, rfl⟩
  · have hrun : block? expr true c = (braceBlock expr >>= fun block => pure (some block)) c :=
      congrFun (if_pos hk) c
    rw [hrun, braceBlock_eq]
    exact bracketed_eq_ok_iff fun _ => rfl
  · have hrun : block? expr true c = (doBlock expr >>= fun block => pure (some block)) c :=
      (congrFun (if_neg (by rw [hk]; decide)) c).trans (congrFun (if_pos (by rw [hk]; rfl)) c)
    rw [hrun, doBlock_eq]
    exact bracketed_eq_ok_iff fun _ => rfl

theorem block?_of_other (h : c.kind ≠ .lbrace ∧ c.kind ≠ .doKw) (allowDo : Bool) :
    block? expr allowDo c = .ok none c := by
  refine (bind_of_ok rfl).trans ?_
  rw [if_neg h.1]
  refine (bind_of_ok rfl).trans ?_
  rw [beq_eq_false_iff_ne.2 h.2, Bool.and_false]
  rfl

end

/-! ### Where arguments and blocks end -/

section
variable {n : Nat} {c d : Cursor} {xs us ts inner : List Token} {o z : Token} {closer : Token.Kind} {on : Bool}
  {fs : List Opening}

theorem around_nil {allowDo : Bool} : Around allowDo 0 [] := ⟨rfl, fun _ => nofun⟩

/-- A block that holds balanced tokens is read up to its end. -/
theorem contents_end (hinner : Balanced inner) (hcloser : closer = .rbrace ∨ closer = .endKw)
    (hrest : c.rest = inner ++ [z]) {r : List Ident × List Expr} (hparens : c.parens = 0)
    (hrun : blockContents (expr n) closer c = .ok r d) (hd : d.kind = closer) :
    d.parens = 0 ∧ d.rest = [z] := by
  obtain ⟨read, hread, hwalk, hd0⟩ :=
    walks_blockContents (walks_expr n) around_nil closer (P := Anywhere) trivial hparens hrun
  have hne : d.kind ≠ .eof := by rcases hcloser with rfl | rfl <;> rw [hd] <;> decide
  have hcur := Cursor.rest_eq_of_kind hd0 hne
  refine ⟨hd0, ?_⟩
  rw [hrest, hcur] at hread
  obtain ⟨ws, rfl, hws⟩ | ⟨ws, rfl, hws⟩ := List.append_eq_append_iff.1 hread
  · cases ws with
    | nil => rw [hcur, ← List.nil_append (_ :: _), ← hws]
    | cons w ws => simp at hws
  · cases ws with
    | nil => rw [hcur, hws, List.nil_append]
    | cons w ws =>
      obtain ⟨rfl, -⟩ := List.cons.inj hws
      have hclose := hinner.closable_eq_nil hwalk
      rw [show d.current.kind = closer from hd] at hclose
      rcases hcloser with rfl | rfl <;> cases hclose

/-- A block behind a name ends before what it does not open. -/
theorem block?_inside (hparens : c.parens = 0) (hrest : c.rest = us ++ ts) (hne : us ≠ [])
    (hus : (mk false []).run us = some ⟨on, fs⟩) (hfs : ¬ [.brace] <:+ fs) (hdo : ∀ t ∈ us, t.kind ≠ .doKw)
    {b : Option (Block Expr)} (hrun : block? (expr n) true c = .ok b d) :
    d.parens = 0 ∧ ∃ ws, ws <:+ us ∧ d.rest = ws ++ ts := by
  obtain ⟨t, us, rfl⟩ := List.exists_cons_of_ne_nil hne
  obtain ⟨hcurrent, hnext⟩ := Cursor.current_eq hrest (.inl hparens)
  have hkind : c.kind = t.kind := congrArg Token.kind hcurrent
  by_cases hbrace : t.kind = .lbrace
  · rw [block?_eq_ok_iff (.inl ⟨hkind.trans hbrace, rfl⟩)] at hrun
    obtain ⟨params, stmts, x, hcontents, hx, -, rfl⟩ := hrun
    obtain ⟨read, hread, hwalk, hx0⟩ :=
      walks_blockContents (walks_expr n) around_nil _ (P := Anywhere) (c := c.next) trivial hparens hcontents
    refine ⟨hx0, ?_⟩
    rw [run_cons, step_of_kind hbrace (by decide), shift_open (f := .brace) (by decide)] at hus
    -- the brace that is opened here is closed among `us`
    have hopen (ws : List Token) (h : read = us ++ ws) : False := by
      rw [h] at hwalk
      obtain ⟨⟨on', gs⟩, hgs, -⟩ := exists_of_run_append hwalk
      have hbelow := run_below hgs (.inl (⟨rfl, nofun⟩ : hides [.brace] = false ∧ Settled [.brace]))
      rw [show (mk false ([] ++ [.brace])).run us = _ from hus] at hbelow
      cases hbelow
      exact hfs (List.suffix_append ..)
    rw [hnext, Cursor.rest_eq_of_kind hx0 (by rw [hx]; decide)] at hread
    obtain ⟨ws, h, -⟩ | ⟨ws, rfl, hws⟩ := List.append_eq_append_iff.1 hread
    · exact (hopen ws h).elim
    · cases ws with
      | nil => exact (hopen [] (by simp)).elim
      | cons w ws =>
        obtain ⟨-, hws⟩ := List.cons.inj hws
        exact ⟨ws, ⟨t :: read ++ [w], by simp⟩, hws⟩
  · rw [block?_of_other ⟨hkind ▸ hbrace, hkind ▸ hdo t List.mem_cons_self⟩] at hrun
    cases hrun
    exact ⟨hparens, _, List.suffix_refl _, hrest⟩

/-- A block with balanced tokens inside leaves open what was open around it. -/
theorem run_block (on : Bool) (h : Encloses o.kind z.kind) (hinner : Balanced inner) (hfs : Settled fs) :
    ∃ on', (mk on fs).run (o :: (inner ++ [z])) = some ⟨on', fs⟩ := by
  have hblock {f : Opening} (hf : f ≠ .paren ∧ f ≠ .chain ∧ f ≠ .head) (hk : o.kind ≠ .newline)
      (hopen : shift o.kind fs = some (f :: fs)) (hon : goesOnBehind o.kind = false)
      (hz : z.kind ∉ settlers ∧ f ∈ closable z.kind) :
      ∃ on', (mk on fs).run (o :: (inner ++ [z])) = some ⟨on', fs⟩ := by
    have hbase : hides (f :: fs) = false ∧ Settled (f :: fs) :=
      ⟨by cases f <;> simp_all [hides], settled_cons.2 hf.2.2⟩
    obtain ⟨on', hrun⟩ := hinner.run hbase
    have hnewline : z.kind ≠ .newline := fun hk => hz.1 (hk ▸ by decide)
    refine ⟨goesOnBehind z.kind, ?_⟩
    rw [run_cons, step_of_kind rfl hk, hopen, hon]
    show (mk false (f :: fs)).run (inner ++ [z]) = _
    rw [run_append_of_run hrun, run_singleton, step_of_kind rfl hnewline, shift_close hz]
    rfl
  rcases h with ⟨ho, hz⟩ | ⟨ho, hz⟩ <;> rw [ho] at hblock
  · exact hblock (f := .brace) (by decide) (by decide) (shift_open (by decide)) rfl (by rw [hz]; decide)
  · exact hblock (f := .block) (by decide) (by decide) hfs.shift_do rfl (by rw [hz]; decide)

/-- Arguments without parentheses end among their tokens, since behind them a loop gets its body. -/
theorem commandArgs_ends (hxs : Balanced xs) (hplain : ∀ t ∈ xs, t.kind ∉ settlers) (hinner : Balanced inner)
    (ho : o.kind = .doKw) (hz : z.kind = .endKw) (hparens : c.parens = 0)
    (hrest : c.rest = xs ++ o :: (inner ++ [z])) {r : List Expr} (hrun : commandArgs (expr n) c = .ok r d) :
    d.parens = 0 ∧ ∃ us, us <:+ xs ∧ Balanced us ∧ d.rest = us ++ o :: (inner ++ [z]) := by
  have hhead : Around false 0 [.head] := ⟨rfl, nofun⟩
  have hwalks {fs : List Opening} (hfs : Around false 0 fs) :
      Walks Anywhere 0 ⟨false, fs⟩ (commandArgs (expr n)) 0 fun _ => ⟨false, fs⟩ :=
    walks_commandArgs (walks_expr n) hfs
  obtain ⟨read, hread, hwalk, hd0⟩ := hwalks hhead trivial hparens hrun
  obtain ⟨read', hread', hwalk', -⟩ := hwalks around_nil trivial hparens hrun
  obtain rfl : read = read' := List.append_cancel_right (hread.symm.trans hread')
  obtain ⟨on, hxs⟩ := hxs
  refine ⟨hd0, ?_⟩
  rw [hrest] at hread
  obtain ⟨ws, rfl, hws⟩ | ⟨us, rfl, hus⟩ := List.append_eq_append_iff.1 hread
  · cases ws with
    | nil => exact ⟨[], List.nil_suffix, ⟨false, rfl⟩, hws.symm⟩
    | cons w ws =>
      obtain ⟨rfl, hbehind⟩ := List.cons.inj hws
      -- the `do` would go with the loop
      have hhead : (mk false [.head]).run xs = some ⟨on, [.head]⟩ := run_below hxs (.inr hplain)
      rw [run_append_of_run hhead, run_cons, step_of_kind ho (by decide), shift_head (by decide)] at hwalk
      have hclosed : [Opening.head] = [] ∨ [Opening.chain] <:+ [Opening.head] :=
        hinner.run_closed (z := z) ⟨rfl, by decide⟩ (by rw [hz]; decide) ⟨_, hbehind.symm⟩ hwalk
      exact absurd hclosed (by decide)
  · rw [run_append_of_run hwalk'] at hxs
    exact ⟨us, List.suffix_append .., ⟨on, hxs⟩, hus⟩

/-- Arguments in parentheses end among their tokens. -/
theorem commaList_ends (hxs : ∃ on, (mk false [.paren]).run xs = some ⟨on, [.paren]⟩)
    (hinner : Balanced inner) {close : Token} (hclose : close.kind = .rparen) (ho : o.kind = .lbrace)
    (hz : z.kind = .rbrace) (hparens : c.parens = 1) (hrest : c.rest = xs ++ close :: o :: (inner ++ [z]))
    {fuel : Nat} {r : List Expr} (hrun : commaList (expr n true) (pure ()) fuel c = .ok r d) :
    d.parens = 1 ∧ ∃ us, us <:+ xs ∧ (∃ on, (mk false [.paren]).run us = some ⟨on, [.paren]⟩) ∧
      d.rest = us ++ close :: o :: (inner ++ [z]) := by
  have haround : Around true 1 [.paren] := around_paren
  have hwalks : Walks Anywhere 1 ⟨false, [.paren]⟩ (commaList (expr n true) (pure ()) fuel) 1
      fun _ => ⟨false, [.paren]⟩ :=
    .commaList (fun on => walks_expr n haround) (.give rfl) haround.calm fuel
  obtain ⟨read, hread, hwalk, hd0⟩ := hwalks trivial hparens hrun
  obtain ⟨on, hxs⟩ := hxs
  refine ⟨hd0, ?_⟩
  rw [hrest] at hread
  obtain ⟨ws, rfl, hws⟩ | ⟨us, rfl, hus⟩ := List.append_eq_append_iff.1 hread
  · cases ws with
    | nil => exact ⟨[], List.nil_suffix, ⟨false, rfl⟩, hws.symm⟩
    | cons w ws =>
      obtain ⟨rfl, hbehind⟩ := List.cons.inj hws
      -- behind the closing parenthesis none is open any more
      rw [run_append_of_run hxs, run_cons, step_of_kind hclose (by decide), shift_close (by decide)] at hwalk
      cases ws with
      | nil => cases hwalk
      | cons w ws =>
        obtain ⟨rfl, hinside⟩ := List.cons.inj hbehind
        have hopen : (mk false []).step o = some ⟨false, [.brace]⟩ := by
          rw [step_of_kind ho (by decide), shift_open (f := .brace) (by decide)]
          rfl
        have hrun : (mk false [.brace]).run ws = some ⟨false, [.paren]⟩ := by
          rw [← hwalk]
          exact (congrArg (Option.bind · (fun b => b.run ws)) hopen).symm
        have hclosed : [Opening.paren] = [] ∨ [Opening.brace] <:+ [Opening.paren] :=
          hinner.run_closed (z := z) ⟨rfl, by decide⟩ (by rw [hz]; decide) ⟨_, hinside.symm⟩ hrun
        exact absurd hclosed (by decide)
  · rw [run_append_of_run hwalk] at hxs
    exact ⟨us, List.suffix_append .., ⟨on, hxs⟩, hus⟩

end

end Parser

/-! ### A statement that is a call -/

/-- A name that is not local stands ahead, and no assignment. -/
structure Cursor.AtCall (c : Cursor) : Prop where
  parens : c.parens = 0
  kind : c.kind = .ident
  unknown : Cursor.isLocalIn c.current.text c.locals = false
  next : c.next.kind ≠ .eq

/-- What is read of a call with a block: the arguments with the span of the name and them, the cursor before
the block, what is in the block, and the cursor before its end. -/
structure CallRun where
  args : List Expr
  span : Span
  opening : Cursor
  params : List Ident
  stmts : List Expr
  closing : Cursor

namespace CallRun
variable (r : CallRun)

def block : Block Expr :=
  ⟨r.closing.nextId, r.opening.current.span.merge r.closing.current.span, r.params, r.stmts⟩

/-- The call, where its name is known. -/
def call (name : Token) : Expr :=
  .node (r.closing.nextId + 1) (r.span.merge r.block.span) (.call name.text name.span r.args (some r.block))

/-- The cursor behind the call. -/
def last : Cursor := { r.closing.next with nextId := r.closing.nextId + 2 }

/-- The run is what is read from `c`. -/
structure Reads (n : Nat) (closer : Token.Kind) (c : Cursor) : Prop where
  args : Parser.args (Parser.expr n) c.current.span c.next = .ok (r.args, r.span) r.opening
  encloses : Parser.Encloses r.opening.kind closer
  contents :
    Parser.blockContents (Parser.expr n) closer r.opening.next = .ok (r.params, r.stmts) r.closing
  closed : r.closing.kind = closer

end CallRun

namespace Parser

section
variable {n fuel : Nat} {c d : Cursor} {stmts : List Expr} {closer : Token.Kind}

theorem expr_of_atCall (h : c.AtCall) : expr (n + 1) true c =
    (args (expr n) c.current.span >>= fun r => block? (expr n) true >>= fun b => freshId >>= fun i =>
      pure (.node i ((b.map fun b => r.2.merge b.span).getD r.2)
        (.call c.current.text c.current.span r.1 b))) c.next := by
  have hlayer : expr (n + 1) true c = named (expr n) true c := by
    rw [expr, exprLayer_run, h.kind, named_run]
  have hknown : ((isLocal c.current.text) c.next) = .ok false c.next := by
    show EStateM.Result.ok (Cursor.isLocalIn c.current.text c.locals) c.next = _
    rw [h.unknown]
  rw [hlayer]
  show (if c.next.kind = .eq then _ else afterName (expr n) true c.current : Parser Expr) c.next = _
  rw [if_neg h.next]
  exact (bind_of_ok hknown).trans rfl

/-- A call with its block is a statement, if the text ends behind it. -/
theorem statements_of_reads (h : c.AtCall) {r : CallRun} (hr : r.Reads n closer c) (hlast : r.last.kind = .eof)
    (hparens : r.closing.parens = 0) :
    ∃ d, statements (expr (n + 1)) [] (fuel + 2) c = ([r.call c.current], .ok () d) := by
  have hstart := Cursor.skipTerminators_eq h.parens (by rw [h.kind]; rfl)
  have hend := Cursor.skipTerminators_eq (c := r.last) hparens (by rw [hlast]; rfl)
  have hstmt : expr (n + 1) true c.skipTerminators = .ok (r.call c.current) r.last := by
    rw [hstart, expr_of_atCall h]
    exact (bind_of_ok hr.args).trans
      (bind_of_ok ((block?_eq_ok_iff hr.encloses).2 ⟨_, _, _, hr.contents, hr.closed, rfl, rfl⟩))
  have hrest : statements (expr (n + 1)) [] (fuel + 1) r.last = ([], .ok () r.last.skipTerminators) :=
    statements_of_closes (by rw [hend, hlast]; rfl)
  have hcall : closes [] c.skipTerminators.kind = false := by
    rw [hstart, h.kind]
    rfl
  have hall : statements (expr (n + 1)) [] (fuel + 2) c = _ :=
    statements_of_ok hcall hstmt (by rw [hlast]; rfl)
  rw [hrest] at hall
  exact ⟨_, hall⟩

/-- A statement that is a call ends where a statement may end. -/
theorem reads_of_statements (h : c.AtCall)
    (hrun : statements (expr (n + 1)) [] fuel c = (stmts, .ok () d)) : ∃ as span b x y,
      args (expr n) c.current.span c.next = .ok (as, span) x ∧ block? (expr n) true x = .ok b y ∧
        (Cursor.isTerminator y.kind = true ∨ y.kind = .eof) := by
  have hstart := Cursor.skipTerminators_eq h.parens (by rw [h.kind]; rfl)
  cases statements_eq_ok_iff.1 hrun with
  | nil hcloses =>
    rw [hstart, h.kind] at hcloses
    cases hcloses
  | cons _ hstmt hends =>
    rw [hstart, expr_of_atCall h] at hstmt
    obtain ⟨⟨as, span⟩, y, hargs, hstmt⟩ := bind_eq_ok_iff.1 hstmt
    obtain ⟨b, w, hblock, hstmt⟩ := bind_eq_ok_iff.1 hstmt
    cases hstmt
    replace hends : (Cursor.isTerminator w.kind || closes [] w.kind) = true := hends
    exact ⟨as, span, b, y, w, hargs, hblock, by simpa [closes] using hends⟩

end

end Parser

/-- The block of a call opens at `o`, it holds `inner`, and it closes at the first one of `ends`. -/
structure CallRun.Fills (r : CallRun) (o : Token) (inner ends : List Token) : Prop where
  opening_parens : r.opening.parens = 0
  opening_rest : r.opening.rest = o :: (inner ++ ends)
  closing_parens : r.closing.parens = 0
  closing_rest : r.closing.rest = ends

namespace Parser

section
variable {n fuel : Nat} {c d : Cursor} {stmts : List Expr} {name o z : Token} {xs us ts inner : List Token}
  {on : Bool} {fs : List Opening}

theorem fills_of_block (h : Encloses o.kind z.kind) (hinner : Balanced inner) {as : List Expr} {span : Span}
    {x y : Cursor} {b : Option (Block Expr)} (hx : x.parens = 0) (hrest : x.rest = o :: (inner ++ [z]))
    (hargs : args (expr n) c.current.span c.next = .ok (as, span) x)
    (hblock : block? (expr n) true x = .ok b y) :
    ∃ r : CallRun, r.args = as ∧ r.opening = x ∧ r.Reads n z.kind c ∧ r.Fills o inner [z] := by
  obtain ⟨hcurrent, hnext⟩ := Cursor.current_eq hrest (.inl hx)
  have hkind : x.kind = o.kind := congrArg Token.kind hcurrent
  obtain ⟨params, stmts, e, hcontents, hclosed, -, -⟩ := (block?_eq_ok_iff (hkind ▸ h)).1 hblock
  have hcloser : z.kind = .rbrace ∨ z.kind = .endKw := h.imp And.right And.right
  obtain ⟨he, herest⟩ := contents_end hinner hcloser hnext (show x.next.parens = 0 from hx) hcontents hclosed
  exact ⟨⟨as, span, x, params, stmts, e⟩, rfl, rfl, ⟨hargs, hkind ▸ h, hcontents, hclosed⟩, hx, hrest, he,
    herest⟩

/-- No statement ends before a token that does not end one. -/
theorem not_ends_before (hc : Cursor.isTerminator c.kind = true ∨ c.kind = .eof) (hparens : c.parens = 0)
    (hus : ∀ t ∈ us, Cursor.isTerminator t.kind = false ∧ t.kind ≠ .eof)
    (ho : Cursor.isTerminator o.kind = false ∧ o.kind ≠ .eof) : c.rest ≠ us ++ o :: ts := by
  intro hrest
  have hneither : Cursor.isTerminator c.kind = false ∧ c.kind ≠ .eof := by
    rw [Cursor.kind_eq_firstKind hparens, hrest]
    cases us with
    | nil => exact ho
    | cons t us => exact hus t List.mem_cons_self
  rcases hc with hc | hc
  · exact absurd (hc.symm.trans hneither.1) (by decide)
  · exact hneither.2 hc

/-- A token that neither ends a statement nor belongs to the outer call. -/
def Inside (t : Token) : Prop := t.kind ∉ [.newline, .semicolon, .doKw, .eof]

theorem inside_iff {t : Token} :
    Inside t ↔ (Cursor.isTerminator t.kind = false ∧ t.kind ≠ .eof) ∧ t.kind ≠ .doKw := by
  simp only [Inside, Cursor.isTerminator, List.mem_cons, List.not_mem_nil, Bool.or_eq_false_iff,
    beq_eq_false_iff_ne]
  tauto

/-- The block between `do` and `end` is that of the outer call. -/
theorem reads_command (h : c.AtCall) (hrest : c.rest = name :: (xs ++ o :: (inner ++ [z])))
    (ho : o.kind = .doKw) (hz : z.kind = .endKw) (hstarts : startsArgument c.next.kind = true)
    (hxs : Balanced xs) (hinside : ∀ t ∈ xs, Inside t) (hinner : Balanced inner)
    (hrun : statements (expr (n + 1)) [] fuel c = (stmts, .ok () d)) :
    ∃ r : CallRun, r.Reads n .endKw c ∧ r.Fills o inner [z] := by
  obtain ⟨as, span, b, x, y, hargs, hblock, hy⟩ := reads_of_statements h hrun
  have hnext := (Cursor.current_eq hrest (.inl h.parens)).2
  have hcommand := hargs
  rw [args_of_startsArgument hstarts] at hcommand
  obtain ⟨as', x', hcommand, hpair⟩ := bind_eq_ok_iff.1 hcommand
  cases hpair
  have hsettlers : ∀ t ∈ xs, t.kind ∉ settlers := fun t ht hk =>
    hinside t ht ((by decide : settlers ⊆ [.newline, .semicolon, .doKw, .eof]) hk)
  obtain ⟨hx, us, hus, ⟨on, hrun⟩, hxrest⟩ :=
    commandArgs_ends hxs hsettlers hinner ho hz (show c.next.parens = 0 from h.parens) hnext hcommand
  have hinside : ∀ t ∈ us, Inside t := fun t ht => hinside t (hus.subset ht)
  by_cases hne : us = []
  · subst hne
    obtain ⟨r, -, -, hr, hfills⟩ := fills_of_block (.inr ⟨ho, hz⟩) hinner hx hxrest hargs hblock
    exact ⟨r, hz ▸ hr, hfills⟩
  · obtain ⟨hy0, ws, hws, hyrest⟩ := block?_inside hx hxrest hne hrun (by decide)
      (fun t ht => (inside_iff.1 (hinside t ht)).2) hblock
    exact absurd hyrest (not_ends_before hy hy0 (fun t ht => (inside_iff.1 (hinside t (hws.subset ht))).1)
      (by rw [ho]; decide))

/-- So is the block in braces behind arguments in parentheses. -/
theorem reads_parens (h : c.AtCall) {left right : Token}
    (hrest : c.rest = name :: left :: (xs ++ right :: o :: (inner ++ [z])))
    (hleft : left.kind = .lparen) (hright : right.kind = .rparen) (ho : o.kind = .lbrace)
    (hz : z.kind = .rbrace) (hstarts : startsArgument (firstKind xs) = true)
    (hxs : ∃ on, (mk false [.paren]).run xs = some ⟨on, [.paren]⟩) (hinside : ∀ t ∈ xs, Inside t)
    (hinner : Balanced inner) (hrun : statements (expr (n + 1)) [] fuel c = (stmts, .ok () d)) :
    ∃ r : CallRun, r.Reads n .rbrace c ∧ r.Fills o inner [z] ∧ ∃ e : Cursor,
      commaList (expr n true) (pure ()) (c.next.next.rest.length + 1) { c.next.next with parens := 1 } =
        .ok r.args e ∧ e.rest = right :: o :: (inner ++ [z]) ∧ e.naming = r.opening.naming := by
  obtain ⟨as, span, b, x, y, hargs, hblock, hy⟩ := reads_of_statements h hrun
  have hnext := (Cursor.current_eq hrest (.inl h.parens)).2
  have hlparen : c.next.kind = .lparen := by
    rw [Cursor.kind_eq_firstKind (show c.next.parens = 0 from h.parens), hnext]
    exact hleft
  have hbehind := (Cursor.current_eq hnext (.inl h.parens)).2
  have hfirst : startsArgument ({ c.next.next with parens := c.next.parens + 1 } : Cursor).kind = true :=
    Cursor.startsArgument_kind hbehind hstarts
  have hparens := hargs
  rw [args_of_lparen hlparen] at hparens
  obtain ⟨⟨as', stop⟩, x', hparens, hpair⟩ := bind_eq_ok_iff.1 hparens
  cases hpair
  rw [parenArgs_run hlparen (ne_of_startsArgument hfirst rfl), show c.next.parens + 1 = 1 from congrArg (· + 1) h.parens] at hparens
  obtain ⟨as', e, hlist, hparens⟩ := bind_eq_ok_iff.1 hparens
  obtain ⟨close, x', hclose, hpair⟩ := bind_eq_ok_iff.1 hparens
  cases hpair
  obtain ⟨he, us, hus, ⟨on, hrun⟩, herest⟩ := commaList_ends (c := { c.next.next with parens := 1 })
    hxs hinner hright ho hz rfl hbehind hlist
  rw [closeParen_run] at hclose
  by_cases hkind : e.kind = .rparen
  on_goal 2 => rw [if_neg hkind] at hclose; cases hclose
  rw [if_pos hkind] at hclose
  cases hclose
  have hinside : ∀ t ∈ us, Inside t := fun t ht => hinside t (hus.subset ht)
  have hx : ({ e.next with parens := e.parens - 1 } : Cursor).parens = 0 := by
    show e.parens - 1 = 0
    rw [he]
  cases us with
  | nil =>
    obtain ⟨-, hxrest⟩ := Cursor.current_eq herest (.inr (by rw [hright]; decide))
    obtain ⟨r, rfl, hopening, hr, hfills⟩ := fills_of_block (.inl ⟨ho, hz⟩) hinner hx hxrest hargs hblock
    exact ⟨r, hz ▸ hr, hfills, e, hlist, herest, by rw [hopening]; rfl⟩
  | cons u us =>
    have hu : u.kind ≠ .newline := fun hk => hinside u List.mem_cons_self (by rw [hk]; decide)
    obtain ⟨hcurrent, hxrest⟩ := Cursor.current_eq herest (.inr hu)
    -- the arguments ended too early, so one more parenthesis is closed than was opened
    have hclosed : (mk false []).run us = some ⟨on, [.paren]⟩ := by
      have hukind : u.kind = .rparen := hcurrent ▸ hkind
      rwa [run_cons, step_of_kind hukind (by decide), shift_close (by decide)] at hrun
    have hne : us ≠ [] := by
      rintro rfl
      cases hclosed
    have hbelow : ∀ t ∈ us, Inside t := fun t ht => hinside t (List.mem_cons_of_mem _ ht)
    obtain ⟨hy0, ws, hws, hyrest⟩ := block?_inside hx hxrest hne hclosed (by decide)
      (fun t ht => (inside_iff.1 (hbelow t ht)).2) hblock
    exact absurd hyrest (not_ends_before hy hy0 (fun t ht => (inside_iff.1 (hbelow t (hws.subset ht))).1)
      (by rw [hright]; decide))

end

end Parser

end FlowTyping
