import FlowTyping.Proofs.Brackets
import FlowTyping.Proofs.Progress

/-!
# Reading over brackets

`Parser.walks_expr`: an expression is read over tokens that leave open what was open around it, whatever
that is.  So the tokens alone tell where a list of statements ends.  `Parser.Walks` is the rule that the
productions are taken through; it relates what is open before and afterwards.
-/

namespace FlowTyping

open Opening

namespace Brackets

variable {b : Brackets} {k : Token.Kind}

/-- Line feeds that are hidden change nothing. -/
def Calm (b : Brackets) (p : Nat) : Prop :=
  p = 0 ∨ b.goesOn = true ∨ hides b.openings = true ∨ Settled b.openings

theorem run_current {c : Cursor} (hc : c.kind = k) (hk : k ≠ .eof ∧ k ≠ .newline) (hb : b.Calm c.parens) :
    ∃ read, c.rest = read ++ c.next.rest ∧
      b.run read = (shift k b.openings).map (mk (goesOnBehind k)) := by
  obtain ⟨hidden, hrest, hhidden⟩ := Cursor.rest_eq_current (hc ▸ hk.1)
  refine ⟨hidden ++ [c.current], by rw [hrest, List.append_assoc]; rfl, ?_⟩
  have hrun : b.run hidden = some b := by
    rcases hb with hparens | hb
    · cases hidden with
      | nil => rfl
      | cons t ts =>
        -- outside of parentheses the first token is the current one
        have hhead : c.rest.head? = some t := by rw [hrest]; rfl
        have hcurrent : c.kind = t.kind := by
          simp [Cursor.kind, Cursor.current, Cursor.visible, hparens, hhead]
        exact absurd (hc.symm.trans (hcurrent.trans (hhidden t List.mem_cons_self))) hk.2
    · exact run_newlines hb hhidden
  rw [run_append_of_run hrun, run_singleton, step_of_kind hc hk.2]

end Brackets

/-! ### Rules -/

namespace Parser

open Brackets

/-- From a cursor with `P` in `p` parentheses, a parser that gives a value reads over tokens that lead from
`b` to `b'`, and it ends in `p'` parentheses. -/
def Walks (P : Cursor → Prop) (p : Nat) (b : Brackets) (m : Parser α) (p' : Nat) (b' : α → Brackets) : Prop :=
  ∀ ⦃c a d⦄, P c → c.parens = p → m c = .ok a d →
    ∃ read, c.rest = read ++ d.rest ∧ b.run read = some (b' a) ∧ d.parens = p'

namespace Walks
variable {P Q : Cursor → Prop} {p q p' : Nat} {b b₁ : Brackets} {m : Parser α} {f : α → Parser β} {a : α}
  {b' : α → Brackets} {b'' : β → Brackets} {fs fs' : List Opening} {on : Bool} {k : Token.Kind}

theorem pre (h : Walks Q p b m p' b') (hP : ∀ c, P c → Q c) : Walks P p b m p' b' :=
  fun _ _ _ hc => h (hP _ hc)

theorem anywhere (h : Walks Anywhere p b m p' b') : Walks P p b m p' b' := h.pre fun _ _ => trivial

theorem bind (h : Walks P p b m q b') (hf : ∀ a, Walks Anywhere q (b' a) (f a) p' b'') :
    Walks P p b (m >>= f) p' b'' := by
  intro c x e hc hp hrun
  obtain ⟨a, d, hm, hrun⟩ := bind_eq_ok_iff.1 hrun
  obtain ⟨read, hrest, hread, hq⟩ := h hc hp hm
  obtain ⟨read', hrest', hread', hp'⟩ := hf a trivial hq hrun
  exact ⟨read ++ read', by rw [hrest, hrest', List.append_assoc], by rw [run_append_of_run hread, hread'], hp'⟩

theorem give (h : b = b' a) : Walks P p b (pure a) p b' := by
  intro c x d _ hp hrun
  cases hrun
  exact ⟨[], rfl, h ▸ rfl, hp⟩

theorem stay : Walks P p b (pure a) p fun _ => b := give rfl

theorem throw (e : Setback) : Walks P p b (throw e : Parser α) p' b' := fun _ _ _ _ _ hrun => nomatch hrun

theorem unexpected (wanted : Fault.Wanted) : Walks P p b (unexpected wanted : Parser α) p' b' :=
  fun _ _ _ _ _ hrun => nomatch hrun

theorem kind {f : Token.Kind → Parser α} (hf : ∀ k, Walks (fun c => P c ∧ c.kind = k) p b (f k) p' b') :
    Walks P p b (kind >>= f) p' b' := fun c _ _ hc hp hrun => hf c.kind ⟨hc, rfl⟩ hp hrun

theorem itemFuel {f : Nat → Parser α} (hf : ∀ fuel, Walks P p b (f fuel) p' b') :
    Walks P p b (itemFuel >>= f) p' b' := fun _ _ _ hc hp hrun => hf _ hc hp hrun

/-- A step over no token. -/
theorem still (h : ∀ ⦃c a d⦄, m c = .ok a d → d.rest = c.rest ∧ d.parens = c.parens) :
    Walks P p b m p fun _ => b := by
  intro c a d _ hp hrun
  exact ⟨[], (h hrun).1.symm, rfl, (h hrun).2.trans hp⟩

theorem freshId : Walks P p b freshId p fun _ => b := still fun _ _ _ hrun => by cases hrun; exact ⟨rfl, rfl⟩

theorem isLocal (name : String) : Walks P p b (isLocal name) p fun _ => b :=
  still fun _ _ _ hrun => by cases hrun; exact ⟨rfl, rfl⟩

theorem declare (name : String) : Walks P p b (declare name) p fun _ => b :=
  still fun _ _ _ hrun => by cases hrun; exact ⟨rfl, rfl⟩

theorem forM_declare (params : List Ident) :
    Walks P p b (params.forM fun p => Parser.declare p.name) p fun _ => b := by
  induction params generalizing P with
  | nil => exact give rfl
  | cons i params ih => exact (declare i.name).bind fun _ => ih

theorem withNewlines (h : Walks Anywhere 0 b m 0 b') : Walks P p b (withNewlines m) p b' := by
  intro c a d _ hp hrun
  rw [withNewlines_run] at hrun
  split at hrun <;> cases hrun
  next hm =>
    obtain ⟨read, hrest, hread, -⟩ := h (c := { c with parens := 0 }) trivial rfl hm
    exact ⟨read, hrest, hread, hp⟩

theorem inScope (closed : Bool) (h : Walks Anywhere p b m p' b') : Walks P p b (inScope closed m) p' b' := by
  intro c a d _ hp hrun
  rw [inScope_run] at hrun
  split at hrun <;> cases hrun
  next d hm => exact h (c := { c with locals := ⟨closed, []⟩ :: c.locals }) (d := d) trivial hp hm

/-! ### Steps over tokens -/

/-- A token of a kind that is wanted, and a change of how many parentheses are open. -/
theorem take {m : Parser Token} (hk : k ≠ .eof ∧ k ≠ .newline) (shift : Nat → Nat) {err : Cursor → Setback}
    (hm : ∀ c, m c = if c.kind = k then .ok c.current { c.next with parens := shift c.parens }
      else .error (err c) c) (hb : (Brackets.mk on fs).Calm p) (hfs : Opening.shift k fs = some fs') :
    Walks P p ⟨on, fs⟩ m (shift p) fun _ => ⟨goesOnBehind k, fs'⟩ := by
  intro c t d _ hp hrun
  rw [hm] at hrun
  split at hrun
  · next hc =>
    cases hrun
    obtain ⟨read, hrest, hread⟩ := run_current hc hk (hp ▸ hb)
    exact ⟨read, hrest, by rw [hread, hfs]; rfl, congrArg shift hp⟩
  · cases hrun

theorem bump (hP : ∀ c, P c → c.kind = k) (hk : k ≠ .eof ∧ k ≠ .newline) (hb : (Brackets.mk on fs).Calm p)
    (hfs : shift k fs = some fs') : Walks P p ⟨on, fs⟩ bump p fun _ => ⟨goesOnBehind k, fs'⟩ := by
  intro c t d hc hp hrun
  cases hrun
  obtain ⟨read, hrest, hread⟩ := run_current (hP c hc) hk (hp ▸ hb)
  exact ⟨read, hrest, by rw [hread, hfs]; rfl, hp⟩

theorem expect (hk : k ≠ .eof ∧ k ≠ .newline) (hb : (Brackets.mk on fs).Calm p)
    (hfs : shift k fs = some fs') : Walks P p ⟨on, fs⟩ (expect k) p fun _ => ⟨goesOnBehind k, fs'⟩ :=
  take hk (fun n => n) (fun _ => rfl) hb hfs

theorem expectEnd (construct : Fault.Construct) (opener : Span) (hb : (Brackets.mk on fs).Calm p)
    (hfs : shift .endKw fs = some fs') :
    Walks P p ⟨on, fs⟩ (expectEnd construct opener) p fun _ => ⟨false, fs'⟩ :=
  take (k := .endKw) (by decide) (fun n => n) (fun _ => rfl) hb hfs

theorem openParen (hb : (Brackets.mk on fs).Calm p) :
    Walks P p ⟨on, fs⟩ openParen (p + 1) fun _ => ⟨false, .paren :: fs⟩ :=
  take (k := .lparen) (by decide) (· + 1) openParen_run hb (shift_open (by decide))

theorem closeParen : Walks P (p + 1) ⟨on, .paren :: fs⟩ closeParen p fun _ => ⟨false, fs⟩ :=
  take (k := .rparen) (by decide) (· - 1) closeParen_run (.inr (.inr (.inl rfl)))
    (shift_close (by decide))

theorem eat (hk : k ≠ .eof ∧ k ≠ .newline) (hb : (Brackets.mk on fs).Calm p)
    (hfs : shift k fs = some fs') : Walks P p ⟨on, fs⟩ (eat k) p fun eaten =>
      if eaten then ⟨goesOnBehind k, fs'⟩ else ⟨on, fs⟩ := by
  intro c eaten d _ hp hrun
  unfold Parser.eat at hrun
  split at hrun <;> cases hrun
  · next hc =>
    obtain ⟨read, hrest, hread⟩ := run_current hc hk (hp ▸ hb)
    exact ⟨read, hrest, by rw [hread, hfs]; rfl, hp⟩
  · exact ⟨[], rfl, rfl, hp⟩

theorem skipNewlines (hb : on = true ∨ hides fs = true ∨ Settled fs) :
    Walks P p ⟨on, fs⟩ skipNewlines p fun _ => ⟨on, fs⟩ := by
  intro c _ d _ hp hrun
  cases hrun
  refine ⟨c.rest.takeWhile (·.kind == .newline), List.takeWhile_append_dropWhile.symm, ?_, hp⟩
  exact run_newlines hb fun t ht => beq_iff_eq.1 (List.all_eq_true.1 List.all_takeWhile t ht)

theorem skipTerminators (hfs : Settled fs) :
    Walks P p ⟨false, fs⟩ skipTerminators p fun _ => ⟨false, fs⟩ := by
  intro c _ d _ hp hrun
  cases hrun
  refine ⟨c.rest.takeWhile (Cursor.isTerminator ·.kind), List.takeWhile_append_dropWhile.symm, ?_, hp⟩
  exact run_terminators hfs fun t ht => List.all_eq_true.1 List.all_takeWhile t ht

theorem expectTerminator (after : Fault.Part) (hfs : Settled fs) :
    Walks P p ⟨false, fs⟩ (expectTerminator after) p fun _ => ⟨false, fs⟩ := by
  refine kind fun k => ?_
  split
  · exact skipTerminators hfs
  · exact unexpected _

/-- What has to stand behind the condition of a loop without `do` ends its head. -/
theorem expectTerminator_head (after : Fault.Part) (hhides : hides fs = decide (0 < p)) :
    Walks P p ⟨false, .head :: fs⟩ (Parser.expectTerminator after) p fun _ => ⟨false, .chain :: fs⟩ := by
  intro c _ d _ hp hrun
  have hterm : Cursor.isTerminator c.kind = true ∧ d = c.skipTerminators := by
    obtain ⟨k, x, hk, hrun⟩ := bind_eq_ok_iff.1 hrun
    cases hk
    split at hrun
    · next hterm =>
      cases hrun
      exact ⟨hterm, rfl⟩
    · cases hrun
  obtain ⟨hkind, rfl⟩ := hterm
  refine ⟨c.rest.takeWhile (Cursor.isTerminator ·.kind), List.takeWhile_append_dropWhile.symm,
    run_settlers (fun t ht => List.all_eq_true.1 List.all_takeWhile t ht) ?_, hp⟩
  obtain ⟨hidden, hrest, hhidden⟩ := Cursor.rest_eq_current (c := c) fun heof => by
    rw [heof] at hkind
    cases hkind
  have hmem : c.current ∈ c.rest.takeWhile (Cursor.isTerminator ·.kind) := by
    have hnewlines : ∀ t ∈ hidden, Cursor.isTerminator t.kind = true := fun t ht => by
      rw [hhidden t ht]
      rfl
    have htake := congrArg (List.takeWhile (Cursor.isTerminator ·.kind)) hrest
    rw [List.takeWhile_append_of_pos hnewlines, List.takeWhile_cons_of_pos (by exact hkind)] at htake
    rw [htake]
    simp
  by_cases hparens : p = 0
  · exact .inl ⟨by rw [hhides, hparens]; rfl, List.ne_nil_of_mem hmem⟩
  · have hne : c.kind ≠ .newline := Cursor.kind_ne_newline (hp ▸ hparens)
    have hsemicolon : c.kind = .semicolon := by simpa [Cursor.isTerminator, hne] using hkind
    exact .inr ⟨c.current, hmem, hsemicolon⟩

theorem commaList {item : Parser α} {gap : Parser Unit}
    (h : ∀ on, Walks Anywhere p ⟨on, fs⟩ item p fun _ => ⟨false, fs⟩)
    (hgap : Walks Anywhere p ⟨true, fs⟩ gap p fun _ => ⟨true, fs⟩) (hb : (Brackets.mk false fs).Calm p)
    (fuel : Nat) : Walks P p ⟨on, fs⟩ (commaList item gap fuel) p fun _ => ⟨false, fs⟩ := by
  induction fuel generalizing P on with
  | zero => exact .throw _
  | succ fuel ih =>
    refine (h on).anywhere.bind fun first =>
      (eat (by decide) hb (shift_idle (by decide))).bind fun more => ?_
    cases more with
    | false => exact give rfl
    | true => exact hgap.bind fun _ => ih.bind fun _ => give rfl

end Walks

/-! ### Productions -/

section
variable {P : Cursor → Prop} {p : Nat} {on : Bool} {fs : List Opening}

theorem walks_ident (hb : (Brackets.mk on fs).Calm p) :
    Walks P p ⟨on, fs⟩ ident p fun _ => ⟨false, fs⟩ :=
  (Walks.expect (by decide) hb (shift_idle (by decide))).bind fun _ => Walks.freshId.bind fun _ => .give rfl

theorem walks_idents (hfs : Settled fs) : Walks P p ⟨on, fs⟩ idents p fun _ => ⟨false, fs⟩ :=
  .itemFuel fun fuel => .commaList (fun _ => walks_ident (.inr (.inr (.inr hfs)))) (.give rfl)
    (.inr (.inr (.inr hfs))) fuel

theorem walks_blockParams (hfs : Settled fs) :
    Walks P p ⟨false, fs⟩ blockParams p fun _ => ⟨false, fs⟩ := by
  have hcalm {on : Bool} : (Brackets.mk on fs).Calm p := .inr (.inr (.inr hfs))
  refine (Walks.eat (by decide) hcalm (shift_idle (by decide))).bind fun some => ?_
  have hclose (params : List Ident) :
      Walks Anywhere p ⟨false, fs⟩ (expect .bar >>= fun _ => pure params) p fun _ => ⟨false, fs⟩ :=
    (Walks.expect (by decide) hcalm (shift_idle (by decide))).bind fun _ => .give rfl
  cases some with
  | false => exact .give rfl
  | true =>
    refine .kind fun k => ?_
    show Walks _ _ (Brackets.mk false fs) (ite _ _ _) _ _
    split
    · exact Walks.stay.bind hclose
    · exact (walks_idents hfs).bind hclose

theorem walks_defParams (hfs : Settled fs) :
    Walks P p ⟨false, fs⟩ defParams p fun _ => ⟨false, fs⟩ := by
  have hcalm {on : Bool} : (Brackets.mk on fs).Calm p := .inr (.inr (.inr hfs))
  refine .kind fun k => ?_
  split
  · refine (Walks.openParen hcalm).bind fun _ => .kind fun k => ?_
    have hclose (params : List Ident) : Walks Anywhere (p + 1) ⟨false, .paren :: fs⟩
        (closeParen >>= fun _ => skipTerminators >>= fun _ => pure params) p fun _ => ⟨false, fs⟩ :=
      Walks.closeParen.bind fun _ => (Walks.skipTerminators hfs).bind fun _ => .give rfl
    show Walks _ _ _ (ite _ _ _) _ _
    split
    · exact Walks.stay.bind hclose
    · exact (walks_idents (settled_cons.2 (by decide))).bind hclose
  · refine .kind fun k => ?_
    split
    · exact (walks_idents hfs).bind fun _ => (Walks.expectTerminator _ hfs).bind fun _ => .give rfl
    · exact (Walks.expectTerminator _ hfs).bind fun _ => .give rfl

/-- At the end of a production the node gets its identity. -/
theorem walks_node {b : Brackets} {span : Span} {form : Form Expr} :
    Walks P p b (freshId >>= fun id => pure (Expr.node id span form)) p fun _ => b :=
  Walks.freshId.bind fun _ => .give rfl

/-- What may be open around an expression.  A `do` that ends it may not be taken by a loop around it. -/
structure Around (allowDo : Bool) (p : Nat) (fs : List Opening) : Prop where
  hides : Opening.hides fs = decide (0 < p)
  settled : allowDo = true → Settled fs

namespace Around
variable {allowDo : Bool} (h : Around allowDo p fs)
include h

theorem calm : (Brackets.mk on fs).Calm p := by
  rcases Nat.eq_zero_or_pos p with hp | hp
  · exact .inl hp
  · exact .inr (.inr (.inl (h.hides.trans (decide_eq_true hp))))

theorem chain : Around true p (.chain :: fs) := ⟨h.hides, fun _ => settled_cons.2 (by decide)⟩

theorem head : Around false p (.head :: fs) := ⟨h.hides, nofun⟩

end Around

theorem around_paren {allowDo : Bool} : Around allowDo (p + 1) (.paren :: fs) :=
  ⟨(decide_eq_true (Nat.succ_pos p)).symm, fun _ => settled_cons.2 (by decide)⟩

theorem around_block {f : Opening} (hf : f = .brace ∨ f = .block) : Around true 0 (f :: fs) := by
  rcases hf with rfl | rfl <;> exact ⟨rfl, fun _ => settled_cons.2 (by decide)⟩

section
variable {expr : ExprParser} (h : ∀ {allowDo : Bool} {p : Nat} {on : Bool} {fs : List Opening},
  Around allowDo p fs → Walks Anywhere p ⟨on, fs⟩ (expr allowDo) p fun _ => ⟨false, fs⟩)
include h

theorem walks_statements (hfs : Around true p fs) {closers : List Token.Kind} {fuel : Nat} {c d : Cursor}
    {stmts : List Expr} (hp : c.parens = p) (hrun : statements expr closers fuel c = (stmts, .ok () d)) :
    ∃ read, c.rest = read ++ d.rest ∧ (Brackets.mk false fs).run read = some ⟨false, fs⟩ ∧ d.parens = p := by
  replace hrun := statements_eq_ok_iff.1 hrun
  have hskip {c : Cursor} (hp : c.parens = p) :=
    Walks.skipTerminators (P := Anywhere) (hfs.settled rfl) (c := c) trivial hp rfl
  induction hrun with
  | nil => exact hskip hp
  | cons _ hstmt _ _ ih =>
    obtain ⟨read, hrest, hread, hp'⟩ := hskip hp
    obtain ⟨read', hrest', hread', hx⟩ := h hfs trivial hp' hstmt
    obtain ⟨read'', hrest'', hread'', hd⟩ := ih hx
    refine ⟨read ++ (read' ++ read''), ?_, ?_, hd⟩
    · rw [hrest, hrest', hrest'', List.append_assoc, List.append_assoc]
    · rw [run_append_of_run hread, run_append_of_run hread', hread'']

theorem walks_body (hfs : Around true p fs) (closers : List Token.Kind) :
    Walks P p ⟨false, fs⟩ (body expr closers) p fun _ => ⟨false, fs⟩ := by
  intro c stmts d _ hp hrun
  unfold body at hrun
  split at hrun <;> cases hrun
  next hrun => exact walks_statements h hfs hp hrun

theorem walks_parenArgs (hb : (Brackets.mk on fs).Calm p) :
    Walks P p ⟨on, fs⟩ (parenArgs expr) p fun _ => ⟨false, fs⟩ := by
  refine (Walks.openParen hb).bind fun _ => .kind fun k => ?_
  have hclose (args : List Expr) : Walks Anywhere (p + 1) ⟨false, .paren :: fs⟩
      (closeParen >>= fun close => pure (args, close.span)) p fun _ => ⟨false, fs⟩ :=
    Walks.closeParen.bind fun _ => .give rfl
  show Walks _ _ _ (ite _ _ _) _ _
  split
  · exact Walks.stay.bind hclose
  · exact .itemFuel fun fuel => (Walks.commaList (fun _ => h around_paren) (.give rfl)
      (around_paren : Around true (p + 1) (.paren :: fs)).calm fuel).bind hclose

theorem walks_commandArgs (hfs : Around false p fs) :
    Walks P p ⟨on, fs⟩ (commandArgs expr) p fun _ => ⟨false, fs⟩ :=
  .itemFuel fun fuel => .commaList (fun _ => h hfs) (.skipNewlines (.inl rfl)) hfs.calm fuel

theorem walks_args (hfs : Around false p fs) (span : Span) :
    Walks P p ⟨false, fs⟩ (args expr span) p fun _ => ⟨false, fs⟩ := by
  refine .kind fun k => ?_
  split
  · exact (walks_parenArgs h hfs.calm).bind fun _ => .give rfl
  · refine .kind fun k => ?_
    split
    · exact (walks_commandArgs h hfs).bind fun _ => .give rfl
    · exact .give rfl

theorem walks_blockContents (hfs : Around true 0 fs) (closer : Token.Kind) :
    Walks P p ⟨false, fs⟩ (blockContents expr closer) p fun _ => ⟨false, fs⟩ :=
  .inScope false <| .withNewlines <| (walks_blockParams (hfs.settled rfl)).bind fun params =>
    (Walks.forM_declare params).bind fun _ => (walks_body h hfs _).bind fun _ => .give rfl

theorem walks_doBlock (hfs : Around true p fs) :
    Walks (·.kind = .doKw) p ⟨on, fs⟩ (doBlock expr) p fun _ => ⟨false, fs⟩ :=
  (Walks.bump (fun _ h => h) (by decide) hfs.calm (hfs.settled rfl).shift_do).bind fun _ =>
    (walks_blockContents h (around_block (.inr rfl)) _).bind fun ⟨_, _⟩ =>
      (Walks.expectEnd _ _ (.inr (.inr (.inr (settled_cons.2 (by decide))))) (shift_close (by decide))).bind
        fun _ => Walks.freshId.bind fun _ => .give rfl

theorem walks_braceBlock (hb : (Brackets.mk on fs).Calm p) :
    Walks (·.kind = .lbrace) p ⟨on, fs⟩ (braceBlock expr) p fun _ => ⟨false, fs⟩ :=
  (Walks.bump (fun _ h => h) (by decide) hb (shift_open (by decide))).bind fun _ =>
    (walks_blockContents h (around_block (.inl rfl)) _).bind fun ⟨_, _⟩ =>
      (Walks.expect (by decide) (.inr (.inr (.inr (settled_cons.2 (by decide))))) (shift_close (by decide))).bind
        fun _ => Walks.freshId.bind fun _ => .give rfl

theorem walks_block? {allowDo : Bool} (hfs : Around allowDo p fs) :
    Walks P p ⟨false, fs⟩ (block? expr allowDo) p fun _ => ⟨false, fs⟩ := by
  refine .kind fun k => ?_
  split
  · next hk => exact ((walks_braceBlock h hfs.calm).pre fun c hc => hc.2.trans hk).bind fun _ => .give rfl
  · refine .kind fun k => ?_
    split
    · next hk =>
      rw [Bool.and_eq_true, beq_iff_eq] at hk
      exact ((walks_doBlock h (hk.1 ▸ hfs)).pre fun c hc => hc.2.trans hk.2).bind fun _ => .give rfl
    · exact .give rfl

/-! ### Expressions -/

theorem walks_named {allowDo : Bool} (hfs : Around allowDo p fs) :
    Walks (·.kind = .ident) p ⟨on, fs⟩ (named expr allowDo) p fun _ => ⟨false, fs⟩ := by
  refine (Walks.bump (fun _ h => h) (by decide) hfs.calm (shift_idle (by decide))).bind fun name =>
    .kind fun k => ?_
  split
  · next hk =>
    refine (Walks.bump (fun c hc => hc.2.trans hk) (by decide) hfs.calm (shift_idle (by decide))).bind
      fun _ => (Walks.skipNewlines (.inl rfl)).bind fun _ => (Walks.declare name.text).bind fun _ => ?_
    exact Walks.freshId.bind fun _ => (h hfs).bind fun _ => walks_node
  · refine (Walks.isLocal name.text).bind fun known => .kind fun k => ?_
    split
    · exact walks_node
    · exact (walks_args h ⟨hfs.hides, nofun⟩ name.span).bind fun _ =>
        (walks_block? h hfs).bind fun _ => walks_node

theorem walks_yieldExpr (hfs : Around false p fs) :
    Walks (·.kind = .yieldKw) p ⟨on, fs⟩ (yieldExpr expr) p fun _ => ⟨false, fs⟩ :=
  (Walks.bump (fun _ h => h) (by decide) hfs.calm (shift_idle (by decide))).bind fun _ =>
    (walks_args h hfs _).bind fun ⟨_, _⟩ => walks_node

theorem walks_branchRest (hfs : Around true p (.chain :: fs)) (fuel : Nat) (construct : Fault.Construct)
    (opener : Span) :
    Walks P p ⟨on, .chain :: fs⟩ (branchRest expr fuel construct opener) p fun _ => ⟨false, fs⟩ := by
  induction fuel generalizing P on construct opener with
  | zero => exact .throw _
  | succ fuel ih =>
    refine (h hfs).anywhere.bind fun cond => (Walks.expectTerminator _ (hfs.settled rfl)).bind fun _ => ?_
    refine (walks_body h hfs _).bind fun thenBody => .kind fun k => ?_
    have hend {b : Brackets} (r : Option (List Expr) × Span) : Walks Anywhere p b
        (freshId >>= fun id =>
          pure (Expr.node id (opener.merge r.2) (.branch cond thenBody r.1))) p fun _ => b := walks_node
    split
    · refine (Walks.bump (fun c hc => hc.2) (by decide) hfs.calm (shift_idle (by decide))).bind
        fun keyword => ?_
      exact (ih _ _).bind fun nested => hend (some [nested], nested.span)
    · refine (Walks.bump (fun c hc => hc.2) (by decide) hfs.calm (shift_idle (by decide))).bind fun _ => ?_
      exact (walks_body h hfs _).bind fun stmts =>
        (Walks.expectEnd _ _ hfs.calm (shift_close (by decide))).bind fun close =>
          hend (some stmts, close.span)
    · exact (Walks.expectEnd _ _ hfs.calm (shift_close (by decide))).bind fun close => hend (none, close.span)

theorem walks_branchExpr {allowDo : Bool} (hfs : Around allowDo p fs) :
    Walks (·.kind = .ifKw) p ⟨on, fs⟩ (branchExpr expr) p fun _ => ⟨false, fs⟩ :=
  (Walks.bump (fun _ h => h) (by decide) hfs.calm (shift_open (by decide))).bind fun _ =>
    .itemFuel fun fuel => walks_branchRest h hfs.chain fuel _ _

theorem walks_loopExpr {allowDo : Bool} (hfs : Around allowDo p fs) :
    Walks (·.kind = .whileKw) p ⟨on, fs⟩ (loopExpr expr) p fun _ => ⟨false, fs⟩ := by
  refine (Walks.bump (fun _ h => h) (by decide) hfs.calm (shift_open (by decide))).bind fun keyword =>
    (h hfs.head).bind fun cond => ?_
  have hbody : Walks Anywhere p ⟨false, .chain :: fs⟩ (do
      let stmts ← body expr [.endKw]
      let close ← expectEnd .whileExpr keyword.span
      return Expr.node (← freshId) (keyword.span.merge close.span) (.loop cond stmts)) p
      fun _ => ⟨false, fs⟩ :=
    (walks_body h hfs.chain _).bind fun _ =>
      (Walks.expectEnd _ _ hfs.chain.calm (shift_close (by decide))).bind fun _ => walks_node
  refine (Walks.eat (by decide) hfs.head.calm (shift_head (by decide))).bind fun some => ?_
  cases some with
  | true => exact (Walks.skipTerminators (hfs.chain.settled rfl)).bind fun _ => hbody
  | false => exact (Walks.expectTerminator_head _ hfs.hides).bind fun _ => hbody

theorem walks_defExpr {allowDo : Bool} (hfs : Around allowDo p fs) :
    Walks (·.kind = .defKw) p ⟨on, fs⟩ (defExpr expr) p fun _ => ⟨false, fs⟩ := by
  have hblock : Around true 0 (.block :: fs) := around_block (.inr rfl)
  have hcalm {on : Bool} : (Brackets.mk on (.block :: fs)).Calm p := .inr (.inr (.inr (hblock.settled rfl)))
  refine (Walks.bump (fun _ h => h) (by decide) hfs.calm (shift_open (by decide))).bind fun keyword =>
    (walks_ident hcalm).bind fun name => (walks_defParams (hblock.settled rfl)).bind fun params => ?_
  have hbody : Walks Anywhere p ⟨false, .block :: fs⟩
      (params.forM (fun p => declare p.name) >>= fun _ => withNewlines (body expr [.endKw])) p
      fun _ => ⟨false, .block :: fs⟩ :=
    (Walks.forM_declare params).bind fun _ => (walks_body h hblock _).withNewlines
  exact (hbody.inScope true).bind fun stmts =>
    (Walks.expectEnd _ _ hcalm (shift_close (by decide))).bind fun _ => walks_node

theorem walks_parenExpr (hb : (Brackets.mk on fs).Calm p) :
    Walks P p ⟨on, fs⟩ (parenExpr expr) p fun _ => ⟨false, fs⟩ :=
  (Walks.openParen hb).bind fun _ => (h (around_paren : Around true (p + 1) (.paren :: fs))).bind fun _ =>
    Walks.closeParen.bind fun _ => .give rfl

omit h in
theorem idle_of_startsArgument {k : Token.Kind} (hk : startsArgument k = true) :
    k ∉ settlers ∧ closable k = [] ∧ opened? k = none ∧ goesOnBehind k = false := by
  cases k <;> first | decide | cases hk

theorem walks_primary (hb : (Brackets.mk on fs).Calm p) :
    Walks P p ⟨on, fs⟩ (primary expr) p fun _ => ⟨false, fs⟩ := by
  intro c e d hc hp hrun
  rw [primary_run] at hrun
  split at hrun
  · next v hliteral =>
    have hstarts : startsArgument c.kind = true := Token.startsArgument_of_literal? hliteral
    have hidle := idle_of_startsArgument hstarts
    have hbump : Walks (· = c) p ⟨on, fs⟩ bump p fun _ => ⟨goesOnBehind c.kind, fs⟩ :=
      Walks.bump (fun _ h => by rw [h]) ⟨ne_of_startsArgument hstarts rfl, ne_of_startsArgument hstarts rfl⟩
        hb (shift_idle ⟨hidle.1, hidle.2.1, hidle.2.2.1⟩)
    rw [hidle.2.2.2] at hbump
    exact (hbump.bind fun _ => walks_node) rfl hp hrun
  · cases hrun
  · split at hrun
    · exact walks_parenExpr h hb hc hp hrun
    · cases hrun

theorem walks_exprLayer {allowDo : Bool} (hfs : Around allowDo p fs) :
    Walks P p ⟨on, fs⟩ (exprLayer expr allowDo) p fun _ => ⟨false, fs⟩ := by
  intro c e d hc hp hrun
  rw [exprLayer_run] at hrun
  split at hrun
  · next hkind => exact walks_defExpr h hfs hkind hp hrun
  · next hkind => exact walks_branchExpr h hfs hkind hp hrun
  · next hkind => exact walks_loopExpr h hfs hkind hp hrun
  · next hkind => exact walks_yieldExpr h ⟨hfs.hides, nofun⟩ hkind hp hrun
  · next hkind => exact walks_named h hfs hkind hp ((named_run expr allowDo c).trans hrun)
  · exact walks_primary h hfs.calm hc hp hrun

end

end

/-- The tokens of an expression leave open what was open around it. -/
theorem walks_expr (fuel : Nat) {allowDo : Bool} {p : Nat} {on : Bool} {fs : List Opening}
    (hfs : Around allowDo p fs) :
    Walks Anywhere p ⟨on, fs⟩ (expr fuel allowDo) p fun _ => ⟨false, fs⟩ := by
  induction fuel generalizing allowDo p on fs with
  | zero => exact .throw _
  | succ fuel ih => exact walks_exprLayer ih hfs

end Parser

end FlowTyping
