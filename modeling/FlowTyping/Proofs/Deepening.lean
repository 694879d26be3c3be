import FlowTyping.Proofs.BlockCalls
import FlowTyping.Proofs.Separators

/-!
# One parenthesis more

An expression in which no line feed does the work of a separator (`Expr.Parted`) is read alike with one more
parenthesis open around it: `Parser.deeper_expr`.

Line feeds that are skipped make no difference, and where one ends an expression none is made if the token
behind it ends the expression as well (`Cursor.Settled`).  So the runs are compared from their ends backwards:
what a production leaves is settled, and then so is the place where its last part begins.  The bodies of blocks
and methods are read with line feeds in sight, whatever parentheses are open around them
(`Parser.deeper_withNewlines`).
-/

namespace FlowTyping

/-! ### Steps -/

namespace Parser

section
variable {c d : Cursor} {k : Token.Kind}

/-- A token of a kind that is wanted, and a change of how many parentheses are open. -/
theorem deeper_take {m : Parser Token} (hk : k ≠ .newline) (shift : Nat → Nat) {err : Cursor → Setback}
    (hm : ∀ c, m c = if c.kind = k then .ok c.current { c.next with parens := shift c.parens }
      else .error (err c) c) (hshift : shift (c.parens + 1) = shift c.parens + 1) {t : Token}
    (hrun : m c = .ok t d) : c.kind = k ∧ m c.deeper = .ok t d.deeper := by
  rw [hm] at hrun
  split at hrun
  · next hc =>
    cases hrun
    have hne : c.kind ≠ .newline := hc ▸ hk
    refine ⟨hc, (hm _).trans ?_⟩
    rw [if_pos ((Cursor.kind_deeper hne).trans hc), Cursor.current_deeper hne, Cursor.next_deeper hne]
    show EStateM.Result.ok c.current { c.next with parens := shift (c.parens + 1) } = _
    rw [hshift]
    rfl
  · cases hrun

theorem deeper_expect {t : Token} (hk : k ≠ .newline) (hrun : expect k c = .ok t d) :
    c.kind = k ∧ expect k c.deeper = .ok t d.deeper :=
  deeper_take (m := expect k) hk (fun n => n) (fun _ => rfl) rfl hrun

theorem deeper_expectEnd {construct : Fault.Construct} {opener : Span} {t : Token}
    (hrun : expectEnd construct opener c = .ok t d) :
    c.kind = .endKw ∧ expectEnd construct opener c.deeper = .ok t d.deeper :=
  deeper_take (m := expectEnd construct opener) (by decide) (fun n => n) (fun _ => rfl) rfl hrun

theorem deeper_openParen {t : Token} (hrun : openParen c = .ok t d) :
    c.kind = .lparen ∧ openParen c.deeper = .ok t d.deeper :=
  deeper_take (by decide) (· + 1) openParen_run rfl hrun

theorem openParen_ok {t : Token} (hrun : openParen c = .ok t d) :
    d.parens = c.parens + 1 ∧ d.rest <:+ c.rest := by
  rw [openParen_run] at hrun
  split at hrun <;> cases hrun
  exact ⟨rfl, Cursor.next_suffix c⟩

theorem deeper_closeParen {t : Token} (hc : c.parens ≠ 0) (hrun : closeParen c = .ok t d) :
    c.kind = .rparen ∧ closeParen c.deeper = .ok t d.deeper :=
  deeper_take (by decide) (· - 1) closeParen_run (by omega) hrun

theorem deeper_bump (h : c.kind ≠ .newline) : bump c.deeper = .ok c.current c.next.deeper := by
  show EStateM.Result.ok c.deeper.current c.deeper.next = _
  rw [Cursor.current_deeper h, Cursor.next_deeper h]

theorem deeper_eat {eaten : Bool} (hk : k ∉ .newline :: finishers) (hrun : eat k c = .ok eaten d)
    (hd : eaten = false → d.Settled) : c.Settled ∧ eat k c.deeper = .ok eaten d.deeper := by
  unfold eat at hrun ⊢
  split at hrun <;> cases hrun
  · next hc =>
    have hne : c.kind ≠ .newline := fun hkind => hk (List.mem_cons.2 (.inl (hc.symm.trans hkind)))
    rw [if_pos ((Cursor.kind_deeper hne).trans hc), Cursor.next_deeper hne]
    exact ⟨Cursor.settled_of_kind hne, rfl⟩
  · next hc => exact ⟨hd rfl, if_neg (mt ((hd rfl).kind_eq_iff hk).1 hc)⟩

theorem expectTerminator_run {part : Fault.Part} {u : Unit} (hrun : expectTerminator part c = .ok u d) :
    Cursor.isTerminator c.kind = true ∧ d = c.skipTerminators := by
  obtain ⟨k, x, hk, hrun⟩ := bind_eq_ok_iff.1 hrun
  cases hk
  split at hrun
  · next hterm =>
    cases hrun
    exact ⟨hterm, rfl⟩
  · cases hrun

theorem deeper_expectTerminator {part : Fault.Part} {u : Unit} (hrun : expectTerminator part c = .ok u d)
    (hc : c.deeper.kind = .semicolon) : expectTerminator part c.deeper = .ok u d.deeper := by
  obtain ⟨-, rfl⟩ := expectTerminator_run hrun
  refine (bind_of_ok rfl).trans ?_
  rw [hc]
  rfl

/-- What a parser does with line feeds in sight hangs on no parentheses around it. -/
theorem deeper_withNewlines {m : Parser α} {a : α} (hrun : withNewlines m c = .ok a d) :
    withNewlines m c.deeper = .ok a d.deeper := by
  rw [withNewlines_run] at hrun ⊢
  split at hrun <;> cases hrun
  next hm =>
    rw [show ({ c.deeper with parens := 0 } : Cursor) = { c with parens := 0 } from rfl, hm]
    rfl

theorem deeper_inScope {closed : Bool} {m : Parser α} {a : α} (hrun : inScope closed m c = .ok a d)
    (hm : ∀ {c d}, m c = .ok a d → m c.deeper = .ok a d.deeper) :
    inScope closed m c.deeper = .ok a d.deeper := by
  rw [inScope_run] at hrun ⊢
  split at hrun <;> cases hrun
  next d hrun =>
    have hdeeper := hm (c := { c with locals := ⟨closed, []⟩ :: c.locals }) (d := d) hrun
    rw [show ({ c.deeper with locals := ⟨closed, []⟩ :: c.deeper.locals } : Cursor) =
      ({ c with locals := ⟨closed, []⟩ :: c.locals } : Cursor).deeper from rfl, hdeeper]
    rfl

end

/-! ### Productions -/

section
variable {n : Nat} {allowDo : Bool} {c d : Cursor} {e : Expr}

theorem suffix_of_attains {m : Parser α} {R : α → Nat → Prop} {a : α} (h : Attains Anywhere 0 m R)
    (hrun : m c = .ok a d) : d.rest <:+ c.rest := by
  obtain ⟨read, hread, -⟩ := h trivial hrun
  exact ⟨read, hread.symm⟩

theorem suffix_expr (hrun : expr n allowDo c = .ok e d) : d.rest <:+ c.rest :=
  suffix_of_attains (attains_expr n allowDo 0) hrun

theorem parens_expr (hrun : expr n allowDo c = .ok e d) : d.parens = c.parens := by
  have hwalks {p : Nat} {fs : List Opening} (h : Around allowDo p fs) :
      Walks Anywhere p ⟨false, fs⟩ (expr n allowDo) p fun _ => ⟨false, fs⟩ := walks_expr n h
  cases hparens : c.parens with
  | zero =>
    obtain ⟨-, -, -, hd⟩ := hwalks around_nil trivial hparens hrun
    exact hd
  | succ p =>
    have haround : Around allowDo (p + 1) [.paren] := around_paren
    obtain ⟨-, -, -, hd⟩ := hwalks haround trivial hparens hrun
    exact hd

theorem kind_ne_of_expr (hrun : expr n allowDo c = .ok e d) : c.kind ≠ .newline := by
  rcases kind_of_expr hrun with hkind | hkind
  · exact ne_of_startsArgument hkind rfl
  · rintro hnewline
    rw [hnewline] at hkind
    exact absurd hkind (by decide)

theorem deeper_ident {i : Ident} (hrun : ident c = .ok i d) : ident c.deeper = .ok i d.deeper := by
  obtain ⟨t, x, ht, hrun⟩ := bind_eq_ok_iff.1 hrun
  cases hrun
  exact bind_of_ok (deeper_expect (by decide) ht).2

theorem deeper_commaList {item : Parser α} {gap : Parser Unit} {C : α → Prop}
    (hitem : ∀ ⦃c a d⦄, item c = .ok a d → c.rest <:+ ts → C a → d.Settled →
      d.rest <:+ c.rest ∧ item c.deeper = .ok a d.deeper)
    (hgap : ∀ ⦃c u d⦄, gap c = .ok u d → d.rest <:+ c.rest ∧ gap c.deeper = .ok u d.deeper) {fuel : Nat}
    {as : List α} (hrun : commaList item gap fuel c = .ok as d) (hc : c.rest <:+ ts) (has : ∀ a ∈ as, C a)
    (hd : d.Settled) : commaList item gap fuel c.deeper = .ok as d.deeper := by
  induction fuel generalizing c as with
  | zero => cases hrun
  | succ fuel ih =>
    simp only [commaList] at hrun ⊢
    obtain ⟨first, x, hfirst, hrun⟩ := bind_eq_ok_iff.1 hrun
    obtain ⟨more, y, hmore, hrun⟩ := bind_eq_ok_iff.1 hrun
    cases more with
    | false =>
      cases hrun
      obtain ⟨hx, hmore⟩ := deeper_eat (by decide) hmore fun _ => hd
      obtain ⟨-, hfirst⟩ := hitem hfirst hc (has _ (List.mem_singleton_self _)) hx
      exact (bind_of_ok hfirst).trans (bind_of_ok hmore)
    | true =>
      obtain ⟨u, z, hgaps, hrun⟩ := bind_eq_ok_iff.1 hrun
      obtain ⟨rest, w, hrest, hrun⟩ := bind_eq_ok_iff.1 hrun
      cases hrun
      have hy := suffix_of_attains (Attains.eat (by decide)) hmore
      obtain ⟨hx, hmore⟩ := deeper_eat (by decide) hmore fun hfalse => absurd hfalse (by decide)
      obtain ⟨hxc, hfirst⟩ := hitem hfirst hc (has _ List.mem_cons_self) hx
      obtain ⟨hz, hgaps⟩ := hgap hgaps
      have hrest := ih hrest (hz.trans (hy.trans (hxc.trans hc))) fun a ha => has a (List.mem_cons_of_mem _ ha)
      exact (bind_of_ok hfirst).trans ((bind_of_ok hmore).trans ((bind_of_ok hgaps).trans (bind_of_ok hrest)))

theorem deeper_idents {is : List Ident} (hrun : idents c = .ok is d) (hd : d.Settled) :
    idents c.deeper = .ok is d.deeper := by
  obtain ⟨fuel, x, hfuel, hrun⟩ := bind_eq_ok_iff.1 hrun
  cases hfuel
  refine (bind_of_ok rfl).trans (deeper_commaList (C := fun _ => True) ?_ ?_ hrun
    (List.suffix_refl c.rest) (fun _ _ => trivial) hd)
  · exact fun c i d hrun _ _ _ => ⟨suffix_of_attains attains_ident hrun, deeper_ident hrun⟩
  · rintro c u d ⟨⟩
    exact ⟨List.suffix_refl _, rfl⟩

end

/-! ### Arguments and blocks -/

section
variable {expr : ExprParser} {c d : Cursor}

theorem deeper_blockContents {closer : Token.Kind} {r : List Ident × List Expr}
    (hrun : blockContents expr closer c = .ok r d) : blockContents expr closer c.deeper = .ok r d.deeper :=
  deeper_inScope hrun deeper_withNewlines

theorem deeper_bracketed {closer : Token.Kind} {last : Token → Parser Token} {b : Block Expr}
    (hc : c.kind ≠ .newline)
    (hlast : ∀ ⦃opener x close y⦄, last opener x = .ok close y → last opener x.deeper = .ok close y.deeper)
    (hrun : bracketed expr closer last c = .ok b d) : bracketed expr closer last c.deeper = .ok b d.deeper := by
  obtain ⟨opener, x, hopener, hrun⟩ := bind_eq_ok_iff.1 hrun
  cases hopener
  obtain ⟨r, y, hcontents, hrun⟩ := bind_eq_ok_iff.1 hrun
  obtain ⟨close, z, hclose, hrun⟩ := bind_eq_ok_iff.1 hrun
  cases hrun
  exact (bind_of_ok (deeper_bump hc)).trans
    ((bind_of_ok (deeper_blockContents hcontents)).trans (bind_of_ok (hlast hclose)))

theorem deeper_doBlock {b : Block Expr} (hc : c.kind = .doKw) (hrun : doBlock expr c = .ok b d) :
    doBlock expr c.deeper = .ok b d.deeper := by
  rw [doBlock_eq] at hrun ⊢
  exact deeper_bracketed (by rw [hc]; decide) (fun _ _ _ _ h => (deeper_expectEnd h).2) hrun

theorem deeper_braceBlock {b : Block Expr} (hc : c.kind = .lbrace) (hrun : braceBlock expr c = .ok b d) :
    braceBlock expr c.deeper = .ok b d.deeper := by
  rw [braceBlock_eq] at hrun ⊢
  exact deeper_bracketed (by rw [hc]; decide) (fun _ _ _ _ h => (deeper_expect (by decide) h).2) hrun

theorem deeper_block? {allowDo : Bool} {b : Option (Block Expr)} (hrun : block? expr allowDo c = .ok b d)
    (hd : d.Settled) : c.Settled ∧ block? expr allowDo c.deeper = .ok b d.deeper := by
  obtain ⟨k, x, hk, hrun⟩ := bind_eq_ok_iff.1 hrun
  cases hk
  split at hrun
  · next hbrace =>
    obtain ⟨block, y, hblock, hrun⟩ := bind_eq_ok_iff.1 hrun
    cases hrun
    have hne : c.kind ≠ .newline := by rw [hbrace]; decide
    refine ⟨Cursor.settled_of_kind hne, (bind_of_ok rfl).trans ?_⟩
    rw [if_pos ((Cursor.kind_deeper hne).trans hbrace)]
    exact bind_of_ok (deeper_braceBlock hbrace hblock)
  · next hbrace =>
    obtain ⟨k, x, hk, hrun⟩ := bind_eq_ok_iff.1 hrun
    cases hk
    split at hrun
    · next hdo =>
      obtain ⟨block, y, hblock, hrun⟩ := bind_eq_ok_iff.1 hrun
      cases hrun
      have hkind : c.kind = .doKw := beq_iff_eq.1 (Bool.and_eq_true_iff.1 hdo).2
      have hne : c.kind ≠ .newline := by rw [hkind]; decide
      refine ⟨Cursor.settled_of_kind hne, (bind_of_ok rfl).trans ?_⟩
      rw [Cursor.kind_deeper hne, if_neg hbrace]
      refine (bind_of_ok rfl).trans ?_
      rw [Cursor.kind_deeper hne, if_pos hdo]
      exact bind_of_ok (deeper_doBlock hkind hblock)
    · next hdo =>
      cases hrun
      have hdo' : ¬ (allowDo && c.deeper.kind == .doKw) = true := by
        simpa [hd.kind_eq_iff (k := .doKw) (by decide)] using hdo
      refine ⟨hd, (bind_of_ok rfl).trans ?_⟩
      rw [if_neg (mt (hd.kind_eq_iff (by decide)).1 hbrace)]
      refine (bind_of_ok rfl).trans ?_
      rw [if_neg hdo']
      rfl

end

section
variable {ts : List Token} {n : Nat}
  (h : ∀ ⦃allowDo c e d⦄, expr n allowDo c = .ok e d → c.rest <:+ ts → e.Parted ts → d.Settled →
    expr n allowDo c.deeper = .ok e d.deeper)
  {c d : Cursor}
include h

theorem deeper_parenArgs {r : List Expr × Span} (hrun : parenArgs (expr n) c = .ok r d) (hc : c.rest <:+ ts)
    (hargs : ∀ arg ∈ r.1, arg.Parted ts) :
    c.kind = .lparen ∧ parenArgs (expr n) c.deeper = .ok r d.deeper := by
  obtain ⟨o, x, ho, hrun⟩ := bind_eq_ok_iff.1 hrun
  obtain ⟨k, x', hk, hrun⟩ := bind_eq_ok_iff.1 hrun
  cases hk
  have hx := openParen_ok ho
  obtain ⟨hkind, ho⟩ := deeper_openParen ho
  refine ⟨hkind, (bind_of_ok ho).trans ((bind_of_ok rfl).trans ?_)⟩
  rw [Cursor.kind_deeper (Cursor.kind_ne_newline (by omega))]
  split at hrun
  · next hclose =>
    rw [if_pos hclose]
    obtain ⟨args, y, hnil, hrun⟩ := bind_eq_ok_iff.1 hrun
    cases hnil
    obtain ⟨close, y, hy, hrun⟩ := bind_eq_ok_iff.1 hrun
    cases hrun
    exact (bind_of_ok rfl).trans (bind_of_ok (deeper_closeParen (by omega) hy).2)
  · next hclose =>
    rw [if_neg hclose]
    obtain ⟨fuel, y, hfuel, hrun⟩ := bind_eq_ok_iff.1 hrun
    cases hfuel
    obtain ⟨args, y, hlist, hrun⟩ := bind_eq_ok_iff.1 hrun
    obtain ⟨close, z, hz, hrun⟩ := bind_eq_ok_iff.1 hrun
    cases hrun
    have haround : Around true (c.parens + 1) [.paren] := around_paren
    have hwalks (fuel : Nat) : Walks Anywhere (c.parens + 1) ⟨false, [.paren]⟩
        (commaList (expr n true) (pure ()) fuel) (c.parens + 1) fun _ => ⟨false, [.paren]⟩ :=
      .commaList (fun _ => walks_expr n haround) (.give rfl) haround.calm fuel
    obtain ⟨-, -, -, hy⟩ := hwalks _ trivial hx.1 hlist
    obtain ⟨hzkind, hz⟩ := deeper_closeParen (by omega) hz
    have hlist := deeper_commaList (C := Expr.Parted ts)
      (fun c e d hrun hc he hd => ⟨suffix_expr hrun, h hrun hc he hd⟩)
      (fun c u d hrun => by cases hrun; exact ⟨List.suffix_refl _, rfl⟩) hlist (hx.2.trans hc) hargs
      (Cursor.settled_of_kind (by rw [hzkind]; decide))
    exact (bind_of_ok rfl).trans ((bind_of_ok hlist).trans (bind_of_ok hz))

theorem deeper_commandArgs {args : List Expr} (hrun : commandArgs (expr n) c = .ok args d) (hc : c.rest <:+ ts)
    (hargs : ∀ arg ∈ args, arg.Parted ts) (hd : d.Settled) :
    commandArgs (expr n) c.deeper = .ok args d.deeper := by
  obtain ⟨fuel, x, hfuel, hrun⟩ := bind_eq_ok_iff.1 hrun
  cases hfuel
  refine (bind_of_ok rfl).trans (deeper_commaList (C := Expr.Parted ts)
    (fun c e d hrun hc he hd => ⟨suffix_expr hrun, h hrun hc he hd⟩) (fun c u d hrun => ?_) hrun hc hargs hd)
  cases hrun
  exact ⟨List.dropWhile_suffix _, rfl⟩

theorem deeper_args {span : Span} {r : List Expr × Span} (hrun : args (expr n) span c = .ok r d)
    (hc : c.rest <:+ ts) (hargs : ∀ arg ∈ r.1, arg.Parted ts) (hd : d.Settled) :
    c.Settled ∧ args (expr n) span c.deeper = .ok r d.deeper := by
  by_cases hparen : c.kind = .lparen
  · have hne : c.kind ≠ .newline := by rw [hparen]; decide
    rw [args_of_lparen hparen] at hrun
    rw [args_of_lparen ((Cursor.kind_deeper hne).trans hparen)]
    obtain ⟨⟨args, close⟩, x, hparens, hrun⟩ := bind_eq_ok_iff.1 hrun
    cases hrun
    exact ⟨Cursor.settled_of_kind hne, bind_of_ok (deeper_parenArgs h hparens hc hargs).2⟩
  · by_cases hstarts : startsArgument c.kind = true
    · have hne : c.kind ≠ .newline := ne_of_startsArgument hstarts rfl
      rw [args_of_startsArgument hstarts] at hrun
      rw [args_of_startsArgument (by rwa [Cursor.kind_deeper hne])]
      obtain ⟨args, x, hcommand, hrun⟩ := bind_eq_ok_iff.1 hrun
      cases hrun
      exact ⟨Cursor.settled_of_kind hne, bind_of_ok (deeper_commandArgs h hcommand hc hargs hd)⟩
    · have hnone {c : Cursor} (hparen : c.kind ≠ .lparen) (hstarts : ¬ startsArgument c.kind = true) :
          args (expr n) span c = .ok ([], span) c := by
        refine (bind_of_ok rfl).trans ?_
        rw [if_neg hparen]
        refine (bind_of_ok rfl).trans ?_
        rw [if_neg hstarts]
        rfl
      rw [hnone hparen hstarts] at hrun
      cases hrun
      refine ⟨hd, hnone (mt (hd.kind_eq_iff (by decide)).1 hparen) ?_⟩
      rwa [hd.startsArgument]

/-! ### Expressions -/

theorem deeper_yieldExpr {e : Expr} (hkind : c.kind = .yieldKw) (hrun : yieldExpr (expr n) c = .ok e d)
    (hc : c.rest <:+ ts) (he : e.Parted ts) (hd : d.Settled) : yieldExpr (expr n) c.deeper = .ok e d.deeper := by
  obtain ⟨keyword, x, hkeyword, hrun⟩ := bind_eq_ok_iff.1 hrun
  cases hkeyword
  obtain ⟨⟨args, span⟩, y, hargs, hrun⟩ := bind_eq_ok_iff.1 hrun
  cases hrun
  obtain ⟨-, hargs⟩ := deeper_args h hargs ((Cursor.next_suffix c).trans hc) (fun _ => he.part) hd
  exact (bind_of_ok (deeper_bump (by rw [hkind]; decide))).trans (bind_of_ok hargs)

theorem deeper_afterName {allowDo : Bool} {name : Token} {e : Expr}
    (hrun : afterName (expr n) allowDo name c = .ok e d) (hc : c.rest <:+ ts) (he : e.Parted ts)
    (hd : d.Settled) : c.Settled ∧ afterName (expr n) allowDo name c.deeper = .ok e d.deeper := by
  unfold afterName at hrun ⊢
  obtain ⟨known, x, hknown, hrun⟩ := bind_eq_ok_iff.1 hrun
  cases hknown
  obtain ⟨k, x, hk, hrun⟩ := bind_eq_ok_iff.1 hrun
  cases hk
  have hsame (hs : c.Settled) : (c.deeper.kind != .lparen) = (c.kind != .lparen) := by
    rw [Bool.eq_iff_iff, bne_iff_ne, bne_iff_ne, Ne, hs.kind_eq_iff (by decide)]
  split at hrun
  · next hlocal =>
    cases hrun
    refine ⟨hd, (bind_of_ok rfl).trans ((bind_of_ok rfl).trans ?_)⟩
    rw [hsame hd]
    exact congrFun (if_pos hlocal) _
  · next hlocal =>
    obtain ⟨⟨args, span⟩, y, hargs, hrun⟩ := bind_eq_ok_iff.1 hrun
    obtain ⟨block, z, hblock, hrun⟩ := bind_eq_ok_iff.1 hrun
    cases hrun
    obtain ⟨hy, hblock⟩ := deeper_block? hblock hd
    obtain ⟨hs, hargs⟩ := deeper_args h hargs hc (fun _ => he.part) hy
    refine ⟨hs, (bind_of_ok rfl).trans ((bind_of_ok rfl).trans ?_)⟩
    rw [hsame hs]
    exact (congrFun (if_neg hlocal) _).trans ((bind_of_ok hargs).trans (bind_of_ok hblock))

theorem deeper_afterTarget {allowDo : Bool} {name : Token} {e : Expr} (hkind : c.kind = .eq)
    (hrun : afterTarget (expr n) allowDo name c = .ok e d) (hc : c.rest <:+ ts) (he : e.Parted ts)
    (hd : d.Settled) : afterTarget (expr n) allowDo name c.deeper = .ok e d.deeper := by
  obtain ⟨eq, x₁, heq, hrun⟩ := bind_eq_ok_iff.1 hrun
  cases heq
  obtain ⟨_, x₂, hskip, hrun⟩ := bind_eq_ok_iff.1 hrun
  cases hskip
  obtain ⟨_, x₃, hdeclare, hrun⟩ := bind_eq_ok_iff.1 hrun
  cases hdeclare
  obtain ⟨i, x₄, hfresh, hrun⟩ := bind_eq_ok_iff.1 hrun
  cases hfresh
  obtain ⟨value, y, hvalue, hrun⟩ := bind_eq_ok_iff.1 hrun
  cases hrun
  have hrest : c.next.skipNewlines.rest <:+ ts :=
    (List.dropWhile_suffix _).trans ((Cursor.next_suffix c).trans hc)
  have hvalue := h hvalue hrest (he.part (List.mem_singleton_self _)) hd
  exact (bind_of_ok (deeper_bump (by rw [hkind]; decide))).trans ((bind_of_ok rfl).trans
    ((bind_of_ok rfl).trans ((bind_of_ok rfl).trans (bind_of_ok hvalue))))

theorem deeper_named {allowDo : Bool} {e : Expr} (hkind : c.kind = .ident)
    (hrun : named (expr n) allowDo c = .ok e d) (hc : c.rest <:+ ts) (he : e.Parted ts) (hd : d.Settled) :
    named (expr n) allowDo c.deeper = .ok e d.deeper := by
  obtain ⟨name, x, hname, hrun⟩ := bind_eq_ok_iff.1 hrun
  cases hname
  obtain ⟨k, x, hk, hrun⟩ := bind_eq_ok_iff.1 hrun
  cases hk
  have hnext := (Cursor.next_suffix c).trans hc
  refine (bind_of_ok (deeper_bump (by rw [hkind]; decide))).trans ((bind_of_ok rfl).trans ?_)
  split at hrun
  · next heq =>
    rw [Cursor.kind_deeper (by rw [heq]; decide), if_pos heq]
    exact deeper_afterTarget h heq hrun hnext he hd
  · next heq =>
    obtain ⟨hs, hrun⟩ := deeper_afterName h hrun hnext he hd
    rw [if_neg (mt (hs.kind_eq_iff (by decide)).1 heq)]
    exact hrun

theorem deeper_parenExpr {e : Expr} (hrun : parenExpr (expr n) c = .ok e d) (hc : c.rest <:+ ts)
    (he : e.Parted ts) : c.kind = .lparen ∧ parenExpr (expr n) c.deeper = .ok e d.deeper := by
  obtain ⟨o, x, ho, hrun⟩ := bind_eq_ok_iff.1 hrun
  obtain ⟨inner, y, hinner, hrun⟩ := bind_eq_ok_iff.1 hrun
  obtain ⟨close, z, hclose, hrun⟩ := bind_eq_ok_iff.1 hrun
  cases hrun
  obtain ⟨hx, hxc⟩ := openParen_ok ho
  have hy := parens_expr hinner
  obtain ⟨hkind, ho⟩ := deeper_openParen ho
  obtain ⟨hykind, hclose⟩ := deeper_closeParen (by omega) hclose
  have hinner := h hinner (hxc.trans hc) he.of_withSpan (Cursor.settled_of_kind (by rw [hykind]; decide))
  exact ⟨hkind, (bind_of_ok ho).trans ((bind_of_ok hinner).trans (bind_of_ok hclose))⟩

theorem deeper_primary {e : Expr} (hrun : primary (expr n) c = .ok e d) (hc : c.rest <:+ ts)
    (he : e.Parted ts) : primary (expr n) c.deeper = .ok e d.deeper := by
  rw [primary_run] at hrun ⊢
  split at hrun
  · next value hliteral =>
    have hne : c.kind ≠ .newline := ne_of_startsArgument (Token.startsArgument_of_literal? hliteral) rfl
    rw [Cursor.current_deeper hne, hliteral]
    cases hrun
    exact bind_of_ok (deeper_bump hne)
  · cases hrun
  · next hliteral =>
    split at hrun
    · next hparen =>
      have hne : c.kind ≠ .newline := by rw [show c.kind = .lparen from hparen]; decide
      rw [Cursor.current_deeper hne, hliteral]
      show (if c.current.kind = .lparen then _ else _ : EStateM.Result Setback Cursor Expr) = _
      rw [if_pos hparen]
      exact (deeper_parenExpr h hrun hc he).2
    · cases hrun

end

/-! ### Statements -/

section
variable {source : List Char} {ts : List Token} (hts : Tiled source 0 ts) {n : Nat}
  (h : ∀ ⦃allowDo c e d⦄, expr n allowDo c = .ok e d → c.rest <:+ ts → e.Parted ts → d.Settled →
    expr n allowDo c.deeper = .ok e d.deeper)
  {c d : Cursor}
include hts h

omit h in
/-- What stands behind an expression is seen where its reading ends. -/
theorem kind_deeper_behind {allowDo : Bool} {e : Expr} {k : Token.Kind} {ks : List Token.Kind}
    (hrun : expr n allowDo c = .ok e d) (hc : c.rest <:+ ts)
    (hk : k :: ks <+: Token.kindsBehind ts e.span.stop) : d.deeper.kind = k := by
  rw [Token.kindsBehind, behind_expr hts hc hrun] at hk
  exact Cursor.kind_deeper_of_prefix hk

theorem deeper_statements {closers : List Token.Kind} (hclosers : ∀ k ∈ closers, k ∈ finishers) {fuel : Nat}
    {stmts : List Expr} (hrun : statements (expr n) closers fuel c = (stmts, .ok () d)) (hc : c.rest <:+ ts)
    (hstmts : ∀ stmt ∈ stmts, stmt.Parted ts) (hsep : Separated ts stmts) :
    statements (expr n) closers fuel c.deeper = (stmts, .ok () d.deeper) := by
  have hkind (c : Cursor) : c.deeper.skipTerminators.kind = c.skipTerminators.kind :=
    Cursor.kind_deeper c.kind_skipTerminators_ne
  rw [statements_eq_ok_iff] at hrun ⊢
  induction hrun with
  | nil hcloses => exact .nil (by rwa [hkind])
  | @cons fuel c x d stmt stmts hopen hstmt _ hrest ih =>
    have hskip : c.skipTerminators.rest <:+ ts := (List.dropWhile_suffix _).trans hc
    have hends : x.deeper.kind = .semicolon ∨ closes closers x.deeper.kind = true := by
      cases hrest with
      | nil hcloses => exact x.kind_deeper_or.imp_right fun hk => by rw [hk, hcloses]
      | cons => exact .inl (kind_deeper_behind hts hstmt hskip (hsep stmt (by simp)))
    have hsettled : x.Settled := fun _ => by
      rcases hends with hk | hk
      · rw [hk]
        decide
      · rw [closes, Bool.or_eq_true, beq_iff_eq, List.contains_iff_mem] at hk
        exact hk.elim (fun heof => heof ▸ by decide) (hclosers _)
    have hends' : (Cursor.isTerminator x.deeper.kind || closes closers x.deeper.kind) = true := by
      rcases hends with hk | hk
      · rw [hk]
        rfl
      · rw [hk, Bool.or_true]
    have hstmt' := h hstmt hskip (hstmts stmt List.mem_cons_self) hsettled
    exact .cons (by rwa [hkind]) hstmt' hends' (ih ((suffix_expr hstmt).trans hskip)
      (fun s hs => hstmts s (List.mem_cons_of_mem _ hs)) hsep.tail)

theorem deeper_body {closers : List Token.Kind} (hclosers : ∀ k ∈ closers, k ∈ finishers) {stmts : List Expr}
    (hrun : body (expr n) closers c = .ok stmts d) (hc : c.rest <:+ ts)
    (hstmts : ∀ stmt ∈ stmts, stmt.Parted ts) (hsep : Separated ts stmts) :
    body (expr n) closers c.deeper = .ok stmts d.deeper := by
  unfold body at hrun ⊢
  split at hrun <;> cases hrun
  next hrun =>
    rw [show c.deeper.rest = c.rest from rfl, deeper_statements hts h hclosers hrun hc hstmts hsep]

/-! ### Constructs with bodies -/

omit hts h in
/-- A body that does not end at once begins with an expression. -/
theorem starts_of_body {closers ks : List Token.Kind} {k : Token.Kind} {stmts : List Expr}
    (hrun : body (expr n) closers c = .ok stmts d) (hrest : Token.kinds c.rest = k :: ks)
    (hk : closes (.semicolon :: closers) k = false) :
    c.skipTerminators.kind = k ∧ ∃ e x, expr n true c.skipTerminators = .ok e x := by
  simp only [closes, List.contains_cons, Bool.or_eq_false_iff] at hk
  obtain ⟨heof, hsemicolon, hk⟩ := hk
  have hkind : c.skipTerminators.kind = k := by
    rw [Cursor.kind_skipTerminators, hrest, List.dropWhile_cons_of_neg (by simpa using hsemicolon)]
    rfl
  refine ⟨hkind, ?_⟩
  unfold body at hrun
  split at hrun <;> cases hrun
  next hrun =>
    cases statements_eq_ok_iff.1 hrun with
    | nil hcloses =>
      rw [closes, hkind, heof, hk] at hcloses
      cases hcloses
    | cons _ hstmt => exact ⟨_, _, hstmt⟩

omit hts h in
theorem expr_of_lparen {allowDo : Bool} (hc : c.kind = .lparen) :
    expr (n + 1) allowDo c = parenExpr (expr n) c := by
  have hcurrent : c.current.kind = .lparen := hc
  rw [expr, exprLayer_run, hc]
  show primary (expr n) c = _
  rw [primary_run, show c.current.literal? = none by simp [Token.literal?, hcurrent]]
  exact if_pos hcurrent

omit hts h in
/-- No expression is a pair of parentheses with nothing between them. -/
theorem kind_ne_rparen_of_expr {allowDo : Bool} {e : Expr} (hrun : expr n allowDo c = .ok e d)
    (hc : c.kind = .lparen) : c.next.deeper.kind ≠ .rparen := by
  cases n with
  | zero => cases hrun
  | succ n =>
    rw [expr_of_lparen hc] at hrun
    obtain ⟨o, x, ho, hrun⟩ := bind_eq_ok_iff.1 hrun
    obtain ⟨inner, y, hinner, hrun⟩ := bind_eq_ok_iff.1 hrun
    rw [openParen_run, if_pos hc] at ho
    cases ho
    replace hinner : expr n true c.next.deeper = .ok inner y := hinner
    intro hclose
    rcases kind_of_expr hinner with hkind | hkind <;> rw [hclose] at hkind
    · cases hkind
    · exact absurd hkind (by decide)

theorem deeper_branchRest {fuel : Nat} {construct : Fault.Construct} {opener : Span} {e : Expr}
    (hrun : branchRest (expr n) fuel construct opener c = .ok e d) (hc : c.rest <:+ ts) (he : e.Parted ts) :
    branchRest (expr n) fuel construct opener c.deeper = .ok e d.deeper := by
  induction fuel generalizing c d construct opener e with
  | zero => cases hrun
  | succ fuel ih =>
    simp only [branchRest] at hrun ⊢
    obtain ⟨cond, x₁, hcond, hrun⟩ := bind_eq_ok_iff.1 hrun
    obtain ⟨_, x₂, hterm, hrun⟩ := bind_eq_ok_iff.1 hrun
    obtain ⟨thenBody, x₃, hthen, hrun⟩ := bind_eq_ok_iff.1 hrun
    obtain ⟨k, x, hk, hrun⟩ := bind_eq_ok_iff.1 hrun
    cases hk
    have hx₁ := (suffix_expr hcond).trans hc
    have hx₂ := (suffix_of_attains (Attains.expectTerminator _) hterm).trans hx₁
    have hx₃ := (suffix_of_attains (attains_body (attains_expr n) _) hthen).trans hx₂
    -- the inner run comes to the end of the first body if the whole node is parted
    have hahead {id : NodeId} {span : Span} {elseBody : Option (List Expr)}
        {m : Expr → List Expr → Token.Kind → Parser Expr}
        (he : (Expr.node id span (.branch cond thenBody elseBody)).Parted ts)
        (hx : x₃.kind ≠ .newline) :
        (expr n true >>= fun cond => expectTerminator .ifCondition >>= fun _ =>
          body (expr n) [.elsifKw, .elseKw, .endKw] >>= fun thenBody => kind >>= m cond thenBody) c.deeper =
        m cond thenBody x₃.kind x₃.deeper := by
      obtain ⟨hbehind, hparted, ⟨hsep, hstmts⟩, -⟩ := he.branch
      have hkind := kind_deeper_behind hts hcond hc hbehind
      have hcond := h hcond hc hparted fun _ => by rw [hkind]; decide
      have hthen := deeper_body hts h (by decide) hthen hx₂ hstmts hsep
      refine (bind_of_ok hcond).trans ((bind_of_ok (deeper_expectTerminator hterm hkind)).trans
        ((bind_of_ok hthen).trans ((bind_of_ok rfl).trans ?_)))
      rw [Cursor.kind_deeper hx]
    generalize hkind : x₃.kind = k at hrun hahead
    split at hrun
    · obtain ⟨keyword, x₄, hkeyword, hrun⟩ := bind_eq_ok_iff.1 hrun
      cases hkeyword
      obtain ⟨nested, x₅, hnested, hrun⟩ := bind_eq_ok_iff.1 hrun
      cases hrun
      have hx₄ := (Cursor.next_suffix x₃).trans hx₃
      have hnested := ih hnested hx₄ (he.branch.2.2.2.2 nested (List.mem_singleton_self _))
      have hbump := deeper_bump (c := x₃) (by rw [hkind]; decide)
      exact (hahead he (by decide)).trans ((bind_of_ok hbump).trans (bind_of_ok hnested))
    · obtain ⟨keyword, x₄, hkeyword, hrun⟩ := bind_eq_ok_iff.1 hrun
      cases hkeyword
      obtain ⟨stmts, x₅, hbody, hrun⟩ := bind_eq_ok_iff.1 hrun
      obtain ⟨close, x₆, hclose, hrun⟩ := bind_eq_ok_iff.1 hrun
      cases hrun
      have hx₄ := (Cursor.next_suffix x₃).trans hx₃
      have hbump := deeper_bump (c := x₃) (by rw [hkind]; decide)
      have hbody := deeper_body hts h (by decide) hbody hx₄ he.branch.2.2.2.2 he.branch.2.2.2.1
      exact (hahead he (by decide)).trans ((bind_of_ok hbump).trans ((bind_of_ok hbody).trans
        (bind_of_ok (deeper_expectEnd hclose).2)))
    · obtain ⟨close, x₄, hclose, hrun⟩ := bind_eq_ok_iff.1 hrun
      cases hrun
      obtain ⟨hend, hclose⟩ := deeper_expectEnd hclose
      obtain rfl : k = .endKw := hkind.symm.trans hend
      exact (hahead he (by decide)).trans (bind_of_ok hclose)

theorem deeper_branchExpr {e : Expr} (hkind : c.kind = .ifKw) (hrun : branchExpr (expr n) c = .ok e d)
    (hc : c.rest <:+ ts) (he : e.Parted ts) : branchExpr (expr n) c.deeper = .ok e d.deeper := by
  obtain ⟨keyword, x, hkeyword, hrun⟩ := bind_eq_ok_iff.1 hrun
  cases hkeyword
  obtain ⟨fuel, x, hfuel, hrun⟩ := bind_eq_ok_iff.1 hrun
  cases hfuel
  have hrun := deeper_branchRest hts h hrun ((Cursor.next_suffix c).trans hc) he
  exact (bind_of_ok (deeper_bump (by rw [hkind]; decide))).trans ((bind_of_ok rfl).trans hrun)

omit h in
/-- If no `do` stands between the condition of a loop and its body, a semicolon does. -/
theorem kind_deeper_of_loop {cond : Expr} {x : Cursor} {stmts : List Expr}
    (hcond : expr n false c = .ok cond x) (hc : c.rest <:+ ts)
    (hbody : body (expr n) [.endKw] x.skipTerminators = .ok stmts d)
    (hparted : [.semicolon] <+: Token.kindsBehind ts cond.span.stop ∨
      [.doKw] <+: Token.kindsBehind ts cond.span.stop) : x.deeper.kind = .semicolon := by
  refine hparted.elim (kind_deeper_behind hts hcond hc) fun hbehind => ?_
  rw [Token.kindsBehind, behind_expr hts hc hcond] at hbehind
  obtain ⟨ks, hks⟩ := hbehind
  have hrest : Token.kinds x.skipTerminators.rest = .doKw :: ks := by
    rw [Cursor.skipTerminators, Token.kinds_skipTerminators, ← hks]
    rfl
  obtain ⟨hkind, e, y, hstmt⟩ := starts_of_body hbody hrest (by decide)
  have hstarts := kind_of_expr hstmt
  rw [hkind] at hstarts
  exact absurd hstarts (by decide)

theorem deeper_loopExpr {e : Expr} (hkind : c.kind = .whileKw) (hrun : loopExpr (expr n) c = .ok e d)
    (hc : c.rest <:+ ts) (he : e.Parted ts) : loopExpr (expr n) c.deeper = .ok e d.deeper := by
  obtain ⟨keyword, x, hkeyword, hrun⟩ := bind_eq_ok_iff.1 hrun
  cases hkeyword
  obtain ⟨cond, x₁, hcond, hrun⟩ := bind_eq_ok_iff.1 hrun
  obtain ⟨eaten, x₂, heat, hrun⟩ := bind_eq_ok_iff.1 hrun
  have hnext := (Cursor.next_suffix c).trans hc
  have hx₁ := (suffix_expr hcond).trans hnext
  have hx₂ := (suffix_of_attains (Attains.eat (by decide)) heat).trans hx₁
  have hbump := deeper_bump (c := c) (by rw [hkind]; decide)
  cases eaten with
  | true =>
    obtain ⟨_, x₃, hskip, hrun⟩ := bind_eq_ok_iff.1 hrun
    cases hskip
    obtain ⟨stmts, x₄, hbody, hrun⟩ := bind_eq_ok_iff.1 hrun
    obtain ⟨close, x₅, hclose, hrun⟩ := bind_eq_ok_iff.1 hrun
    cases hrun
    have hx₃ : x₂.skipTerminators.rest <:+ ts := (List.dropWhile_suffix _).trans hx₂
    obtain ⟨hsettled, heat⟩ := deeper_eat (by decide) heat fun hfalse => absurd hfalse (by decide)
    have hcond := h hcond hnext (he.part List.mem_cons_self) hsettled
    have hbody := deeper_body hts h (by decide) hbody hx₃
      (fun s hs => he.part (List.mem_cons_of_mem _ hs)) he.own.2
    exact (bind_of_ok hbump).trans ((bind_of_ok hcond).trans ((bind_of_ok heat).trans ((bind_of_ok rfl).trans
      ((bind_of_ok hbody).trans (bind_of_ok (deeper_expectEnd hclose).2)))))
  | false =>
    obtain ⟨_, x₃, hterm, hrun⟩ := bind_eq_ok_iff.1 hrun
    obtain ⟨stmts, x₄, hbody, hrun⟩ := bind_eq_ok_iff.1 hrun
    obtain ⟨close, x₅, hclose, hrun⟩ := bind_eq_ok_iff.1 hrun
    cases hrun
    obtain rfl : x₂ = x₁ := by
      unfold eat at heat
      split at heat <;> cases heat
      rfl
    obtain ⟨-, rfl⟩ := expectTerminator_run hterm
    have hx₃ : x₂.skipTerminators.rest <:+ ts := (List.dropWhile_suffix _).trans hx₂
    have hsemicolon := kind_deeper_of_loop hts hcond hnext hbody he.own.1
    obtain ⟨hsettled, heat⟩ := deeper_eat (by decide) heat fun _ _ => by rw [hsemicolon]; decide
    have hcond := h hcond hnext (he.part List.mem_cons_self) hsettled
    have hterm := deeper_expectTerminator hterm hsemicolon
    have hbody := deeper_body hts h (by decide) hbody hx₃
      (fun s hs => he.part (List.mem_cons_of_mem _ hs)) he.own.2
    exact (bind_of_ok hbump).trans ((bind_of_ok hcond).trans ((bind_of_ok heat).trans ((bind_of_ok hterm).trans
      ((bind_of_ok hbody).trans (bind_of_ok (deeper_expectEnd hclose).2)))))

omit hts h in
theorem deeper_forM_declare {params : List Ident} {u : Unit}
    (hrun : (params.forM fun p => declare p.name) c = .ok u d) :
    d.rest = c.rest ∧ (params.forM fun p => declare p.name) c.deeper = .ok u d.deeper := by
  induction params generalizing c with
  | nil =>
    cases hrun
    exact ⟨rfl, rfl⟩
  | cons p params ih =>
    obtain ⟨_, x, hdeclare, hrun⟩ := bind_eq_ok_iff.1 hrun
    cases hdeclare
    obtain ⟨hrest, hrun⟩ := ih hrun
    exact ⟨hrest, (bind_of_ok rfl).trans hrun⟩

omit hts h in
/-- Parameters in parentheses. -/
theorem deeper_params {params : List Ident}
    (hrun : (openParen >>= fun _ => do
      let params ← if (← kind) = .rparen then pure [] else idents
      let _ ← closeParen
      skipTerminators
      return params : Parser (List Ident)) c = .ok params d) :
    (openParen >>= fun _ => do
      let params ← if (← kind) = .rparen then pure [] else idents
      let _ ← closeParen
      skipTerminators
      return params : Parser (List Ident)) c.deeper = .ok params d.deeper := by
  obtain ⟨o, x, ho, hrun⟩ := bind_eq_ok_iff.1 hrun
  obtain ⟨k, x', hk, hrun⟩ := bind_eq_ok_iff.1 hrun
  cases hk
  have hx := (openParen_ok ho).1
  have hclose {y : Cursor} {is : List Ident} (hy : y.parens = x.parens)
      (hrun : (closeParen >>= fun _ => skipTerminators >>= fun _ => pure is) y = .ok params d) :
      y.kind = .rparen ∧
        (closeParen >>= fun _ => skipTerminators >>= fun _ => pure is) y.deeper = .ok params d.deeper := by
    obtain ⟨close, z, hclose, hrun⟩ := bind_eq_ok_iff.1 hrun
    cases hrun
    obtain ⟨hkind, hclose⟩ := deeper_closeParen (by omega) hclose
    exact ⟨hkind, bind_of_ok hclose⟩
  refine (bind_of_ok (deeper_openParen ho).2).trans ((bind_of_ok rfl).trans ?_)
  rw [Cursor.kind_deeper (Cursor.kind_ne_newline (by omega))]
  split at hrun
  · next hnone =>
    obtain ⟨is, y, hnil, hrun⟩ := bind_eq_ok_iff.1 hrun
    cases hnil
    rw [if_pos hnone]
    exact (bind_of_ok rfl).trans (hclose rfl hrun).2
  · next hnone =>
    obtain ⟨is, y, his, hrun⟩ := bind_eq_ok_iff.1 hrun
    have hwalks : Walks Anywhere x.parens ⟨false, []⟩ idents x.parens fun _ => ⟨false, []⟩ :=
      walks_idents (by decide)
    obtain ⟨-, -, -, hy⟩ := hwalks trivial rfl his
    obtain ⟨hkind, hrun⟩ := hclose hy hrun
    have his := deeper_idents his (Cursor.settled_of_kind (by rw [hkind]; decide))
    rw [if_neg hnone]
    exact (bind_of_ok his).trans hrun

omit hts h in
/-- Between the name of a method without parameters and its body there is a semicolon. -/
theorem kind_deeper_of_bare {name : Ident} {stmts : List Expr} {part : Fault.Part} {u : Unit} {x y : Cursor}
    (hname : Token.behind ts name.span.stop = c.rest) (hterm : expectTerminator part c = .ok u d)
    (hown : (Form.define ⟨name, [], stmts⟩).Parted ts)
    (hbody : body (expr n) [.endKw] x = .ok stmts y) (hx : x.rest = d.rest) : c.deeper.kind = .semicolon := by
  obtain ⟨-, rfl⟩ := expectTerminator_run hterm
  rcases hown with hbehind | ⟨ks, hks⟩
  · rw [List.getLast?_nil, Option.getD_none, Token.kindsBehind, hname] at hbehind
    exact Cursor.kind_deeper_of_prefix hbehind
  · rw [Token.kindsBehind, hname] at hks
    have hrest : Token.kinds x.rest = .lparen :: .rparen :: ks := by
      rw [hx, Cursor.skipTerminators, Token.kinds_skipTerminators, ← hks]
      rfl
    obtain ⟨hkind, e, z, hstmt⟩ := starts_of_body hbody hrest (by decide)
    have hseen : Token.kinds x.skipTerminators.rest = .lparen :: .rparen :: ks := by
      rw [Cursor.skipTerminators, Token.kinds_skipTerminators, hrest]
      rfl
    rw [Cursor.kinds_current (by rw [hkind]; decide) (by rw [hkind]; decide)] at hseen
    have hclose : [.rparen] <+: Token.kinds x.skipTerminators.next.rest := ⟨ks, (List.cons.inj hseen).2.symm⟩
    exact absurd (Cursor.kind_deeper_of_prefix hclose) (kind_ne_rparen_of_expr hstmt hkind)

omit h in
/-- The parameters of a method, with its body behind them. -/
theorem deeper_defParams {name : Ident} {params : List Ident} {stmts : List Expr} {x y : Cursor}
    (hrun : defParams c = .ok params d) (hc : c.rest <:+ ts) (hname : Token.behind ts name.span.stop = c.rest)
    (hown : (Form.define ⟨name, params, stmts⟩).Parted ts)
    (hbody : body (expr n) [.endKw] x = .ok stmts y) (hx : x.rest = d.rest) :
    defParams c.deeper = .ok params d.deeper := by
  obtain ⟨k, c', hk, hrun⟩ := bind_eq_ok_iff.1 hrun
  cases hk
  refine (bind_of_ok rfl).trans ?_
  split at hrun
  · next hparen =>
    rw [Cursor.kind_deeper (by rw [hparen]; decide), if_pos hparen]
    exact deeper_params hrun
  · next hparen =>
    obtain ⟨k, c', hk, hrun⟩ := bind_eq_ok_iff.1 hrun
    cases hk
    split at hrun
    · next hident =>
      have hne : c.kind ≠ .newline := by rw [hident]; decide
      rw [Cursor.kind_deeper hne, if_neg hparen]
      refine (bind_of_ok rfl).trans ?_
      rw [Cursor.kind_deeper hne, if_pos hident]
      obtain ⟨is, z, his, hrun⟩ := bind_eq_ok_iff.1 hrun
      obtain ⟨_, z', hterm, hrun⟩ := bind_eq_ok_iff.1 hrun
      cases hrun
      have hsemicolon : z.deeper.kind = .semicolon := by
        rcases hown with hbehind | hbehind
        · obtain ⟨i, hi, hlast⟩ := behind_idents hts hc his
          rw [Option.mem_def.1 hi, Option.getD_some, Token.kindsBehind, hlast] at hbehind
          exact Cursor.kind_deeper_of_prefix hbehind
        · rw [Token.kindsBehind, hname, Cursor.kinds_current (by rw [hident]; decide) hne, hident] at hbehind
          cases (List.cons_prefix_cons.1 hbehind).1
      have his := deeper_idents his fun _ => by rw [hsemicolon]; decide
      exact (bind_of_ok his).trans (bind_of_ok (deeper_expectTerminator hterm hsemicolon))
    · next hident =>
      obtain ⟨_, z, hterm, hrun⟩ := bind_eq_ok_iff.1 hrun
      cases hrun
      have hsemicolon := kind_deeper_of_bare hname hterm hown hbody hx
      rw [if_neg (by rw [hsemicolon]; decide)]
      refine (bind_of_ok rfl).trans ?_
      rw [if_neg (by rw [hsemicolon]; decide)]
      exact bind_of_ok (deeper_expectTerminator hterm hsemicolon)

omit hts h in
/-- The run of the body of a method. -/
theorem body_of_inScope {expr : ExprParser} {closers : List Token.Kind} {params : List Ident}
    {stmts : List Expr}
    (hrun : inScope true (do params.forM fun p => declare p.name; withNewlines (body expr closers)) c =
      .ok stmts d) : ∃ x y, x.rest = c.rest ∧ body expr closers x = .ok stmts y := by
  rw [inScope_run] at hrun
  split at hrun <;> cases hrun
  next x hrun =>
    obtain ⟨_, y, hdeclare, hbody⟩ := bind_eq_ok_iff.1 hrun
    rw [withNewlines_run] at hbody
    split at hbody <;> cases hbody
    next z hbody => exact ⟨{ y with parens := 0 }, z, (deeper_forM_declare hdeclare).1, hbody⟩

omit h in
theorem deeper_defExpr {e : Expr} (hkind : c.kind = .defKw) (hrun : defExpr (expr n) c = .ok e d)
    (hc : c.rest <:+ ts) (he : e.Parted ts) : defExpr (expr n) c.deeper = .ok e d.deeper := by
  obtain ⟨keyword, x, hkeyword, hrun⟩ := bind_eq_ok_iff.1 hrun
  cases hkeyword
  obtain ⟨name, x₁, hname, hrun⟩ := bind_eq_ok_iff.1 hrun
  obtain ⟨params, x₂, hparams, hrun⟩ := bind_eq_ok_iff.1 hrun
  obtain ⟨stmts, x₃, hscope, hrun⟩ := bind_eq_ok_iff.1 hrun
  obtain ⟨close, x₄, hclose, hrun⟩ := bind_eq_ok_iff.1 hrun
  cases hrun
  have hnext := (Cursor.next_suffix c).trans hc
  have hx₁ := (suffix_of_attains attains_ident hname).trans hnext
  obtain ⟨y, z, hy, hbody⟩ := body_of_inScope hscope
  have hparams := deeper_defParams hts hparams hx₁ (behind_ident hts hnext hname) he.own hbody hy
  have hscope := deeper_inScope hscope fun {c d} hrun => by
    obtain ⟨_, y, hdeclare, hbody⟩ := bind_eq_ok_iff.1 hrun
    exact (bind_of_ok (deeper_forM_declare hdeclare).2).trans (deeper_withNewlines hbody)
  exact (bind_of_ok (deeper_bump (by rw [hkind]; decide))).trans ((bind_of_ok (deeper_ident hname)).trans
    ((bind_of_ok hparams).trans ((bind_of_ok hscope).trans (bind_of_ok (deeper_expectEnd hclose).2))))

theorem deeper_exprLayer {allowDo : Bool} {e : Expr} (hrun : exprLayer (expr n) allowDo c = .ok e d)
    (hc : c.rest <:+ ts) (he : e.Parted ts) (hd : d.Settled) :
    exprLayer (expr n) allowDo c.deeper = .ok e d.deeper := by
  rw [exprLayer_run] at hrun ⊢
  have hne : c.kind ≠ .newline := kind_ne_of_expr (n := n + 1) (by rwa [expr, exprLayer_run])
  rw [Cursor.kind_deeper hne]
  generalize hkind : c.kind = k at hrun ⊢
  split at hrun
  · exact deeper_defExpr hts hkind hrun hc he
  · exact deeper_branchExpr hts h hkind hrun hc he
  · exact deeper_loopExpr hts h hkind hrun hc he
  · exact deeper_yieldExpr h hkind hrun hc he hd
  · rw [← named_run] at hrun ⊢
    exact deeper_named h hkind hrun hc he hd
  · exact deeper_primary h hrun hc he

end

/-- **An expression in which no line feed does the work of a separator is read alike with one more parenthesis
open around it.** -/
theorem deeper_expr {source : List Char} {ts : List Token} (hts : Tiled source 0 ts) {fuel : Nat}
    {allowDo : Bool} {c d : Cursor} {e : Expr} (hrun : expr fuel allowDo c = .ok e d) (hc : c.rest <:+ ts)
    (he : e.Parted ts) (hd : d.Settled) : expr fuel allowDo c.deeper = .ok e d.deeper := by
  induction fuel generalizing allowDo c d e with
  | zero => cases hrun
  | succ fuel ih => exact deeper_exprLayer hts (fun _ _ _ _ hrun hc he hd => ih hrun hc he hd) hrun hc he hd

end Parser

end FlowTyping
