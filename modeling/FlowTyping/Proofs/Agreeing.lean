import FlowTyping.Proofs.Carrying

/-!
# What is read alike

`Parser.carries_expr`: cursors that echo each other are read alike, up to the spans, as long as an
expression does not go on with what the texts go on with (`Sides.Level.Fits`).  The productions are taken
through the rule `Parser.Carries`, one lemma each.  For lists of statements that end just where the texts go
on differently there is a lemma of its own (`Parser.statements_upto`), since there the lists may be closed
by different tokens.
-/

namespace FlowTyping

namespace Parser

/-! ### Productions -/

section
variable {v : SpanView} {s : Sides} {l : s.Level} {P : Cursor → Prop} {g : Grip}

theorem carries_ident : Carries v l P .firm ident (Ident.seen v) l g ident := by
  refine (Carries.expect (by decide)).bind fun t t' ht => Carries.freshId.bind fun i i' hi => .give ?_
  obtain rfl : i = i' := hi
  show Ident.mk i t.text (v.see t.span) = Ident.mk i t'.text (v.see t'.span)
  rw [Token.text_eq ht, Token.see_span ht]

theorem carries_idents : Carries v l P .firm idents (List.map (Ident.seen v)) l .firm idents :=
  .itemFuel fun _ _ hfuel => carries_ident.commaList (.give rfl) Grip.not_safe hfuel

theorem carries_blockParams (hsnug : g = .safe → l.Snug) :
    Carries v l P g blockParams (List.map (Ident.seen v)) l g blockParams := by
  refine (Carries.eat (by decide) fun hg => ⟨hsnug hg, by decide⟩).bind fun some some' hsome => ?_
  obtain rfl : some = some' := hsome
  have hclose (params params' : List Ident) (h : params.map (Ident.seen v) = params'.map (Ident.seen v)) :
      Carries v l Anywhere .firm (expect .bar >>= fun _ => pure params) (List.map (Ident.seen v)) l g
        (expect .bar >>= fun _ => pure params') :=
    (Carries.expect (by decide)).bind fun _ _ _ => .give h
  cases some with
  | false => exact .give rfl
  | true =>
    refine .loosen (.kindFirm fun k => ?_)
    show Carries _ _ _ _ (ite _ _ _) _ _ _ (ite _ _ _)
    split
    · exact (Carries.give rfl).bind hclose
    · exact carries_idents.bind hclose

theorem carries_defParams :
    Carries v l P .firm defParams (List.map (Ident.seen v)) l .firm defParams := by
  refine .kindFirm fun k => ?_
  split
  · refine Carries.openParen.bind fun _ _ _ => .kindFirm fun k => ?_
    have hclose (params params' : List Ident)
        (h : params.map (Ident.seen v) = params'.map (Ident.seen v)) :
        Carries v l.inner Anywhere .firm (closeParen >>= fun _ => skipTerminators >>= fun _ => pure params)
          (List.map (Ident.seen v)) l .firm
          (closeParen >>= fun _ => skipTerminators >>= fun _ => pure params') :=
      Carries.closeParen.bind fun _ _ _ => Carries.skipTerminators.bind fun _ _ _ => .give h
    show Carries _ _ _ _ (ite _ _ _) _ _ _ (ite _ _ _)
    split
    · exact (Carries.give rfl).bind hclose
    · exact carries_idents.bind hclose
  · refine .kindFirm fun k => ?_
    split
    · exact carries_idents.bind fun params params' h => (Carries.expectTerminator _).bind fun _ _ _ => .give h
    · exact (Carries.expectTerminator _).bind fun _ _ _ => .give rfl

/-- At the end of a production the node gets its identity. -/
theorem carries_node {span span' : Span} {form form' : Form Expr} (hspan : v.see span = v.see span')
    (hform : (form.map (Expr.seen v)).seen v = (form'.map (Expr.seen v)).seen v) :
    Carries v l P g (freshId >>= fun id => pure (Expr.node id span form)) (Expr.seen v) l g
      (freshId >>= fun id => pure (Expr.node id span' form')) := by
  refine Carries.freshId.bind fun i i' hi => .give ?_
  obtain rfl : i = i' := hi
  rw [Expr.seen_node, Expr.seen_node, hspan, hform]

/-- What is seen of a block with its parts. -/
def seenBlock (v : SpanView) (b : Block Expr) : Block Expr := (b.map (Expr.seen v)).seen v

theorem see_span_of_seenBlock {b b' : Block Expr} (h : seenBlock v b = seenBlock v b') :
    v.see b.span = v.see b'.span := congrArg Block.span h

theorem seenBlock_eq {i : NodeId} {span span' : Span} {params params' : List Ident} {stmts stmts' : List Expr}
    (hspan : v.see span = v.see span') (hparams : params.map (Ident.seen v) = params'.map (Ident.seen v))
    (hstmts : stmts.map (Expr.seen v) = stmts'.map (Expr.seen v)) :
    seenBlock v ⟨i, span, params, stmts⟩ = seenBlock v ⟨i, span', params', stmts'⟩ := by
  simp only [seenBlock, Block.map, Block.seen, hspan, hparams, hstmts]

/-! ### Statements -/

/-- Statements end at once at a token that closes the list. -/
theorem rest_of_closes {expr : ExprParser} {closers : List Token.Kind} {fuel : Nat} {c d : Cursor}
    {stmts : List Expr} (hparens : c.parens = 0) (hterm : Cursor.isTerminator c.kind = false)
    (hcloses : closes closers c.kind = true)
    (hrun : statements expr closers fuel c = (stmts, .ok () d)) : d.rest = c.rest := by
  have hskip := Cursor.skipTerminators_eq hparens hterm
  cases fuel with
  | zero => cases hrun
  | succ fuel =>
    rw [statements_of_closes (by rwa [hskip]), hskip] at hrun
    cases hrun
    rfl

section
variable {expr expr' : ExprParser}
  (h : ∀ {l : s.Level} {allowDo allowDo' : Bool} {g : Grip}, l.Fits allowDo allowDo' g →
    Carries v l Anywhere .firm (expr allowDo) (Expr.seen v) l g (expr' allowDo'))
include h

theorem statements_grip {closers : List Token.Kind} {fuel : Nat} {c d : Cursor} {stmts : List Expr}
    (hfits : l.Fits true true g) (hrun : statements expr closers fuel c = (stmts, .ok () d))
    (hd : g.Holds s d) : g.Holds s c := by
  have hskip {c : Cursor} (hc : g.Holds s c.skipTerminators) : g.Holds s c :=
    Cursor.holds_of_suffix hc (List.dropWhile_suffix _)
  rw [statements_eq_ok_iff] at hrun
  induction hrun with
  | nil => exact hskip hd
  | cons _ hstmt _ _ ih => exact hskip (Cursor.holds_of_firm ((h hfits).grip trivial hstmt (ih hd)))

theorem carries_statements_ok {closers : List Token.Kind} {fuel fuel' : Nat} {c c' d : Cursor}
    {stmts : List Expr} (hcc' : c.Echoes v l c')
    (hrun : statements expr closers fuel c = (stmts, .ok () d)) (hd : Grip.firm.Holds s d)
    (hfuel : fuel ≤ fuel') : ∃ stmts' d', statements expr' closers fuel' c' = (stmts', .ok () d') ∧
      stmts.map (Expr.seen v) = stmts'.map (Expr.seen v) ∧ d.Echoes v l d' := by
  have hexpr := h (Sides.Level.fits_firm : l.Fits true true .firm)
  rw [statements_eq_ok_iff] at hrun
  induction hrun generalizing fuel' c' with
  | nil hcloses =>
    obtain ⟨fuel', rfl⟩ : ∃ n, fuel' = n + 1 := ⟨fuel' - 1, by omega⟩
    have hskip := echoes_skipTerminators hcc' hd
    exact ⟨[], _, statements_of_closes (hskip.kind_eq hd ▸ hcloses), rfl, hskip⟩
  | cons hopen hstmt hends hrest ih =>
    obtain ⟨fuel', rfl⟩ : ∃ n, fuel' = n + 1 := ⟨fuel' - 1, by omega⟩
    have hfirm := statements_grip h (l := l) Sides.Level.fits_firm (statements_eq_ok_iff.2 hrest) hd
    have hbefore := hexpr.grip trivial hstmt hfirm
    have hskip := echoes_skipTerminators hcc' hbefore
    obtain ⟨stmt', x', hstmt', hseen, hxx'⟩ := hexpr.ok trivial hskip hstmt hfirm
    obtain ⟨stmts', d', hrest', hseens, hdd'⟩ := ih hxx' hd (Nat.le_of_succ_le_succ hfuel)
    refine ⟨stmt' :: stmts', d', ?_, by rw [List.map_cons, List.map_cons, hseen, hseens], hdd'⟩
    rw [statements_of_ok (hskip.kind_eq hbefore ▸ hopen) hstmt' (hxx'.kind_eq hfirm ▸ hends), hrest']

theorem carries_statements_fault {closers : List Token.Kind} {fuel fuel' : Nat} {c c' d : Cursor}
    {stmts : List Expr} {f : Fault} (hblank : s.Blank) (hcc' : c.Echoes v l c')
    (hrun : statements expr closers fuel c = (stmts, .error (.fault f) d)) (hfuel : fuel ≤ fuel') :
    ∃ stmts' f' d', statements expr' closers fuel' c' = (stmts', .error (.fault f') d') ∧
      stmts.map (Expr.seen v) = stmts'.map (Expr.seen v) ∧ f.Alike f' := by
  have hexpr := h (Sides.Level.fits_firm : l.Fits true true .firm)
  induction fuel generalizing fuel' c c' stmts with
  | zero => exact nomatch hrun
  | succ fuel ih =>
    obtain ⟨fuel', rfl⟩ : ∃ n, fuel' = n + 1 := ⟨fuel' - 1, by omega⟩
    have hecho := echoes_skipTerminators hcc' (Cursor.holds_of_blank hblank)
    have hkind {d d' : Cursor} (hdd' : d.Echoes v l d') : d.kind = d'.kind :=
      hdd'.kind_eq (Cursor.holds_of_blank hblank)
    rcases statements_cases expr closers c with hc | ⟨hc, ⟨e, x, hstmt⟩ | ⟨stmt, x, hstmt, hx | hx⟩⟩
    · rw [statements_of_closes hc] at hrun
      cases hrun
    · rw [statements_of_error hc hstmt] at hrun
      cases hrun
      obtain ⟨f', d', hstmt', hf⟩ := hexpr.fault hblank trivial hecho hstmt
      exact ⟨[], f', d', statements_of_error (hkind hecho ▸ hc) hstmt', rfl, hf⟩
    · obtain ⟨stmt', x', hstmt', hseen, hxx'⟩ :=
        hexpr.ok trivial hecho hstmt (Cursor.holds_of_blank hblank)
      rw [statements_of_ok hc hstmt hx] at hrun
      obtain ⟨rfl, hrest⟩ := Prod.mk.inj hrun
      obtain ⟨stmts', f', d', hrest', hseens, hf⟩ :=
        ih hxx' (Prod.ext rfl hrest) (Nat.le_of_succ_le_succ hfuel)
      refine ⟨stmt' :: stmts', f', d', ?_, by rw [List.map_cons, List.map_cons, hseen, hseens], hf⟩
      rw [statements_of_ok (hkind hecho ▸ hc) hstmt' (hkind hxx' ▸ hx), hrest']
    · obtain ⟨stmt', x', hstmt', hseen, hxx'⟩ :=
        hexpr.ok trivial hecho hstmt (Cursor.holds_of_blank hblank)
      rw [statements_of_stuck hc hstmt hx] at hrun
      cases hrun
      refine ⟨[stmt'], _, x', statements_of_stuck (hkind hecho ▸ hc) hstmt' (hkind hxx' ▸ hx), ?_, ?_⟩
      · rw [List.map_singleton, List.map_singleton, hseen]
      · exact Fault.alike_unexpectedToken (hxx'.current (Cursor.holds_of_blank hblank)) _

/-- Statements that end where the texts go on differently are read alike, and then the other text is read
on. -/
theorem statements_upto {closers closers' : List Token.Kind} {fuel fuel' : Nat} {c c' d : Cursor}
    {stmts : List Expr} (hfits : (Sides.Level.top (s := s)).Fits true true .safe)
    (hstart : ∀ ⦃c e x⦄, expr true c = .ok e x → closes closers' c.kind = false)
    (hstop : (Cursor.isTerminator (firstKind s.second) || closes closers' (firstKind s.second)) = true)
    (hcc' : c.Echoes v (.top (s := s)) c') (hrun : statements expr closers fuel c = (stmts, .ok () d))
    (hd : d.rest = s.first) (hfuel : fuel ≤ fuel') :
    ∃ (stmts' : List Expr) (n : Nat) (x x' : Cursor), x.Echoes v (.top (s := s)) x' ∧ x.skipTerminators = d ∧
      stmts.map (Expr.seen v) = stmts'.map (Expr.seen v) ∧
      statements expr' closers' fuel' c' =
        (stmts' ++ (statements expr' closers' (n + 1) x').1, (statements expr' closers' (n + 1) x').2) := by
  rw [statements_eq_ok_iff] at hrun
  induction hrun generalizing fuel' c' with
  | @nil fuel c =>
    obtain ⟨fuel', rfl⟩ : ∃ n, fuel' = n + 1 := ⟨fuel' - 1, by omega⟩
    exact ⟨[], fuel', c, c', hcc', rfl, rfl, rfl⟩
  | @cons fuel c x d stmt stmts hopen hstmt hends hrest ih =>
    obtain ⟨fuel', rfl⟩ : ∃ n, fuel' = n + 1 := ⟨fuel' - 1, by omega⟩
    have hrun := statements_eq_ok_iff.2 hrest
    have hsafe := statements_grip h hfits hrun (show s.first <:+ d.rest from hd ▸ List.suffix_refl _)
    have hbefore := (h hfits).grip trivial hstmt hsafe
    have hskip := echoes_skipTerminators hcc' hbefore
    obtain ⟨stmt', x', hstmt', hseen, hxx'⟩ := (h hfits).ok trivial hskip hstmt hsafe
    have hends' : (Cursor.isTerminator x'.kind || closes closers' x'.kind) = true := by
      rcases hxx'.kind (.inl ⟨rfl, rfl⟩) with ⟨hkind, -⟩ | ⟨-, hsecond⟩
      · cases hterm : Cursor.isTerminator x.kind with
        | true => rw [← hkind, hterm, Bool.true_or]
        | false =>
          -- the first list of statements ends right here, so the texts go on differently here
          have hrest' := rest_of_closes hxx'.here hterm (by rwa [hterm, Bool.false_or] at hends) hrun
          rwa [Cursor.kind_eq_firstKind hxx'.there, hxx'.rest_eq_second (hrest'.symm.trans hd)]
      · rwa [hsecond]
    obtain ⟨stmts', n, y, y', hyy', hy, hseens, hrest'⟩ := ih hxx' hd (Nat.le_of_succ_le_succ hfuel)
    refine ⟨stmt' :: stmts', n, y, y', hyy', hy, by rw [List.map_cons, List.map_cons, hseen, hseens], ?_⟩
    rw [statements_of_ok (hskip.kind_eq hbefore ▸ hstart hstmt) hstmt' hends', hrest']
    rfl

/-- Statements that end where the texts go on differently, and where both lists end. -/
theorem statements_alike {closers closers' : List Token.Kind} {fuel fuel' : Nat} {c c' d : Cursor}
    {stmts : List Expr} (hfits : (Sides.Level.top (s := s)).Fits true true .safe)
    (hstart : ∀ ⦃c e x⦄, expr true c = .ok e x → closes closers' c.kind = false)
    (hfirst : Cursor.isTerminator (firstKind s.first) = false)
    (hsecond : Cursor.isTerminator (firstKind s.second) = false ∧ closes closers' (firstKind s.second) = true)
    (hcc' : c.Echoes v (.top (s := s)) c') (hrun : statements expr closers fuel c = (stmts, .ok () d))
    (hd : d.rest = s.first) (hfuel : fuel ≤ fuel') :
    ∃ stmts' d', statements expr' closers' fuel' c' = (stmts', .ok () d') ∧
      stmts.map (Expr.seen v) = stmts'.map (Expr.seen v) ∧ d.Echoes v (.top (s := s)) d' := by
  obtain ⟨stmts', n, x, x', hxx', rfl, hseen, hrun'⟩ :=
    statements_upto h hfits hstart (by rw [hsecond.2, Bool.or_true]) hcc' hrun hd hfuel
  have hskip : x.skipTerminators.Echoes v (.top (s := s)) x'.skipTerminators :=
    ⟨hxx'.split.dropWhile _ (.inr ⟨hfirst, hsecond.1⟩), hxx'.stop, hxx'.here, hxx'.there, hxx'.naming⟩
  have hkind : x'.skipTerminators.kind = firstKind s.second := by
    rw [Cursor.kind_eq_firstKind hskip.there, hskip.rest_eq_second hd]
  rw [statements_of_closes (by rw [hkind, hsecond.2]), List.append_nil] at hrun'
  exact ⟨stmts', _, hrun', hseen, hskip⟩

theorem carries_body (closers : List Token.Kind) :
    Carries v l P .firm (body expr closers) (List.map (Expr.seen v)) l .firm (body expr' closers) := by
  refine ⟨fun c stmts d _ hrun hd => ?_, fun c c' stmts d _ hcc' hrun hd => ?_,
    fun c c' f d hblank _ hcc' hrun => ?_⟩ <;> unfold body at hrun <;> split at hrun
  · next hstmts => cases hrun; exact statements_grip h (l := l) Sides.Level.fits_firm hstmts hd
  · cases hrun
  · next hstmts =>
    cases hrun
    obtain ⟨stmts', d', hstmts', hseen, hdd'⟩ := carries_statements_ok h hcc' hstmts hd
      (Nat.succ_le_succ hcc'.length_le)
    exact ⟨stmts', d', by simp only [body, hstmts'], hseen, hdd'⟩
  · cases hrun
  · cases hrun
  · next hstmts =>
    cases hrun
    obtain ⟨stmts', f', d', hstmts', -, hf⟩ := carries_statements_fault h hblank hcc' hstmts
      (Nat.succ_le_succ hcc'.length_le)
    exact ⟨f', d', by simp only [body, hstmts'], hf⟩

/-! ### Arguments and blocks -/

theorem carries_parenArgs : Carries v l P .firm (parenArgs expr)
    (Prod.map (List.map (Expr.seen v)) v.see) l g (parenArgs expr') := by
  refine Carries.openParen.bind fun _ _ _ => .kindFirm fun k => ?_
  have hclose (args args' : List Expr) (hargs : args.map (Expr.seen v) = args'.map (Expr.seen v)) :
      Carries v l.inner Anywhere .firm (closeParen >>= fun close => pure (args, close.span))
        (Prod.map (List.map (Expr.seen v)) v.see) l g
        (closeParen >>= fun close => pure (args', close.span)) :=
    Carries.closeParen.bind fun close close' hspan => .give (Prod.ext hargs (Token.see_span hspan))
  show Carries _ _ _ _ (ite _ _ _) _ _ _ (ite _ _ _)
  split
  · exact (Carries.give rfl).bind hclose
  · exact .itemFuel fun _ _ hfuel =>
      ((h Sides.Level.fits_firm).commaList (.give rfl) Grip.not_safe hfuel).bind hclose

theorem carries_commandArgs (hsnug : g = .safe → l.Snug) : Carries v l P .firm (commandArgs expr)
    (List.map (Expr.seen v)) l g (commandArgs expr') :=
  .itemFuel fun _ _ hfuel => (h (Sides.Level.fits_false hsnug)).commaList .skipNewlines hsnug hfuel

/-- Arguments without parentheses may be followed by what follows an expression. -/
theorem carries_args {span span' : Span} (hspan : v.see span = v.see span') (hsnug : g = .safe → l.Snug) :
    Carries v l P g (args expr span) (Prod.map (List.map (Expr.seen v)) v.see) l g
      (args expr' span') := by
  refine .kindEnds (fun k => ?_) hsnug fun k hk => by fin_cases hk <;> rfl
  split
  · refine ((carries_parenArgs h).bind fun r r' hr => .give ?_).loosen
    obtain ⟨hargs, hclose⟩ := Prod.mk.inj hr
    exact Prod.ext hargs (v.see_merge hspan hclose)
  · refine .kindEnds (fun k => ?_) hsnug fun k hk => by fin_cases hk <;> rfl
    split
    · refine ((carries_commandArgs h hsnug).bind fun args args' hargs => .give (Prod.ext hargs ?_)).loosen
      have hlast := congrArg List.getLast? hargs
      rw [List.getLast?_map, List.getLast?_map] at hlast
      cases hl : args.getLast? with
      | none =>
        rw [hl, Option.map_none, eq_comm, Option.map_eq_none_iff] at hlast
        rw [hlast]
        exact hspan
      | some last =>
        rw [hl, Option.map_some, eq_comm, Option.map_eq_some_iff] at hlast
        obtain ⟨last', hl', hseen⟩ := hlast
        rw [hl']
        exact v.see_merge hspan (Expr.see_span hseen.symm)
    · exact .give (Prod.ext rfl hspan)

theorem carries_blockContents (closer : Token.Kind) : Carries v l P .firm (blockContents expr closer)
    (Prod.map (List.map (Ident.seen v)) (List.map (Expr.seen v))) l .firm (blockContents expr' closer) :=
  .inScope false <| .withNewlines <| (carries_blockParams Grip.not_safe).bind fun _ _ hparams =>
    (Carries.forM_declare hparams).bind fun _ _ _ => (carries_body h _).bind fun _ _ hstmts =>
      .give (Prod.ext hparams hstmts)

/-- What stands between the brackets of two blocks that end with different tokens. -/
theorem finishes_blockContents {closer closer' : Token.Kind}
    (hfits : (Sides.Level.top (s := s)).Fits true true .safe)
    (hstart : ∀ ⦃c e x⦄, expr true c = .ok e x → closes [closer'] c.kind = false)
    (hfirst : Cursor.isTerminator (firstKind s.first) = false)
    (hsecond : Cursor.isTerminator (firstKind s.second) = false ∧ firstKind s.second = closer') :
    Finishes v l (blockContents expr closer) (Prod.map (List.map (Ident.seen v)) (List.map (Expr.seen v))) l
      (blockContents expr' closer') := by
  have hbody : Finishes v (.top (s := s)) (body expr [closer]) (List.map (Expr.seen v)) .top
      (body expr' [closer']) := by
    refine ⟨fun c stmts d hrun hd => ?_, fun c c' stmts d hcc' hrun hd => ?_⟩ <;>
      unfold body at hrun <;> split at hrun <;> cases hrun
    · next hstmts => exact statements_grip h hfits hstmts (show s.first <:+ d.rest from hd ▸ List.suffix_refl _)
    · next hstmts =>
      obtain ⟨stmts', d', hstmts', hseen, hdd'⟩ := statements_alike h hfits hstart hfirst
        ⟨hsecond.1, by simp [closes, hsecond.2]⟩ hcc' hstmts hd (Nat.succ_le_succ hcc'.length_le)
      exact ⟨stmts', d', by simp only [body, hstmts'], hseen, hdd'⟩
  exact .inScope false <| .withNewlines <| .behind (carries_blockParams hfits.snug) fun _ _ hparams =>
    .behind (Carries.forM_declare hparams) fun _ _ _ => hbody.map fun _ _ hstmts => Prod.ext hparams hstmts

theorem carries_bracketed {first closer : Token.Kind} (hfirst : first ≠ .eof ∧ first ≠ .newline)
    {last : Token → Parser Token}
    (hlast : ∀ t t', Carries v l Anywhere .firm (last t) (Token.seen v) l g (last t')) :
    Carries v l (·.kind = first) .firm (bracketed expr closer last) (seenBlock v) l g
      (bracketed expr' closer last) := by
  refine (Carries.bump fun _ h => by rwa [h]).bind fun opener opener' hopener =>
    (carries_blockContents h _).bind fun r r' hr => ?_
  obtain ⟨hparams, hstmts⟩ := Prod.mk.inj hr
  refine (hlast opener opener').bind fun close close' hclose => Carries.freshId.bind fun i i' hi => .give ?_
  obtain rfl : i = i' := hi
  exact seenBlock_eq (v.see_merge (Token.see_span hopener) (Token.see_span hclose)) hparams hstmts

theorem carries_doBlock :
    Carries v l (·.kind = .doKw) .firm (doBlock expr) (seenBlock v) l g (doBlock expr') := by
  rw [doBlock_eq, doBlock_eq]
  exact carries_bracketed h (by decide) fun _ _ => .expectEnd _ _ _

theorem carries_braceBlock :
    Carries v l (·.kind = .lbrace) .firm (braceBlock expr) (seenBlock v) l g (braceBlock expr') := by
  rw [braceBlock_eq, braceBlock_eq]
  exact carries_bracketed h (by decide) fun _ _ => .expect (by decide)

/-- Reads the block from `do` to `end` that goes with a call, if it may and there is one. -/
theorem carries_doBlock? {allowDo allowDo' : Bool} (hfits : l.Fits allowDo allowDo' g) :
    Carries v l P g (kind >>= fun k =>
        if (allowDo && k == .doKw) = true then doBlock expr >>= fun b => pure (some b) else pure none)
      (Option.map (seenBlock v)) l g (kind >>= fun k =>
        if (allowDo' && k == .doKw) = true then doBlock expr' >>= fun b => pure (some b) else pure none) := by
  have hblock : Carries v l (·.kind = .doKw) g (doBlock expr >>= fun b => pure (some b))
      (Option.map (seenBlock v)) l g (doBlock expr' >>= fun b => pure (some b)) := by
    refine ((carries_doBlock h).bind fun b b' hb => .give ?_).loosen
    exact congrArg some hb
  refine .kindOr (fun c b d _ hrun hd => ?_) (fun k hk => ?_) fun hg => ⟨hfits.snug hg, ?_⟩
  · split at hrun
    · next hdo =>
      rw [Bool.and_eq_true, beq_iff_eq] at hdo
      exact hblock.grip hdo.2 hrun hd
    · cases hrun
      exact hd
  · -- a `do` that is shared is read by both or by none
    have hsame (hdo : k = .doKw) : allowDo = allowDo' :=
      hfits.same (Bool.eq_false_iff.2 fun hplain => (hk hplain).2 hdo)
    by_cases hdo : k = .doKw
    · rw [← hsame hdo]
      split
      · exact hblock.pre fun c hc => hc.2.trans hdo
      · exact .give rfl
    · simp only [beq_eq_false_iff_ne.2 hdo, Bool.and_false, Bool.false_eq_true, if_false]
      exact .give rfl
  · have hnone (b : Bool) (k : Token.Kind) (hk : b = true → k ≠ .doKw) : (b && k == .doKw) = false := by
      cases b with
      | false => rfl
      | true => exact beq_eq_false_iff_ne.2 (hk rfl)
    simp only [hnone _ _ (hfits.first_ne hg), hnone _ _ (hfits.second_ne hg), Bool.false_eq_true, if_false]
    exact .give rfl

theorem carries_block? {allowDo allowDo' : Bool} (hfits : l.Fits allowDo allowDo' g) :
    Carries v l P g (block? expr allowDo) (Option.map (seenBlock v)) l g (block? expr' allowDo') := by
  have hbrace : Carries v l (·.kind = .lbrace) g (braceBlock expr >>= fun b => pure (some b))
      (Option.map (seenBlock v)) l g (braceBlock expr' >>= fun b => pure (some b)) := by
    refine ((carries_braceBlock h).bind fun b b' hb => .give ?_).loosen
    exact congrArg some hb
  refine .kindOr (fun c b d hc hrun hd => ?_) (fun k _ => ?_) fun hg => ⟨hfits.snug hg, ?_⟩
  · split at hrun
    · next hk => exact hbrace.grip hk hrun hd
    · exact (carries_doBlock? h hfits).grip hc hrun hd
  · split
    · next hk => exact hbrace.pre fun c hc => hc.2.trans hk
    · exact carries_doBlock? h hfits
  · rw [if_neg (Sides.ne_first (by decide)), if_neg (Sides.ne_second (by decide))]
    exact carries_doBlock? h hfits

/-! ### Expressions -/

theorem carries_yieldExpr (hsnug : g = .safe → l.Snug) :
    Carries v l (·.kind = .yieldKw) .firm (yieldExpr expr) (Expr.seen v) l g (yieldExpr expr') := by
  refine (Carries.bump fun _ h => by rw [h]; decide).bind fun keyword keyword' hkeyword =>
    (carries_args h (Token.see_span hkeyword) hsnug).bind fun r r' hr => ?_
  obtain ⟨hargs, hspan⟩ := Prod.mk.inj hr
  exact carries_node hspan (by simp only [Form.map, Form.seen, hargs])

theorem carries_afterName {allowDo allowDo' : Bool} (hfits : l.Fits allowDo allowDo' g) {name name' : Token}
    (hname : name.seen v = name'.seen v) : Carries v l P g (afterName expr allowDo name) (Expr.seen v) l g
      (afterName expr' allowDo' name') := by
  have hspan := Token.see_span hname
  unfold afterName
  rw [Token.text_eq hname]
  refine (Carries.isLocal _).bind fun known known' hknown => ?_
  obtain rfl : known = known' := hknown
  refine .kindEnds (fun k => ?_) hfits.snug fun k hk => by fin_cases hk <;> rfl
  split
  · exact carries_node hspan rfl
  · refine (carries_args h hspan hfits.snug).bind fun r r' hr =>
      (carries_block? h hfits).bind fun b b' hb => ?_
    obtain ⟨hargs, hspans⟩ := Prod.mk.inj hr
    have hform : (((Form.call name'.text name.span r.1 b).map (Expr.seen v)).seen v) =
        (((Form.call name'.text name'.span r'.1 b').map (Expr.seen v)).seen v) := by
      have hblock (b : Option (Block Expr)) :
          (b.map (Block.map (Expr.seen v))).map (Block.seen v) = b.map (seenBlock v) := Option.map_map ..
      simp only [Form.map, Form.seen, hblock, hargs, hspan, hb]
    refine carries_node ?_ hform
    cases b with
    | none =>
      cases b' with
      | none => exact hspans
      | some b' => cases hb
    | some b =>
      cases b' with
      | none => cases hb
      | some b' => exact v.see_merge hspans (see_span_of_seenBlock (Option.some.inj hb))

theorem carries_afterTarget {allowDo allowDo' : Bool} (hfits : l.Fits allowDo allowDo' g)
    {name name' : Token} (hname : name.seen v = name'.seen v) :
    Carries v l (·.kind = .eq) .firm (afterTarget expr allowDo name) (Expr.seen v) l g
      (afterTarget expr' allowDo' name') := by
  unfold afterTarget
  refine (Carries.bump fun _ h => by rw [h]; decide).bind fun _ _ _ =>
    Carries.skipNewlines.bind fun _ _ _ => ?_
  rw [Token.text_eq hname]
  refine (Carries.declare _).bind fun _ _ _ => Carries.freshId.bind fun i i' hi =>
    (h hfits).bind fun value value' hvalue => ?_
  obtain rfl : i = i' := hi
  have hspan := Token.see_span hname
  exact carries_node (v.see_merge hspan (Expr.see_span hvalue))
    (by simp only [Form.map, Form.seen, Ident.seen, hspan, hvalue])

theorem carries_named {allowDo allowDo' : Bool} (hfits : l.Fits allowDo allowDo' g) :
    Carries v l (·.kind = .ident) .firm (named expr allowDo) (Expr.seen v) l g (named expr' allowDo') := by
  refine (Carries.bump fun _ h => by rw [h]; decide).bind fun name name' hname =>
    .kindEnds (fun k => ?_) hfits.snug fun k hk => by fin_cases hk <;> rfl
  split
  · next hk => exact ((carries_afterTarget h hfits hname).pre fun c hc => hc.2.trans hk).loosen
  · exact carries_afterName h hfits hname

theorem carries_branchRest {fuel fuel' : Nat} (hfuel : fuel ≤ fuel') (construct : Fault.Construct)
    {opener opener' : Span} (hopener : v.see opener = v.see opener') :
    Carries v l P .firm (branchRest expr fuel construct opener) (Expr.seen v) l g
      (branchRest expr' fuel' construct opener') := by
  induction fuel generalizing fuel' P construct opener opener' with
  | zero => exact .outOfFuel
  | succ fuel ih =>
    obtain ⟨fuel', rfl⟩ : ∃ n, fuel' = n + 1 := ⟨fuel' - 1, by omega⟩
    simp only [branchRest]
    refine ((h Sides.Level.fits_firm).pre fun _ _ => trivial).bind fun cond cond' hcond => ?_
    refine (Carries.expectTerminator _).bind fun _ _ _ => ?_
    refine (carries_body h _).bind fun thenBody thenBody' hthen => .kindFirm fun k => ?_
    have hend {g : Grip} (r r' : Option (List Expr) × Span)
        (hr : r.1.map (List.map (Expr.seen v)) = r'.1.map (List.map (Expr.seen v)))
        (hspan : v.see r.2 = v.see r'.2) : Carries v l Anywhere g
          (freshId >>= fun id => pure (Expr.node id (opener.merge r.2) (.branch cond thenBody r.1)))
          (Expr.seen v) l g
          (freshId >>= fun id =>
            pure (Expr.node id (opener'.merge r'.2) (.branch cond' thenBody' r'.1))) :=
      carries_node (v.see_merge hopener hspan) (by simp only [Form.map, Form.seen, hcond, hthen, hr])
    split
    · refine (Carries.bump fun c hc => by rw [hc.2]; decide).bind fun keyword keyword' hkeyword =>
        (ih (by omega) _ (Token.see_span hkeyword)).bind fun nested nested' hnested => ?_
      exact hend (some [nested], nested.span) (some [nested'], nested'.span) (by simp [hnested])
        (Expr.see_span hnested)
    · refine (Carries.bump fun c hc => by rw [hc.2]; decide).bind fun _ _ _ =>
        (carries_body h _).bind fun stmts stmts' hstmts =>
          (Carries.expectEnd _ _ _ (g := g)).bind fun close close' hclose => ?_
      exact hend (some stmts, close.span) (some stmts', close'.span) (congrArg some hstmts)
        (Token.see_span hclose)
    · exact (Carries.expectEnd _ _ _).bind fun close close' hclose =>
        hend (none, close.span) (none, close'.span) rfl (Token.see_span hclose)

theorem carries_branchExpr :
    Carries v l (·.kind = .ifKw) .firm (branchExpr expr) (Expr.seen v) l g (branchExpr expr') :=
  (Carries.bump fun _ h => by rw [h]; decide).bind fun _ _ hkeyword => .itemFuel fun _ _ hfuel =>
    carries_branchRest h hfuel _ (Token.see_span hkeyword)

theorem carries_loopExpr :
    Carries v l (·.kind = .whileKw) .firm (loopExpr expr) (Expr.seen v) l g (loopExpr expr') := by
  refine (Carries.bump fun _ h => by rw [h]; decide).bind fun keyword keyword' hkeyword =>
    (h (Sides.Level.fits_firm : l.Fits false false .firm)).bind fun cond cond' hcond => ?_
  have hbody : Carries v l Anywhere .firm (do
      let stmts ← body expr [.endKw]
      let close ← expectEnd .whileExpr keyword.span
      return Expr.node (← freshId) (keyword.span.merge close.span) (.loop cond stmts)) (Expr.seen v) l g (do
      let stmts ← body expr' [.endKw]
      let close ← expectEnd .whileExpr keyword'.span
      return Expr.node (← freshId) (keyword'.span.merge close.span) (.loop cond' stmts)) :=
    (carries_body h _).bind fun stmts stmts' hstmts => (Carries.expectEnd _ _ _).bind
      fun close close' hclose => carries_node
        (v.see_merge (Token.see_span hkeyword) (Token.see_span hclose))
        (by simp only [Form.map, Form.seen, hcond, hstmts])
  -- the condition may not take the `do`, so it is a token like any other
  refine (Carries.eat (by decide) Grip.not_safe).bind fun some some' hsome => ?_
  obtain rfl : some = some' := hsome
  show Carries _ _ _ _ (ite _ _ _) _ _ _ (ite _ _ _)
  split
  · exact Carries.skipTerminators.bind fun _ _ _ => hbody
  · exact (Carries.expectTerminator _).bind fun _ _ _ => hbody

theorem carries_defExpr :
    Carries v l (·.kind = .defKw) .firm (defExpr expr) (Expr.seen v) l g (defExpr expr') := by
  refine (Carries.bump fun _ h => by rw [h]; decide).bind fun keyword keyword' hkeyword =>
    carries_ident.bind fun name name' hname => carries_defParams.bind fun params params' hparams => ?_
  have hbody : Carries v l Anywhere .firm
      (params.forM (fun p => declare p.name) >>= fun _ => withNewlines (body expr [.endKw]))
      (List.map (Expr.seen v)) l .firm
      (params'.forM (fun p => declare p.name) >>= fun _ => withNewlines (body expr' [.endKw])) :=
    (Carries.forM_declare hparams).bind fun _ _ _ => (carries_body h _).withNewlines
  exact (hbody.inScope true).bind fun stmts stmts' hstmts => (Carries.expectEnd _ _ _).bind
    fun close close' hclose => carries_node
      (v.see_merge (Token.see_span hkeyword) (Token.see_span hclose))
      (by simp only [Form.map, Form.seen, Definition.map, hname, hparams, hstmts])

theorem carries_parenExpr :
    Carries v l P .firm (parenExpr expr) (Expr.seen v) l g (parenExpr expr') :=
  Carries.openParen.bind fun _ _ hopener => (h (Sides.Level.fits_firm : l.inner.Fits true true .firm)).bind
    fun _ _ hinner => Carries.closeParen.bind fun _ _ hclose =>
      .give (Expr.seen_withSpan hinner (v.see_merge (Token.see_span hopener) (Token.see_span hclose)))

theorem carries_primary : Carries v l P .firm (primary expr) (Expr.seen v) l g (primary expr') := by
  have hliteral {t t' : Token} (h : t.seen v = t'.seen v) : t.literal? = t'.literal? := by
    unfold Token.literal?
    rw [Token.kind_eq h, Token.text_eq h]
  have hnode (value : Literal) {t t' : Token} (ht : t.seen v = t'.seen v) :
      Carries v l (startsArgument ·.kind = true) .firm
        (bump >>= fun _ => freshId >>= fun id => pure (Expr.node id t.span (.literal value))) (Expr.seen v) l g
        (bump >>= fun _ => freshId >>= fun id => pure (Expr.node id t'.span (.literal value))) :=
    (Carries.bump fun _ hc => ⟨ne_of_startsArgument hc rfl, ne_of_startsArgument hc rfl⟩).bind fun _ _ _ =>
      carries_node (Token.see_span ht) rfl
  have hgrip {c d : Cursor} {e : Expr} (hrun : primary expr c = .ok e d) (hd : g.Holds s d) :
      Grip.firm.Holds s c := by
    rw [primary_run] at hrun
    split at hrun
    · next value hvalue => exact (hnode value rfl).grip (Token.startsArgument_of_literal? hvalue) hrun hd
    · cases hrun
    · split at hrun
      · exact (carries_parenExpr h (l := l) (P := Anywhere)).grip trivial hrun hd
      · cases hrun
  refine ⟨fun c _ _ _ hrun hd => hgrip hrun hd, fun c c' e d _ hcc' hrun hd => ?_,
    fun c c' f d hblank _ hcc' hrun => ?_⟩
  · have hcurrent := hcc'.current (hgrip hrun hd)
    rw [primary_run] at hrun
    rw [primary_run, ← hliteral hcurrent, ← Token.kind_eq hcurrent]
    split at hrun
    · next value hvalue =>
      exact (hnode value hcurrent).ok (Token.startsArgument_of_literal? hvalue) hcc' hrun hd
    · cases hrun
    · split at hrun
      · next hparen =>
        simp only [hparen, if_true]
        exact (carries_parenExpr h (P := Anywhere)).ok trivial hcc' hrun hd
      · cases hrun
  · have hcurrent := hcc'.current (Cursor.holds_of_blank hblank)
    rw [primary_run] at hrun
    rw [primary_run, ← hliteral hcurrent, ← Token.kind_eq hcurrent]
    split at hrun
    · next value hvalue =>
      exact (hnode value hcurrent).fault hblank (Token.startsArgument_of_literal? hvalue) hcc' hrun
    · cases hrun
      exact ⟨_, c', rfl, rfl, rfl⟩
    · split at hrun
      · next hparen =>
        simp only [hparen, if_true]
        exact (carries_parenExpr h (P := Anywhere) (g := g)).fault hblank trivial hcc' hrun
      · next hparen =>
        cases hrun
        simp only [hparen, if_false]
        exact ⟨_, c', rfl, Fault.alike_unexpectedToken hcurrent _⟩

theorem carries_exprLayer {allowDo allowDo' : Bool} (hfits : l.Fits allowDo allowDo' g) :
    Carries v l P .firm (exprLayer expr allowDo) (Expr.seen v) l g (exprLayer expr' allowDo') := by
  refine .of_kinds fun k => ?_
  have hlayer (m : ExprParser → Bool → Parser Expr)
      (h : Carries v l (·.kind = k) .firm (m expr allowDo) (Expr.seen v) l g (m expr' allowDo'))
      (hm : ∀ expr allowDo c, c.kind = k → exprLayer expr allowDo c = m expr allowDo c) :
      Carries v l (·.kind = k) .firm (exprLayer expr allowDo) (Expr.seen v) l g
        (exprLayer expr' allowDo') := h.congr (hm expr allowDo) (hm expr' allowDo')
  have hprimary := carries_primary h (l := l) (P := (·.kind = k)) (g := g)
  cases k with
  | defKw =>
    exact hlayer (fun expr _ => defExpr expr) (carries_defExpr h) fun _ _ _ hc => by rw [exprLayer_run, hc]
  | ifKw =>
    exact hlayer (fun expr _ => branchExpr expr) (carries_branchExpr h)
      fun _ _ _ hc => by rw [exprLayer_run, hc]
  | whileKw =>
    exact hlayer (fun expr _ => loopExpr expr) (carries_loopExpr h) fun _ _ _ hc => by rw [exprLayer_run, hc]
  | yieldKw =>
    exact hlayer (fun expr _ => yieldExpr expr) (carries_yieldExpr h hfits.snug)
      fun _ _ _ hc => by rw [exprLayer_run, hc]
  | ident =>
    exact hlayer named (carries_named h hfits) fun _ _ _ hc => by rw [exprLayer_run, hc, named_run]
  | _ => exact hlayer (fun expr _ => primary expr) hprimary fun _ _ _ hc => by rw [exprLayer_run, hc]

end

end

/-- The tokens that an expression may start with. -/
theorem kind_of_expr {fuel : Nat} {allowDo : Bool} {c d : Cursor} {e : Expr}
    (hrun : expr fuel allowDo c = .ok e d) :
    startsArgument c.kind = true ∨ c.kind ∈ [.lparen, .defKw, .ifKw, .whileKw, .yieldKw] := by
  cases fuel with
  | zero => exact nomatch hrun
  | succ fuel =>
    rw [expr, exprLayer_run] at hrun
    split at hrun
    case _ hk | _ hk | _ hk | _ hk => exact .inr (by rw [hk]; decide)
    · next hk => exact .inl (by rw [hk]; rfl)
    · rw [primary_run] at hrun
      split at hrun
      · next hvalue => exact .inl (Token.startsArgument_of_literal? hvalue)
      · cases hrun
      · split at hrun
        · next hk => exact .inr (List.mem_cons.2 (.inl hk))
        · cases hrun

/-- No list of statements ends at a token that an expression starts with. -/
theorem closes_of_expr {fuel : Nat} {allowDo : Bool} {closers : List Token.Kind}
    (hclosers : ∀ k ∈ closers, k ∈ enders) {c d : Cursor} {e : Expr}
    (hrun : expr fuel allowDo c = .ok e d) : closes closers c.kind = false := by
  have hneither : ∀ k ∈ enders, ¬ (startsArgument k = true ∨
      k ∈ [.lparen, .defKw, .ifKw, .whileKw, .yieldKw]) := by decide
  have hender (hk : c.kind ∈ enders) : False := hneither _ hk (kind_of_expr hrun)
  simp only [closes, Bool.or_eq_false_iff, beq_eq_false_iff_ne]
  refine ⟨fun hk => hender (hk ▸ by decide), ?_⟩
  exact Bool.eq_false_iff.2 fun hk => hender (hclosers _ (by simpa using hk))

/-- What an expression is read as hangs neither on where its tokens stand nor on how the text goes on behind
it. -/
theorem carries_expr {v : SpanView} {s : Sides} {fuel fuel' : Nat} (hfuel : fuel ≤ fuel') {l : s.Level}
    {allowDo allowDo' : Bool} {g : Grip} (hfits : l.Fits allowDo allowDo' g) :
    Carries v l Anywhere .firm (expr fuel allowDo) (Expr.seen v) l g (expr fuel' allowDo') := by
  induction fuel generalizing fuel' l allowDo allowDo' g with
  | zero => exact .outOfFuel
  | succ fuel ih =>
    obtain ⟨fuel', rfl⟩ : ∃ n, fuel' = n + 1 := ⟨fuel' - 1, by omega⟩
    exact carries_exprLayer (fun hfits => ih (by omega) hfits) hfits

end Parser

end FlowTyping
