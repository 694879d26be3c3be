import FlowTyping.Proofs.Retracing

/-!
# Parsing stays in range

`Program.parse_in_range`: parsing by index never gives up.  Each production retraces that of the parser, an
expression because it takes a token before it starts on its parts, and a list of statements because each
statement takes a token; the parser ends (`Program.parse_ends`), so the machine ends as it does.
-/

namespace FlowTyping

namespace ByIndex

/-! ### Productions -/

section
variable {source : String} {Q : Cursor → Prop} {i : Nat}

theorem retraces_ident : Retraces source (At Q) 0 i i 1 Eq Parser.ident ident :=
  (Retraces.expect (by decide)).marking fun _ ht => .name ht <| Retraces.freshId.andThen fun _ =>
    .give rfl (Nat.le_refl i)

theorem retraces_idents : Retraces source (At Q) 0 i i 1 Eq Parser.idents idents :=
  .itemFuel fun _ _ => .commaList (fun _ => retraces_ident) (fun i => .give rfl (Nat.le_refl i)) _ _

theorem retraces_blockParams : Retraces source (At Q) 0 i i 0 Eq Parser.blockParams blockParams := by
  refine (Retraces.eat (by decide)).andThen fun some => ?_
  have hclose (params : List Ident) : Retraces source (At Parser.Anywhere) 0 i i 0 Eq
      (Parser.expect .bar >>= fun _ => pure params) (expect .bar >>= fun _ => pure params) :=
    (Retraces.expect (by decide)).marking fun _ _ => .give rfl (Nat.le_succ i)
  split
  · refine .kind fun κ => ?_
    show Retraces _ _ _ _ _ _ _ (ite _ _ _) (ite _ _ _)
    split
    · exact (Retraces.give rfl (Nat.le_refl i)).andThen hclose
    · exact retraces_idents.andThen hclose
  · exact .give rfl (Nat.le_refl i)

theorem retraces_defParams : Retraces source (At Q) 0 i i 0 Eq Parser.defParams defParams := by
  refine .kind fun κ => ?_
  split
  · refine .openParen fun _ => .kind fun κ => ?_
    have hclose (params : List Ident) : Retraces source (At Parser.Anywhere) 1 (i + 1) i 0 Eq
        (Parser.closeParen >>= fun _ => Parser.skipTerminators >>= fun _ => pure params)
        (closeParen >>= fun _ => skipTerminators >>= fun _ => pure params) :=
      .closeParen fun _ => Retraces.skipTerminators.content.andThen fun _ => .give rfl (by omega)
    show Retraces _ _ _ _ _ _ _ (ite _ _ _) (ite _ _ _)
    split
    · exact (Retraces.give rfl (Nat.le_refl (i + 1))).andThen hclose
    · exact retraces_idents.andThen hclose
  · refine .kind fun κ => ?_
    split
    · exact retraces_idents.andThen fun _ => (Retraces.expectTerminator _).andThen fun _ =>
        .give rfl (Nat.le_refl i)
    · exact (Retraces.expectTerminator _).andThen fun _ => .give rfl (Nat.le_refl i)

/-- The identity of a node has been paid for by a token of it. -/
theorem retraces_node {span : Span} {form : Form Expr} {j : Nat} (hj : j ≤ i) :
    Retraces source (At Q) 0 (i + 1) j 0 Eq (Parser.freshId >>= fun id => pure (Expr.node id span form))
      (freshId >>= fun id => pure (Expr.node id span form)) :=
  Retraces.freshId.andThen fun _ => .give rfl hj

section
variable {expr : Parser.ExprParser} {expr' : ExprReader}
  (h : ∀ allowDo i, Retraces source (At Parser.Anywhere) 0 i i 1 Eq (expr allowDo) (expr' allowDo))
include h

/-- The machine ends as the parser does, and has read the same statements before. -/
theorem retraces_statements (closers : List Token.Kind) (fuel : Nat) {fuel' : Nat} {c : Cursor} {s : State}
    (hs : s.Within source i) (hc : c.Alike Cursor.content (s.cursor source))
    (hfuel : (s.cursor source).rest.length < fuel') :
    Follows source 0 i i 0 Eq s (Parser.statements expr closers fuel c).2
        (statements expr' closers fuel' s).2 ∧
      ((∀ d, (Parser.statements expr closers fuel c).2 ≠ .error .outOfFuel d) →
        (statements expr' closers fuel' s).1 = (Parser.statements expr closers fuel c).1) := by
  induction fuel generalizing c s fuel' with
  | zero => exact ⟨.outOfFuel _ _, fun hrun => absurd rfl (hrun c)⟩
  | succ fuel ih =>
    obtain ⟨fuel', rfl⟩ : ∃ n, fuel' = n + 1 := ⟨fuel' - 1, by omega⟩
    obtain ⟨_, t, hskip, -, ht, hwithin, hmoves⟩ :=
      Follows.exists_ok (d := c.skipTerminators) (Retraces.skipTerminators hs (Nat.zero_le _) hc)
    have hkind : (skipTerminators >>= fun _ => kind) s = .ok c.skipTerminators.kind t := by
      rw [bind_of_ok hskip, kind_run hwithin, ht.kind]
    simp only [Parser.statements, statements, hkind]
    cases hcloses : Parser.closes closers c.skipTerminators.kind with
    | true => exact ⟨.ok rfl ht hwithin hmoves, fun _ => rfl⟩
    | false =>
      have hstmt := h true i hwithin (Nat.zero_le _) ⟨ht, trivial⟩
      simp only [Bool.false_eq_true, if_false]
      cases hrun : expr true c.skipTerminators with
      | error e d =>
        rw [hrun] at hstmt
        cases e with
        | outOfFuel => exact ⟨.outOfFuel _ _, fun hrun => absurd rfl (hrun d)⟩
        | fault f =>
          obtain ⟨u, hrun'⟩ := hstmt.exists_fault
          rw [hrun']
          exact ⟨.fault _ _ _, fun _ => rfl⟩
      | ok stmt d =>
        rw [hrun] at hstmt
        obtain ⟨_, u, hrun', rfl, hu, hwithin', hmoves'⟩ := hstmt.exists_ok
        simp only [hrun', kind_run hwithin', hu.kind]
        split
        · have hlt := length_rest_lt hwithin' (hmoves.trans hmoves') hfuel
          obtain ⟨hfollows, hstmts⟩ := ih hwithin' hu.content hlt
          have hbehind : Follows source 0 i i 1 Eq s _ _ := hfollows.behind (hmoves.trans hmoves')
          refine ⟨hbehind.mono (Nat.le_refl i) (Nat.zero_le 1), fun hrun => ?_⟩
          rw [hstmts hrun]
        · rw [unexpected_run hwithin', hu.current]
          exact ⟨.fault _ _ _, fun _ => rfl⟩

theorem retraces_body (closers : List Token.Kind) : Retraces source (Cursor.Alike Cursor.content) 0 i i 0 Eq
    (Parser.body expr closers) (body expr' closers) := by
  intro c s hs _ hc
  have hfuel : (s.cursor source).rest.length < s.marks.size := by
    rw [hs.marks, size_marks]
    exact Nat.lt_succ_of_le (List.drop_sublist s.pos (tokens source)).length_le
  obtain ⟨hfollows, hstmts⟩ := retraces_statements h closers (c.rest.length + 1) hs hc hfuel
  unfold Parser.body body
  generalize Parser.statements expr closers (c.rest.length + 1) c = r at hfollows hstmts
  generalize statements expr' closers s.marks.size s = r' at hfollows hstmts
  obtain ⟨stmts, r⟩ := r
  obtain ⟨stmts', r'⟩ := r'
  cases hfollows with
  | ok hvalue hd ht hmoves =>
    obtain rfl : stmts' = stmts := hstmts fun _ => nofun
    exact .ok rfl hd ht hmoves
  | fault => exact .fault _ _ _
  | outOfFuel => exact .outOfFuel _ _

theorem retraces_parenArgs : Retraces source (At Q) 0 i i 1 Eq (Parser.parenArgs expr) (parenArgs expr') := by
  refine .openParen fun _ => .kind fun κ => ?_
  have hclose (args : List Expr) : Retraces source (At Parser.Anywhere) 1 (i + 1) i 0 Eq
      (Parser.closeParen >>= fun close => pure (args, close.span))
      (closeParen >>= fun close => pure (args, close.span)) :=
    .closeParen fun _ => .give rfl (by omega)
  show Retraces _ _ _ _ _ _ _ (ite _ _ _) (ite _ _ _)
  split
  · exact (Retraces.give rfl (Nat.le_refl (i + 1))).andThen hclose
  · refine .itemFuel fun fuel fuel' => ?_
    exact (Retraces.commaList (h true) (fun i => .give rfl (Nat.le_refl i)) fuel fuel').andThen hclose

theorem retraces_commandArgs :
    Retraces source (At Q) 0 i i 1 Eq (Parser.commandArgs expr) (commandArgs expr') :=
  .itemFuel fun _ _ => .commaList (h false) (fun _ => Retraces.skipNewlines.content) _ _

theorem retraces_args (span : Span) :
    Retraces source (At Q) 0 i i 0 Eq (Parser.args expr span) (args expr' span) := by
  refine .kind fun κ => ?_
  split
  · exact (retraces_parenArgs h).andThen fun _ => .give rfl (Nat.le_refl i)
  · refine .kind fun κ => ?_
    split
    · exact (retraces_commandArgs h).andThen fun _ => .give rfl (Nat.le_refl i)
    · exact .give rfl (Nat.le_refl i)

theorem retraces_blockContents (closer : Token.Kind) : Retraces source Eq 0 i i 0 Eq
    (Parser.blockContents expr closer) (blockContents expr' closer) := by
  have hcontents : Retraces source (At Parser.Anywhere) 0 i i 0 Eq
      (Parser.blockParams >>= fun params => params.forM (fun p => Parser.declare p.name) >>= fun _ =>
        Parser.body expr [closer] >>= fun stmts => pure (params, stmts))
      (blockParams >>= fun params => params.forM (fun p => declare p.name) >>= fun _ =>
        body expr' [closer] >>= fun stmts => pure (params, stmts)) :=
    retraces_blockParams.andThen fun params => (Retraces.forM_declare params).andThen fun _ =>
      (retraces_body h _).content.andThen fun _ => .give rfl (Nat.le_refl i)
  have hlines : Retraces source Eq 0 i i 0 Eq (Parser.withNewlines _) (withNewlines _) :=
    hcontents.withNewlines (congrArg Cursor.parens) fun hc => hc ▸ ⟨.refl _ _, trivial⟩
  exact hlines.inScope false fun hc => hc ▸ rfl

theorem retraces_doBlock :
    Retraces source (At (·.kind = .doKw)) 0 i i 0 Eq (Parser.doBlock expr) (doBlock expr') := by
  refine .bumpThen (P := Eq) (fun _ h => by rw [h]; decide) (fun _ _ => rfl) fun _ _ => ?_
  refine (retraces_blockContents h _).andThen fun ⟨_, _⟩ => (Retraces.expectEnd _ _).marking fun _ _ => ?_
  exact Retraces.freshId.andThen fun _ => .give rfl (Nat.le_succ i)

theorem retraces_braceBlock :
    Retraces source (At (·.kind = .lbrace)) 0 i i 0 Eq (Parser.braceBlock expr) (braceBlock expr') := by
  refine .bumpThen (P := Eq) (fun _ h => by rw [h]; decide) (fun _ _ => rfl) fun _ _ => ?_
  refine (retraces_blockContents h _).andThen fun ⟨_, _⟩ => ?_
  refine (Retraces.expect (by decide)).marking fun _ _ => ?_
  exact Retraces.freshId.andThen fun _ => .give rfl (Nat.le_succ i)

theorem retraces_block? (allowDo : Bool) :
    Retraces source (At Q) 0 i i 0 Eq (Parser.block? expr allowDo) (block? expr' allowDo) := by
  refine .kind fun κ => ?_
  split
  · next hκ =>
    exact ((retraces_braceBlock h).pre fun _ _ hc => ⟨hc.1, hc.2.2.trans hκ⟩).andThen fun _ =>
      .give rfl (Nat.le_refl i)
  · refine .kind fun κ => ?_
    split
    · next hκ =>
      have hκ : κ = .doKw := by
        rw [Bool.and_eq_true, beq_iff_eq] at hκ
        exact hκ.2
      exact ((retraces_doBlock h).pre fun _ _ hc => ⟨hc.1, hc.2.2.trans hκ⟩).andThen fun _ =>
        .give rfl (Nat.le_refl i)
    · exact .give rfl (Nat.le_refl i)

/-! ### Expressions -/

theorem retraces_assignment (allowDo : Bool) :
    Retraces source (At fun v => v.kind = .ident ∧ v.next.kind = .eq) 0 i i 1 Eq
      (Parser.assignment expr allowDo) (assignment expr' allowDo) := by
  refine .bumpThen (P := At (·.kind = .eq)) (fun _ h => by rw [h.1]; decide) (fun _ h => ⟨.refl _ _, h.2⟩)
    fun name hname => .name hname ?_
  refine (Retraces.bump fun _ h => by rw [h]; decide).marking fun _ _ => ?_
  refine Retraces.skipNewlines.content.andThen fun _ => (Retraces.declare name.text).andThen fun _ => ?_
  refine Retraces.freshId.andThen fun _ => (h allowDo _).andThen fun _ => ?_
  exact retraces_node (Nat.le_refl i)

theorem retraces_nameExpr (allowDo : Bool) :
    Retraces source (At (·.kind = .ident)) 0 i i 1 Eq (Parser.nameExpr expr allowDo)
      (nameExpr expr' allowDo) := by
  refine (Retraces.bump fun _ h => by rw [h]; decide).marking fun name hname => .name hname ?_
  refine (Retraces.isLocal name.text).andThen fun known => ?_
  have hcall : Retraces source (At Parser.Anywhere) 0 (i + 1) i 0 Eq
      (Parser.args expr name.span >>= fun r => do
        let block ← Parser.block? expr allowDo
        let span := (block.map fun b => r.2.merge b.span).getD r.2
        return Expr.node (← Parser.freshId) span (.call name.text name.span r.1 block))
      (args expr' name.span >>= fun r => do
        let block ← block? expr' allowDo
        let span := (block.map fun b => r.2.merge b.span).getD r.2
        return Expr.node (← freshId) span (.call name.text name.span r.1 block)) :=
    (retraces_args h name.span).andThen fun _ => (retraces_block? h allowDo).andThen fun _ =>
      retraces_node (Nat.le_refl i)
  cases known with
  | false => exact .kind fun _ => hcall.anywhere
  | true =>
    refine .kind fun κ => ?_
    split
    · exact retraces_node (Nat.le_refl i)
    · exact hcall.anywhere

theorem retraces_yieldExpr :
    Retraces source (At (·.kind = .yieldKw)) 0 i i 1 Eq (Parser.yieldExpr expr) (yieldExpr expr') :=
  (Retraces.bump fun _ h => by rw [h]; decide).marking fun _ _ => (retraces_args h _).andThen fun ⟨_, _⟩ =>
    retraces_node (Nat.le_refl i)

theorem retraces_branchRest (fuel fuel' : Nat) (construct : Fault.Construct) (opener : Span) :
    Retraces source (At fun v => v.rest.length < fuel') 0 (i + 1) i 0 Eq
      (Parser.branchRest expr fuel construct opener) (branchRest expr' fuel' construct opener) := by
  induction fuel generalizing fuel' construct opener i with
  | zero => exact fun _ _ _ _ _ => .outOfFuel _ _
  | succ fuel ih =>
    cases fuel' with
    | zero => exact fun _ _ _ _ hc => absurd hc.2 (Nat.not_lt_zero _)
    | succ fuel' =>
      refine (h true _).anywhere.fewer fun cond => (Retraces.expectTerminator _).fewer fun _ => ?_
      refine (retraces_body h _).content.fewer fun thenBody => .kind fun κ => ?_
      have hend (j : Nat) (hj : i ≤ j) (r : Option (List Expr) × Span) :
          Retraces source (At Parser.Anywhere) 0 (j + 1) i 0 Eq
            (Parser.freshId >>= fun id => pure (Expr.node id (opener.merge r.2) (.branch cond thenBody r.1)))
            (freshId >>= fun id => pure (Expr.node id (opener.merge r.2) (.branch cond thenBody r.1))) :=
        retraces_node hj
      cases κ
      case elsifKw =>
        refine (Retraces.bump fun c hc => by rw [hc.2]; decide).bindAt (Q := fun v => v.rest.length < fuel')
          (fun hc ht hmoves => length_rest_lt ht hmoves (Nat.lt_succ_of_lt hc.2.1)) fun keyword _ hmark => ?_
        rw [hmark.1]
        exact (ih fuel' _ _).andThen fun nested => hend i (Nat.le_refl i) (some [nested], nested.span)
      case elseKw =>
        refine (Retraces.bump fun c hc => by rw [hc.2]; decide).marking fun _ _ => ?_
        refine (retraces_body h _).content.andThen fun stmts => ?_
        exact (Retraces.expectEnd _ _).marking fun close _ => hend (i + 2) (by omega) (some stmts, close.span)
      all_goals
        exact (Retraces.expectEnd _ _).marking fun close _ => hend (i + 1) (by omega) (none, close.span)

theorem retraces_branchExpr :
    Retraces source (At (·.kind = .ifKw)) 0 i i 1 Eq (Parser.branchExpr expr) (branchExpr expr') :=
  (Retraces.bump fun _ h => by rw [h]; decide).marking fun _ _ => .itemFuel fun fuel fuel' =>
    retraces_branchRest h fuel fuel' _ _

theorem retraces_loopExpr :
    Retraces source (At (·.kind = .whileKw)) 0 i i 1 Eq (Parser.loopExpr expr) (loopExpr expr') := by
  refine (Retraces.bump fun _ h => by rw [h]; decide).marking fun keyword _ => ?_
  refine (h false _).andThen fun cond => ?_
  have hbody : Retraces source (At Parser.Anywhere) 0 (i + 1) i 0 Eq (do
      let stmts ← Parser.body expr [.endKw]
      let close ← Parser.expectEnd .whileExpr keyword.span
      return Expr.node (← Parser.freshId) (keyword.span.merge close.span) (.loop cond stmts)) (do
      let stmts ← body expr' [.endKw]
      let close ← expectEnd .whileExpr keyword.span
      return Expr.node (← freshId) (keyword.span.merge close.span) (.loop cond stmts)) :=
    (retraces_body h _).content.andThen fun _ => (Retraces.expectEnd _ _).marking fun _ _ =>
      retraces_node (Nat.le_succ i)
  refine (Retraces.eat (by decide)).andThen fun some => ?_
  show Retraces _ _ _ _ _ _ _ (ite _ _ _) (ite _ _ _)
  split
  · exact Retraces.skipTerminators.content.andThen fun _ => hbody
  · exact (Retraces.expectTerminator _).andThen fun _ => hbody

theorem retraces_defExpr :
    Retraces source (At (·.kind = .defKw)) 0 i i 1 Eq (Parser.defExpr expr) (defExpr expr') := by
  refine (Retraces.bump fun _ h => by rw [h]; decide).marking fun keyword _ => ?_
  refine retraces_ident.andThen fun name => retraces_defParams.andThen fun params => ?_
  -- behind the parameters the parser may have dropped line feeds that the machine still stands before
  have hbody : Retraces source (At Parser.Anywhere) 0 (i + 1) (i + 1) 0 Eq
      (params.forM (fun p => Parser.declare p.name) >>= fun _ =>
        Parser.withNewlines (Parser.body expr [.endKw]))
      (params.forM (fun p => declare p.name) >>= fun _ => withNewlines (body expr' [.endKw])) :=
    (Retraces.forM_declare params).andThen fun _ => (retraces_body h _).withNewlines (fun hc => hc.1.parens)
      fun hc => ⟨hc.1.content.seen, hc.1.stop, rfl, hc.1.nextId, hc.1.locals⟩
  refine (hbody.inScope true fun hc => ⟨?_, trivial⟩).andThen fun stmts => ?_
  · obtain ⟨seen, stop, parens, nextId, locals⟩ := hc.1
    exact ⟨seen, stop, parens, nextId, congrArg (LocalScope.mk true [] :: ·) locals⟩
  · exact (Retraces.expectEnd _ _).marking fun _ _ => retraces_node (Nat.le_succ i)

theorem retraces_parenExpr : Retraces source (At Q) 0 i i 1 Eq (Parser.parenExpr expr) (parenExpr expr') :=
  .openParen fun _ => (h true _).andThen fun _ => .closeParen fun _ => .give rfl (by omega)

omit h in
theorem primary_run {s : State} (hs : s.Within source i) : primary expr' s =
    match (s.cursor source).current.literal? with
    | some (.ok v) => (do
      let _ ← bump
      return Expr.node (← freshId) (s.cursor source).current.span (.literal v) : Reader Expr) s
    | some (.error cause) => .error (.setback (.fault ⟨cause, (s.cursor source).current.span⟩)) s
    | none =>
      if (s.cursor source).current.kind = Token.Kind.lparen then parenExpr expr' s
      else unexpected .expression s := by
  rw [primary, bind_of_ok (nth_zero_run hs), bind_of_ok (literal?_run hs)]
  cases (s.cursor source).current.literal? with
  | none =>
    by_cases h : (s.cursor source).current.kind = .lparen
    · exact (congrFun (if_pos h) s).trans (if_pos h).symm
    · exact (congrFun (if_neg h) s).trans (if_neg h).symm
  | some r => cases r <;> rfl

theorem retraces_primary : Retraces source (At Q) 0 i i 1 Eq (Parser.primary expr) (primary expr') := by
  intro c s hs ho hc
  rw [Parser.primary_run, primary_run hs, hc.1.current]
  rcases hliteral : (s.cursor source).current.literal? with _ | cause | v
  · dsimp only
    split
    · exact retraces_parenExpr h hs ho hc
    · rw [unexpected_run hs]
      exact .fault _ _ _
  · exact .fault _ _ _
  · have hkind := Token.startsArgument_of_literal? hliteral
    have hnode : Retraces source (At fun v => v.kind = (s.cursor source).kind) 0 i i 1 Eq
        (Parser.bump >>= fun _ => Parser.freshId >>= fun id =>
          pure (Expr.node id (s.cursor source).current.span (.literal v)))
        (bump >>= fun _ => freshId >>= fun id =>
          pure (Expr.node id (s.cursor source).current.span (.literal v))) :=
      (Retraces.bump fun _ h => by rw [h]; exact Parser.ne_of_startsArgument hkind rfl).marking fun _ _ =>
        retraces_node (Nat.le_refl i)
    exact hnode hs ho ⟨hc.1, rfl⟩

omit h in
theorem exprLayer_run {s : State} (hs : s.Within source i) (allowDo : Bool) : exprLayer expr' allowDo s =
    match (s.cursor source).kind with
    | .defKw => defExpr expr' s
    | .ifKw => branchExpr expr' s
    | .whileKw => loopExpr expr' s
    | .yieldKw => yieldExpr expr' s
    | .ident =>
      if (s.cursor source).next.kind = Token.Kind.eq then assignment expr' allowDo s
      else nameExpr expr' allowDo s
    | _ => primary expr' s := by
  rw [exprLayer, bind_of_ok (kind_run hs)]
  cases (s.cursor source).kind <;> dsimp only
  refine (bind_of_ok (nth_one_run hs)).trans ?_
  by_cases h : (s.cursor source).next.kind = .eq
  · exact (congrFun (if_pos h) s).trans (if_pos h).symm
  · exact (congrFun (if_neg h) s).trans (if_neg h).symm

theorem retraces_exprLayer (allowDo : Bool) :
    Retraces source (At Q) 0 i i 1 Eq (Parser.exprLayer expr allowDo) (exprLayer expr' allowDo) := by
  intro c s hs ho hc
  rw [Parser.exprLayer_run, exprLayer_run hs, hc.1.kind, hc.1.next]
  cases hkind : (s.cursor source).kind
  case defKw => exact retraces_defExpr h hs ho ⟨hc.1, hkind⟩
  case ifKw => exact retraces_branchExpr h hs ho ⟨hc.1, hkind⟩
  case whileKw => exact retraces_loopExpr h hs ho ⟨hc.1, hkind⟩
  case yieldKw => exact retraces_yieldExpr h hs ho ⟨hc.1, hkind⟩
  case ident =>
    by_cases hnext : (s.cursor source).next.kind = .eq
    · simp only [hnext, if_true]
      exact retraces_assignment h allowDo hs ho ⟨hc.1, hkind, hnext⟩
    · simp only [hnext, if_false]
      exact retraces_nameExpr h allowDo hs ho ⟨hc.1, hkind⟩
  all_goals exact retraces_primary h hs ho hc

end

theorem retraces_expr (fuel : Nat) (allowDo : Bool) (i : Nat) :
    Retraces source (At Parser.Anywhere) 0 i i 1 Eq (Parser.expr fuel allowDo) (expr fuel allowDo) := by
  induction fuel generalizing allowDo i with
  | zero => exact fun _ _ _ _ _ => .outOfFuel _ _
  | succ fuel ih => exact retraces_exprLayer ih allowDo

end

/-! ### Whole texts -/

/-- How the machine may end that reads an expression from `s`: at least one token further, with as many
parentheses and scopes open as before, or with a fault. -/
def EndsExpr (s : State) : EStateM.Result Halt State Expr → Prop
  | .ok _ t => s.pos < t.pos ∧ t.parens = s.parens ∧ t.locals.length = s.locals.length
  | .error (.setback (.fault _)) _ => True
  | .error _ _ => False

/-- How the machine may end that reads a text: before the end of the text, with the program that the parser
finds, and then all tokens are valid, or with the fault that the parser finds and the statements before it. -/
def EndsText (source : String) : List Expr × EStateM.Result Halt State Unit → Prop
  | (stmts, .ok () s) => (Program.parse source).program? = some ⟨stmts⟩ ∧ s.pos + 1 = s.marks.size ∧
    ∀ t ∈ Token.scan source, t.kind ≠ .invalid
  | (stmts, .error (.setback (.fault f)) _) =>
    (Program.parse source).program = ⟨stmts⟩ ∧ (Program.parse source).faults = [f]
  | (_, .error _ _) => False

/-- Each token takes a byte. -/
theorem length_scanFrom_le (pos : Nat) (cs : List Char) : (Token.scanFrom pos cs).length ≤ byteLength cs := by
  fun_induction Token.scanFrom pos cs with
  | case1 => exact Nat.zero_le _
  | case2 pos cs c rest hcs start lexeme ih =>
    have hsplit := takeBlank_append_dropBlank cs
    rw [hcs, ← Lexeme.from_append c rest, Lexeme.text_eq_cons c rest] at hsplit
    have hlength := congrArg byteLength hsplit
    have := c.utf8Size_pos
    simp only [byteLength_append, byteLength_cons, List.cons_append] at hlength
    have hrest : byteLength lexeme.rest = byteLength (Lexeme.from c rest).rest := rfl
    rw [List.length_cons]
    omega

variable {source : String}

theorem length_tokens_le (source : String) : (tokens source).length ≤ byteLength source.toList :=
  (List.length_filter_le _ _).trans (length_scanFrom_le 0 source.toList)

theorem within_start (hsource : byteLength source.toList < 0x100000000) :
    (State.start source).Within source 0 := by
  have hle := length_tokens_le source
  refine ⟨rfl, rfl, Nat.zero_le _, ?_, ?_⟩ <;> simp [State.start] <;> omega

theorem endsExpr_expr {fuel : Nat} (allowDo : Bool) {s : State} (hs : s.Within source 0)
    (hfuel : (s.cursor source).rest.length < fuel) : EndsExpr s (expr fuel allowDo s) := by
  have hrun := retraces_expr fuel allowDo 0 hs (Nat.zero_le _) ⟨.refl _ (s.cursor source), trivial⟩
  have hparser := Parser.proceeds_expr fuel allowDo trivial hfuel
  generalize Parser.expr fuel allowDo (s.cursor source) = r at hrun hparser
  generalize expr fuel allowDo s = r' at hrun
  cases hrun with
  | ok hvalue hd ht hmoves => exact ⟨hmoves.pos, hmoves.parens, hmoves.scopes⟩
  | fault => exact trivial
  | outOfFuel => exact absurd rfl hparser

theorem endsText_run (hsource : byteLength source.toList < 0x100000000) : EndsText source (run source) := by
  have hrun := retraces_statements (fun b i => retraces_expr ((tokens source).length + 1) b i) []
    ((tokens source).length + 1) (within_start hsource) (.refl _ (Cursor.ofText source))
    (Nat.lt_succ_self (tokens source).length)
  have hreading : Program.reading source = Parser.statements (Parser.expr ((tokens source).length + 1)) []
      ((tokens source).length + 1) (.ofText source) := rfl
  have hmachine : run source = statements (expr ((tokens source).length + 1)) []
      ((tokens source).length + 1) (.start source) := by
    simp only [run, size_marks]
  have hends := Program.endsAhead_reading source
  have hparse := Program.parse_eq source
  rw [← hreading, ← hmachine] at hrun
  rcases hresult : Program.reading source with ⟨stmts, r⟩
  generalize run source = machine at hrun
  obtain ⟨stmts', r'⟩ := machine
  rw [hresult] at hrun hends hparse
  obtain ⟨hfollows, hstmts⟩ := hrun
  obtain rfl : stmts' = stmts := hstmts fun d (h : r = _) => by
    subst h
    exact hends rfl
  cases hfollows with
  | @ok _ _ d t _ hd ht hmoves =>
    obtain ⟨hrest, hvalid⟩ := Program.valid_of_reading hresult
    -- no parenthesis is open, so the machine sees all that is left, which is nothing
    have hcursor : d = t.cursor source := hd.eq_of_parens hmoves.parens
    have hdrop : (tokens source).drop t.pos = [] := by
      rw [hcursor] at hrest
      exact hrest
    have hpos : t.pos = (tokens source).length := Nat.le_antisymm ht.pos (List.drop_eq_nil_iff.1 hdrop)
    refine ⟨by rw [hparse]; rfl, by rw [ht.marks, size_marks, hpos], fun u hu => ?_⟩
    rcases List.mem_append.1 hu with hu | hu
    · exact hvalid u hu
    · rw [List.mem_singleton.1 hu]
      nofun
  | fault => exact ⟨by rw [hparse], by rw [hparse]; rfl⟩
  | outOfFuel => exact absurd rfl hends

end ByIndex

/-- A text that fits into 32 bits is cut into tokens that are pieces of it, and parsing it by index ends, and
with no index, slice or count out of range.  From wherever the machine may be, an expression that it reads
takes a token and leaves as many parentheses and scopes open as there were; a text without a fault is read to
its end. -/
theorem Program.parse_in_range (source : String) (hsource : byteLength source.toList < 0x100000000) :
    (Token.scan source).length ≤ byteLength source.toList + 1 ∧
    (∀ t ∈ Token.scan source, t.span.stop < 0x100000000 ∧
      t.span.slice? source.toList = some t.text.toList) ∧
    (∀ fuel allowDo s, s.Within source 0 → (s.cursor source).rest.length < fuel →
      ByIndex.EndsExpr s (ByIndex.expr fuel allowDo s)) ∧
    ByIndex.EndsText source (ByIndex.run source) := by
  refine ⟨?_, fun t ht => ?_, fun fuel allowDo s hs hfuel => ByIndex.endsExpr_expr allowDo hs hfuel,
    ByIndex.endsText_run hsource⟩
  · rw [Token.scan, List.length_append]
    exact Nat.succ_le_succ (ByIndex.length_scanFrom_le 0 source.toList)
  · have hslice := Token.slice?_of_mem_scan ht
    obtain ⟨before, after, hsplit, hstart, hstop, hle⟩ := Span.slice?_eq_some_iff.1 hslice
    have hlength := congrArg byteLength hsplit
    simp only [byteLength_append, Span.length] at hlength hstop
    exact ⟨by omega, hslice⟩

namespace ByIndex

/-- Line feeds inside parentheses, before and in the body of a method there, quoted text with escapes and
characters of several bytes, and a comment at the end. -/
def winding : String := "f(def m() \n;\n x = 'é'\n end,\n \"a\\\"ü\") do |y| y end # ß"

theorem parse_in_range_winding : byteLength winding.toList < 0x100000000 ∧
    (Token.scan winding).length ≤ byteLength winding.toList + 1 ∧
    (∀ t ∈ Token.scan winding, t.span.stop < 0x100000000 ∧
      t.span.slice? winding.toList = some t.text.toList) ∧
    (∀ fuel allowDo s, s.Within winding 0 → (s.cursor winding).rest.length < fuel →
      EndsExpr s (expr fuel allowDo s)) ∧
    EndsText winding (run winding) :=
  ⟨by decide, Program.parse_in_range winding (by decide)⟩

end ByIndex

end FlowTyping
