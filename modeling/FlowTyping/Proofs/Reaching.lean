import FlowTyping.Proofs.Tiling

/-!
# How far spans reach

`Parser.behind_expr`: when an expression has been read, the tokens that are left are those that start behind
its span.  That they start behind it is how spans are laid; that no other ones do is because the span of an
expression reaches over the last token read (`Parser.attains_expr`).  `Parser.Attains` is the rule that the
productions are taken through; it relates where the last token read ends before, and where it ends
afterwards.
-/

namespace FlowTyping

/-! ### Tokens -/

/-- Where the last of some tokens ends, or `n` if there is none. -/
def Token.lastStop (n : Nat) (ts : List Token) : Nat := ts.foldl (fun _ t => t.span.stop) n

theorem Token.lastStop_append (n : Nat) (ts us : List Token) :
    lastStop n (ts ++ us) = lastStop (lastStop n ts) us := List.foldl_append

/-- The tokens that start at byte `n` or behind it. -/
def Token.behind (ts : List Token) (n : Nat) : List Token := ts.filter (n ≤ ·.span.start)

open Token (lastStop lastStop_append behind)

namespace Tiled
variable {source : List Char} {p n : Nat} {t : Token} {ts us : List Token}

theorem le_start (h : Tiled source p ts) (ht : t ∈ ts) : p ≤ t.span.start := by
  induction ts generalizing p with
  | nil => exact absurd ht List.not_mem_nil
  | cons u ts ih =>
    rcases List.mem_cons.1 ht with rfl | ht
    · exact h.1
    · exact h.1.trans (h.2.1.lt.le.trans (ih h.2.2 ht))

theorem le_lastStop (h : Tiled source p ts) : p ≤ lastStop p ts := by
  induction ts generalizing p with
  | nil => exact le_rfl
  | cons t ts ih => exact h.1.trans (h.2.1.lt.le.trans (ih h.2.2))

/-- Tokens in a row all start before the last one of them ends. -/
theorem start_lt (h : Tiled source p ts) (ht : t ∈ ts) : t.span.start < lastStop p ts := by
  induction ts generalizing p with
  | nil => exact absurd ht List.not_mem_nil
  | cons u ts ih =>
    rcases List.mem_cons.1 ht with rfl | ht
    · exact h.2.1.lt.trans_le (le_lastStop h.2.2)
    · exact ih h.2.2 ht

theorem front (h : Tiled source p (ts ++ us)) : Tiled source p ts := by
  induction ts generalizing p with
  | nil => exact h.le
  | cons t ts ih => exact ⟨h.1, h.2.1, ih h.2.2⟩

theorem back (h : Tiled source p (ts ++ us)) : Tiled source (lastStop p ts) us := by
  induction ts generalizing p with
  | nil => exact h
  | cons t ts ih => exact ih h.2.2

/-- What is behind the last of the tokens in front are the other ones. -/
theorem behind_eq (h : Tiled source p (ts ++ us)) (hts : lastStop p ts ≤ n) (hus : ∀ t ∈ us, n ≤ t.span.start) :
    behind (ts ++ us) n = us := by
  have hfront : ts.filter (n ≤ ·.span.start) = [] := List.filter_eq_nil_iff.2 fun t ht => by
    simpa using (h.front.start_lt ht).trans_le hts
  have hback : us.filter (n ≤ ·.span.start) = us := List.filter_eq_self.2 fun t ht => by simpa using hus t ht
  rw [behind, List.filter_append, hfront, hback, List.nil_append]

end Tiled

/-! ### Rules -/

namespace Parser

/-- From a cursor with `P`, behind a token that ends at byte `n`, a parser that gives a value stops behind a
token that ends at a byte `q` so that `R a q`. -/
def Attains (P : Cursor → Prop) (n : Nat) (m : Parser α) (R : α → Nat → Prop) : Prop :=
  ∀ ⦃c a d⦄, P c → m c = .ok a d → ∃ read, c.rest = read ++ d.rest ∧ R a (lastStop n read)

/-- Wherever the last token ends. -/
abbrev Wherever : α → Nat → Prop := fun _ _ => True

/-- The last token is within the span. -/
abbrev Within (span : α → Span) : α → Nat → Prop := fun a q => q ≤ (span a).stop

namespace Attains
variable {P Q : Cursor → Prop} {n : Nat} {m : Parser α} {f : α → Parser β} {R R' : α → Nat → Prop}
  {S : β → Nat → Prop} {a : α}

theorem pre (h : Attains Q n m R) (hP : ∀ c, P c → Q c) : Attains P n m R := fun _ _ _ hc => h (hP _ hc)

theorem anywhere (h : Attains Anywhere n m R) : Attains P n m R := h.pre fun _ _ => trivial

theorem mono (h : Attains P n m R) (hR : ∀ a q, R a q → R' a q) : Attains P n m R' :=
  fun _ _ _ hc hrun => (h hc hrun).imp fun _ hread => ⟨hread.1, hR _ _ hread.2⟩

theorem bind (h : Attains P n m R) (hf : ∀ a q, R a q → Attains Anywhere q (f a) S) :
    Attains P n (m >>= f) S := by
  intro c b e hc hrun
  obtain ⟨a, d, hm, hrun⟩ := bind_eq_ok_iff.1 hrun
  obtain ⟨read, hread, hR⟩ := h hc hm
  obtain ⟨read', hread', hS⟩ := hf a _ hR trivial hrun
  exact ⟨read ++ read', by rw [hread, hread', List.append_assoc], by rwa [lastStop_append]⟩

theorem give (h : R a n) : Attains P n (pure a) R := by
  intro c b d _ hrun
  cases hrun
  exact ⟨[], rfl, h⟩

theorem throw (e : Setback) : Attains P n (throw e : Parser α) R := fun _ _ _ _ hrun => nomatch hrun

theorem unexpected (wanted : Fault.Wanted) : Attains P n (unexpected wanted : Parser α) R :=
  fun _ _ _ _ hrun => nomatch hrun

theorem kind {f : Token.Kind → Parser α} (hf : ∀ k, Attains (fun c => P c ∧ c.kind = k) n (f k) R) :
    Attains P n (kind >>= f) R := fun c _ _ hc hrun => hf c.kind ⟨hc, rfl⟩ hrun

theorem itemFuel {f : Nat → Parser α} (hf : ∀ fuel, Attains P n (f fuel) R) :
    Attains P n (itemFuel >>= f) R := fun _ _ _ hc hrun => hf _ hc hrun

/-- A step over no token. -/
theorem still (h : ∀ ⦃c a d⦄, m c = .ok a d → d.rest = c.rest) : Attains P n m fun _ q => q = n := by
  intro c a d _ hrun
  exact ⟨[], (h hrun).symm, rfl⟩

theorem freshId : Attains P n freshId fun _ q => q = n := still fun _ _ _ hrun => by cases hrun; rfl

theorem isLocal (name : String) : Attains P n (isLocal name) fun _ q => q = n :=
  still fun _ _ _ hrun => by cases hrun; rfl

theorem declare (name : String) : Attains P n (declare name) fun _ q => q = n :=
  still fun _ _ _ hrun => by cases hrun; rfl

theorem forM_declare (params : List Ident) :
    Attains P n (params.forM fun p => Parser.declare p.name) fun _ q => q = n := by
  induction params generalizing P with
  | nil => exact give rfl
  | cons p params ih =>
    refine (declare p.name).bind fun _ q hq => ?_
    obtain rfl := hq
    exact ih

theorem withNewlines (h : Attains Anywhere n m R) : Attains P n (withNewlines m) R := by
  intro c a d _ hrun
  rw [withNewlines_run] at hrun
  split at hrun <;> cases hrun
  next d hm => exact h (c := { c with parens := 0 }) (d := d) trivial hm

theorem inScope (closed : Bool) (h : Attains Anywhere n m R) : Attains P n (inScope closed m) R := by
  intro c a d _ hrun
  rw [inScope_run] at hrun
  split at hrun <;> cases hrun
  next d hm => exact h (c := { c with locals := ⟨closed, []⟩ :: c.locals }) (d := d) trivial hm

/-! ### Steps over tokens -/

theorem current {c : Cursor} (hc : c.kind ≠ .eof) :
    ∃ read, c.rest = read ++ c.next.rest ∧ lastStop n read = c.current.span.stop := by
  obtain ⟨hidden, hrest, -⟩ := Cursor.rest_eq_current hc
  exact ⟨hidden ++ [c.current], by rw [hrest, List.append_assoc]; rfl, lastStop_append ..⟩

theorem bump (hP : ∀ c, P c → c.kind ≠ .eof) : Attains P n bump (Within Token.span) := by
  intro c t d hc hrun
  cases hrun
  obtain ⟨read, hread, hlast⟩ := current (n := n) (hP c hc)
  exact ⟨read, hread, hlast.le⟩

/-- A token of a kind that is wanted, whatever becomes of the parentheses. -/
theorem take {k : Token.Kind} (hk : k ≠ .eof) (shift : Nat → Nat) {m : Parser Token} {err : Cursor → Setback}
    (hm : ∀ c, m c = if c.kind = k then .ok c.current { c.next with parens := shift c.parens }
      else .error (err c) c) : Attains P n m (Within Token.span) := by
  intro c t d _ hrun
  rw [hm] at hrun
  split at hrun
  · next hc =>
    cases hrun
    obtain ⟨read, hread, hlast⟩ := current (n := n) (hc ▸ hk)
    exact ⟨read, hread, hlast.le⟩
  · cases hrun

theorem expect {k : Token.Kind} (hk : k ≠ .eof) : Attains P n (expect k) (Within Token.span) :=
  take hk (fun n => n) fun _ => rfl

theorem expectEnd (construct : Fault.Construct) (opener : Span) :
    Attains P n (expectEnd construct opener) (Within Token.span) :=
  take (k := .endKw) (by decide) (fun n => n) fun _ => rfl

theorem openParen : Attains P n openParen (Within Token.span) :=
  take (k := .lparen) (by decide) (· + 1) openParen_run

theorem closeParen : Attains P n closeParen (Within Token.span) :=
  take (k := .rparen) (by decide) (· - 1) closeParen_run

theorem eat {k : Token.Kind} (hk : k ≠ .eof) : Attains P n (eat k) fun eaten q => eaten = false → q = n := by
  intro c b d _ hrun
  unfold Parser.eat at hrun
  split at hrun
  · next hc =>
    cases hrun
    obtain ⟨read, hread, -⟩ := current (n := n) (hc ▸ hk)
    exact ⟨read, hread, nofun⟩
  · cases hrun
    exact ⟨[], rfl, fun _ => rfl⟩

theorem skipTerminators : Attains P n skipTerminators Wherever := by
  intro c _ d _ hrun
  cases hrun
  exact ⟨_, List.takeWhile_append_dropWhile.symm, trivial⟩

theorem skipNewlines : Attains P n skipNewlines Wherever := by
  intro c _ d _ hrun
  cases hrun
  exact ⟨_, List.takeWhile_append_dropWhile.symm, trivial⟩

theorem expectTerminator (part : Fault.Part) : Attains P n (expectTerminator part) Wherever := by
  refine kind fun k => ?_
  split
  · exact skipTerminators
  · exact unexpected _

/-- Items end where the last one does. -/
theorem commaList (h : ∀ n, Attains Anywhere n m R) {gap : Parser Unit}
    (hgap : ∀ n, Attains Anywhere n gap Wherever) (fuel : Nat) :
    Attains P n (commaList m gap fuel) fun as q => ∃ a ∈ as.getLast?, R a q := by
  induction fuel generalizing P n with
  | zero => exact throw _
  | succ fuel ih =>
    refine (h n).anywhere.bind fun first q hfirst => (eat (by decide)).bind fun more r hmore => ?_
    cases more with
    | false =>
      obtain rfl := hmore rfl
      exact give ⟨first, rfl, hfirst⟩
    | true =>
      refine (hgap r).bind fun _ s _ => ih.bind fun rest u ⟨last, hlast, hR⟩ => give ⟨last, ?_, hR⟩
      rw [List.getLast?_cons, Option.mem_def.1 hlast]
      rfl

end Attains

/-! ### Productions -/

section
variable {P : Cursor → Prop} {n : Nat}

theorem attains_ident : Attains P n ident (Within Ident.span) :=
  (Attains.expect (by decide)).bind fun _ _ ht => Attains.freshId.bind fun _ _ hq => .give (hq ▸ ht)

theorem attains_idents : Attains P n idents fun is q => ∃ i ∈ is.getLast?, q ≤ i.span.stop :=
  .itemFuel fun fuel => .commaList (fun _ => attains_ident) (fun _ => .give trivial) fuel

theorem attains_blockParams : Attains P n blockParams Wherever := by
  have hbehind {m : Parser (List Ident)} {R : List Ident → Nat → Prop} {q : Nat} (hm : Attains Anywhere q m R) :
      Attains Anywhere q (m >>= fun params => expect .bar >>= fun _ => pure params) Wherever :=
    hm.bind fun _ _ _ => (Attains.expect (by decide)).bind fun _ _ _ => .give trivial
  refine (Attains.eat (by decide)).bind fun some q _ => ?_
  cases some with
  | false => exact .give trivial
  | true =>
    refine .kind fun k => ?_
    show Attains _ _ (ite _ _ _) _
    split
    · exact (hbehind (.give (R := Wherever) trivial)).anywhere
    · exact (hbehind attains_idents).anywhere

theorem attains_defParams : Attains P n defParams Wherever := by
  refine .kind fun k => ?_
  split
  · refine Attains.openParen.bind fun _ q _ => .kind fun k => ?_
    have hbehind {m : Parser (List Ident)} {R : List Ident → Nat → Prop} (hm : Attains Anywhere q m R) :
        Attains Anywhere q
          (m >>= fun params => closeParen >>= fun _ => skipTerminators >>= fun _ => pure params) Wherever :=
      hm.bind fun _ _ _ => Attains.closeParen.bind fun _ _ _ => Attains.skipTerminators.bind
        fun _ _ _ => .give trivial
    show Attains _ _ (ite _ _ _) _
    split
    · exact (hbehind (.give (R := Wherever) trivial)).anywhere
    · exact (hbehind attains_idents).anywhere
  · refine .kind fun k => ?_
    split
    · exact attains_idents.bind fun _ _ _ => (Attains.expectTerminator _).bind fun _ _ _ => .give trivial
    · exact (Attains.expectTerminator _).bind fun _ _ _ => .give trivial

/-- At the end of a production the node gets its identity. -/
theorem attains_node {span : Span} {form : Form Expr} (h : n ≤ span.stop) :
    Attains P n (freshId >>= fun id => pure (Expr.node id span form)) (Within Expr.span) :=
  Attains.freshId.bind fun _ _ hq => .give (hq ▸ h)

/-- The span of a node whose last part is the one with the given span. -/
theorem le_stop_merge {a b : Span} (h : n ≤ b.stop) : n ≤ (a.merge b).stop :=
  h.trans (Span.merge_covers_right a b).2

section
variable {expr : ExprParser} (h : ∀ allowDo n, Attains Anywhere n (expr allowDo) (Within Expr.span))
include h

theorem attains_statements {closers : List Token.Kind} {fuel : Nat} {c d : Cursor} {stmts : List Expr}
    (hrun : statements expr closers fuel c = (stmts, .ok () d)) : d.rest <:+ c.rest := by
  have hskip (c : Cursor) : c.skipTerminators.rest <:+ c.rest := List.dropWhile_suffix _
  replace hrun := statements_eq_ok_iff.1 hrun
  induction hrun with
  | nil => exact hskip _
  | cons _ hstmt _ _ ih =>
    obtain ⟨read, hread, -⟩ := h true 0 trivial hstmt
    exact ih.trans (List.IsSuffix.trans ⟨read, hread.symm⟩ (hskip _))

theorem attains_body (closers : List Token.Kind) : Attains P n (body expr closers) Wherever := by
  intro c stmts d _ hrun
  unfold body at hrun
  split at hrun <;> cases hrun
  next hstmts =>
    obtain ⟨read, hread⟩ := attains_statements h hstmts
    exact ⟨read, hread.symm, trivial⟩

theorem attains_parenArgs : Attains P n (parenArgs expr) (Within Prod.snd) := by
  refine Attains.openParen.bind fun _ q _ => .kind fun k => ?_
  have hbehind {m : Parser (List Expr)} {R : List Expr → Nat → Prop} (hm : Attains Anywhere q m R) :
      Attains Anywhere q (m >>= fun args => closeParen >>= fun close => pure (args, close.span))
        (Within Prod.snd) :=
    hm.bind fun _ _ _ => Attains.closeParen.bind fun _ _ hclose => .give hclose
  show Attains _ _ (ite _ _ _) _
  split
  · exact (hbehind (.give (R := Wherever) trivial)).anywhere
  · have hargs : Attains Anywhere q (itemFuel >>= commaList (expr true) (pure ())) _ :=
      .itemFuel fun fuel => .commaList (h true) (fun _ => .give trivial) fuel
    exact (hbehind hargs).anywhere

theorem attains_commandArgs :
    Attains P n (commandArgs expr) fun args q => ∃ last ∈ args.getLast?, q ≤ last.span.stop :=
  .itemFuel fun fuel => .commaList (h false) (fun _ => .skipNewlines) fuel

theorem attains_args {span : Span} (hn : n ≤ span.stop) : Attains P n (args expr span) (Within Prod.snd) := by
  refine .kind fun k => ?_
  split
  · exact (attains_parenArgs h).bind fun _ _ hclose => .give (le_stop_merge hclose)
  · refine .kind fun k => ?_
    split
    · refine (attains_commandArgs h).bind fun args q ⟨last, hlast, hq⟩ => .give ?_
      show q ≤ ((args.getLast?.map fun last => span.merge last.span).getD span).stop
      rw [Option.mem_def.1 hlast]
      exact le_stop_merge hq
    · exact .give hn

theorem attains_blockContents (closer : Token.Kind) : Attains P n (blockContents expr closer) Wherever :=
  .inScope false <| .withNewlines <| attains_blockParams.bind fun params _ _ =>
    (Attains.forM_declare params).bind fun _ _ _ => (attains_body h _).bind fun _ _ _ => .give trivial

theorem attains_bracketed {first closer : Token.Kind} (hfirst : first ≠ .eof) {last : Token → Parser Token}
    (hlast : ∀ t n, Attains Anywhere n (last t) (Within Token.span)) :
    Attains (·.kind = first) n (bracketed expr closer last) (Within Block.span) :=
  (Attains.bump fun _ h => by rwa [h]).bind fun opener _ _ => (attains_blockContents h _).bind
    fun _ _ _ => (hlast opener _).bind fun _ _ hclose => Attains.freshId.bind
      fun _ _ hq => .give (hq ▸ le_stop_merge hclose)

theorem attains_doBlock : Attains (·.kind = .doKw) n (doBlock expr) (Within Block.span) := by
  rw [doBlock_eq]
  exact attains_bracketed h (by decide) fun _ _ => .expectEnd _ _

theorem attains_braceBlock : Attains (·.kind = .lbrace) n (braceBlock expr) (Within Block.span) := by
  rw [braceBlock_eq]
  exact attains_bracketed h (by decide) fun _ _ => .expect (by decide)

/-- Behind a call without its block, whose span is given. -/
theorem attains_block? (allowDo : Bool) {span : Span} (hn : n ≤ span.stop) :
    Attains P n (block? expr allowDo) (Within fun b => (b.map fun b => span.merge b.span).getD span) := by
  refine .kind fun k => ?_
  split
  · next hk =>
    exact ((attains_braceBlock h).pre fun c hc => hc.2.trans hk).bind fun _ _ hb => .give (le_stop_merge hb)
  · refine .kind fun k => ?_
    split
    · next hk =>
      rw [Bool.and_eq_true, beq_iff_eq] at hk
      exact ((attains_doBlock h).pre fun c hc => hc.2.trans hk.2).bind
        fun _ _ hb => .give (le_stop_merge hb)
    · exact .give hn

theorem attains_yieldExpr : Attains (·.kind = .yieldKw) n (yieldExpr expr) (Within Expr.span) :=
  (Attains.bump fun _ h => by rw [h]; decide).bind fun _ _ hkeyword =>
    (attains_args h hkeyword).bind fun _ _ hargs => attains_node hargs

theorem attains_nameExpr (allowDo : Bool) :
    Attains (·.kind = .ident) n (nameExpr expr allowDo) (Within Expr.span) := by
  refine (Attains.bump fun _ h => by rw [h]; decide).bind fun name q hname =>
    (Attains.isLocal _).bind fun known r hr => ?_
  rw [← hr] at hname
  have hcall {P : Cursor → Prop} : Attains P r (args expr name.span >>= fun r => do
      let block ← block? expr allowDo
      let span := (block.map fun b => r.2.merge b.span).getD r.2
      return Expr.node (← freshId) span (.call name.text name.span r.1 block)) (Within Expr.span) :=
    (attains_args h hname).bind fun _ _ hargs => (attains_block? h allowDo hargs).bind
      fun _ _ hblock => attains_node hblock
  cases known with
  | false => exact .kind fun _ => hcall
  | true =>
    refine .kind fun k => ?_
    split
    · exact attains_node hname
    · exact hcall

theorem attains_assignment (allowDo : Bool) :
    Attains (fun c => c.kind = .ident ∧ c.next.kind = .eq) n (assignment expr allowDo) (Within Expr.span) := by
  intro c e d hc hrun
  obtain ⟨name, c₁, hname, hrun⟩ := bind_eq_ok_iff.1 hrun
  cases hname
  have hbehind : Attains (·.kind = .eq) c.current.span.stop (afterTarget expr allowDo c.current)
      (Within Expr.span) :=
    (Attains.bump fun _ h => by rw [h]; decide).bind fun _ _ _ => Attains.skipNewlines.bind fun _ _ _ =>
      (Attains.declare _).bind fun _ _ _ => Attains.freshId.bind fun _ _ _ =>
        (h allowDo _).bind fun _ _ hvalue => attains_node (le_stop_merge hvalue)
  obtain ⟨read, hread, hlast⟩ := Attains.current (n := n) (c := c) (by rw [hc.1]; decide)
  obtain ⟨read', hread', hwithin⟩ := hbehind hc.2 hrun
  exact ⟨read ++ read', by rw [hread, hread', List.append_assoc], by rwa [lastStop_append, hlast]⟩

theorem attains_branchRest (fuel : Nat) (construct : Fault.Construct) (opener : Span) :
    Attains P n (branchRest expr fuel construct opener) (Within Expr.span) := by
  induction fuel generalizing P n construct opener with
  | zero => exact .throw _
  | succ fuel ih =>
    refine (h true n).anywhere.bind fun cond _ _ => (Attains.expectTerminator _).bind fun _ _ _ =>
      (attains_body h _).bind fun thenBody _ _ => .kind fun k => ?_
    split
    · exact (Attains.bump fun c hc => by rw [hc.2]; decide).bind fun _ _ _ => (ih _ _).bind
        fun _ _ hnested => attains_node (le_stop_merge hnested)
    · exact (Attains.bump fun c hc => by rw [hc.2]; decide).bind fun _ _ _ => (attains_body h _).bind
        fun _ _ _ => (Attains.expectEnd _ _).bind fun _ _ hclose => attains_node (le_stop_merge hclose)
    · exact (Attains.expectEnd _ _).bind fun _ _ hclose => attains_node (le_stop_merge hclose)

theorem attains_branchExpr : Attains (·.kind = .ifKw) n (branchExpr expr) (Within Expr.span) :=
  (Attains.bump fun _ h => by rw [h]; decide).bind fun _ _ _ => .itemFuel fun fuel => attains_branchRest h fuel _ _

theorem attains_loopExpr : Attains (·.kind = .whileKw) n (loopExpr expr) (Within Expr.span) := by
  refine (Attains.bump fun _ h => by rw [h]; decide).bind fun keyword _ _ => (h false _).bind fun cond _ _ => ?_
  have hbody (q : Nat) : Attains Anywhere q (do
      let stmts ← body expr [.endKw]
      let close ← expectEnd .whileExpr keyword.span
      return Expr.node (← freshId) (keyword.span.merge close.span) (.loop cond stmts)) (Within Expr.span) :=
    (attains_body h _).bind fun _ _ _ => (Attains.expectEnd _ _).bind
      fun _ _ hclose => attains_node (le_stop_merge hclose)
  refine (Attains.eat (by decide)).bind fun some _ _ => ?_
  show Attains _ _ (ite _ _ _) _
  split
  · exact Attains.skipTerminators.bind fun _ r _ => hbody r
  · exact (Attains.expectTerminator _).bind fun _ r _ => hbody r

theorem attains_defExpr : Attains (·.kind = .defKw) n (defExpr expr) (Within Expr.span) := by
  refine (Attains.bump fun _ h => by rw [h]; decide).bind fun _ _ _ => attains_ident.bind fun _ _ _ =>
    attains_defParams.bind fun params q _ => ?_
  have hbody : Attains Anywhere q
      (params.forM (fun p => declare p.name) >>= fun _ => withNewlines (body expr [.endKw])) Wherever :=
    (Attains.forM_declare params).bind fun _ _ _ => (attains_body h _).withNewlines
  exact (hbody.inScope true).bind fun _ _ _ => (Attains.expectEnd _ _).bind
    fun _ _ hclose => attains_node (le_stop_merge hclose)

theorem attains_parenExpr : Attains P n (parenExpr expr) (Within Expr.span) :=
  Attains.openParen.bind fun _ _ _ => (h true _).bind fun _ _ _ => Attains.closeParen.bind
    fun _ _ hclose => .give (le_stop_merge hclose)

theorem attains_primary : Attains P n (primary expr) (Within Expr.span) := by
  intro c e d hP hrun
  rw [primary_run] at hrun
  split at hrun
  · next v hliteral =>
    have hkind : c.kind ≠ .eof := ne_of_startsArgument (Token.startsArgument_of_literal? hliteral) rfl
    obtain ⟨read, hread, hlast⟩ := Attains.current (n := n) hkind
    cases hrun
    exact ⟨read, hread, hlast.le⟩
  · cases hrun
  · split at hrun
    · exact attains_parenExpr h hP hrun
    · cases hrun

theorem attains_exprLayer (allowDo : Bool) : Attains P n (exprLayer expr allowDo) (Within Expr.span) := by
  intro c e d hP hrun
  rw [exprLayer_run] at hrun
  split at hrun
  · next hkind => exact attains_defExpr h hkind hrun
  · next hkind => exact attains_branchExpr h hkind hrun
  · next hkind => exact attains_loopExpr h hkind hrun
  · next hkind => exact attains_yieldExpr h hkind hrun
  · next hkind =>
    split at hrun
    · next hnext => exact attains_assignment h allowDo ⟨hkind, hnext⟩ hrun
    · exact attains_nameExpr h allowDo hkind hrun
  · exact attains_primary h hP hrun

end

/-- The span of an expression reaches over the last token that is read of it. -/
theorem attains_expr (fuel : Nat) (allowDo : Bool) (n : Nat) :
    Attains Anywhere n (expr fuel allowDo) (Within Expr.span) := by
  induction fuel generalizing allowDo n with
  | zero => exact .throw _
  | succ fuel ih => exact attains_exprLayer ih allowDo

end

/-! ### What is left -/

section
variable {source : List Char} {ts : List Token} (hts : Tiled source 0 ts) {c d : Cursor} (hc : c.rest <:+ ts)
include hts hc

theorem behind_of {m : Parser α} (stop : α → Nat) {a : α} (hrun : m c = .ok a d)
    (hattains : ∀ n, Attains Anywhere n m fun a q => q ≤ stop a)
    (hlays : Lays source Anywhere m fun _ a q => stop a ≤ q) : behind ts (stop a) = d.rest := by
  obtain ⟨front, rfl⟩ := hc
  obtain ⟨read, hread, hlast⟩ := hattains (lastStop 0 front) trivial hrun
  obtain ⟨q, hq, hstop⟩ := hlays trivial hts.back hrun
  rw [hread, ← List.append_assoc] at hts ⊢
  refine hts.behind_eq ?_ fun t ht => hstop.trans (hq.le_start ht)
  rwa [lastStop_append]

/-- The tokens behind an expression are those that are left when it has been read. -/
theorem behind_expr {fuel : Nat} {allowDo : Bool} {e : Expr} (hrun : expr fuel allowDo c = .ok e d) :
    behind ts e.span.stop = d.rest :=
  behind_of hts hc (fun e => e.span.stop) hrun (attains_expr fuel allowDo)
    ((lays_expr fuel allowDo).mono fun _ _ _ hsits => hsits.1.2.2)

theorem behind_ident {i : Ident} (hrun : ident c = .ok i d) : behind ts i.span.stop = d.rest :=
  behind_of hts hc (fun i => i.span.stop) hrun (fun _ => attains_ident)
    (lays_ident.mono fun _ _ _ hrow => hrow.2.2)

/-- The tokens behind the last of some names. -/
theorem behind_idents {is : List Ident} (hrun : idents c = .ok is d) :
    ∃ i ∈ is.getLast?, behind ts i.span.stop = d.rest := by
  obtain ⟨-, -, i, hi, -⟩ := attains_idents (P := Anywhere) (n := 0) trivial hrun
  refine ⟨i, hi, ?_⟩
  have hlast := behind_of hts hc (fun is => (is.getLast?.map fun i => i.span.stop).getD 0) hrun
    (fun _ => attains_idents.mono fun is q ⟨i, hi, hq⟩ => by rw [Option.mem_def.1 hi]; exact hq)
    (lays_idents.mono fun p is q hrow => ?_)
  · rwa [Option.mem_def.1 hi] at hlast
  · cases hi : is.getLast? with
    | none => exact Nat.zero_le _
    | some i =>
      have hmem : i.span ∈ is.map Ident.span := List.mem_map_of_mem (List.mem_of_getLast? hi)
      exact (hrow.within hmem).2

end

end Parser

end FlowTyping
