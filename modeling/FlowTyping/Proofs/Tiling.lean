import FlowTyping.Proofs.Nesting
import FlowTyping.Proofs.Progress
import Mathlib

/-!
# How parsing lays spans

`Program.spans_nest`: the spans of every node that parsing gives nest, also of the nodes before a
fault.  The tokens of a text stand in a row (`Tiled`), each a piece of the text.  The parser goes forward
over them, so what it reads from byte `p` on lies between `p` and the byte where it stops.
`Parser.Lays` is the rule that the productions are taken through; it relates the byte before, the value
and the byte afterwards.
-/

namespace FlowTyping

open FlowTyping.Span (Row)

/-! ### Tokens -/

/-- Tokens that are pieces of the text from byte `p` on, one behind the other. -/
def Tiled (source : List Char) : Nat → List Token → Prop
  | p, [] => p ≤ byteLength source
  | p, t :: ts => p ≤ t.span.start ∧ t.span.Marks source ∧ Tiled source t.span.stop ts

namespace Tiled
variable {source : List Char} {p q : Nat} {t : Token} {ts us : List Token}

theorem le (h : Tiled source p ts) : p ≤ byteLength source := by
  induction ts generalizing p with
  | nil => exact h
  | cons t ts ih => exact h.1.trans (h.2.1.lt.le.trans (ih h.2.2))

theorem mono (h : Tiled source q ts) (hp : p ≤ q) : Tiled source p ts := by
  cases ts with
  | nil => exact hp.trans h
  | cons t ts => exact ⟨hp.trans h.1, h.2⟩

theorem tail (h : Tiled source p (t :: ts)) : Tiled source p ts := h.2.2.mono (h.1.trans h.2.1.lt.le)

theorem drop (h : Tiled source p (ts ++ us)) : Tiled source p us := by
  induction ts with
  | nil => exact h
  | cons t ts ih => exact ih (tail h)

theorem filter (h : Tiled source p ts) (keep : Token → Bool) : Tiled source p (ts.filter keep) := by
  induction ts generalizing p with
  | nil => exact h
  | cons t ts ih =>
    rw [List.filter_cons]
    split
    · exact ⟨h.1, h.2.1, ih h.2.2⟩
    · exact ih (tail h)

end Tiled

/-- The scanner cuts pieces off what is left of the text. -/
theorem Token.tiled_scanFrom {source cs : List Char} {pos : Nat}
    (h : ∃ before, source = before ++ cs ∧ byteLength before = pos) :
    Tiled source pos (Token.scanFrom pos cs) := by
  fun_induction Token.scanFrom pos cs with
  | case1 pos cs hcs =>
    obtain ⟨before, rfl, rfl⟩ := h
    simp [Tiled]
  | case2 pos cs c rest hcs start lexeme ih =>
    obtain ⟨before, hsource, hbefore⟩ := h
    have hcut : cs = takeBlank cs ++ (lexeme.text ++ lexeme.rest) := by
      conv => lhs; rw [← takeBlank_append_dropBlank cs, hcs, ← Lexeme.from_append c rest]
    have hstart : byteLength (before ++ takeBlank cs) = start := by rw [byteLength_append, hbefore]
    have hstop : byteLength (before ++ takeBlank cs ++ lexeme.text) = start + byteLength lexeme.text := by
      rw [byteLength_append, hstart]
    have hslice : source = before ++ takeBlank cs ++ lexeme.text ++ lexeme.rest := by
      rw [hsource]
      conv => lhs; rw [hcut]
      simp only [List.append_assoc]
    refine ⟨Nat.le_add_right _ _, ⟨lexeme.text, Lexeme.from_text_ne_nil c rest, ?_⟩, ih ⟨_, hslice, hstop⟩⟩
    refine Span.slice?_eq_some_iff.2 ⟨before ++ takeBlank cs, lexeme.rest, hslice, hstart, ?_, ?_⟩
    · simp [Lexeme.toToken, Span.length]
    · simp [Lexeme.toToken]

/-! ### Expressions in place -/

/-- An expression with spans that nest, between two bytes. -/
def Expr.Sits (source : List Char) (p : Nat) (e : Expr) (q : Nat) : Prop :=
  Row source p [e.span] q ∧ e.Nested source

/-- Expressions with spans that nest, in a row between two bytes. -/
def AllSit (source : List Char) (p : Nat) (es : List Expr) (q : Nat) : Prop :=
  Row source p (es.map Expr.span) q ∧ ∀ e ∈ es, e.Nested source

section
variable {source : List Char} {p p' q q' r : Nat} {e : Expr} {es : List Expr} {opener close span : Span}
  {form : Form Expr}

theorem Expr.Sits.mono (h : e.Sits source p q) (hp : p' ≤ p) (hq : q ≤ q') : e.Sits source p' q' :=
  ⟨h.1.mono hp hq, h.2⟩

theorem AllSit.nil (h : p ≤ q) : AllSit source p [] q := ⟨h, fun _ h => absurd h List.not_mem_nil⟩

theorem AllSit.mono (h : AllSit source p es q) (hp : p' ≤ p) (hq : q ≤ q') : AllSit source p' es q' :=
  ⟨h.1.mono hp hq, h.2⟩

theorem AllSit.cons (h : e.Sits source p q) (hes : AllSit source q es r) : AllSit source p (e :: es) r :=
  ⟨h.1.append hes.1, List.forall_mem_cons.2 ⟨h.2, hes.2⟩⟩

theorem AllSit.append {es' : List Expr} (h : AllSit source p es q) (h' : AllSit source q es' r) :
    AllSit source p (es ++ es') r := by
  refine ⟨?_, fun e he => (List.mem_append.1 he).elim (h.2 e) (h'.2 e)⟩
  rw [List.map_append]
  exact h.1.append h'.1

/-- A node from its first token on, with its children in a row behind it. -/
theorem Expr.nested_of_row (hopener : opener.Marks source) (hspan : span.Marks source)
    (hstart : span.start = opener.start) (hrow : Row source opener.stop form.spans span.stop)
    (hparts : ∀ e ∈ form.parts, e.Nested source)
    (hform : ∀ name nameSpan args block, form ≠ .call name nameSpan args block) (id : NodeId) :
    (node id span form).Nested source :=
  .node ⟨hspan, hrow.frames_behind hopener hstart, fun _ _ _ _ h => (hform _ _ _ _ h).elim,
    fun _ _ _ _ h => (hform _ _ _ _ h).elim⟩ hparts

/-- A node from its first to its last token. -/
theorem Expr.nested_between (hopener : Row source p [opener] q) (hclose : Row source q [close] r)
    (hrow : Row source q form.spans close.stop) (hparts : ∀ e ∈ form.parts, e.Nested source)
    (hform : ∀ name nameSpan args block, form ≠ .call name nameSpan args block) (id : NodeId) :
    (node id (opener.merge close) form).Nested source := by
  have hspan := (hopener.merge hclose).2.1
  rw [hopener.merge_eq hclose] at hspan ⊢
  exact nested_of_row hopener.2.1 hspan rfl (hrow.mono hopener.2.2 le_rfl) hparts hform id

/-- The node of a call, from its name on. -/
theorem Expr.nested_call {name : String} {nameSpan : Span} {args : List Expr} {block : Option (Block Expr)}
    (hname : nameSpan.Marks source) (hspan : span.Marks source) (hstart : span.start = nameSpan.start)
    (hrow : Row source nameSpan.stop (Form.call name nameSpan args block).spans span.stop)
    (hargs : ∀ e ∈ args, e.Nested source)
    (hblock : ∀ b ∈ block, b.span.Frames source b.spans ∧ ∀ e ∈ b.body, e.Nested source) (id : NodeId) :
    (node id span (.call name nameSpan args block)).Nested source := by
  refine .node ⟨hspan, hrow.frames_behind hname hstart, ?_, ?_⟩ fun e he => ?_
  · rintro _ _ _ _ ⟨⟩
    exact ⟨hname, hstart.le, hrow.le⟩
  · rintro _ _ _ b ⟨⟩
    exact (hblock b rfl).1
  · cases block with
    | none => exact hargs e he
    | some b => exact (List.mem_append.1 he).elim (hargs e) ((hblock b rfl).2 e)

end

/-! ### Rules -/

namespace Parser

/-- From a cursor with `P` and from byte `p` on, a parser that gives a value stops at a byte `q` so that
`R p a q`. -/
def Lays (source : List Char) (P : Cursor → Prop) (m : Parser α) (R : Nat → α → Nat → Prop) : Prop :=
  ∀ ⦃c a d p⦄, P c → Tiled source p c.rest → m c = .ok a d → ∃ q, Tiled source q d.rest ∧ R p a q

/-- What is read gives no spans. -/
abbrev Onward : Nat → α → Nat → Prop := fun p _ q => p ≤ q

namespace Lays
variable {source : List Char} {P Q : Cursor → Prop} {m : Parser α} {f : α → Parser β}
  {R R' : Nat → α → Nat → Prop} {S : Nat → β → Nat → Prop} {a : α}

theorem pre (h : Lays source Q m R) (hP : ∀ c, P c → Q c) : Lays source P m R := fun _ _ _ _ hc => h (hP _ hc)

theorem anywhere (h : Lays source Anywhere m R) : Lays source P m R := h.pre fun _ _ => trivial

theorem mono (h : Lays source P m R) (hR : ∀ p a q, R p a q → R' p a q) : Lays source P m R' :=
  fun _ _ _ _ hc ht hrun => (h hc ht hrun).imp fun _ hq => ⟨hq.1, hR _ _ _ hq.2⟩

theorem bind (h : Lays source P m R)
    (hf : ∀ a, Lays source Anywhere (f a) fun q b r => ∀ p, R p a q → S p b r) :
    Lays source P (m >>= f) S := by
  intro c b e p hc ht hrun
  obtain ⟨a, d, hm, hrun⟩ := bind_eq_ok_iff.1 hrun
  obtain ⟨q, hq, hR⟩ := h hc ht hm
  obtain ⟨r, hr, hS⟩ := hf a trivial hq hrun
  exact ⟨r, hr, hS p hR⟩

theorem give (h : ∀ p, R p a p) : Lays source P (pure a) R := by
  intro c b d p _ ht hrun
  cases hrun
  exact ⟨p, ht, h p⟩

theorem throw (e : Setback) : Lays source P (throw e : Parser α) R := fun _ _ _ _ _ _ hrun => nomatch hrun

theorem unexpected (wanted : Fault.Wanted) : Lays source P (unexpected wanted : Parser α) R :=
  fun _ _ _ _ _ _ hrun => nomatch hrun

/-- A step that only drops tokens. -/
theorem of_rest (h : ∀ ⦃c a d⦄, m c = .ok a d → ∃ read, c.rest = read ++ d.rest) :
    Lays source P m Onward := by
  intro c a d p _ ht hrun
  obtain ⟨read, hrest⟩ := h hrun
  exact ⟨p, Tiled.drop (hrest ▸ ht), Nat.le_refl p⟩

theorem kind {f : Token.Kind → Parser α} (hf : ∀ k, Lays source (fun c => P c ∧ c.kind = k) (f k) R) :
    Lays source P (kind >>= f) R := fun c _ _ _ hc ht hrun => hf c.kind ⟨hc, rfl⟩ ht hrun

theorem itemFuel {f : Nat → Parser α} (hf : ∀ fuel, Lays source P (f fuel) R) :
    Lays source P (itemFuel >>= f) R := fun _ _ _ _ hc ht hrun => hf _ hc ht hrun

theorem current {c : Cursor} {p : Nat} (hc : c.kind ≠ .eof) (ht : Tiled source p c.rest) :
    ∃ q, Tiled source q c.next.rest ∧ Row source p [c.current.span] q := by
  obtain ⟨hidden, hrest, -⟩ := Cursor.rest_eq_current hc
  obtain ⟨hstart, hmarks, hnext⟩ := Tiled.drop (hrest ▸ ht : Tiled source p (hidden ++ _))
  exact ⟨_, hnext, hstart, hmarks, le_rfl⟩

/-- A token lies where it stands. -/
theorem bump (hP : ∀ c, P c → c.kind ≠ .eof) :
    Lays source P bump fun p t q => Row source p [t.span] q := by
  intro c t d p hc ht hrun
  cases hrun
  exact current (hP c hc) ht

/-- The current token, where it is known what stands at the next cursor. -/
theorem bumpThen {f : Token → Parser α} (hP : ∀ c, P c → c.kind ≠ .eof) (hQ : ∀ c, P c → Q c.next)
    (hf : ∀ t, Lays source Q (f t) fun q a r => ∀ p, Row source p [t.span] q → R p a r) :
    Lays source P (Parser.bump >>= f) R := by
  intro c a d p hc ht hrun
  obtain ⟨q, hq, hrow⟩ := current (hP c hc) ht
  obtain ⟨r, hr, hR⟩ := hf c.current (hQ c hc) hq hrun
  exact ⟨r, hr, hR p hrow⟩

/-- A token of a kind that is wanted, whatever becomes of the parentheses. -/
theorem take {k : Token.Kind} (hk : k ≠ .eof) (shift : Nat → Nat) {m : Parser Token} {err : Cursor → Setback}
    (hm : ∀ c, m c = if c.kind = k then .ok c.current { c.next with parens := shift c.parens }
      else .error (err c) c) : Lays source P m fun p t q => Row source p [t.span] q := by
  intro c t d p _ ht hrun
  rw [hm] at hrun
  split at hrun
  · next hc =>
    cases hrun
    exact current (hc ▸ hk) ht
  · cases hrun

theorem expect {k : Token.Kind} (hk : k ≠ .eof) :
    Lays source P (expect k) fun p t q => Row source p [t.span] q := take hk (fun n => n) fun _ => rfl

theorem expectEnd (construct : Fault.Construct) (opener : Span) :
    Lays source P (expectEnd construct opener) fun p t q => Row source p [t.span] q :=
  take (k := .endKw) (by decide) (fun n => n) fun _ => rfl

theorem openParen : Lays source P openParen fun p t q => Row source p [t.span] q :=
  take (k := .lparen) (by decide) (· + 1) openParen_run

theorem closeParen : Lays source P closeParen fun p t q => Row source p [t.span] q :=
  take (k := .rparen) (by decide) (· - 1) closeParen_run

theorem eat {k : Token.Kind} (hk : k ≠ .eof) : Lays source P (eat k) Onward := by
  intro c b d p _ ht hrun
  unfold Parser.eat at hrun
  split at hrun
  · next hc =>
    cases hrun
    obtain ⟨q, hq, hrow⟩ := current (hc ▸ hk) ht
    exact ⟨q, hq, hrow.le⟩
  · cases hrun
    exact ⟨p, ht, le_rfl⟩

theorem skipTerminators : Lays source P skipTerminators Onward :=
  of_rest fun _ _ _ hrun => by cases hrun; exact ⟨_, List.takeWhile_append_dropWhile.symm⟩

theorem skipNewlines : Lays source P skipNewlines Onward :=
  of_rest fun _ _ _ hrun => by cases hrun; exact ⟨_, List.takeWhile_append_dropWhile.symm⟩

theorem expectTerminator (part : Fault.Part) : Lays source P (expectTerminator part) Onward := by
  refine kind fun k => ?_
  split
  · exact skipTerminators
  · exact unexpected _

theorem freshId : Lays source P freshId Onward := of_rest fun _ _ _ hrun => by cases hrun; exact ⟨[], rfl⟩

theorem isLocal (name : String) : Lays source P (isLocal name) Onward :=
  of_rest fun _ _ _ hrun => by cases hrun; exact ⟨[], rfl⟩

theorem change (step : Cursor → Cursor) (h : ∀ c, (step c).rest = c.rest) :
    Lays source P (modify step) Onward := of_rest fun c _ _ hrun => by cases hrun; exact ⟨[], (h c).symm⟩

/-- Behind a step that gives no spans. -/
theorem after (h : Lays source P m Onward) (hf : ∀ a, Lays source Anywhere (f a) S)
    (hS : ∀ p q b r, p ≤ q → S q b r → S p b r) : Lays source P (m >>= f) S :=
  h.bind fun a => (hf a).mono fun q b r hb p hpq => hS p q b r hpq hb

theorem declare (name : String) : Lays source P (declare name) Onward := change _ fun _ => rfl

theorem forM_declare (params : List Ident) :
    Lays source P (params.forM fun p => Parser.declare p.name) Onward := by
  induction params generalizing P with
  | nil => exact give fun _ => le_rfl
  | cons p params ih => exact (declare p.name).after (fun _ => ih) fun _ _ _ _ hpq hqr => Nat.le_trans hpq hqr

theorem withNewlines (h : Lays source Anywhere m R) : Lays source P (withNewlines m) R := by
  intro c a e p _ ht hrun
  obtain ⟨c₀, d₀, hget, hrun⟩ := bind_eq_ok_iff.1 hrun
  cases hget
  obtain ⟨_, d₁, henter, hrun⟩ := bind_eq_ok_iff.1 hrun
  cases henter
  obtain ⟨a, d, hm, hrun⟩ := bind_eq_ok_iff.1 hrun
  cases hrun
  exact h (c := { c with parens := 0 }) (d := d) trivial ht hm

theorem inScope (closed : Bool) (h : Lays source Anywhere m R) : Lays source P (inScope closed m) R := by
  intro c a e p _ ht hrun
  obtain ⟨_, d₀, henter, hrun⟩ := bind_eq_ok_iff.1 hrun
  cases henter
  obtain ⟨a, d, hm, hrun⟩ := bind_eq_ok_iff.1 hrun
  cases hrun
  exact h (c := { c with locals := ⟨closed, []⟩ :: c.locals }) (d := d) trivial ht hm

/-- Items in a row. -/
theorem commaList {span : α → Span} {G : α → Prop}
    (h : Lays source Anywhere m fun p a q => Row source p [span a] q ∧ G a) {gap : Parser Unit}
    (hgap : Lays source Anywhere gap Onward) (fuel : Nat) :
    Lays source P (commaList m gap fuel) fun p as q => Row source p (as.map span) q ∧ ∀ a ∈ as, G a := by
  induction fuel generalizing P with
  | zero => exact .throw _
  | succ fuel ih =>
    refine h.anywhere.bind fun first => (eat (by decide)).bind fun more => ?_
    cases more with
    | false =>
      refine .give fun q r hrq p ⟨hrow, hfirst⟩ => ⟨hrow.mono le_rfl hrq, fun a ha => ?_⟩
      rw [List.mem_singleton.1 ha]
      exact hfirst
    | true =>
      refine hgap.bind fun _ => ih.bind fun rest => .give ?_
      intro r q ⟨hrest, hgood⟩ q' hqq' q'' hqq'' p ⟨hrow, hfirst⟩
      refine ⟨hrow.append (hrest.mono (hqq''.trans hqq') le_rfl), fun a ha => ?_⟩
      rcases List.mem_cons.1 ha with rfl | ha
      · exact hfirst
      · exact hgood a ha

end Lays

/-! ### Productions -/

section
variable {source : List Char} {P : Cursor → Prop}

theorem lays_ident : Lays source P ident fun p i q => Row source p [i.span] q :=
  (Lays.expect (by decide)).bind fun _ => Lays.freshId.bind fun _ => .give
    fun _ _ hqr _ hrow => hrow.mono le_rfl hqr

theorem lays_idents : Lays source P idents fun p is q => Row source p (is.map Ident.span) q := by
  have hident : Lays source Anywhere ident fun p i q => Row source p [i.span] q ∧ True :=
    lays_ident.mono fun _ _ _ hrow => ⟨hrow, trivial⟩
  exact .itemFuel fun fuel => (hident.commaList (.give fun _ => le_rfl) fuel).mono fun _ _ _ h => h.1

theorem lays_blockParams :
    Lays source P blockParams fun p is q => Row source p (is.map Ident.span) q := by
  have hbehind {m : Parser (List Ident)}
      (hm : Lays source Anywhere m fun p is q => Row source p (is.map Ident.span) q) :
      Lays source Anywhere (m >>= fun params => expect .bar >>= fun _ => pure params)
        fun q is r => ∀ p, p ≤ q → Row source p (is.map Ident.span) r :=
    hm.bind fun _ => (Lays.expect (by decide)).bind fun _ => .give
      fun _ _ hbar _ hrow _ hpq => hrow.mono hpq hbar.le
  refine (Lays.eat (by decide)).bind fun some => ?_
  cases some with
  | false => exact .give fun _ _ hpq => hpq
  | true =>
    refine .kind fun k => ?_
    show Lays _ _ (ite _ _ _) _
    split
    · exact (hbehind (.give fun _ => le_rfl)).anywhere
    · exact (hbehind lays_idents).anywhere

theorem lays_defParams :
    Lays source P defParams fun p is q => Row source p (is.map Ident.span) q := by
  refine .kind fun k => ?_
  split
  · refine Lays.openParen.bind fun _ => .kind fun k => ?_
    have hbehind {m : Parser (List Ident)}
        (hm : Lays source Anywhere m fun p is q => Row source p (is.map Ident.span) q) (o : Token) :
        Lays source Anywhere
          (m >>= fun params => closeParen >>= fun _ => skipTerminators >>= fun _ => pure params)
          fun q is r => ∀ p, Row source p [o.span] q → Row source p (is.map Ident.span) r :=
      hm.bind fun _ => Lays.closeParen.bind fun _ => Lays.skipTerminators.bind fun _ => .give
        fun _ _ hskip _ hclose _ hrow _ ho => hrow.mono ho.le (hclose.le.trans hskip)
    show Lays _ _ (ite _ _ _) _
    split
    · exact (hbehind (.give fun _ => le_rfl) _).anywhere
    · exact (hbehind lays_idents _).anywhere
  · refine .kind fun k => ?_
    split
    · exact lays_idents.bind fun _ => (Lays.expectTerminator _).bind fun _ => .give
        fun _ _ hskip _ hrow => hrow.mono le_rfl hskip
    · exact (Lays.expectTerminator _).bind fun _ => .give fun _ _ hskip => hskip

/-- At the end of a production the node gets its identity. -/
theorem lays_node {span : Span} {form : Form Expr} :
    Lays source P (freshId >>= fun id => pure (Expr.node id span form)) fun q e r =>
      ∀ p, Row source p [span] q → (∀ id, (Expr.node id span form).Nested source) → e.Sits source p r :=
  Lays.freshId.bind fun id => .give fun _ _ hqr _ hrow hnested => ⟨hrow.mono le_rfl hqr, hnested id⟩

section
variable {expr : ExprParser} (h : ∀ allowDo, Lays source Anywhere (expr allowDo) (Expr.Sits source))
include h

/-- Statements lie in a row, also those before a fault. -/
theorem lays_statements (closers : List Token.Kind) (fuel : Nat) {c : Cursor} {p : Nat}
    (ht : Tiled source p c.rest) : ∃ q ≤ byteLength source,
      AllSit source p (statements expr closers fuel c).1 q ∧
        ∀ d, (statements expr closers fuel c).2 = .ok () d → Tiled source q d.rest := by
  induction fuel generalizing c p with
  | zero =>
    refine ⟨p, ht.le, .nil le_rfl, ?_⟩
    rintro d ⟨⟩
  | succ fuel ih =>
    obtain ⟨q, hq, hpq⟩ := Lays.skipTerminators (P := Anywhere) trivial ht rfl
    simp only [statements]
    split
    · refine ⟨q, hq.le, .nil hpq, ?_⟩
      rintro d ⟨⟩
      exact hq
    · split
      · refine ⟨q, hq.le, .nil hpq, ?_⟩
        rintro d ⟨⟩
      · next stmt d hstmt =>
        obtain ⟨r, hr, hsits⟩ := h true trivial hq hstmt
        have hsits := hsits.mono hpq le_rfl
        split
        · obtain ⟨s, hs, hall, hend⟩ := ih hr
          exact ⟨s, hs, .cons hsits hall, hend⟩
        · refine ⟨r, hr.le, .cons hsits (.nil le_rfl), ?_⟩
          rintro d ⟨⟩

theorem lays_body (closers : List Token.Kind) : Lays source P (body expr closers) (AllSit source) := by
  intro c stmts d p _ ht hrun
  obtain ⟨q, -, hall, hend⟩ := lays_statements h closers (c.rest.length + 1) ht
  unfold body at hrun
  split at hrun
  · next hstmts =>
    rw [hstmts] at hall hend
    cases hrun
    exact ⟨q, hend _ rfl, hall⟩
  · cases hrun

/-! ### Arguments and blocks -/

/-- Arguments behind a name or keyword with the given span, and the span that reaches over them. -/
def ArgsSit (source : List Char) (span : Span) (p : Nat) (r : List Expr × Span) (q : Nat) : Prop :=
  Row source p [r.2] q ∧ r.2.start = span.start ∧ AllSit source span.stop r.1 r.2.stop

theorem lays_parenArgs : Lays source P (parenArgs expr) fun p r q =>
    ∃ s, AllSit source p r.1 s ∧ Row source s [r.2] q := by
  refine Lays.openParen.bind fun o => .kind fun k => ?_
  have hbehind {m : Parser (List Expr)} (hm : Lays source Anywhere m (AllSit source)) : Lays source Anywhere
      (m >>= fun args => closeParen >>= fun close => pure (args, close.span))
      fun q r s => ∀ p, Row source p [o.span] q → ∃ s', AllSit source p r.1 s' ∧ Row source s' [r.2] s :=
    hm.bind fun args => Lays.closeParen.bind fun close => .give
      fun _ _ hclose _ hargs _ ho => ⟨_, hargs.mono ho.le le_rfl, hclose⟩
  show Lays _ _ (ite _ _ _) _
  split
  · exact (hbehind (.give fun _ => .nil le_rfl)).anywhere
  · have hargs : Lays source Anywhere (itemFuel >>= commaList (expr true) (pure ())) (AllSit source) :=
      .itemFuel fun fuel => (h true).commaList (.give fun _ => le_rfl) fuel
    exact (hbehind hargs).anywhere

theorem lays_args (span : Span) : Lays source P (args expr span) fun p r q =>
    ∀ p₀, Row source p₀ [span] p → ArgsSit source span p₀ r q := by
  refine .kind fun k => ?_
  split
  · refine (lays_parenArgs h).bind fun ⟨args, close⟩ => .give fun q p ⟨s, hargs, hclose⟩ p₀ hspan => ?_
    have hbehind := hclose.mono hargs.1.le le_rfl
    show ArgsSit source span p₀ (args, span.merge close) q
    refine ⟨hspan.merge hbehind, ?_, ?_⟩ <;> rw [hspan.merge_eq hbehind]
    exact hargs.mono hspan.2.2 hclose.le_stop
  · refine .kind fun k => ?_
    split
    · have hargs : Lays source Anywhere (commandArgs expr) (AllSit source) :=
        .itemFuel fun fuel => (h false).commaList .skipNewlines fuel
      refine hargs.anywhere.bind fun args => .give fun q p ⟨hrow, hnested⟩ p₀ hspan => ?_
      rcases List.eq_nil_or_concat' args with rfl | ⟨init, last, rfl⟩
      · exact ⟨hspan.mono le_rfl hrow, rfl, .nil le_rfl⟩
      · -- the span reaches up to the last argument, which is where the row ends
        have hmem : last.span ∈ (init ++ [last]).map Expr.span := by simp
        have hlast : Row source p [last.span] q := hrow.sublist (List.singleton_sublist.2 hmem)
        rw [List.getLast?_concat, Option.map_some, Option.getD_some]
        refine ⟨hspan.merge hlast, ?_, ?_⟩ <;> rw [hspan.merge_eq hlast]
        refine ⟨?_, hnested⟩
        rw [List.map_append, List.map_singleton] at hrow ⊢
        exact hrow.upto_last.mono hspan.2.2 le_rfl
    · exact .give fun p p₀ hspan => ⟨hspan, rfl, .nil le_rfl⟩

theorem lays_blockContents (closer : Token.Kind) : Lays source P (blockContents expr closer) fun p r q =>
    Row source p (r.1.map Ident.span ++ r.2.map Expr.span) q ∧ ∀ e ∈ r.2, e.Nested source :=
  .inScope false <| .withNewlines <| lays_blockParams.bind fun params =>
    (Lays.forM_declare params).bind fun _ => (lays_body h _).bind fun _ => .give
      fun _ _ hbody _ hpq _ hparams => ⟨hparams.append (hbody.1.mono hpq le_rfl), hbody.2⟩

/-- A block literal with spans that nest, between two bytes. -/
def BlockSits (source : List Char) (p : Nat) (b : Block Expr) (q : Nat) : Prop :=
  Row source p [b.span] q ∧ b.span.Frames source b.spans ∧ ∀ e ∈ b.body, e.Nested source

omit h in
/-- From an opening to a closing token. -/
theorem blockSits_of_row {opener close : Span} {params : List Ident} {stmts : List Expr} {p q r s s' : Nat}
    (hopener : Row source p [opener] q)
    (hrow : Row source q (params.map Ident.span ++ stmts.map Expr.span) r)
    (hclose : Row source r [close] s) (hs : s ≤ s') (hstmts : ∀ e ∈ stmts, e.Nested source) (id : NodeId) :
    BlockSits source p ⟨id, opener.merge close, params, stmts⟩ s' := by
  have hbehind := hclose.mono hrow.le le_rfl
  refine ⟨(hopener.merge hbehind).mono le_rfl hs, ?_, hstmts⟩
  rw [hopener.merge_eq hbehind]
  exact Row.frames_behind hopener.2.1 rfl (hrow.mono hopener.2.2 hclose.le_stop)

theorem lays_bracketed {first closer : Token.Kind} (hfirst : first ≠ .eof) {last : Token → Parser Token}
    (hlast : ∀ t, Lays source Anywhere (last t) fun p t q => Row source p [t.span] q) :
    Lays source (·.kind = first) (bracketed expr closer last) (BlockSits source) :=
  (Lays.bump fun _ h => by rwa [h]).bind fun opener => (lays_blockContents h _).bind fun ⟨_, _⟩ =>
    (hlast opener).bind fun _ => Lays.freshId.bind fun id => .give
      fun _ _ hs _ hclose _ hcontents _ hopener =>
        blockSits_of_row hopener hcontents.1 hclose hs hcontents.2 id

theorem lays_doBlock : Lays source (·.kind = .doKw) (doBlock expr) (BlockSits source) := by
  rw [doBlock_eq]
  exact lays_bracketed h (by decide) fun _ => .expectEnd _ _

theorem lays_braceBlock : Lays source (·.kind = .lbrace) (braceBlock expr) (BlockSits source) := by
  rw [braceBlock_eq]
  exact lays_bracketed h (by decide) fun _ => .expect (by decide)

theorem lays_block? (allowDo : Bool) : Lays source P (block? expr allowDo) fun p block q =>
    p ≤ q ∧ ∀ b ∈ block, BlockSits source p b q := by
  have hsome {P : Cursor → Prop} {m : Parser (Block Expr)} (hm : Lays source P m (BlockSits source)) :
      Lays source P (m >>= fun b => pure (some b)) fun p block q =>
        p ≤ q ∧ ∀ b ∈ block, BlockSits source p b q :=
    hm.bind fun b => .give fun _ _ hb => ⟨hb.1.le, fun _ h => Option.some.inj h ▸ hb⟩
  refine .kind fun k => ?_
  split
  · next hk => exact hsome ((lays_braceBlock h).pre fun c hc => hc.2.trans hk)
  · refine .kind fun k => ?_
    split
    · next hk =>
      rw [Bool.and_eq_true, beq_iff_eq] at hk
      exact hsome ((lays_doBlock h).pre fun c hc => hc.2.trans hk.2)
    · exact .give fun _ => ⟨le_rfl, fun _ h => nomatch h⟩

/-! ### Expressions -/

theorem lays_yieldExpr : Lays source (·.kind = .yieldKw) (yieldExpr expr) (Expr.Sits source) := by
  refine (Lays.bump fun _ h => by rw [h]; decide).bind fun keyword => (lays_args h _).bind fun ⟨args, span⟩ =>
    lays_node.mono fun q e r hnode p hargs p₀ hkeyword => ?_
  obtain ⟨hspan, hstart, hrow, hnested⟩ := hargs p₀ hkeyword
  exact hnode p₀ hspan (Expr.nested_of_row hkeyword.2.1 hspan.2.1 hstart hrow hnested nofun)

omit h in
/-- The node of a call, from the places of its name, its arguments and its block. -/
theorem sits_call {name : Token} {args : List Expr} {span : Span} {block : Option (Block Expr)}
    {p q r s : Nat} (hname : Row source p [name.span] q) (hargs : ArgsSit source name.span p (args, span) r)
    (hblock : r ≤ s ∧ ∀ b ∈ block, BlockSits source r b s) :
    Row source p [(block.map fun b => span.merge b.span).getD span] s ∧
      ∀ id, (Expr.node id ((block.map fun b => span.merge b.span).getD span)
        (.call name.text name.span args block)).Nested source := by
  obtain ⟨hspan, hstart, hrow, hnested⟩ := hargs
  cases block with
  | none =>
    have hrow : Row source name.span.stop (args.map Expr.span ++ []) span.stop := by
      rwa [List.append_nil]
    exact ⟨hspan.mono le_rfl hblock.1, Expr.nested_call hname.2.1 hspan.2.1 hstart hrow hnested nofun⟩
  | some b =>
    obtain ⟨hb, hframes, hbody⟩ := hblock.2 b rfl
    rw [Option.map_some, Option.getD_some]
    have hmerge := hspan.merge hb
    refine ⟨hmerge, ?_⟩
    rw [hspan.merge_eq hb] at hmerge ⊢
    refine Expr.nested_call hname.2.1 hmerge.2.1 hstart ?_ hnested ?_
    · exact hrow.append ⟨hspan.2.2.trans hb.1, hb.2.1, le_rfl⟩
    · rintro _ ⟨⟩
      exact ⟨hframes, hbody⟩

theorem lays_nameExpr (allowDo : Bool) :
    Lays source (·.kind = .ident) (nameExpr expr allowDo) (Expr.Sits source) := by
  refine (Lays.bump fun _ h => by rw [h]; decide).bind fun name => (Lays.isLocal _).bind fun known => ?_
  have hcall : Lays source Anywhere (args expr name.span >>= fun r => do
      let block ← block? expr allowDo
      let span := (block.map fun b => r.2.merge b.span).getD r.2
      return Expr.node (← freshId) span (.call name.text name.span r.1 block)) fun q e r =>
        ∀ p, p ≤ q → ∀ p₀, Row source p₀ [name.span] p → e.Sits source p₀ r := by
    refine (lays_args h name.span).bind fun ⟨args, span⟩ => (lays_block? h allowDo).bind fun block =>
      lays_node.mono fun r e s hnode q hblock p hargs p' hp p₀ hname => ?_
    have hname := hname.mono le_rfl hp
    obtain ⟨hrow, hnested⟩ := sits_call hname (hargs p₀ hname) hblock
    exact hnode p₀ hrow hnested
  cases known with
  | false => exact .kind fun _ => hcall.anywhere
  | true =>
    refine .kind fun k => ?_
    split
    · refine lays_node.mono fun q e r hnode p hp p₀ hname => hnode p₀ (hname.mono le_rfl hp) ?_
      exact Expr.nested_of_row hname.2.1 hname.2.1 rfl (Nat.le_refl _)
        (fun _ h => absurd h List.not_mem_nil) nofun
    · exact hcall.anywhere

theorem lays_assignment (allowDo : Bool) :
    Lays source (fun c => c.kind = .ident ∧ c.next.kind = .eq) (assignment expr allowDo)
      (Expr.Sits source) := by
  refine Lays.bumpThen (Q := (·.kind = .eq)) (fun _ h => by rw [h.1]; decide) (fun _ h => h.2) fun name =>
    (Lays.bump fun _ h => by rw [h]; decide).bind fun eq => Lays.skipNewlines.bind fun _ =>
      (Lays.declare _).bind fun _ => Lays.freshId.bind fun id => (h allowDo).bind fun value => ?_
  refine lays_node.mono fun q e r hnode p hvalue p₁ h₁ p₂ h₂ p₃ h₃ p₄ heq p₅ hname => ?_
  have hvalues := hvalue.1.mono (h₃.trans (h₂.trans h₁)) le_rfl
  have hbehind := hvalues.mono heq.le le_rfl
  have hspan := hname.merge hbehind
  refine hnode p₅ hspan fun id => ?_
  rw [hname.merge_eq hbehind] at hspan ⊢
  -- the children do not fill the span, since the `=` stands between them
  have hframes : Span.Frames source ⟨name.span.start, value.span.stop⟩ ([name.span] ++ [value.span]) :=
    Row.frames (a := eq.span)
      ⟨le_rfl, hname.2.1, (heq.mono hname.2.2 le_rfl).append ⟨hvalues.1, hvalues.2.1, le_rfl⟩⟩
  exact .node ⟨hspan.2.1, hframes, nofun, nofun⟩ fun e he => List.mem_singleton.1 he ▸ hvalue.2

/-- What stands in the else part of a choice, and where the choice ends. -/
def ElseSits (source : List Char) (p : Nat) (r : Option (List Expr) × Span) (q : Nat) : Prop :=
  Row source p [r.2] q ∧ AllSit source p (r.1.getD []) r.2.stop

omit h in
/-- The node of a choice, from the places of its parts. -/
theorem lays_branch_node {cond : Expr} {thenBody : List Expr} {opener : Span}
    (r : Option (List Expr) × Span) :
    Lays source P (do return Expr.node (← freshId) (opener.merge r.2) (.branch cond thenBody r.1))
      fun q e s => ∀ p, ElseSits source p r q → ∀ p₁, AllSit source p₁ thenBody p →
        ∀ p₂, p₂ ≤ p₁ → ∀ p₃, cond.Sits source p₃ p₂ → ∀ p₀, Row source p₀ [opener] p₃ →
          e.Sits source p₀ s := by
  refine lays_node.mono fun q e s hnode p ⟨hstop, helse⟩ p₁ hthen p₂ hp₂ p₃ hcond p₀ hopener => ?_
  have hall : AllSit source p₃ (cond :: (thenBody ++ r.1.getD [])) r.2.stop :=
    .cons hcond ((hthen.mono hp₂ le_rfl).append helse)
  have hbehind := hstop.mono (hcond.1.le.trans (hp₂.trans hthen.1.le)) le_rfl
  refine hnode p₀ (hopener.merge hbehind) (Expr.nested_between hopener hbehind hall.1 ?_ nofun)
  rw [Form.parts_branch]
  exact hall.2

theorem lays_branchRest (fuel : Nat) (construct : Fault.Construct) (opener : Span) :
    Lays source P (branchRest expr fuel construct opener) fun p e q =>
      ∀ p₀, Row source p₀ [opener] p → e.Sits source p₀ q := by
  induction fuel generalizing P construct opener with
  | zero => exact .throw _
  | succ fuel ih =>
    refine (h true).anywhere.bind fun cond => (Lays.expectTerminator _).bind fun _ =>
      (lays_body h _).bind fun thenBody => .kind fun k => ?_
    split
    · refine (Lays.bump fun c hc => by rw [hc.2]; decide).bind fun keyword => (ih _ _).bind fun nested =>
        (lays_branch_node (some [nested], nested.span)).mono fun q e r hnode p hnested p' hkeyword => ?_
      obtain ⟨hrow, hinner⟩ := hnested p' hkeyword
      exact hnode p' ⟨hrow, ⟨hrow.1, hrow.2.1, le_rfl⟩, List.forall_mem_singleton.2 hinner⟩
    · refine (Lays.bump fun c hc => by rw [hc.2]; decide).bind fun _ => (lays_body h _).bind fun stmts =>
        (Lays.expectEnd _ _).bind fun close =>
          (lays_branch_node (some stmts, close.span)).mono fun q e r hnode p hclose s hstmts s' hkeyword => ?_
      exact hnode s' ⟨hclose.mono (hkeyword.le.trans hstmts.1.le) le_rfl,
        hstmts.mono hkeyword.le hclose.le_stop⟩
    · exact (Lays.expectEnd _ _).bind fun close =>
        (lays_branch_node (none, close.span)).mono fun q e r hnode p hclose =>
          hnode p ⟨hclose, .nil hclose.le_stop⟩

theorem lays_branchExpr : Lays source (·.kind = .ifKw) (branchExpr expr) (Expr.Sits source) :=
  (Lays.bump fun _ h => by rw [h]; decide).bind fun keyword => .itemFuel fun fuel =>
    (lays_branchRest h fuel _ _).mono fun _ _ _ hsits p hkeyword => hsits p hkeyword

theorem lays_loopExpr : Lays source (·.kind = .whileKw) (loopExpr expr) (Expr.Sits source) := by
  refine (Lays.bump fun _ h => by rw [h]; decide).bind fun keyword => (h false).bind fun cond => ?_
  have hbody : Lays source Anywhere (do
      let stmts ← body expr [.endKw]
      let close ← expectEnd .whileExpr keyword.span
      return Expr.node (← freshId) (keyword.span.merge close.span) (.loop cond stmts)) fun q e r =>
      ∀ p, p ≤ q → ∀ p₁, cond.Sits source p₁ p → ∀ p₀, Row source p₀ [keyword.span] p₁ →
        e.Sits source p₀ r := by
    refine (lays_body h _).bind fun stmts => (Lays.expectEnd _ _).bind fun close => lays_node.mono ?_
    intro s e s' hnode r hclose q hstmts p hp p₁ hcond p₀ hkeyword
    have hall : AllSit source p₁ (cond :: stmts) close.span.stop :=
      .cons hcond (hstmts.mono hp hclose.le_stop)
    have hbehind := hclose.mono (hcond.1.le.trans (hp.trans hstmts.1.le)) le_rfl
    exact hnode p₀ (hkeyword.merge hbehind) (Expr.nested_between hkeyword hbehind hall.1 hall.2 nofun)
  refine (Lays.eat (by decide)).bind fun some => ?_
  show Lays _ _ (ite _ _ _) _
  split
  · exact Lays.skipTerminators.bind fun _ => hbody.mono
      fun _ _ _ hsits _ hskip p hp => hsits p (hp.trans hskip)
  · exact (Lays.expectTerminator _).bind fun _ => hbody.mono
      fun _ _ _ hsits _ hskip p hp => hsits p (hp.trans hskip)

theorem lays_defExpr : Lays source (·.kind = .defKw) (defExpr expr) (Expr.Sits source) := by
  refine (Lays.bump fun _ h => by rw [h]; decide).bind fun keyword => lays_ident.bind fun name => ?_
  refine lays_defParams.bind fun params => ?_
  have hbody : Lays source Anywhere
      (params.forM (fun p => declare p.name) >>= fun _ => withNewlines (body expr [.endKw]))
      (AllSit source) :=
    (Lays.forM_declare params).after (fun _ => (lays_body h _).withNewlines) fun _ _ _ _ hpq hall =>
      hall.mono hpq le_rfl
  refine (hbody.inScope true).bind fun stmts => (Lays.expectEnd _ _).bind fun close => lays_node.mono ?_
  intro s e s' hnode r hclose q hstmts p hparams p₁ hname p₀ hkeyword
  have hrow : Row source p₁ (name.span :: (params.map Ident.span ++ stmts.map Expr.span)) close.span.stop :=
    hname.append (hparams.append (hstmts.1.mono le_rfl hclose.le_stop))
  have hbehind := hclose.mono (hname.le.trans (hparams.le.trans hstmts.1.le)) le_rfl
  exact hnode p₀ (hkeyword.merge hbehind) (Expr.nested_between hkeyword hbehind hrow hstmts.2 nofun)

theorem lays_parenExpr : Lays source P (parenExpr expr) (Expr.Sits source) :=
  Lays.openParen.bind fun opener => (h true).bind fun inner => Lays.closeParen.bind fun close => .give
    fun q r hclose p hinner p₀ hopener => by
      have hbehind := hclose.mono hinner.1.le le_rfl
      have hspan := hopener.merge hbehind
      refine ⟨hspan, hinner.2.withSpan hspan.2.1 ?_⟩
      rw [hopener.merge_eq hbehind]
      exact ⟨hopener.2.1.lt.le.trans (hopener.2.2.trans hinner.1.1),
        hinner.1.2.2.trans hclose.le_stop⟩

theorem lays_primary : Lays source P (primary expr) (Expr.Sits source) := by
  intro c e d p hP ht hrun
  rw [primary_run] at hrun
  split at hrun
  · next v hliteral =>
    have hkind : c.kind ≠ .eof := ne_of_startsArgument (Token.startsArgument_of_literal? hliteral) rfl
    obtain ⟨q, hq, hrow⟩ := Lays.current hkind ht
    obtain ⟨r, hr, hnode⟩ := lays_node (P := Anywhere) trivial hq hrun
    exact ⟨r, hr, hnode p hrow (Expr.nested_of_row hrow.2.1 hrow.2.1 rfl (Nat.le_refl _)
      (fun _ h => absurd h List.not_mem_nil) nofun)⟩
  · exact nomatch hrun
  · split at hrun
    · exact lays_parenExpr h hP ht hrun
    · exact nomatch hrun

theorem lays_exprLayer (allowDo : Bool) : Lays source P (exprLayer expr allowDo) (Expr.Sits source) := by
  intro c e d p hP ht hrun
  rw [exprLayer_run] at hrun
  split at hrun
  · next hkind => exact lays_defExpr h hkind ht hrun
  · next hkind => exact lays_branchExpr h hkind ht hrun
  · next hkind => exact lays_loopExpr h hkind ht hrun
  · next hkind => exact lays_yieldExpr h hkind ht hrun
  · next hkind =>
    split at hrun
    · next hnext => exact lays_assignment h allowDo ⟨hkind, hnext⟩ ht hrun
    · exact lays_nameExpr h allowDo hkind ht hrun
  · exact lays_primary h hP ht hrun

end

/-- What is read as an expression lies where it was read. -/
theorem lays_expr (fuel : Nat) (allowDo : Bool) :
    Lays source Anywhere (expr fuel allowDo) (Expr.Sits source) := by
  induction fuel generalizing allowDo with
  | zero => exact .throw _
  | succ fuel ih => exact lays_exprLayer ih allowDo

end

end Parser

theorem Cursor.tiled_ofText (source : String) : Tiled source.toList 0 (ofText source).rest :=
  (Token.tiled_scanFrom ⟨[], rfl, rfl⟩).filter _

namespace Program

/-- The statements of a text, or those before a fault, lie in a row in the text. -/
theorem sit_parse (source : String) :
    AllSit source.toList 0 (parse source).program.stmts (byteLength source.toList) := by
  obtain ⟨q, hq, hall, -⟩ := Parser.lays_statements (fun allowDo => Parser.lays_expr _ allowDo) []
    ((Cursor.ofText source).rest.length + 1) (Cursor.tiled_ofText source)
  rw [stmts_parse]
  exact hall.mono le_rfl hq

theorem Has.nested {p : Program} {source : List Char} {e : Expr} (h : ∀ e ∈ p.stmts, e.Nested source)
    (he : p.Has e) : e.Nested source := by
  induction he with
  | stmt hstmt => exact h _ hstmt
  | part _ hpart ih => exact ih.part hpart

/-- Spans nest at every node that parsing gives, also at those before a fault, and the statements follow
one another. -/
theorem spans_nest (source : String) :
    (∀ e, (parse source).program.Has e → e.WellSpanned source.toList) ∧
      ((parse source).program.stmts.map Expr.span).Pairwise fun a b => a.stop ≤ b.start :=
  ⟨fun _ he => (he.nested (sit_parse source).2).framed.wellSpanned, (sit_parse source).1.ordered⟩

/-- A call with an argument and a block. -/
def twice : Expr :=
  .node 4 ⟨0, 14⟩ (.call "f" ⟨0, 1⟩ [.node 0 ⟨2, 3⟩ (.literal (.int ⟨⟨2#64⟩⟩))]
    (some ⟨3, ⟨5, 14⟩, [⟨1, "x", ⟨8, 9⟩⟩], [.node 2 ⟨11, 12⟩ (.var "x")]⟩))

theorem parse_twice : (parse "f(2) { |x| x })").program = ⟨[twice]⟩ := by cbv

/-- A call whose span is that of its text, before a parenthesis too many. -/
theorem twice_wellSpanned :
    (parse "f(2) { |x| x })").program? = none ∧ twice.WellSpanned "f(2) { |x| x })".toList :=
  ⟨by cbv, (spans_nest "f(2) { |x| x })").1 twice
    (.stmt (by rw [parse_twice]; exact List.mem_singleton_self _))⟩

end Program

end FlowTyping
