import FlowTyping.Proofs.Layout
import FlowTyping.Proofs.Sequences

/-!
# What parsing reads

`Program.laid_of_parse`: every program that parses is laid down as `Expr.Laid` says.  `Parser.Reads` is
the postcondition that the productions are taken through for it, one lemma each: it relates the naming
before, the value and the naming afterwards.  Most steps only go over tokens (`Parser.Quiet`).
-/

namespace FlowTyping

open Naming

/-! ### Tokens -/

/-- A token of an identifier is spelled as one. -/
def Token.Sound (t : Token) : Prop := t.kind = .ident → IsName t.text

/-- All tokens that are left are sound. -/
def Cursor.Sound (c : Cursor) : Prop := ∀ t ∈ c.rest, t.Sound

/-- What the cursor keeps for numbering and naming. -/
def Cursor.naming (c : Cursor) : Naming := ⟨c.nextId, c.locals⟩

theorem scanName_fst (cs : List Char) : scanName (scanName cs).1 = ((scanName cs).1, []) := by
  have hall (c : Char) (hc : c ∈ cs.takeWhile Letters.isInner) : Letters.isInner c = true :=
    List.all_eq_true.1 List.all_takeWhile c hc
  generalize hname : cs.takeWhile Letters.isInner = name at hall
  have htake (mark : List Char) (hmark : ∀ c ∈ mark.head?, Letters.isInner c = false) :
      (name ++ mark).takeWhile Letters.isInner = name ∧
        (name ++ mark).dropWhile Letters.isInner = mark := by
    rw [List.takeWhile_append_of_pos hall, List.dropWhile_append_of_pos hall]
    cases mark with
    | nil => simp
    | cons c mark => simp [hmark c rfl]
  have hplain : scanName name = (name, []) := by
    have := htake [] (by simp)
    simp only [List.append_nil] at this
    simp [scanName, this]
  unfold scanName
  rw [hname]
  split
  · next mark rest hrest =>
    split
    · next hmark =>
      have hinner : Letters.isInner mark = false := by
        have := List.head?_dropWhile_not Letters.isInner cs
        rw [hrest] at this
        simpa using this
      obtain ⟨h₁, h₂⟩ := htake [mark] (by simpa using hinner)
      simp [h₁, h₂, hmark.1]
    · exact hplain
  · exact hplain

theorem punctuation?_ne_ident (c : Char) : punctuation? c ≠ some .ident := by
  unfold punctuation?
  split <;> simp

theorem kind_scanNumber (cs : List Char) : (scanNumber cs).1 = .int ∨ (scanNumber cs).1 = .float := by
  unfold scanNumber
  split
  · split <;> simp
  · simp

theorem Token.keyword?_ne {kind : Token.Kind} (h : ∀ e ∈ Token.keywords, e.2 ≠ kind) (word : String) :
    Token.keyword? word ≠ some kind := by
  intro hword
  obtain ⟨before, after, hkeywords, -⟩ := List.lookup_eq_some_iff.1 hword
  have hmem : (word, kind) ∈ Token.keywords := by rw [hkeywords]; simp
  exact h _ hmem rfl

theorem Lexeme.isName_of_ident {c : Char} {cs : List Char} (h : (Lexeme.from c cs).kind = .ident) :
    IsName (String.ofList (Lexeme.from c cs).text) := by
  unfold Lexeme.from at h ⊢
  split at h
  · next kind hkind => exact absurd (h ▸ hkind) (punctuation?_ne_ident c)
  split_ifs at h ⊢ with hcomment hdigit hchar hstring hstart
  · have hnum : (scanNumber cs).1 = .ident := h
    rcases kind_scanNumber cs with hkind | hkind <;> rw [hkind] at hnum <;> cases hnum
  · have hquoted : (if (scanQuoted c cs).1 then Token.Kind.char else .invalid) = .ident := h
    split at hquoted <;> cases hquoted
  · have hquoted : (if (scanQuoted c cs).1 then Token.Kind.string else .invalid) = .ident := h
    split at hquoted <;> cases hquoted
  · refine ⟨c, (scanName cs).1, by simp, hstart, scanName_fst cs, ?_⟩
    have hword : (Token.keyword? (String.ofList (c :: (scanName cs).1))).getD .ident = .ident := h
    cases hkw : Token.keyword? (String.ofList (c :: (scanName cs).1)) with
    | none => rfl
    | some kind =>
      rw [hkw, Option.getD_some] at hword
      exact absurd (hword ▸ hkw) (Token.keyword?_ne (by decide) _)

theorem Token.sound_of_mem_scanFrom {pos : Nat} {cs : List Char} {t : Token}
    (h : t ∈ Token.scanFrom pos cs) : t.Sound := by
  obtain ⟨start, c, rest, -, rfl⟩ := Token.exists_lexeme_of_mem_scanFrom h
  exact Lexeme.isName_of_ident

theorem spellable_of_intValue {text : List Char} {v : Literal} (h : intValue text = .ok v) :
    v.Spellable := by
  unfold intValue at h
  dsimp only at h
  split at h
  · next hlt =>
    cases h
    show 0 ≤ (Int64.ofNat _).toInt
    rw [Int64.toInt_ofNat_of_lt hlt]
    exact Int.natCast_nonneg _
  · cases h

theorem spellable_of_charValue {text : List Char} {v : Literal} (h : charValue text = .ok v) :
    v.Spellable := by
  unfold charValue at h
  cases hinside : unescape (insideQuotes text) with
  | error e => rw [hinside] at h; cases h
  | ok cs =>
    rw [hinside] at h
    match cs, h with
    | [c], h => cases h; trivial

theorem spellable_of_stringValue {text : List Char} {v : Literal} (h : stringValue text = .ok v) :
    v.Spellable := by
  unfold stringValue at h
  cases hinside : unescape (insideQuotes text) with
  | error e => rw [hinside] at h; cases h
  | ok cs => rw [hinside] at h; cases h; trivial

theorem Token.spellable_of_literal? {t : Token} {v : Literal} (h : t.literal? = some (.ok v)) :
    v.Spellable := by
  unfold literal? at h
  split at h
  · exact spellable_of_intValue (Option.some.inj h)
  · cases h; trivial
  · exact spellable_of_charValue (Option.some.inj h)
  · exact spellable_of_stringValue (Option.some.inj h)
  all_goals cases h
  all_goals trivial

/-! ### Parsers -/

namespace Parser

/-- A parser that gives a value at a sound cursor with `P` ends at a sound cursor, and `R` relates the
naming before, the value and the naming afterwards. -/
def Reads (P : Cursor → Prop) (m : Parser α) (R : Naming → α → Naming → Prop) : Prop :=
  ∀ ⦃c a d⦄, c.Sound → P c → m c = .ok a d → d.Sound ∧ R c.naming a d.naming

/-- A parser that numbers and declares nothing. -/
def Quiet (m : Parser α) : Prop := Reads (fun _ => True) m fun σ _ τ => τ = σ

namespace Reads
variable {P Q : Cursor → Prop} {m : Parser α} {f : α → Parser β} {R R' : Naming → α → Naming → Prop}
  {S : Naming → β → Naming → Prop} {a : α}

theorem mono (h : Reads P m R) (hR : ∀ σ a τ, R σ a τ → R' σ a τ) : Reads P m R' :=
  fun _ _ _ hc hP hrun => ⟨(h hc hP hrun).1, hR _ _ _ (h hc hP hrun).2⟩

theorem bind (h : Reads P m R)
    (hf : ∀ a, Reads (fun _ => True) (f a) fun ρ b τ => ∀ σ, R σ a ρ → S σ b τ) :
    Reads P (m >>= f) S := by
  intro c b d hc hP hrun
  obtain ⟨a, c', hm, hrun⟩ := bind_eq_ok_iff.1 hrun
  obtain ⟨hc', hR⟩ := h hc hP hm
  obtain ⟨hd, hS⟩ := hf a hc' trivial hrun
  exact ⟨hd, hS _ hR⟩

/-- Behind a parser that numbers and declares nothing. -/
theorem after (h : Quiet m) (hf : ∀ a, Reads (fun _ => True) (f a) S) :
    Reads (fun _ => True) (m >>= f) S :=
  h.bind fun a => (hf a).mono fun _ _ _ hS _ hσ => hσ ▸ hS

/-- Behind a parser that numbers and declares nothing and whose value has a property. -/
theorem afterWith {F : α → Prop} (h : Reads P m fun σ a τ => F a ∧ τ = σ)
    (hf : ∀ a, F a → Reads (fun _ => True) (f a) S) : Reads P (m >>= f) S := by
  intro c b d hc hP hrun
  obtain ⟨a, c', hm, hrun⟩ := bind_eq_ok_iff.1 hrun
  obtain ⟨hc', ha, hσ⟩ := h hc hP hm
  obtain ⟨hd, hS⟩ := hf a ha hc' trivial hrun
  exact ⟨hd, hσ ▸ hS⟩

theorem give (h : ∀ σ, R σ a σ) : Reads P (pure a) R := by
  intro c b d hc _ hrun
  cases hrun
  exact ⟨hc, h _⟩

theorem throw (e : Setback) : Reads P (throw e : Parser α) R := fun _ _ _ _ _ hrun => nomatch hrun

theorem freshId : Reads P freshId fun σ i τ => i = σ.nextId ∧ τ = σ.fresh := by
  intro c a d hc _ hrun
  cases hrun
  exact ⟨hc, rfl, rfl⟩

theorem isLocal (name : String) :
    Reads P (isLocal name) fun σ b τ => b = σ.isLocal name ∧ τ = σ := by
  intro c a d hc _ hrun
  cases hrun
  exact ⟨hc, rfl, rfl⟩

theorem declare (name : String) : Reads P (declare name) fun σ _ τ => τ = σ.declare name := by
  intro c a d hc _ hrun
  cases hrun
  exact ⟨hc, rfl⟩

end Reads

/-! ### Steps over tokens -/

namespace Quiet
variable {m : Parser α}

/-- A step that only drops tokens. -/
theorem of_rest (h : ∀ ⦃c a d⦄, m c = .ok a d → (∀ t ∈ d.rest, t ∈ c.rest) ∧ d.naming = c.naming) :
    Quiet m :=
  fun _ _ _ hc _ hrun => ⟨fun t ht => hc t ((h hrun).1 t ht), (h hrun).2⟩

theorem mem_of_mem_visible {c : Cursor} {t : Token} (h : t ∈ c.visible) : t ∈ c.rest := by
  unfold Cursor.visible at h
  split at h
  · exact h
  · exact (List.dropWhile_sublist _).mem h

theorem mem_of_mem_next {c : Cursor} {t : Token} (h : t ∈ c.next.rest) : t ∈ c.rest :=
  mem_of_mem_visible (List.mem_of_mem_drop h)

theorem get : Quiet (get : Parser Cursor) := of_rest fun _ _ _ h => by cases h; exact ⟨fun _ h => h, rfl⟩

theorem kind : Quiet kind := of_rest fun _ _ _ h => by cases h; exact ⟨fun _ h => h, rfl⟩

theorem itemFuel : Quiet itemFuel := of_rest fun _ _ _ h => by cases h; exact ⟨fun _ h => h, rfl⟩

theorem bump : Quiet bump := of_rest fun _ _ _ h => by cases h; exact ⟨fun _ => mem_of_mem_next, rfl⟩

theorem eat (kind : Token.Kind) : Quiet (eat kind) := of_rest fun c _ _ h => by
  unfold Parser.eat at h
  split at h <;> cases h
  · exact ⟨fun _ => mem_of_mem_next, rfl⟩
  · exact ⟨fun _ h => h, rfl⟩

theorem expect (kind : Token.Kind) : Quiet (expect kind) := of_rest fun c _ _ h => by
  unfold Parser.expect at h
  split at h <;> cases h
  exact ⟨fun _ => mem_of_mem_next, rfl⟩

theorem expectEnd (construct : Fault.Construct) (opener : Span) : Quiet (expectEnd construct opener) :=
  of_rest fun c _ _ h => by
    unfold Parser.expectEnd at h
    split at h <;> cases h
    exact ⟨fun _ => mem_of_mem_next, rfl⟩

theorem skipTerminators : Quiet skipTerminators := of_rest fun _ _ _ h => by
  cases h; exact ⟨fun _ ht => (List.dropWhile_sublist _).mem ht, rfl⟩

theorem skipNewlines : Quiet skipNewlines := of_rest fun _ _ _ h => by
  cases h; exact ⟨fun _ ht => (List.dropWhile_sublist _).mem ht, rfl⟩

theorem parens (g : Nat → Nat) : Quiet (modify fun c => { c with parens := g c.parens }) :=
  of_rest fun _ _ _ h => by cases h; exact ⟨fun _ h => h, rfl⟩

theorem give (a : α) : Quiet (pure a : Parser α) := Reads.give fun _ => rfl

theorem bind {f : α → Parser β} (h : Quiet m) (hf : ∀ a, Quiet (f a)) : Quiet (m >>= f) :=
  Reads.after h hf

theorem expectTerminator (after : Fault.Part) : Quiet (expectTerminator after) := by
  refine kind.bind fun k => ?_
  split
  · exact skipTerminators
  · exact fun _ _ _ _ _ hrun => nomatch hrun

theorem openParen : Quiet openParen :=
  (expect _).bind fun _ => (parens (· + 1)).bind fun _ => give _

theorem closeParen : Quiet closeParen :=
  (expect _).bind fun _ => (parens (· - 1)).bind fun _ => give _

end Quiet

namespace Reads
variable {P : Cursor → Prop} {m : Parser α} {R : Naming → α → Naming → Prop}

/-- A token of a kind, as it is seen at the cursor. -/
theorem bump_ident : Reads (fun c => c.kind = .ident) bump fun σ t τ => IsName t.text ∧ τ = σ := by
  intro c t d hc hkind hrun
  have hd := Quiet.bump hc trivial hrun
  cases hrun
  refine ⟨hd.1, ?_, hd.2⟩
  show IsName c.current.text
  unfold Cursor.kind Cursor.current at *
  cases hvisible : c.visible with
  | nil => rw [hvisible] at hkind; exact nomatch hkind
  | cons t ts =>
    rw [hvisible] at hkind
    exact hc t (Quiet.mem_of_mem_visible (hvisible ▸ List.mem_cons_self)) hkind

theorem withNewlines (h : Reads (fun _ => True) m R) : Reads (fun _ => True) (withNewlines m) R :=
  after .get fun c => after (.parens fun _ => 0) fun _ => h.bind fun _ =>
    after (.parens fun _ => c.parens) fun _ => .give fun _ _ h => h

theorem locals (g : List LocalScope → List LocalScope) :
    Reads P (modify fun c => { c with locals := g c.locals }) fun σ _ τ =>
      τ = { σ with locals := g σ.locals } := by
  intro c a d hc _ hrun
  cases hrun
  exact ⟨hc, rfl⟩

theorem inScope (closed : Bool) (h : Reads (fun _ => True) m R) :
    Reads (fun _ => True) (inScope closed m) fun σ a τ => ∃ ρ, R (σ.enter closed) a ρ ∧ τ = ρ.leave := by
  refine (locals (⟨closed, []⟩ :: ·)).bind fun _ => h.bind fun a => (locals (·.drop 1)).bind fun _ => ?_
  exact .give fun τ υ hτ ρ ha σ hρ => ⟨υ, by rw [hρ] at ha; exact ha, hτ⟩

theorem commaList {gap : Parser Unit} (h : Reads (fun _ => True) m R) (hgap : Quiet gap) (fuel : Nat) :
    Reads (fun _ => True) (commaList m gap fuel) (Run R) := by
  induction fuel with
  | zero => exact throw _
  | succ fuel ih =>
    refine h.bind fun a => after (.eat _) fun more => ?_
    split
    · refine after hgap fun _ => ih.bind fun as => .give fun ρ υ has σ ha => ⟨υ, ha, has⟩
    · exact .give fun ρ σ ha => ⟨ρ, ha, rfl⟩

theorem forM_declare (params : List Ident) :
    Reads (fun _ => True) (params.forM fun p => Parser.declare p.name) fun σ _ τ =>
      τ = σ.declareAll params := by
  induction params with
  | nil => exact .give fun _ => rfl
  | cons p params ih =>
    refine (declare p.name).bind fun _ => ih.mono fun ρ _ τ hτ σ hρ => ?_
    rw [hτ, hρ]
    rfl

end Reads

/-! ### Productions -/

theorem reads_ident : Reads (fun _ => True) ident Names := by
  intro c i d hc _ hrun
  obtain ⟨t, c', ht, hrun⟩ := bind_eq_ok_iff.1 hrun
  have hkind : c.kind = .ident := by
    unfold expect at ht
    split at ht
    · assumption
    · exact nomatch ht
  have hbump : bump c = .ok t c' := by
    unfold expect at ht
    rw [if_pos hkind] at ht
    exact ht
  obtain ⟨hc', hname, hc'eq⟩ := Reads.bump_ident hc hkind hbump
  cases hrun
  exact ⟨hc', hname, congrArg Naming.nextId hc'eq, by rw [← hc'eq]; rfl⟩

theorem reads_idents : Reads (fun _ => True) idents (Run Names) :=
  .after .itemFuel fun fuel => reads_ident.commaList (.give ()) fuel

theorem reads_blockParams : Reads (fun _ => True) blockParams (Run Names) := by
  have hclose (params : List Ident) : Reads (fun _ => True) (expect .bar >>= fun _ => pure params)
      fun ρ ps τ => ∀ σ, Run Names σ params ρ → Run Names σ ps τ :=
    .after (.expect _) fun _ => .give fun _ _ h => h
  refine .after (.eat _) fun some => ?_
  split
  · refine .after .kind fun k => ?_
    show Reads _ (ite _ _ _) _
    split
    · exact .bind (R := Run Names) (.give fun _ => rfl) hclose
    · exact reads_idents.bind hclose
  · exact .give fun _ => rfl

theorem reads_defParams : Reads (fun _ => True) defParams (Run Names) := by
  have hclose (params : List Ident) : Reads (fun _ => True)
      (closeParen >>= fun _ => skipTerminators >>= fun _ => pure params)
      fun ρ ps τ => ∀ σ, Run Names σ params ρ → Run Names σ ps τ :=
    .after .closeParen fun _ => .after .skipTerminators fun _ => .give fun _ _ h => h
  refine .after .kind fun k => ?_
  split
  · refine .after .openParen fun _ => .after .kind fun k => ?_
    show Reads _ (ite _ _ _) _
    split
    · exact .bind (R := Run Names) (.give fun _ => rfl) hclose
    · exact reads_idents.bind hclose
  · refine .after .kind fun k => ?_
    split
    · exact reads_idents.bind fun params => .after (.expectTerminator _) fun _ => .give fun _ _ h => h
    · exact .after (.expectTerminator _) fun _ => .give fun _ => rfl

theorem primary_run (expr : ExprParser) (c : Cursor) :
    primary expr c = match c.current.literal? with
      | some (.ok v) => (do
        let _ ← bump
        return Expr.node (← freshId) c.current.span (.literal v) : Parser Expr) c
      | some (.error cause) => .error (.fault ⟨cause, c.current.span⟩) c
      | none =>
        if c.current.kind = Token.Kind.lparen then parenExpr expr c
        else .error (.fault (.unexpectedToken .expression c.current)) c := by
  unfold primary
  rw [bind_of_ok (show (get : Parser Cursor) c = .ok c c from rfl)]
  cases c.current.literal? with
  | none => dsimp only; split <;> rfl
  | some r => cases r <;> rfl

theorem exprLayer_run (expr : ExprParser) (allowDo : Bool) (c : Cursor) :
    exprLayer expr allowDo c = match c.kind with
      | .defKw => defExpr expr c
      | .ifKw => branchExpr expr c
      | .whileKw => loopExpr expr c
      | .yieldKw => yieldExpr expr c
      | .ident =>
        if c.next.kind = Token.Kind.eq then assignment expr allowDo c else nameExpr expr allowDo c
      | _ => primary expr c := by
  unfold exprLayer
  rw [bind_of_ok (show (get : Parser Cursor) c = .ok c c from rfl)]
  cases c.kind <;> dsimp only
  split <;> rfl

/-- At the end of a production the node gets its identity. -/
theorem reads_node {span : Span} {form : Form Expr} :
    Reads (fun _ => True) (freshId >>= fun id => pure (Expr.node id span form)) fun ρ e τ =>
      ∀ σ, Form.LaidBy Expr.Laid σ form ρ → e.Laid σ τ :=
  Reads.freshId.bind fun _ => .give fun _ ρ ⟨hid, hτ⟩ _ hform => Expr.laid_iff.2 ⟨ρ, hform, hid, hτ⟩

/-- What is read of a block with its brackets, of which `last` reads the closing one. -/
def bracketed (expr : ExprParser) (closer : Token.Kind) (last : Token → Parser Token) :
    Parser (Block Expr) := do
  let opener ← bump
  let (params, stmts) ← blockContents expr closer
  let close ← last opener
  return ⟨← freshId, opener.span.merge close.span, params, stmts⟩

theorem doBlock_eq (expr : ExprParser) :
    doBlock expr = bracketed expr .endKw fun opener => expectEnd .doBlock opener.span := rfl

theorem braceBlock_eq (expr : ExprParser) :
    braceBlock expr = bracketed expr .rbrace fun _ => expect .rbrace := rfl

section
variable {expr : ExprParser} (h : ∀ allowDo, Reads (fun _ => True) (expr allowDo) Expr.Laid)
include h

/-- Statements are laid one behind the other, also those before a fault. -/
theorem reads_statements (closers : List Token.Kind) (fuel : Nat) {c : Cursor} (hc : c.Sound) :
    ∃ τ, LaidAll c.naming (statements expr closers fuel c).1 τ ∧
      ∀ d, (statements expr closers fuel c).2 = .ok () d → d.Sound ∧ d.naming = τ := by
  induction fuel generalizing c with
  | zero => exact ⟨c.naming, rfl, nofun⟩
  | succ fuel ih =>
    have hskip : c.skipTerminators.Sound := (Quiet.skipTerminators hc trivial rfl).1
    simp only [statements]
    split
    · refine ⟨c.naming, rfl, ?_⟩
      rintro d ⟨⟩
      exact ⟨hskip, rfl⟩
    · split
      · exact ⟨c.naming, rfl, nofun⟩
      · next stmt c' hstmt =>
        obtain ⟨hc', hlaid⟩ := h true hskip trivial hstmt
        split
        · obtain ⟨τ, hrest, hend⟩ := ih hc'
          exact ⟨τ, ⟨c'.naming, hlaid, hrest⟩, hend⟩
        · exact ⟨c'.naming, ⟨c'.naming, hlaid, rfl⟩, nofun⟩

theorem reads_body (closers : List Token.Kind) :
    Reads (fun _ => True) (body expr closers) LaidAll := by
  intro c stmts d hc _ hrun
  unfold body at hrun
  split at hrun
  · next hrun' =>
    cases hrun
    obtain ⟨τ, hlaid, hend⟩ := reads_statements h closers (c.rest.length + 1) hc
    rw [hrun'] at hlaid hend
    obtain ⟨hd, rfl⟩ := hend d rfl
    exact ⟨hd, hlaid⟩
  · exact nomatch hrun

theorem reads_parenArgs : Reads (fun _ => True) (parenArgs expr) fun σ r τ => LaidAll σ r.1 τ := by
  refine .after .openParen fun _ => .after .kind fun k => ?_
  have hclose (args : List Expr) : Reads (fun _ => True)
      (closeParen >>= fun close => pure (args, close.span)) fun ρ (r : List Expr × Span) τ =>
        ∀ σ, LaidAll σ args ρ → LaidAll σ r.1 τ := .after .closeParen fun _ => .give fun _ _ h => h
  show Reads _ (ite _ _ _) _
  split
  · exact .bind (R := LaidAll) (.give fun _ => rfl) hclose
  · exact .after .itemFuel fun fuel => ((h true).commaList (.give ()) fuel).bind hclose

theorem reads_args (span : Span) :
    Reads (fun _ => True) (args expr span) fun σ r τ => LaidAll σ r.1 τ := by
  refine .after .kind fun k => ?_
  split
  · exact (reads_parenArgs h).bind fun r => .give fun _ _ h => h
  · refine .after .kind fun k => ?_
    split
    · have hargs : Reads (fun _ => True) (commandArgs expr) LaidAll :=
        .after .itemFuel fun fuel => (h false).commaList .skipNewlines fuel
      exact hargs.bind fun args => .give fun _ _ h => h
    · exact .give fun _ => rfl

theorem reads_blockContents (closer : Token.Kind) :
    Reads (fun _ => True) (blockContents expr closer) fun σ r τ =>
      Scoped Expr.Laid false σ r.1 r.2 τ := by
  have hcontents : Reads (fun _ => True) (do
      let params ← blockParams
      params.forM fun p => declare p.name
      return (params, ← body expr [closer])) fun σ r τ =>
        ∃ ρ, Run Names σ r.1 ρ ∧ LaidAll (ρ.declareAll r.1) r.2 τ := by
    refine reads_blockParams.bind fun params => (Reads.forM_declare params).bind fun _ => ?_
    exact (reads_body h _).bind fun stmts => .give fun υ ρ hbody σ hσ τ hτ =>
      ⟨σ, hτ, by rw [hσ] at hbody; exact hbody⟩
  exact (hcontents.withNewlines.inScope false).mono fun σ r τ ⟨υ, ⟨ρ, hparams, hbody⟩, hτ⟩ =>
    ⟨ρ, υ, hparams, hbody, hτ⟩

theorem reads_bracketed {closer : Token.Kind} {last : Token → Parser Token} (hlast : ∀ t, Quiet (last t)) :
    Reads (fun _ => True) (bracketed expr closer last) fun σ b τ => Block.LaidBy Expr.Laid σ (some b) τ :=
  .after .bump fun opener => (reads_blockContents h closer).bind fun ⟨_, _⟩ =>
    .after (hlast opener) fun _ => Reads.freshId.bind fun _ =>
      .give fun _ ρ ⟨hid, hτ⟩ _ hr => ⟨ρ, hr, hid, hτ⟩

theorem reads_block? (allowDo : Bool) :
    Reads (fun _ => True) (block? expr allowDo) (Block.LaidBy Expr.Laid) := by
  refine .after .kind fun k => ?_
  split
  · exact (reads_bracketed h fun _ => .expect _).bind fun b => .give fun _ _ h => h
  · refine .after .kind fun k => ?_
    split
    · exact (reads_bracketed h fun _ => .expectEnd _ _).bind fun b => .give fun _ _ h => h
    · exact .give fun _ => rfl

/-! ### Expressions -/

theorem reads_assignment (allowDo : Bool) :
    Reads (fun c => c.kind = .ident) (assignment expr allowDo) Expr.Laid := by
  refine Reads.bump_ident.afterWith fun name hname => .after .bump fun _ => .after .skipNewlines fun _ => ?_
  refine (Reads.declare name.text).bind fun _ => Reads.freshId.bind fun id => ?_
  refine (h allowDo).bind fun value => reads_node.mono fun ρ e τ hnode υ hvalue π hυ σ hπ => ?_
  obtain ⟨hid, rfl⟩ := hυ
  subst hπ
  exact hnode σ ⟨hname, hid, hvalue⟩

theorem reads_nameExpr (allowDo : Bool) :
    Reads (fun c => c.kind = .ident) (nameExpr expr allowDo) Expr.Laid := by
  refine Reads.bump_ident.afterWith fun name hname => (Reads.isLocal name.text).bind fun known => ?_
  have hcall : Reads (fun _ => True) (args expr name.span >>= fun r => do
      let block ← block? expr allowDo
      let span := (block.map fun b => r.2.merge b.span).getD r.2
      return Expr.node (← freshId) span (.call name.text name.span r.1 block)) fun ρ e τ =>
        ∀ σ, known = σ.isLocal name.text ∧ ρ = σ → e.Laid σ τ :=
    (reads_args h name.span).bind fun r => (reads_block? h allowDo).bind fun _ =>
      reads_node.mono fun _ _ _ hnode ρ hblock σ hargs _ hσ =>
        hσ.2 ▸ hnode σ ⟨hname, ρ, hargs, hblock⟩
  cases known with
  | false => exact .after .kind fun _ => hcall
  | true =>
    refine .after .kind fun k => ?_
    split
    · exact reads_node.mono fun ρ e τ hnode σ hσ => hσ.2 ▸ hnode ρ ⟨hname, hσ.2 ▸ hσ.1.symm, rfl⟩
    · exact hcall

theorem reads_yieldExpr : Reads (fun _ => True) (yieldExpr expr) Expr.Laid :=
  .after .bump fun _ => (reads_args h _).bind fun ⟨_, _⟩ => reads_node.mono
    fun _ _ _ hnode σ hargs => hnode σ hargs

theorem reads_branchRest (fuel : Nat) (construct : Fault.Construct) (opener : Span) :
    Reads (fun _ => True) (branchRest expr fuel construct opener) Expr.Laid := by
  induction fuel generalizing construct opener with
  | zero => exact .throw _
  | succ fuel ih =>
    refine (h true).bind fun cond => .after (.expectTerminator _) fun _ => ?_
    refine (reads_body h _).bind fun thenBody => .after .kind fun k => ?_
    have hend (r : Option (List Expr) × Span) : Reads (fun _ => True)
        (freshId >>= fun id =>
          pure (Expr.node id (opener.merge r.2) (.branch cond thenBody r.1))) fun ρ e τ =>
        ∀ υ, LaidAll υ (r.1.getD []) ρ → ∀ π, LaidAll π thenBody υ → ∀ σ, cond.Laid σ π →
          e.Laid σ τ :=
      reads_node.mono fun _ _ _ hnode υ helse π hthen σ hcond => hnode σ ⟨π, υ, hcond, hthen, helse⟩
    split
    · refine .after .bump fun _ => (ih _ _).bind fun nested => ?_
      exact (hend (some [nested], nested.span)).mono fun _ _ _ hlaid υ hnested =>
        hlaid υ ⟨_, hnested, rfl⟩
    · exact .after .bump fun _ => (reads_body h _).bind fun stmts => .after (.expectEnd _ _)
        fun close => hend (some stmts, close.span)
    · exact .after (.expectEnd _ _) fun close => (hend (none, close.span)).mono
        fun _ _ _ hlaid υ hthen => hlaid _ rfl υ hthen

theorem reads_loopExpr : Reads (fun _ => True) (loopExpr expr) Expr.Laid := by
  refine .after .bump fun keyword => (h false).bind fun cond => ?_
  have hbody : Reads (fun _ => True) (do
      let stmts ← body expr [.endKw]
      let close ← expectEnd .whileExpr keyword.span
      return Expr.node (← freshId) (keyword.span.merge close.span) (.loop cond stmts)) fun ρ e τ =>
        ∀ σ, cond.Laid σ ρ → e.Laid σ τ :=
    (reads_body h _).bind fun stmts => .after (.expectEnd _ _) fun _ => reads_node.mono
      fun _ _ _ hnode ρ hstmts σ hcond => hnode σ ⟨ρ, hcond, hstmts⟩
  refine .after (.eat _) fun some => ?_
  show Reads _ (ite _ _ _) _
  split
  · exact .after .skipTerminators fun _ => hbody
  · exact .after (.expectTerminator _) fun _ => hbody

theorem reads_defExpr : Reads (fun _ => True) (defExpr expr) Expr.Laid := by
  refine .after .bump fun _ => reads_ident.bind fun name => reads_defParams.bind fun params => ?_
  have hbody : Reads (fun _ => True)
      (params.forM (fun p => declare p.name) >>= fun _ => withNewlines (body expr [.endKw]))
      fun σ stmts τ => LaidAll (σ.declareAll params) stmts τ :=
    (Reads.forM_declare params).bind fun _ => (reads_body h _).withNewlines.mono
      fun _ _ _ hstmts _ hσ => hσ ▸ hstmts
  refine (hbody.inScope true).bind fun stmts => .after (.expectEnd _ _) fun _ => reads_node.mono ?_
  rintro ρ e τ hnode υ ⟨π, hstmts, hρ⟩ χ hparams σ ⟨hname, hid, rfl⟩
  exact hnode σ ⟨hname, hid, _, π, run_names_enter true hparams, hstmts, hρ⟩

theorem reads_parenExpr : Reads (fun _ => True) (parenExpr expr) Expr.Laid :=
  .after .openParen fun _ => (h true).bind fun _ => .after .closeParen fun _ =>
    .give fun _ _ hlaid => Expr.laid_withSpan.2 hlaid

theorem reads_primary : Reads (fun _ => True) (primary expr) Expr.Laid := by
  intro c e d hc _ hrun
  rw [primary_run] at hrun
  split at hrun
  · next v hliteral =>
    have hnode : Reads (fun _ => True) (bump >>= fun _ =>
        freshId >>= fun id => pure (Expr.node id c.current.span (.literal v))) Expr.Laid :=
      .after .bump fun _ => reads_node.mono fun ρ _ _ hnode =>
        hnode ρ ⟨Token.spellable_of_literal? hliteral, rfl⟩
    exact hnode hc trivial hrun
  · exact nomatch hrun
  · split at hrun
    · exact reads_parenExpr h hc trivial hrun
    · exact nomatch hrun

theorem reads_exprLayer (allowDo : Bool) : Reads (fun _ => True) (exprLayer expr allowDo) Expr.Laid := by
  intro c e d hc _ hrun
  rw [exprLayer_run] at hrun
  split at hrun
  · exact reads_defExpr h hc trivial hrun
  · exact Reads.after .bump (fun _ => .after .itemFuel fun _ => reads_branchRest h _ _ _) hc trivial hrun
  · exact reads_loopExpr h hc trivial hrun
  · exact reads_yieldExpr h hc trivial hrun
  · next hkind =>
    split at hrun
    · exact reads_assignment h allowDo hc hkind hrun
    · exact reads_nameExpr h allowDo hc hkind hrun
  · exact reads_primary h hc trivial hrun

end

theorem reads_expr (fuel : Nat) (allowDo : Bool) : Reads (fun _ => True) (expr fuel allowDo) Expr.Laid := by
  induction fuel generalizing allowDo with
  | zero => exact .throw _
  | succ fuel ih => exact reads_exprLayer ih allowDo

end Parser

/-- The statements of a text, or those before a fault, are laid from the start. -/
theorem Program.laid_parse (source : String) : ∃ τ, LaidAll .start (Program.parse source).program.stmts τ ∧
    ((Program.parse source).setback? = none → (Program.parse source).cursor.naming = τ) := by
  have hsound : (Cursor.start (Token.lexemes source) (byteLength source.toList)).Sound :=
    fun t ht => Token.sound_of_mem_scanFrom (List.mem_of_mem_filter ht)
  unfold Program.parse Program.ofTokens
  obtain ⟨τ, hlaid, hend⟩ := Parser.reads_statements (Parser.reads_expr _) [] _ hsound
  refine ⟨τ, ?_⟩
  dsimp only
  split
  · next hrun =>
    rw [hrun] at hlaid hend
    exact ⟨hlaid, fun _ => (hend _ rfl).2⟩
  · next hrun =>
    rw [hrun] at hlaid
    exact ⟨hlaid, nofun⟩

/-- The statements of a program that parses are laid from the start. -/
theorem Program.laid_of_parse {source : String} {p : Program}
    (h : (Program.parse source).program? = some p) : ∃ τ, LaidAll .start p.stmts τ := by
  obtain ⟨τ, hlaid, -⟩ := laid_parse source
  obtain ⟨-, h⟩ := Option.ite_none_right_eq_some.1 h
  exact ⟨τ, Option.some.inj h ▸ hlaid⟩

end FlowTyping
