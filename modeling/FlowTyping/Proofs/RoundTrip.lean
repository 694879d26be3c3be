import FlowTyping.Proofs.Readings
import FlowTyping.Proofs.Rendering
import Mathlib

/-!
# Reading back what was written

`Program.parse_render`: the canonical text of a program that was read from some source is read as the
same program, the spans apart.

The parser runs here on the tokens that `Program.spelling` lists.  There are no line feeds among them,
so it does not matter how many parentheses are open, and a cursor is known by the tokens ahead and its
naming (`Cursor.At`).  `Parser.Reaches` is what a parser does from there; `Expr.laid_iff` tells for each
form which identities and names it meets.
-/

namespace FlowTyping

open Naming

open Token (Key)

/-! ### Up to spans -/

def Ident.unspanned (i : Ident) : Ident := { i with span := ⟨0, 0⟩ }

def Block.unspanned (b : Block α) : Block α :=
  { b with span := ⟨0, 0⟩, params := b.params.map Ident.unspanned }

/-- A layer without the spans that it has itself. -/
def Form.unspanned : Form α → Form α
  | literal v => literal v
  | var name => var name
  | assign target value => assign target.unspanned value
  | call name _ args block => call name ⟨0, 0⟩ args (block.map Block.unspanned)
  | yield args => yield args
  | branch cond thenBody elseBody => branch cond thenBody elseBody
  | loop cond body => loop cond body
  | define d => define ⟨d.name.unspanned, d.params.map Ident.unspanned, d.body⟩

/-- The same expression without its spans. -/
def Expr.unspanned : Expr → Expr := fold fun id _ form => node id ⟨0, 0⟩ form.unspanned

/-- The same program without its spans. -/
def Program.unspanned (p : Program) : Program := ⟨p.stmts.map Expr.unspanned⟩

theorem Expr.unspanned_node (id : NodeId) (span : Span) (form : Form Expr) :
    (node id span form).unspanned = node id ⟨0, 0⟩ (form.map unspanned).unspanned := fold_node ..

/-! ### Tokens ahead -/

/-- The kind of the first of some tokens. -/
def headKind (ks : List Key) : Token.Kind := (ks.head?.map Prod.fst).getD .eof

/-- From the first token on that separates no statements. -/
def dropTerminators (ks : List Key) : List Key := ks.dropWhile (Cursor.isTerminator ·.1)

theorem dropTerminators_semicolon (ks : List Key) :
    dropTerminators ((.semicolon, ";") :: ks) = dropTerminators ks := rfl

@[simp] theorem headKind_cons (k : Key) (ks : List Key) : headKind (k :: ks) = k.1 := rfl

/-- The kinds of the tokens that may follow an expression or a name in a spelling. -/
def followers : List Token.Kind := [.semicolon, .comma, .rparen, .rbrace, .bar, .eof]

def MayFollow (ks : List Key) : Prop := headKind ks ∈ followers

theorem mayFollow_cons {k : Key} {ks : List Key} (h : k.1 ∈ followers) : MayFollow (k :: ks) := h

theorem MayFollow.ne {kind : Token.Kind} {ks : List Key} (h : MayFollow ks) (hkind : kind ∉ followers) :
    headKind ks ≠ kind := fun hks => hkind (hks ▸ h)

/-- The cursor stands before these tokens. -/
structure Cursor.At (c : Cursor) (ks : List Key) (σ : Naming) : Prop where
  keys : c.rest.map Token.key = ks
  plain : Plain ks
  naming : c.naming = σ

namespace Cursor.At
variable {c : Cursor} {k : Key} {ks : List Key} {σ : Naming}

theorem dropNewlines (h : c.At ks σ) : c.rest.dropWhile (·.kind == .newline) = c.rest := by
  cases hrest : c.rest with
  | nil => rfl
  | cons t ts =>
    have hk : t.kind ≠ .newline := (h.plain t.key (by rw [← h.keys, hrest]; exact List.mem_cons_self)).1
    exact List.dropWhile_cons_of_neg (by simpa using hk)

theorem visible (h : c.At ks σ) : c.visible = c.rest := by
  unfold Cursor.visible
  split
  · rfl
  · exact h.dropNewlines

theorem kind (h : c.At ks σ) : c.kind = headKind ks := by
  rw [Cursor.kind, Cursor.current, h.visible, ← h.keys]
  cases c.rest <;> rfl

theorem current (h : c.At (k :: ks) σ) : c.current.key = k := by
  rw [Cursor.current, h.visible]
  have hkeys := h.keys
  cases hrest : c.rest with
  | nil => rw [hrest] at hkeys; cases hkeys
  | cons t ts => rw [hrest] at hkeys; exact (List.cons.inj hkeys).1

theorem next (h : c.At (k :: ks) σ) : c.next.At ks σ := by
  refine ⟨?_, fun k' hk' => h.plain k' (List.mem_cons_of_mem _ hk'), h.naming⟩
  show (c.visible.drop 1).map Token.key = ks
  rw [h.visible, List.map_drop, h.keys]
  rfl

theorem of_rest {d : Cursor} {τ : Naming} (h : c.At ks σ) (hrest : d.rest = c.rest)
    (hτ : d.naming = τ) : d.At ks τ := ⟨hrest ▸ h.keys, h.plain, hτ⟩

theorem skipNewlines (h : c.At ks σ) : c.skipNewlines.At ks σ := h.of_rest h.dropNewlines h.naming

theorem skipTerminators (h : c.At ks σ) : c.skipTerminators.At (dropTerminators ks) σ := by
  refine ⟨?_, fun k' hk' => h.plain k' ((List.dropWhile_sublist _).mem hk'), h.naming⟩
  rw [← h.keys, dropTerminators, List.dropWhile_map]
  rfl

theorem length_rest (h : c.At ks σ) : c.rest.length = ks.length := by rw [← h.keys, List.length_map]

end Cursor.At

/-! ### Steps -/

namespace Parser

/-- From these tokens and naming on, the parser gives a value with the property and ends before those
tokens, with that naming. -/
def Reaches (ks : List Key) (σ : Naming) (m : Parser α) (Q : α → Prop) (ks' : List Key) (τ : Naming) :
    Prop :=
  ∀ ⦃c⦄, c.At ks σ → ∃ a d, m c = .ok a d ∧ Q a ∧ d.At ks' τ

namespace Reaches
variable {m : Parser α} {f : α → Parser β} {Q Q' : α → Prop} {S : β → Prop} {k : Key}
  {ks ks' ks'' : List Key} {σ τ υ : Naming}

theorem mono (h : Reaches ks σ m Q ks' τ) (hQ : ∀ a, Q a → Q' a) : Reaches ks σ m Q' ks' τ := by
  intro c hc
  obtain ⟨a, d, hrun, ha, hd⟩ := h hc
  exact ⟨a, d, hrun, hQ a ha, hd⟩

theorem bind (h : Reaches ks σ m Q ks' τ) (hf : ∀ a, Q a → Reaches ks' τ (f a) S ks'' υ) :
    Reaches ks σ (m >>= f) S ks'' υ := by
  intro c hc
  obtain ⟨a, c', hm, ha, hc'⟩ := h hc
  obtain ⟨b, d, hrun, hb, hd⟩ := hf a ha hc'
  exact ⟨b, d, (bind_of_ok hm).trans hrun, hb, hd⟩

theorem give {a : α} (h : Q a) : Reaches ks σ (pure a) Q ks σ := fun c hc => ⟨a, c, rfl, h, hc⟩

theorem kind : Reaches ks σ kind (· = headKind ks) ks σ := fun c hc => ⟨_, c, rfl, hc.kind, hc⟩

theorem bump : Reaches (k :: ks) σ bump (·.key = k) ks σ := fun _ hc =>
  ⟨_, _, rfl, hc.current, hc.next⟩

theorem eat_self {kind : Token.Kind} (h : k.1 = kind) :
    Reaches (k :: ks) σ (eat kind) (· = true) ks σ :=
  fun _ hc => ⟨true, _, if_pos (hc.kind.trans h), rfl, hc.next⟩

theorem eat_other {kind : Token.Kind} (h : headKind ks ≠ kind) :
    Reaches ks σ (eat kind) (· = false) ks σ :=
  fun c hc => ⟨false, c, if_neg (hc.kind ▸ h), rfl, hc⟩

theorem expect {kind : Token.Kind} (h : k.1 = kind) :
    Reaches (k :: ks) σ (expect kind) (·.key = k) ks σ :=
  fun _ hc => ⟨_, _, if_pos (hc.kind.trans h), hc.current, hc.next⟩

theorem expectEnd (construct : Fault.Construct) (opener : Span) (h : k.1 = .endKw) :
    Reaches (k :: ks) σ (expectEnd construct opener) (fun _ => True) ks σ :=
  fun _ hc => ⟨_, _, if_pos (hc.kind.trans h), trivial, hc.next⟩

theorem skipTerminators :
    Reaches ks σ skipTerminators (fun _ => True) (dropTerminators ks) σ :=
  fun _ hc => ⟨(), _, rfl, trivial, hc.skipTerminators⟩

theorem skipNewlines : Reaches ks σ skipNewlines (fun _ => True) ks σ :=
  fun _ hc => ⟨(), _, rfl, trivial, hc.skipNewlines⟩

theorem expectTerminator (after : Fault.Part) (h : Cursor.isTerminator (headKind ks) = true) :
    Reaches ks σ (expectTerminator after) (fun _ => True) (dropTerminators ks) σ := by
  refine kind.bind fun k hk => ?_
  rw [hk, if_pos h]
  exact skipTerminators

theorem freshId : Reaches ks σ freshId (· = σ.nextId) ks σ.fresh :=
  fun _ hc => ⟨_, _, rfl, congrArg Naming.nextId hc.naming, hc.of_rest rfl (hc.naming ▸ rfl)⟩

theorem isLocal (name : String) : Reaches ks σ (isLocal name) (· = σ.isLocal name) ks σ :=
  fun c hc => ⟨_, c, rfl, congrArg (Naming.isLocal · name) hc.naming, hc⟩

theorem declare (name : String) : Reaches ks σ (declare name) (fun _ => True) ks (σ.declare name) :=
  fun _ hc => ⟨(), _, rfl, trivial, hc.of_rest rfl (hc.naming ▸ rfl)⟩

theorem itemFuel : Reaches ks σ itemFuel (· = ks.length + 1) ks σ :=
  fun c hc => ⟨_, c, rfl, congrArg (· + 1) hc.length_rest, hc⟩

theorem parens (g : Nat → Nat) :
    Reaches ks σ (modify fun c => { c with parens := g c.parens }) (fun _ => True) ks σ :=
  fun _ hc => ⟨(), _, rfl, trivial, hc.of_rest rfl hc.naming⟩

theorem openParen (h : k.1 = .lparen) : Reaches (k :: ks) σ openParen (fun _ => True) ks σ :=
  (expect h).bind fun _ _ => (parens (· + 1)).bind fun _ _ => give trivial

theorem closeParen (h : k.1 = .rparen) : Reaches (k :: ks) σ closeParen (fun _ => True) ks σ :=
  (expect h).bind fun _ _ => (parens (· - 1)).bind fun _ _ => give trivial

theorem withNewlines (h : Reaches ks σ m Q ks' τ) : Reaches ks σ (withNewlines m) Q ks' τ := by
  intro c hc
  exact ((parens fun _ => 0).bind fun _ _ => h.bind fun _ ha =>
    (parens fun _ => c.parens).bind fun _ _ => give ha) hc

theorem locals (g : List LocalScope → List LocalScope) :
    Reaches ks σ (modify fun c => { c with locals := g c.locals }) (fun _ => True) ks
      { σ with locals := g σ.locals } :=
  fun _ hc => ⟨(), _, rfl, trivial, hc.of_rest rfl (hc.naming ▸ rfl)⟩

theorem inScope {closed : Bool} (h : Reaches ks (σ.enter closed) m Q ks' τ) :
    Reaches ks σ (inScope closed m) Q ks' τ.leave :=
  (locals (⟨closed, []⟩ :: ·)).bind fun _ _ => h.bind fun _ ha =>
    (locals (·.drop 1)).bind fun _ _ => give ha

theorem forM_declare (params : List Ident) :
    Reaches ks σ (params.forM fun p => Parser.declare p.name) (fun _ => True) ks
      (σ.declareAll params) := by
  induction params generalizing σ with
  | nil => exact give trivial
  | cons p params ih => exact (declare p.name).bind fun _ _ => ih

/-- Items with commas between them are read one after the other.  A comma goes with each of them, so
the tokens ahead bound the fuel that is used. -/
theorem commaList {item : Parser α} {spell : α → List Key} {bare : α → γ}
    {R : Naming → α → Naming → Prop} {items : List α} {fuel : Nat} {rest : List Key}
    (h : ∀ a ∈ items, ∀ ⦃σ τ rest⦄, R σ a τ → MayFollow rest →
      Reaches (spell a ++ rest) σ item (fun b => bare b = bare a) rest τ)
    (hne : items ≠ []) (hlaid : Run R σ items τ) (hrest : MayFollow rest)
    (hcomma : headKind rest ≠ .comma)
    (hfuel : (listKeys (items.map spell) ++ rest).length < fuel) :
    Reaches (listKeys (items.map spell) ++ rest) σ (commaList item (pure ()) fuel)
      (fun bs => bs.map bare = items.map bare) rest τ := by
  induction items generalizing σ fuel with
  | nil => exact absurd rfl hne
  | cons a items ih =>
    obtain ⟨ρ, ha, hlaid⟩ := hlaid
    have hitem (ks : List Key) (hks : MayFollow ks) := h a List.mem_cons_self ha hks
    obtain _ | fuel := fuel
    · exact absurd hfuel (Nat.not_lt_zero _)
    cases items with
    | nil =>
      obtain rfl := hlaid
      have hkeys : listKeys ([a].map spell) ++ rest = spell a ++ rest := by simp [listKeys]
      rw [hkeys]
      refine (hitem rest hrest).bind fun b hb => (eat_other hcomma).bind fun more hmore => ?_
      rw [hmore]
      exact give (congrArg (List.cons · []) hb)
    | cons a' items =>
      have hkeys : listKeys ((a :: a' :: items).map spell) ++ rest =
          spell a ++ ((.comma, ",") :: (listKeys ((a' :: items).map spell) ++ rest)) := by
        simp [listKeys, List.intercalate_cons_cons]
      rw [hkeys] at hfuel ⊢
      refine (hitem _ (mayFollow_cons (by decide))).bind fun b hb => ?_
      refine (eat_self rfl).bind fun more hmore => ?_
      rw [hmore]
      refine (give (Q := fun _ => True) trivial).bind fun _ _ => ?_
      have hshorter : (listKeys ((a' :: items).map spell) ++ rest).length < fuel := by
        simp only [List.length_append, List.length_cons] at hfuel ⊢
        omega
      have hitems : ∀ a'' ∈ a' :: items, _ := fun a'' ha'' => h a'' (List.mem_cons_of_mem _ ha'')
      have htail := ih hitems (List.cons_ne_nil _ _) hlaid hshorter
      exact htail.bind fun bs hbs => give (congrArg₂ List.cons hb hbs)

end Reaches

theorem intercalate_cons_eq (sep ks : List Key) (items : List (List Key)) :
    ∃ ks', sep.intercalate (ks :: items) = ks ++ ks' := by
  cases items with
  | nil => exact ⟨[], by simp⟩
  | cons ks' items => exact ⟨_, by rw [List.intercalate_cons_cons, List.append_assoc]⟩

/-! ### Names -/

theorem headKind_names {params : List Ident} (hne : params ≠ []) (ks : List Key) :
    headKind (namesKeys params ++ ks) = .ident := by
  obtain ⟨i, params, rfl⟩ := List.exists_cons_of_ne_nil hne
  obtain ⟨ks', hks'⟩ := intercalate_cons_eq [(.comma, ",")] i.spelling (params.map Ident.spelling)
  rw [namesKeys, listKeys, List.map_cons, hks']
  rfl

theorem reaches_ident {i : Ident} {σ τ : Naming} {rest : List Key} (h : Names σ i τ) :
    Reaches (i.spelling ++ rest) σ ident (fun j => j.unspanned = i.unspanned) rest τ := by
  obtain ⟨-, hid, rfl⟩ := h
  refine (Reaches.expect rfl).bind fun t ht => Reaches.freshId.bind fun id hid' => Reaches.give ?_
  cases i
  have hname := congrArg Prod.snd ht
  simp only [Ident.unspanned, Ident.mk.injEq, and_true]
  exact ⟨hid'.trans hid.symm, hname⟩

theorem reaches_idents {params : List Ident} {σ τ : Naming} {rest : List Key} (hne : params ≠ [])
    (h : Run Names σ params τ) (hrest : MayFollow rest) (hcomma : headKind rest ≠ .comma) :
    Reaches (namesKeys params ++ rest) σ idents
      (fun ps => ps.map Ident.unspanned = params.map Ident.unspanned) rest τ := by
  refine Reaches.itemFuel.bind fun fuel hfuel => ?_
  rw [hfuel]
  exact Reaches.commaList (fun i _ _ _ _ hi _ => reaches_ident hi) hne h hrest hcomma
    (Nat.lt_succ_self _)

/-- The numbers of names do not hang on the scope that they are read in. -/
theorem exists_run_names {params : List Ident} {σ ρ : Naming} {closed : Bool}
    (h : Run Names (σ.enter closed) params ρ) : ∃ υ, Run Names σ params υ ∧ ρ = υ.enter closed := by
  induction params generalizing σ with
  | nil => exact ⟨σ, rfl, h⟩
  | cons i params ih =>
    obtain ⟨_, ⟨hname, hid, rfl⟩, hrest⟩ := h
    obtain ⟨υ, hυ, rfl⟩ := ih (σ := σ.fresh) hrest
    exact ⟨υ, ⟨σ.fresh, ⟨hname, hid, rfl⟩, hυ⟩, rfl⟩

/-- Parameters that agree up to their spans declare the same names. -/
theorem declareAll_congr {params params' : List Ident} (σ : Naming)
    (h : params.map Ident.unspanned = params'.map Ident.unspanned) :
    σ.declareAll params = σ.declareAll params' := by
  have hnames (ps : List Ident) : σ.declareAll ps =
      ((ps.map Ident.unspanned).map Ident.name).foldl Naming.declare σ := by
    rw [List.map_map, List.foldl_map]
    rfl
  rw [hnames, hnames, h]

/-! ### Statements -/

/-- The kinds of tokens that no expression starts with and that end lists of expressions or names. -/
def stoppers : List Token.Kind :=
  [.newline, .semicolon, .rparen, .rbrace, .bar, .elsifKw, .elseKw, .endKw, .eof]

theorem isTerminator_eq_false {kind : Token.Kind} (h : kind ∉ stoppers) :
    Cursor.isTerminator kind = false := by
  simp only [stoppers, List.mem_cons, not_or] at h
  simp [Cursor.isTerminator, h.1, h.2.1]

theorem closes_eq_false {closers : List Token.Kind} {kind : Token.Kind}
    (hclosers : ∀ k ∈ closers, k ∈ stoppers) (h : kind ∉ stoppers) : closes closers kind = false := by
  have heof : kind ≠ .eof := by rintro rfl; exact h (by decide)
  have hmem : kind ∉ closers := fun hmem => h (hclosers kind hmem)
  simp [closes, heof, hmem]

theorem dropTerminators_of_head {ks : List Key} (h : headKind ks ∉ stoppers) :
    dropTerminators ks = ks := by
  cases ks with
  | nil => rfl
  | cons k ks => exact List.dropWhile_cons_of_neg (by simpa using isTerminator_eq_false h)

/-- An expression does not start like the end of a list. -/
theorem headKind_spelling (e : Expr) (ks : List Key) : headKind (e.spelling ++ ks) ∉ stoppers := by
  obtain ⟨id, span, form⟩ := e
  rw [Expr.spelling_node]
  cases form with
  | literal v =>
    show v.kind ∉ stoppers
    rcases v with _ | _ | _ | _ | (_ | _) | _ <;> simp [Literal.kind, stoppers]
  | _ => simp [Form.map, Form.spelling, Ident.spelling, stoppers]

/-- Nor do several expressions. -/
theorem headKind_items {es : List Expr} (hne : es ≠ []) (sep ks : List Key) :
    headKind (sep.intercalate (es.map Expr.spelling) ++ ks) ∉ stoppers := by
  obtain ⟨e, es, rfl⟩ := List.exists_cons_of_ne_nil hne
  obtain ⟨ks', hks'⟩ := intercalate_cons_eq sep e.spelling (es.map Expr.spelling)
  rw [List.map_cons, hks', List.append_assoc]
  exact headKind_spelling e _

theorem spelling_length_pos (e : Expr) : 0 < e.spelling.length := by
  have hhead := headKind_spelling e []
  cases hspelling : e.spelling with
  | nil => rw [hspelling] at hhead; exact absurd (by decide) hhead
  | cons k ks => exact Nat.zero_lt_succ _

/-- The parser of expressions reads back the expression wherever it stands. -/
def Restores (expr : ExprParser) (e : Expr) : Prop :=
  ∀ allowDo ⦃σ τ rest⦄, e.Laid σ τ → MayFollow rest →
    Reaches (e.spelling ++ rest) σ (expr allowDo) (fun r => r.unspanned = e.unspanned) rest τ

/-- What follows the statements of a body: their end, with a semicolon before it or without. -/
structure Ends (closers : List Token.Kind) (ks : List Key) : Prop where
  follows : MayFollow ks
  stops : (Cursor.isTerminator (headKind ks) || closes closers (headKind ks)) = true
  closes : closes closers (headKind (dropTerminators ks)) = true

theorem ends_end (rest : List Key) : Ends [.endKw] ((.semicolon, ";") :: (.endKw, "end") :: rest) :=
  ⟨mayFollow_cons (by decide), rfl, rfl⟩

/-- What stands behind the first of some statements. -/
theorem Ends.behind {closers : List Token.Kind} {rest : List Key} (h : Ends closers rest) (e : Expr)
    (stmts : List Expr) : ∃ ks,
      sequenceKeys ((e :: stmts).map Expr.spelling) ++ rest = e.spelling ++ ks ∧ MayFollow ks ∧
      (Cursor.isTerminator (headKind ks) || Parser.closes closers (headKind ks)) = true ∧
      dropTerminators ks = dropTerminators (sequenceKeys (stmts.map Expr.spelling) ++ rest) := by
  cases stmts with
  | nil => exact ⟨rest, by simp [sequenceKeys], h.follows, h.stops, rfl⟩
  | cons e' stmts =>
    refine ⟨(.semicolon, ";") :: (sequenceKeys ((e' :: stmts).map Expr.spelling) ++ rest), ?_,
      mayFollow_cons (by decide), rfl, rfl⟩
    simp [sequenceKeys, List.intercalate_cons_cons]

section
variable {expr : ExprParser} {closers : List Token.Kind} {stmts : List Expr} {rest : List Key}

/-- Statements are read back from wherever the skipped terminators lead to them.  Each takes a token
at least, so the tokens ahead bound the fuel that is used. -/
theorem restores_statements (hclosers : ∀ k ∈ closers, k ∈ stoppers) (hends : Ends closers rest)
    (h : ∀ e ∈ stmts, Restores expr e) {σ τ : Naming} {fuel : Nat} {c : Cursor} {ks : List Key}
    (hlaid : LaidAll σ stmts τ) (hc : c.At ks σ)
    (hks : dropTerminators ks = dropTerminators (sequenceKeys (stmts.map Expr.spelling) ++ rest))
    (hfuel : ks.length < fuel) :
    ∃ stmts' d, statements expr closers fuel c = (stmts', .ok () d) ∧
      stmts'.map Expr.unspanned = stmts.map Expr.unspanned ∧ d.At (dropTerminators rest) τ := by
  induction stmts generalizing σ fuel c ks with
  | nil =>
    obtain rfl := hlaid
    obtain _ | fuel := fuel
    · exact absurd hfuel (Nat.not_lt_zero _)
    have hskip := hc.skipTerminators
    rw [show dropTerminators ks = dropTerminators rest from hks] at hskip
    refine ⟨[], _, ?_, rfl, hskip⟩
    rw [statements, hskip.kind, if_pos hends.closes]
  | cons e stmts ih =>
    obtain ⟨ρ, he, hlaid⟩ := hlaid
    obtain _ | fuel := fuel
    · exact absurd hfuel (Nat.not_lt_zero _)
    obtain ⟨ks', hbehind, hfollows, hstops, hks'⟩ := hends.behind e stmts
    have hhead := headKind_spelling e ks'
    rw [hbehind, dropTerminators_of_head hhead] at hks
    have hskip := hc.skipTerminators
    rw [hks] at hskip
    obtain ⟨stmt, c', hrun, hstmt, hc'⟩ := h e List.mem_cons_self true he hfollows hskip
    have hshorter : ks'.length < fuel := by
      have hle : (dropTerminators ks).length ≤ ks.length := (List.dropWhile_sublist _).length_le
      have hpos := spelling_length_pos e
      rw [hks, List.length_append] at hle
      omega
    obtain ⟨stmts', d, hrest, hstmts, hd⟩ := ih (fun e he => h e (List.mem_cons_of_mem _ he)) hlaid
      hc' hks' hshorter
    refine ⟨stmt :: stmts', d, ?_, congrArg₂ List.cons hstmt hstmts, hd⟩
    rw [statements, hskip.kind, closes_eq_false hclosers hhead, if_neg Bool.false_ne_true, hrun]
    simp only
    rw [hc'.kind, if_pos hstops, hrest]

theorem restores_body (hclosers : ∀ k ∈ closers, k ∈ stoppers) (hends : Ends closers rest)
    (h : ∀ e ∈ stmts, Restores expr e) {σ τ : Naming} {ks : List Key} (hlaid : LaidAll σ stmts τ)
    (hks : dropTerminators ks = dropTerminators (sequenceKeys (stmts.map Expr.spelling) ++ rest)) :
    Reaches ks σ (body expr closers) (fun r => r.map Expr.unspanned = stmts.map Expr.unspanned)
      (dropTerminators rest) τ := by
  intro c hc
  have hfuel : ks.length < c.rest.length + 1 := by rw [hc.length_rest]; exact Nat.lt_succ_self _
  obtain ⟨stmts', d, hrun, hstmts, hd⟩ := restores_statements hclosers hends h hlaid hc hks hfuel
  exact ⟨stmts', d, by rw [body, hrun], hstmts, hd⟩

/-! ### Arguments and blocks -/

theorem restores_parenArgs {es : List Expr} (h : ∀ e ∈ es, Restores expr e) {σ τ : Naming}
    (hlaid : LaidAll σ es τ) :
    Reaches ((.lparen, "(") :: (listKeys (es.map Expr.spelling) ++ (.rparen, ")") :: rest)) σ
      (parenArgs expr) (fun r => r.1.map Expr.unspanned = es.map Expr.unspanned) rest τ := by
  refine (Reaches.openParen rfl).bind fun _ _ => Reaches.kind.bind fun k hk => ?_
  have hclose (es' : List Expr) (hes' : es'.map Expr.unspanned = es.map Expr.unspanned) :
      Reaches ((.rparen, ")") :: rest) τ (closeParen >>= fun close => pure (es', close.span))
        (fun r => r.1.map Expr.unspanned = es.map Expr.unspanned) rest τ :=
    (Reaches.closeParen rfl).bind fun _ _ => .give hes'
  show Reaches _ _ (ite _ _ _) _ _ _
  cases es with
  | nil =>
    obtain rfl := hlaid
    rw [if_pos (show k = .rparen from hk)]
    exact hclose [] rfl
  | cons e es =>
    have hhead : k ≠ .rparen := by
      have hitems := headKind_items (List.cons_ne_nil e es) [(.comma, ",")] ((.rparen, ")") :: rest)
      rintro rfl
      exact hitems (hk ▸ by decide)
    rw [if_neg hhead]
    refine Reaches.itemFuel.bind fun fuel hfuel => ?_
    rw [hfuel]
    have hfollows : MayFollow ((.rparen, ")") :: rest) := mayFollow_cons (by decide)
    have hitems := Reaches.commaList (fun e he _ _ _ he' hrest => h e he true he' hrest)
      (List.cons_ne_nil _ _) hlaid hfollows (by simp) (Nat.lt_succ_self _)
    exact hitems.bind hclose

theorem restores_args {es : List Expr} (h : ∀ e ∈ es, Restores expr e) {σ τ : Naming}
    (hlaid : LaidAll σ es τ) (span : Span) :
    Reaches ((.lparen, "(") :: (listKeys (es.map Expr.spelling) ++ (.rparen, ")") :: rest)) σ
      (args expr span) (fun r => r.1.map Expr.unspanned = es.map Expr.unspanned) rest τ := by
  refine Reaches.kind.bind fun k hk => ?_
  rw [if_pos (show k = .lparen from hk)]
  exact (restores_parenArgs h hlaid).bind fun r hr => .give hr

theorem restores_blockParams {params : List Ident} {σ τ : Naming} (hlaid : Run Names σ params τ)
    (hbar : headKind rest ≠ .bar) :
    Reaches ((if params = [] then [] else [(.bar, "|")] ++ namesKeys params ++ [(.bar, "|")]) ++ rest) σ
      blockParams (fun ps => ps.map Ident.unspanned = params.map Ident.unspanned) rest τ := by
  by_cases hparams : params = []
  · subst hparams
    obtain rfl := hlaid
    exact (Reaches.eat_other hbar).bind fun more hmore => by rw [hmore]; exact .give rfl
  · rw [if_neg hparams]
    simp only [List.append_assoc, List.cons_append, List.nil_append]
    refine (Reaches.eat_self rfl).bind fun more hmore => ?_
    rw [hmore]
    refine Reaches.kind.bind fun k hk => ?_
    have hhead : k ≠ .bar := by rw [hk, headKind_names hparams]; decide
    show Reaches _ _ (ite _ _ _) _ _ _
    rw [if_neg hhead]
    refine (reaches_idents hparams hlaid (mayFollow_cons (by decide)) (by simp)).bind fun ps hps => ?_
    exact (Reaches.expect rfl).bind fun _ _ => .give hps

theorem restores_blockContents {params : List Ident} {body : List Expr} {σ τ : Naming}
    (h : ∀ e ∈ body, Restores expr e) (hlaid : Scoped Expr.Laid false σ params body τ) :
    Reaches ((if params = [] then [] else [(.bar, "|")] ++ namesKeys params ++ [(.bar, "|")]) ++
        (sequenceKeys (body.map Expr.spelling) ++ (.rbrace, "\x7d") :: rest)) σ
      (blockContents expr .rbrace)
      (fun r => r.1.map Ident.unspanned = params.map Ident.unspanned ∧
        r.2.map Expr.unspanned = body.map Expr.unspanned) ((.rbrace, "\x7d") :: rest) τ := by
  obtain ⟨ρ, υ, hparams, hbody, rfl⟩ := hlaid
  have hends : Ends [.rbrace] ((.rbrace, "\x7d") :: rest) := ⟨mayFollow_cons (by decide), rfl, rfl⟩
  have hbar : headKind (sequenceKeys (body.map Expr.spelling) ++ (.rbrace, "\x7d") :: rest) ≠ .bar := by
    intro heq
    by_cases hbody : body = []
    · subst hbody
      exact absurd heq (show Token.Kind.rbrace ≠ .bar by decide)
    · have hitems := headKind_items hbody [(.semicolon, ";")] ((.rbrace, "\x7d") :: rest)
      rw [sequenceKeys] at heq
      exact hitems (heq ▸ by decide)
  refine Reaches.inScope (.withNewlines ?_)
  refine (restores_blockParams hparams hbar).bind fun ps hps => ?_
  refine (Reaches.forM_declare ps).bind fun _ _ => ?_
  rw [declareAll_congr ρ hps]
  exact (restores_body (by decide) hends h hbody rfl).bind fun stmts hstmts => .give ⟨hps, hstmts⟩

theorem restores_block? {block : Option (Block Expr)}
    (h : ∀ b ∈ block, ∀ e ∈ b.body, Restores expr e) {σ τ : Naming}
    (hlaid : Block.LaidBy Expr.Laid σ block τ) (hrest : MayFollow rest) (allowDo : Bool) :
    Reaches (Block.spelling (block.map (Block.map Expr.spelling)) ++ rest) σ (block? expr allowDo)
      (fun r => (r.map (Block.map Expr.unspanned)).map Block.unspanned =
        (block.map (Block.map Expr.unspanned)).map Block.unspanned) rest τ := by
  refine Reaches.kind.bind fun k hk => ?_
  cases block with
  | none =>
    obtain rfl := hlaid
    have hbrace : k ≠ .lbrace := hk ▸ hrest.ne (by decide)
    rw [if_neg hbrace]
    refine Reaches.kind.bind fun k' hk' => ?_
    have hdo : k' ≠ .doKw := hk' ▸ hrest.ne (by decide)
    rw [if_neg (by simp [hdo])]
    exact .give rfl
  | some b =>
    obtain ⟨ρ, hscoped, hid, rfl⟩ := hlaid
    rw [if_pos (show k = .lbrace from hk)]
    have hblock : Reaches (Block.spelling (some (b.map Expr.spelling)) ++ rest) σ (braceBlock expr)
        (fun r => (r.map Expr.unspanned).unspanned = (b.map Expr.unspanned).unspanned) rest
        ρ.fresh := by
      simp only [Block.spelling, List.append_assoc, List.singleton_append]
      refine Reaches.bump.bind fun opener _ => ?_
      refine (restores_blockContents (h b rfl) hscoped).bind fun r hr => ?_
      refine (Reaches.expect rfl).bind fun close _ => Reaches.freshId.bind fun id hid' => .give ?_
      simp only [Block.map, Block.unspanned, hid', hid, hr.1, hr.2]
    exact hblock.bind fun r hr => .give (congrArg some hr)

/-! ### Expressions -/

/-- The parser reads back a node of this form, whose parts end at the naming `τ`. -/
def Regains (σ : Naming) (m : Parser Expr) (form : Form Expr) (rest : List Key) (τ : Naming) : Prop :=
  Reaches ((form.map Expr.spelling).spelling ++ rest) σ m
    (fun r => r.unspanned = .node τ.nextId ⟨0, 0⟩ (form.map Expr.unspanned).unspanned) rest τ.fresh

theorem Regains.intro {σ τ : Naming} {m : Parser Expr} {form : Form Expr} {ks rest : List Key}
    (hks : (form.map Expr.spelling).spelling ++ rest = ks)
    (h : Reaches ks σ m
      (fun r => r.unspanned = .node τ.nextId ⟨0, 0⟩ (form.map Expr.unspanned).unspanned) rest τ.fresh) :
    Regains σ m form rest τ := by
  rw [Regains, hks]
  exact h

/-- At the end of a production the node gets its identity. -/
theorem reaches_node {form form' : Form Expr} {ks : List Key} {σ : Naming} {span : Span}
    (h : (form'.map Expr.unspanned).unspanned = (form.map Expr.unspanned).unspanned) :
    Reaches ks σ (freshId >>= fun id => pure (Expr.node id span form'))
      (fun r => r.unspanned = .node σ.nextId ⟨0, 0⟩ (form.map Expr.unspanned).unspanned) ks σ.fresh :=
  Reaches.freshId.bind fun id hid => .give (by rw [Expr.unspanned_node, h, hid])

theorem unescape_insideQuotes (quote : Char) (hquote : escaped? quote = some quote) (cs : List Char) :
    unescape (insideQuotes (Literal.quoted quote cs)) = .ok cs := by
  rw [insideQuotes, Literal.quoted, List.tail_cons, List.dropLast_concat, unescape_escaped hquote]

theorem intValue_digits {v : Int64} (h : 0 ≤ v.toInt) :
    intValue (Decimal.intDigits v.toInt) = .ok (.int v) := by
  have hdigits : withoutSeparators (Decimal.digits v.toInt.natAbs) = Decimal.digits v.toInt.natAbs := by
    refine List.filter_eq_self.2 fun d hd => ?_
    have hdigit := Decimal.isDigit_of_mem_digits hd
    simp only [bne_iff_ne]
    rintro rfl
    exact absurd hdigit (by decide)
  have hlt : v.toInt.natAbs < 0x8000000000000000 := by
    have := v.toInt_lt
    omega
  have hvalue : Int64.ofNat v.toInt.natAbs = v := by
    rw [← Int64.toInt_inj, Int64.toInt_ofNat_of_lt hlt]
    omega
  rw [intValue, Decimal.intDigits, if_neg (Int.not_lt.2 h), hdigits, Decimal.ofDigits_digits]
  simp only [if_pos hlt, hvalue]

theorem literal?_of_key {t : Token} {v : Literal} (ht : t.key = v.key) (h : v.Spellable)
    (hfloat : ∀ x, v ≠ .float x) : t.literal? = some (.ok v) := by
  obtain ⟨hkind, htext⟩ := Prod.mk.inj ht
  unfold Token.literal?
  rw [hkind, htext]
  cases v with
  | int v => simp only [Literal.kind, Literal.text, String.toList_ofList, intValue_digits h]
  | float x => exact absurd rfl (hfloat x)
  | char c =>
    have hinside := unescape_insideQuotes '\'' rfl [c]
    simp only [Literal.kind, Literal.text, String.toList_ofList, charValue, hinside]
    rfl
  | str s =>
    have hinside := unescape_insideQuotes '"' rfl s.toList
    simp only [Literal.kind, Literal.text, String.toList_ofList, stringValue, hinside]
    simp [Except.map]
  | bool b => cases b <;> rfl
  | nil => rfl

theorem regains_literal (expr : ExprParser) {v : Literal} {σ : Naming} (h : v.Spellable)
    (hfloat : ∀ x, v ≠ .float x) : Regains σ (primary expr) (.literal v) rest σ := by
  intro c hc
  have hliteral := literal?_of_key hc.current h hfloat
  rw [primary_run, hliteral]
  exact (Reaches.bump.bind fun _ _ => reaches_node rfl) hc

theorem regains_assign {target : Ident} {value : Expr} {σ τ : Naming} (h : Restores expr value)
    (hid : target.id = σ.nextId) (hvalue : value.Laid (σ.declare target.name).fresh τ)
    (hrest : MayFollow rest) (allowDo : Bool) :
    Regains σ (assignment expr allowDo) (.assign target value) rest τ := by
  refine .intro (show _ = (.ident, target.name) :: (.eq, "=") :: (value.spelling ++ rest) by
    simp [Form.map, Form.spelling, Ident.spelling]) ?_
  refine Reaches.bump.bind fun name hname => Reaches.bump.bind fun _ _ => ?_
  refine Reaches.skipNewlines.bind fun _ _ => ?_
  have htext : name.text = target.name := congrArg Prod.snd hname
  rw [htext]
  refine (Reaches.declare _).bind fun _ _ => Reaches.freshId.bind fun id hid' => ?_
  refine (h allowDo hvalue hrest).bind fun r hr => reaches_node ?_
  simp only [Form.map, Form.unspanned, Ident.unspanned, hr, hid, hid']
  rfl

theorem regains_var (expr : ExprParser) {name : String} {σ : Naming} (h : σ.isLocal name = true)
    (hrest : MayFollow rest) (allowDo : Bool) : Regains σ (nameExpr expr allowDo) (.var name) rest σ := by
  refine Reaches.bump.bind fun t ht => (Reaches.isLocal _).bind fun known hknown => ?_
  have htext : t.text = name := congrArg Prod.snd ht
  rw [htext] at hknown ⊢
  rw [hknown, h]
  refine Reaches.kind.bind fun k hk => ?_
  have hparen : k ≠ .lparen := hk ▸ hrest.ne (by decide)
  rw [if_pos (by simp [hparen])]
  exact reaches_node rfl

theorem regains_call {name : String} {nameSpan : Span} {es : List Expr} {block : Option (Block Expr)}
    (hargs : ∀ e ∈ es, Restores expr e) (hblock : ∀ b ∈ block, ∀ e ∈ b.body, Restores expr e)
    {σ ρ τ : Naming} (hlaid : LaidAll σ es ρ) (hlaid' : Block.LaidBy Expr.Laid ρ block τ)
    (hrest : MayFollow rest) (allowDo : Bool) :
    Regains σ (nameExpr expr allowDo) (.call name nameSpan es block) rest τ := by
  refine .intro (show _ = (.ident, name) :: (.lparen, "(") :: (listKeys (es.map Expr.spelling) ++
    (.rparen, ")") :: (Block.spelling (block.map (Block.map Expr.spelling)) ++ rest)) by
      simp [Form.map, Form.spelling]) ?_
  refine Reaches.bump.bind fun t ht => (Reaches.isLocal _).bind fun known _ => ?_
  have htext : t.text = name := congrArg Prod.snd ht
  rw [htext]
  refine Reaches.kind.bind fun k hk => ?_
  have hparen : k = .lparen := hk
  rw [if_neg (by simp [hparen])]
  refine (restores_args hargs hlaid t.span).bind fun r hr => ?_
  refine (restores_block? hblock hlaid' hrest allowDo).bind fun b hb => reaches_node ?_
  simp only [Form.map, Form.unspanned, hr, hb]

theorem regains_yield {es : List Expr} (h : ∀ e ∈ es, Restores expr e) {σ τ : Naming}
    (hlaid : LaidAll σ es τ) : Regains σ (yieldExpr expr) (.yield es) rest τ := by
  refine .intro (show _ = (.yieldKw, "yield") :: (.lparen, "(") ::
    (listKeys (es.map Expr.spelling) ++ (.rparen, ")") :: rest) by simp [Form.map, Form.spelling]) ?_
  refine Reaches.bump.bind fun keyword _ => (restores_args h hlaid _).bind fun r hr => reaches_node ?_
  simp only [Form.map, Form.unspanned, hr]

theorem regains_branch {cond : Expr} {thenBody : List Expr} {elseBody : Option (List Expr)}
    (hcond : Restores expr cond) (hthen : ∀ e ∈ thenBody, Restores expr e)
    (helse : ∀ es ∈ elseBody, ∀ e ∈ es, Restores expr e) {σ ρ υ τ : Naming} (hlaid : cond.Laid σ ρ)
    (hlaid' : LaidAll ρ thenBody υ) (hlaid'' : LaidAll υ (elseBody.getD []) τ) :
    Regains σ (branchExpr expr) (.branch cond thenBody elseBody) rest τ := by
  refine .intro (show _ = (.ifKw, "if") :: (cond.spelling ++ (.semicolon, ";") ::
    (sequenceKeys (thenBody.map Expr.spelling) ++ (.semicolon, ";") ::
      (elseKeys (elseBody.map (List.map Expr.spelling)) ++ (.endKw, "end") :: rest))) by
        simp [Form.map, Form.spelling]) ?_
  refine Reaches.bump.bind fun keyword _ => Reaches.itemFuel.bind fun fuel hfuel => ?_
  rw [hfuel]
  refine (hcond true hlaid (mayFollow_cons (by decide))).bind fun c hc => ?_
  refine (Reaches.expectTerminator _ rfl).bind fun _ _ => ?_
  cases elseBody with
  | none =>
    obtain rfl := hlaid''
    have hends : Ends [.elsifKw, .elseKw, .endKw] ((.semicolon, ";") :: (.endKw, "end") :: rest) :=
      ⟨mayFollow_cons (by decide), rfl, rfl⟩
    refine (restores_body (by decide) hends hthen hlaid' (List.dropWhile_idempotent _ _)).bind
      fun t ht => Reaches.kind.bind fun k hk => ?_
    obtain rfl : k = .endKw := hk
    refine (Reaches.expectEnd _ _ rfl).bind fun close _ => reaches_node ?_
    simp only [Form.map, Form.unspanned, hc, ht, Option.map_none]
  | some es =>
    have hends : Ends [.elsifKw, .elseKw, .endKw] ((.semicolon, ";") :: (.elseKw, "else") ::
        (.semicolon, ";") :: (sequenceKeys (es.map Expr.spelling) ++ (.semicolon, ";") ::
          (.endKw, "end") :: rest)) := ⟨mayFollow_cons (by decide), rfl, rfl⟩
    have hkeys : elseKeys (some (es.map Expr.spelling)) ++ (.endKw, "end") :: rest =
        (.elseKw, "else") :: (.semicolon, ";") :: (sequenceKeys (es.map Expr.spelling) ++
          (.semicolon, ";") :: (.endKw, "end") :: rest) := by simp [elseKeys]
    rw [Option.map_some, hkeys]
    refine (restores_body (by decide) hends hthen hlaid' (List.dropWhile_idempotent _ _)).bind
      fun t ht => Reaches.kind.bind fun k hk => ?_
    obtain rfl : k = .elseKw := hk
    refine Reaches.bump.bind fun _ _ => ?_
    refine (restores_body (by decide) (ends_end rest) (helse es rfl) hlaid''
      (dropTerminators_semicolon _)).bind fun e he => ?_
    refine (Reaches.expectEnd _ _ rfl).bind fun close _ => reaches_node ?_
    simp only [Form.map, Form.unspanned, hc, ht, he, Option.map_some]

theorem regains_loop {cond : Expr} {body : List Expr} (hcond : Restores expr cond)
    (hbody : ∀ e ∈ body, Restores expr e) {σ ρ τ : Naming} (hlaid : cond.Laid σ ρ)
    (hlaid' : LaidAll ρ body τ) : Regains σ (loopExpr expr) (.loop cond body) rest τ := by
  refine .intro (show _ = (.whileKw, "while") :: (cond.spelling ++ (.semicolon, ";") ::
    (sequenceKeys (body.map Expr.spelling) ++ (.semicolon, ";") :: (.endKw, "end") :: rest)) by
      simp [Form.map, Form.spelling]) ?_
  refine Reaches.bump.bind fun keyword _ => ?_
  refine (hcond false hlaid (mayFollow_cons (by decide))).bind fun c hc => ?_
  refine (Reaches.eat_other (by simp)).bind fun more hmore => ?_
  rw [hmore]
  refine (Reaches.expectTerminator _ rfl).bind fun _ _ => ?_
  refine (restores_body (by decide) (ends_end rest) hbody hlaid'
    (List.dropWhile_idempotent _ _)).bind fun b hb => ?_
  refine (Reaches.expectEnd _ _ rfl).bind fun close _ => reaches_node ?_
  simp only [Form.map, Form.unspanned, hc, hb]

theorem restores_defParams {params : List Ident} {σ τ : Naming} {ks : List Key}
    (hlaid : Run Names σ params τ) :
    Reaches ((.lparen, "(") :: (namesKeys params ++ (.rparen, ")") :: ks)) σ defParams
      (fun ps => ps.map Ident.unspanned = params.map Ident.unspanned) (dropTerminators ks) τ := by
  refine Reaches.kind.bind fun k hk => ?_
  rw [if_pos (show k = .lparen from hk)]
  refine (Reaches.openParen rfl).bind fun _ _ => Reaches.kind.bind fun k hk => ?_
  have hclose (ps : List Ident) (hps : ps.map Ident.unspanned = params.map Ident.unspanned) :
      Reaches ((.rparen, ")") :: ks) τ (do let _ ← closeParen; skipTerminators; return ps)
        (fun ps => ps.map Ident.unspanned = params.map Ident.unspanned) (dropTerminators ks) τ :=
    (Reaches.closeParen rfl).bind fun _ _ => Reaches.skipTerminators.bind fun _ _ => .give hps
  show Reaches _ _ (ite _ _ _) _ _ _
  by_cases hparams : params = []
  · subst hparams
    obtain rfl := hlaid
    rw [if_pos (show k = .rparen from hk)]
    exact hclose [] rfl
  · have hhead : k ≠ .rparen := by rw [hk, headKind_names hparams]; decide
    rw [if_neg hhead]
    exact (reaches_idents hparams hlaid (mayFollow_cons (by decide)) (by simp)).bind hclose

theorem regains_define {d : Definition Expr} (h : ∀ e ∈ d.body, Restores expr e) {σ τ : Naming}
    (hname : Names σ d.name σ.fresh) (hlaid : Scoped Expr.Laid true σ.fresh d.params d.body τ) :
    Regains σ (defExpr expr) (.define d) rest τ := by
  refine .intro (show _ = (.defKw, "def") :: (d.name.spelling ++ (.lparen, "(") ::
    (namesKeys d.params ++ (.rparen, ")") :: (.semicolon, ";") ::
      (sequenceKeys (d.body.map Expr.spelling) ++ (.semicolon, ";") :: (.endKw, "end") :: rest))) by
        simp [Form.map, Form.spelling, Definition.map]) ?_
  obtain ⟨_, υ, hentered, hbody, rfl⟩ := hlaid
  obtain ⟨ρ, hparams, rfl⟩ := exists_run_names hentered
  refine Reaches.bump.bind fun keyword _ => (reaches_ident hname).bind fun name hname' => ?_
  refine (restores_defParams hparams).bind fun ps hps => ?_
  have hstmts : Reaches (dropTerminators ((.semicolon, ";") ::
      (sequenceKeys (d.body.map Expr.spelling) ++ (.semicolon, ";") :: (.endKw, "end") :: rest)))
      (ρ.enter true)
      (do ps.forM fun p => declare p.name
          withNewlines (body expr [.endKw]))
      (fun r => r.map Expr.unspanned = d.body.map Expr.unspanned) ((.endKw, "end") :: rest) υ := by
    refine (Reaches.forM_declare ps).bind fun _ _ => .withNewlines ?_
    rw [declareAll_congr _ hps]
    exact restores_body (by decide) (ends_end rest) h hbody (List.dropWhile_idempotent _ _)
  refine (Reaches.inScope hstmts).bind fun stmts hstmts => ?_
  refine (Reaches.expectEnd _ _ rfl).bind fun close _ => reaches_node ?_
  simp only [Form.map, Form.unspanned, Definition.map, hname', hps, hstmts]

/-- An expression is read back if its parts are. -/
theorem restores_exprLayer {e : Expr} (h : ∀ part ∈ e.form.parts, Restores expr part)
    (hfloat : ∀ x, e.form ≠ .literal (.float x)) : Restores (exprLayer expr) e := by
  intro allowDo σ τ rest hlaid hrest
  obtain ⟨ρ, hform, hid, rfl⟩ := Expr.laid_iff.1 hlaid
  obtain ⟨id, span, form⟩ := e
  simp only [Expr.form_node, Expr.id_node] at h hfloat hform hid
  rw [Expr.spelling_node, Expr.unspanned_node, hid]
  -- the first token decides which production reads the expression, and for a name also the second
  have hlayer {kind : Token.Kind} {text : String} {ks : List Key} {m : Parser Expr}
      (hks : (form.map Expr.spelling).spelling ++ rest = (kind, text) :: ks)
      (hm : ∀ ⦃c⦄, c.kind = kind → c.next.kind = headKind ks → exprLayer expr allowDo c = m c)
      (hregains : Regains σ m form rest ρ) : Regains σ (exprLayer expr allowDo) form rest ρ := by
    intro c hc
    have hc' := hc
    rw [hks] at hc'
    rw [hm hc'.kind hc'.next.kind]
    exact hregains hc
  cases form with
  | literal v =>
    obtain ⟨hv, rfl⟩ := hform
    have hfloat (x) (hx : v = .float x) : False := hfloat x (hx ▸ rfl)
    refine hlayer rfl (fun c hkind _ => ?_) (regains_literal expr hv hfloat)
    rw [exprLayer_run, hkind]
    rcases v with _ | _ | _ | _ | (_ | _) | _ <;> rfl
  | var name =>
    obtain ⟨-, hname, rfl⟩ := hform
    refine hlayer rfl (fun c hkind hnext => ?_) (regains_var expr hname hrest allowDo)
    rw [exprLayer_run, hkind]
    exact if_neg (hnext ▸ hrest.ne (by decide))
  | assign target value =>
    obtain ⟨-, hid, hvalue⟩ := hform
    refine hlayer rfl (fun c hkind hnext => ?_)
      (regains_assign (h value List.mem_cons_self) hid hvalue hrest allowDo)
    rw [exprLayer_run, hkind]
    exact if_pos hnext
  | call name nameSpan es block =>
    obtain ⟨-, υ, hes, hblock⟩ := hform
    have hargs : ∀ e ∈ es, Restores expr e := fun e he => h e (Form.mem_parts_of_arg he)
    have hbody : ∀ b ∈ block, ∀ e ∈ b.body, Restores expr e := by
      rintro b rfl e he
      exact h e (List.mem_append_right _ he)
    refine hlayer rfl (fun c hkind hnext => ?_) (regains_call hargs hbody hes hblock hrest allowDo)
    rw [exprLayer_run, hkind]
    have hparen : c.next.kind = .lparen := hnext
    exact if_neg (by rw [hparen]; decide)
  | yield es =>
    refine hlayer rfl (fun c hkind _ => ?_) (regains_yield h hform)
    rw [exprLayer_run, hkind]
  | branch cond thenBody elseBody =>
    obtain ⟨π, υ, hcond, hthen, helse⟩ := hform
    rw [Form.parts_branch] at h
    have hthen' : ∀ e ∈ thenBody, Restores expr e := fun e he => h e (by simp [he])
    have helse' : ∀ es ∈ elseBody, ∀ e ∈ es, Restores expr e := by
      rintro es rfl e he
      exact h e (by simp [he])
    refine hlayer rfl (fun c hkind _ => ?_)
      (regains_branch (h cond List.mem_cons_self) hthen' helse' hcond hthen helse)
    rw [exprLayer_run, hkind]
  | loop cond body =>
    obtain ⟨υ, hcond, hbody⟩ := hform
    refine hlayer rfl (fun c hkind _ => ?_) (regains_loop (h cond List.mem_cons_self)
      (fun e he => h e (List.mem_cons_of_mem _ he)) hcond hbody)
    rw [exprLayer_run, hkind]
  | define d =>
    obtain ⟨hname, hid, hscoped⟩ := hform
    refine hlayer rfl (fun c hkind _ => ?_) (regains_define h ⟨hname, hid, rfl⟩ hscoped)
    rw [exprLayer_run, hkind]

end

/-! ### Fuel -/

theorem length_le_intercalate {sep ks : List Key} {items : List (List Key)} (h : ks ∈ items) :
    ks.length ≤ (sep.intercalate items).length := by
  induction items with
  | nil => exact absurd h List.not_mem_nil
  | cons ks' items ih =>
    cases items with
    | nil =>
      obtain rfl := List.mem_singleton.1 h
      rw [List.intercalate_singleton]
    | cons ks'' items =>
      simp only [List.intercalate_cons_cons, List.length_append]
      rcases List.mem_cons.1 h with rfl | h
      · omega
      · have := ih h
        omega

/-- The parts of a layer are shorter than the layer. -/
theorem length_spelling_lt {form : Form Expr} {part : Expr} (h : part ∈ form.parts) :
    part.spelling.length < (form.map Expr.spelling).spelling.length := by
  have hlist (es : List Expr) (he : part ∈ es) :
      part.spelling.length ≤ (listKeys (es.map Expr.spelling)).length :=
    length_le_intercalate (List.mem_map_of_mem he)
  have hsequence (es : List Expr) (he : part ∈ es) :
      part.spelling.length ≤ (sequenceKeys (es.map Expr.spelling)).length :=
    length_le_intercalate (List.mem_map_of_mem he)
  cases form with
  | literal v => exact absurd h List.not_mem_nil
  | var name => exact absurd h List.not_mem_nil
  | assign target value =>
    obtain rfl := List.mem_singleton.1 h
    simp only [Form.map, Form.spelling, List.length_append, List.length_cons]
    omega
  | call name nameSpan es block =>
    simp only [Form.map, Form.spelling, List.length_append, List.length_cons]
    cases block with
    | none =>
      have := hlist es h
      omega
    | some b =>
      simp only [Block.map, Block.spelling, Option.map_some, List.length_append, List.length_cons]
      rcases List.mem_append.1 h with h | h
      · have := hlist es h
        omega
      · have := hsequence b.body h
        omega
  | yield es =>
    have := hlist es h
    simp only [Form.map, Form.spelling, List.length_append, List.length_cons]
    omega
  | branch cond thenBody elseBody =>
    rw [Form.parts_branch, List.mem_cons, List.mem_append] at h
    simp only [Form.map, Form.spelling, List.length_append, List.length_cons]
    rcases h with rfl | h | h
    · omega
    · have := hsequence thenBody h
      omega
    · cases elseBody with
      | none => exact absurd h List.not_mem_nil
      | some es =>
        have := hsequence es h
        simp only [elseKeys, Option.map_some, List.length_append, List.length_cons]
        omega
  | loop cond body =>
    simp only [Form.map, Form.spelling, List.length_append, List.length_cons]
    rcases List.mem_cons.1 h with rfl | h
    · omega
    · have := hsequence body h
      omega
  | define d =>
    have := hsequence d.body h
    simp only [Form.map, Form.spelling, Definition.map, List.length_append, List.length_cons]
    omega

/-- As many levels as there are tokens in an expression are enough to read it. -/
theorem restores_expr {p : Program} {e : Expr} (hfloat : p.hasFloat = false) (he : p.Has e)
    {fuel : Nat} (hfuel : e.spelling.length ≤ fuel) : Restores (expr fuel) e := by
  induction e using Expr.induction generalizing fuel with | step id span form ih
  obtain _ | fuel := fuel
  · have := spelling_length_pos (.node id span form)
    omega
  · rw [Expr.spelling_node] at hfuel
    refine restores_exprLayer (fun part hpart => ih part hpart (he.part hpart) ?_) (he.not_float hfloat)
    exact Nat.le_of_lt_succ ((length_spelling_lt hpart).trans_le hfuel)

end Parser

/-- The canonical text of a program without floats that was read from some text is read as the same
program, with the same identities, the spans apart. -/
theorem Program.parse_render {source : String} {p : Program}
    (hparse : (Program.parse source).program? = some p) (hfloat : p.hasFloat = false) :
    ∃ q, (Program.parse p.render).program? = some q ∧ q.unspanned = p.unspanned := by
  obtain ⟨τ, hlaid⟩ := Program.laid_of_parse hparse
  have hspells := Program.spells_render hlaid hfloat
  have hkeys : (Token.lexemes p.render).map Token.key = p.spelling := by
    have hnil : keys [] = [] := keys_of_dropBlank_eq_nil rfl
    have hkeys := hspells.keys [] breaks_nil
    rwa [List.append_nil, hnil, List.append_nil] at hkeys
  have hc : (Cursor.start (Token.lexemes p.render) (byteLength p.render.toList)).At p.spelling
      .start := by
    refine ⟨?_, hspells.plain, rfl⟩
    have hcomment : (Token.lexemes p.render).filter (·.kind != .comment) = Token.lexemes p.render := by
      refine List.filter_eq_self.2 fun t ht => ?_
      have hplain := hspells.plain t.key (hkeys ▸ List.mem_map_of_mem ht)
      exact bne_iff_ne.2 hplain.2
    rw [Cursor.start, hcomment, hkeys]
  have hends : Parser.Ends [] [] := ⟨(by decide : Token.Kind.eof ∈ followers), rfl, rfl⟩
  have hfuel (e : Expr) (he : e ∈ p.stmts) : e.spelling.length ≤ p.spelling.length + 1 :=
    (Parser.length_le_intercalate (List.mem_map_of_mem he)).trans (Nat.le_succ _)
  have hstart : dropTerminators p.spelling = dropTerminators (p.spelling ++ []) := by
    rw [List.append_nil]
  obtain ⟨stmts, d, hrun, hstmts, -⟩ := Parser.restores_statements (by simp) hends
    (fun e he => Parser.restores_expr hfloat (.stmt he) (hfuel e he)) hlaid hc hstart
    (Nat.lt_succ_self _)
  refine ⟨⟨stmts⟩, ?_, congrArg Program.mk hstmts⟩
  unfold Program.parse Program.ofTokens
  simp only [hc.length_rest, hrun]
  rfl

namespace Program

/-- A call with an argument and a block. -/
def kept : Program where
  stmts :=
    [.node 6 ⟨0, 26⟩ (.call "keep?" ⟨0, 5⟩ [.node 0 ⟨6, 7⟩ (.literal (.int ⟨⟨1#64⟩⟩))]
      (some ⟨5, ⟨8, 26⟩, [⟨1, "x", ⟨12, 13⟩⟩],
        [.node 4 ⟨17, 22⟩ (.assign ⟨2, "y", ⟨17, 18⟩⟩ (.node 3 ⟨21, 22⟩ (.var "x")))]⟩))]

theorem parse_kept : (Program.parse "keep? 1 do |x|\n  y = x\nend\n").program? = some kept := by cbv

/-- Written with parentheses and braces, the call is read as before. -/
theorem parse_render_kept :
    kept.render = "keep?(1) \x7b |x| y = x \x7d" ∧
      ∃ q, (Program.parse "keep?(1) \x7b |x| y = x \x7d").program? = some q ∧
        q.unspanned = kept.unspanned := by
  have hrender : kept.render = "keep?(1) \x7b |x| y = x \x7d" := by cbv
  exact ⟨hrender, hrender ▸ parse_render parse_kept rfl⟩

end Program
end FlowTyping
