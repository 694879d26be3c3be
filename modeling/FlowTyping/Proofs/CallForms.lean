import FlowTyping.Proofs.BlockCalls
import FlowTyping.Proofs.Lexemes
import FlowTyping.Proofs.Tiling

/-!
# Two forms of a call

`f x do p b end` and `f ( x ) { p b }` are the same call (`Program.commandForm_iff_parenForm`), unless a loop
among the arguments takes the `do`.  The brackets of both texts tell where arguments and block end
(`Parser.reads_command`, `Parser.reads_parens`), and up to there the one is read like the other: the
arguments behind an open parenthesis are read as without one, since there is no line feed among them, and the
two blocks differ in the token that ends them only (`CallRun.Reads.carried`).
-/

namespace FlowTyping

open Opening Brackets

/-- Cursors before the same tokens echo each other, the spans apart. -/
theorem Cursor.echoes_of_keys {s : Sides} {l : s.Level} {c c' : Cursor} {ts ts' : List Token}
    (h : ts.map Token.key = ts'.map Token.key) (hadmits : ∀ t ∈ ts, s.Admits t.kind)
    (hc : c.rest = ts ++ s.first) (hc' : c'.rest = ts' ++ s.second) (hopen : s.first ≠ [])
    (here : c.parens = l.here) (there : c'.parens = l.there) (hnaming : c'.naming = c.naming) :
    c.Echoes .blind l c' :=
  ⟨⟨ts, ts', hc, hc', Token.map_seen_blind h, hadmits⟩, fun hblank => absurd hblank.1 hopen, here, there,
    hnaming⟩

theorem Cursor.rest_ofText {s : String} (h : ∀ t ∈ Token.lexemes s, t.kind ≠ .comment) :
    (ofText s).rest = Token.lexemes s :=
  List.filter_eq_self.2 fun t ht => bne_iff_ne.2 (h t ht)

/-- Where no line feed is shared, one cursor may stand inside of a parenthesis and the other one outside. -/
def Sides.Level.beside {s : Sides} (h : s.plain = true) (here there : Nat) : s.Level :=
  ⟨here, there, fun hplain => absurd (h.symm.trans hplain) (by decide)⟩

namespace Sides.Level
variable {s : Sides} {l : s.Level} {allowDo allowDo' : Bool} {g : Grip}

theorem fits_plain (hplain : s.plain = true) (hsnug : l.Snug)
    (hfirst : allowDo = true → firstKind s.first ≠ .doKw)
    (hsecond : allowDo' = true → firstKind s.second ≠ .doKw) : l.Fits allowDo allowDo' g :=
  ⟨fun h => absurd (hplain.symm.trans h) (by decide), fun _ => hsnug, fun _ => hfirst, fun _ => hsecond⟩

end Sides.Level

namespace Parser

section
variable {n n' : Nat} {c c' d : Cursor} {xs xs' inner inner' : List Token} {o o' z z' : Token}

/-! ### What the brackets of the arguments come to -/

theorem balanced_of_command {name : Token} (hname : name.kind = .ident) (ho : o.kind = .doKw)
    (hz : z.kind = .endKw) (hloop : ∀ t ∈ xs, t.kind ≠ .whileKw) (hinner : Balanced inner) {on : Bool}
    (h : (mk false []).run (name :: (xs ++ o :: (inner ++ [z]))) = some ⟨on, []⟩) : Balanced xs := by
  rw [run_cons, step_of_kind hname (by decide), shift_idle (by decide)] at h
  obtain ⟨⟨on', fs⟩, hxs, hblock⟩ := exists_of_run_append (b := mk false []) h
  have hsettled : Settled fs := fun hhead =>
    head_not_mem_run hxs hloop List.not_mem_nil (List.mem_of_head? hhead)
  obtain ⟨on'', hrun⟩ := run_block on' (.inr ⟨ho, hz⟩) hinner hsettled
  rw [hrun] at hblock
  cases hblock
  exact ⟨on', hxs⟩

theorem run_of_parens {name left right : Token} (hname : name.kind = .ident) (hleft : left.kind = .lparen)
    (hright : right.kind = .rparen) (ho : o.kind = .lbrace) (hz : z.kind = .rbrace)
    (hloop : ∀ t ∈ xs, t.kind ≠ .whileKw) (hinner : Balanced inner) {on : Bool}
    (h : (mk false []).run (name :: left :: (xs ++ right :: o :: (inner ++ [z]))) = some ⟨on, []⟩) :
    ∃ on, (mk false [.paren]).run xs = some ⟨on, [.paren]⟩ := by
  rw [run_cons, step_of_kind hname (by decide), shift_idle (by decide)] at h
  replace h : (mk false []).run (left :: (xs ++ right :: o :: (inner ++ [z]))) = some ⟨on, []⟩ := h
  rw [run_cons, step_of_kind hleft (by decide), shift_open (f := .paren) (by decide)] at h
  obtain ⟨⟨on', fs⟩, hxs, hbehind⟩ := exists_of_run_append (b := mk false [.paren]) h
  obtain ⟨b, hstep, hblock⟩ := Option.bind_eq_some_iff.1 ((run_cons ..).symm.trans hbehind)
  rw [step_of_kind hright (by decide)] at hstep
  obtain ⟨gs, hshift, rfl⟩ := Option.map_eq_some_iff.1 hstep
  obtain ⟨f, hf, rfl⟩ := exists_of_shift hshift (by decide)
  obtain rfl : f = .paren := List.mem_singleton.1 hf
  have hnone : .head ∉ gs := fun hmem =>
    head_not_mem_run hxs hloop (by decide) (List.mem_cons_of_mem _ hmem)
  obtain ⟨on'', hrun⟩ := run_block (goesOnBehind .rparen) (.inl ⟨ho, hz⟩) hinner
    (fun hhead => hnone (List.mem_of_head? hhead))
  rw [hrun] at hblock
  cases hblock
  exact ⟨on', hxs⟩

/-! ### Arguments -/

theorem admits_of_inside {t : Token} (h : Inside t) : t.kind ≠ .newline ∧ t.kind ≠ .doKw := by
  simp only [Inside, List.mem_cons, List.not_mem_nil] at h
  tauto

section
variable {s : Sides} {as : List Expr} {left right : Token} {rest : List Token}
  (hplain : s.plain = true) (hkeys : xs.map Token.key = xs'.map Token.key) (hinside : ∀ t ∈ xs, Inside t)
  (hn : n ≤ n') (hd : d.rest = s.first) (hnaming : c'.naming = c.naming)
include hplain hkeys hinside hn hd hnaming

/-- Arguments that are followed by a block can be put in parentheses. -/
theorem parenArgs_of_commandArgs (hdo : firstKind s.first = .doKw) (hsecond : s.second = right :: rest)
    (hright : right.kind = .rparen) (hc : c.parens = 0) (hrest : c.rest = xs ++ s.first) (hc' : c'.parens = 0)
    (hrest' : c'.rest = left :: (xs' ++ s.second)) (hleft : left.kind = .lparen)
    (hstarts : startsArgument (firstKind xs') = true) (hrun : commandArgs (expr n) c = .ok as d) :
    ∃ as' stop d', parenArgs (expr n') c' = .ok (as', stop) d' ∧
      as.map Expr.unspanned = as'.map Expr.unspanned ∧ d'.parens = 0 ∧ d'.rest = rest ∧
        d'.naming = d.naming := by
  obtain ⟨hcurrent, hnext⟩ := Cursor.current_eq hrest' (.inl hc')
  have hlparen : c'.kind = .lparen := (congrArg Token.kind hcurrent).trans hleft
  have hkind : firstKind s.second = .rparen := by rw [hsecond]; exact hright
  have hecho : c.Echoes .blind (.beside hplain 0 1) { c'.next with parens := c'.parens + 1 } :=
    Cursor.echoes_of_keys hkeys (fun t ht _ => admits_of_inside (hinside t ht)) hrest hnext
      (fun hnil => by rw [hnil] at hdo; cases hdo) hc (congrArg (· + 1) hc') hnaming
  have hsnug : (Sides.Level.beside hplain 0 1).Snug := .inr ⟨by rw [hdo]; decide, by rw [hkind]; decide⟩
  have hfits : (Sides.Level.beside hplain 0 1).Fits false true .safe :=
    Sides.Level.fits_plain hplain hsnug nofun fun _ => by rw [hkind]; decide
  have hcarries := (carries_expr (v := .blind) hn hfits).commaList (P := Anywhere)
    (Carries.skipNewlines_plain hplain).1 (fun _ => hsnug) (Nat.succ_le_succ hecho.length_le)
  obtain ⟨as', e, hlist, has, he⟩ := hcarries.ok trivial hecho hrun
    (show s.first <:+ d.rest from hd ▸ List.suffix_refl _)
  have herest : e.rest = right :: rest := (he.rest_eq_second hd).trans hsecond
  obtain ⟨hcurrent, hbehind⟩ := Cursor.current_eq herest (.inr (by rw [hright]; decide))
  have hclose : closeParen e = .ok e.current { e.next with parens := e.parens - 1 } :=
    (closeParen_run e).trans (if_pos ((congrArg Token.kind hcurrent).trans hright))
  refine ⟨as', e.current.span, { e.next with parens := e.parens - 1 }, ?_, ?_, ?_, hbehind, he.naming⟩
  · rw [parenArgs_run hlparen]
    · exact (bind_of_ok hlist).trans (bind_of_ok hclose)
    · exact ne_of_startsArgument (Cursor.startsArgument_kind hnext hstarts) rfl
  · rwa [Expr.map_seen_blind, Expr.map_seen_blind] at has
  · show e.parens - 1 = 0
    rw [he.there]
    rfl

/-- Arguments in parentheses can be read without them, where they are followed by `do`. -/
theorem commandArgs_of_commaList (hfirst : firstKind s.first = .rparen) (hdo : firstKind s.second = .doKw)
    (hc : c.parens = 1) (hrest : c.rest = xs ++ s.first) (hc' : c'.parens = 0)
    (hrest' : c'.rest = xs' ++ s.second)
    (hrun : commaList (expr n true) (pure ()) (c.rest.length + 1) c = .ok as d) :
    ∃ as' d', commandArgs (expr n') c' = .ok as' d' ∧ as.map Expr.unspanned = as'.map Expr.unspanned ∧
      d'.parens = 0 ∧ d'.rest = s.second ∧ d'.naming = d.naming := by
  have hecho : c.Echoes .blind (.beside hplain 1 0) c' :=
    Cursor.echoes_of_keys hkeys (fun t ht _ => admits_of_inside (hinside t ht)) hrest hrest'
      (fun hnil => by rw [hnil] at hfirst; cases hfirst) hc hc' hnaming
  have hsnug : (Sides.Level.beside hplain 1 0).Snug := .inr ⟨by rw [hfirst]; decide, by rw [hdo]; decide⟩
  have hfits : (Sides.Level.beside hplain 1 0).Fits true false .safe :=
    Sides.Level.fits_plain hplain hsnug (fun _ => by rw [hfirst]; decide) nofun
  have hcarries := (carries_expr (v := .blind) hn hfits).commaList (P := Anywhere)
    (Carries.skipNewlines_plain hplain).2 (fun _ => hsnug) (Nat.succ_le_succ hecho.length_le)
  obtain ⟨as', e, hlist, has, he⟩ := hcarries.ok trivial hecho hrun
    (show s.first <:+ d.rest from hd ▸ List.suffix_refl _)
  rw [Expr.map_seen_blind, Expr.map_seen_blind] at has
  exact ⟨as', e, hlist, has, he.there, he.rest_eq_second hd, he.naming⟩

end

end

end Parser

/-- A call whose arguments are read alike is read alike as a whole, whatever brackets its block has. -/
theorem CallRun.Reads.carried {s : Sides} {r : CallRun} {n n' : Nat} {closer closer' : Token.Kind}
    {c c' x' : Cursor} {o o' : Token} {inner inner' : List Token} {args' : List Expr} {span' : Span}
    (hplain : s.plain = false) (hr : r.Reads n closer c) (hfills : r.Fills o inner s.first) (hn : n ≤ n')
    (htext : c.current.text = c'.current.text)
    (hargs : Parser.args (Parser.expr n') c'.current.span c'.next = .ok (args', span') x')
    (hseen : r.args.map Expr.unspanned = args'.map Expr.unspanned) (hx' : x'.parens = 0)
    (hrest' : x'.rest = o' :: (inner' ++ s.second)) (hnaming : x'.naming = r.opening.naming)
    (hinner : inner.map Token.key = inner'.map Token.key) (hopener : Parser.Encloses o'.kind closer')
    (hfirst : firstKind s.first = closer) (hsecond : firstKind s.second = closer') :
    ∃ r' : CallRun, r'.Reads n' closer' c' ∧ r'.Fills o' inner' s.second ∧
      (r.call c.current).unspanned = (r'.call c'.current).unspanned := by
  have hcloser {opener closer : Token.Kind} (h : Parser.Encloses opener closer) :
      Cursor.isTerminator closer = false ∧ closer ≠ .doKw ∧ closer ≠ .eof := by
    rcases h with ⟨-, rfl⟩ | ⟨-, rfl⟩ <;> decide
  obtain ⟨hterm, hdo, heof⟩ := hcloser hr.encloses
  obtain ⟨hterm', hdo', -⟩ := hcloser hopener
  have hfits : (Sides.Level.top (s := s)).Fits true true .safe :=
    ⟨fun _ => rfl, fun _ => .inl ⟨rfl, rfl⟩, fun _ _ => hfirst ▸ hdo, fun _ _ => hsecond ▸ hdo'⟩
  have hfinishes : Parser.Finishes .blind (.top (s := s)) (Parser.blockContents (Parser.expr n) closer) _ .top
      (Parser.blockContents (Parser.expr n') closer') := Parser.finishes_blockContents
    (fun hfits => Parser.carries_expr hn hfits) hfits
    (fun _ _ _ => Parser.closes_of_expr fun k hk => List.mem_singleton.1 hk ▸ hsecond ▸ s.second_mem)
    (hfirst ▸ hterm) ⟨hsecond ▸ hterm', hsecond⟩
  obtain ⟨hcurrent, hnext⟩ := Cursor.current_eq hrest' (.inl hx')
  have hopen : s.first ≠ [] := fun hnil => heof (by rw [← hfirst, hnil]; rfl)
  have hecho : r.opening.next.Echoes .blind (.top (s := s)) x'.next :=
    Cursor.echoes_of_keys hinner (fun _ _ h => absurd (hplain.symm.trans h) (by decide))
      (Cursor.current_eq hfills.opening_rest (.inl hfills.opening_parens)).2 hnext hopen
      hfills.opening_parens hx' hnaming
  obtain ⟨⟨params', stmts'⟩, e, hcontents, hvalue, he⟩ := hfinishes.ok hecho hr.contents hfills.closing_rest
  obtain ⟨hparams, hstmts⟩ := Prod.mk.inj hvalue
  have herest : e.rest = s.second := he.rest_eq_second hfills.closing_rest
  have hclosed : e.kind = closer' := by rw [Cursor.kind_eq_firstKind he.there, herest, hsecond]
  refine ⟨⟨args', span', x', params', stmts', e⟩, ⟨hargs, ?_, hcontents, hclosed⟩,
    ⟨hx', hrest', he.there, herest⟩, ?_⟩
  · show Parser.Encloses x'.current.kind closer'
    rwa [hcurrent]
  · have hid : r.closing.nextId = e.nextId := (congrArg Naming.nextId he.naming).symm
    rw [← Expr.seen_blind, ← Expr.seen_blind, call, call, Expr.seen_node, Expr.seen_node]
    rw [← Expr.map_seen_blind, ← Expr.map_seen_blind] at hseen
    simp only [Form.map, Form.seen, block, Option.map, Block.map, Block.seen, hid, htext, hseen, hstmts, hparams]
    rfl

/-! ### The two texts -/

/-- The call of `f` without parentheses around the arguments, with a block from `do` to `end`. -/
def commandForm (f x p b : String) : String := " ".intercalate [f, x, "do", p, b, "end"]

/-- The call of `f` with parentheses around the arguments, with a block in braces. -/
def parenForm (f x p b : String) : String := " ".intercalate [f, "(", x, ")", "\x7b", p, b, "\x7d"]

/-- A name, a text that starts like an argument, maybe parameters between bars, and a text that parses. -/
structure CallParts (f x p b : String) : Prop where
  name : (Token.lexemes f).map Token.key = [(.ident, f)]
  starts : Parser.startsArgument (firstKind (Token.lexemes x)) = true
  inside : ∀ t ∈ Token.lexemes x, t.kind ∉ [.newline, .semicolon, .doKw, .comment, .invalid]
  params : (Token.lexemes p).map Token.kind = [] ∨ ∃ n, (Token.lexemes p).map Token.kind =
    .bar :: (List.replicate n .ident).intersperse .comma ++ [.bar]
  clean : ∀ t ∈ Token.lexemes b, t.kind ≠ .comment
  parses : (Program.parse b).program?.isSome = true

/-- The tokens that the two texts have besides those of their parts. -/
def callMarks : List String := ["do", "end", "(", ")", "\x7b", "\x7d"]

theorem valid_callMarks : ∀ s ∈ callMarks, ∀ t ∈ Token.lexemes s, t.kind ≠ .invalid ∧ t.kind ≠ .comment := by
  have hall : (callMarks.all fun s => (Token.lexemes s).all fun t =>
      t.kind != .invalid && t.kind != .comment) = true := by cbv
  simpa using hall

/-- What holds of the kinds of tokens holds of tokens that are spelled like them. -/
theorem Token.forall_kind_of_keys {p : Token.Kind → Prop} {ts us : List Token}
    (h : ts.map Token.key = us.map Token.key) (hus : ∀ u ∈ us, p u.kind) : ∀ t ∈ ts, p t.kind := by
  intro t ht
  have hkey := List.mem_map_of_mem (f := Token.key) ht
  rw [h] at hkey
  obtain ⟨u, hu, hkey⟩ := List.mem_map.1 hkey
  have hkind : u.kind = t.kind := congrArg Prod.fst hkey
  exact hkind ▸ hus u hu

theorem eq_or_mem_of_mem_intersperse {a sep : α} {as : List α} (h : a ∈ as.intersperse sep) :
    a = sep ∨ a ∈ as := by
  induction as with
  | nil => exact .inr h
  | cons a' as ih =>
    cases as with
    | nil => exact .inr h
    | cons a'' as =>
      rcases List.mem_cons.1 h with rfl | h
      · exact .inr List.mem_cons_self
      · rcases List.mem_cons.1 h with rfl | h
        · exact .inl rfl
        · exact (ih h).imp_right (List.mem_cons_of_mem _)

namespace CallParts
variable {f x p b : String} (h : CallParts f x p b)
include h

theorem exists_reading : ∃ stmts d, Program.reading b = (stmts, .ok () d) := by
  obtain ⟨q, hq⟩ := Option.isSome_iff_exists.1 h.parses
  obtain ⟨d, hd⟩ := Program.reading_of_program? hq
  exact ⟨q.stmts, d, hd⟩

/-- Parameters between bars open and close nothing. -/
theorem kind_params : ∀ t ∈ Token.lexemes p, t.kind = .bar ∨ t.kind = .ident ∨ t.kind = .comma := by
  intro t ht
  have hmem := List.mem_map_of_mem (f := Token.kind) ht
  rcases h.params with hp | ⟨n, hp⟩ <;> rw [hp] at hmem
  · exact absurd hmem List.not_mem_nil
  · rcases List.mem_append.1 hmem with hmem | hmem
    · rcases List.mem_cons.1 hmem with hk | hmem
      · exact .inl hk
      · rcases eq_or_mem_of_mem_intersperse hmem with hk | hmem
        · exact .inr (.inr hk)
        · exact .inr (.inl (List.eq_of_mem_replicate hmem))
    · exact .inl (List.mem_singleton.1 hmem)

theorem valid : ∀ s ∈ [f, x, p, b], ∀ t ∈ Token.lexemes s, t.kind ≠ .invalid ∧ t.kind ≠ .comment := by
  simp only [List.forall_mem_cons]
  refine ⟨fun t ht => ?_, fun t ht => ?_, fun t ht => ?_, fun t ht => ?_, by simp⟩
  · have hkey := List.mem_map_of_mem (f := Token.key) ht
    rw [h.name, List.mem_singleton] at hkey
    have hkind : t.kind = .ident := congrArg Prod.fst hkey
    rw [hkind]
    decide
  · have hinside := h.inside t ht
    simp only [List.mem_cons, not_or] at hinside
    exact ⟨hinside.2.2.2.2.1, hinside.2.2.2.1⟩
  · rcases h.kind_params t ht with hk | hk | hk <;> rw [hk] <;> decide
  · obtain ⟨stmts, d, hrun⟩ := h.exists_reading
    exact ⟨(Program.valid_of_reading hrun).2 t ht, h.clean t ht⟩

theorem run_params : (Brackets.mk false []).run (Token.lexemes p) = some ⟨false, []⟩ := by
  have hidle : ∀ t ∈ Token.lexemes p, t.kind ≠ .newline ∧ t.kind ∉ settlers ∧ closable t.kind = [] ∧
      opened? t.kind = none := fun t ht => by
    rcases h.kind_params t ht with hk | hk | hk <;> rw [hk] <;> decide
  rcases h.params with hp | ⟨n, hp⟩
  · rw [List.map_eq_nil_iff.1 hp]
    rfl
  · obtain ⟨ts, us, hsplit, -, hus⟩ := List.map_eq_append_iff.1 hp
    obtain ⟨t, us, rfl, ht, hnil⟩ := List.map_eq_cons_iff.1 hus
    rw [List.map_eq_nil_iff.1 hnil] at hsplit
    rw [hsplit] at hidle ⊢
    obtain ⟨on, hrun⟩ : ∃ on, (Brackets.mk false []).run ts = some ⟨on, []⟩ :=
      run_idle fun t ht => hidle t (List.mem_append_left _ ht)
    rw [run_append_of_run hrun, run_singleton, step_of_kind ht (by decide), shift_idle (by decide)]
    rfl

theorem run_body : (Brackets.mk false []).run (Token.lexemes b) = some ⟨false, []⟩ := by
  obtain ⟨stmts, d, hrun⟩ := h.exists_reading
  obtain ⟨read, hread, hwalk, -⟩ :=
    Parser.walks_statements (Parser.walks_expr _) Parser.around_nil (c := .ofText b) rfl hrun
  rw [(Program.valid_of_reading hrun).1, List.append_nil, Cursor.rest_ofText h.clean] at hread
  rw [hread, hwalk]

theorem balanced_inner {inner : List Token}
    (hinner : inner.map Token.key = (Token.lexemes p).map Token.key ++ (Token.lexemes b).map Token.key) :
    Balanced inner := by
  have hkinds : inner.map Token.kind = (Token.lexemes p ++ Token.lexemes b).map Token.kind := by
    have hfst := congrArg (List.map Prod.fst) hinner
    rwa [← List.map_append, List.map_map, List.map_map] at hfst
  refine ⟨false, ?_⟩
  rw [run_congr hkinds, run_append_of_run h.run_params, h.run_body]

theorem keys_texts (texts : List String) (htexts : texts ⊆ [f, x, p, b] ++ callMarks) :
    keys (" ".intercalate texts).toList = texts.flatMap fun s => (Token.lexemes s).map Token.key :=
  keys_intercalate fun s hs => (List.mem_append.1 (htexts hs)).elim (h.valid s) (valid_callMarks s)

theorem valid_texts (texts : List String) (htexts : texts ⊆ [f, x, p, b] ++ callMarks) :
    ∀ t ∈ Token.lexemes (" ".intercalate texts), t.kind ≠ .invalid ∧ t.kind ≠ .comment := by
  intro t ht
  have hkey : t.key ∈ keys (" ".intercalate texts).toList := List.mem_map_of_mem ht
  rw [h.keys_texts texts htexts] at hkey
  obtain ⟨s, hs, hkey⟩ := List.mem_flatMap.1 hkey
  obtain ⟨u, hu, hkey⟩ := List.mem_map.1 hkey
  have hkind : u.kind = t.kind := congrArg Prod.fst hkey
  exact hkind ▸ (List.mem_append.1 (htexts hs)).elim (h.valid s) (valid_callMarks s) u hu

end CallParts

/-- The tokens of the one text. -/
structure CommandTokens (f x p b : String) (name : Token) (xs : List Token) (o : Token) (inner : List Token)
    (z : Token) : Prop where
  name : name.key = (.ident, f)
  args : xs.map Token.key = (Token.lexemes x).map Token.key
  opener : o.kind = .doKw
  body : inner.map Token.key = (Token.lexemes p).map Token.key ++ (Token.lexemes b).map Token.key
  closer : z.kind = .endKw

/-- The tokens of the other text. -/
structure ParenTokens (f x p b : String) (name left : Token) (xs : List Token) (right o : Token)
    (inner : List Token) (z : Token) : Prop where
  name : name.key = (.ident, f)
  left : left.kind = .lparen
  args : xs.map Token.key = (Token.lexemes x).map Token.key
  right : right.kind = .rparen
  opener : o.kind = .lbrace
  body : inner.map Token.key = (Token.lexemes p).map Token.key ++ (Token.lexemes b).map Token.key
  closer : z.kind = .rbrace

namespace CallParts
variable {f x p b : String} (h : CallParts f x p b)
include h

theorem lexemes_commandForm : ∃ name xs o inner z, CommandTokens f x p b name xs o inner z ∧
    Token.lexemes (commandForm f x p b) = name :: (xs ++ o :: (inner ++ [z])) ∧
      o.span.start = byteLength (f ++ " " ++ x ++ " ").toList := by
  have hform : commandForm f x p b = " ".intercalate [f, x] ++ " " ++ " ".intercalate ["do", p, b, "end"] := by
    simp [commandForm, String.intercalate_cons_cons, String.append_assoc]
  have hdo : (Token.lexemes "do").map Token.key = [(.doKw, "do")] := by cbv
  have hend : (Token.lexemes "end").map Token.key = [(.endKw, "end")] := by cbv
  have hvalid := h.valid_texts [f, x] (by simp)
  have hhead : (Token.lexemes (" ".intercalate [f, x])).map Token.key = _ :=
    h.keys_texts [f, x] (by simp)
  have htail := h.keys_texts ["do", p, b, "end"] (by simp [callMarks])
  rw [← keys_scanFrom (byteLength (" ".intercalate [f, x] ++ " ").toList)] at htail
  simp only [List.flatMap_cons, List.flatMap_nil, h.name, hdo, hend, List.append_nil, List.singleton_append]
    at hhead htail
  obtain ⟨name, xs, hxs, hname, hx⟩ := List.map_eq_cons_iff.1 hhead
  obtain ⟨o, tail, hos, ho, hbehind⟩ := List.map_eq_cons_iff.1 htail
  rw [← List.append_assoc] at hbehind
  obtain ⟨inner, zs, rfl, hinner, hzs⟩ := List.map_eq_append_iff.1 hbehind
  obtain ⟨z, zs, rfl, hz, hnil⟩ := List.map_eq_cons_iff.1 hzs
  obtain rfl := List.map_eq_nil_iff.1 hnil
  refine ⟨name, xs, o, inner, z, ⟨hname, hx, congrArg Prod.fst ho, hinner, congrArg Prod.fst hz⟩, ?_, ?_⟩
  · rw [hform, Token.lexemes_append_space hvalid, hxs, hos, List.cons_append]
  · have hstart : (" ".intercalate ["do", p, b, "end"]).toList =
        'd' :: ('o' :: (" " ++ " ".intercalate [p, b, "end"]).toList) := by
      rw [String.intercalate_cons_cons, String.append_assoc, String.toList_append]
      rfl
    rw [hstart] at hos
    have hpos := Token.start_scanFrom (c := 'd') (by decide) o (by rw [hos]; rfl)
    rw [hpos]
    rfl

theorem lexemes_parenForm : ∃ name left xs right o inner z, ParenTokens f x p b name left xs right o inner z ∧
    Token.lexemes (parenForm f x p b) = name :: left :: (xs ++ right :: o :: (inner ++ [z])) := by
  have hopen : (Token.lexemes "(").map Token.key = [(.lparen, "(")] := by cbv
  have hclose : (Token.lexemes ")").map Token.key = [(.rparen, ")")] := by cbv
  have hleft : (Token.lexemes "\x7b").map Token.key = [(.lbrace, "\x7b")] := by cbv
  have hright : (Token.lexemes "\x7d").map Token.key = [(.rbrace, "\x7d")] := by cbv
  have hkeys : (Token.lexemes (parenForm f x p b)).map Token.key = _ :=
    h.keys_texts [f, "(", x, ")", "\x7b", p, b, "\x7d"] (by simp [callMarks])
  simp only [List.flatMap_cons, List.flatMap_nil, h.name, hopen, hclose, hleft, hright, List.append_nil,
    List.singleton_append] at hkeys
  obtain ⟨name, _, hform, hname, h₁⟩ := List.map_eq_cons_iff.1 hkeys
  obtain ⟨left, _, rfl, hleft, h₂⟩ := List.map_eq_cons_iff.1 h₁
  obtain ⟨xs, _, rfl, hx, h₃⟩ := List.map_eq_append_iff.1 h₂
  obtain ⟨right, _, rfl, hright, h₄⟩ := List.map_eq_cons_iff.1 h₃
  obtain ⟨o, _, rfl, ho, h₅⟩ := List.map_eq_cons_iff.1 h₄
  rw [← List.append_assoc] at h₅
  obtain ⟨inner, _, rfl, hinner, h₆⟩ := List.map_eq_append_iff.1 h₅
  obtain ⟨z, _, rfl, hz, hnil⟩ := List.map_eq_cons_iff.1 h₆
  obtain rfl := List.map_eq_nil_iff.1 hnil
  exact ⟨name, left, xs, right, o, inner, z, ⟨hname, congrArg Prod.fst hleft, hx, congrArg Prod.fst hright,
    congrArg Prod.fst ho, hinner, congrArg Prod.fst hz⟩, hform⟩

/-- The tokens of the arguments, wherever they stand. -/
theorem args_of_keys {xs : List Token} (hxs : xs.map Token.key = (Token.lexemes x).map Token.key) :
    Parser.startsArgument (firstKind xs) = true ∧ ∀ t ∈ xs, Parser.Inside t := by
  refine ⟨?_, fun t ht => ?_⟩
  · cases xs with
    | nil => rw [← h.starts, List.map_eq_nil_iff.1 hxs.symm]
    | cons t xs =>
      obtain ⟨u, us, hus, hkey, -⟩ := List.map_eq_cons_iff.1 hxs.symm
      have hfirst : firstKind (u :: us) = firstKind (t :: xs) := congrArg Prod.fst hkey
      rw [← hfirst, ← hus]
      exact h.starts
  · refine Token.forall_kind_of_keys (p := (· ∉ [.newline, .semicolon, .doKw, .eof])) hxs (fun u hu => ?_) t ht
    have hinside := h.inside u hu
    have heof := Token.kind_ne_eof_of_mem_scanFrom hu
    simp only [List.mem_cons, List.not_mem_nil] at hinside ⊢
    tauto

end CallParts

/-! ### One text read like the other -/

section
variable {f x p b : String} {name name' left right o o' z z' : Token} {xs xs' inner inner' tail : List Token}
  {c c' d : Cursor} {n n' fuel : Nat} {stmts : List Expr}

theorem CommandTokens.opener_mem (ht : CommandTokens f x p b name xs o inner z) : o.kind ∈ enders :=
  ht.opener ▸ by decide

theorem CommandTokens.closer_mem (ht : CommandTokens f x p b name xs o inner z) : z.kind ∈ enders :=
  ht.closer ▸ by decide

theorem ParenTokens.right_mem (ht : ParenTokens f x p b name left xs right o inner z) : right.kind ∈ enders :=
  ht.right ▸ by decide

theorem ParenTokens.closer_mem (ht : ParenTokens f x p b name left xs right o inner z) : z.kind ∈ enders :=
  ht.closer ▸ by decide

theorem CommandTokens.atCall (ht : CommandTokens f x p b name xs o inner z) (h : CallParts f x p b)
    (hparens : c.parens = 0) (hlocals : c.locals = [⟨true, []⟩])
    (hrest : c.rest = name :: (xs ++ o :: (inner ++ z :: tail))) :
    c.AtCall ∧ c.current.text = f ∧ Parser.startsArgument c.next.kind = true := by
  obtain ⟨hcurrent, hnext⟩ := Cursor.current_eq hrest (.inl hparens)
  have hstarts := Cursor.startsArgument_kind hnext (h.args_of_keys ht.args).1
  refine ⟨⟨hparens, ?_, ?_, Parser.ne_of_startsArgument hstarts rfl⟩, ?_, hstarts⟩
  · rw [Cursor.kind, hcurrent]
    exact congrArg Prod.fst ht.name
  · rw [hlocals]
    rfl
  · rw [hcurrent]
    exact congrArg Prod.snd ht.name

theorem ParenTokens.atCall (ht : ParenTokens f x p b name left xs right o inner z)
    (hparens : c.parens = 0) (hlocals : c.locals = [⟨true, []⟩])
    (hrest : c.rest = name :: left :: (xs ++ right :: o :: (inner ++ [z]))) :
    c.AtCall ∧ c.current.text = f := by
  obtain ⟨hcurrent, hnext⟩ := Cursor.current_eq hrest (.inl hparens)
  have hleft : c.next.kind = .lparen := by
    rw [Cursor.kind_eq_firstKind (show c.next.parens = 0 from hparens), hnext]
    exact ht.left
  refine ⟨⟨hparens, ?_, ?_, by rw [hleft]; decide⟩, ?_⟩
  · rw [Cursor.kind, hcurrent]
    exact congrArg Prod.fst ht.name
  · rw [hlocals]
    rfl
  · rw [hcurrent]
    exact congrArg Prod.snd ht.name

section
variable (h : CallParts f x p b) (hloop : ∀ t ∈ Token.lexemes x, t.kind ≠ .whileKw) (hn : n ≤ n')
  (ht : CommandTokens f x p b name xs o inner z) (ht' : ParenTokens f x p b name' left xs' right o' inner' z')
  (hc : c.parens = 0) (hlocals : c.locals = [⟨true, []⟩]) (hc' : c'.parens = 0) (hnaming : c'.naming = c.naming)
  (hrest' : c'.rest = name' :: left :: (xs' ++ right :: o' :: (inner' ++ [z'])))
include h hloop hn ht ht' hc hlocals hc' hnaming hrest'

theorem parens_of_command (hrest : c.rest = name :: (xs ++ o :: (inner ++ [z])))
    (hrun : Parser.statements (Parser.expr (n + 1)) [] fuel c = (stmts, .ok () d)) (hd : d.rest = []) :
    ∃ r r' : CallRun, r.Reads n .endKw c ∧ r.Fills o inner [z] ∧ r'.Reads n' .rbrace c' ∧
      r'.Fills o' inner' [z'] ∧ (r.call c.current).unspanned = (r'.call c'.current).unspanned := by
  have hinner := h.balanced_inner ht.body
  have hbody := ht.body.trans ht'.body.symm
  have hlength : inner.length = inner'.length := by simpa using congrArg List.length hbody
  obtain ⟨-, hinside⟩ := h.args_of_keys ht.args
  obtain ⟨hstarts', -⟩ := h.args_of_keys ht'.args
  obtain ⟨hat, htext, hstarts⟩ := ht.atCall h hc hlocals hrest
  obtain ⟨hat', htext'⟩ := ht'.atCall hc' ((congrArg Naming.locals hnaming).trans hlocals) hrest'
  obtain ⟨read, hread, hwalk, -⟩ :=
    Parser.walks_statements (Parser.walks_expr _) Parser.around_nil hc hrun
  rw [hd, List.append_nil, hrest] at hread
  rw [← hread] at hwalk
  have hxs := Parser.balanced_of_command (congrArg Prod.fst ht.name) ht.opener ht.closer
    (Token.forall_kind_of_keys (p := (· ≠ .whileKw)) ht.args hloop) hinner hwalk
  obtain ⟨r, hr, hfills⟩ :=
    Parser.reads_command hat hrest ht.opener ht.closer hstarts hxs hinside hinner hrun
  have hargs := hr.args
  rw [Parser.args_of_startsArgument hstarts] at hargs
  obtain ⟨as, y, hcommand, hpair⟩ := bind_eq_ok_iff.1 hargs
  obtain ⟨hvalue, rfl⟩ := EStateM.Result.ok.inj hpair
  obtain rfl : as = r.args := congrArg Prod.fst hvalue
  have hbehind := (Cursor.current_eq hrest (.inl hc)).2
  have hbehind' := (Cursor.current_eq hrest' (.inl hc')).2
  have hlparen : c'.next.kind = .lparen := by
    rw [Cursor.kind_eq_firstKind (show c'.next.parens = 0 from hc'), hbehind']
    exact ht'.left
  obtain ⟨as', stop, x', hparens, has, hx', hxrest, hxnaming⟩ := Parser.parenArgs_of_commandArgs
    (s := ⟨o :: (inner ++ [z]), right :: o' :: (inner' ++ [z']), true, ht.opener_mem, ht'.right_mem,
      by simp [hlength]⟩) rfl (ht.args.trans ht'.args.symm) hinside hn hfills.opening_rest
    (show c'.next.naming = c.next.naming from hnaming) ht.opener rfl ht'.right hc hbehind hc' hbehind' ht'.left hstarts' hcommand
  have hargs' : Parser.args (Parser.expr n') c'.current.span c'.next =
      .ok (as', c'.current.span.merge stop) x' := by
    rw [Parser.args_of_lparen hlparen]
    exact bind_of_ok hparens
  obtain ⟨r', hr', hfills', halike⟩ := hr.carried
    (s := ⟨[z], [z'], false, ht.closer_mem, ht'.closer_mem, le_rfl⟩) rfl hfills hn (htext.trans htext'.symm)
    hargs' has hx' hxrest hxnaming hbody (.inl ⟨ht'.opener, rfl⟩) ht.closer ht'.closer
  exact ⟨r, r', hr, hfills, hr', hfills', halike⟩

theorem command_of_parens (hrest : c.rest = name :: (xs ++ o :: (inner ++ z :: tail)))
    (htail : 2 ≤ tail.length)
    (hrun : Parser.statements (Parser.expr (n + 1)) [] fuel c' = (stmts, .ok () d)) (hd : d.rest = []) :
    ∃ r : CallRun, r.Reads n' .endKw c ∧ r.Fills o inner (z :: tail) := by
  have hinner := h.balanced_inner ht'.body
  have hbody := ht'.body.trans ht.body.symm
  have hlength : inner'.length = inner.length := by simpa using congrArg List.length hbody
  obtain ⟨hstarts', hinside⟩ := h.args_of_keys ht'.args
  obtain ⟨hat, htext, hstarts⟩ := ht.atCall h hc hlocals hrest
  obtain ⟨hat', htext'⟩ := ht'.atCall hc' ((congrArg Naming.locals hnaming).trans hlocals) hrest'
  obtain ⟨read, hread, hwalk, -⟩ := Parser.walks_statements (Parser.walks_expr _) Parser.around_nil hc' hrun
  rw [hd, List.append_nil, hrest'] at hread
  rw [← hread] at hwalk
  have hxs := Parser.run_of_parens (congrArg Prod.fst ht'.name) ht'.left ht'.right ht'.opener ht'.closer
    (Token.forall_kind_of_keys (p := (· ≠ .whileKw)) ht'.args hloop) hinner hwalk
  obtain ⟨r, hr, hfills, e, hlist, herest, henaming⟩ := Parser.reads_parens hat' hrest' ht'.left ht'.right
    ht'.opener ht'.closer hstarts' hxs hinside hinner hrun
  have hbehind := (Cursor.current_eq hrest (.inl hc)).2
  have hbehind' := (Cursor.current_eq (Cursor.current_eq hrest' (.inl hc')).2 (.inl hc')).2
  obtain ⟨as', x, hcommand, has, hx, hxrest, hxnaming⟩ := Parser.commandArgs_of_commaList
    (s := ⟨right :: o' :: (inner' ++ [z']), o :: (inner ++ z :: tail), true, ht'.right_mem, ht.opener_mem,
      by simp [hlength]; omega⟩) rfl (ht'.args.trans ht.args.symm) hinside hn herest
    (show c.next.naming = ({ c'.next.next with parens := 1 } : Cursor).naming from hnaming.symm) ht'.right
    ht.opener rfl hbehind' hc hbehind hlist
  have hargs : Parser.args (Parser.expr n') c.current.span c.next =
      .ok (as', (as'.getLast?.map fun last => c.current.span.merge last.span).getD c.current.span) x := by
    rw [Parser.args_of_startsArgument hstarts]
    exact bind_of_ok hcommand
  obtain ⟨r', hr', hfills', -⟩ := hr.carried
    (s := ⟨[z'], z :: tail, false, ht'.closer_mem, ht.closer_mem, by simp⟩) rfl hfills hn
    (htext'.trans htext.symm) hargs has hx hxrest (hxnaming.trans henaming) hbody (.inr ⟨ht.opener, rfl⟩) ht'.closer
    ht.closer
  exact ⟨r', hr', hfills'⟩

end

end

/-! ### The two programs -/

namespace Cursor
variable (s s' : String)

theorem parens_ofText : (ofText s).parens = 0 := rfl

theorem locals_ofText : (ofText s).locals = [⟨true, []⟩] := rfl

theorem naming_ofText : (ofText s).naming = (ofText s').naming := by
  have hstart (s : String) : (ofText s).naming = ⟨0, [⟨true, []⟩]⟩ := rfl
  rw [hstart, hstart]

end Cursor

theorem length_eq_of_keys {ts us : List Token} {keys : List Token.Key} (ht : ts.map Token.key = keys)
    (hu : us.map Token.key = keys) : ts.length = us.length := by
  simpa using congrArg List.length (ht.trans hu.symm)

/-- A text that is a call with a block. -/
theorem Program.reading_of_reads {s : String} {r : CallRun} {closer : Token.Kind} (h : (Cursor.ofText s).AtCall)
    (hr : r.Reads (Cursor.ofText s).rest.length closer (.ofText s)) (hlast : r.last.kind = .eof)
    (hparens : r.closing.parens = 0) :
    ∃ d, reading s = ([r.call (Cursor.ofText s).current], .ok () d) := by
  obtain ⟨m, hm⟩ : ∃ m, (Cursor.ofText s).rest.length = m + 1 := by
    have hrest := Cursor.rest_eq_of_kind h.parens (by rw [h.kind]; decide)
    exact ⟨_, congrArg List.length hrest⟩
  obtain ⟨d, hrun⟩ : ∃ d, Parser.statements (Parser.expr ((Cursor.ofText s).rest.length + 1)) [] (m + 2) (.ofText s) =
      ([r.call (Cursor.ofText s).current], .ok () d) := Parser.statements_of_reads h hr hlast hparens
  rw [show m + 2 = (Cursor.ofText s).rest.length + 1 by rw [hm]] at hrun
  exact ⟨d, hrun⟩

/-- The same cursor before a text whose end is marked by two more tokens. -/
def Cursor.padded (c : Cursor) : Cursor := { c with rest := c.rest ++ [.eofAt 0, .eofAt 0] }

/-- A text is read if it is read with its end marked. -/
theorem Program.reading_of_padded {s : String} {n fuel : Nat} {stmts : List Expr} {d : Cursor}
    (hn : (Cursor.ofText s).rest.length + 1 ≤ n) (hfuel : (Cursor.ofText s).rest.length + 1 ≤ fuel)
    (hrun : Parser.statements (Parser.expr n) [] fuel (Cursor.ofText s).padded = (stmts, .ok () d)) :
    ∃ stmts d, reading s = (stmts, .ok () d) := by
  match h : reading s with
  | (stmts, .ok () d) => exact ⟨stmts, d, rfl⟩
  | (stmts, .error .outOfFuel d) =>
    have hends := parse_ends s
    rw [parse_eq, h] at hends
    exact absurd rfl hends
  | (stmts, .error (.fault f) d) =>
    have hecho : (Cursor.ofText s).Echoes .blind
        (.top (s := ⟨[], [.eofAt 0, .eofAt 0], false, by decide, by decide, Nat.zero_le _⟩))
        (Cursor.ofText s).padded := by
      refine ⟨⟨_, _, (List.append_nil _).symm, rfl, rfl, fun _ _ => nofun⟩, fun _ t ht => ?_, rfl, rfl, rfl⟩
      fin_cases ht <;> rfl
    obtain ⟨_, _, _, hfault, -⟩ := Parser.carries_statements_fault
      (fun hfits => Parser.carries_expr hn hfits) ⟨rfl, by simp [Token.eofAt]⟩ hecho h hfuel
    rw [hrun] at hfault
    cases hfault

namespace CallRun.Fills
variable {r : CallRun} {o z : Token} {inner tail : List Token} (h : r.Fills o inner (z :: tail))
include h

theorem last_kind (htail : ∀ t ∈ tail, t.kind = .eof) : r.last.kind = .eof := by
  rw [Cursor.kind_eq_firstKind (show r.last.parens = 0 from h.closing_parens)]
  show firstKind r.closing.next.rest = .eof
  rw [(Cursor.current_eq h.closing_rest (.inl h.closing_parens)).2]
  cases tail with
  | nil => rfl
  | cons t tail => exact htail t List.mem_cons_self

/-- A block starts where its opening bracket does. -/
theorem block_start {source : List Char} {pos : Nat} {before : List Token}
    (htiled : Tiled source pos (before ++ o :: (inner ++ z :: tail))) : r.block.span.start = o.span.start := by
  have hopening := (Cursor.current_eq h.opening_rest (.inl h.opening_parens)).1
  have hclosing := (Cursor.current_eq h.closing_rest (.inl h.closing_parens)).1
  have hrow : Tiled source o.span.start (o :: inner ++ z :: tail) := ⟨le_rfl, htiled.drop.2⟩
  have hle : o.span.start ≤ z.span.start := hrow.drop.1
  show min r.opening.current.span.start r.closing.current.span.start = _
  rw [hopening, hclosing, min_eq_left hle]

end CallRun.Fills

namespace CallParts
variable {f x p b : String} {stmts : List Expr} {d : Cursor} (h : CallParts f x p b)
include h

theorem rest_commandForm :
    (Cursor.ofText (commandForm f x p b)).rest = Token.lexemes (commandForm f x p b) :=
  Cursor.rest_ofText fun t ht =>
    (h.valid_texts [f, x, "do", p, b, "end"] (by simp [callMarks]) t ht).2

theorem rest_parenForm : (Cursor.ofText (parenForm f x p b)).rest = Token.lexemes (parenForm f x p b) :=
  Cursor.rest_ofText fun t ht =>
    (h.valid_texts [f, "(", x, ")", "\x7b", p, b, "\x7d"] (by simp [callMarks]) t ht).2

theorem length_commandForm_le :
    (Cursor.ofText (commandForm f x p b)).rest.length ≤ (Cursor.ofText (parenForm f x p b)).rest.length := by
  obtain ⟨name, xs, o, inner, z, ht, hlexemes, -⟩ := h.lexemes_commandForm
  obtain ⟨name', left, xs', right, o', inner', z', ht', hlexemes'⟩ := h.lexemes_parenForm
  rw [h.rest_commandForm.trans hlexemes, h.rest_parenForm.trans hlexemes']
  simp only [List.length_cons, List.length_append, List.length_nil, length_eq_of_keys ht.args ht'.args,
    length_eq_of_keys ht.body ht'.body]
  omega

variable (hloop : ∀ t ∈ Token.lexemes x, t.kind ≠ .whileKw)
include hloop

/-- A text of the first form that parses is one call, and one of the second form is the same call. -/
theorem reading_of_command (hrun : Program.reading (commandForm f x p b) = (stmts, .ok () d)) :
    ∃ (r r' : CallRun) (name name' : Token) (d' : Cursor), name.text = f ∧
      stmts = [r.call name] ∧ Program.reading (parenForm f x p b) = ([r'.call name'], .ok () d') ∧
        (r.call name).unspanned = (r'.call name').unspanned ∧
        r.block.span.start = byteLength (f ++ " " ++ x ++ " ").toList := by
  obtain ⟨name, xs, o, inner, z, ht, hlexemes, hstart⟩ := h.lexemes_commandForm
  obtain ⟨name', left, xs', right, o', inner', z', ht', hlexemes'⟩ := h.lexemes_parenForm
  have hrest := h.rest_commandForm.trans hlexemes
  have hrest' := h.rest_parenForm.trans hlexemes'
  obtain ⟨r, r', hr, hfills, hr', hfills', halike⟩ := parens_of_command h hloop h.length_commandForm_le ht ht'
    (Cursor.parens_ofText _) (Cursor.locals_ofText _) (Cursor.parens_ofText _) (Cursor.naming_ofText _ _)
    hrest' hrest hrun (Program.valid_of_reading hrun).1
  obtain ⟨hat, htext, -⟩ := ht.atCall h (Cursor.parens_ofText _) (Cursor.locals_ofText _) hrest
  obtain ⟨hat', -⟩ := ht'.atCall (Cursor.parens_ofText _) (Cursor.locals_ofText _) hrest'
  obtain ⟨d₁, hone⟩ := Program.reading_of_reads hat hr (hfills.last_kind (by simp)) hfills.closing_parens
  obtain ⟨d₂, hother⟩ := Program.reading_of_reads hat' hr' (hfills'.last_kind (by simp)) hfills'.closing_parens
  have hstmts := congrArg Prod.fst (hrun.symm.trans hone)
  refine ⟨r, r', _, _, d₂, htext, hstmts, hother, halike, ?_⟩
  have htiled := Cursor.tiled_ofText (commandForm f x p b)
  rw [hrest] at htiled
  rw [← List.cons_append] at htiled
  exact (hfills.block_start htiled).trans hstart

/-- A text of the first form parses if that of the second form does. -/
theorem reading_of_parens (hrun : Program.reading (parenForm f x p b) = (stmts, .ok () d)) :
    ∃ stmts d, Program.reading (commandForm f x p b) = (stmts, .ok () d) := by
  obtain ⟨name, xs, o, inner, z, ht, hlexemes, -⟩ := h.lexemes_commandForm
  obtain ⟨name', left, xs', right, o', inner', z', ht', hlexemes'⟩ := h.lexemes_parenForm
  have hrest := h.rest_commandForm.trans hlexemes
  have hrest' := h.rest_parenForm.trans hlexemes'
  -- with its end marked twice the first text is as long as the second one
  have hpadded : (Cursor.ofText (commandForm f x p b)).padded.rest =
      name :: (xs ++ o :: (inner ++ z :: [.eofAt 0, .eofAt 0])) := by
    simp [Cursor.padded, hrest]
  obtain ⟨r, hr, hfills⟩ := command_of_parens h hloop le_rfl ht ht'
    (c := (Cursor.ofText (commandForm f x p b)).padded) (Cursor.parens_ofText (commandForm f x p b))
    (Cursor.locals_ofText (commandForm f x p b)) (Cursor.parens_ofText _)
    (Cursor.naming_ofText _ (commandForm f x p b)) hrest' hpadded le_rfl hrun (Program.valid_of_reading hrun).1
  obtain ⟨hat, -⟩ := ht.atCall h (Cursor.parens_ofText (commandForm f x p b))
    (c := (Cursor.ofText (commandForm f x p b)).padded)
    (Cursor.locals_ofText (commandForm f x p b)) hpadded
  obtain ⟨d, hall⟩ :=
    Parser.statements_of_reads hat hr (hfills.last_kind (by simp [Token.eofAt])) hfills.closing_parens
  have hlength := Nat.succ_le_succ h.length_commandForm_le
  exact Program.reading_of_padded hlength (hlength.trans (Nat.le_succ _)) hall

end CallParts

theorem Program.program?_of_reading {source : String} {stmts : List Expr} {d : Cursor}
    (h : reading source = (stmts, .ok () d)) : (parse source).program? = some ⟨stmts⟩ := by
  rw [parse_eq, h]
  rfl

namespace Program

/-- A call with a block can be written in two ways.  Both parse or none does, and then both are the same
call up to the spans, and its block is the one that begins at the `do`: no call among the arguments takes it. -/
theorem commandForm_iff_parenForm {f x p b : String} (h : CallParts f x p b)
    (hloop : ∀ t ∈ Token.lexemes x, t.kind ≠ .whileKw) :
    ((parse (commandForm f x p b)).program?.isSome = true ↔
        (parse (parenForm f x p b)).program?.isSome = true) ∧
      ∀ q q', (parse (commandForm f x p b)).program? = some q →
        (parse (parenForm f x p b)).program? = some q' →
          q.unspanned = q'.unspanned ∧ ∃ id span nameSpan args block,
            q.stmts = [.node id span (.call f nameSpan args (some block))] ∧
              block.span.start = byteLength (f ++ " " ++ x ++ " ").toList := by
  refine ⟨⟨fun hq => ?_, fun hq => ?_⟩, fun q q' hq hq' => ?_⟩
  · obtain ⟨q, hq⟩ := Option.isSome_iff_exists.1 hq
    obtain ⟨d, hrun⟩ := reading_of_program? hq
    obtain ⟨_, _, _, _, _, -, -, hrun', -⟩ := h.reading_of_command hloop hrun
    rw [program?_of_reading hrun']
    rfl
  · obtain ⟨q, hq⟩ := Option.isSome_iff_exists.1 hq
    obtain ⟨d, hrun⟩ := reading_of_program? hq
    obtain ⟨_, _, hrun'⟩ := h.reading_of_parens hloop hrun
    rw [program?_of_reading hrun']
    rfl
  · obtain ⟨d, hrun⟩ := reading_of_program? hq
    obtain ⟨r, r', name, name', d', rfl, hstmts, hrun', halike, hstart⟩ := h.reading_of_command hloop hrun
    rw [program?_of_reading hrun'] at hq'
    cases hq'
    refine ⟨?_, _, _, _, _, _, hstmts, hstart⟩
    rw [unspanned, unspanned, hstmts, List.map_singleton, List.map_singleton, halike]

theorem callParts_block : CallParts "f" "g 1, y = 2" "|a|" "g a do 3 end\ny" where
  name := by cbv
  starts := by cbv
  inside := by
    have hall : ((Token.lexemes "g 1, y = 2").all fun t =>
        t.kind ∉ [.newline, .semicolon, .doKw, .comment, .invalid]) = true := by cbv
    simpa using hall
  params := .inr ⟨1, by cbv⟩
  clean := by
    have hall : ((Token.lexemes "g a do 3 end\ny").all fun t => t.kind ≠ .comment) = true := by cbv
    simpa using hall
  parses := by cbv

/-- The block of the outer call holds a call with a block of its own. -/
theorem commandForm_iff_parenForm_block :
    commandForm "f" "g 1, y = 2" "|a|" "g a do 3 end\ny" = "f g 1, y = 2 do |a| g a do 3 end\ny end" ∧
      parenForm "f" "g 1, y = 2" "|a|" "g a do 3 end\ny" = "f ( g 1, y = 2 ) \x7b |a| g a do 3 end\ny \x7d" ∧
      ((parse (commandForm "f" "g 1, y = 2" "|a|" "g a do 3 end\ny")).program?.isSome = true ↔
        (parse (parenForm "f" "g 1, y = 2" "|a|" "g a do 3 end\ny")).program?.isSome = true) := by
  have hloop : ((Token.lexemes "g 1, y = 2").all fun t => t.kind ≠ .whileKw) = true := by cbv
  exact ⟨by cbv, by cbv, (commandForm_iff_parenForm callParts_block (by simpa using hloop)).1⟩

theorem callParts_loop : CallParts "f" "x = while c" "" "1" where
  name := by cbv
  starts := by cbv
  inside := by
    have hall : ((Token.lexemes "x = while c").all fun t =>
        t.kind ∉ [.newline, .semicolon, .doKw, .comment, .invalid]) = true := by cbv
    simpa using hall
  params := .inl (by cbv)
  clean := by
    have hall : ((Token.lexemes "1").all fun t => t.kind ≠ .comment) = true := by cbv
    simpa using hall
  parses := by cbv

/-- A loop that is an argument takes the `do`, and in parentheses it lacks one. -/
theorem loop_takes_block : CallParts "f" "x = while c" "" "1" ∧
    (parse (commandForm "f" "x = while c" "" "1")).program?.isSome = true ∧
      (parse (parenForm "f" "x = while c" "" "1")).program?.isSome = false :=
  ⟨callParts_loop, by cbv, by cbv⟩

end Program

end FlowTyping
