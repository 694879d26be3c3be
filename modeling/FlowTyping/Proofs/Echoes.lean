import FlowTyping.Proofs.Progress
import FlowTyping.Proofs.RoundTrip

/-!
# Cursors that see the same

The parser goes by the kinds and the texts of tokens.  Where tokens stand only shows in the spans that
it puts into trees and faults, and there only through `Span.merge`.  `SpanView` is what somebody sees of
spans: all of them (`SpanView.exact`), or nothing (`SpanView.blind`).

`Cursor.Echoes` relates two cursors that have the same tokens ahead, as far as they are seen, up to a
place where the texts go on differently (`Sides`).  The two cannot tell themselves apart while one of the
shared tokens besides line feeds is ahead (`Cursor.Echoes.current`).  At the place itself they see what
the texts go on with (`Cursor.Echoes.kind`), unless a parenthesis is open and hides it.
-/

namespace FlowTyping

/-! ### Views of spans -/

/-- What is seen of spans.  Spans that are seen alike are merged alike. -/
structure SpanView where
  see : Span → Span
  see_merge : ∀ {a a' b b'}, see a = see a' → see b = see b' → see (a.merge b) = see (a'.merge b')

namespace SpanView

/-- Spans as they are. -/
def exact : SpanView := ⟨fun s => s, fun ha hb => by rw [ha, hb]⟩

/-- Nothing is seen of spans. -/
def blind : SpanView := ⟨fun _ => ⟨0, 0⟩, fun _ _ => rfl⟩

end SpanView

section
variable (v : SpanView)

def Token.seen (t : Token) : Token := { t with span := v.see t.span }

def Ident.seen (i : Ident) : Ident := { i with span := v.see i.span }

def Block.seen (b : Block α) : Block α :=
  { b with span := v.see b.span, params := b.params.map (Ident.seen v) }

/-- What is seen of the spans that a layer has itself. -/
def Form.seen : Form α → Form α
  | literal value => literal value
  | var name => var name
  | assign target value => assign (target.seen v) value
  | call name nameSpan args block => call name (v.see nameSpan) args (block.map (Block.seen v))
  | yield args => yield args
  | branch cond thenBody elseBody => branch cond thenBody elseBody
  | loop cond body => loop cond body
  | define d => define ⟨d.name.seen v, d.params.map (Ident.seen v), d.body⟩

/-- An expression with what is seen of its spans. -/
def Expr.seen : Expr → Expr := fold fun id span form => node id (v.see span) (form.seen v)

theorem Expr.seen_node (id : NodeId) (span : Span) (form : Form Expr) :
    (node id span form).seen v = node id (v.see span) ((form.map (seen v)).seen v) := fold_node ..

variable {v}

theorem Expr.span_seen (e : Expr) : (e.seen v).span = v.see e.span := by
  obtain ⟨id, span, form⟩ := e
  rw [seen_node]
  rfl

theorem Expr.see_span {e e' : Expr} (h : e.seen v = e'.seen v) : v.see e.span = v.see e'.span := by
  rw [← span_seen, ← span_seen, h]

theorem Expr.seen_withSpan {e e' : Expr} {s s' : Span} (h : e.seen v = e'.seen v) (hs : v.see s = v.see s') :
    (e.withSpan s).seen v = (e'.withSpan s').seen v := by
  obtain ⟨id, span, form⟩ := e
  obtain ⟨id', span', form'⟩ := e'
  simp only [seen_node, node.injEq] at h
  simp only [withSpan, seen_node, id_node, form_node, node.injEq]
  exact ⟨h.1, hs, h.2.2⟩

theorem Token.see_span {t t' : Token} (h : t.seen v = t'.seen v) : v.see t.span = v.see t'.span :=
  congrArg Token.span h

theorem Token.kind_eq {t t' : Token} (h : t.seen v = t'.seen v) : t.kind = t'.kind :=
  (congrArg Token.kind h : (t.seen v).kind = (t'.seen v).kind)

theorem Token.text_eq {t t' : Token} (h : t.seen v = t'.seen v) : t.text = t'.text :=
  (congrArg Token.text h : (t.seen v).text = (t'.seen v).text)

theorem Ident.name_eq {i i' : Ident} (h : i.seen v = i'.seen v) : i.name = i'.name :=
  (congrArg Ident.name h : (i.seen v).name = (i'.seen v).name)

theorem Ident.seen_exact : Ident.seen .exact = fun i => i := rfl

/-- Whoever sees spans as they are sees the expression itself. -/
theorem Expr.seen_exact (e : Expr) : e.seen .exact = e := by
  induction e using Expr.induction with
  | step id span form ih =>
    have hsee (s : Span) : SpanView.exact.see s = s := rfl
    rw [seen_node, Form.map_congr (g := fun e => e) ih, hsee]
    congr 1
    rcases form with _ | _ | _ | ⟨_, _, _, _ | _⟩ | _ | ⟨_, _, _ | _⟩ | _ | _ <;>
      simp [Form.map, Form.seen, Block.map, Block.seen, Definition.map, Ident.seen_exact, hsee]

theorem Expr.seen_blind (e : Expr) : e.seen .blind = e.unspanned := by
  induction e using Expr.induction with
  | step id span form ih =>
    rw [seen_node, unspanned_node, Form.map_congr ih]
    rfl

theorem Expr.map_seen_blind (es : List Expr) : es.map (seen .blind) = es.map unspanned :=
  List.map_congr_left fun e _ => seen_blind e

end

/-- Who sees nothing of spans sees the kinds and texts of tokens. -/
theorem Token.map_seen_blind {ts us : List Token} (h : ts.map Token.key = us.map Token.key) :
    ts.map (Token.seen .blind) = us.map (Token.seen .blind) := by
  have hseen (ts : List Token) :
      ts.map (Token.seen .blind) = (ts.map Token.key).map fun key => ⟨key.1, key.2, ⟨0, 0⟩⟩ := by
    rw [List.map_map]
    rfl
  rw [hseen, hseen, h]

/-! ### Texts that go on differently -/

/-- The kinds of tokens at which texts may begin to differ.  No name and no argument goes on with one of
them. -/
def enders : List Token.Kind := [.newline, .rparen, .rbrace, .endKw, .doKw, .eof]

/-- The kind of the first token, or the end of the text. -/
def firstKind (ts : List Token) : Token.Kind := (ts.headD (.eofAt 0)).kind

/-- How two texts go on behind the tokens that they share. -/
structure Sides where
  first : List Token
  second : List Token
  /-- Neither a line feed nor `do` is among the shared tokens. -/
  plain : Bool
  first_mem : firstKind first ∈ enders
  second_mem : firstKind second ∈ enders
  length_le : first.length ≤ second.length

namespace Sides
variable (s : Sides)

/-- Both texts end, and the end of the second one may be marked more than once. -/
def Blank : Prop := s.first = [] ∧ ∀ t ∈ s.second, t.kind = .eof

/-- A token of this kind may be shared. -/
def Admits (k : Token.Kind) : Prop := s.plain = true → k ≠ .newline ∧ k ≠ .doKw

/-- How many parentheses are open around two cursors.  Both hide line feeds or none does, unless there is
none to be hidden. -/
structure Level where
  here : Nat
  there : Nat
  agree : s.plain = false → (here = 0 ↔ there = 0)

/-- Tokens that are shared, and then what the texts go on with. -/
def Split (v : SpanView) (ts ts' : List Token) : Prop :=
  ∃ us us', ts = us ++ s.first ∧ ts' = us' ++ s.second ∧ us.map (Token.seen v) = us'.map (Token.seen v) ∧
    ∀ t ∈ us, s.Admits t.kind

/-- Both texts end. -/
def ends : Sides := ⟨[], [], false, by decide, by decide, le_rfl⟩

theorem blank_ends : ends.Blank := ⟨rfl, fun _ h => absurd h List.not_mem_nil⟩

variable {s}

/-- Outside of all parentheses. -/
def Level.top : s.Level := ⟨0, 0, fun _ => Iff.rfl⟩

/-- Inside one parenthesis more. -/
def Level.inner (l : s.Level) : s.Level :=
  ⟨l.here + 1, l.there + 1, fun _ => iff_of_false (Nat.succ_ne_zero _) (Nat.succ_ne_zero _)⟩

/-- Where the texts go on differently, neither cursor looks further. -/
def Level.Snug (l : s.Level) : Prop :=
  l.here = 0 ∧ l.there = 0 ∨ firstKind s.first ≠ .newline ∧ firstKind s.second ≠ .newline

theorem firstKind_of_blank (h : s.Blank) : firstKind s.first = .eof ∧ firstKind s.second = .eof := by
  refine ⟨by rw [h.1]; rfl, ?_⟩
  cases hsecond : s.second with
  | nil => rfl
  | cons t ts => exact h.2 t (by simp [hsecond])

theorem snug_of_blank (h : s.Blank) (l : s.Level) : l.Snug := by
  obtain ⟨hfirst, hsecond⟩ := firstKind_of_blank h
  exact .inr ⟨by rw [hfirst]; decide, by rw [hsecond]; decide⟩

theorem ne_first {k : Token.Kind} (hk : k ∉ enders) : firstKind s.first ≠ k :=
  fun h => hk (h ▸ s.first_mem)

theorem ne_second {k : Token.Kind} (hk : k ∉ enders) : firstKind s.second ≠ k :=
  fun h => hk (h ▸ s.second_mem)

end Sides

/-! ### Cursors -/

/-- What the rest of a run shows of the tokens ahead: there is a shared one besides line feeds, or else it
does not go beyond the shared ones. -/
inductive Grip where
  | firm | safe

/-- Behind a shared token it does not matter how the texts go on. -/
theorem Grip.not_safe {p : Prop} (h : firm = safe) : p := nomatch h

namespace Cursor

/-- A shared token other than a line feed stands ahead. -/
def Firm (s : Sides) (c : Cursor) : Prop := ∃ us, c.rest = us ++ s.first ∧ ∃ t ∈ us, t.kind ≠ .newline

/-- What is shared stands ahead of both cursors, and then what the texts go on with. -/
structure Echoes (v : SpanView) {s : Sides} (l : s.Level) (c c' : Cursor) : Prop where
  split : s.Split v c.rest c'.rest
  stop : s.Blank → ∀ t ∈ Token.eofAt c'.stop :: s.second, (Token.eofAt c.stop).seen v = t.seen v
  here : c.parens = l.here
  there : c'.parens = l.there
  naming : c'.naming = c.naming

end Cursor

/-- Where both texts end there is nothing to hold on to. -/
def Grip.Holds (s : Sides) : Grip → Cursor → Prop
  | firm, c => s.first <:+ c.rest ∧ (¬ s.Blank → c.Firm s)
  | safe, c => s.first <:+ c.rest

/-- When two expressions are read alike with `g` behind them: both may end in a `do` block or none may,
unless no `do` is shared, and neither goes on with what the texts go on with. -/
structure Sides.Level.Fits {s : Sides} (l : s.Level) (allowDo allowDo' : Bool) (g : Grip) : Prop where
  same : s.plain = false → allowDo = allowDo'
  snug : g = .safe → l.Snug
  first_ne : g = .safe → allowDo = true → firstKind s.first ≠ .doKw
  second_ne : g = .safe → allowDo' = true → firstKind s.second ≠ .doKw

namespace Sides.Level
variable {s : Sides} {l : s.Level} {allowDo : Bool} {g : Grip}

theorem fits_firm : l.Fits allowDo allowDo .firm :=
  ⟨fun _ => rfl, Grip.not_safe, Grip.not_safe, Grip.not_safe⟩

theorem fits_false (hsnug : g = .safe → l.Snug) : l.Fits false false g :=
  ⟨fun _ => rfl, hsnug, fun _ h => absurd h (by decide), fun _ h => absurd h (by decide)⟩

end Sides.Level

namespace Sides.Split
variable {v : SpanView} {s : Sides} {ts ts' us : List Token}

theorem dropWhile_firstKind {q : Token.Kind → Bool} (h : q (firstKind ts) = false) :
    ts.dropWhile (q ·.kind) = ts := by
  cases ts with
  | nil => rfl
  | cons t ts => exact List.dropWhile_cons_of_neg (by simpa [firstKind] using h)

/-- Tokens in front are dropped alike by their kinds, if dropping ends at a shared token or where the
texts go on differently. -/
theorem dropWhile (h : s.Split v ts ts') (q : Token.Kind → Bool)
    (hends : (∃ us, ts = us ++ s.first ∧ ∃ t ∈ us, q t.kind = false) ∨
      q (firstKind s.first) = false ∧ q (firstKind s.second) = false) :
    s.Split v (ts.dropWhile (q ·.kind)) (ts'.dropWhile (q ·.kind)) := by
  obtain ⟨us, us', rfl, rfl, hseen, hplain⟩ := h
  replace hends : (∃ t ∈ us, q t.kind = false) ∨
      q (firstKind s.first) = false ∧ q (firstKind s.second) = false := by
    refine hends.imp_left fun ⟨ws, hws, h⟩ => ?_
    rwa [List.append_cancel_right hws]
  induction us generalizing us' with
  | nil =>
    obtain rfl := List.map_eq_nil_iff.1 hseen.symm
    obtain ⟨t, ht, -⟩ | ⟨hfirst, hsecond⟩ := hends
    · exact absurd ht List.not_mem_nil
    · rw [List.nil_append, List.nil_append, dropWhile_firstKind hfirst, dropWhile_firstKind hsecond]
      exact ⟨[], [], rfl, rfl, rfl, fun _ h => absurd h List.not_mem_nil⟩
  | cons t us ih =>
    obtain ⟨t', us', rfl, ht, hus⟩ := List.map_eq_cons_iff.1 hseen.symm
    have hkind : t'.kind = t.kind := Token.kind_eq ht
    have hcons (t : Token) (ts : List Token) :
        (t :: ts).dropWhile (q ·.kind) = if q t.kind then ts.dropWhile (q ·.kind) else t :: ts :=
      List.dropWhile_cons ..
    rw [List.cons_append, List.cons_append, hcons, hcons, hkind]
    split
    · next hq =>
      refine ih us' hus.symm (fun t ht => hplain t (List.mem_cons_of_mem _ ht)) ?_
      refine hends.imp_left fun ⟨u, hu, hqu⟩ => ⟨u, (List.mem_cons.1 hu).resolve_left ?_, hqu⟩
      rintro rfl
      exact absurd (hq.symm.trans hqu) (by decide)
    · exact ⟨t :: us, t' :: us', rfl, rfl, by rw [List.map_cons, List.map_cons, ht, hus], hplain⟩

/-- Without line feeds among the shared tokens none is dropped. -/
theorem dropWhile_plain (h : s.Split v ts ts') (hplain : s.plain = true)
    (hends : (∃ us, ts = us ++ s.first ∧ ∃ t ∈ us, t.kind ≠ .newline) ∨
      firstKind s.first ≠ .newline ∧ firstKind s.second ≠ .newline) :
    ts.dropWhile (·.kind == .newline) = ts ∧ ts'.dropWhile (·.kind == .newline) = ts' := by
  obtain ⟨us, us', rfl, rfl, hseen, hadmits⟩ := h
  cases us with
  | nil =>
    obtain rfl := List.map_eq_nil_iff.1 hseen.symm
    obtain ⟨ws, hws, t, ht, -⟩ | ⟨hfirst, hsecond⟩ := hends
    · rw [← List.append_cancel_right hws] at ht
      exact absurd ht List.not_mem_nil
    · exact ⟨dropWhile_firstKind (q := (· == .newline)) (beq_eq_false_iff_ne.2 hfirst),
        dropWhile_firstKind (q := (· == .newline)) (beq_eq_false_iff_ne.2 hsecond)⟩
  | cons t us =>
    obtain ⟨t', us', rfl, ht, -⟩ := List.map_eq_cons_iff.1 hseen.symm
    have hkind : t'.kind = t.kind := Token.kind_eq ht
    have hne := (hadmits t List.mem_cons_self hplain).1
    exact ⟨List.dropWhile_cons_of_neg (by simp [hne]), List.dropWhile_cons_of_neg (by simp [hkind, hne])⟩

end Sides.Split

namespace Cursor

variable {v : SpanView} {s : Sides} {l : s.Level} {c c' d d' : Cursor} {g : Grip}

theorem Firm.suffix (h : c.Firm s) : s.first <:+ c.rest := h.elim fun us ⟨hrest, _⟩ => ⟨us, hrest.symm⟩

theorem Firm.of_suffix (h : d.Firm s) (hrest : d.rest <:+ c.rest) : c.Firm s := by
  obtain ⟨us, hd, t, ht, hkind⟩ := h
  obtain ⟨read, hread⟩ := hrest
  exact ⟨read ++ us, by rw [← hread, hd, List.append_assoc], t, List.mem_append_right _ ht, hkind⟩

theorem Firm.holds (h : c.Firm s) : g.Holds s c :=
  match g with
  | .firm => ⟨h.suffix, fun _ => h⟩
  | .safe => h.suffix

theorem holds_of_blank (h : s.Blank) : g.Holds s c :=
  have hsuffix : s.first <:+ c.rest := by rw [h.1]; exact List.nil_suffix
  match g with
  | .firm => ⟨hsuffix, fun hopen => absurd h hopen⟩
  | .safe => hsuffix

theorem suffix_of_holds (h : g.Holds s c) : s.first <:+ c.rest :=
  match g with
  | .firm => h.1
  | .safe => h

/-- Whoever holds on firmly is safe. -/
theorem holds_of_firm (h : Grip.firm.Holds s c) : g.Holds s c :=
  match g with
  | .firm => h
  | .safe => h.1

theorem holds_of_suffix (h : g.Holds s d) (hrest : d.rest <:+ c.rest) : g.Holds s c :=
  match g with
  | .firm => ⟨h.1.trans hrest, fun hopen => (h.2 hopen).of_suffix hrest⟩
  | .safe => h.trans hrest

/-- A token that is read is shared if what comes behind it is. -/
theorem Firm.of_kind (h : c.kind ≠ .eof ∧ c.kind ≠ .newline) (hrest : s.first <:+ c.next.rest) : c.Firm s := by
  obtain ⟨hidden, hrest', -⟩ := rest_eq_current h.1
  obtain ⟨us, hus⟩ := hrest
  exact ⟨hidden ++ c.current :: us, by simp [hrest', ← hus], c.current, by simp, h.2⟩

theorem next_suffix (c : Cursor) : c.next.rest <:+ c.rest := by
  obtain ⟨hidden, hrest, -⟩ := c.rest_eq_visible
  exact (List.drop_suffix 1 c.visible).trans ⟨hidden, hrest.symm⟩

/-- Outside of all parentheses nothing is hidden. -/
theorem kind_eq_firstKind (h : c.parens = 0) : c.kind = firstKind c.rest := by
  unfold Cursor.kind Cursor.current Cursor.visible firstKind
  rw [if_pos h]
  cases c.rest <;> rfl

/-- At a token that is no terminator there is none to be skipped. -/
theorem skipTerminators_eq (hparens : c.parens = 0) (h : isTerminator c.kind = false) :
    c.skipTerminators = c := by
  have hrest : c.rest.dropWhile (isTerminator ·.kind) = c.rest :=
    Sides.Split.dropWhile_firstKind (kind_eq_firstKind hparens ▸ h)
  rw [skipTerminators, hrest]

/-- A shared token other than a line feed is not hidden. -/
theorem Firm.visible (h : c.Firm s) : ∃ t us, c.visible = t :: (us ++ s.first) := by
  obtain ⟨us, hrest, t, ht, hkind⟩ := h
  obtain ⟨hidden, hvisible, hhidden⟩ := c.rest_eq_visible
  rw [hrest] at hvisible
  obtain ⟨ws, rfl, hws⟩ | ⟨ws, rfl, hws⟩ := List.append_eq_append_iff.1 hvisible
  · exact absurd (hhidden t (by simp [ht])) hkind
  · cases ws with
    | nil =>
      rw [List.append_nil] at ht
      exact absurd (hhidden t ht) hkind
    | cons w ws => exact ⟨w, ws, by rw [hws, List.cons_append]⟩

namespace Echoes

theorem length_le (h : c.Echoes v l c') : c.rest.length ≤ c'.rest.length := by
  obtain ⟨us, us', hc, hc', hseen, -⟩ := h.split
  have hlength := congrArg List.length hseen
  have := s.length_le
  rw [List.length_map, List.length_map] at hlength
  rw [hc, hc', List.length_append, List.length_append]
  omega

theorem withoutParens (h : c.Echoes v l c') :
    ({ c with parens := 0 } : Cursor).Echoes v (.top (s := s)) { c' with parens := 0 } :=
  ⟨h.split, h.stop, rfl, rfl, h.naming⟩

theorem rest_eq_second (h : c.Echoes v l c') (hc : c.rest = s.first) : c'.rest = s.second := by
  obtain ⟨us, us', hus, hus', hseen, -⟩ := h.split
  obtain rfl : [] = us := List.append_cancel_right (hc.symm.trans hus)
  rw [hus', List.map_eq_nil_iff.1 hseen.symm, List.nil_append]

/-- What is visible of the shared tokens is shared. -/
theorem visible (h : c.Echoes v l c') (hends : l.Snug ∨ c.Firm s) : s.Split v c.visible c'.visible := by
  by_cases htop : l.here = 0 ∧ l.there = 0
  · simpa [Cursor.visible, h.here, h.there, htop] using h.split
  have hends : c.Firm s ∨ firstKind s.first ≠ .newline ∧ firstKind s.second ≠ .newline :=
    hends.elim (fun hsnug => .inr (hsnug.resolve_left htop)) .inl
  have hplain (hp : s.plain = true) := h.split.dropWhile_plain hp hends
  -- whoever sees line feeds has none ahead
  have hvisible : c.visible = c.rest.dropWhile (·.kind == .newline) := by
    unfold Cursor.visible
    rw [h.here]
    split
    · next hhere =>
      refine (hplain (Bool.not_eq_false _ ▸ fun hp => htop ⟨hhere, (l.agree hp).1 hhere⟩)).1.symm
    · rfl
  have hvisible' : c'.visible = c'.rest.dropWhile (·.kind == .newline) := by
    unfold Cursor.visible
    rw [h.there]
    split
    · next hthere =>
      refine (hplain (Bool.not_eq_false _ ▸ fun hp => htop ⟨(l.agree hp).2 hthere, hthere⟩)).2.symm
    · rfl
  rw [hvisible, hvisible']
  refine h.split.dropWhile (· == .newline) (hends.imp ?_ ?_)
  · rintro ⟨us, hus, t, ht, hkind⟩
    exact ⟨us, hus, t, ht, beq_eq_false_iff_ne.2 hkind⟩
  · rintro ⟨hfirst, hsecond⟩
    exact ⟨beq_eq_false_iff_ne.2 hfirst, beq_eq_false_iff_ne.2 hsecond⟩

theorem current_of_firm (h : c.Echoes v l c') (hfirm : c.Firm s) :
    c.current.seen v = c'.current.seen v ∧ s.Admits c.kind := by
  obtain ⟨t, us, hvisible⟩ := hfirm.visible
  obtain ⟨ws, ws', hws, hws', hseen, hadmits⟩ := h.visible (.inr hfirm)
  obtain rfl : t :: us = ws := List.append_cancel_right (hvisible.symm.trans hws)
  obtain ⟨t', us', rfl, ht, -⟩ := List.map_eq_cons_iff.1 hseen.symm
  simp only [Cursor.kind, Cursor.current, hvisible, hws']
  exact ⟨ht.symm, hadmits t List.mem_cons_self⟩

/-- Where both texts end nothing else can be seen. -/
theorem current (h : c.Echoes v l c') (hfirm : Grip.firm.Holds s c) :
    c.current.seen v = c'.current.seen v := by
  by_cases hblank : s.Blank
  · have hstop := h.stop hblank
    obtain ⟨us, us', hus, hus', hseen, -⟩ := h.visible (.inl (Sides.snug_of_blank hblank l))
    unfold Cursor.current
    cases us with
    | nil =>
      obtain rfl := List.map_eq_nil_iff.1 hseen.symm
      rw [hus, hus', hblank.1]
      cases hsecond : s.second with
      | nil => exact hstop _ List.mem_cons_self
      | cons t ts => exact hstop t (by simp [hsecond])
    | cons t us =>
      obtain ⟨t', us', rfl, ht, -⟩ := List.map_eq_cons_iff.1 hseen.symm
      rw [hus, hus']
      exact ht.symm
  · exact (h.current_of_firm (hfirm.2 hblank)).1

theorem kind_eq (h : c.Echoes v l c') (hfirm : Grip.firm.Holds s c) : c.kind = c'.kind :=
  Token.kind_eq (h.current hfirm)

/-- At the place where the texts go on differently the cursors see how they do. -/
theorem kind (h : c.Echoes v l c') (hsnug : l.Snug) : c.kind = c'.kind ∧ s.Admits c.kind ∨
    c.kind = firstKind s.first ∧ c'.kind = firstKind s.second := by
  obtain ⟨us, us', hus, hus', hseen, hadmits⟩ := h.visible (.inl hsnug)
  have hfirst (ts : List Token) (c : Cursor) (hc : c.visible = ts) : c.kind = firstKind ts := by
    unfold Cursor.kind Cursor.current firstKind
    rw [hc]
    cases ts <;> rfl
  cases us with
  | nil =>
    obtain rfl := List.map_eq_nil_iff.1 hseen.symm
    exact .inr ⟨hfirst _ _ hus, hfirst _ _ hus'⟩
  | cons t us =>
    obtain ⟨t', us', rfl, ht, -⟩ := List.map_eq_cons_iff.1 hseen.symm
    simp only [Cursor.kind, Cursor.current, hus, hus']
    exact .inl ⟨(Token.kind_eq ht).symm, hadmits t List.mem_cons_self⟩

/-- What is seen alike of the current tokens is their kind, and a shared token is of a kind that may be
shared. -/
theorem kind_of_firm (h : c.Echoes v l c') (hfirm : Grip.firm.Holds s c) :
    c.kind = c'.kind ∧ s.Admits c.kind := by
  refine ⟨h.kind_eq hfirm, ?_⟩
  by_cases hblank : s.Blank
  · rcases h.kind (Sides.snug_of_blank hblank l) with ⟨-, hadmits⟩ | ⟨hc, -⟩
    · exact hadmits
    · rw [hc, (Sides.firstKind_of_blank hblank).1]
      exact fun _ => by decide
  · exact (h.current_of_firm (hfirm.2 hblank)).2

theorem next (h : c.Echoes v l c') (hfirm : c.Firm s) : c.next.Echoes v l c'.next := by
  refine ⟨?_, h.stop, h.here, h.there, h.naming⟩
  obtain ⟨t, us, hvisible⟩ := hfirm.visible
  obtain ⟨ws, ws', hws, hws', hseen, hadmits⟩ := h.visible (.inr hfirm)
  obtain rfl : t :: us = ws := List.append_cancel_right (hvisible.symm.trans hws)
  obtain ⟨t', us', rfl, -, hus⟩ := List.map_eq_cons_iff.1 hseen.symm
  show s.Split v (c.visible.drop 1) (c'.visible.drop 1)
  rw [hws, hws']
  exact ⟨us, us', rfl, rfl, hus.symm, fun t ht => hadmits t (List.mem_cons_of_mem _ ht)⟩

end Echoes

end Cursor

end FlowTyping
