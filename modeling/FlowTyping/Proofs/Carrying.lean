import FlowTyping.Proofs.Echoes

/-!
# Runs that are repeated

`Parser.Carries`: at cursors that echo each other two parsers do the same.  It has a lemma for each way in
which productions are put together, and for each step over a token.

Where the texts go on differently a run of the parser is only repeated if it did not look further.  That
shows from the end of a run backwards: what was left at its end was ahead all the time, and so was every
token that it read (`Grip`).  So each rule tells what was ahead before from what is ahead afterwards, and
the only place where it may be seen how the texts go on is behind an expression that does not go on with
that (`Sides.Level.Fits`).
-/

namespace FlowTyping

/-! ### Rules -/

/-- The same fault, wherever it is. -/
def Fault.Alike (f f' : Fault) : Prop :=
  f.message = f'.message ∧ f.related?.map Prod.fst = f'.related?.map Prod.fst

theorem Fault.alike_unexpectedToken {v : SpanView} {t t' : Token} (h : t.seen v = t'.seen v)
    (wanted : Wanted) : (unexpectedToken wanted t).Alike (unexpectedToken wanted t') := by
  have hcause : (unexpectedToken wanted t).cause = (unexpectedToken wanted t').cause := by
    unfold unexpectedToken
    rw [Token.kind_eq h, Token.text_eq h]
  exact ⟨congrArg Cause.message hcause, congrArg (Option.map Prod.fst ∘ Cause.related?) hcause⟩

theorem Fault.alike_unclosed (construct : Construct) (opener opener' : Span) (found : Token.Kind)
    (span span' : Span) :
    (Fault.mk (.unclosed construct opener found) span).Alike ⟨.unclosed construct opener' found, span'⟩ :=
  ⟨rfl, rfl⟩

namespace Parser

/-- At cursors that echo each other on level `l` the parser `m'` does what `m` does, as far as `φ` shows of
the value, and it leads to level `l'`.  It does so only if `m` succeeds and `after` holds where it ends, and
then `before` held where it began.  Faults are only repeated where both texts end. -/
structure Carries (v : SpanView) {s : Sides} (l : s.Level) (P : Cursor → Prop) (before : Grip) (m : Parser α)
    (φ : α → β) (l' : s.Level) (after : Grip) (m' : Parser α) : Prop where
  grip : ∀ ⦃c a d⦄, P c → m c = .ok a d → after.Holds s d → before.Holds s c
  ok : ∀ ⦃c c' a d⦄, P c → c.Echoes v l c' → m c = .ok a d → after.Holds s d →
    ∃ a' d', m' c' = .ok a' d' ∧ φ a = φ a' ∧ d.Echoes v l' d'
  fault : ∀ ⦃c c' f d⦄, s.Blank → P c → c.Echoes v l c' → m c = .error (.fault f) d →
    ∃ f' d', m' c' = .error (.fault f') d' ∧ f.Alike f'

namespace Carries
variable {v : SpanView} {s : Sides} {l l₁ l' : s.Level} {P Q : Cursor → Prop} {g before mid after : Grip}
  {m m' : Parser α} {f f' : α → Parser β} {φ : α → γ} {ψ : β → δ} {a a' : α}

theorem pre (h : Carries v l Q before m φ l' after m') (hP : ∀ c, P c → Q c) :
    Carries v l P before m φ l' after m' :=
  ⟨fun _ _ _ hc => h.grip (hP _ hc), fun _ _ _ _ hc => h.ok (hP _ hc),
    fun _ _ _ _ hblank hc => h.fault hblank (hP _ hc)⟩

/-- Whoever holds on firmly is safe. -/
theorem loosen (h : Carries v l P .firm m φ l' after m') : Carries v l P before m φ l' after m' :=
  ⟨fun _ _ _ hc hrun hd => Cursor.holds_of_firm (h.grip hc hrun hd), h.ok, h.fault⟩

theorem bind (h : Carries v l P before m φ l₁ mid m')
    (hf : ∀ a a', φ a = φ a' → Carries v l₁ Anywhere mid (f a) ψ l' after (f' a')) :
    Carries v l P before (m >>= f) ψ l' after (m' >>= f') where
  -- what is known at the end goes back through the second run to where the first one ends
  grip c b e hc hrun he := by
    obtain ⟨a, d, hm, hrun⟩ := bind_eq_ok_iff.1 hrun
    exact h.grip hc hm ((hf a a rfl).grip trivial hrun he)
  ok c c' b e hc hcc' hrun he := by
    obtain ⟨a, d, hm, hrun⟩ := bind_eq_ok_iff.1 hrun
    obtain ⟨a', d', hm', ha, hdd'⟩ := h.ok hc hcc' hm ((hf a a rfl).grip trivial hrun he)
    obtain ⟨b', e', hrun', hb, hee'⟩ := (hf a a' ha).ok trivial hdd' hrun he
    exact ⟨b', e', (bind_of_ok hm').trans hrun', hb, hee'⟩
  fault c c' x e hblank hc hcc' hrun := by
    cases hm : m c with
    | ok a d =>
      rw [bind_of_ok hm] at hrun
      obtain ⟨a', d', hm', ha, hdd'⟩ := h.ok hc hcc' hm (Cursor.holds_of_blank hblank)
      obtain ⟨x', e', hrun', hx⟩ := (hf a a' ha).fault hblank trivial hdd' hrun
      exact ⟨x', e', (bind_of_ok hm').trans hrun', hx⟩
    | error x d =>
      rw [bind_of_error hm] at hrun
      cases hrun
      obtain ⟨x', d', hm', hx⟩ := h.fault hblank hc hcc' hm
      exact ⟨x', d', bind_of_error hm', hx⟩

theorem of_kinds (h : ∀ k, Carries v l (·.kind = k) before m φ l' after m') :
    Carries v l P before m φ l' after m' :=
  ⟨fun c _ _ _ => (h c.kind).grip rfl, fun c _ _ _ _ => (h c.kind).ok rfl,
    fun c _ _ _ hblank _ => (h c.kind).fault hblank rfl⟩

/-- What is done at a token of a kind is all that matters where such a token stands. -/
theorem congr {n n' : Parser α} {k : Token.Kind} (h : Carries v l (·.kind = k) .firm m φ l' after m')
    (hm : ∀ c, c.kind = k → n c = m c) (hm' : ∀ c, c.kind = k → n' c = m' c) :
    Carries v l (·.kind = k) .firm n φ l' after n' where
  grip c _ _ hc hrun hd := h.grip hc ((hm c hc).symm.trans hrun) hd
  ok c c' a d hc hcc' hrun hd := by
    rw [hm c hc] at hrun
    rw [hm' c' ((hcc'.kind_eq (h.grip hc hrun hd)).symm.trans hc)]
    exact h.ok hc hcc' hrun hd
  fault c c' x d hblank hc hcc' hrun := by
    rw [hm c hc] at hrun
    rw [hm' c' ((hcc'.kind_eq (Cursor.holds_of_blank hblank)).symm.trans hc)]
    exact h.fault hblank hc hcc' hrun

theorem give (h : φ a = φ a') : Carries v l P g (pure a) φ l g (pure a') where
  grip c _ _ _ hrun hd := by cases hrun; exact hd
  ok c c' _ _ _ hcc' hrun _ := by cases hrun; exact ⟨a', c', rfl, h, hcc'⟩
  fault c c' _ _ _ _ _ hrun := by cases hrun

/-- A run that lacks fuel tells nothing. -/
theorem outOfFuel : Carries v l P before (throw .outOfFuel) φ l' after m' where
  grip _ _ _ _ hrun := nomatch hrun
  ok _ _ _ _ _ _ hrun := nomatch hrun
  fault _ _ _ _ _ _ _ hrun := nomatch hrun

/-- A step that only concerns what is named and numbered. -/
theorem naming (value : Naming → α) (step : Naming → Naming)
    (hm : ∀ c, m c = .ok (value c.naming)
      { c with nextId := (step c.naming).nextId, locals := (step c.naming).locals }) :
    Carries v l P g m φ l g m where
  grip c _ _ _ hrun hd := by
    rw [hm] at hrun
    cases hrun
    exact match g, hd with
      | .firm, hd => hd
      | .safe, hd => hd
  ok c c' _ _ _ hcc' hrun _ := by
    rw [hm] at hrun
    cases hrun
    exact ⟨_, _, hm c', by rw [hcc'.naming], hcc'.split, hcc'.stop, hcc'.here, hcc'.there,
      congrArg step hcc'.naming⟩
  fault c _ _ _ _ _ _ hrun := by rw [hm] at hrun; cases hrun

theorem freshId : Carries v l P g freshId (fun i => i) l g freshId :=
  naming Naming.nextId Naming.fresh fun _ => rfl

theorem isLocal (name : String) :
    Carries v l P g (isLocal name) (fun b => b) l g (isLocal name) :=
  naming (Naming.isLocal · name) (fun σ => σ) fun _ => rfl

theorem declare (name : String) :
    Carries v l P g (declare name) (fun _ => ()) l g (declare name) :=
  naming (fun _ => ()) (Naming.declare · name) fun _ => rfl

theorem forM_declare {params params' : List Ident}
    (h : params.map (Ident.seen v) = params'.map (Ident.seen v)) :
    Carries v l P g (params.forM fun p => Parser.declare p.name) (fun _ => ()) l g
      (params'.forM fun p => Parser.declare p.name) := by
  induction params generalizing params' P with
  | nil =>
    rw [List.map_eq_nil_iff.1 h.symm]
    exact give rfl
  | cons p params ih =>
    obtain ⟨p', params', rfl, hp, hparams⟩ := List.map_eq_cons_iff.1 h.symm
    show Carries v l P g (Parser.declare p.name >>= _) _ l g (Parser.declare p'.name >>= _)
    rw [Ident.name_eq hp]
    exact (declare p.name).bind fun _ _ _ => ih hparams.symm

theorem inScope (closed : Bool) (h : Carries v l Anywhere before m φ l' after m') :
    Carries v l P before (inScope closed m) φ l' after (inScope closed m') := by
  have hlocals {P : Cursor → Prop} {l : s.Level} {g : Grip} (step : List LocalScope → List LocalScope) :
      Carries v l P g (modify fun c => { c with locals := step c.locals }) (fun _ => ()) l g
        (modify fun c => { c with locals := step c.locals }) :=
    naming (fun _ => ()) (fun σ => { σ with locals := step σ.locals }) fun _ => rfl
  exact (hlocals (⟨closed, []⟩ :: ·)).bind fun _ _ _ => h.bind fun a a' ha =>
    (hlocals (·.drop 1)).bind fun _ _ _ => .give ha

/-! ### Steps over tokens -/

/-- The current token, if it is known to be there. -/
theorem bump (hP : ∀ c, P c → c.kind ≠ .eof ∧ c.kind ≠ .newline) :
    Carries v l P .firm bump (Token.seen v) l g bump where
  grip c _ _ hc hrun hd := by
    cases hrun
    exact (Cursor.Firm.of_kind (hP c hc) (Cursor.suffix_of_holds hd)).holds
  ok c c' _ _ hc hcc' hrun hd := by
    cases hrun
    have hfirm := Cursor.Firm.of_kind (hP c hc) (Cursor.suffix_of_holds hd)
    exact ⟨c'.current, c'.next, rfl, (hcc'.current_of_firm hfirm).1, hcc'.next hfirm⟩
  fault c c' _ _ _ _ _ hrun := by cases hrun

/-- A token of a kind that is wanted, and a change of how many parentheses are open. -/
theorem take {m m' : Parser Token} {k : Token.Kind} (hk : k ≠ .eof ∧ k ≠ .newline) (shift : Nat → Nat)
    (hl : l'.here = shift l.here ∧ l'.there = shift l.there) {err err' : Cursor → Fault}
    (hm : ∀ c, m c = if c.kind = k then .ok c.current { c.next with parens := shift c.parens }
      else .error (.fault (err c)) c)
    (hm' : ∀ c, m' c = if c.kind = k then .ok c.current { c.next with parens := shift c.parens }
      else .error (.fault (err' c)) c)
    (herr : ∀ c c', c.current.seen v = c'.current.seen v → (err c).Alike (err' c')) :
    Carries v l P .firm m (Token.seen v) l' g m' := by
  have hfirm {c : Cursor} {t : Token} {d : Cursor} (hrun : m c = .ok t d) (hd : g.Holds s d) :
      c.kind = k ∧ c.Firm s := by
    rw [hm] at hrun
    split at hrun
    · next hc =>
      cases hrun
      exact ⟨hc, .of_kind ⟨hc ▸ hk.1, hc ▸ hk.2⟩ (Cursor.suffix_of_holds hd :)⟩
    · cases hrun
  refine ⟨fun c _ _ _ hrun hd => (hfirm hrun hd).2.holds, fun c c' t d _ hcc' hrun hd => ?_,
    fun c c' f d hblank _ hcc' hrun => ?_⟩
  · obtain ⟨hc, hgrip⟩ := hfirm hrun hd
    have hcurrent := (hcc'.current_of_firm hgrip).1
    have hnext := hcc'.next hgrip
    rw [hm, if_pos hc] at hrun
    cases hrun
    refine ⟨_, _, (hm' c').trans (if_pos ((Token.kind_eq hcurrent).symm.trans hc)), hcurrent, ?_⟩
    exact ⟨hnext.split, hnext.stop, hl.1 ▸ congrArg shift hcc'.here, hl.2 ▸ congrArg shift hcc'.there,
      hnext.naming⟩
  · have hcurrent := hcc'.current (Cursor.holds_of_blank hblank)
    rw [hm] at hrun
    split at hrun
    · cases hrun
    · next hc =>
      cases hrun
      exact ⟨_, _, (hm' c').trans (if_neg fun hc' => hc ((Token.kind_eq hcurrent).trans hc')),
        herr c c' hcurrent⟩

theorem expect {k : Token.Kind} (hk : k ≠ .eof ∧ k ≠ .newline) :
    Carries v l P .firm (expect k) (Token.seen v) l g (expect k) :=
  take hk (fun n => n) ⟨rfl, rfl⟩ (fun _ => rfl) (fun _ => rfl) fun _ _ h => Fault.alike_unexpectedToken h _

theorem openParen : Carries v l P .firm openParen (Token.seen v) l.inner g openParen :=
  take (by decide) (· + 1) ⟨rfl, rfl⟩ openParen_run openParen_run
    fun _ _ h => Fault.alike_unexpectedToken h _

theorem closeParen : Carries v l.inner P .firm closeParen (Token.seen v) l g closeParen :=
  take (by decide) (· - 1) ⟨rfl, rfl⟩ closeParen_run closeParen_run
    fun _ _ h => Fault.alike_unexpectedToken h _

theorem expectEnd (construct : Fault.Construct) (opener opener' : Span) :
    Carries v l P .firm (expectEnd construct opener) (Token.seen v) l g (expectEnd construct opener') :=
  take (by decide) (fun n => n) ⟨rfl, rfl⟩ (fun _ => rfl) (fun _ => rfl) fun c c' h => by
    have hkind : c.kind = c'.kind := Token.kind_eq h
    rw [hkind]
    exact Fault.alike_unclosed ..

theorem unexpected (wanted : Fault.Wanted) :
    Carries v l P g (unexpected wanted) φ l' after (unexpected wanted) where
  grip c _ _ _ hrun := nomatch hrun
  ok c _ _ _ _ _ hrun := nomatch hrun
  fault c c' f d hblank _ hcc' hrun := by
    cases hrun
    exact ⟨_, _, rfl, Fault.alike_unexpectedToken (hcc'.current (Cursor.holds_of_blank hblank)) wanted⟩

/-- What is done may hang on the current token: on a shared one, or on how the texts go on. -/
theorem kindOr {f f' : Token.Kind → Parser α}
    (hgrip : ∀ ⦃c a d⦄, P c → f c.kind c = .ok a d → after.Holds s d → g.Holds s c)
    (hf : ∀ k, s.Admits k → Carries v l (fun c => P c ∧ c.kind = k) g (f k) φ l' after (f' k))
    (hends : g = .safe → l.Snug ∧ Carries v l (fun c => P c ∧ c.kind = firstKind s.first) g
      (f (firstKind s.first)) φ l' after (f' (firstKind s.second))) :
    Carries v l P g (Parser.kind >>= f) φ l' after (Parser.kind >>= f') where
  grip c a d hc hrun hd := hgrip hc hrun hd
  ok c c' a d hc hcc' hrun hd := by
    have hg := hgrip hc hrun hd
    have hshared (hkind : c.kind = c'.kind ∧ s.Admits c.kind) :
        ∃ a' d', f' c'.kind c' = .ok a' d' ∧ φ a = φ a' ∧ d.Echoes v l' d' :=
      hkind.1 ▸ (hf c.kind hkind.2).ok ⟨hc, rfl⟩ hcc' hrun hd
    match g, hg, hends with
    | .firm, hg, _ => exact hshared (hcc'.kind_of_firm hg)
    | .safe, _, hends =>
      obtain ⟨hsnug, hend⟩ := hends rfl
      rcases hcc'.kind hsnug with hkind | ⟨hfirst, hsecond⟩
      · exact hshared hkind
      · show ∃ a' d', f' c'.kind c' = _ ∧ _
        rw [hsecond]
        refine hend.ok ⟨hc, hfirst⟩ hcc' ?_ hd
        rw [← hfirst]
        exact hrun
  fault c c' x d hblank hc hcc' hrun := by
    have hkind := hcc'.kind_of_firm (Cursor.holds_of_blank hblank)
    show ∃ x' d', f' c'.kind c' = _ ∧ _
    rw [← hkind.1]
    exact (hf c.kind hkind.2).fault hblank ⟨hc, rfl⟩ hcc' hrun

/-- What is done does not hang on how the texts go on. -/
theorem kind {f f' : Token.Kind → Parser α}
    (hf : ∀ k, Carries v l (fun c => P c ∧ c.kind = k) g (f k) φ l' after (f' k))
    (hends : g = .safe → l.Snug ∧ f' (firstKind s.second) = f' (firstKind s.first)) :
    Carries v l P g (Parser.kind >>= f) φ l' after (Parser.kind >>= f') :=
  kindOr (fun c _ _ hc hrun hd => (hf c.kind).grip ⟨hc, rfl⟩ hrun hd) (fun k _ => hf k)
    fun hg => ⟨(hends hg).1, (hends hg).2 ▸ hf _⟩

/-- What is done at one of the tokens that texts may go on with is the same at all of them. -/
theorem kindEnds {f f' : Token.Kind → Parser α}
    (hf : ∀ k, Carries v l (fun c => P c ∧ c.kind = k) g (f k) φ l' after (f' k))
    (hsnug : g = .safe → l.Snug) (hends : ∀ k ∈ enders, f' k = f' .eof) :
    Carries v l P g (Parser.kind >>= f) φ l' after (Parser.kind >>= f') :=
  kind hf fun hg => ⟨hsnug hg, (hends _ s.second_mem).trans (hends _ s.first_mem).symm⟩

theorem kindFirm {f f' : Token.Kind → Parser α}
    (hf : ∀ k, Carries v l (fun c => P c ∧ c.kind = k) .firm (f k) φ l' after (f' k)) :
    Carries v l P .firm (Parser.kind >>= f) φ l' after (Parser.kind >>= f') :=
  kind hf nofun

theorem eat {k : Token.Kind} (hk : k ≠ .eof ∧ k ≠ .newline) (hends : g = .safe → l.Snug ∧ k ∉ enders) :
    Carries v l P g (eat k) (fun b => b) l g (eat k) := by
  have htake {c : Cursor} {b : Bool} {d : Cursor} (hrun : Parser.eat k c = .ok b d) (hd : g.Holds s d) :
      c.kind = k ∧ c.Firm s ∧ b = true ∧ d = c.next ∨ c.kind ≠ k ∧ b = false ∧ d = c := by
    unfold Parser.eat at hrun
    split at hrun
    · next hc =>
      cases hrun
      exact .inl ⟨hc, .of_kind ⟨hc ▸ hk.1, hc ▸ hk.2⟩ (Cursor.suffix_of_holds hd), rfl, rfl⟩
    · next hc => cases hrun; exact .inr ⟨hc, rfl, rfl⟩
  refine ⟨fun c _ _ _ hrun hd => ?_, fun c c' b d _ hcc' hrun hd => ?_, fun c _ _ _ _ _ _ hrun => ?_⟩
  · rcases htake hrun hd with ⟨-, hfirm, -⟩ | ⟨-, -, rfl⟩
    · exact hfirm.holds
    · exact hd
  · rcases htake hrun hd with ⟨hc, hfirm, rfl, rfl⟩ | ⟨hc, rfl, rfl⟩
    · have hkind := hcc'.kind_eq hfirm.holds
      exact ⟨true, c'.next, if_pos (hkind.symm.trans hc), rfl, hcc'.next hfirm⟩
    · refine ⟨false, c', if_neg fun hc' => ?_, rfl, hcc'⟩
      match g, hd, hends with
      | .firm, hd, _ => exact hc ((hcc'.kind_eq hd).trans hc')
      | .safe, _, hends =>
        obtain ⟨hsnug, hother⟩ := hends rfl
        rcases hcc'.kind hsnug with ⟨h, -⟩ | ⟨-, h⟩
        · exact hc (h.trans hc')
        · exact Sides.ne_second hother (h.symm.trans hc')
  · unfold Parser.eat at hrun
    split at hrun <;> cases hrun

/-- Tokens that are dropped by their kind, with something behind them. -/
theorem skip (q : Token.Kind → Bool) (hq : q .eof = false) {m : Parser Unit}
    (hm : ∀ c, m c = .ok () { c with rest := c.rest.dropWhile (q ·.kind) }) :
    Carries v l P .firm m (fun _ => ()) l .firm m where
  grip c _ d _ hrun hd := by
    rw [hm] at hrun
    cases hrun
    exact Cursor.holds_of_suffix hd (List.dropWhile_suffix _)
  ok c c' _ d _ hcc' hrun hd := by
    rw [hm] at hrun
    cases hrun
    refine ⟨(), _, hm c', rfl, hcc'.split.dropWhile q ?_, hcc'.stop, hcc'.here, hcc'.there, hcc'.naming⟩
    by_cases hblank : s.Blank
    · obtain ⟨hfirst, hsecond⟩ := Sides.firstKind_of_blank hblank
      exact .inr ⟨by rw [hfirst, hq], by rw [hsecond, hq]⟩
    · -- dropping ends at the first one of the shared tokens that are left
      obtain ⟨us, hus, u, hu, -⟩ := hd.2 hblank
      obtain ⟨t, us, rfl⟩ := List.exists_cons_of_ne_nil (List.ne_nil_of_mem hu)
      have hrest : c.rest = c.rest.takeWhile (q ·.kind) ++ (t :: us ++ s.first) :=
        hus ▸ List.takeWhile_append_dropWhile.symm
      have hdrop := List.head?_dropWhile_not (q ·.kind) c.rest
      have hus : c.rest.dropWhile (q ·.kind) = t :: us ++ s.first := hus
      rw [hus] at hdrop
      exact .inl ⟨_, hrest.trans (List.append_assoc ..).symm, t, by simp, by simpa using hdrop⟩
  fault c _ _ _ _ _ _ hrun := by rw [hm] at hrun; cases hrun

theorem skipTerminators :
    Carries v l P .firm skipTerminators (fun _ => ()) l .firm skipTerminators :=
  skip Cursor.isTerminator rfl fun _ => rfl

theorem skipNewlines : Carries v l P .firm skipNewlines (fun _ => ()) l .firm skipNewlines :=
  skip (· == .newline) rfl fun _ => rfl

/-- Where no line feed is shared there is none to be skipped. -/
theorem skipNewlines_plain (hplain : s.plain = true) :
    Carries v l P .firm Parser.skipNewlines (fun _ => ()) l .firm (pure ()) ∧
      Carries v l P .firm (pure ()) (fun _ => ()) l .firm Parser.skipNewlines := by
  have hnone {c c' : Cursor} (h : c.Echoes v l c') (hc : Grip.firm.Holds s c) :
      c.rest.dropWhile (·.kind == .newline) = c.rest ∧ c'.rest.dropWhile (·.kind == .newline) = c'.rest := by
    refine h.split.dropWhile_plain hplain ?_
    by_cases hblank : s.Blank
    · obtain ⟨hfirst, hsecond⟩ := Sides.firstKind_of_blank hblank
      exact .inr ⟨by rw [hfirst]; decide, by rw [hsecond]; decide⟩
    · exact .inl (hc.2 hblank)
  have hskip {c : Cursor} (h : c.rest.dropWhile (·.kind == .newline) = c.rest) :
      Parser.skipNewlines c = .ok () c := by
    show EStateM.Result.ok () c.skipNewlines = _
    rw [Cursor.skipNewlines, h]
  refine ⟨⟨fun c _ d _ hrun hd => ?_, fun c c' _ d _ hcc' hrun hd => ?_, fun c _ _ _ _ _ _ hrun => by cases hrun⟩,
    ⟨fun c _ d _ hrun hd => ?_, fun c c' _ d _ hcc' hrun hd => ?_, fun c _ _ _ _ _ _ hrun => by cases hrun⟩⟩
  · exact (skipNewlines (v := v) (l := l) (P := Anywhere)).grip trivial hrun hd
  · have hc := (skipNewlines (v := v) (l := l) (P := Anywhere)).grip trivial hrun hd
    rw [hskip (hnone hcc' hc).1] at hrun
    cases hrun
    exact ⟨(), c', rfl, rfl, hcc'⟩
  · cases hrun
    exact hd
  · cases hrun
    exact ⟨(), c', hskip (hnone hcc' hd).2, rfl, hcc'⟩

theorem expectTerminator (part : Fault.Part) :
    Carries v l P .firm (expectTerminator part) (fun _ => ()) l .firm (expectTerminator part) := by
  refine kindFirm fun k => ?_
  split
  · exact skipTerminators
  · exact unexpected _

theorem itemFuel {f f' : Nat → Parser α}
    (hf : ∀ fuel fuel', fuel ≤ fuel' → Carries v l P g (f fuel) φ l' after (f' fuel')) :
    Carries v l P g (itemFuel >>= f) φ l' after (itemFuel >>= f') :=
  ⟨fun _ _ _ hc hrun hd => (hf _ _ le_rfl).grip hc hrun hd,
    fun _ _ _ _ hc hcc' hrun hd => (hf _ _ (Nat.succ_le_succ hcc'.length_le)).ok hc hcc' hrun hd,
    fun _ _ _ _ hblank hc hcc' hrun =>
      (hf _ _ (Nat.succ_le_succ hcc'.length_le)).fault hblank hc hcc' hrun⟩

theorem withNewlines (h : Carries v (.top (s := s)) Anywhere .firm m φ .top .firm m') :
    Carries v l P .firm (withNewlines m) φ l .firm (withNewlines m') := by
  refine ⟨fun c _ _ _ hrun he => ?_, fun c c' a _ _ hcc' hrun he => ?_,
    fun c c' x _ hblank _ hcc' hrun => ?_⟩ <;> rw [withNewlines_run] at hrun <;> split at hrun <;> cases hrun
  · next d hm => exact h.grip (c := { c with parens := 0 }) trivial hm he
  · next d hm =>
    obtain ⟨a', d', hm', ha, hdd'⟩ := h.ok trivial hcc'.withoutParens hm he
    refine ⟨a', { d' with parens := c'.parens }, by rw [withNewlines_run, hm'], ha, ?_⟩
    exact ⟨hdd'.split, hdd'.stop, hcc'.here, hcc'.there, hdd'.naming⟩
  · next hm =>
    obtain ⟨x', d', hm', hx⟩ := h.fault hblank trivial hcc'.withoutParens hm
    exact ⟨x', d', by rw [withNewlines_run, hm'], hx⟩

theorem commaList {item item' : Parser α} {gap gap' : Parser Unit}
    (h : Carries v l Anywhere .firm item φ l g item')
    (hgap : Carries v l Anywhere .firm gap (fun _ => ()) l .firm gap') (hsnug : g = .safe → l.Snug)
    {fuel fuel' : Nat} (hfuel : fuel ≤ fuel') :
    Carries v l P .firm (commaList item gap fuel) (List.map φ) l g (commaList item' gap' fuel') := by
  induction fuel generalizing fuel' P with
  | zero => exact outOfFuel
  | succ fuel ih =>
    obtain ⟨fuel', rfl⟩ : ∃ n, fuel' = n + 1 := ⟨fuel' - 1, by omega⟩
    simp only [Parser.commaList]
    refine (h.pre fun _ _ => trivial).bind fun first first' hfirst => ?_
    refine (eat (by decide) fun hg => ⟨hsnug hg, by decide⟩).bind fun more more' hmore => ?_
    obtain rfl : more = more' := hmore
    cases more with
    | false =>
      have hmap : [first].map φ = [first'].map φ := by simp [hfirst]
      exact give hmap
    | true =>
      refine (hgap.bind fun _ _ _ => ?_).loosen
      exact (ih (by omega)).bind fun rest rest' hrest => give
        (by rw [List.map_cons, List.map_cons, hfirst, hrest])

end Carries

/-- A run that ends just where the texts go on differently is repeated. -/
structure Finishes (v : SpanView) {s : Sides} (l : s.Level) (m : Parser α) (φ : α → β) (l' : s.Level)
    (m' : Parser α) : Prop where
  suffix : ∀ ⦃c a d⦄, m c = .ok a d → d.rest = s.first → s.first <:+ c.rest
  ok : ∀ ⦃c c' a d⦄, c.Echoes v l c' → m c = .ok a d → d.rest = s.first →
    ∃ a' d', m' c' = .ok a' d' ∧ φ a = φ a' ∧ d.Echoes v l' d'

namespace Finishes
variable {v : SpanView} {s : Sides} {l l₁ l' : s.Level} {m m' : Parser α} {f f' : α → Parser β}
  {φ : α → γ} {ψ : β → δ}

theorem behind (h : Carries v l Anywhere .safe m φ l₁ .safe m')
    (hf : ∀ a a', φ a = φ a' → Finishes v l₁ (f a) ψ l' (f' a')) :
    Finishes v l (m >>= f) ψ l' (m' >>= f') where
  suffix c b e hrun he := by
    obtain ⟨a, d, hm, hrun⟩ := bind_eq_ok_iff.1 hrun
    exact h.grip trivial hm ((hf a a rfl).suffix hrun he)
  ok c c' b e hcc' hrun he := by
    obtain ⟨a, d, hm, hrun⟩ := bind_eq_ok_iff.1 hrun
    obtain ⟨a', d', hm', ha, hdd'⟩ := h.ok trivial hcc' hm ((hf a a rfl).suffix hrun he)
    obtain ⟨b', e', hrun', hb, hee'⟩ := (hf a a' ha).ok hdd' hrun he
    exact ⟨b', e', (bind_of_ok hm').trans hrun', hb, hee'⟩

theorem map {k k' : α → β} (h : Finishes v l m φ l' m') (hk : ∀ a a', φ a = φ a' → ψ (k a) = ψ (k' a')) :
    Finishes v l (m >>= fun a => pure (k a)) ψ l' (m' >>= fun a => pure (k' a)) where
  suffix c b e hrun he := by
    obtain ⟨a, d, hm, hrun⟩ := bind_eq_ok_iff.1 hrun
    cases hrun
    exact h.suffix hm he
  ok c c' b e hcc' hrun he := by
    obtain ⟨a, d, hm, hrun⟩ := bind_eq_ok_iff.1 hrun
    cases hrun
    obtain ⟨a', d', hm', ha, hdd'⟩ := h.ok hcc' hm he
    exact ⟨k' a', d', bind_of_ok hm', hk a a' ha, hdd'⟩

theorem withNewlines (h : Finishes v (.top (s := s)) m φ .top m') :
    Finishes v l (withNewlines m) φ l (withNewlines m') where
  suffix c a e hrun he := by
    rw [withNewlines_run] at hrun
    split at hrun <;> cases hrun
    next hm => exact h.suffix (c := { c with parens := 0 }) hm he
  ok c c' a e hcc' hrun he := by
    rw [withNewlines_run] at hrun
    split at hrun <;> cases hrun
    next hm =>
      obtain ⟨a', d', hm', ha, hdd'⟩ := h.ok hcc'.withoutParens hm he
      refine ⟨a', { d' with parens := c'.parens }, by rw [withNewlines_run, hm'], ha, ?_⟩
      exact ⟨hdd'.split, hdd'.stop, hcc'.here, hcc'.there, hdd'.naming⟩

theorem inScope (closed : Bool) (h : Finishes v l m φ l' m') :
    Finishes v l (inScope closed m) φ l' (inScope closed m') where
  suffix c a e hrun he := by
    rw [inScope_run] at hrun
    split at hrun <;> cases hrun
    next d hm => exact h.suffix (c := { c with locals := ⟨closed, []⟩ :: c.locals }) (d := d) hm he
  ok c c' a e hcc' hrun he := by
    rw [inScope_run] at hrun
    split at hrun <;> cases hrun
    next d hm =>
      have henter : ({ c with locals := ⟨closed, []⟩ :: c.locals } : Cursor).Echoes v l
          { c' with locals := ⟨closed, []⟩ :: c'.locals } :=
        ⟨hcc'.split, hcc'.stop, hcc'.here, hcc'.there, congrArg (Naming.enter · closed) hcc'.naming⟩
      obtain ⟨a', d', hm', ha, hdd'⟩ := h.ok (d := d) henter hm he
      refine ⟨a', { d' with locals := d'.locals.drop 1 }, by rw [inScope_run, hm'], ha, ?_⟩
      exact ⟨hdd'.split, hdd'.stop, hdd'.here, hdd'.there, congrArg Naming.leave hdd'.naming⟩

end Finishes

theorem echoes_skipTerminators {v : SpanView} {s : Sides} {l : s.Level} {c c' : Cursor}
    (h : c.Echoes v l c') (hfirm : Grip.firm.Holds s c.skipTerminators) :
    c.skipTerminators.Echoes v l c'.skipTerminators := by
  obtain ⟨_, _, hskip, -, hecho⟩ := (Carries.skipTerminators (P := Anywhere)).ok trivial h rfl hfirm
  cases hskip
  exact hecho

end Parser

end FlowTyping
