import FlowTyping.Proofs.Indices

/-!
# Retracing

The machine goes where the parser goes: `ByIndex.Retraces` relates a parser and a reader by index from one
place on, with one rule for each way in which productions are put together.  Only where line feeds are hidden
may the machine stand before some that the parser has dropped.  An identity is paid for by a token that has
been read, so that the counts stay below the number of tokens, and the parentheses that a reader closes are
those it is told of.
-/

namespace FlowTyping

namespace ByIndex

/-! ### Retracing -/

/-- How the machine ends from `s` on if the parser ends in a result: with a value that `V` relates to that of
the parser, at a place that looks the same, or with the same fault.  A parser out of fuel says nothing. -/
inductive Follows (source : String) (opened i j k : Nat) (V : α → β → Prop) (s : State) :
    EStateM.Result Setback Cursor α → EStateM.Result Halt State β → Prop
  | ok {a : α} {b : β} {d : Cursor} {t : State} (hvalue : V a b)
    (hd : d.Alike Cursor.visible (t.cursor source)) (ht : t.Within source j) (hmoves : s.Moves opened i j k t) :
    Follows source opened i j k V s (.ok a d) (.ok b t)
  | fault (f : Fault) (d : Cursor) (t : State) :
    Follows source opened i j k V s (.error (.fault f) d) (.error (.setback (.fault f)) t)
  | outOfFuel (d : Cursor) (r : EStateM.Result Halt State β) :
    Follows source opened i j k V s (.error .outOfFuel d) r

theorem Follows.after {source : String} {opened o i j k l n : Nat} {V : α → β → Prop} {s t : State}
    {r : EStateM.Result Setback Cursor α} {r' : EStateM.Result Halt State β}
    (hmoves : ∀ u, t.Moves opened j l k u → s.Moves o i l n u) (h : Follows source opened j l k V t r r') :
    Follows source o i l n V s r r' := by
  cases h with
  | ok hvalue hd ht hmoves' => exact .ok hvalue hd ht (hmoves _ hmoves')
  | fault => exact .fault _ _ _
  | outOfFuel => exact .outOfFuel _ _

theorem Follows.behind {source : String} {opened i j k l n : Nat} {V : α → β → Prop} {s t : State}
    {r : EStateM.Result Setback Cursor α} {r' : EStateM.Result Halt State β} (hmoves : s.Moves 0 i j k t)
    (h : Follows source opened j l (n - k) V t r r') : Follows source opened i l n V s r r' :=
  h.after fun _ hmoves' => (hmoves.trans hmoves').mono (Nat.le_refl l) (by omega)

theorem Follows.exists_ok {source : String} {opened i j k : Nat} {V : α → β → Prop} {s : State} {a : α}
    {d : Cursor} {r : EStateM.Result Halt State β} (h : Follows source opened i j k V s (.ok a d) r) :
    ∃ b t, r = .ok b t ∧ V a b ∧ d.Alike Cursor.visible (t.cursor source) ∧ t.Within source j ∧
      s.Moves opened i j k t := by
  cases h with
  | ok hvalue hd ht hmoves => exact ⟨_, _, rfl, hvalue, hd, ht, hmoves⟩

theorem Follows.exists_fault {source : String} {opened i j k : Nat} {V : α → β → Prop} {s : State}
    {f : Fault} {d : Cursor} {r : EStateM.Result Halt State β}
    (h : Follows source opened i j k V s (.error (.fault f) d) r) :
    ∃ t, r = .error (.setback (.fault f)) t := by
  cases h with
  | fault => exact ⟨_, rfl⟩

theorem Follows.mono {source : String} {opened i j j' k k' : Nat} {V : α → β → Prop} {s : State}
    {r : EStateM.Result Setback Cursor α} {r' : EStateM.Result Halt State β}
    (h : Follows source opened i j k V s r r') (hj : j' ≤ j) (hk : k' ≤ k) :
    Follows source opened i j' k' V s r r' := by
  cases h with
  | ok hvalue hd ht hmoves => exact .ok hvalue hd (ht.mono hj) (hmoves.mono hj hk)
  | fault => exact .fault _ _ _
  | outOfFuel => exact .outOfFuel _ _

/-- From places that `P` relates the machine does what the parser does. -/
def Retraces (source : String) (P : Cursor → Cursor → Prop) (opened i j k : Nat) (V : α → β → Prop)
    (m : Parser α) (m' : Reader β) : Prop :=
  ∀ ⦃c s⦄, s.Within source i → opened ≤ s.parens → P c (s.cursor source) →
    Follows source opened i j k V s (m c) (m' s)

/-- Places that look the same, and where `Q` holds. -/
def At (Q : Cursor → Prop) (c v : Cursor) : Prop := c.Alike Cursor.visible v ∧ Q v

theorem length_rest_lt {source : String} {opened i j k n : Nat} {s t : State} (ht : t.Within source j)
    (hmoves : s.Moves opened i j k t) (h : (s.cursor source).rest.length < n + k) :
    (t.cursor source).rest.length < n := by
  have := ht.pos
  have := hmoves.pos
  simp only [State.cursor, List.length_drop] at h ⊢
  omega

/-- A token, and what the machine knows of it. -/
def Marked (source : String) (t : Token) (mark : Mark) : Prop :=
  mark = t.mark ∧ t.span.slice? source.toList = some t.text.toList

namespace Retraces
variable {source : String} {P P' : Cursor → Cursor → Prop} {Q : Cursor → Prop} {opened i j k l n : Nat}
  {V : α → β → Prop} {W : α' → β' → Prop} {m : Parser α} {m' : Reader β} {f : α → Parser α'}
  {g : β → Reader β'} {a : α} {b : β} {s t : State}

theorem mono (h : Retraces source P opened i j k V m m') (hk : n ≤ k) :
    Retraces source P opened i j n V m m' :=
  fun _ _ hs ho hc => (h hs ho hc).mono (Nat.le_refl j) hk

theorem pre (h : Retraces source P' opened i j k V m m') (hP : ∀ c v, P c v → P' c v) :
    Retraces source P opened i j k V m m' :=
  fun _ _ hs ho hc => h hs ho (hP _ _ hc)

theorem anywhere (h : Retraces source (At Parser.Anywhere) opened i j k V m m') :
    Retraces source (At Q) opened i j k V m m' :=
  h.pre fun _ _ hc => ⟨hc.1, trivial⟩

/-- One step behind another. -/
theorem bindAt (h : Retraces source P 0 i j k V m m')
    (hQ : ∀ {c} {s t : State}, P c (s.cursor source) → t.Within source j → s.Moves 0 i j k t →
      Q (t.cursor source))
    (hf : ∀ a b, V a b → Retraces source (At Q) opened j l (n - k) W (f a) (g b)) :
    Retraces source P opened i l n W (m >>= f) (m' >>= g) := by
  intro c s hs ho hc
  have hm := h hs (Nat.zero_le _) hc
  cases hrun : m c with
  | ok a d =>
    cases hrun' : m' s with
    | ok b t =>
      rw [hrun, hrun'] at hm
      cases hm with
      | ok hvalue hd ht hmoves =>
        rw [bind_of_ok hrun, bind_of_ok hrun']
        have hparens : opened ≤ t.parens := by have := hmoves.parens; omega
        exact .behind hmoves (hf a b hvalue ht hparens ⟨hd, hQ hc ht hmoves⟩)
    | error e t => rw [hrun, hrun'] at hm; cases hm
  | error e d =>
    rw [bind_of_error hrun]
    rw [hrun] at hm
    cases e with
    | outOfFuel => exact .outOfFuel _ _
    | fault f =>
      cases hrun' : m' s with
      | ok b t => rw [hrun'] at hm; cases hm
      | error e t =>
        rw [hrun'] at hm
        cases hm
        rw [bind_of_error hrun']
        exact .fault f d t

theorem bind (h : Retraces source P 0 i j k V m m')
    (hf : ∀ a b, V a b → Retraces source (At Parser.Anywhere) opened j l (n - k) W (f a) (g b)) :
    Retraces source P opened i l n W (m >>= f) (m' >>= g) :=
  h.bindAt (fun _ _ _ => trivial) hf

/-- A step that leaves less than `n'` tokens. -/
theorem fewer {n' : Nat} {g : α → Reader β'} {m' : Reader α}
    (h : Retraces source (At fun v => v.rest.length < n' + k) 0 i j k Eq m m')
    (hf : ∀ a, Retraces source (At fun v => v.rest.length < n') opened j l (n - k) W (f a) (g a)) :
    Retraces source (At fun v => v.rest.length < n' + k) opened i l n W (m >>= f) (m' >>= g) :=
  h.bindAt (Q := fun v => v.rest.length < n') (fun hc ht hmoves => length_rest_lt ht hmoves hc.2)
    fun a _ hab => hab ▸ hf a

/-- A step that gives the same value. -/
theorem andThen {g : α → Reader β'} {m' : Reader α} (h : Retraces source P 0 i j k Eq m m')
    (hf : ∀ a, Retraces source (At Parser.Anywhere) opened j l (n - k) W (f a) (g a)) :
    Retraces source P opened i l n W (m >>= f) (m' >>= g) :=
  h.bind fun a _ hab => hab ▸ hf a

/-- A step that gives a token. -/
theorem marking {f : Token → Parser α'} {g : Mark → Reader β'} {m : Parser Token} {m' : Reader Mark}
    (h : Retraces source P 0 i j k (Marked source) m m')
    (hf : ∀ t, t.span.slice? source.toList = some t.text.toList →
      Retraces source (At Parser.Anywhere) opened j l (n - k) W (f t) (g t.mark)) :
    Retraces source P opened i l n W (m >>= f) (m' >>= g) :=
  h.bind fun t _ ht => ht.1 ▸ hf t ht.2

/-- What has been paid for need not be taken. -/
theorem give (h : V a b) (hj : j ≤ i) : Retraces source (At Q) 0 i j 0 V (pure a) (pure b) :=
  fun _ s hs _ hc =>
    have hmoves : s.Moves 0 i j 0 s := ⟨Nat.le_refl _, by omega, rfl, rfl⟩
    .ok h hc.1 (hs.of_moves hmoves rfl rfl hs.pos) hmoves

theorem kind {f : Token.Kind → Parser α'} {g : Token.Kind → Reader β'}
    (hf : ∀ κ, Retraces source (At fun v => Q v ∧ v.kind = κ) opened i j k W (f κ) (g κ)) :
    Retraces source (At Q) opened i j k W (Parser.kind >>= f) (ByIndex.kind >>= g) := by
  intro c s hs ho hc
  rw [bind_of_ok (kind_run hs), bind_of_ok (show Parser.kind c = .ok c.kind c from rfl), hc.1.kind]
  exact hf _ hs ho ⟨hc.1, hc.2, rfl⟩

/-- The machine may go round once more than there are tokens left. -/
theorem itemFuel {f : Nat → Parser α'} {g : Nat → Reader β'}
    (hf : ∀ fuel fuel',
      Retraces source (At fun v => v.rest.length < fuel') opened i j k W (f fuel) (g fuel')) :
    Retraces source (At Q) opened i j k W (Parser.itemFuel >>= f) (ByIndex.itemFuel >>= g) := by
  intro c s hs ho hc
  refine hf (c.rest.length + 1) s.marks.size hs ho ⟨hc.1, ?_⟩
  have hlength : (s.cursor source).rest.length ≤ (tokens source).length := by
    simp [State.cursor]
  rw [hs.marks, size_marks]
  omega

/-- Behind the current token the places are the same. -/
theorem bumpThen {f : Token → Parser α'} {g : Mark → Reader β'} (hQ : ∀ v, Q v → v.kind ≠ .eof)
    (hP : ∀ v, Q v → P v.next v.next)
    (hf : ∀ t, t.span.slice? source.toList = some t.text.toList →
      Retraces source P opened (i + 1) l (n - 1) W (f t) (g t.mark)) :
    Retraces source (At Q) opened i l n W (Parser.bump >>= f) (ByIndex.bump >>= g) := by
  intro c s hs ho hc
  obtain ⟨t, hbump, hrun, hnext, ht, hmoves⟩ := bump_runs hs hc.1 (hQ _ hc.2)
  rw [bind_of_ok hrun, bind_of_ok hbump]
  have hparens : opened ≤ t.parens := by have := hmoves.parens; omega
  exact .behind hmoves (hf _ (current_slice source s) ht hparens (hnext ▸ hP _ hc.2))

theorem bump (hQ : ∀ v, Q v → v.kind ≠ .eof) :
    Retraces source (At Q) 0 i (i + 1) 1 (Marked source) Parser.bump ByIndex.bump := by
  intro c s hs _ hc
  obtain ⟨t, hbump, hrun, -, ht, hmoves⟩ := bump_runs hs hc.1 (hQ _ hc.2)
  rw [hrun, hbump]
  exact .ok ⟨rfl, current_slice source s⟩ (.refl _ _) ht hmoves

theorem unexpected (wanted : Fault.Wanted) :
    Retraces source (At Q) opened i j k V (Parser.unexpected wanted) (ByIndex.unexpected wanted) := by
  intro c s hs _ hc
  rw [unexpected_run hs, ← hc.1.current]
  exact .fault _ _ _

section
variable {κ : Token.Kind} (hκ : κ ≠ .eof)
include hκ

theorem eat : Retraces source (At Q) 0 i i 0 Eq (Parser.eat κ) (ByIndex.eat κ) := by
  intro c s hs _ hc
  by_cases h : (s.cursor source).kind = κ
  · obtain ⟨t, hrun, hnext, ht, hmoves⟩ := bump_run hs (h ▸ hκ)
    have hparser : Parser.eat κ c = .ok true (t.cursor source) := by
      rw [hnext, ← hc.1.next]
      exact if_pos (hc.1.kind.trans h)
    have hmachine : ByIndex.eat κ s = .ok true t :=
      (bind_of_ok (kind_run hs)).trans ((congrFun (if_pos h) s).trans (bind_of_ok hrun))
    rw [hparser, hmachine]
    exact Follows.mono (.ok rfl (.refl _ _) ht hmoves) (Nat.le_succ i) (Nat.zero_le 1)
  · have hparser : Parser.eat κ c = .ok false c := if_neg (hc.1.kind ▸ h)
    have hmachine : ByIndex.eat κ s = .ok false s :=
      (bind_of_ok (kind_run hs)).trans (congrFun (if_neg h) s)
    rw [hparser, hmachine]
    exact give (a := false) rfl (Nat.le_refl i) hs (Nat.zero_le _) hc

theorem expect :
    Retraces source (At Q) 0 i (i + 1) 1 (Marked source) (Parser.expect κ) (ByIndex.expect κ) := by
  intro c s hs ho hc
  rw [expect_run hs]
  by_cases h : (s.cursor source).kind = κ
  · have hparser : Parser.expect κ c = Parser.bump c := if_pos (hc.1.kind.trans h)
    rw [hparser, if_pos h]
    exact bump (Q := (·.kind = κ)) (fun _ hv => hv ▸ hκ) hs ho ⟨hc.1, h⟩
  · have hparser : Parser.expect κ c = Parser.unexpected (.token κ) c := if_neg (hc.1.kind ▸ h)
    rw [hparser, if_neg h, ← hc.1.current]
    exact .fault _ _ _

end

theorem expectEnd (construct : Fault.Construct) (opener : Span) :
    Retraces source (At Q) 0 i (i + 1) 1 (Marked source) (Parser.expectEnd construct opener)
      (ByIndex.expectEnd construct opener) := by
  intro c s hs ho hc
  by_cases h : (s.cursor source).kind = .endKw
  · have hparser : Parser.expectEnd construct opener c = Parser.bump c := if_pos (hc.1.kind.trans h)
    have hmachine : ByIndex.expectEnd construct opener s = ByIndex.bump s :=
      (bind_of_ok (nth_zero_run hs)).trans (congrFun (if_pos h) s)
    rw [hparser, hmachine]
    exact bump (Q := (·.kind = .endKw)) (fun _ hv => by rw [hv]; decide) hs ho ⟨hc.1, h⟩
  · have hparser : Parser.expectEnd construct opener c =
        .error (.fault ⟨.unclosed construct opener c.kind, c.current.span⟩) c := if_neg (hc.1.kind ▸ h)
    have hmachine : ByIndex.expectEnd construct opener s = .error (.setback (.fault
        ⟨.unclosed construct opener (s.cursor source).kind, (s.cursor source).current.span⟩)) s :=
      (bind_of_ok (nth_zero_run hs)).trans (congrFun (if_neg h) s)
    rw [hparser, hmachine, hc.1.kind, hc.1.current]
    exact .fault _ _ _

theorem freshId : Retraces source (At Q) 0 (i + 1) i 0 Eq Parser.freshId ByIndex.freshId := by
  intro c s hs _ hc
  have hlt : s.nextId + 1 < 0x100000000 := by
    have := hs.ids
    have := hs.pos
    omega
  have hchecked : (checked (increment? s.nextId) : Reader Nat) s = .ok (s.nextId + 1) s := by
    rw [increment?, if_pos hlt]
    rfl
  have hmachine : ByIndex.freshId s = .ok s.nextId { s with nextId := s.nextId + 1 } :=
    (bind_of_ok rfl).trans (bind_of_ok hchecked)
  have hmoves : s.Moves 0 (i + 1) i 0 { s with nextId := s.nextId + 1 } :=
    ⟨Nat.le_refl _, by simp; omega, rfl, rfl⟩
  rw [hmachine]
  obtain ⟨seen, stop, parens, nextId, locals⟩ := hc.1
  exact .ok nextId ⟨seen, stop, parens, congrArg (· + 1) nextId, locals⟩
    (hs.of_moves hmoves rfl rfl hs.pos) hmoves

section
variable {p : Token.Kind → Bool} (heof : p .eof = false) (hnewline : p .newline = true)
include heof hnewline

/-- Skipping at places that differ in line feeds leads to places that look the same. -/
theorem skip {m : Parser Unit} (hm : ∀ c, m c = .ok () { c with rest := c.rest.dropWhile (p ·.kind) }) :
    Retraces source (Cursor.Alike Cursor.content) 0 i i 0 Eq m (ByIndex.itemFuel >>= ByIndex.skip p) := by
  intro c s hs _ hc
  have hfuel : (s.cursor source).rest.length < s.marks.size := by
    rw [hs.marks, size_marks]
    exact Nat.lt_succ_of_le (List.drop_sublist s.pos (tokens source)).length_le
  obtain ⟨t, hskip, ht, hmoves, halike⟩ := skip_run heof hnewline hs hfuel
  have hrun : (ByIndex.itemFuel >>= ByIndex.skip p) s = .ok () t := (bind_of_ok rfl).trans hskip
  have hrest : c.rest.dropWhile (p ·.kind) = (s.cursor source).rest.dropWhile (p ·.kind) := by
    have hp (t : Token) (ht : t.kind = .newline) : p t.kind = true := by rw [ht, hnewline]
    rw [Cursor.dropWhile_rest hp, Cursor.dropWhile_rest hp, hc.seen]
  rw [hrun, hm, hrest]
  obtain ⟨-, stop, parens, nextId, locals⟩ := hc
  cases c
  subst_vars
  exact .ok rfl halike ht hmoves

end

theorem skipTerminators : Retraces source (Cursor.Alike Cursor.content) 0 i i 0 Eq Parser.skipTerminators
    ByIndex.skipTerminators := skip (p := Cursor.isTerminator) rfl rfl fun _ => rfl

theorem skipNewlines : Retraces source (Cursor.Alike Cursor.content) 0 i i 0 Eq Parser.skipNewlines
    ByIndex.skipNewlines := skip (p := (· == .newline)) rfl rfl fun _ => rfl

theorem content (h : Retraces source (Cursor.Alike Cursor.content) opened i j k V m m') :
    Retraces source (At Q) opened i j k V m m' := h.pre fun _ _ hc => hc.1.content

theorem expectTerminator (after : Fault.Part) :
    Retraces source (At Q) 0 i i 0 Eq (Parser.expectTerminator after) (ByIndex.expectTerminator after) := by
  refine kind fun κ => ?_
  split
  · exact skipTerminators.content
  · exact unexpected _

/-- Behind a parenthesis both sides count alike, and of the parentheses that are to be closed there are `o'`
where there were `o`. -/
theorem paren {o o' : Nat} {κ : Token.Kind} (hκ : κ ≠ .eof) (count : Nat → Nat) (count? : Nat → Option Nat)
    (hcount : ∀ m, o ≤ m → m + 1 < 0x100000000 →
      count? m = some (count m) ∧ count m ≤ m + 1 ∧ o' ≤ count m ∧ count m - o' = m - o)
    {p : Parser Token} {q : Reader Mark}
    (hp : ∀ c, p c = if c.kind = κ then .ok c.current { c.next with parens := count c.parens }
      else .error (.fault (.unexpectedToken (.token κ) c.current)) c)
    (hq : q = ByIndex.expect κ >>= fun mark => get >>= fun s => checked (count? s.parens) >>= fun parens =>
      modify (fun s => { s with parens }) >>= fun _ => pure mark)
    {f : Token → Parser α'} {g : Mark → Reader β'}
    (hf : ∀ t, Retraces source (At Parser.Anywhere) o' (i + 1) l (n - 1) W (f t) (g t.mark)) :
    Retraces source (At Q) o i l n W (p >>= f) (q >>= g) := by
  intro c s hs ho hc
  have hexpect := expect_run hs κ
  have hparser := hp c
  rw [hc.1.kind, hc.1.current, hc.1.next, hc.1.parens] at hparser
  by_cases h : (s.cursor source).kind = κ
  · obtain ⟨t, hrun, hnext, ht, hmoves⟩ := bump_run hs (h ▸ hκ)
    obtain ⟨hpos, hids, hparens, hscopes⟩ := hmoves
    have hroom : t.parens + 1 < 0x100000000 := by
      have := hs.parens
      have := ht.pos
      omega
    obtain ⟨hsome, hle, ho', hsame⟩ := hcount t.parens (by omega) hroom
    have hchecked : (checked (count? t.parens) : Reader Nat) t = .ok (count t.parens) t := by
      rw [hsome]
      rfl
    rw [if_pos h] at hexpect hparser
    rw [← hnext, show (s.cursor source).parens = t.parens from hparens.symm] at hparser
    have hmachine : q s = .ok (s.cursor source).current.mark { t with parens := count t.parens } := by
      rw [hq]
      exact (bind_of_ok (hexpect.trans hrun)).trans ((bind_of_ok rfl).trans (bind_of_ok hchecked))
    rw [bind_of_ok hparser, bind_of_ok hmachine]
    have hfits : count t.parens + (tokens source).length < t.pos + 0x100000000 := by
      have := hs.parens
      omega
    refine (hf _ (s := { t with parens := count t.parens }) ⟨ht.marks, ht.source, ht.pos, ht.ids, hfits⟩ ho'
      ⟨.refl _ _, trivial⟩).after fun u ⟨hpos', hids', hparens', hscopes'⟩ => ?_
    dsimp only at hpos' hids' hparens'
    exact ⟨by omega, by omega, by omega, hscopes'.trans hscopes⟩
  · rw [if_neg h] at hexpect hparser
    rw [hq, bind_of_error hparser, bind_of_error (bind_of_error hexpect)]
    exact .fault _ _ _

/-- Behind `(` one parenthesis more is open. -/
theorem openParen {f : Token → Parser α'} {g : Mark → Reader β'}
    (hf : ∀ t, Retraces source (At Parser.Anywhere) 1 (i + 1) l (n - 1) W (f t) (g t.mark)) :
    Retraces source (At Q) 0 i l n W (Parser.openParen >>= f) (ByIndex.openParen >>= g) :=
  paren (by decide) (· + 1) increment? (fun m _ hm => ⟨if_pos hm, Nat.le_refl _, Nat.le_add_left 1 m, rfl⟩)
    Parser.openParen_run rfl hf

/-- Before `)` there is a parenthesis open. -/
theorem closeParen {f : Token → Parser α'} {g : Mark → Reader β'}
    (hf : ∀ t, Retraces source (At Parser.Anywhere) 0 (i + 1) l (n - 1) W (f t) (g t.mark)) :
    Retraces source (At Q) 1 i l n W (Parser.closeParen >>= f) (ByIndex.closeParen >>= g) := by
  refine paren (by decide) (· - 1) decrement? (fun m hm _ => ?_) Parser.closeParen_run rfl hf
  obtain ⟨outer, rfl⟩ : ∃ outer, m = outer + 1 := ⟨m - 1, by omega⟩
  exact ⟨rfl, by omega, Nat.zero_le _, rfl⟩

theorem isLocal (name : String) :
    Retraces source (At Q) 0 i i 0 Eq (Parser.isLocal name) (ByIndex.isLocal name) := by
  intro c s hs ho hc
  have hlocals : Parser.isLocal name c = .ok (Cursor.isLocalIn name s.locals) c :=
    congrArg (fun locals => EStateM.Result.ok (Cursor.isLocalIn name locals) c) hc.1.locals
  rw [hlocals]
  exact give (V := Eq) rfl (Nat.le_refl i) hs ho hc

theorem declare (name : String) :
    Retraces source (At Q) 0 i i 0 Eq (Parser.declare name) (ByIndex.declare name) := by
  intro c s hs _ hc
  obtain ⟨seen, stop, parens, nextId, locals⟩ := hc.1
  have hmoves : s.Moves 0 i i 0 { s with locals := Cursor.declareIn name s.locals } :=
    ⟨Nat.le_refl _, Nat.le_refl _, rfl, Cursor.length_declareIn name s.locals⟩
  exact .ok rfl ⟨seen, stop, parens, nextId, congrArg (Cursor.declareIn name) locals⟩
    (hs.of_moves hmoves rfl rfl hs.pos) hmoves

theorem forM_declare (params : List Ident) : Retraces source (At Q) 0 i i 0 Eq
    (params.forM fun p => Parser.declare p.name) (params.forM fun p => ByIndex.declare p.name) := by
  induction params generalizing Q with
  | nil => exact give rfl (Nat.le_refl i)
  | cons p params ih => exact (declare p.name).andThen fun _ => ih

/-- The name that a token is can be looked up. -/
theorem name {t : Token} {g : String → Reader β} (ht : t.span.slice? source.toList = some t.text.toList)
    (hg : Retraces source P opened i j k V m (g t.text)) :
    Retraces source P opened i j k V m (ByIndex.name t.mark >>= g) := by
  intro c s hs ho hc
  have hname : ByIndex.name t.mark s = .ok t.text s :=
    (bind_of_ok (text_run hs ht)).trans (congrArg (EStateM.Result.ok · s) String.ofList_toList)
  rw [bind_of_ok hname]
  exact hg hs ho hc

/-- No line feed is hidden at the end of `m`, so the places are the same there. -/
theorem withNewlines (h : Retraces source P' 0 i j k V m m') (hparens : ∀ {c v}, P c v → c.parens = v.parens)
    (hP : ∀ {c v}, P c v → P' { c with parens := 0 } { v with parens := 0 }) :
    Retraces source P 0 i j k V (Parser.withNewlines m) (ByIndex.withNewlines m') := by
  intro c s hs _ hc
  have hroom : (0 : Nat) + (tokens source).length < s.pos + 0x100000000 := by
    have := hs.parens
    omega
  have hm := h (s := { s with parens := 0 }) ⟨hs.marks, hs.source, hs.pos, hs.ids, hroom⟩ (Nat.zero_le _)
    (hP hc)
  have hmachine : ByIndex.withNewlines m' s =
      afterwards (fun t => { t with parens := s.parens }) m' { s with parens := 0 } :=
    (bind_of_ok rfl).trans (bind_of_ok rfl)
  rw [Parser.withNewlines_run, hmachine, afterwards]
  generalize m { c with parens := 0 } = r at hm
  generalize m' { s with parens := 0 } = r' at hm
  cases hm with
  | @ok a b d t hvalue hd ht hmoves =>
    obtain ⟨hpos, hids, hzero, hscopes⟩ := hmoves
    have hmoves : s.Moves 0 i j k { t with parens := s.parens } := ⟨hpos, hids, rfl, hscopes⟩
    rw [hd.eq_of_parens hzero, hparens hc]
    have hwithin : State.Within source j { t with parens := s.parens } :=
      hs.of_moves hmoves (ht.marks.trans hs.marks.symm) (ht.source.trans hs.source.symm) ht.pos
    exact .ok hvalue (.refl _ _) hwithin hmoves
  | fault => exact .fault _ _ _
  | outOfFuel => exact .outOfFuel _ _

theorem inScope (closed : Bool) (h : Retraces source P' 0 i j k V m m')
    (hP : ∀ {c v}, P c v →
      P' { c with locals := ⟨closed, []⟩ :: c.locals } { v with locals := ⟨closed, []⟩ :: v.locals }) :
    Retraces source P 0 i j k V (Parser.inScope closed m) (ByIndex.inScope closed m') := by
  intro c s hs _ hc
  have hm := h (s := { s with locals := ⟨closed, []⟩ :: s.locals })
    ⟨hs.marks, hs.source, hs.pos, hs.ids, hs.parens⟩ (Nat.zero_le _) (hP hc)
  have hmachine : ByIndex.inScope closed m' s = afterwards (fun t => { t with locals := t.locals.drop 1 }) m'
      { s with locals := ⟨closed, []⟩ :: s.locals } := bind_of_ok rfl
  rw [Parser.inScope_run, hmachine, afterwards]
  generalize m { c with locals := ⟨closed, []⟩ :: c.locals } = r at hm
  generalize m' { s with locals := ⟨closed, []⟩ :: s.locals } = r' at hm
  cases hm with
  | @ok a b d t hvalue hd ht hmoves =>
    obtain ⟨hpos, hids, hparens, hscopes⟩ := hmoves
    have hmoves : s.Moves 0 i j k { t with locals := t.locals.drop 1 } :=
      ⟨hpos, hids, hparens, by rw [List.length_drop, hscopes]; rfl⟩
    obtain ⟨seen, stop, parens, nextId, locals⟩ := hd
    have hwithin : State.Within source j { t with locals := t.locals.drop 1 } :=
      hs.of_moves hmoves (ht.marks.trans hs.marks.symm) (ht.source.trans hs.source.symm) ht.pos
    exact .ok hvalue ⟨seen, stop, parens, nextId, congrArg (List.drop 1) locals⟩ hwithin hmoves
  | fault => exact .fault _ _ _
  | outOfFuel => exact .outOfFuel _ _

theorem commaList {item : Parser α} {item' : Reader α} {gap : Parser Unit} {gap' : Reader Unit}
    (h : ∀ i, Retraces source (At Parser.Anywhere) 0 i i 1 Eq item item')
    (hgap : ∀ i, Retraces source (At Parser.Anywhere) 0 i i 0 Eq gap gap') (fuel fuel' : Nat) :
    Retraces source (At fun v => v.rest.length < fuel') 0 i i 1 Eq (Parser.commaList item gap fuel)
      (ByIndex.commaList item' gap' fuel') := by
  induction fuel generalizing fuel' with
  | zero => exact fun _ _ _ _ _ => .outOfFuel _ _
  | succ fuel ih =>
    cases fuel' with
    | zero => exact fun _ _ _ _ hc => absurd hc.2 (Nat.not_lt_zero _)
    | succ fuel' =>
      refine (h i).anywhere.fewer fun first => (eat (by decide)).fewer fun more => ?_
      split
      · refine (hgap i).anywhere.fewer fun _ => ?_
        exact ((ih fuel').mono (Nat.zero_le 1)).andThen fun _ => give rfl (Nat.le_refl i)
      · exact give rfl (Nat.le_refl i)

end Retraces

end ByIndex

end FlowTyping
