import FlowTyping.Proofs.ByIndex
import FlowTyping.Proofs.Quoting
import FlowTyping.Proofs.Scanning
import Mathlib.Data.List.DropRight

/-!
# Tokens by their index

What the machine that parses by index sees at a place is what the parser sees of the tokens that are left
there (`ByIndex.State.cursor`).  As long as the machine reads the text and its counts have room
(`ByIndex.State.Within`), looking ahead, reading a token, skipping tokens and cutting out the text of a
token succeed, with the token that the parser has.
-/

namespace FlowTyping

namespace Cursor

/-- Cursors that differ at most in the tokens that are left, and not in what `f` sees of these. -/
structure Alike (f : Cursor → List Token) (c v : Cursor) : Prop where
  seen : f c = f v
  stop : c.stop = v.stop
  parens : c.parens = v.parens
  nextId : c.nextId = v.nextId
  locals : c.locals = v.locals

/-- The tokens that are left from the first one on that is no line feed. -/
def content (c : Cursor) : List Token := c.rest.dropWhile (·.kind == .newline)

namespace Alike
variable {c v : Cursor} {f : Cursor → List Token}

theorem refl (f : Cursor → List Token) (c : Cursor) : Alike f c c := ⟨rfl, rfl, rfl, rfl, rfl⟩

theorem current (h : Alike visible c v) : c.current = v.current := by
  rw [Cursor.current, h.seen, h.stop]
  rfl

theorem kind (h : Alike visible c v) : c.kind = v.kind := congrArg Token.kind h.current

theorem next (h : Alike visible c v) : c.next = v.next := by
  obtain ⟨seen, stop, parens, nextId, locals⟩ := h
  cases c
  cases v
  simp_all [Cursor.next]

theorem eq_of_parens (h : Alike visible c v) (hparens : v.parens = 0) : c = v := by
  obtain ⟨seen, stop, parens, nextId, locals⟩ := h
  cases c
  cases v
  simp_all [visible]

theorem content (h : Alike visible c v) : Alike content c v := by
  refine ⟨?_, h.stop, h.parens, h.nextId, h.locals⟩
  have hseen := h.seen
  unfold visible at hseen
  rw [h.parens] at hseen
  split at hseen
  · exact congrArg (List.dropWhile _) hseen
  · exact hseen

end Alike

theorem dropWhile_rest {p : Token → Bool} (hp : ∀ t, t.kind = .newline → p t = true) (c : Cursor) :
    c.rest.dropWhile p = c.content.dropWhile p := by
  conv => lhs; rw [← List.takeWhile_append_dropWhile (p := (·.kind == .newline)) (l := c.rest)]
  refine List.dropWhile_append_of_pos fun t ht => hp t ?_
  simpa using List.all_eq_true.1 List.all_takeWhile t ht

end Cursor

namespace ByIndex

/-- The tokens of a text that the parser gets, the end of the text apart. -/
def tokens (source : String) : List Token := (Cursor.ofText source).rest

/-- The cursor at the place where the machine is. -/
def State.cursor (source : String) (s : State) : Cursor where
  rest := (tokens source).drop s.pos
  stop := byteLength source.toList
  parens := s.parens
  nextId := s.nextId
  locals := s.locals

/-- The machine reads `text`, and its counts have room for the tokens that are left and for `i` more. -/
structure State.Within (text : String) (i : Nat) (s : State) : Prop where
  marks : s.marks = (State.start text).marks
  source : s.source = text.toList
  pos : s.pos ≤ (tokens text).length
  ids : s.nextId + (tokens text).length + i < s.pos + 0x100000000
  parens : s.parens + (tokens text).length < s.pos + 0x100000000

/-- From `s` to `t` the machine reads at least `k` tokens, closes `opened` parentheses that were open
before, and takes at most as many identities as it reads tokens, if `i` are paid for before and `j` are to
be left over. -/
structure State.Moves (opened i j k : Nat) (s t : State) : Prop where
  pos : s.pos + k ≤ t.pos
  ids : t.nextId + s.pos + j ≤ s.nextId + t.pos + i
  parens : t.parens + opened = s.parens
  scopes : t.locals.length = s.locals.length

section
variable {source : String} {s t u : State} {opened o i j k l n : Nat}

theorem State.Within.of_moves (h : s.Within source i) (hmoves : s.Moves opened i j k t)
    (hmarks : t.marks = s.marks) (hsource : t.source = s.source) (hpos : t.pos ≤ (tokens source).length) :
    t.Within source j := by
  obtain ⟨hk, hids, hparens, -⟩ := hmoves
  obtain ⟨marks, text, -, ids, parens⟩ := h
  exact ⟨hmarks.trans marks, hsource.trans text, hpos, by omega, by omega⟩

theorem State.Moves.trans (h : s.Moves 0 i j k t) (h' : t.Moves opened j l n u) :
    s.Moves opened i l (k + n) u := by
  obtain ⟨hk, hids, hparens, hscopes⟩ := h
  obtain ⟨hk', hids', hparens', hscopes'⟩ := h'
  exact ⟨by omega, by omega, by omega, hscopes'.trans hscopes⟩

theorem State.Within.mono (h : s.Within source i) (hj : j ≤ i) : s.Within source j := by
  obtain ⟨marks, text, pos, ids, parens⟩ := h
  exact ⟨marks, text, pos, by omega, parens⟩

theorem State.Moves.mono (h : s.Moves opened i j k t) (hl : l ≤ j) (hn : n ≤ k) :
    s.Moves opened i l n t := by
  obtain ⟨hk, hids, hparens, hscopes⟩ := h
  exact ⟨by omega, by omega, hparens, hscopes⟩

/-! ### Tokens by their index -/

/-- What is seen of some tokens. -/
def seenOf (hidden : Bool) (ts : List Token) : List Token :=
  if hidden then ts.dropWhile (·.kind == .newline) else ts

theorem visible_eq (c : Cursor) : c.visible = seenOf (0 < c.parens) c.rest := by
  unfold Cursor.visible seenOf
  by_cases h : c.parens = 0 <;> simp [h, Nat.pos_iff_ne_zero]

/-- What is seen of some tokens from the one with number `n` on. -/
def ahead (hidden : Bool) : Nat → List Token → List Token
  | 0, ts => seenOf hidden ts
  | n + 1, ts => ahead hidden n ((seenOf hidden ts).drop 1)

theorem seenOf_suffix (hidden : Bool) (ts : List Token) : seenOf hidden ts <:+ ts := by
  unfold seenOf
  split
  · exact List.dropWhile_suffix _
  · exact List.suffix_rfl

theorem ahead_suffix (hidden : Bool) (n : Nat) (ts : List Token) : ahead hidden n ts <:+ ts := by
  induction n generalizing ts with
  | zero => exact seenOf_suffix hidden ts
  | succ n ih => exact (ih _).trans ((List.drop_suffix _ _).trans (seenOf_suffix hidden ts))

theorem ahead_cons_newline (n : Nat) {t : Token} (ht : t.kind = .newline) (ts : List Token) :
    ahead true n (t :: ts) = ahead true n ts := by
  have hseen : seenOf true (t :: ts) = seenOf true ts := by simp [seenOf, ht]
  cases n <;> simp only [ahead, hseen]

theorem seenOf_cons {hidden : Bool} {t : Token} (ht : (t.kind == .newline && hidden) = false)
    (ts : List Token) : seenOf hidden (t :: ts) = t :: ts := by
  unfold seenOf
  split
  · next h =>
    subst h
    exact List.dropWhile_cons_of_neg (by simpa using ht)
  · rfl

theorem marks_start (source : String) : (State.start source).marks =
    ((tokens source ++ [Token.eofAt (byteLength source.toList)]).map Token.mark).toArray := by
  simp [State.start, Token.scan, tokens, Cursor.ofText, Cursor.start, Token.eofAt]

theorem size_marks (source : String) : (State.start source).marks.size = (tokens source).length + 1 := by
  simp [marks_start]

theorem getElem?_marks {i : Nat} (hi : i ≤ (tokens source).length) : (State.start source).marks[i]? =
    some (((tokens source).drop i).headD (Token.eofAt (byteLength source.toList))).mark := by
  rw [marks_start, List.getElem?_toArray, List.getElem?_map]
  rcases Nat.lt_or_eq_of_le hi with h | rfl
  · simp [List.getElem?_append_left h, h]
  · simp

/-- The token at an index in range is the first one of those that are left from there on. -/
theorem drop_eq_of_mark {i : Nat} {mark : Mark} (hi : i < (tokens source).length)
    (hmark : (State.start source).marks[i]? = some mark) :
    ∃ t, (tokens source).drop i = t :: (tokens source).drop (i + 1) ∧ mark = t.mark := by
  refine ⟨(tokens source)[i], List.drop_eq_getElem_cons hi, ?_⟩
  rw [getElem?_marks (Nat.le_of_lt hi), List.drop_eq_getElem_cons hi] at hmark
  exact (Option.some.inj hmark).symm

theorem significant_eq (hidden : Bool) (n : Nat) {i : Nat} (hi : i ≤ (tokens source).length) :
    significant (State.start source).marks hidden n i =
      some ((tokens source).length - (ahead hidden n ((tokens source).drop i)).length) := by
  generalize hmarks : (State.start source).marks = marks
  have hsize : marks.size = (tokens source).length + 1 := hmarks ▸ size_marks source
  fun_induction significant marks hidden n i with
  | case1 n i h => omega
  | case2 n i _ h =>
    have hnil : (tokens source).drop i = [] := List.drop_eq_nil_of_le (by omega)
    have hahead : ahead hidden n [] = [] := List.suffix_nil.1 (ahead_suffix hidden n [])
    rw [hnil, hahead, hsize]
    rfl
  | case3 n i _ h hnone =>
    rw [← hmarks, getElem?_marks hi] at hnone
    cases hnone
  | case4 n i _ h mark hmark hnewline ih =>
    obtain ⟨t, hdrop, rfl⟩ := drop_eq_of_mark (by omega) (hmarks ▸ hmark)
    obtain ⟨hkind, rfl⟩ : t.kind = .newline ∧ hidden = true := by simpa [Token.mark] using hnewline
    rw [ih (by omega), hdrop, ahead_cons_newline n hkind]
  | case5 i _ h mark hmark hnewline =>
    obtain ⟨t, hdrop, rfl⟩ := drop_eq_of_mark (by omega) (hmarks ▸ hmark)
    have hlength := congrArg List.length hdrop
    rw [ahead, hdrop, seenOf_cons (Bool.eq_false_iff.2 hnewline), ← hdrop, List.length_drop]
    congr 1
    omega
  | case6 i _ h mark hmark hnewline n ih =>
    obtain ⟨t, hdrop, rfl⟩ := drop_eq_of_mark (by omega) (hmarks ▸ hmark)
    rw [ih (by omega), ahead, hdrop, seenOf_cons (Bool.eq_false_iff.2 hnewline)]
    rfl

/-! ### Steps of the machine -/

/-- The index of the token with number `n`. -/
def index (source : String) (n : Nat) (s : State) : Nat :=
  (tokens source).length - (ahead (0 < s.parens) n ((tokens source).drop s.pos)).length

theorem seek_run (h : s.Within source i) (n : Nat) : seek n s = .ok (index source n s) s := by
  rw [seek, h.marks, significant_eq _ n h.pos]
  rfl

theorem drop_index (source : String) (n : Nat) (s : State) : (tokens source).drop (index source n s) =
    ahead (0 < s.parens) n ((tokens source).drop s.pos) :=
  (List.suffix_iff_eq_drop.1 ((ahead_suffix (0 < s.parens) n _).trans (List.drop_suffix s.pos _))).symm

theorem markAt_run (h : s.Within source i) (n : Nat) : markAt (index source n s) s = .ok
    ((ahead (0 < s.parens) n ((tokens source).drop s.pos)).headD
      (Token.eofAt (byteLength source.toList))).mark s := by
  have hmark := getElem?_marks (show index source n s ≤ (tokens source).length from Nat.sub_le _ _)
  rw [markAt, h.marks, hmark, drop_index]
  rfl

theorem nth_run (h : s.Within source i) (n : Nat) : nth n s = .ok
    ((ahead (0 < s.parens) n ((tokens source).drop s.pos)).headD
      (Token.eofAt (byteLength source.toList))).mark s := by
  rw [nth, bind_of_ok (seek_run h n), markAt_run h]

theorem visible_cursor (source : String) (s : State) :
    (s.cursor source).visible = ahead (0 < s.parens) 0 ((tokens source).drop s.pos) := visible_eq _

theorem nth_zero_run (h : s.Within source i) : nth 0 s = .ok (s.cursor source).current.mark s := by
  rw [nth_run h, Cursor.current, visible_eq]
  rfl

theorem nth_one_run (h : s.Within source i) : nth 1 s = .ok (s.cursor source).next.current.mark s := by
  rw [nth_run h, Cursor.current, visible_eq, Cursor.next, visible_eq]
  rfl

theorem kind_run (h : s.Within source i) : kind s = .ok (s.cursor source).kind s := by
  rw [kind, bind_of_ok (nth_zero_run h)]
  rfl

theorem visible_ne_nil {c : Cursor} (h : c.kind ≠ .eof) : c.visible ≠ [] := by
  intro hnil
  rw [Cursor.kind, Cursor.current, hnil] at h
  exact h rfl

/-- Reading a token moves the index behind it. -/
theorem bump_run (h : s.Within source i) (hkind : (s.cursor source).kind ≠ .eof) :
    ∃ t, bump s = .ok (s.cursor source).current.mark t ∧ t.cursor source = (s.cursor source).next ∧
      t.Within source (i + 1) ∧ s.Moves 0 i (i + 1) 1 t := by
  have hpositive := List.length_pos_iff.2 (visible_ne_nil hkind)
  have hle := (ahead_suffix (0 < s.parens) 0 ((tokens source).drop s.pos)).length_le
  have hindex : s.pos ≤ index source 0 s ∧ index source 0 s < (tokens source).length := by
    have hpos := h.pos
    rw [visible_cursor] at hpositive
    rw [List.length_drop] at hle
    rw [index]
    omega
  have hmark : markAt (index source 0 s) s = .ok (s.cursor source).current.mark s := by
    rw [markAt_run h, Cursor.current, visible_cursor]
    rfl
  have hmoves : s.Moves 0 i (i + 1) 1 { s with pos := index source 0 s + 1 } :=
    ⟨by simp; omega, by simp; omega, rfl, rfl⟩
  refine ⟨{ s with pos := index source 0 s + 1 }, ?_, ?_, h.of_moves hmoves rfl rfl hindex.2, hmoves⟩
  · rw [bump, bind_of_ok (seek_run h 0), bind_of_ok hmark]
    exact congrFun (if_pos hkind) s
  · rw [State.cursor, Cursor.next, visible_cursor, ← drop_index, List.drop_drop]
    rfl

theorem current_mem_scan (source : String) (s : State) : (s.cursor source).current ∈ Token.scan source := by
  rw [Cursor.current, visible_cursor]
  have hmem (t : Token) (ht : t ∈ ahead (0 < s.parens) 0 ((tokens source).drop s.pos)) : t ∈ tokens source :=
    List.mem_of_mem_drop ((ahead_suffix (0 < s.parens) 0 _).mem ht)
  cases hahead : ahead (0 < s.parens) 0 ((tokens source).drop s.pos) with
  | nil => exact List.mem_append_right _ (List.mem_singleton_self _)
  | cons t ts =>
    have ht := List.mem_of_mem_filter (hmem t (by rw [hahead]; exact List.mem_cons_self))
    exact List.mem_append_left _ ht

theorem current_slice (source : String) (s : State) :
    (s.cursor source).current.span.slice? source.toList =
      some (s.cursor source).current.text.toList :=
  Token.slice?_of_mem_scan (current_mem_scan source s)

theorem text_run (h : s.Within source i) {t : Token}
    (ht : t.span.slice? source.toList = some t.text.toList) : text t.span s = .ok t.text.toList s := by
  rw [text, h.source, ht]
  rfl

theorem unexpected_run (h : s.Within source i) (wanted : Fault.Wanted) :
    (unexpected wanted : Reader α) s =
      .error (.setback (.fault (.unexpectedToken wanted (s.cursor source).current))) s := by
  rw [unexpected, bind_of_ok (nth_zero_run h)]
  have hslice := current_slice source s
  generalize (s.cursor source).current = t at hslice
  by_cases hkind : t.kind = .invalid
  · refine (congrFun (if_pos hkind) s).trans ((bind_of_ok (text_run h hslice)).trans ?_)
    show fail (.unexpectedToken wanted ⟨t.kind, String.ofList t.text.toList, t.span⟩) s = _
    rw [String.ofList_toList]
    rfl
  · -- what is no stray piece is reported by its kind alone
    have hfault : Fault.unexpectedToken wanted ⟨t.kind, String.ofList [], t.span⟩ =
        Fault.unexpectedToken wanted t := by simp [Fault.unexpectedToken, hkind]
    refine (congrFun (if_neg hkind) s).trans ((bind_of_ok rfl).trans ?_)
    show fail (.unexpectedToken wanted ⟨t.kind, String.ofList [], t.span⟩) s = _
    rw [hfault]
    rfl

theorem expect_run (h : s.Within source i) (κ : Token.Kind) : expect κ s =
    if (s.cursor source).kind = κ then bump s
    else .error (.setback (.fault (.unexpectedToken (.token κ) (s.cursor source).current))) s := by
  refine (bind_of_ok (kind_run h)).trans ?_
  by_cases hκ : (s.cursor source).kind = κ
  · exact (congrFun (if_pos hκ) s).trans (if_pos hκ).symm
  · exact (congrFun (if_neg hκ) s).trans ((unexpected_run h _).trans (if_neg hκ).symm)

/-- The inside of a quoted token is what stands between its first and its last byte. -/
theorem insideOf_run {text : List Char} (h : ∃ quote inside, quote.utf8Size = 1 ∧
    text = quote :: (inside ++ [quote])) (s : State) : insideOf text s = .ok (insideQuotes text) s := by
  obtain ⟨quote, inside, hquote, rfl⟩ := h
  have hslice : (Span.mk 1 (byteLength (quote :: (inside ++ [quote])) - 1)).slice?
      (quote :: (inside ++ [quote])) = some inside :=
    Span.slice?_eq_some_iff.2 ⟨[quote], [quote], by simp, by simp [hquote],
      by simp [Span.length, hquote], by simp [hquote]⟩
  rw [insideOf, hslice, insideQuotes, List.tail_cons, List.dropLast_concat]
  rfl

/-- The machine reads the value of a literal off the source. -/
theorem literal?_run (h : s.Within source i) :
    literal? (s.cursor source).current.mark s = .ok (s.cursor source).current.literal? s := by
  have hquoted : (s.cursor source).current.kind = .char ∨ (s.cursor source).current.kind = .string →
      ∃ quote inside, quote.utf8Size = 1 ∧
        (s.cursor source).current.text.toList = quote :: (inside ++ [quote]) := fun hkind => by
    rcases List.mem_append.1 (current_mem_scan source s) with ht | ht
    · obtain ⟨quote, inside, hquote, htext, -⟩ := Token.quoted_of_mem_scanFrom ht hkind
      exact ⟨quote, inside, hquote, htext⟩
    · rw [List.mem_singleton.1 ht] at hkind
      exact absurd hkind (by simp [Token.eofAt])
  have htext := text_run h (current_slice source s)
  generalize (s.cursor source).current = t at hquoted htext
  obtain ⟨kind, text, span⟩ := t
  cases kind
  case int => exact bind_of_ok htext
  case float => exact bind_of_ok htext
  case char => exact (bind_of_ok htext).trans (bind_of_ok (insideOf_run (hquoted (.inl rfl)) s))
  case string => exact (bind_of_ok htext).trans (bind_of_ok (insideOf_run (hquoted (.inr rfl)) s))
  all_goals rfl

/-- The parser and the machine read the same token where they see the same. -/
theorem bump_runs {c : Cursor} (h : s.Within source i) (hc : c.Alike Cursor.visible (s.cursor source))
    (hkind : (s.cursor source).kind ≠ .eof) :
    ∃ t, Parser.bump c = .ok (s.cursor source).current (t.cursor source) ∧
      bump s = .ok (s.cursor source).current.mark t ∧ t.cursor source = (s.cursor source).next ∧
      t.Within source (i + 1) ∧ s.Moves 0 i (i + 1) 1 t := by
  obtain ⟨t, hrun, hnext, ht, hmoves⟩ := bump_run h hkind
  refine ⟨t, ?_, hrun, hnext, ht, hmoves⟩
  rw [hnext, ← hc.current, ← hc.next]
  rfl

/-- Nothing but line feeds is hidden, so dropping these and more drops what is hidden too. -/
theorem dropWhile_rest_of_not {c : Cursor} {p : Token.Kind → Bool} (hnewline : p .newline = true)
    (h : p c.kind = false) : c.rest.dropWhile (p ·.kind) = c.visible := by
  obtain ⟨hidden, hrest, hhidden⟩ := c.rest_eq_visible
  rw [hrest, List.dropWhile_append_of_pos fun t ht => by rw [hhidden t ht]; exact hnewline]
  cases hvisible : c.visible with
  | nil => rfl
  | cons t ts =>
    have ht : c.kind = t.kind := by rw [Cursor.kind, Cursor.current, hvisible]; rfl
    exact List.dropWhile_cons_of_neg (by rw [← ht, h]; decide)

theorem visible_visible (c : Cursor) : Cursor.visible { c with rest := c.visible } = c.visible := by
  simp only [visible_eq, seenOf]
  split
  · exact List.dropWhile_idempotent _ _
  · rfl

/-- The machine skips tokens one at a time. -/
theorem skip_run {p : Token.Kind → Bool} (heof : p .eof = false) (hnewline : p .newline = true)
    (h : s.Within source i) {fuel : Nat} (hfuel : (s.cursor source).rest.length < fuel) :
    ∃ t, skip p fuel s = .ok () t ∧ t.Within source i ∧ s.Moves 0 i i 0 t ∧ Cursor.Alike Cursor.visible
      { s.cursor source with rest := (s.cursor source).rest.dropWhile (p ·.kind) } (t.cursor source) := by
  induction fuel generalizing s with
  | zero => exact absurd hfuel (Nat.not_lt_zero _)
  | succ fuel ih =>
    cases hkind : p (s.cursor source).kind with
    | false =>
      refine ⟨s, (bind_of_ok (kind_run h)).trans (congrFun (if_neg (by simp [hkind])) s), h,
        ⟨Nat.le_refl _, Nat.le_refl _, rfl, rfl⟩, ?_⟩
      rw [dropWhile_rest_of_not hnewline hkind]
      exact ⟨visible_visible _, rfl, rfl, rfl, rfl⟩
    | true =>
      have hne : (s.cursor source).kind ≠ .eof := fun heq => by rw [heq, heof] at hkind; cases hkind
      obtain ⟨t, hrun, hnext, ht, hmoves⟩ := bump_run h hne
      obtain ⟨hidden, hrest, hhidden⟩ := Cursor.rest_eq_current hne
      have hlength := congrArg List.length hrest
      rw [List.length_append, List.length_cons, ← hnext] at hlength
      obtain ⟨u, hskip, hu, hmoves', halike⟩ := ih (ht.mono (Nat.le_succ i)) (by omega)
      have hdrop : (s.cursor source).rest.dropWhile (p ·.kind) =
          (t.cursor source).rest.dropWhile (p ·.kind) := by
        rw [hrest, List.dropWhile_append_of_pos fun t ht => by rw [hhidden t ht]; exact hnewline,
          List.dropWhile_cons_of_pos (p := fun t : Token => p t.kind) hkind, hnext]
      have hmoves := (hmoves.mono (Nat.le_succ i) (Nat.zero_le 1)).trans hmoves'
      refine ⟨u, (bind_of_ok (kind_run h)).trans ((congrFun (if_pos hkind) s).trans
        ((bind_of_ok hrun).trans hskip)), hu, hmoves, ?_⟩
      rw [hdrop]
      rw [hnext] at halike ⊢
      exact halike

end

end ByIndex

end FlowTyping
