import FlowTyping.Parse.Cursor
import Mathlib

/-!
# Brackets

Which `end` belongs to which opening token, and which `do` belongs to a `while`, shows from the tokens
alone, however names are resolved: `Brackets.run` keeps a stack of what is open.  A `do` belongs to the
`while` on top of the stack, unless a line feed or a semicolon was in sight in between.  Line feeds are out
of sight inside parentheses and behind `=` and commas, and the stack tells that as well.

What is open further out does not matter for the tokens behind (`Brackets.run_below`), unless a loop waits
there for its body.
-/

namespace FlowTyping

/-- What is open: a parenthesis, a block in braces, a block or method body up to its `end`, a choice or the
body of a loop up to its `end`, or a loop before its body. -/
inductive Opening where
  | paren | brace | block | chain | head
deriving DecidableEq, Repr

namespace Opening

/-- Whether line feeds are out of sight, where the innermost opening comes first. -/
def hides : List Opening → Bool
  | .paren :: _ => true
  | .chain :: fs | .head :: fs => hides fs
  | _ => false

/-- The head of a loop ends. -/
def settle : List Opening → List Opening
  | .head :: fs => .chain :: fs
  | fs => fs

/-- No head of a loop stands on top. -/
def Settled (fs : List Opening) : Prop := fs.head? ≠ some .head

instance (fs : List Opening) : Decidable (Settled fs) := inferInstanceAs (Decidable (_ ≠ _))

/-- What a token of this kind opens. -/
def opened? : Token.Kind → Option Opening
  | .lparen => some .paren
  | .lbrace => some .brace
  | .doKw | .defKw => some .block
  | .ifKw => some .chain
  | .whileKw => some .head
  | _ => none

/-- What a token of this kind may close.  If there is something, it has to close it. -/
def closable : Token.Kind → List Opening
  | .rparen => [.paren]
  | .rbrace => [.brace]
  | .endKw => [.block, .chain]
  | _ => []

/-- The kinds of tokens that may end the head of a loop. -/
def settlers : List Token.Kind := [.newline, .semicolon, .doKw]

/-- What is open behind a token that is no line feed. -/
def shift (k : Token.Kind) (fs : List Opening) : Option (List Opening) :=
  if k ∈ settlers ∧ ¬ Settled fs then some (settle fs)
  else if closable k = [] then some ((opened? k).toList ++ fs)
  else if ∃ f ∈ closable k, fs.head? = some f then some fs.tail
  else none

variable {fs fs' base : List Opening} {k : Token.Kind}

theorem Settled.settle_eq (h : Settled fs) : settle fs = fs := by
  unfold settle
  split
  · exact absurd rfl h
  · rfl

theorem Settled.shift_newline (h : Settled fs) : shift .newline fs = some fs := by
  unfold shift
  rw [if_neg fun hk => hk.2 h]
  rfl

theorem hides_append (h : hides base = false) : hides (fs ++ base) = hides fs := by
  induction fs with
  | nil => exact h
  | cons f fs ih => cases f <;> first | rfl | exact ih

theorem settled_cons {f : Opening} : Settled (f :: fs) ↔ f ≠ .head := by simp [Settled]

/-- Most tokens open and close nothing. -/
theorem shift_idle (hk : k ∉ settlers ∧ closable k = [] ∧ opened? k = none) : shift k fs = some fs := by
  rw [shift, if_neg fun h => hk.1 h.1, if_pos hk.2.1, hk.2.2]
  rfl

theorem shift_open {f : Opening} (hk : k ∉ settlers ∧ closable k = [] ∧ opened? k = some f) :
    shift k fs = some (f :: fs) := by
  rw [shift, if_neg fun h => hk.1 h.1, if_pos hk.2.1, hk.2.2]
  rfl

theorem shift_close {f : Opening} (hk : k ∉ settlers ∧ f ∈ closable k) : shift k (f :: fs) = some fs := by
  rw [shift, if_neg fun h => hk.1 h.1, if_neg (List.ne_nil_of_mem hk.2), if_pos ⟨f, hk.2, rfl⟩]
  rfl

/-- What closes has something to close. -/
theorem exists_of_shift (h : shift k fs = some fs') (hk : closable k ≠ []) :
    ∃ f ∈ closable k, fs = f :: fs' := by
  have hsettlers : k ∉ settlers := fun hmem => hk <| by
    have hnone : ∀ k ∈ settlers, closable k = [] := by decide
    exact hnone k hmem
  rw [shift, if_neg fun h => hsettlers h.1, if_neg hk] at h
  split at h
  · next htop =>
    obtain ⟨f, hf, hhead⟩ := htop
    obtain ⟨gs, rfl⟩ := List.head?_eq_some_iff.1 hhead
    cases h
    exact ⟨f, hf, rfl⟩
  · cases h

theorem Settled.shift_do (h : Settled fs) : shift .doKw fs = some (.block :: fs) := by
  rw [shift, if_neg fun hk => hk.2 h]
  rfl

theorem Settled.shift_semicolon (h : Settled fs) : shift .semicolon fs = some fs := by
  rw [shift, if_neg fun hk => hk.2 h]
  rfl

theorem shift_head (hk : k ∈ settlers) : shift k (.head :: fs) = some (.chain :: fs) :=
  if_pos ⟨hk, fun h => h rfl⟩

theorem settle_append (h : Settled base) : settle (fs ++ base) = settle fs ++ base := by
  cases fs with
  | nil => exact h.settle_eq
  | cons f fs => cases f <;> rfl

theorem settled_append (h : Settled base) : Settled (fs ++ base) ↔ Settled fs := by
  cases fs with
  | nil => exact iff_of_true h (by decide)
  | cons f fs => rw [List.cons_append, settled_cons, settled_cons]

/-- What is open further out does not matter, unless a loop waits there for its body. -/
theorem shift_append (h : shift k fs = some fs') (hbase : Settled base ∨ k ∉ settlers) :
    shift k (fs ++ base) = some (fs' ++ base) := by
  have hsettle : (k ∈ settlers ∧ ¬ Settled (fs ++ base)) ↔ (k ∈ settlers ∧ ¬ Settled fs) :=
    and_congr_right fun hk => not_congr (settled_append (hbase.resolve_right fun hk' => hk' hk))
  unfold shift at h ⊢
  simp only [hsettle]
  split at h
  · next hk =>
    cases h
    rw [if_pos hk, settle_append (hbase.resolve_right fun hk' => hk' hk.1)]
  · next hk =>
    rw [if_neg hk]
    split at h
    · next hopen =>
      cases h
      rw [if_pos hopen, List.append_assoc]
    · next hclose =>
      rw [if_neg hclose]
      split at h
      · next htop =>
        cases h
        obtain ⟨f, hf, hhead⟩ := htop
        obtain ⟨gs, rfl⟩ := List.head?_eq_some_iff.1 hhead
        rw [if_pos ⟨f, hf, rfl⟩]
        rfl
      · cases h

/-- No loop waits for its body behind a token that is no `while`, if none did before it. -/
theorem head_not_mem_shift (h : shift k fs = some fs') (hk : k ≠ .whileKw) (hfs : .head ∉ fs) :
    .head ∉ fs' := by
  have hsettled : Settled fs := fun hhead => hfs (List.mem_of_head? hhead)
  unfold shift at h
  rw [if_neg fun hk => hk.2 hsettled] at h
  split at h
  · cases h
    rw [List.mem_append, not_or]
    exact ⟨by cases k <;> simp_all [opened?], hfs⟩
  · split at h
    · cases h
      exact fun hmem => hfs (List.mem_of_mem_tail hmem)
    · cases h

end Opening

open Opening

/-- What is open, and whether the line has to go on. -/
structure Brackets where
  goesOn : Bool
  openings : List Opening
deriving DecidableEq, Repr

namespace Brackets

/-- Whether a line goes on behind a token of this kind. -/
def goesOnBehind (k : Token.Kind) : Bool := k == .eq || k == .comma

def step (b : Brackets) (t : Token) : Option Brackets :=
  if t.kind = .newline ∧ (b.goesOn = true ∨ hides b.openings = true) then some b
  else (shift t.kind b.openings).map (Brackets.mk (goesOnBehind t.kind))

def run (b : Brackets) (ts : List Token) : Option Brackets := ts.foldlM step b

variable {b b' : Brackets} {fs fs' base : List Opening} {ts us : List Token} {t : Token} {k : Token.Kind}
  {on on' : Bool}

theorem run_nil (b : Brackets) : b.run [] = some b := rfl

theorem run_cons (b : Brackets) (t : Token) (ts : List Token) :
    b.run (t :: ts) = (b.step t).bind fun b' => b'.run ts := rfl

theorem run_append (b : Brackets) (ts us : List Token) :
    b.run (ts ++ us) = (b.run ts).bind fun b' => b'.run us := List.foldlM_append ..

theorem run_append_of_run (h : b.run ts = some b') : b.run (ts ++ us) = b'.run us := by
  rw [run_append, h, Option.bind_some]

theorem exists_of_run_append (h : b.run (ts ++ us) = some b') : ∃ b₁, b.run ts = some b₁ ∧ b₁.run us = some b' :=
  Option.bind_eq_some_iff.1 (run_append b ts us ▸ h)

theorem run_singleton (b : Brackets) (t : Token) : b.run [t] = b.step t := by
  rw [run_cons]
  cases b.step t <;> rfl

/-- Only the kinds of tokens matter. -/
theorem run_congr (h : ts.map Token.kind = us.map Token.kind) : b.run ts = b.run us := by
  induction ts generalizing us b with
  | nil => rw [List.map_eq_nil_iff.1 h.symm]
  | cons t ts ih =>
    obtain ⟨u, us, rfl, hkind, hus⟩ := List.map_eq_cons_iff.1 h.symm
    have hstep : b.step t = b.step u := by unfold step; rw [hkind]
    rw [run_cons, run_cons, hstep]
    exact congrArg _ (funext fun b' => ih hus.symm)

theorem step_of_kind (h : t.kind = k) (hk : k ≠ .newline) :
    b.step t = (shift k b.openings).map (Brackets.mk (goesOnBehind k)) := by
  unfold step
  rw [if_neg fun hnewline => hk (h.symm.trans hnewline.1), h]

/-- Line feeds out of sight change nothing, nor do those that end no head of a loop. -/
theorem run_newlines (hb : b.goesOn = true ∨ hides b.openings = true ∨ Settled b.openings)
    (hts : ∀ t ∈ ts, t.kind = .newline) : b.run ts = some b := by
  induction ts with
  | nil => rfl
  | cons t ts ih =>
    have hstep : b.step t = some b := by
      unfold step
      split
      · rfl
      · next h =>
        have hnewline := hts t List.mem_cons_self
        rw [hnewline, not_and, not_or] at h
        obtain ⟨hon, hhides⟩ := h rfl
        have hsettled := (hb.resolve_left hon).resolve_left hhides
        rw [hnewline, hsettled.shift_newline]
        exact congrArg (fun on => some (mk on b.openings)) (Bool.eq_false_iff.2 hon).symm
    rw [run_cons, hstep, Option.bind_some]
    exact ih fun t ht => hts t (List.mem_cons_of_mem _ ht)

/-! ### What is open further out -/

theorem step_append (h : (mk on fs).step t = some ⟨on', fs'⟩)
    (hbase : hides base = false ∧ Settled base ∨ t.kind ∉ settlers) :
    (mk on (fs ++ base)).step t = some ⟨on', fs' ++ base⟩ := by
  have hhidden : (t.kind = .newline ∧ (on = true ∨ hides (fs ++ base) = true)) ↔
      (t.kind = .newline ∧ (on = true ∨ hides fs = true)) := by
    refine and_congr_right fun hk => ?_
    obtain ⟨hhides, -⟩ := hbase.resolve_right fun hmem => hmem (by rw [hk]; decide)
    rw [hides_append hhides]
  unfold step at h ⊢
  simp only [hhidden]
  split at h
  · next hk =>
    cases h
    rw [if_pos hk]
  · next hk =>
    obtain ⟨gs, hgs, hmk⟩ := Option.map_eq_some_iff.1 h
    cases hmk
    rw [if_neg hk, shift_append hgs (hbase.imp_left And.right)]
    rfl

/-- What is open further out does not matter, unless a loop waits there for its body. -/
theorem run_below (h : (mk on fs).run ts = some ⟨on', fs'⟩)
    (hbase : hides base = false ∧ Settled base ∨ ∀ t ∈ ts, t.kind ∉ settlers) :
    (mk on (fs ++ base)).run ts = some ⟨on', fs' ++ base⟩ := by
  induction ts generalizing on fs with
  | nil => cases h; rfl
  | cons t ts ih =>
    rw [run_cons] at h ⊢
    obtain ⟨⟨on₁, fs₁⟩, hstep, hrun⟩ := Option.bind_eq_some_iff.1 h
    rw [step_append hstep (hbase.imp_right fun hts => hts t List.mem_cons_self), Option.bind_some]
    exact ih hrun (hbase.imp_right fun hts u hu => hts u (List.mem_cons_of_mem _ hu))

/-- Most tokens open and close nothing. -/
theorem run_idle (hts : ∀ t ∈ ts, t.kind ≠ .newline ∧ t.kind ∉ settlers ∧ closable t.kind = [] ∧
    opened? t.kind = none) : ∃ on', (mk on fs).run ts = some ⟨on', fs⟩ := by
  induction ts generalizing on with
  | nil => exact ⟨on, rfl⟩
  | cons t ts ih =>
    obtain ⟨hnewline, hidle⟩ := hts t List.mem_cons_self
    rw [run_cons, step_of_kind rfl hnewline, shift_idle hidle]
    exact ih fun u hu => hts u (List.mem_cons_of_mem _ hu)

theorem head_not_mem_run (h : (mk on fs).run ts = some ⟨on', fs'⟩) (hts : ∀ t ∈ ts, t.kind ≠ .whileKw)
    (hfs : .head ∉ fs) : .head ∉ fs' := by
  induction ts generalizing on fs with
  | nil => cases h; exact hfs
  | cons t ts ih =>
    rw [run_cons] at h
    obtain ⟨⟨on₁, fs₁⟩, hstep, hrun⟩ := Option.bind_eq_some_iff.1 h
    refine ih hrun (fun u hu => hts u (List.mem_cons_of_mem _ hu)) ?_
    unfold step at hstep
    split at hstep
    · cases hstep
      exact hfs
    · obtain ⟨gs, hgs, hmk⟩ := Option.map_eq_some_iff.1 hstep
      cases hmk
      exact head_not_mem_shift hgs (hts t List.mem_cons_self) hfs

/-- Behind the head of a loop line feeds and semicolons change nothing. -/
theorem run_terminators (hfs : Settled fs) (hts : ∀ t ∈ ts, Cursor.isTerminator t.kind = true) :
    (mk false fs).run ts = some ⟨false, fs⟩ := by
  induction ts with
  | nil => rfl
  | cons t ts ih =>
    have hstep : (mk false fs).step t = some ⟨false, fs⟩ := by
      rcases (by simpa [Cursor.isTerminator] using hts t List.mem_cons_self :
        t.kind = .newline ∨ t.kind = .semicolon) with hk | hk
      · rw [← run_singleton]
        exact run_newlines (.inr (.inr hfs)) fun u hu => List.mem_singleton.1 hu ▸ hk
      · rw [step_of_kind hk (by decide), hfs.shift_semicolon]
        rfl
    rw [run_cons, hstep, Option.bind_some]
    exact ih fun u hu => hts u (List.mem_cons_of_mem _ hu)

/-- The first line feed in sight or semicolon ends the head of a loop. -/
theorem run_settlers (hts : ∀ t ∈ ts, Cursor.isTerminator t.kind = true)
    (hends : hides fs = false ∧ ts ≠ [] ∨ ∃ t ∈ ts, t.kind = .semicolon) :
    (mk false (.head :: fs)).run ts = some ⟨false, .chain :: fs⟩ := by
  induction ts with
  | nil =>
    obtain ⟨-, hne⟩ | ⟨t, ht, -⟩ := hends
    · exact absurd rfl hne
    · exact absurd ht List.not_mem_nil
  | cons t ts ih =>
    have hrest : (mk false (.chain :: fs)).run ts = some ⟨false, .chain :: fs⟩ :=
      run_terminators (settled_cons.2 (by decide)) fun u hu => hts u (List.mem_cons_of_mem _ hu)
    rw [run_cons]
    rcases (by simpa [Cursor.isTerminator] using hts t List.mem_cons_self :
      t.kind = .newline ∨ t.kind = .semicolon) with hk | hk
    · cases hhides : hides fs with
      | false =>
        have hstep : (mk false (.head :: fs)).step t = some ⟨false, .chain :: fs⟩ := by
          rw [step, if_neg (by simp [Opening.hides, hhides]), hk, shift_head (by decide)]
          rfl
        rw [hstep, Option.bind_some, hrest]
      | true =>
        have hstep : (mk false (.head :: fs)).step t = some ⟨false, .head :: fs⟩ :=
          if_pos ⟨hk, .inr hhides⟩
        rw [hstep, Option.bind_some]
        refine ih (fun u hu => hts u (List.mem_cons_of_mem _ hu)) (.inr ?_)
        obtain ⟨hfalse, -⟩ | ⟨u, hu, hku⟩ := hends
        · exact absurd (hhides.symm.trans hfalse) (by decide)
        · refine ⟨u, (List.mem_cons.1 hu).resolve_left ?_, hku⟩
          rintro rfl
          exact absurd (hk.symm.trans hku) (by decide)
    · rw [step_of_kind hk (by decide), shift_head (by decide)]
      exact hrest

/-! ### What is balanced -/

/-- Tokens that close all that they open, and nothing else. -/
def Balanced (ts : List Token) : Prop := ∃ on, (mk false []).run ts = some ⟨on, []⟩

namespace Balanced
variable {f : Opening} {z : Token}

/-- Balanced tokens are not closed further out. -/
theorem run_prefix (h : Balanced ts) (hus : us <+: ts) (hbase : hides base = false ∧ Settled base) :
    ∃ on fs, (mk false base).run us = some ⟨on, fs ++ base⟩ := by
  obtain ⟨ws, rfl⟩ := hus
  obtain ⟨on, hrun⟩ := h
  obtain ⟨⟨on', fs⟩, hus, -⟩ := exists_of_run_append hrun
  exact ⟨on', fs, run_below hus (.inl hbase)⟩

theorem run (h : Balanced ts) (hbase : hides base = false ∧ Settled base) :
    ∃ on, (mk false base).run ts = some ⟨on, base⟩ :=
  h.imp fun _ hrun => run_below hrun (.inl hbase)

/-- Where nothing is open nothing is closed. -/
theorem closable_eq_nil (h : Balanced (ts ++ t :: us)) (hts : (mk false []).run ts = some ⟨on, []⟩) :
    closable t.kind = [] := by
  obtain ⟨on', hrun⟩ := h
  rw [run_append_of_run hts, run_cons] at hrun
  obtain ⟨b, hstep, -⟩ := Option.bind_eq_some_iff.1 hrun
  by_contra hclose
  unfold step at hstep
  split at hstep
  · next hnewline => exact hclose (by rw [hnewline.1]; rfl)
  · obtain ⟨fs, hshift, -⟩ := Option.map_eq_some_iff.1 hstep
    obtain ⟨f, -, hf⟩ := exists_of_shift hshift hclose
    cases hf

/-- Between an opening and its end the opening stays. -/
theorem run_closed (h : Balanced ts) (hbase : hides (f :: base) = false ∧ Settled (f :: base))
    (hz : z.kind ∉ settlers ∧ f ∈ closable z.kind) (hus : us <+: ts ++ [z])
    (hrun : (mk false (f :: base)).run us = some ⟨on, fs⟩) : fs = base ∨ f :: base <:+ fs := by
  rcases List.prefix_concat_iff.1 hus with rfl | hus
  · obtain ⟨on', hts⟩ := h.run hbase
    have hnewline : z.kind ≠ .newline := fun hk => hz.1 (hk ▸ by decide)
    rw [run_append_of_run hts, run_singleton, step_of_kind rfl hnewline, shift_close hz] at hrun
    cases hrun
    exact .inl rfl
  · obtain ⟨on', gs, hgs⟩ := h.run_prefix hus hbase
    rw [hrun] at hgs
    cases hgs
    exact .inr (List.suffix_append ..)

end Balanced

end Brackets

end FlowTyping
