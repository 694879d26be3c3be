import FlowTyping.Proofs.Steps

/-!
# Ending early

`Infer.Below X m n`: `m` gives what `n` gives, unless it ends with one of the stops `X` on its way.
The steps of the inference keep this (`Below.layer`), so it passes from the evaluations inside a node
to the node.  More fuel never changes a result that did not run out of fuel (`Below.expr_of_le`), and
neither do breakpoints (`Infer.exprUntil`), which make a run end out of fuel as soon as it comes to
an evaluation of a given kind.  What holds of all evaluations of a run (`Program.Always`) is what no
breakpoint refutes.
-/

namespace FlowTyping
namespace Infer

variable {α β : Type} {X : Stop → Prop}

/-- `m` gives what `n` gives, unless it ends with one of the stops `X`. -/
def Below (X : Stop → Prop) (m n : Infer α) : Prop :=
  ∀ s, (∃ e t, X e ∧ m s = .error e t) ∨ m s = n s

namespace Below

variable {m n k : Infer α} {f g : α → Infer β}

@[refl] theorem refl (m : Infer α) : Below X m m := fun _ => .inr rfl

theorem trans (h₁ : Below X m n) (h₂ : Below X n k) : Below X m k := by
  intro s
  rcases h₁ s with h | h
  · exact .inl h
  · rw [h]; exact h₂ s

theorem bind (h : Below X m n) (hf : ∀ a, Below X (f a) (g a)) : Below X (m >>= f) (n >>= g) := by
  intro s
  rcases h s with ⟨e, t, he, hm⟩ | h
  · exact .inl ⟨e, t, he, bind_of_error hm⟩
  · cases hn : n s with
    | error e t => rw [bind_of_error (h.trans hn), bind_of_error hn]; exact .inr rfl
    | ok a t => rw [bind_of_ok (h.trans hn), bind_of_ok hn]; exact hf a t

theorem within (context : Context) (h : Below X m n) :
    Below X (within context m) (within context n) := by
  intro s
  unfold Infer.within
  rcases h { s with context } with ⟨e, t, he, hm⟩ | h
  · exact .inl ⟨e, _, he, by rw [hm]⟩
  · exact .inr (by rw [h])

theorem whileActive (call : BlockCall) (h : Below X m n) :
    Below X (whileActive call m) (whileActive call n) := by
  intro s
  unfold Infer.whileActive
  rcases h { s with active := call :: s.active } with ⟨e, t, he, hm⟩ | h
  · exact .inl ⟨e, _, he, by rw [hm]⟩
  · exact .inr (by rw [h])

theorem ofOutOfFuel (hX : X .outOfFuel) (n : Infer α) : Below X (throw .outOfFuel) n :=
  fun s => .inl ⟨_, s, hX, rfl⟩

theorem foldlM {f g : β → α → Infer β} (h : ∀ b a, Below X (f b a) (g b a)) (as : List α) (b : β) :
    Below X (as.foldlM f b) (as.foldlM g b) := by
  induction as generalizing b with
  | nil => exact refl _
  | cons a as ih => rw [List.foldlM_cons, List.foldlM_cons]; exact (h b a).bind ih

theorem mapM (h : ∀ a, Below X (f a) (g a)) (as : List α) : Below X (as.mapM f) (as.mapM g) := by
  induction as with
  | nil => exact refl _
  | cons a as ih =>
    rw [List.mapM_cons, List.mapM_cons]
    exact (h a).bind fun _ => ih.bind fun _ => refl _

/-- The passes of the one run need not be allowed in greater number than those of the other. -/
theorem untilStable (hX : X .outOfFuel) (scope : ScopeId) (h : Below X m n) {fuel fuel' : Nat}
    (hle : fuel ≤ fuel') : Below X (untilStable scope m fuel) (untilStable scope n fuel') := by
  induction fuel generalizing fuel' with
  | zero => exact ofOutOfFuel hX _
  | succ fuel ih =>
    obtain ⟨fuel', rfl⟩ := Nat.exists_eq_add_of_lt (Nat.lt_of_succ_le hle)
    refine (refl _).bind fun _ => h.bind fun _ => (refl _).bind fun _ => (refl _).bind fun _ => ?_
    split
    · exact refl _
    · exact (ih (by omega)).bind fun _ => refl _

variable {expr₁ expr₂ : Expr → Infer Ty} (h : ∀ e, Below X (expr₁ e) (expr₂ e))
include h

theorem body (stmts : List Expr) : Below X (body expr₁ stmts) (body expr₂ stmts) :=
  foldlM (fun _ => h) stmts .nil

theorem methodBody (limit : Nat) (id : NodeId) (span : Span) (method : Method)
    (signature : Signature) (blocks : List BlockFrame) :
    Below X (methodBody expr₁ limit id span method signature blocks)
      (methodBody expr₂ limit id span method signature blocks) := by
  refine (refl _).bind fun context => ?_
  show Below X (if limit ≤ context.depth then _ else _) (if limit ≤ context.depth then _ else _)
  split
  · exact refl _
  · exact (refl _).bind fun _ => (body h _).within _

theorem plainCall (limit : Nat) (id : NodeId) (span : Span) (method : Method)
    (signature : Signature) :
    Below X (plainCall expr₁ limit id span method signature)
      (plainCall expr₂ limit id span method signature) := by
  unfold Infer.plainCall
  cases method.returns? signature with
  | some ty => exact refl _
  | none =>
    exact (refl _).bind fun _ => (methodBody h limit id span method signature []).bind fun _ =>
      refl _

theorem blockCall (limit : Nat) (id : NodeId) (span : Span) (method : Method)
    (signature : Signature) (block : Block Expr) :
    Below X (blockCall expr₁ limit id span method signature block)
      (blockCall expr₂ limit id span method signature block) := by
  refine (refl _).bind fun s => ?_
  show Below X (if _ ∈ s.active then _ else _) (if _ ∈ s.active then _ else _)
  split
  · exact refl _
  · exact (refl _).bind fun _ =>
      ((methodBody h limit id span method signature _).whileActive _).bind fun _ => refl _

theorem enter (limit : Nat) (id : NodeId) (span : Span) (method : Method) (signature : Signature)
    (block : Option (Block Expr)) :
    Below X (enter expr₁ limit id span method signature block)
      (enter expr₂ limit id span method signature block) := by
  cases block with
  | none => exact plainCall h limit id span method signature
  | some block => exact blockCall h limit id span method signature block

theorem runBlock (hX : X .outOfFuel) {fuel fuel' : Nat} (hle : fuel ≤ fuel') (frame : BlockFrame)
    (outer : List BlockFrame) (args : Signature) :
    Below X (runBlock expr₁ fuel frame outer args) (runBlock expr₂ fuel' frame outer args) := by
  refine (refl _).bind fun depth => (untilStable hX _ ?_ hle).bind fun _ => refl _
  exact (refl _).bind fun _ => (body h _).within _

/-- A node goes one way if the expressions inside it and the methods that it calls do. -/
theorem layer (hX : X .outOfFuel) {entry₁ entry₂ : Entry} {fuel fuel' : Nat} (hle : fuel ≤ fuel')
    (hentry : ∀ id span method signature block,
      Below X (entry₁ id span method signature block) (entry₂ id span method signature block))
    (e : Expr) : Below X (layer expr₁ entry₁ fuel e) (layer expr₂ entry₂ fuel' e) := by
  refine bind ?_ fun _ => refl _
  unfold Infer.form
  cases e.form with
  | literal v => exact refl _
  | var x => exact refl _
  | define definition => exact refl _
  | assign target value => exact (h value).bind fun _ => refl _
  | branch cond thenBody elseBody =>
    exact (h cond).bind fun _ => (refl _).bind fun _ => (refl _).bind fun _ =>
      (body h thenBody).bind fun _ => (refl _).bind fun _ => (refl _).bind fun _ =>
      (body h _).bind fun _ => refl _
  | loop cond stmts =>
    exact (h cond).bind fun _ => (refl _).bind fun _ =>
      (untilStable hX _ ((body h stmts).bind fun _ => h cond) hle).bind fun _ => refl _
  | yield args =>
    unfold Infer.yield
    refine (mapM h args).bind fun signature => (refl _).bind fun context => ?_
    cases context.blocks with
    | nil => exact refl _
    | cons frame outer => exact runBlock h hX hle frame outer signature
  | call name nameSpan args block =>
    unfold Infer.call
    refine (mapM h args).bind fun signature => (refl _).bind fun s => ?_
    cases s.module.method? name with
    | none => exact refl _
    | some method =>
      show Below X (ite _ _ _) (ite _ _ _)
      split
      · exact refl _
      · exact hentry _ _ _ _ _

end Below

/-! ### Breakpoints -/

/-- The type of an expression, in a run that ends out of fuel as soon as it comes to an evaluation
that `stop` asks for. -/
def exprUntil (stop : Expr → Engine → Bool) (limit : Nat) : Nat → Expr → Infer Ty
  | 0 => fun _ => throw .outOfFuel
  | fuel + 1 => fun e s =>
    if stop e s then .error .outOfFuel s
    else layer (exprUntil stop limit fuel) (enter (exprUntil stop limit fuel) limit) fuel e s

/-- Fewer breakpoints and more fuel. -/
theorem Below.exprUntil_of_le {stop stop' : Expr → Engine → Bool}
    (hstop : ∀ e s, stop' e s = true → stop e s = true) (limit : Nat) {fuel fuel' : Nat}
    (hle : fuel ≤ fuel') (e : Expr) :
    Below (· = .outOfFuel) (exprUntil stop limit fuel e) (exprUntil stop' limit fuel' e) := by
  induction fuel generalizing fuel' e with
  | zero => exact ofOutOfFuel (X := (· = .outOfFuel)) rfl _
  | succ fuel ih =>
    obtain ⟨fuel', rfl⟩ := Nat.exists_eq_add_of_lt (Nat.lt_of_succ_le hle)
    have hle' : fuel ≤ fuel + fuel' := Nat.le_add_right fuel fuel'
    intro s
    unfold exprUntil
    by_cases h : stop e s = true
    · rw [if_pos h]; exact .inl ⟨_, s, rfl, rfl⟩
    · rw [if_neg h, if_neg fun h' => h (hstop e s h')]
      have hih (e : Expr) := ih hle' e
      exact Below.layer hih rfl hle' (Below.enter hih limit) e s

theorem exprUntil_never (limit fuel : Nat) :
    exprUntil (fun _ _ => false) limit fuel = expr limit fuel := by
  induction fuel with
  | zero => rfl
  | succ fuel ih =>
    funext e s
    unfold exprUntil expr
    rw [if_neg Bool.false_ne_true, ih]

theorem Below.exprUntil_expr (stop : Expr → Engine → Bool) (limit fuel : Nat) (e : Expr) :
    Below (· = .outOfFuel) (exprUntil stop limit fuel e) (expr limit fuel e) := by
  have hnever (e : Expr) (s : Engine) (h : (fun _ _ => false : Expr → Engine → Bool) e s = true) :
      stop e s = true := absurd h Bool.false_ne_true
  rw [← exprUntil_never]
  exact exprUntil_of_le hnever limit (Nat.le_refl fuel) e

/-- With more fuel an evaluation gives the same, unless it ran out of fuel. -/
theorem Below.expr_of_le (limit : Nat) {fuel fuel' : Nat} (hle : fuel ≤ fuel') (e : Expr) :
    Below (· = .outOfFuel) (expr limit fuel e) (expr limit fuel' e) := by
  rw [← exprUntil_never, ← exprUntil_never]
  exact exprUntil_of_le (fun _ _ h => h) limit hle e

end Infer

namespace Program

/-- Every evaluation of an expression in the run of a program is one that `Q` holds of: no run with
a breakpoint where `Q` fails ends there. -/
def Always (p : Program) (limit : Nat) (Q : Expr → Engine → Prop) : Prop :=
  ∀ stop : Expr → Engine → Bool, (∀ e s, stop e s = true → ¬ Q e s) →
    ∀ s, Infer.body (Infer.exprUntil stop limit (p.fuel limit)) p.stmts .initial ≠ .error .outOfFuel s

/-- A run with breakpoints wherever `Q` might fail. -/
theorem always_of_stop {p : Program} {limit : Nat} {Q : Expr → Engine → Prop}
    {stop : Expr → Engine → Bool} (hstop : ∀ e s, stop e s = false → Q e s)
    (hrun : ∀ s, Infer.body (Infer.exprUntil stop limit (p.fuel limit)) p.stmts .initial ≠
      .error .outOfFuel s) : p.Always limit Q := by
  intro stop' hstop' s hs
  have hfewer (e : Expr) (s : Engine) (h : stop' e s = true) : stop e s = true := by
    cases hstops : stop e s with
    | true => rfl
    | false => exact absurd (hstop e s hstops) (hstop' e s h)
  rcases Infer.Below.body (fun e => Infer.Below.exprUntil_of_le hfewer limit (Nat.le_refl _) e)
      p.stmts .initial with ⟨_, t, rfl, ht⟩ | heq
  · exact hrun t ht
  · exact hrun s (heq.trans hs)

end Program

end FlowTyping
