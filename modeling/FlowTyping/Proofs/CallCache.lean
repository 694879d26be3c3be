import FlowTyping.Proofs.Lockstep
import FlowTyping.Proofs.Refinement
import FlowTyping.Proofs.Termination

/-!
# What the types of calls are kept for

`Program.inferAfresh` infers a program as `Program.infer` does, but evaluates the body of a method at
every call, also when the type of the call is known.  Both give the same result or the same error
(`Program.infer_eq_inferAfresh`), if the run without known types never calls a method whose body is
under inference, and definitions take the place of others only where what is known does not hang on
them (`Engine.MayDefine`).
-/

namespace FlowTyping

/-! ### Inference without known types -/

namespace Infer

/-- Where a run is given up: at a call of a method with a signature and perhaps a block, while the
bodies of some definitions are under inference. -/
abbrev Refusal :=
  List (Definition Expr) → Engine → Method → Signature → Option (Block Expr) → Bool

/-- A call evaluates the body of the method, with its definition counted among those under
inference. -/
def enterAfresh (expr : List (Definition Expr) → Expr → Infer Ty) (limit : Nat)
    (under : List (Definition Expr)) : Entry
  | id, span, method, signature, none =>
    firstCall (expr (method.definition :: under)) limit id span method signature
  | id, span, method, signature, some block =>
    blockCall (expr (method.definition :: under)) limit id span method signature block

/-- The type of an expression, with the body of a method evaluated at every call. -/
def exprAfresh (refuse : Refusal) (limit : Nat) : Nat → List (Definition Expr) → Expr → Infer Ty
  | 0 => fun _ _ => throw .outOfFuel
  | fuel + 1 => fun under =>
    let entry : Entry := fun id span method signature block => do
      if refuse under (← get) method signature block then throw .outOfFuel
      else enterAfresh (exprAfresh refuse limit fuel) limit under id span method signature block
    layer (exprAfresh refuse limit fuel under) entry fuel

/-- The body of the method is under inference, or the call with the block is under way. -/
def reenters : Refusal := fun under s method signature block =>
  decide (method.definition ∈ under) ||
    block.any fun b => decide (⟨method.name, signature, b.id⟩ ∈ s.active)

/-- A run is not given up anywhere. -/
def never : Refusal := fun _ _ _ _ _ => false

end Infer

/-- Infers the types of a program with the body of a method evaluated at every call. -/
def Program.inferAfresh (p : Program) (refuse : Infer.Refusal) (limit : Nat) : Except Stop Module :=
  match Infer.body (Infer.exprAfresh refuse limit (p.fuel limit) []) p.stmts .initial with
  | .ok ty s => .ok { s.module with result := ty }
  | .error e _ => .error e

/-- The definition is the first one of its name, or the one in force; or no call without a block is
under way, and what is known of other methods does not hang on the one in force. -/
def Engine.MayDefine (s : Engine) (d : Definition Expr) : Prop :=
  ∀ old, s.module.definition? d.name.name = some old → old ≠ d →
    s.context.depth = s.active.length ∧ s.module.MayReplace d.name.name

/-- The inference that evaluates every call ends without being given up, and not at the recursion
limit. -/
def Program.endsAfresh (p : Program) (refuse : Infer.Refusal) (limit : Nat) : Bool :=
  match p.inferAfresh refuse limit with
  | .ok _ => true
  | .error .outOfFuel => false
  | .error (.error e) =>
    match e.cause with
    | .recursionLimitExceeded _ _ => false
    | _ => true

/-! ### Runs that are given up -/

/-- Two ways to treat calls and definitions, the first of which gives up a run more often. -/
structure Ways.Below (X : Halt → Prop) (w₁ w₂ : Ways) : Prop where
  known : w₁.known = w₂.known
  refuses : ∀ c method signature block,
    (w₁.refuses c method signature block ↔ w₂.refuses c method signature block) ∨
      X .refused ∧ w₁.refuses c method signature block
  replaces : ∀ c M d, (w₁.replaces c M d ↔ w₂.replaces c M d) ∨ X .replaced ∧ w₁.replaces c M d

namespace Flow

/-- The first step gives what the second one does, unless it ends with one of some halts. -/
def Below (X : Halt → Prop) (m n : Flow α) : Prop := ∀ s, (∃ h, X h ∧ m s = .error h) ∨ m s = n s

namespace Below
variable {X : Halt → Prop}

theorem refl (m : Flow α) : Below X m m := fun _ => .inr rfl

theorem bind {m n : Flow α} {f g : α → Flow β} (h : Below X m n) (hf : ∀ a, Below X (f a) (g a)) :
    Below X (m >>= f) (n >>= g) := by
  intro s
  rcases h s with ⟨e, he, hm⟩ | hmn
  · exact .inl ⟨e, he, bind_of_error hm⟩
  · cases hm : m s with
    | error e => rw [bind_of_error hm, bind_of_error (hmn ▸ hm)]; exact .inr rfl
    | ok r => rw [bind_of_ok hm, bind_of_ok (hmn ▸ hm)]; exact hf r.1 r.2

theorem elsewhere {m n : Flow α} (params : List (Ident × Ty)) (h : Below X m n)
    {go : List Bindings → List (List Bindings) → List Bindings × List (List Bindings)}
    {back : List Bindings → List (List Bindings) → List Bindings → List (List Bindings) →
      List Bindings × List (List Bindings)} :
    Below X (elsewhere params m go back) (elsewhere params n go back) := by
  intro s
  rcases h ⟨s.module.recordParams params, (go s.here s.held).1, (go s.here s.held).2⟩ with
    ⟨e, he, hm⟩ | hmn
  · exact .inl ⟨e, he, elsewhere_of_error hm⟩
  · rw [elsewhere_eq_map, elsewhere_eq_map, hmn]; exact .inr rfl

theorem outward {m n : Flow α} (h : Below X m n) : Below X (outward m) (outward n) := by
  intro s
  cases hs : s.held with
  | nil => rw [outward_of_nil hs, outward_of_nil hs]; exact .inr rfl
  | cons first rest =>
    rcases h ⟨s.module, first, rest⟩ with ⟨e, he, hm⟩ | hmn
    · exact .inl ⟨e, he, outward_of_error hs hm⟩
    · rw [outward_eq_map hs, outward_eq_map hs, hmn]; exact .inr rfl

theorem congruence (X : Halt → Prop) : Congruence (Below X) (· = ·) := by
  refine .of_steps (fun _ => refl _) bind (refl _) (fun _ => refl _) (fun _ _ => refl _)
    (fun _ _ => refl _) (fun hc _ _ _ => ?_) (fun hf h hzero => ?_) Nat.succ.inj
    (fun params h => h.elsewhere params) fun h => h.outward
  · unfold fail; rw [hc]; exact refl _
  · subst hf
    rcases hzero with rfl | rfl <;> exact refl _

section
variable {w₁ w₂ : Ways} (hw : w₁.Below X w₂) {expr₁ expr₂ : Standing → Expr → Flow Ty}
  (h : ∀ c e, Below X (expr₁ c e) (expr₂ c e)) {limit : Nat} {c : Standing} {id : NodeId}
  {span : Span} {method : Method} {signature : Signature} {block : Option (Block Expr)}

theorem define (hw : w₁.Below X w₂) (d : Definition Expr) :
    Below X (define w₁ c d) (define w₂ c d) := by
  intro s
  by_cases h₁ : w₁.replaces c s.module d
  · rcases hw.replaces c s.module d with hiff | ⟨hX, -⟩
    · rw [define_of_replaces h₁, define_of_replaces (hiff.1 h₁)]; exact .inr rfl
    · exact .inl ⟨.replaced, hX, define_of_replaces h₁⟩
  · rcases hw.replaces c s.module d with hiff | ⟨-, h₁'⟩
    · rw [define_of_not h₁, define_of_not fun h₂ => h₁ (hiff.2 h₂)]; exact .inr rfl
    · exact absurd h₁' h₁

include h

theorem methodBody : Below X (methodBody expr₁ limit c id span method signature block)
    (methodBody expr₂ limit c id span method signature block) := by
  by_cases hlimit : limit ≤ c.depth
  · rw [methodBody_of_le hlimit, methodBody_of_le hlimit]; exact refl _
  have hrun := (congruence X).body fun e (_ : e ∈ method.definition.body) =>
    h (c.inside method signature block) e
  cases block with
  | none => rw [methodBody_none hlimit, methodBody_none hlimit]; exact hrun.elsewhere _
  | some b => rw [methodBody_some hlimit, methodBody_some hlimit]; exact hrun.elsewhere _

include hw

theorem enter : Below X (enter w₁ expr₁ limit c id span method signature block)
    (enter w₂ expr₂ limit c id span method signature block) := by
  by_cases h₁ : w₁.refuses c method signature block
  · rcases hw.refuses c method signature block with hiff | ⟨hX, -⟩
    · rw [enter_of_refuses h₁, enter_of_refuses (hiff.1 h₁)]; exact refl _
    · rw [enter_of_refuses h₁]; exact fun s => .inl ⟨.refused, hX, rfl⟩
  have h₂ : ¬ w₂.refuses c method signature block := by
    rcases hw.refuses c method signature block with hiff | ⟨-, h₁'⟩
    · exact fun h₂ => h₁ (hiff.2 h₂)
    · exact absurd h₁' h₁
  cases block with
  | none =>
    rw [enter_none h₁, enter_none h₂, plainCall, plainCall, hw.known]
    cases w₂.known method signature with
    | some ty => exact refl _
    | none =>
      exact (refl _).bind fun _ => (methodBody h).bind fun _ => (refl _).bind fun _ => refl _
  | some b =>
    rw [enter_some h₁, enter_some h₂]
    by_cases hmem : ⟨method.name, signature, b.id⟩ ∈ c.active
    · rw [blockCall_of_mem hmem, blockCall_of_mem hmem]; exact refl _
    · rw [blockCall_of_notMem hmem, blockCall_of_notMem hmem]
      exact (methodBody h).bind fun _ => (refl _).bind fun _ => refl _

end

theorem dispatch {entry₁ entry₂ : Entry} {c : Standing}
    (h : ∀ id span method signature block, Below X (entry₁ c id span method signature block)
      (entry₂ c id span method signature block)) (id : NodeId) (span : Span) (name : String)
    (nameSpan : Span) (signature : Signature) (block : Option (Block Expr)) :
    Below X (dispatch entry₁ c id span name nameSpan signature block)
      (dispatch entry₂ c id span name nameSpan signature block) := by
  refine bind (m := get) (refl _) fun s => ?_
  cases s.module.method? name with
  | none => exact refl _
  | some method =>
    show Below X (ite (method.arity ≠ signature.length) _ _) (ite (method.arity ≠ signature.length) _ _)
    split
    · exact refl _
    · exact h _ _ _ _ _

end Below

/-- Where a run is not given up it does not matter that it might have been. -/
theorem below_expr {X : Halt → Prop} {w₁ w₂ : Ways} (hw : w₁.Below X w₂) (limit fuel : Nat)
    (c : Standing) (e : Expr) : Below X (expr w₁ limit fuel c e) (expr w₂ limit fuel c e) := by
  induction fuel generalizing c e with
  | zero => exact .refl _
  | succ fuel ih =>
    exact (Below.congruence X).layer rfl rfl rfl (fun part _ => ih c part) (fun _ _ _ _ _ _ => ih _ _)
      (fun name nameSpan args block _ signature =>
        .dispatch (fun _ _ _ _ _ => .enter hw ih) _ _ name nameSpan signature block)
      fun d _ => .define hw d

end Flow

/-! ### Inference without known types on stacks -/

section
variable {w : Ways} {refuse : Infer.Refusal}

/-- The inference without known types is that on stacks. -/
theorem follows_exprAfresh (refuse : Infer.Refusal)
    (hknown : ∀ method signature, w.known method signature = none)
    (hrefuses : ∀ s under method signature block,
      refuse (under.map Prod.fst) s method signature block = true ↔
        w.refuses (s.standing under) method signature block)
    (hreplaces : ∀ c M d, ¬ w.replaces c M d) (limit fuel : Nat)
    (under : List (Definition Expr × Option Signature)) :
    Follows (Infer.exprAfresh refuse limit fuel (under.map Prod.fst)) (Flow.expr w limit fuel)
      under := by
  induction fuel generalizing under with
  | zero => exact fun e s _ => ⟨s, rfl⟩
  | succ fuel ih =>
    intro e s hapart
    refine (ih under).layer hapart (fun id span method signature block s' hs => ?_) fuel
      fun d _ => hreplaces _ _ d
    have hstanding : s'.standing under = s.standing under := by
      unfold Engine.standing; rw [hs.context, hs.active]
    have hiff := hrefuses s' under method signature block
    rw [hstanding] at hiff
    rw [bind_of_ok Infer.get_apply]
    by_cases hr : w.refuses (s.standing under) method signature block
    · rw [if_pos (hiff.2 hr), Flow.enter_of_refuses hr]
      exact ⟨s', rfl⟩
    · rw [if_neg fun h => hr (hiff.1 h)]
      cases block with
      | none =>
        rw [Flow.enter_none hr, Flow.plainCall_of_none (hknown method signature)]
        exact (ih ((method.definition, some signature) :: under)).firstCall hapart limit id span hs
      | some b =>
        rw [Flow.enter_some hr]
        exact (ih ((method.definition, none) :: under)).blockCall hapart limit id span b hs

end

/-! ### Both inferences -/

/-- Every call evaluates the body of the method, and no definition ends the run. -/
def Ways.watched : Ways := { Ways.afresh with replaces := fun _ _ _ => False }

/-- Every call evaluates the body of the method, and nothing ends the run. -/
def Ways.free : Ways := { Ways.watched with refuses := fun _ _ _ _ => False }

theorem Ways.afresh_below_watched : Ways.afresh.Below (· = .replaced) Ways.watched where
  known := rfl
  refuses := fun _ _ _ _ => .inl Iff.rfl
  replaces := fun c M d => by
    by_cases h : Ways.afresh.replaces c M d
    · exact .inr ⟨rfl, h⟩
    · exact .inl ⟨h, False.elim⟩

theorem Ways.afresh_below_free : Ways.afresh.Below (fun h => h = .replaced ∨ h = .refused) Ways.free where
  known := rfl
  refuses := fun c method signature block => by
    by_cases h : Ways.afresh.refuses c method signature block
    · exact .inr ⟨.inr rfl, h⟩
    · exact .inl ⟨h, False.elim⟩
  replaces := fun c M d => by
    by_cases h : Ways.afresh.replaces c M d
    · exact .inr ⟨.inl rfl, h⟩
    · exact .inl ⟨h, False.elim⟩

theorem reenters_iff (s : Engine) (under : List (Definition Expr × Option Signature))
    (method : Method) (signature : Signature) (block : Option (Block Expr)) :
    Infer.reenters (under.map Prod.fst) s method signature block = true ↔
      Ways.watched.refuses (s.standing under) method signature block := by
  show _ ↔ Standing.Reenters _ _ _ _
  unfold Infer.reenters Standing.Reenters
  rw [Bool.or_eq_true, decide_eq_true_eq, Option.any_eq_true, List.mem_map]
  simp only [decide_eq_true_eq, Prod.exists, exists_and_right, exists_eq_right]
  rfl

section
variable {expr : Expr → Infer Ty} {flow : Standing → Expr → Flow Ty} {stmts : List Expr}

/-- A run of a program is one on stacks. -/
theorem Follows.run (h : Follows expr flow []) (stmts : List Expr) :
    Matches Engine.initial.context.scope [] .initial (Infer.body expr stmts .initial)
      (Flow.body (flow (Engine.initial.standing [])) stmts (Engine.initial.toStacks 0 [])) :=
  h.body _ (Engine.fits_initial ⟨[]⟩).apart stmts (.refl _)

end

section
variable {p : Program} {limit : Nat}

theorem answers_exprAfresh (p : Program) (limit fuel : Nat) (under : List (Definition Expr)) :
    Answers p limit fuel (Infer.exprAfresh Infer.never limit fuel under) := by
  induction fuel generalizing under with
  | zero =>
    intro e s _ hfuel
    have := e.size_pos
    unfold Program.need at hfuel
    omega
  | succ fuel ih =>
    intro e s he hfuel
    refine (ih under).layer (fun id span method signature block hmethod hsig hblock hrest => ?_)
      he hfuel (.refl s) he.fits
    intro s' hs hfit
    refine Ends.bind (Q := fun a t => s' = a ∧ s' = t) ⟨rfl, rfl⟩ ?_
    rintro _ _ ⟨rfl, rfl⟩
    cases block with
    | none => exact (ih _).firstCall id span hmethod hsig hrest hs hfit
    | some b => exact (ih _).blockCall id span he.fits hmethod hsig (hblock b rfl) hrest hs hfit

/-- Evaluating every call ends with a module or with a type error, too. -/
theorem Program.inferAfresh_ends (p : Program) (limit : Nat) :
    (∃ m, p.inferAfresh Infer.never limit = .ok m) ∨
      ∃ e, p.inferAfresh Infer.never limit = .error (.error e) := by
  have hends := Program.ends_body (answers_exprAfresh p limit (p.fuel limit) [])
  unfold inferAfresh
  unfold Ends at hends
  split at hends
  · next hrun => rw [hrun]; exact .inl ⟨_, rfl⟩
  · next hrun => rw [hrun]; exact .inr ⟨_, rfl⟩
  · exact hends.elim

/-- The outcome of an inference that goes like a run on stacks. -/
theorem Program.inferAfresh_of_run {refuse : Infer.Refusal}
    {r : Except Halt (Ty × Stacks)}
    (h : Matches Engine.initial.context.scope [] .initial
      (Infer.body (Infer.exprAfresh refuse limit (p.fuel limit) []) p.stmts .initial) r) :
    (p.inferAfresh refuse limit).map Module.result =
      (r.map Prod.fst).mapError Halt.stop := by
  unfold inferAfresh
  cases r with
  | ok r => obtain ⟨t, ht, -, -⟩ := h; rw [ht]; rfl
  | error e => obtain ⟨t, ht⟩ := h; rw [ht]; rfl

theorem Program.infer_of_run {stop : Expr → Engine → Bool} {r : Except Halt (Ty × Stacks)}
    (hstop : ∀ s, Infer.body (Infer.exprUntil stop limit (p.fuel limit)) p.stmts .initial ≠
      .error .outOfFuel s)
    (h : Matches Engine.initial.context.scope [] .initial
      (Infer.body (Infer.exprUntil stop limit (p.fuel limit)) p.stmts .initial) r) :
    (p.infer limit).map Module.result = (r.map Prod.fst).mapError Halt.stop ∧
      ∀ e, r = .error e → e.stop ≠ .outOfFuel := by
  have hbelow := Infer.Below.body
    (fun e => Infer.Below.exprUntil_expr stop limit (p.fuel limit) e) p.stmts .initial
  have hrun : p.run limit .initial =
      Infer.body (Infer.exprUntil stop limit (p.fuel limit)) p.stmts .initial := by
    rcases hbelow with ⟨_, s, rfl, hs⟩ | heq
    · exact absurd hs (hstop s)
    · exact heq.symm
  unfold infer
  rw [hrun]
  cases r with
  | ok r =>
    obtain ⟨t, ht, -, -⟩ := h
    rw [ht]
    exact ⟨rfl, fun _ h => nomatch h⟩
  | error e =>
    obtain ⟨t, ht⟩ := h
    rw [ht]
    refine ⟨rfl, ?_⟩
    rintro _ ⟨⟩ hfuel
    exact hstop t (by rw [ht, hfuel])

theorem Program.not_endsAfresh_of_excused {refuse : Infer.Refusal} {h : Halt}
    (hrun : Matches Engine.initial.context.scope [] .initial
      (Infer.body (Infer.exprAfresh refuse limit (p.fuel limit) []) p.stmts .initial)
      (.error h : Except Halt (Ty × Stacks)))
    (hexcused : h.Excused) : ¬ p.endsAfresh refuse limit := by
  obtain ⟨t, ht⟩ := hrun
  unfold endsAfresh inferAfresh
  rw [ht]
  cases h with
  | outOfFuel => exact Bool.false_ne_true
  | refused => exact Bool.false_ne_true
  | replaced => exact hexcused.elim
  | error e =>
    obtain ⟨name, limit, hcause⟩ := hexcused
    show ¬ (match e.cause with | .recursionLimitExceeded _ _ => false | _ => true) = true
    rw [hcause]
    exact Bool.false_ne_true

/-- Returning what is known of calls gives the result, or the error, that evaluating every call
gives. -/
theorem Program.infer_eq_inferAfresh (p : Program) (limit : Nat)
    (hdefine : p.Always limit fun e s => ∀ d, e.form = .define d → s.MayDefine d)
    (hafresh : p.endsAfresh Infer.reenters limit) :
    (p.infer limit).map Module.result = (p.inferAfresh Infer.never limit).map Module.result := by
  classical
  let stop : Expr → Engine → Bool := fun e s => decide (∃ d, e.form = .define d ∧ ¬ s.MayDefine d)
  have hstop := hdefine stop fun e s h hmay => by
    obtain ⟨d, hform, hnot⟩ := of_decide_eq_true h
    exact hnot (hmay d hform)
  -- the inferences as runs on stacks, and the one that relates them
  have hreplaces (e : Expr) (s : Engine) (under : List (Definition Expr × Option Signature)) :
      stop e s = true ↔ ∃ d, e.form = .define d ∧ Ways.cached.replaces (s.standing under) s.module d :=
    decide_eq_true_iff
  have hcached := Follows.run (Follows.exprUntil (w := .cached) rfl (fun _ _ _ _ => id) hreplaces
    limit (p.fuel limit) []) p.stmts
  have hwatched := Follows.run (follows_exprAfresh (w := .watched) Infer.reenters (fun _ _ => rfl) reenters_iff
    (fun _ _ _ => id) limit (p.fuel limit) []) p.stmts
  have hfree := Follows.run (follows_exprAfresh (w := .free) Infer.never (fun _ _ => rfl)
    (fun _ _ _ _ _ => iff_of_false Bool.false_ne_true id) (fun _ _ _ => id) limit (p.fuel limit) []) p.stmts
  have hinitial : Linked limit [] (Engine.initial.toStacks 0 []) (Engine.initial.toStacks 0 []) :=
    ⟨rfl, rfl, rfl, fun _ _ h => nomatch h⟩
  have halike := (Flow.Lockstep.congruence limit []).body
    (fun e (_ : e ∈ p.stmts) => Flow.lockstep_expr limit (p.fuel limit) (p.fuel limit)
      (c := Engine.initial.standing []) rfl e) hinitial
  have hbelowWatched := (Flow.Below.congruence _).body
    (fun e (_ : e ∈ p.stmts) => Flow.below_expr Ways.afresh_below_watched limit (p.fuel limit)
      (Engine.initial.standing []) e)
    (Engine.initial.toStacks 0 [])
  have hbelowFree := (Flow.Below.congruence _).body
    (fun e (_ : e ∈ p.stmts) => Flow.below_expr Ways.afresh_below_free limit (p.fuel limit)
      (Engine.initial.standing []) e)
    (Engine.initial.toStacks 0 [])
  obtain ⟨hinfer, hfuel⟩ := infer_of_run hstop hcached
  rw [hinfer, inferAfresh_of_run hfree]
  generalize Flow.body (Flow.expr .cached limit (p.fuel limit) _) p.stmts _ = rc at halike hfuel
  generalize Flow.body (Flow.expr .afresh limit (p.fuel limit) _) p.stmts _ = ra
    at halike hbelowWatched hbelowFree
  generalize Flow.body (Flow.expr .free limit (p.fuel limit) _) p.stmts _ = rf at hbelowFree
  cases halike with
  | ok _ =>
    rcases hbelowFree with ⟨_, _, h⟩ | h
    · exact nomatch h
    · rw [← h]; rfl
  | error e =>
    rcases hbelowFree with ⟨_, hx, h⟩ | h
    · cases h; rcases hx with hx | hx <;> exact nomatch hx
    · rw [← h]
  | outOfFuel => exact absurd rfl (hfuel _ rfl)
  | replaced => exact absurd rfl (hfuel _ rfl)
  | @excused _ h hexcused =>
    -- then the watched run ends in the same way
    rcases hbelowWatched with ⟨_, rfl, h⟩ | heq
    · cases h; exact hexcused.elim
    · rw [← heq] at hwatched
      exact absurd hafresh (not_endsAfresh_of_excused hwatched hexcused)

end

/-! ### Redefinitions -/

theorem Module.mayReplace_of_notMem_mentions {M : Module} {name : String}
    (h : ∀ m ∈ M.methods, name ∉ m.definition.mentions) : M.MayReplace name := by
  intro m _ hne _ hreach
  rcases Relation.ReflTransGen.cases_tail hreach with rfl | ⟨x, -, d, hd, hmention⟩
  · exact hne rfl
  · obtain ⟨k, hk, rfl⟩ := Module.exists_of_definition? hd
    exact h k (Module.mem_of_method? hk) hmention

namespace Redefinition

def define (name : String) (body : List Expr) : Expr := .bare (.define ⟨.bare name, [], body⟩)

def call (name : String) (block : Option (Block Expr)) : Expr :=
  .bare (.call name ⟨0, 0⟩ [] block)

def one : Expr := .bare (.literal (.int 1))

def letter : Expr := .bare (.literal (.char 'a'))

/-- A method takes the place of another one of its name, and `h`, of which more is known, does not
call it. -/
def apart : Program where
  stmts :=
    [define "g" [one], define "h" [call "g" none], define "f" [letter], call "h" none, call "f" none,
      define "f" [call "h" none], call "f" none]

/-- `f` was inferred when it called another `g`. -/
def callee : Program where
  stmts :=
    [define "g" [one], define "f" [call "g" none], call "f" none, define "g" [letter], call "f" none]

/-- The second call of `f` would have defined `g` once more. -/
def nested : Program where
  stmts :=
    [define "f" [define "g" [one]], call "f" none, define "g" [letter], call "f" none, call "g" none]

/-- What `f` returned is kept for the `f` that it has defined. -/
def itself : Program where
  stmts := [define "f" [define "f" [letter], one], call "f" none, call "f" none]

/-- The call of `n` in `f` goes with a block that has the identity of the one around it. -/
def shared : Program where
  stmts :=
    [define "n" [.bare (.yield [])], define "f" [call "n" (some ⟨5, ⟨0, 0⟩, [], [one]⟩)],
      call "n" (some ⟨5, ⟨0, 0⟩, [], [call "f" none]⟩), call "f" none]

/-- Where a definition might take the place of one that something else hangs on. -/
def suspect (e : Expr) (s : Engine) : Bool :=
  match e.form with
  | .define d => s.context.depth ≠ s.active.length ||
      s.module.methods.any fun m => d.name.name ∈ m.definition.mentions
  | _ => false

theorem mayDefine_of_not_suspect {e : Expr} {s : Engine} (h : suspect e s = false)
    (d : Definition Expr) (hform : e.form = .define d) : s.MayDefine d := by
  unfold suspect at h
  rw [hform] at h
  obtain ⟨hdepth, hmentions⟩ := Bool.or_eq_false_iff.1 h
  refine fun _ _ _ => ⟨of_not_not (of_decide_eq_false hdepth), ?_⟩
  refine Module.mayReplace_of_notMem_mentions fun m hm hmention => ?_
  have := List.any_eq_false.1 hmentions m hm
  exact this (decide_eq_true hmention)

end Redefinition

/-- The call evaluates a body that is under inference. -/
def Infer.enters : Refusal := fun under s method signature block =>
  decide (method.definition ∈ under) &&
    !block.any fun b => decide (⟨method.name, signature, b.id⟩ ∈ s.active)

theorem Program.infer_eq_inferAfresh_apart :
    (Redefinition.apart.infer 64).map Module.result =
      (Redefinition.apart.inferAfresh Infer.never 64).map Module.result := by
  have hrun : (match Infer.body (Infer.exprUntil Redefinition.suspect 64
      (Redefinition.apart.fuel 64)) Redefinition.apart.stmts .initial with
    | .error .outOfFuel _ => false
    | _ => true) = true := by decide +kernel
  refine Redefinition.apart.infer_eq_inferAfresh 64 ?_ (by decide +kernel)
  refine always_of_stop (fun _ _ => Redefinition.mayDefine_of_not_suspect) fun s hs => ?_
  split at hrun
  · exact Bool.false_ne_true hrun
  · next hends => exact hends s hs

/-- The two inferences differ, although no body is evaluated inside its own evaluation. -/
def Program.Misjudged (p : Program) : Prop :=
  p.endsAfresh Infer.enters 64 = true ∧
    (p.infer 64).map Module.result ≠ (p.inferAfresh Infer.never 64).map Module.result

instance (p : Program) : Decidable p.Misjudged := inferInstanceAs (Decidable (_ ∧ _))

/-- What is kept for a call may be wrong after a redefinition, or inside a block that looks like
another one. -/
theorem Program.infer_ne_inferAfresh :
    Redefinition.callee.Misjudged ∧ Redefinition.nested.Misjudged ∧
      Redefinition.itself.Misjudged ∧ Redefinition.shared.Misjudged := by
  decide +kernel

end FlowTyping
