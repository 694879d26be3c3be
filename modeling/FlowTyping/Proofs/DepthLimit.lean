import FlowTyping.Proofs.OpenBodies
import FlowTyping.Proofs.Sites
import Mathlib.Data.Set.Card
import Mathlib.Data.Set.Finite.List
import Mathlib.Data.Set.Finite.Range

/-!
# The limit on nested bodies

`Program.alwaysOpens_mayOpen`: what `Program.MayOpen` says holds whenever a run opens a body.  The
bodies that may be opened at all are finitely many (`Program.finite_openable`), so where nothing is
defined inside methods and blocks, no run comes to a limit that is as large
(`Program.depth_bounded`).  In any program, a run that does not come to the limit is the same for
every larger one (`Program.infer_of_limit_le`).
-/

namespace FlowTyping

/-- The recursion is deeper than the limit. -/
def TypeError.Cause.IsLimit (cause : TypeError.Cause) : Prop :=
  ∃ name bound, cause = .recursionLimitExceeded name bound

namespace Infer

section
variable {X : Stop → Prop}

theorem Below.around {run₁ run₂ : List BlockFrame → Infer Ty}
    (h : ∀ blocks, Below X (run₁ blocks) (run₂ blocks)) (method : Method) (signature : Signature)
    (block : Option (Block Expr)) :
    Below X (around run₁ method signature block) (around run₂ method signature block) := by
  cases block with
  | none =>
    cases hret : method.returns? signature with
    | some ty => rw [around_of_some hret, around_of_some hret]
    | none =>
      rw [around_of_none hret, around_of_none hret]
      exact (refl _).bind fun _ => (h []).bind fun _ => refl _
  | some block =>
    refine (refl _).bind fun s => ?_
    show Below X (if _ ∈ s.active then _ else _) (if _ ∈ s.active then _ else _)
    split
    · exact refl _
    · exact (refl _).bind fun _ => ((h _).whileActive _).bind fun _ => refl _

/-! ### Breakpoints where bodies are opened -/

theorem Below.opens {m n : Infer Ty} (h : Below X m n) (halt : List OpenBody → Bool) (limit : Nat)
    (bodies : List OpenBody) : Below X (opens halt limit bodies m) (opens halt limit bodies n) := by
  intro s
  unfold Infer.opens
  split
  · exact .inr rfl
  · exact h s

end

section
variable {stop stop' : Expr → Engine → Bool} {halt : List OpenBody → Bool} {limit : Nat}

/-- Fewer breakpoints at evaluations. -/
theorem Below.exprOpening_of_le (hstop : ∀ e s, stop' e s = true → stop e s = true) (fuel : Nat)
    (bodies : List OpenBody) (e : Expr) :
    Below (· = .outOfFuel) (exprOpening stop halt limit fuel bodies e)
      (exprOpening stop' halt limit fuel bodies e) := by
  induction fuel generalizing bodies e with
  | zero => exact refl _
  | succ fuel ih =>
    intro s
    unfold exprOpening
    by_cases h : stop e s = true
    · rw [if_pos h]; exact .inl ⟨_, s, rfl, rfl⟩
    · rw [if_neg h, if_neg fun h' => h (hstop e s h')]
      exact Below.layer (ih bodies) rfl (Nat.le_refl fuel) (fun id span method signature block =>
        .around (fun blocks => (Below.methodBody (ih _) limit id span method signature blocks).opens
          halt limit _) method signature block) e s

/-- A run that only keeps the list of bodies is the run itself. -/
theorem exprOpening_never (limit fuel : Nat) (bodies : List OpenBody) :
    exprOpening (fun _ _ => false) (fun _ => false) limit fuel bodies = expr limit fuel := by
  induction fuel generalizing bodies with
  | zero => rfl
  | succ fuel ih =>
    have hopens (bodies : List OpenBody) (step : Infer Ty) :
        opens (fun _ => false) limit bodies step = step :=
      funext fun s => if_neg fun h => Bool.false_ne_true h.2
    have hentry : entering (fun _ => false) limit
        (exprOpening (fun _ _ => false) (fun _ => false) limit fuel) bodies =
          enter (expr limit fuel) limit := by
      funext id span method signature block
      rw [enter_eq_around, entering]
      simp only [ih, hopens]
    funext e s
    unfold exprOpening expr
    rw [if_neg Bool.false_ne_true, hentry, ih]

end

/-! ### What holds where bodies are opened -/

section
variable {p : Program} {limit fuel : Nat}

open Classical in
/-- Breakpoints where a run of the program does not come to. -/
noncomputable def astray (p : Program) (e : Expr) (s : Engine) : Bool := !decide (p.Visits e s)

theorem not_visits_of_astray {e : Expr} {s : Engine} (h : astray p e s = true) : ¬ p.Visits e s := by
  simpa [astray] using h

/-- Within a run of a program the types are sets of primitives. -/
theorem exprUntil_astray_basic (p : Program) (limit fuel : Nat) (e : Expr) (s : Engine) (ty : Ty)
    (t : Engine) (h : exprUntil (astray p) limit fuel e s = .ok ty t) : ty.Basic := by
  cases fuel with
  | zero => cases h
  | succ fuel =>
    have hvisits : p.Visits e s := by
      by_contra hv
      have hastray : astray p e s = true := by simpa [astray] using hv
      unfold exprUntil at h
      rw [if_pos hastray] at h
      cases h
    -- with enough fuel the evaluation is one that ends in a set of primitives
    have hle := Nat.le_max_left (fuel + 1) (p.need limit s.context e + p.passes)
    have hends := answers_exprUntil (fun _ _ => not_visits_of_astray) _ hvisits
      (Nat.le_max_right (fuel + 1) (p.need limit s.context e + p.passes))
    rcases Below.exprUntil_of_le (fun _ _ h => h) limit hle e s with ⟨_, _, -, herror⟩ | heq
    · cases h.symm.trans herror
    · unfold Ends at hends
      rw [← heq, h] at hends
      exact hends.1

theorem watchedAll_exprOpening {X : Stop → Prop} {halt : List OpenBody → Bool}
    (hX : p.Permits limit X) (hhalt : ∀ bodies, p.MayOpen limit bodies → halt bodies = false)
    (fuel : Nat) :
    WatchedAll p limit X (exprOpening (astray p) halt limit fuel)
      (exprUntil (astray p) limit fuel) := by
  induction fuel with
  | zero => exact fun _ _ _ _ _ _ _ => Mirrors.outOfFuel hX.outOfFuel
  | succ fuel ih =>
    intro bodies c as e he hnone hmay s hs
    unfold exprOpening exprUntil
    by_cases h : astray p e s = true
    · rw [if_pos h, if_pos h]; exact ⟨rfl, hX.outOfFuel⟩
    · rw [if_neg h, if_neg h]
      exact ih.layer hX hhalt hmay (exprUntil_astray_basic p limit fuel) he hnone fuel hs

end
end Infer

theorem Engine.openedAt_initial (p : Program) :
    Engine.initial.OpenedAt p [] Engine.initial.context [] where
  depth := rfl
  methods _ h := absurd h List.not_mem_nil
  frames _ h := absurd h List.not_mem_nil
  active _ h := absurd h List.not_mem_nil
  known _ _ h := absurd h List.not_mem_nil
  context_eq := rfl
  active_eq := rfl

namespace Program
variable {p : Program} {limit : Nat}

/-- The statements of a program, with the list of the bodies and without it. -/
theorem watched_body {X : Stop → Prop} (hX : p.Permits limit X) (halt : List OpenBody → Bool)
    (hhalt : ∀ bodies, p.MayOpen limit bodies → halt bodies = false) :
    Infer.Watched p X [] Engine.initial.context []
      (Infer.body (Infer.exprOpening (Infer.astray p) halt limit (p.fuel limit) []) p.stmts)
      (Infer.body (Infer.exprUntil (Infer.astray p) limit (p.fuel limit)) p.stmts) :=
  .body fun e he => Infer.watchedAll_exprOpening hX hhalt _ _ _ _ e (.stmt he) (fun _ => .inl rfl)
    ⟨Nat.zero_le limit, fun _ h => absurd h List.not_mem_nil, fun _ => List.nodup_nil⟩

theorem ne_outOfFuel_astray (p : Program) (limit : Nat) (s : Engine) :
    Infer.body (Infer.exprUntil (Infer.astray p) limit (p.fuel limit)) p.stmts .initial ≠
      .error .outOfFuel s :=
  p.always_visits limit _ (fun _ _ => Infer.not_visits_of_astray) s

/-- In every run, the bodies that are under inference at once are bodies of the program, no more of
them than the limit allows, and no two the same if nothing is defined inside methods and blocks. -/
theorem alwaysOpens_mayOpen (p : Program) (limit : Nat) : p.AlwaysOpens limit (p.MayOpen limit) := by
  intro halt hhalt s hrun
  have hhalt' (bodies : List OpenBody) (hmay : p.MayOpen limit bodies) : halt bodies = false := by
    by_contra h
    exact hhalt bodies (Bool.eq_true_of_not_eq_false h) hmay
  have hX : p.Permits limit fun _ => True :=
    ⟨trivial, fun _ _ => trivial, fun _ _ _ _ _ _ _ _ => trivial⟩
  have hsame := (watched_body hX halt hhalt' (Engine.openedAt_initial p)).1
  -- the breakpoints at evaluations are not come to, and without them the run is the one given
  have hfewer (e : Expr) (s : Engine) (h : (fun _ _ => false : Expr → Engine → Bool) e s = true) :
      Infer.astray p e s = true := absurd h Bool.false_ne_true
  rcases Infer.Below.body (Infer.Below.exprOpening_of_le hfewer (p.fuel limit) []) p.stmts .initial
    with ⟨_, t, rfl, ht⟩ | heq
  · exact p.ne_outOfFuel_astray limit t (hsame.symm.trans ht)
  · exact p.ne_outOfFuel_astray limit s (hsame.symm.trans (heq.trans hrun))

/-- A run that comes to the limit has a longer list of bodies to open than the limit allows. -/
theorem exists_bodies_of_isLimit {e : TypeError} (h : p.infer limit = .error (.error e))
    (hcause : e.cause.IsLimit) :
    ∃ bodies : List OpenBody, (∀ b ∈ bodies, p.Openable b) ∧ (p.defsAtTop → bodies.Nodup) ∧
      limit < bodies.length := by
  let X : Stop → Prop
    | .outOfFuel => True
    | .error e => e.cause.IsLimit → ∃ bodies : List OpenBody, (∀ b ∈ bodies, p.Openable b) ∧
        (p.defsAtTop → bodies.Nodup) ∧ limit < bodies.length
  have hX : p.Permits limit X := {
    outOfFuel := trivial
    unlimited := fun e he ⟨name, bound, hlimit⟩ => absurd hlimit (he name bound)
    limited := fun bodies hopen hnodup hlt _ _ _ _ _ => ⟨bodies, hopen, hnodup, hlt⟩ }
  have hrun := (watched_body hX (fun _ => false) (fun _ _ => rfl)
    (Engine.openedAt_initial p)).2
  have hsame : Infer.body (Infer.exprUntil (Infer.astray p) limit (p.fuel limit)) p.stmts .initial =
      p.run limit .initial := by
    rcases Infer.Below.body (Infer.Below.exprUntil_expr (Infer.astray p) limit (p.fuel limit)) p.stmts
        .initial with ⟨_, t, rfl, ht⟩ | heq
    · exact absurd ht (p.ne_outOfFuel_astray limit t)
    · exact heq
  unfold infer at h
  rw [hsame] at hrun
  split at h
  · exact nomatch h
  · next hstop =>
    cases h
    rw [hstop] at hrun
    exact hrun hcause

/-! ### Finitely many bodies -/

theorem finite_has (p : Program) : {e | p.Has e}.Finite :=
  (p.sites.finite_toSet.image Site.expr).subset fun _ he => he.site

theorem finite_defines (p : Program) : {d | p.Defines d}.Finite := by
  refine (p.finite_has.biUnion fun e _ => Set.Subsingleton.finite (s := {d | e.form = .define d})
    fun d hd d' hd' => ?_).subset fun d ⟨e, he, hform⟩ => Set.mem_biUnion he hform
  exact Form.define.inj (hd.symm.trans hd')

theorem finite_writes (p : Program) : {b | p.Writes b}.Finite := by
  have hblock (e : Expr) : {b | ∃ name nameSpan args, e.form = .call name nameSpan args (some b)}
      |>.Subsingleton := by
    rintro b ⟨_, _, _, hb⟩ b' ⟨_, _, _, hb'⟩
    exact Option.some.inj (Form.call.inj (hb.symm.trans hb')).2.2.2
  refine (p.finite_has.biUnion fun e _ => (hblock e).finite).subset ?_
  rintro b ⟨e, name, nameSpan, args, he, hform⟩
  exact Set.mem_biUnion he ⟨name, nameSpan, args, hform⟩

theorem finite_basic : {ty : Ty | ty.Basic}.Finite := by
  let names (ty : Ty) : Finset String := ty.names.toFinset
  have hsub : Set.MapsTo names {ty | ty.Basic}
      ↑Module.initial.primitives.toFinset.powerset := fun ty hty =>
    Finset.mem_powerset.2 fun name hname => List.mem_toFinset.2 (hty name (List.mem_toFinset.1 hname))
  refine Set.Finite.of_injOn hsub (fun ty _ ty' _ heq => Ty.ext_mem fun name => ?_)
    (Finset.finite_toSet _)
  exact List.mem_toFinset.symm.trans ((Finset.ext_iff.1 heq name).trans List.mem_toFinset)

theorem finite_signatures (n : Nat) :
    {signature : Signature | signature.length = n ∧ ∀ ty ∈ signature, ty.Basic}.Finite := by
  have : Finite {ty : Ty // ty.Basic} := finite_basic.to_subtype
  refine ((List.finite_length_eq {ty : Ty // ty.Basic} n).image (List.map Subtype.val)).subset ?_
  rintro signature ⟨hlen, hbasic⟩
  refine ⟨signature.attach.map fun ty => ⟨ty.1, hbasic ty.1 ty.2⟩, ?_, ?_⟩
  · exact (List.length_map _).trans (List.length_attach.trans hlen)
  · rw [List.map_map]; exact List.attach_map_subtype_val signature

/-- A program has finitely many bodies to open: those of its methods, for the signatures of their
arity, with no block or with one of its blocks. -/
theorem finite_openable (p : Program) : {b | p.Openable b}.Finite := by
  have hblocks : (insert none (some '' (Block.id '' {b | p.Writes b}))).Finite :=
    ((p.finite_writes.image _).image _).insert none
  refine (p.finite_defines.biUnion fun d _ =>
    ((finite_signatures d.params.length).prod hblocks).image
      fun x => OpenBody.mk d.name.name x.1 x.2).subset ?_
  rintro ⟨method, signature, block?⟩ ⟨⟨d, hd, rfl, hlen⟩, hbasic, hblock⟩
  refine Set.mem_biUnion hd ⟨(signature, block?), ⟨⟨hlen.symm, hbasic⟩, ?_⟩, rfl⟩
  cases block? with
  | none => exact .inl rfl
  | some i => exact .inr ⟨i, hblock i rfl, rfl⟩

/-- Distinct bodies of a program are no more than its bodies. -/
theorem length_le_ncard {bodies : List OpenBody} (hnodup : bodies.Nodup)
    (h : ∀ b ∈ bodies, p.Openable b) : bodies.length ≤ {b | p.Openable b}.ncard := by
  rw [← List.toFinset_card_of_nodup hnodup, ← Set.ncard_coe_finset]
  exact Set.ncard_le_ncard (fun b hb => h b (List.mem_toFinset.1 hb)) p.finite_openable

/-- Where definitions are top-level statements, the bodies that are under inference at once are
distinct, and there are finitely many.  So a limit as large as their number is never exceeded. -/
theorem depth_bounded (p : Program) (hdefs : p.defsAtTop) :
    (∃ D, ∀ limit, D ≤ limit → ∀ e, p.infer limit = .error (.error e) → ¬ e.cause.IsLimit) ∧
      {b | p.Openable b}.Finite ∧
      ∀ limit, p.AlwaysOpens limit fun bodies => bodies.Nodup ∧ ∀ b ∈ bodies, p.Openable b := by
  refine ⟨⟨{b | p.Openable b}.ncard, fun limit hle e he hcause => ?_⟩, p.finite_openable,
    fun limit halt hhalt => p.alwaysOpens_mayOpen limit halt fun bodies h hmay =>
      hhalt bodies h ⟨hmay.nodup hdefs, hmay.openable⟩⟩
  obtain ⟨bodies, hopen, hnodup, hlt⟩ := exists_bodies_of_isLimit he hcause
  have := length_le_ncard (hnodup hdefs) hopen
  omega

/-- A method that calls itself from a block, which another method runs. -/
def selfCalling : Program where
  stmts :=
    [.node 0 ⟨0, 0⟩ (.define ⟨⟨1, "each", ⟨0, 0⟩⟩, [⟨2, "a", ⟨0, 0⟩⟩],
        [.node 3 ⟨0, 0⟩ (.yield [.node 4 ⟨0, 0⟩ (.var "a")])]⟩),
      .node 5 ⟨0, 0⟩ (.define ⟨⟨6, "again", ⟨0, 0⟩⟩, [⟨7, "b", ⟨0, 0⟩⟩],
        [.node 8 ⟨0, 0⟩ (.call "each" ⟨0, 0⟩ [.node 9 ⟨0, 0⟩ (.var "b")]
          (some ⟨10, ⟨0, 0⟩, [⟨11, "c", ⟨0, 0⟩⟩],
            [.node 12 ⟨0, 0⟩ (.call "again" ⟨0, 0⟩ [.node 13 ⟨0, 0⟩ (.var "c")] none)]⟩)),
        .node 14 ⟨0, 0⟩ (.var "b")]⟩),
      .node 15 ⟨0, 0⟩ (.call "again" ⟨0, 0⟩ [.node 16 ⟨0, 0⟩ (.literal (.int 1))] none)]

theorem depth_bounded_selfCalling :
    selfCalling.defsAtTop = true ∧
      (∃ D, ∀ limit, D ≤ limit → ∀ e, selfCalling.infer limit = .error (.error e) →
        ¬ e.cause.IsLimit) ∧
      {b | selfCalling.Openable b}.Finite ∧
      ∀ limit, selfCalling.AlwaysOpens limit fun bodies =>
        bodies.Nodup ∧ ∀ b ∈ bodies, selfCalling.Openable b := by
  have hdefs : selfCalling.defsAtTop = true := by decide +kernel
  exact ⟨hdefs, selfCalling.depth_bounded hdefs⟩

/-! ### A larger limit -/

end Program

/-- Running out of fuel, or into the limit. -/
def Stop.IsBound : Stop → Prop
  | .error e => e.cause.IsLimit
  | .outOfFuel => True

namespace Infer

/-- Where a body may be opened under the smaller limit, it may be under the larger one. -/
theorem Below.methodBody_of_limit_le {expr₁ expr₂ : Expr → Infer Ty}
    (h : ∀ e, Below Stop.IsBound (expr₁ e) (expr₂ e)) {d d' : Nat} (hle : d ≤ d') (id : NodeId)
    (span : Span) (method : Method) (signature : Signature) (blocks : List BlockFrame) :
    Below Stop.IsBound (Infer.methodBody expr₁ d id span method signature blocks)
      (Infer.methodBody expr₂ d' id span method signature blocks) := by
  intro s
  rw [methodBody_apply, methodBody_apply]
  by_cases hdepth : d ≤ s.context.depth
  · rw [if_pos hdepth]
    refine .inl ⟨_, _, ?_, fail_apply _ id span⟩
    exact ⟨method.name, d, rfl⟩
  · by_cases hdepth' : d' ≤ s.context.depth
    · exact absurd (hle.trans hdepth') hdepth
    · rw [if_neg hdepth, if_neg hdepth']
      exact (Below.body h method.definition.body).within _ _

theorem Below.expr_of_limit_le {d d' : Nat} (hle : d ≤ d') {fuel fuel' : Nat} (hfuel : fuel ≤ fuel')
    (e : Expr) : Below Stop.IsBound (expr d fuel e) (expr d' fuel' e) := by
  induction fuel generalizing fuel' e with
  | zero => exact ofOutOfFuel trivial _
  | succ fuel ih =>
    obtain ⟨fuel', rfl⟩ := Nat.exists_eq_add_of_lt (Nat.lt_of_succ_le hfuel)
    have hle' : fuel ≤ fuel + fuel' := Nat.le_add_right fuel fuel'
    refine Below.layer (ih hle') trivial hle' (fun id span method signature block => ?_) e
    rw [enter_eq_around, enter_eq_around]
    exact .around (methodBody_of_limit_le (ih hle') hle id span method signature) _ _ _

end Infer

namespace Program
variable {p : Program} {d d' : Nat}

theorem fuel_le_fuel (p : Program) (hle : d ≤ d') : p.fuel d ≤ p.fuel d' := by
  have := Nat.mul_le_mul_right (p.size + 1 + 1) (Nat.add_le_add_right (Nat.mul_le_mul_left 2 hle) 2)
  simp only [fuel]
  omega

/-- With a larger limit, a run that did not exceed the smaller one is the same. -/
theorem run_of_limit_le (hle : d ≤ d') :
    (∃ e t, e.IsBound ∧ p.run d .initial = .error e t) ∨ p.run d .initial = p.run d' .initial :=
  Infer.Below.body (Infer.Below.expr_of_limit_le hle (p.fuel_le_fuel hle)) p.stmts .initial

/-- What inference gives under a limit it gives under every larger one, unless it exceeds the limit;
and no more bodies than the limit allows are under inference at once. -/
theorem infer_of_limit_le (p : Program) {d d' : Nat} (hle : d ≤ d') :
    (∀ M, p.infer d = .ok M → p.infer d' = .ok M) ∧
      (∀ e, p.infer d = .error (.error e) → ¬ e.cause.IsLimit → p.infer d' = .error (.error e)) ∧
      p.AlwaysOpens d fun bodies => bodies.length ≤ d := by
  refine ⟨fun M hM => ?_, fun e he hcause => ?_, fun halt hhalt =>
    p.alwaysOpens_mayOpen d halt fun bodies h hmay => hhalt bodies h hmay.le⟩
  all_goals
    unfold infer at *
    rcases run_of_limit_le (p := p) hle with ⟨stop, t, hbound, hrun⟩ | hrun
  · rw [hrun] at hM; exact nomatch hM
  · rwa [← hrun]
  · rw [hrun] at he; cases he; exact absurd hbound hcause
  · rwa [← hrun]

theorem infer_of_limit_le_selfCalling :
    2 ≤ 64 ∧ (∃ M, selfCalling.infer 2 = .ok M ∧ selfCalling.infer 64 = .ok M) ∧
      selfCalling.AlwaysOpens 2 fun bodies => bodies.length ≤ 2 := by
  have hle : 2 ≤ 64 := by decide
  obtain ⟨hok, -, hopens⟩ := selfCalling.infer_of_limit_le hle
  cases hM : selfCalling.infer 2 with
  | ok M => exact ⟨hle, ⟨M, rfl, hok M hM⟩, hopens⟩
  | error stop =>
    have hends : (selfCalling.infer 2).toBool = true := by decide +kernel
    rw [hM] at hends
    exact nomatch hends

end Program
end FlowTyping
