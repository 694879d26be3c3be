import FlowTyping.Proofs.Congruence
import FlowTyping.Proofs.Refinement
import FlowTyping.Proofs.Termination

/-!
# Calls that do not see their callers

`Program.always_sameCall`: what a call without a block does hangs on the module, the calls with blocks
that are under way and the depth.  Two states that agree on these may be at different scopes, in
different methods and with different blocks in force; the call gives the same type and the same
module in both, or it fails with the same error, but for the method that an error at the call itself
names.

Such a call evaluates the body of a method on stacks of its own, with no block in force
(`Flow.expr_congr`), so nothing of the caller is left for the body to see.
-/

namespace FlowTyping

namespace Standing
variable {c₁ c₂ : Standing}

/-- No evaluation can tell the one from the other. -/
structure Like (c₁ c₂ : Standing) : Prop where
  blocks : c₁.blocks = c₂.blocks
  method : c₁.method? = c₂.method?
  depth : c₁.depth = c₂.depth
  active : ∀ call, call ∈ c₁.active ↔ call ∈ c₂.active

theorem like_inside_none (hdepth : c₁.depth = c₂.depth)
    (hactive : ∀ call, call ∈ c₁.active ↔ call ∈ c₂.active) (method : Method)
    (signature : Signature) :
    Like (c₁.inside method signature none) (c₂.inside method signature none) :=
  ⟨rfl, rfl, congrArg (· + 1) hdepth, hactive⟩

theorem Like.inside (h : Like c₁ c₂) (method : Method) (signature : Signature)
    (block : Option (Block Expr)) :
    Like (c₁.inside method signature block) (c₂.inside method signature block) := by
  cases block with
  | none => exact like_inside_none h.depth h.active method signature
  | some b =>
    refine ⟨?_, rfl, congrArg (· + 1) h.depth, fun call => ?_⟩
    · show (b, c₁.method?) :: c₁.blocks = (b, c₂.method?) :: c₂.blocks
      rw [h.method, h.blocks]
    · show call ∈ _ :: c₁.active ↔ call ∈ _ :: c₂.active
      rw [List.mem_cons, List.mem_cons, h.active call]

end Standing

namespace Flow
variable {c₁ c₂ : Standing} {limit : Nat} {id : NodeId} {span : Span} {method : Method}
  {signature : Signature}

theorem fail_congr (h : c₁.method? = c₂.method?) (cause : TypeError.Cause) (node : NodeId)
    (span : Span) : (fail c₁ cause node span : Flow α) = fail c₂ cause node span := by
  unfold fail; rw [h]

theorem Congruence.eq : Congruence (fun m n => m = n) (· = ·) where
  give := fun _ => rfl
  bind := fun hm hf => by rw [hm, funext hf]
  getHere := rfl
  writeHere := fun _ _ => rfl
  record := fun _ _ => rfl
  fail := fail_congr
  choice := fun hk hm hn => by rw [hk, hm, hn]
  untilStable := fun hf h => by rw [hf, h]
  block := fun hf _ h => by rw [hf, h]

section
variable {expr : Standing → Expr → Flow Ty}
  (h : ∀ {c₁ c₂ : Standing}, c₁.Like c₂ → ∀ e, expr c₁ e = expr c₂ e)
include h

theorem enter_congr (hc : c₁.Like c₂) (block : Option (Block Expr)) :
    enter .plain expr limit c₁ id span method signature block =
      enter .plain expr limit c₂ id span method signature block := by
  have hbody : methodBody expr limit c₁ id span method signature block =
      methodBody expr limit c₂ id span method signature block := by
    unfold methodBody
    rw [hc.depth, fail_congr hc.method, funext (h (hc.inside method signature block))]
  cases block with
  | none =>
    rw [enter_none not_false, enter_none not_false]
    unfold plainCall firstCall
    rw [hbody]
  | some b =>
    rw [enter_some not_false, enter_some not_false]
    by_cases hmem : ⟨method.name, signature, b.id⟩ ∈ c₁.active
    · rw [blockCall_of_mem hmem, blockCall_of_mem ((hc.active _).1 hmem)]
    · rw [blockCall_of_notMem hmem, blockCall_of_notMem fun h => hmem ((hc.active _).2 h), hbody]

end

theorem dispatch_congr {entry : Entry} (hc : c₁.method? = c₂.method?) (name : String)
    (nameSpan : Span) {block : Option (Block Expr)}
    (hentry : ∀ method, entry c₁ id span method signature block =
      entry c₂ id span method signature block) :
    dispatch entry c₁ id span name nameSpan signature block =
      dispatch entry c₂ id span name nameSpan signature block := by
  funext s
  cases hm : s.module.method? name with
  | none => rw [dispatch_of_none hm, dispatch_of_none hm, fail_congr hc]
  | some method =>
    by_cases harity : method.arity = signature.length
    · rw [dispatch_of_some hm harity, dispatch_of_some hm harity, hentry]
    · rw [dispatch_of_arity hm harity, dispatch_of_arity hm harity, fail_congr hc]

theorem expr_congr (limit fuel : Nat) (hc : c₁.Like c₂) (e : Expr) :
    expr .plain limit fuel c₁ e = expr .plain limit fuel c₂ e := by
  induction fuel generalizing c₁ c₂ e with
  | zero => rfl
  | succ fuel ih =>
    refine Congruence.eq.layer rfl hc.method hc.blocks (fun part _ => ih hc part) ?_ ?_ ?_
    · intro block method? outer _ stmt _
      have hpass : Standing.Like { c₁ with blocks := outer, method? }
        { c₂ with blocks := outer, method? } := ⟨rfl, rfl, hc.depth, hc.active⟩
      exact ih hpass stmt
    · intro name nameSpan args block _ signature
      exact dispatch_congr hc.method name nameSpan fun method => enter_congr ih hc block
    · intro d _
      rfl

/-! ### Bodies that are evaluated for the first time -/

theorem firstCall_of_le {expr : Standing → Expr → Flow Ty} {c : Standing} (h : limit ≤ c.depth)
    (s : Stacks) : firstCall expr limit c id span method signature s =
      .error (.error ⟨.recursionLimitExceeded method.name limit, id, span, c.method?⟩) := by
  unfold firstCall
  rw [methodBody_of_le h]
  rfl

theorem firstCall_like (fuel : Nat) (hlimit : ¬ limit ≤ c₁.depth) (hdepth : c₁.depth = c₂.depth)
    (hactive : ∀ call, call ∈ c₁.active ↔ call ∈ c₂.active) :
    firstCall (expr .plain limit fuel) limit c₂ id span method signature =
      firstCall (expr .plain limit fuel) limit c₁ id span method signature := by
  have hinside := Standing.like_inside_none hdepth hactive method signature
  unfold firstCall
  rw [methodBody_none hlimit, methodBody_none (hdepth ▸ hlimit),
    funext (expr_congr limit fuel hinside)]

/-- The tables at the call do not matter, and they stay. -/
theorem firstCall_congr_tables {expr : Standing → Expr → Flow Ty} {c : Standing} {s t : Stacks}
    (hmodule : t.module = s.module) :
    firstCall expr limit c id span method signature t =
      (firstCall expr limit c id span method signature s).map
        fun r => (r.1, { t with module := r.2.module }) := by
  let stored (u : Stacks) : Stacks :=
    { u with module := u.module.updateMethod method.name (·.store signature .nil) }
  have hstored : (stored t).module = (stored s).module :=
    congrArg (·.updateMethod method.name (·.store signature .nil)) hmodule
  rw [firstCall_eq_map, firstCall_eq_map, methodBody_none_congr hstored]
  cases methodBody expr limit c id span method signature none (stored s) <;> rfl

/-- A call without a block fails where it is, or it does the same for both callers. -/
theorem dispatch_none_congr (limit fuel : Nat) (id : NodeId) (span : Span) (name : String)
    (nameSpan : Span) (signature : Signature) (hdepth : c₁.depth = c₂.depth)
    (hactive : ∀ call, call ∈ c₁.active ↔ call ∈ c₂.active) {s t : Stacks} (hmodule : t.module = s.module) :
    (∃ cause place,
      dispatch (enter .plain (expr .plain limit fuel) limit) c₁ id span name nameSpan signature none s =
        .error (.error ⟨cause, id, place, c₁.method?⟩) ∧
      dispatch (enter .plain (expr .plain limit fuel) limit) c₂ id span name nameSpan signature none t =
        .error (.error ⟨cause, id, place, c₂.method?⟩)) ∨
    dispatch (enter .plain (expr .plain limit fuel) limit) c₂ id span name nameSpan signature none t =
      (dispatch (enter .plain (expr .plain limit fuel) limit) c₁ id span name nameSpan signature none
        s).map fun r => (r.1, { t with module := r.2.module }) := by
  cases hm : s.module.method? name with
  | none =>
    rw [dispatch_of_none hm, dispatch_of_none (s := t) (by rw [hmodule]; exact hm)]
    exact .inl ⟨_, _, rfl, rfl⟩
  | some method =>
    have hm' : t.module.method? name = some method := by rw [hmodule]; exact hm
    by_cases harity : method.arity = signature.length
    · rw [dispatch_of_some hm harity, dispatch_of_some hm' harity, enter_none not_false,
        enter_none not_false]
      cases hr : method.returns? signature with
      | some ty =>
        rw [plainCall_of_some (w := .plain) hr, plainCall_of_some (w := .plain) hr]
        have hsame : t = { t with module := s.module } := by rw [← hmodule]
        exact .inr (congrArg (fun u => Except.ok (ty, u)) hsame)
      | none =>
        rw [plainCall_of_none (w := .plain) hr, plainCall_of_none (w := .plain) hr]
        by_cases hlimit : limit ≤ c₁.depth
        · exact .inl ⟨_, _, firstCall_of_le hlimit s, firstCall_of_le (hdepth ▸ hlimit) t⟩
        · rw [firstCall_like fuel hlimit hdepth hactive]
          exact .inr (firstCall_congr_tables hmodule)
    · rw [dispatch_of_arity hm harity, dispatch_of_arity hm' harity]
      exact .inl ⟨_, _, rfl, rfl⟩

end Flow

/-! ### On the arena -/

/-- All that a call without a block can tell of where it is. -/
structure Engine.Agrees (s t : Engine) : Prop where
  module : s.module = t.module
  active : ∀ call, call ∈ s.active ↔ call ∈ t.active
  depth : s.context.depth = t.context.depth

namespace Infer

/-- Expressions inside `e` are evaluated one after the other, from `s` to `t`. -/
def LeadsTo (limit : Nat) (e : Expr) (s t : Engine) : Prop :=
  ∃ parts fuel tys, parts ⊆ e.form.parts ∧ parts.mapM (expr limit fuel) s = .ok tys t

/-- How a call at the node `id` ends in `s` and in `t`. -/
inductive SameCall (id : NodeId) (s t : Engine) :
    EStateM.Result Stop Engine Ty → EStateM.Result Stop Engine Ty → Prop
  | returns {ty : Ty} {s' t' : Engine} (h : s'.Agrees t') : SameCall id s t (.ok ty s') (.ok ty t')
  | failsInside {e : TypeError} {s' t' : Engine} :
    SameCall id s t (.error (.error e) s') (.error (.error e) t')
  | failsHere {cause : TypeError.Cause} {span : Span} {s' t' : Engine} :
    SameCall id s t (.error (.error ⟨cause, id, span, s.context.method?⟩) s')
      (.error (.error ⟨cause, id, span, t.context.method?⟩) t')
  | outOfFuel {s' t' : Engine} : SameCall id s t (.error .outOfFuel s') (.error .outOfFuel t')

/-- A call without a block with its arguments evaluated. -/
def plain (limit fuel : Nat) (id : NodeId) (span : Span) (name : String) (nameSpan : Span)
    (signature : Signature) : Infer Ty :=
  dispatch (enter (expr limit fuel) limit) id span name nameSpan signature none

end Infer

section
variable {p : Program} {limit : Nat} {e : Expr} {s s' t : Engine}

theorem sameCall_of_agrees (hs : s.scopes.Apart s.context.sight)
    (ht : t.scopes.Apart t.context.sight) (h : s.Agrees t) (fuel : Nat) (id : NodeId) (span : Span)
    (name : String) (nameSpan : Span) (signature : Signature) :
    Infer.SameCall id s t (Infer.plain limit fuel id span name nameSpan signature s)
      (Infer.plain limit fuel id span name nameSpan signature t) := by
  let inSight (u : Engine) : Stacks :=
    u.toStacks u.context.scope (u.context.blocks.map BlockFrame.scope)
  let flow (u : Engine) : Flow Ty :=
    Flow.dispatch (Flow.enter .plain (Flow.expr .plain limit fuel) limit) (u.standing []) id span name
      nameSpan signature none
  have hs : Matches _ _ s (Infer.plain limit fuel id span name nameSpan signature s)
    (flow s (inSight s)) := refines_dispatch hs limit fuel id span name nameSpan signature none (.refl s)
  have ht : Matches _ _ t (Infer.plain limit fuel id span name nameSpan signature t)
    (flow t (inSight t)) := refines_dispatch ht limit fuel id span name nameSpan signature none (.refl t)
  have hdepth : (s.standing []).depth = (t.standing []).depth := h.depth
  have hmodule : (inSight t).module = (inSight s).module := h.module.symm
  have hflow := Flow.dispatch_none_congr limit fuel id span name nameSpan signature hdepth h.active
    hmodule
  rcases hflow with ⟨cause, place, hflow, hflow'⟩ | hflow
  · rw [show flow s (inSight s) = _ from hflow] at hs
    rw [show flow t (inSight t) = _ from hflow'] at ht
    obtain ⟨s', hs⟩ := hs
    obtain ⟨t', ht⟩ := ht
    rw [hs, ht]
    exact .failsHere
  · rw [show flow t (inSight t) = (flow s (inSight s)).map _ from hflow] at ht
    cases hrun : flow s (inSight s) with
    | error e =>
      rw [hrun] at hs ht
      obtain ⟨s', hs⟩ := hs
      obtain ⟨t', ht⟩ := ht
      rw [hs, ht]
      cases e with
      | error e => exact .failsInside
      | outOfFuel | refused | replaced => exact .outOfFuel
    | ok r =>
      rw [hrun] at hs ht
      obtain ⟨s', hs, hw, hkeep⟩ := hs
      obtain ⟨t', ht, hw', hkeep'⟩ := ht
      rw [hs, ht]
      have hsame : s'.module = t'.module :=
        (congrArg Stacks.module hw).trans (congrArg Stacks.module hw').symm
      refine .returns ⟨hsame, ?_, ?_⟩
      · rw [hkeep.extends_.active, hkeep'.extends_.active]
        exact h.active
      · rw [hkeep.extends_.context, hkeep'.extends_.context]
        exact h.depth

theorem Program.Visits.leadsTo (he : p.Visits e s) (h : Infer.LeadsTo limit e s s') :
    s'.Fits p ∧ s.Extends s' := by
  obtain ⟨parts, fuel, tys, hparts, hrun⟩ := h
  let enough := max fuel (p.need limit s.context e + p.passes)
  have hends := Safe.mapM (fun part hp => (answers_expr enough).part he
    (Nat.le_succ_of_le (Nat.le_max_right _ _)) (hparts hp)) (.refl s) he.fits
  unfold Ends at hends
  rcases Infer.Below.mapM (fun part => Infer.Below.expr_of_le limit (Nat.le_max_left fuel _) part)
    parts s with ⟨_, _, -, hfail⟩ | hmore
  · exact nomatch hrun.symm.trans hfail
  · rw [← hmore, hrun] at hends
    exact hends.2

/-- A call without a block does not run out of fuel if there is enough of it. -/
theorem plain_ends (hs : s.Fits p) {signature : Signature} (hsig : ∀ ty ∈ signature, ty.Basic)
    {fuel : Nat} (hfuel : s.context.reserve limit * (p.size + 1) + p.passes ≤ fuel) (id : NodeId)
    (span : Span) (name : String) (nameSpan : Span) :
    ∀ t, Infer.plain limit fuel id span name nameSpan signature s ≠ .error .outOfFuel t := by
  intro t hrun
  have hanswers : Answers p limit fuel (Infer.expr limit fuel) := answers_expr fuel
  have hsafe : Safe p s (Infer.plain limit fuel id span name nameSpan signature) Ty.Basic :=
    (hanswers.enter hs).dispatch id span nameSpan name hsig nofun hfuel
  have hends := hsafe (.refl s) hs
  unfold Ends at hends
  rw [hrun] at hends
  exact hends

end

/-- A call without a block does the same for all callers.  The states are those between the
evaluations inside any two nodes that two runs come to. -/
theorem Program.always_sameCall (p q : Program) (limit : Nat) :
    p.Always limit fun e₁ s₁ => q.Always limit fun e₂ s₂ => ∀ s t,
      Infer.LeadsTo limit e₁ s₁ s → Infer.LeadsTo limit e₂ s₂ t → s.Agrees t →
      ∀ id span name nameSpan signature,
        (∀ fuel, Infer.SameCall id s t (Infer.plain limit fuel id span name nameSpan signature s)
          (Infer.plain limit fuel id span name nameSpan signature t)) ∧
        ((∀ ty ∈ signature, ty.Basic) → ∃ enough, ∀ fuel, enough ≤ fuel →
          ∀ u, Infer.plain limit fuel id span name nameSpan signature s ≠ .error .outOfFuel u) := by
  refine (p.always_visits limit).mono fun e₁ s₁ hvisits₁ => ?_
  refine (q.always_visits limit).mono fun e₂ s₂ hvisits₂ => ?_
  intro s t hs ht hagrees id span name nameSpan signature
  obtain ⟨hfits, -⟩ := hvisits₁.leadsTo hs
  obtain ⟨hfits', -⟩ := hvisits₂.leadsTo ht
  constructor
  · intro fuel
    exact sameCall_of_agrees hfits.apart hfits'.apart hagrees fuel id span name nameSpan signature
  · intro hsig
    exact ⟨_, fun fuel hfuel => plain_ends hfits hsig hfuel id span name nameSpan⟩

end FlowTyping
