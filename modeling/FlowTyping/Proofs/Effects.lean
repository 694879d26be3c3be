import FlowTyping.Proofs.Congruence

/-!
# What evaluations do to the tables

`Flow.Leads R m`: a step that ends well leads to stacks that `R` relates to those at its start.  Where
`R` goes from step to step and does not look at the module (`Stacks.Stable R`), calls lead along `R` if
method bodies do, and expressions do if passes and merges do, too (`Flow.leads_expr`).
-/

namespace FlowTyping

namespace Stacks

/-- The stacks after a pass. -/
def merged (s t : Stacks) : Stacks := { t with here := Tables.merge s.here t.here }

/-- A relation that goes from step to step and does not look at the module. -/
structure Stable (R : Stacks → Stacks → Prop) : Prop where
  refl : ∀ s M, R s { s with module := M }
  trans : ∀ {s t u}, R s t → R t u → R s u

end Stacks

namespace Flow

/-- A step that ends well leads to stacks that are related to those at its start. -/
def Leads (R : Stacks → Stacks → Prop) (m : Flow α) : Prop := ∀ ⦃s a t⦄, m s = .ok (a, t) → R s t

/-! ### Choices and passes that end well -/

section
variable {s t u : Stacks}

theorem choice_ok {cond thenPart elsePart : Flow Ty} {ty : Ty}
    (h : choice cond thenPart elsePart s = .ok (ty, u)) :
    ∃ s₁ s₂ s₃ ty₁ ty₂ ty₃, cond s = .ok (ty₁, s₁) ∧ thenPart s₁ = .ok (ty₂, s₂) ∧
      elsePart { s₂ with here := s₁.here } = .ok (ty₃, s₃) ∧
      u = { s₃ with here := Tables.merge s₂.here s₃.here } := by
  obtain ⟨_, s₁, hcond, h⟩ := bind_eq_ok_iff.1 h
  obtain ⟨_, _, ⟨⟩, h⟩ := bind_eq_ok_iff.1 h
  obtain ⟨_, s₂, hthen, h⟩ := bind_eq_ok_iff.1 h
  obtain ⟨_, _, ⟨⟩, h⟩ := bind_eq_ok_iff.1 h
  obtain ⟨_, _, ⟨⟩, h⟩ := bind_eq_ok_iff.1 h
  obtain ⟨_, s₃, helse, h⟩ := bind_eq_ok_iff.1 h
  cases h
  exact ⟨s₁, s₂, s₃, _, _, _, hcond, hthen, helse, rfl⟩

/-- Passes lead where single ones do. -/
theorem untilStable_ok {R : Stacks → Stacks → Prop} (htrans : ∀ {s t u}, R s t → R t u → R s u)
    {m : Flow α} (hpass : ∀ ⦃s a t⦄, m s = .ok (a, t) → R s (s.merged t)) {fuel : Nat} {as : List α}
    (h : untilStable m fuel s = .ok (as, t)) : R s t := by
  induction fuel generalizing s as with
  | zero => exact nomatch h
  | succ fuel ih =>
    obtain ⟨_, _, ⟨⟩, h⟩ := bind_eq_ok_iff.1 h
    obtain ⟨a, s₁, hm, h⟩ := bind_eq_ok_iff.1 h
    obtain ⟨_, _, ⟨⟩, h⟩ := bind_eq_ok_iff.1 h
    obtain ⟨_, _, ⟨⟩, h⟩ := bind_eq_ok_iff.1 h
    by_cases hstop : Tables.merge s.here s₁.here = s.here
    · rw [if_pos hstop] at h
      cases h
      exact hpass hm
    · rw [if_neg hstop] at h
      obtain ⟨rest, s₂, hrest, h⟩ := bind_eq_ok_iff.1 h
      cases h
      exact htrans (hpass hm) (ih hrest)

end

section
variable {m : Flow α} {s t : Stacks} {a : α} {fuel : Nat}

theorem untilStable_of_stop (hm : m s = .ok (a, t)) (h : Tables.merge s.here t.here = s.here) :
    untilStable m (fuel + 1) s = .ok ([a], s.merged t) := by
  rw [untilStable, bind_of_ok (a := s.here) (t := s) rfl, bind_of_ok hm,
    bind_of_ok (a := t.here) (t := t) rfl, bind_of_ok (a := ()) (t := s.merged t) rfl]
  exact congrFun (if_pos h) _

theorem untilStable_of_not (hm : m s = .ok (a, t)) (h : Tables.merge s.here t.here ≠ s.here) :
    untilStable m (fuel + 1) s =
      (do return a :: (← untilStable m fuel) : Flow (List α)) (s.merged t) := by
  rw [untilStable, bind_of_ok (a := s.here) (t := s) rfl, bind_of_ok hm,
    bind_of_ok (a := t.here) (t := t) rfl, bind_of_ok (a := ()) (t := s.merged t) rfl]
  exact congrFun (if_neg h) _

theorem untilStable_of_error {h : Halt} (hm : m s = .error h) : untilStable m (fuel + 1) s = .error h := by
  rw [untilStable, bind_of_ok (a := s.here) (t := s) rfl, bind_of_error hm]

end

/-! ### Steps -/

namespace Leads
variable {R : Stacks → Stacks → Prop} {m : Flow α} {f : α → Flow β}

theorem throw (h : Halt) : Leads R (throw h : Flow α) := fun _ _ _ hrun => nomatch hrun

theorem dispatch {entry : Entry} {c : Standing} {id : NodeId} {span : Span} {signature : Signature}
    {block : Option (Block Expr)} (name : String) (nameSpan : Span)
    (hentry : ∀ method, Leads R (entry c id span method signature block)) :
    Leads R (dispatch entry c id span name nameSpan signature block) := by
  intro s ty t hrun
  obtain ⟨method, -, -, hrun⟩ := dispatch_ok hrun
  exact hentry method hrun

variable (hR : Stacks.Stable R)
include hR

theorem give (a : α) : Leads R (pure a : Flow α) := by
  intro s b t hrun; cases hrun; exact hR.refl s s.module

theorem bind (hm : Leads R m) (hf : ∀ a, Leads R (f a)) : Leads R (m >>= f) := by
  intro s b u hrun
  obtain ⟨a, t, hst, htu⟩ := bind_eq_ok_iff.1 hrun
  exact hR.trans (hm hst) (hf a htu)

theorem updateMethod (name : String) (g : Method → Method) : Leads R (updateMethod name g) := by
  intro s a t hrun; cases hrun; exact hR.refl s _

theorem define (w : Ways) (c : Standing) (d : Definition Expr) : Leads R (define w c d) := by
  intro s a t hrun
  by_cases hr : w.replaces c s.module d
  · rw [define_of_replaces hr] at hrun; exact nomatch hrun
  · rw [define_of_not hr] at hrun; cases hrun; exact hR.refl s _

/-- A call does to the tables what the body of the method does to them, or nothing. -/
theorem enter {w : Ways} {expr : Standing → Expr → Flow Ty} {limit : Nat} {c : Standing}
    {id : NodeId} {span : Span} {method : Method} {signature : Signature}
    {block : Option (Block Expr)}
    (hbody : Leads R (methodBody expr limit c id span method signature block)) :
    Leads R (enter w expr limit c id span method signature block) := by
  by_cases hr : w.refuses c method signature block
  · rw [enter_of_refuses hr]; exact throw _
  cases block with
  | none =>
    rw [enter_none hr, plainCall]
    cases w.known method signature with
    | some ty => exact give hR ty
    | none =>
      refine bind hR (updateMethod hR _ _) fun _ => bind hR hbody fun ty => ?_
      exact bind hR (updateMethod hR _ _) fun _ => give hR ty
  | some b =>
    rw [enter_some hr]
    by_cases hmem : ⟨method.name, signature, b.id⟩ ∈ c.active
    · rw [blockCall_of_mem hmem]; exact give hR _
    · rw [blockCall_of_notMem hmem]
      exact bind hR hbody fun ty => bind hR (updateMethod hR _ _) fun _ => give hR ty

/-- From what writes, merges and passes do. -/
theorem congruence (hwrite : ∀ name ty s, R s { s with here := Tables.write name ty s.here })
    (hchoice : ∀ {s t u}, R s t → R { t with here := s.here } u →
      R s { u with here := Tables.merge t.here u.here })
    (huntil : ∀ {α : Type} {m : Flow α} {fuel}, Leads R m → Leads R (untilStable m fuel))
    (hblock : ∀ {m : Flow Ty} {fuel params}, Leads R m →
      Leads R (outward (untilStable (nested params m) fuel))) :
    Congruence (fun m _ => Leads R m) fun _ _ => True where
  give := give hR
  bind := bind hR
  getHere := by intro s a t hrun; cases hrun; exact hR.refl s s.module
  writeHere := by intro name ty s a t hrun; cases hrun; exact hwrite name ty s
  record := by intro node ty s a t hrun; cases hrun; exact hR.refl s _
  fail := fun _ _ _ _ => throw _
  choice := by
    intro _ _ _ _ _ _ hcond hthen helse s ty u hrun
    obtain ⟨s₁, s₂, s₃, _, _, _, h₁, h₂, h₃, rfl⟩ := choice_ok hrun
    exact hR.trans (hcond h₁) (hchoice (hthen h₂) (helse h₃))
  untilStable := fun _ => huntil
  block := fun _ _ => hblock

end Leads

/-- Evaluations lead along `R` if method bodies do. -/
theorem leads_expr {R : Stacks → Stacks → Prop} (hR : Stacks.Stable R)
    (hcongruence : Congruence (fun m _ => Leads R m) fun _ _ => True)
    (hbody : ∀ {expr : Standing → Expr → Flow Ty}, (∀ c e, Leads R (expr c e)) →
      ∀ limit c id span method signature block,
        Leads R (methodBody expr limit c id span method signature block))
    (w : Ways) (limit fuel : Nat) (c : Standing) (e : Expr) : Leads R (expr w limit fuel c e) := by
  induction fuel generalizing c e with
  | zero => exact Leads.throw _
  | succ fuel ih =>
    refine @Congruence.layer _ _ hcongruence c c w w _ (expr w limit fuel) _
      (enter w (expr w limit fuel) limit) fuel fuel trivial rfl rfl e (fun part _ => ih c part)
      (fun _ _ _ _ _ _ => ih _ _) (fun name nameSpan args block _ signature => ?_)
      fun d _ => Leads.define hR w c d
    exact Leads.dispatch name nameSpan fun method =>
      Leads.enter hR (hbody ih limit c e.id e.span method signature block)

end Flow
end FlowTyping
