import FlowTyping.Proofs.Declarations
import FlowTyping.Proofs.Widening

/-!
# Evaluation binds what an expression declares

`Flow.binds_expr`: where an expression is evaluated to the end, every name that it declares
(`Expr.declared`) is bound in the tables at hand.  A name stays bound once it is, so only assignments
and the places where tables meet have to be looked at; a merge has the names of both sides.
-/

namespace FlowTyping

namespace Tables
variable {as bs : List Bindings} {x : String}

/-- A name is bound in one of the tables. -/
def Binds (tables : List Bindings) (x : String) : Prop := ∃ t ∈ tables, (t.get? x).isSome

theorem isSome_lookup_iff : (lookup as x).isSome ↔ Binds as x := by
  simp [lookup, Binds, List.findSome?_isSome_iff]

theorem binds_cons {a : Bindings} : Binds (a :: as) x ↔ (a.get? x).isSome ∨ Binds as x :=
  List.exists_mem_cons_iff _ _ _

theorem Binds.named (h : Binds as x) (hnamed : Named as bs) : Binds bs x := by
  obtain ⟨a, ha, hx⟩ := h
  induction hnamed with
  | nil => exact absurd ha List.not_mem_nil
  | cons hab _ ih =>
    rcases List.mem_cons.1 ha with rfl | ha
    · exact binds_cons.2 (.inl (hab x hx))
    · exact binds_cons.2 (.inr (ih ha))

theorem binds_write (h : as ≠ []) (ty : Ty) : Binds (write x ty as) x := by
  induction as with
  | nil => exact absurd rfl h
  | cons a as ih =>
    rw [write]
    split
    · exact binds_cons.2 (.inl (by rw [Table.get?_insert, if_pos rfl]; rfl))
    · next hx =>
      refine binds_cons.2 (.inr (ih ?_))
      rintro rfl
      simp at hx

theorem named_merge_left (h : as.length = bs.length) : Named as (merge as bs) := (le_merge h).named

theorem named_merge_right (h : as.length = bs.length) : Named bs (merge as bs) := by
  induction bs generalizing as with
  | nil => rw [List.length_eq_zero_iff.1 h]; exact .nil
  | cons b bs ih =>
    cases as with
    | nil => exact nomatch h
    | cons a as => exact .cons (a.named_merge_right b) (ih (Nat.succ.inj h))

end Tables

theorem Bindings.isSome_ofParams {params : List (Ident × Ty)} {x : String} :
    ((Bindings.ofParams params).get? x).isSome ↔ x ∈ params.map fun param => param.1.name := by
  have key (table : Bindings) :
      ((params.foldl (fun t param => t.insert param.1.name param.2) table).get? x).isSome ↔
        x ∈ (params.map fun param => param.1.name) ∨ (table.get? x).isSome := by
    induction params generalizing table with
    | nil => simp
    | cons param params ih =>
      rw [List.foldl_cons, ih, Table.get?_insert, List.map_cons, List.mem_cons]
      by_cases hx : x = param.1.name <;> simp [hx]
  rw [ofParams, key]
  simp

theorem Stacks.Widens.ne_nil {s t : Stacks} (h : s.Widens t) (hs : s.here ≠ []) : t.here ≠ [] := by
  intro ht
  have hlen := h.here.length_eq
  rw [ht] at hlen
  exact hs (List.length_eq_zero_iff.1 hlen)

namespace Flow

/-- A step that keeps what is bound, and behind which, if it ends well, the names are bound at hand. -/
structure Binds (xs : List String) (m : Flow α) : Prop where
  widens : Widens m
  binds : ∀ ⦃s a t⦄, s.here ≠ [] → m s = .ok (a, t) → ∀ x ∈ xs, Tables.Binds t.here x

namespace Binds
variable {xs ys zs : List String} {m : Flow α} {f : α → Flow β}

theorem of_widens (h : Widens m) : Binds [] m := ⟨h, fun _ _ _ _ _ _ hx => absurd hx List.not_mem_nil⟩

theorem give (a : α) : Binds [] (pure a : Flow α) := of_widens (Leads.give Stacks.Widens.stable a)

theorem bind (h : Binds xs m) (hf : ∀ a, Binds ys (f a)) : Binds (xs ++ ys) (m >>= f) := by
  refine ⟨Leads.bind Stacks.Widens.stable h.widens fun a => (hf a).widens, fun s b u hs hrun x hx => ?_⟩
  obtain ⟨a, t, hm, hrun⟩ := bind_eq_ok_iff.1 hrun
  rcases List.mem_append.1 hx with hx | hx
  · exact (h.binds hs hm x hx).named ((hf a).widens hrun).here
  · exact (hf a).binds ((h.widens hm).ne_nil hs) hrun x hx

/-- Before a step that keeps what is bound. -/
theorem andThen (h : Binds xs m) (hf : ∀ a, Widens (f a)) : Binds xs (m >>= f) :=
  List.append_nil xs ▸ h.bind fun a => of_widens (hf a)

theorem body {expr : Expr → Flow Ty} (h : ∀ e, Binds e.declared (expr e)) (stmts : List Expr) :
    Binds (stmts.flatMap Expr.declared) (body expr stmts) := by
  unfold Flow.body
  generalize Ty.nil = ty
  induction stmts generalizing ty with
  | nil => exact give ty
  | cons stmt stmts ih => rw [List.foldlM_cons]; exact (h stmt).bind ih

theorem mapM {expr : Expr → Flow Ty} (h : ∀ e, Binds e.declared (expr e)) (args : List Expr) :
    Binds (args.flatMap Expr.declared) (args.mapM expr) := by
  induction args with
  | nil => exact give []
  | cons arg args ih =>
    rw [List.mapM_cons]
    exact (h arg).bind fun ty => ih.andThen fun _ => (give _).widens

/-- The first pass binds them. -/
theorem untilStable (h : Binds xs m) (fuel : Nat) : Binds xs (untilStable m fuel) := by
  refine ⟨fun _ _ _ hrun => (h.widens.untilStable hrun).widens, fun s as u hs hrun x hx => ?_⟩
  cases fuel with
  | zero => exact nomatch hrun
  | succ fuel =>
    obtain ⟨_, _, ⟨⟩, hrun⟩ := bind_eq_ok_iff.1 hrun
    obtain ⟨a, t, hm, hrun⟩ := bind_eq_ok_iff.1 hrun
    obtain ⟨_, _, ⟨⟩, hrun⟩ := bind_eq_ok_iff.1 hrun
    obtain ⟨_, _, ⟨⟩, hrun⟩ := bind_eq_ok_iff.1 hrun
    have hmerged := (h.binds hs hm x hx).named
      (Tables.named_merge_right (h.widens hm).here.length_eq)
    by_cases hstop : Tables.merge s.here t.here = s.here
    · rw [if_pos hstop] at hrun
      cases hrun
      exact hmerged
    · rw [if_neg hstop] at hrun
      obtain ⟨rest, v, hrest, hrun⟩ := bind_eq_ok_iff.1 hrun
      cases hrun
      exact hmerged.named (h.widens.untilStable hrest).widens.here

theorem choice {cond thenPart elsePart : Flow Ty} (hcond : Binds xs cond) (hthen : Binds ys thenPart)
    (helse : Binds zs elsePart) : Binds (xs ++ (ys ++ zs)) (choice cond thenPart elsePart) := by
  refine ⟨@Congruence.choice _ _ Widens.congruence _ cond _ thenPart _ elsePart hcond.widens hthen.widens
    helse.widens, fun s ty u hs hrun x hx => ?_⟩
  obtain ⟨s₁, s₂, s₃, _, _, _, h₁, h₂, h₃, rfl⟩ := choice_ok hrun
  have hs₁ := (hcond.widens h₁).ne_nil hs
  have hnamed := (hthen.widens h₂).here
  have hlen : s₂.here.length = s₃.here.length :=
    hnamed.length_eq.symm.trans (helse.widens h₃).here.length_eq
  simp only [List.mem_append] at hx
  rcases hx with hx | hx | hx
  · exact (hcond.binds hs h₁ x hx).named (hnamed.trans (Tables.named_merge_left hlen))
  · exact (hthen.binds hs₁ h₂ x hx).named (Tables.named_merge_left hlen)
  · exact (helse.binds (s := { s₂ with here := s₁.here }) hs₁ h₃ x hx).named
      (Tables.named_merge_right hlen)

end Binds

/-- An evaluation that ends well binds what the expression declares. -/
theorem binds_expr (w : Ways) (limit fuel : Nat) (c : Standing) (e : Expr) :
    Binds e.declared (expr w limit fuel c e) := by
  induction fuel generalizing c e with
  | zero => exact ⟨Leads.throw _, fun _ _ _ _ hrun => nomatch hrun⟩
  | succ fuel ih =>
    have hwidens (c : Standing) (e : Expr) : Widens (expr w limit fuel c e) := (ih c e).widens
    have hgive {α : Type} (a : α) : Widens (pure a : Flow α) := (Binds.give a).widens
    have hbind {α β : Type} {m : Flow α} {f : α → Flow β} (hm : Widens m) (hf : ∀ a, Widens (f a)) :
        Widens (m >>= f) := Leads.bind Stacks.Widens.stable hm hf
    refine Binds.andThen ?_ fun ty => hbind (Widens.congruence.record _ _) fun _ => hgive _
    rw [Expr.declared_eq]
    unfold form
    cases hform : e.form with
    | literal v => exact .give _
    | var x => exact .of_widens (Widens.congruence.readVar rfl _ _ _)
    | define d => exact .of_widens (Leads.define Stacks.Widens.stable w c d)
    | assign target value =>
      refine ⟨hbind (hwidens c value) fun ty => hbind (Widens.congruence.writeHere _ _) fun _ =>
        hbind (Widens.congruence.record _ _) fun _ => hgive _, fun s ty u hs hrun x hx => ?_⟩
      obtain ⟨ty, t, hvalue, hrun⟩ := bind_eq_ok_iff.1 hrun
      have hnamed := Tables.named_write target.name ty t.here
      cases hrun
      rcases List.mem_cons.1 hx with rfl | hx
      · exact Tables.binds_write ((hwidens c value hvalue).ne_nil hs) ty
      · exact ((ih c value).binds hs hvalue x hx).named hnamed
    | branch cond thenBody elseBody =>
      have hdeclared : ((Form.branch cond thenBody elseBody).map Expr.declared).declared =
          cond.declared ++ (thenBody.flatMap Expr.declared ++
            (elseBody.getD []).flatMap Expr.declared) := by
        cases elseBody <;> simp [Form.map, Form.declared, Form.parts, List.flatMap_def]
      rw [hdeclared]
      exact (ih c cond).choice (Binds.body (ih c) thenBody) (Binds.body (ih c) (elseBody.getD []))
    | loop cond stmts =>
      have hpass := (Binds.body (ih c) stmts).andThen fun _ => hwidens c cond
      exact (ih c cond).bind fun _ => (hpass.untilStable fuel).andThen fun _ => hgive _
    | call name nameSpan args block =>
      refine (Binds.mapM (ih c) args).andThen fun signature => ?_
      exact Leads.dispatch name nameSpan fun method =>
        Leads.enter Stacks.Widens.stable (Widens.methodBody hwidens block)
    | yield args =>
      refine (Binds.mapM (ih c) args).andThen fun signature => ?_
      cases c.blocks with
      | nil => exact Leads.throw _
      | cons first outer =>
        exact hbind (Widens.block _ (Widens.body fun e _ => hwidens _ e) fuel) fun tys =>
          hbind (@Congruence.record _ _ Widens.congruence _ _) fun _ => hgive _

end Flow
end FlowTyping
