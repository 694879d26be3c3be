import FlowTyping.Proofs.Effects

/-!
# Widening

On stacks an evaluation never unbinds a name at hand, and all that it does to the tables of the
blocks in force is to add primitives and names (`Flow.widens_expr`): they are only written to in
passes over the body of a block, and each of these is merged with what was there before.
-/

namespace FlowTyping

/-! ### The order of tables -/

namespace Ty
variable {a b c : Ty}

theorem CoveredBy.refl (a : Ty) : a.CoveredBy a := fun _ h => h

theorem CoveredBy.trans (h₁ : a.CoveredBy b) (h₂ : b.CoveredBy c) : a.CoveredBy c :=
  fun x hx => h₂ x (h₁ x hx)

theorem CoveredBy.antisymm (h₁ : a.CoveredBy b) (h₂ : b.CoveredBy a) : a = b :=
  ext_mem fun x => ⟨h₁ x, h₂ x⟩

theorem coveredBy_join_left (a b : Ty) : a.CoveredBy (a.join b) := fun _ hx => mem_join.2 (.inl hx)

theorem join_eq_left_iff : a.join b = a ↔ b.CoveredBy a :=
  ⟨fun h x hx => h ▸ mem_join.2 (.inr hx), fun h => ext_mem fun x => by
    rw [mem_join]; exact ⟨fun hx => hx.elim id (h x), .inl⟩⟩

end Ty

namespace Bindings
variable {a b c : Bindings}

/-- Every name is bound in the second table, too. -/
def Named (a b : Bindings) : Prop := ∀ x, (a.get? x).isSome → (b.get? x).isSome

/-- Every name has in the second table at least the primitives that it has in the first. -/
def Le (a b : Bindings) : Prop :=
  ∀ x ty, a.get? x = some ty → ∃ u, b.get? x = some u ∧ ty.CoveredBy u

theorem Named.refl (a : Bindings) : a.Named a := fun _ h => h

theorem Named.trans (h₁ : a.Named b) (h₂ : b.Named c) : a.Named c := fun x h => h₂ x (h₁ x h)

theorem Le.refl (a : Bindings) : a.Le a := fun _ ty h => ⟨ty, h, .refl ty⟩

theorem Le.trans (h₁ : a.Le b) (h₂ : b.Le c) : a.Le c := by
  intro x ty h
  obtain ⟨u, hu, htu⟩ := h₁ x ty h
  obtain ⟨v, hv, huv⟩ := h₂ x u hu
  exact ⟨v, hv, htu.trans huv⟩

theorem Le.antisymm (h₁ : a.Le b) (h₂ : b.Le a) : a = b := by
  refine Table.ext_get? fun x => ?_
  cases ha : a.get? x with
  | some ty =>
    obtain ⟨u, hu, htu⟩ := h₁ x ty ha
    obtain ⟨v, hv, huv⟩ := h₂ x u hu
    cases ha.symm.trans hv
    rw [hu, htu.antisymm huv]
  | none =>
    cases hb : b.get? x with
    | none => rfl
    | some u =>
      obtain ⟨v, hv, -⟩ := h₂ x u hb
      rw [ha] at hv; exact nomatch hv

theorem Le.named (h : a.Le b) : a.Named b := by
  intro x hx
  obtain ⟨ty, hty⟩ := Option.isSome_iff_exists.1 hx
  obtain ⟨u, hu, -⟩ := h x ty hty
  rw [hu]; rfl

theorem named_insert (a : Bindings) (x : String) (ty : Ty) : a.Named (a.insert x ty) := by
  intro y hy
  rw [Table.get?_insert]
  split
  · rfl
  · exact hy

theorem le_merge (a b : Bindings) : a.Le (merge a b) := by
  intro x ty h
  refine ⟨ty.join ((b.get? x).getD .nil), ?_, Ty.coveredBy_join_left _ _⟩
  rw [get?_merge, h]; rfl

theorem named_merge_right (a b : Bindings) : b.Named (merge a b) := by
  intro x hx
  obtain ⟨u, hu⟩ := Option.isSome_iff_exists.1 hx
  rw [get?_merge, hu]
  cases a.get? x <;> rfl

/-- A merge that leaves the first table as it is: the second one has the same names or fewer, at
types that are covered. -/
theorem le_of_merge_eq (h : merge a b = a) : b.Le a := by
  intro x u hu
  have hx := get?_merge a b x
  rw [h, hu] at hx
  cases ha : a.get? x with
  | none => rw [ha] at hx; exact nomatch hx
  | some ty =>
    rw [ha] at hx
    have : ty.join u = ty := (Option.some.inj hx).symm
    exact ⟨ty, rfl, Ty.join_eq_left_iff.1 this⟩

theorem merge_eq_of_le (hab : a.Named b) (h : b.Le a) : merge a b = a := by
  refine Table.ext_get? fun x => ?_
  rw [get?_merge]
  cases ha : a.get? x with
  | some ty =>
    obtain ⟨u, hu⟩ := Option.isSome_iff_exists.1 (hab x (by rw [ha]; rfl))
    obtain ⟨v, hv, huv⟩ := h x u hu
    cases ha.symm.trans hv
    rw [hu]
    exact congrArg some (Ty.join_eq_left_iff.2 huv)
  | none =>
    cases hb : b.get? x with
    | none => rfl
    | some u =>
      obtain ⟨v, hv, -⟩ := h x u hb
      rw [ha] at hv; exact nomatch hv

end Bindings

namespace Tables
variable {as bs cs : List Bindings}

/-- Table by table the same names. -/
abbrev Named : List Bindings → List Bindings → Prop := List.Forall₂ Bindings.Named

/-- Table by table more primitives and names. -/
abbrev Le : List Bindings → List Bindings → Prop := List.Forall₂ Bindings.Le

theorem Named.refl (as : List Bindings) : Named as as := List.forall₂_same.2 fun a _ => .refl a

theorem Le.refl (as : List Bindings) : Le as as := List.forall₂_same.2 fun a _ => .refl a

theorem forall₂_trans {R : α → α → Prop} (hR : ∀ ⦃a b c⦄, R a b → R b c → R a c) {as bs cs : List α}
    (h₁ : List.Forall₂ R as bs) (h₂ : List.Forall₂ R bs cs) : List.Forall₂ R as cs := by
  induction h₁ generalizing cs with
  | nil => exact h₂
  | cons hab _ ih =>
    cases h₂ with
    | cons hbc hrest => exact .cons (hR hab hbc) (ih hrest)

theorem Named.trans (h₁ : Named as bs) (h₂ : Named bs cs) : Named as cs :=
  forall₂_trans (fun _ _ _ h h' => h.trans h') h₁ h₂

theorem Le.trans (h₁ : Le as bs) (h₂ : Le bs cs) : Le as cs :=
  forall₂_trans (fun _ _ _ h h' => h.trans h') h₁ h₂

theorem held_trans {as bs cs : List (List Bindings)} (h₁ : List.Forall₂ Le as bs)
    (h₂ : List.Forall₂ Le bs cs) : List.Forall₂ Le as cs :=
  forall₂_trans (fun _ _ _ h h' => h.trans h') h₁ h₂

theorem forall₂_antisymm {R : α → α → Prop} (hR : ∀ ⦃a b⦄, R a b → R b a → a = b)
    {as bs : List α} (h₁ : List.Forall₂ R as bs) (h₂ : List.Forall₂ R bs as) : as = bs := by
  induction h₁ with
  | nil => rfl
  | cons hab _ ih =>
    cases h₂ with
    | cons hba hrest => rw [hR hab hba, ih hrest]

theorem Le.antisymm (h₁ : Le as bs) (h₂ : Le bs as) : as = bs :=
  forall₂_antisymm (fun _ _ h h' => h.antisymm h') h₁ h₂

theorem held_antisymm {as bs : List (List Bindings)} (h₁ : List.Forall₂ Le as bs)
    (h₂ : List.Forall₂ Le bs as) : as = bs :=
  forall₂_antisymm (fun _ _ h h' => h.antisymm h') h₁ h₂

theorem Le.named (h : Le as bs) : Named as bs := h.imp fun _ _ => Bindings.Le.named

theorem le_merge (h : as.length = bs.length) : Le as (merge as bs) := by
  induction as generalizing bs with
  | nil => exact .nil
  | cons a as ih =>
    cases bs with
    | nil => exact nomatch h
    | cons b bs => exact .cons (a.le_merge b) (ih (Nat.succ.inj h))

theorem named_merge (h₁ : Named cs as) (h₂ : Named cs bs) : Named cs (merge as bs) := by
  induction h₁ generalizing bs with
  | nil => exact .nil
  | cons hca _ ih =>
    cases h₂ with
    | cons hcb hrest => exact .cons (hcb.trans (Bindings.named_merge_right _ _)) (ih hrest)

theorem le_of_merge_eq (hlen : as.length = bs.length) (h : merge as bs = as) : Le bs as := by
  induction as generalizing bs with
  | nil => rw [List.length_eq_zero_iff.1 hlen.symm]; exact .nil
  | cons a as ih =>
    cases bs with
    | nil => exact nomatch hlen
    | cons b bs =>
      obtain ⟨hab, hrest⟩ := List.cons.inj h
      exact .cons (Bindings.le_of_merge_eq hab) (ih (Nat.succ.inj hlen) hrest)

theorem merge_eq_of_le (hab : Named as bs) (h : Le bs as) : merge as bs = as := by
  induction hab with
  | nil => rfl
  | cons hab _ ih =>
    cases h with
    | cons hba hrest =>
      show Bindings.merge _ _ :: merge _ _ = _
      rw [Bindings.merge_eq_of_le hab hba, ih hrest]

theorem named_write (name : String) (ty : Ty) (as : List Bindings) : Named as (write name ty as) := by
  induction as with
  | nil => exact .nil
  | cons a as ih =>
    rw [write]
    split
    · exact .cons (a.named_insert name ty) (Named.refl as)
    · exact .cons (.refl a) ih

end Tables

namespace Stacks
variable {s t u : Stacks}

/-- What an evaluation may do to the tables. -/
structure Widens (s t : Stacks) : Prop where
  here : Tables.Named s.here t.here
  held : List.Forall₂ Tables.Le s.held t.held

theorem Widens.refl (s : Stacks) : s.Widens s := ⟨.refl _, List.forall₂_same.2 fun _ _ => .refl _⟩

theorem Widens.trans (h₁ : s.Widens t) (h₂ : t.Widens u) : s.Widens u :=
  ⟨h₁.here.trans h₂.here, Tables.held_trans h₁.held h₂.held⟩

/-- More primitives and names in every table. -/
structure Le (s t : Stacks) : Prop where
  here : Tables.Le s.here t.here
  held : List.Forall₂ Tables.Le s.held t.held

theorem Le.refl (s : Stacks) : s.Le s := ⟨.refl _, List.forall₂_same.2 fun _ _ => .refl _⟩

theorem Le.trans (h₁ : s.Le t) (h₂ : t.Le u) : s.Le u :=
  ⟨h₁.here.trans h₂.here, Tables.held_trans h₁.held h₂.held⟩

theorem Widens.stable : Stable Widens where
  refl := fun s _ => ⟨.refl _, (Widens.refl s).held⟩
  trans := Widens.trans

theorem Le.stable : Stable Le where
  refl := fun s _ => ⟨.refl _, (Le.refl s).held⟩
  trans := Le.trans

theorem Le.widens (h : s.Le t) : s.Widens t := ⟨Tables.Le.named h.here, h.held⟩

theorem Widens.le_merged (h : s.Widens t) : s.Le (s.merged t) :=
  ⟨Tables.le_merge h.here.length_eq, h.held⟩

end Stacks

namespace Flow

/-- A step that widens the tables of the blocks in force and keeps the names at hand. -/
def Widens (m : Flow α) : Prop := ∀ ⦃s a t⦄, m s = .ok (a, t) → s.Widens t

namespace Widens
variable {m : Flow α} {s t : Stacks}

/-- Passes end above where they start, also in the tables at hand. -/
theorem untilStable (h : Widens m) {fuel : Nat} {as : List α}
    (hrun : untilStable m fuel s = .ok (as, t)) : s.Le t :=
  untilStable_ok Stacks.Le.trans (fun _ _ _ hm => (h hm).le_merged) hrun

theorem nested (params : List (Ident × Ty)) (h : Widens m) : Widens (nested params m) := by
  intro s a u hrun
  obtain ⟨⟨_, here, _⟩, hm, rfl⟩ := elsewhere_ok hrun
  have hhere : Tables.Named (_ :: s.here) here := (h hm).here
  cases hhere with
  | cons _ hrest => exact ⟨hrest, (h hm).held⟩

theorem alone (params : List (Ident × Ty)) : Widens (alone params m) := by
  intro s a u hrun
  obtain ⟨t, hm, rfl⟩ := elsewhere_ok hrun
  exact ⟨.refl _, (Stacks.Widens.refl s).held⟩

/-- Only primitives are added outside. -/
theorem above_ok {a : α} (params : List (Ident × Ty)) (h : Widens m)
    (hrun : above params m s = .ok (a, t)) : s.Le t := by
  obtain ⟨⟨_, _, held⟩, hm, rfl⟩ := elsewhere_ok hrun
  have hheld : List.Forall₂ Tables.Le (s.here :: s.held) held := (h hm).held
  cases hheld with
  | cons hfirst hrest => exact ⟨hfirst, hrest⟩

theorem block {m : Flow Ty} (params : List (Ident × Ty)) (h : Widens m) (fuel : Nat) :
    Widens (outward (Flow.untilStable (Flow.nested params m) fuel)) := by
  intro s a u hrun
  obtain ⟨first, rest, t, hheld, hm, rfl⟩ := outward_ok hrun
  obtain ⟨hfirst, hrest⟩ := (h.nested params).untilStable hm
  exact ⟨.refl _, by rw [hheld]; exact .cons hfirst hrest⟩

theorem congruence : Congruence (fun m _ => Widens m) fun _ _ => True :=
  Leads.congruence Stacks.Widens.stable
    (fun name ty s => ⟨Tables.named_write name ty s.here, (Stacks.Widens.refl s).held⟩)
    (fun hthen helse => ⟨Tables.named_merge hthen.here helse.here,
      Tables.held_trans hthen.held helse.held⟩)
    (fun h _ _ _ hrun => (untilStable h hrun).widens)
    (fun h => block _ h _)

theorem body {expr : Expr → Flow Ty} {stmts : List Expr} (h : ∀ stmt ∈ stmts, Widens (expr stmt)) :
    Widens (body expr stmts) :=
  @Congruence.body _ _ congruence expr expr _ h

theorem loopPass {expr : Expr → Flow Ty} {cond : Expr} {stmts : List Expr}
    (hcond : Widens (expr cond)) (hstmts : ∀ stmt ∈ stmts, Widens (expr stmt)) :
    Widens (loopPass expr cond stmts) :=
  @Congruence.loopPass _ _ congruence expr expr _ _ hcond hstmts

section
variable {expr : Standing → Expr → Flow Ty} {limit : Nat} {c : Standing} {id : NodeId} {span : Span}
  {method : Method} {signature : Signature} (h : ∀ c e, Widens (expr c e))
include h

/-- The body of a method with a block only adds primitives. -/
theorem methodBody_some_ok {block : Block Expr} {ty : Ty}
    (hrun : methodBody expr limit c id span method signature (some block) s = .ok (ty, t)) :
    s.Le t := by
  by_cases hlimit : limit ≤ c.depth
  · rw [methodBody_of_le hlimit] at hrun; exact nomatch hrun
  · rw [methodBody_some hlimit] at hrun
    exact above_ok _ (body fun e _ => h _ e) hrun

theorem methodBody (block : Option (Block Expr)) :
    Widens (methodBody expr limit c id span method signature block) := by
  cases block with
  | some b => exact fun _ _ _ hrun => (methodBody_some_ok h hrun).widens
  | none =>
    by_cases hlimit : limit ≤ c.depth
    · rw [methodBody_of_le hlimit]; exact Leads.throw _
    · rw [methodBody_none hlimit]; exact alone _

end

end Widens

/-- Evaluations widen the tables of the blocks in force and keep the names at hand. -/
theorem widens_expr (w : Ways) (limit fuel : Nat) (c : Standing) (e : Expr) :
    Widens (expr w limit fuel c e) :=
  leads_expr Stacks.Widens.stable Widens.congruence (fun h _ _ _ _ _ _ block => Widens.methodBody h block)
    w limit fuel c e

end Flow
end FlowTyping
