import FlowTyping.Proofs.Layout

/-!
# Names and numbers of a tree

What reading an expression does to the naming can be seen on the tree.  Afterwards the names in sight
are those from before and those that the expression assigns to outside blocks and method bodies
(`Expr.Laid.declares`), and the identities in the tree are the numbers in between, each once
(`Expr.Laid.numbers`).  So the identities of a program that parses are distinct.
-/

namespace FlowTyping

open Naming

/-! ### Declared names -/

/-- The names that a layer declares in its scope, from those that the parts declare in theirs. -/
def Form.declared : Form (List String) → List String
  | .assign target value => target.name :: value
  | .call _ _ args _ => args.flatten
  | .define _ => []
  | form => form.parts.flatten

/-- The names that an expression assigns to, outside blocks and method bodies. -/
def Expr.declared : Expr → List String := fold fun _ _ form => form.declared

theorem Expr.declared_eq (e : Expr) : e.declared = (e.form.map declared).declared := by
  conv => lhs; rw [eta e]
  exact fold_node _ _ _ _

theorem Form.parts_branch (cond : α) (thenBody : List α) (elseBody : Option (List α)) :
    (branch cond thenBody elseBody).parts = cond :: (thenBody ++ elseBody.getD []) := by
  cases elseBody <;> simp [parts]

theorem Form.mem_parts_of_arg {name : String} {nameSpan : Span} {args : List α}
    {block : Option (Block α)} {a : α} (h : a ∈ args) : a ∈ (call name nameSpan args block).parts := by
  cases block with
  | none => exact h
  | some b => exact List.mem_append_left _ h

namespace Cursor
variable {locals : List LocalScope} {x y : String}

theorem declareIn_ne_nil (h : locals ≠ []) : declareIn x locals ≠ [] := by
  cases locals with
  | nil => exact absurd rfl h
  | cons scope outer => rw [declareIn]; split <;> exact List.cons_ne_nil _ _

theorem tail_declareIn : (declareIn x locals).tail = locals.tail := by
  cases locals with
  | nil => rfl
  | cons scope outer => rw [declareIn]; split <;> rfl

theorem isLocalIn_declareIn (h : locals ≠ []) :
    isLocalIn y (declareIn x locals) = true ↔ y = x ∨ isLocalIn y locals = true := by
  cases locals with
  | nil => exact absurd rfl h
  | cons scope outer =>
    rw [declareIn]
    split
    · next hx =>
      refine ⟨.inr, fun hy => hy.elim (fun hy => ?_) id⟩
      rw [hy, isLocalIn, hx, Bool.true_or]
    · simp [isLocalIn, or_assoc]

end Cursor

namespace Naming
variable {σ ρ τ : Naming} {xs ys : List String}

/-- The names `xs` have come into the innermost scope. -/
structure Declares (σ : Naming) (xs : List String) (τ : Naming) : Prop where
  inScope : τ.locals ≠ []
  outer : τ.locals.tail = σ.locals.tail
  isLocal : ∀ x, τ.isLocal x = true ↔ x ∈ xs ∨ σ.isLocal x = true

namespace Declares

theorem refl (h : σ.locals ≠ []) : σ.Declares [] σ :=
  ⟨h, rfl, fun _ => (or_iff_right List.not_mem_nil).symm⟩

theorem trans (h₁ : σ.Declares xs ρ) (h₂ : ρ.Declares ys τ) : σ.Declares (xs ++ ys) τ :=
  ⟨h₂.inScope, h₂.outer.trans h₁.outer, fun x => by
    rw [h₂.isLocal, h₁.isLocal, List.mem_append, or_left_comm, or_assoc]⟩

theorem declare (h : σ.locals ≠ []) (x : String) : σ.Declares [x] (σ.declare x) :=
  ⟨Cursor.declareIn_ne_nil h, Cursor.tail_declareIn, fun _ => by
    rw [List.mem_singleton]; exact Cursor.isLocalIn_declareIn h⟩

theorem declareAll (h : σ.locals ≠ []) (params : List Ident) :
    σ.Declares (params.map Ident.name) (σ.declareAll params) := by
  induction params generalizing σ with
  | nil => exact refl h
  | cons param params ih => exact (declare h param.name).trans (ih (Cursor.declareIn_ne_nil h))

/-- Only the locals matter. -/
theorem congr {σ' τ' : Naming} (h : σ.Declares xs τ) (hσ : σ'.locals = σ.locals)
    (hτ : τ'.locals = τ.locals) : σ'.Declares xs τ' :=
  ⟨by rw [hτ]; exact h.inScope, by rw [hσ, hτ]; exact h.outer, fun x => by
    unfold Naming.isLocal
    rw [hσ, hτ]
    exact h.isLocal x⟩

/-- One thing after the other. -/
theorem run {R : Naming → α → Naming → Prop} {f : α → List String} {as : List α}
    (h : ∀ a ∈ as, ∀ σ τ, σ.locals ≠ [] → R σ a τ → σ.Declares (f a) τ) (hσ : σ.locals ≠ [])
    (hrun : Run R σ as τ) : σ.Declares (as.flatMap f) τ := by
  induction as generalizing σ with
  | nil => obtain rfl := hrun; exact refl hσ
  | cons a as ih =>
    obtain ⟨ρ, ha, hrest⟩ := hrun
    have hfirst := h a List.mem_cons_self σ ρ hσ ha
    exact hfirst.trans (ih (fun a ha => h a (List.mem_cons_of_mem _ ha)) hfirst.inScope hrest)

end Declares

theorem locals_of_names {params : List Ident} (h : Run Names σ params τ) : τ.locals = σ.locals := by
  induction params generalizing σ with
  | nil => exact congrArg locals h
  | cons param params ih =>
    obtain ⟨_, ⟨-, -, rfl⟩, hrest⟩ := h
    exact ih (σ := σ.fresh) hrest

/-- What is in sight in a new scope with parameters. -/
theorem isLocal_declareAll {params : List Ident} {closed : Bool}
    (h : Run Names (σ.enter closed) params ρ) (x : String) :
    (ρ.declareAll params).isLocal x = true ↔
      x ∈ params.map Ident.name ∨ closed = false ∧ σ.isLocal x = true := by
  have hlocals : ρ.locals = ⟨closed, []⟩ :: σ.locals := locals_of_names h
  have hne : ρ.locals ≠ [] := by rw [hlocals]; exact List.cons_ne_nil _ _
  rw [(Declares.declareAll hne params).isLocal]
  refine or_congr_right ?_
  rw [isLocal, hlocals, isLocal]
  cases closed <;> simp [Cursor.isLocalIn]

/-- Behind a scope of its own the names are as before. -/
theorem Scoped.locals_eq {R : Naming → α → Naming → Prop} {f : α → List String} {closed : Bool}
    {params : List Ident} {body : List α}
    (h : ∀ a ∈ body, ∀ σ τ, σ.locals ≠ [] → R σ a τ → σ.Declares (f a) τ)
    (hscoped : Scoped R closed σ params body τ) : τ.locals = σ.locals := by
  obtain ⟨ρ, υ, hparams, hbody, rfl⟩ := hscoped
  have hlocals : ρ.locals = ⟨closed, []⟩ :: σ.locals := locals_of_names hparams
  have hne : ρ.locals ≠ [] := by rw [hlocals]; exact List.cons_ne_nil _ _
  have hdeclares := Declares.declareAll hne params
  have htail := (Declares.run h hdeclares.inScope hbody).outer.trans hdeclares.outer
  rw [hlocals] at htail
  rw [leave, List.drop_one]
  exact htail

end Naming

/-- An expression brings the names that it declares into the innermost scope. -/
theorem Expr.Laid.declares {e : Expr} {σ τ : Naming} (hσ : σ.locals ≠ []) (h : e.Laid σ τ) :
    σ.Declares e.declared τ := by
  induction e using Expr.induction generalizing σ τ with
  | step id span form ih =>
    obtain ⟨ρ, hform, -, rfl⟩ := laid_iff.1 h
    rw [declared_eq]
    have hall {es : List Expr} (hes : ∀ e ∈ es, e ∈ form.parts) {σ τ : Naming} (hσ : σ.locals ≠ [])
        (h : LaidAll σ es τ) : σ.Declares (es.map declared).flatten τ := by
      rw [← List.flatMap_def]
      exact Declares.run (fun e he _ _ => ih e (hes e he)) hσ h
    have hscope {closed : Bool} {params : List Ident} {body : List Expr} {σ τ : Naming}
        (hbody : ∀ e ∈ body, e ∈ form.parts) (h : Scoped Laid closed σ params body τ) :
        τ.locals = σ.locals :=
      Scoped.locals_eq (fun e he _ _ => ih e (hbody e he)) h
    suffices hρ : σ.Declares (form.map declared).declared ρ from hρ.congr rfl rfl
    cases form with
    | literal v => obtain ⟨-, rfl⟩ := hform; exact .refl hσ
    | var name => obtain ⟨-, -, rfl⟩ := hform; exact .refl hσ
    | yield args => exact hall (fun _ he => he) hσ hform
    | assign target value =>
      obtain ⟨-, -, hvalue⟩ := hform
      have htarget := Declares.declare hσ target.name
      have hvalue := ih value (List.mem_singleton_self _) (σ := (σ.declare target.name).fresh)
        htarget.inScope hvalue
      exact htarget.trans (hvalue.congr rfl rfl)
    | call name nameSpan args block =>
      obtain ⟨-, υ, hargs, hblock⟩ := hform
      cases block with
      | none => obtain rfl := hblock; exact hall (fun _ he => he) hσ hargs
      | some b =>
        obtain ⟨χ, hscoped, -, rfl⟩ := hblock
        have hlocals := hscope (fun _ he => List.mem_append_right _ he) hscoped
        exact (hall (fun _ he => List.mem_append_left _ he) hσ hargs).congr rfl hlocals
    | branch cond thenBody elseBody =>
      obtain ⟨υ, χ, hcond, hthen, helse⟩ := hform
      have hcond := ih cond (by rw [Form.parts_branch]; exact List.mem_cons_self) hσ hcond
      have hthen := hall (fun e he => by rw [Form.parts_branch]; simp [he]) hcond.inScope hthen
      have helse := hall (fun e he => by rw [Form.parts_branch]; simp [he]) hthen.inScope helse
      have hdeclared : ((Form.branch cond thenBody elseBody).map declared).declared =
          cond.declared ++ ((thenBody.map declared).flatten ++
            ((elseBody.getD []).map declared).flatten) := by
        cases elseBody <;> simp [Form.map, Form.declared, Form.parts]
      rw [hdeclared]
      exact hcond.trans (hthen.trans helse)
    | loop cond body =>
      obtain ⟨υ, hcond, hbody⟩ := hform
      have hcond := ih cond List.mem_cons_self hσ hcond
      exact hcond.trans (hall (fun _ he => List.mem_cons_of_mem _ he) hcond.inScope hbody)
    | define d =>
      obtain ⟨-, -, hscoped⟩ := hform
      have hlocals : ρ.locals = σ.fresh.locals := hscope (fun _ he => he) hscoped
      exact (Declares.refl hσ).congr rfl hlocals

theorem LaidAll.declares {es : List Expr} {σ τ : Naming} (hσ : σ.locals ≠ []) (h : LaidAll σ es τ) :
    σ.Declares (es.flatMap Expr.declared) τ :=
  Declares.run (fun _ _ _ _ hσ h => h.declares hσ) hσ h

/-! ### Numbers -/

/-- The numbers from `a` on and below `b`, each once, in whatever order. -/
def Numbers (a : Nat) (ids : List NodeId) (b : Nat) : Prop :=
  ∃ k, b = a + k ∧ ids.Perm (List.range' a k)

namespace Numbers
variable {a b c : Nat} {ids ids' : List NodeId}

theorem nil (a : Nat) : Numbers a [] a := ⟨0, rfl, .nil⟩

theorem single (a : Nat) : Numbers a [a] (a + 1) := ⟨1, rfl, .refl _⟩

theorem append (h₁ : Numbers a ids b) (h₂ : Numbers b ids' c) : Numbers a (ids ++ ids') c := by
  obtain ⟨k, rfl, hk⟩ := h₁
  obtain ⟨m, rfl, hm⟩ := h₂
  refine ⟨k + m, Nat.add_assoc _ _ _, ?_⟩
  rw [← List.range'_append_1]
  exact hk.append hm

theorem perm (h : Numbers a ids b) (hperm : ids'.Perm ids) : Numbers a ids' b :=
  let ⟨k, hb, hk⟩ := h
  ⟨k, hb, hperm.trans hk⟩

theorem nodup (h : Numbers a ids b) : ids.Nodup :=
  let ⟨_, _, hk⟩ := h
  hk.nodup_iff.2 List.nodup_range'

theorem run {R : Naming → α → Naming → Prop} {f : α → List NodeId} {as : List α} {σ τ : Naming}
    (h : ∀ a ∈ as, ∀ σ τ, R σ a τ → Numbers σ.nextId (f a) τ.nextId) (hrun : Run R σ as τ) :
    Numbers σ.nextId (as.flatMap f) τ.nextId := by
  induction as generalizing σ with
  | nil => obtain rfl := hrun; exact nil _
  | cons a as ih =>
    obtain ⟨ρ, ha, hrest⟩ := hrun
    exact (h a List.mem_cons_self σ ρ ha).append (ih (fun a ha => h a (List.mem_cons_of_mem _ ha)) hrest)

theorem names {params : List Ident} {σ τ : Naming} (h : Run Names σ params τ) :
    Numbers σ.nextId (params.map Ident.id) τ.nextId := by
  rw [← List.flatMap_pure_eq_map]
  refine run (fun i _ σ τ hname => ?_) h
  obtain ⟨-, hid, rfl⟩ := hname
  show Numbers σ.nextId [i.id] (σ.nextId + 1)
  rw [hid]
  exact single _

theorem nextId_declareAll (σ : Naming) (params : List Ident) : (σ.declareAll params).nextId = σ.nextId := by
  induction params generalizing σ with
  | nil => rfl
  | cons param params ih => exact ih (σ.declare param.name)

/-- The numbers in a scope of its own: those of the parameters and those in the body. -/
theorem inScope {closed : Bool} {params : List Ident} {body : List Expr} {σ τ : Naming}
    (h : ∀ e ∈ body, ∀ σ τ, e.Laid σ τ → Numbers σ.nextId e.ids τ.nextId)
    (hscoped : Scoped Expr.Laid closed σ params body τ) :
    Numbers σ.nextId (params.map Ident.id ++ body.flatMap Expr.ids) τ.nextId := by
  obtain ⟨ρ, υ, hparams, hbody, rfl⟩ := hscoped
  have hbody := run h hbody
  rw [nextId_declareAll] at hbody
  exact (names hparams).append hbody

end Numbers

/-- The identities in an expression are the numbers between the two namings. -/
theorem Expr.Laid.numbers {e : Expr} {σ τ : Naming} (h : e.Laid σ τ) :
    Numbers σ.nextId e.ids τ.nextId := by
  induction e using Expr.induction generalizing σ τ with
  | step id span form ih =>
    obtain ⟨ρ, hform, hid, rfl⟩ := laid_iff.1 h
    have hall {es : List Expr} (hes : ∀ e ∈ es, e ∈ form.parts) {σ τ : Naming} (h : LaidAll σ es τ) :
        Numbers σ.nextId (es.flatMap ids) τ.nextId := Numbers.run (fun e he _ _ => ih e (hes e he)) h
    have hscope {closed : Bool} {params : List Ident} {body : List Expr} {σ τ : Naming}
        (hbody : ∀ e ∈ body, e ∈ form.parts) (h : Scoped Laid closed σ params body τ) :
        Numbers σ.nextId (params.map Ident.id ++ body.flatMap ids) τ.nextId :=
      Numbers.inScope (fun e he _ _ => ih e (hbody e he)) h
    -- the node itself comes last
    suffices hρ : Numbers σ.nextId (form.places.map Place.id ++ form.parts.flatMap ids) ρ.nextId by
      refine (hρ.append (.single ρ.nextId)).perm ?_
      rw [ids_eq, own, ← show id = ρ.nextId from hid]
      exact (List.perm_append_singleton _ _).symm
    cases form with
    | literal v => obtain ⟨-, rfl⟩ := hform; exact .nil _
    | var name => obtain ⟨-, -, rfl⟩ := hform; exact .nil _
    | yield args => exact hall (fun _ he => he) hform
    | assign target value =>
      obtain ⟨-, htarget, hvalue⟩ := hform
      have hvalue := ih value (List.mem_singleton_self _) hvalue
      show Numbers σ.nextId (target.id :: (value.ids ++ [])) ρ.nextId
      rw [htarget, List.append_nil]
      exact (Numbers.single _).append hvalue
    | call name nameSpan args block =>
      obtain ⟨-, υ, hargs, hblock⟩ := hform
      cases block with
      | none => obtain rfl := hblock; exact hall (fun _ he => he) hargs
      | some b =>
        obtain ⟨χ, hscoped, hb, rfl⟩ := hblock
        have hargs := hall (fun _ he => List.mem_append_left _ he) hargs
        have hscoped := hscope (fun _ he => List.mem_append_right _ he) hscoped
        refine ((hargs.append hscoped).append (.single χ.nextId)).perm ?_
        show (b.id :: (b.params.map Ident.place).map Place.id ++ (args ++ b.body).flatMap ids).Perm _
        rw [hb, List.map_map, List.flatMap_append]
        refine List.perm_iff_count.2 fun i => ?_
        simp only [List.cons_append, List.count_cons, List.count_append, List.count_nil]
        have hcount : List.count i (b.params.map (Place.id ∘ Ident.place)) =
            List.count i (b.params.map Ident.id) := rfl
        omega
    | branch cond thenBody elseBody =>
      obtain ⟨υ, χ, hcond, hthen, helse⟩ := hform
      have hcond := ih cond (by rw [Form.parts_branch]; exact List.mem_cons_self) hcond
      have hthen := hall (fun e he => by rw [Form.parts_branch]; simp [he]) hthen
      have helse := hall (fun e he => by rw [Form.parts_branch]; simp [he]) helse
      rw [Form.parts_branch, List.flatMap_cons, List.flatMap_append]
      exact hcond.append (hthen.append helse)
    | loop cond body =>
      obtain ⟨υ, hcond, hbody⟩ := hform
      exact (ih cond List.mem_cons_self hcond).append (hall (fun _ he => List.mem_cons_of_mem _ he) hbody)
    | define d =>
      obtain ⟨-, hname, hscoped⟩ := hform
      have hscoped := hscope (fun _ he => he) hscoped
      show Numbers σ.nextId (d.name.id :: (d.params.map Ident.place).map Place.id ++
        d.body.flatMap ids) ρ.nextId
      rw [hname, List.map_map]
      exact (Numbers.single _).append hscoped

/-! ### Programs that are laid down -/

theorem Naming.Run.mem {σ τ : Naming} {es : List Expr} {e : Expr} (hσ : σ.locals ≠ [])
    (h : LaidAll σ es τ) (he : e ∈ es) : ∃ ρ υ, ρ.locals ≠ [] ∧ e.Laid ρ υ := by
  induction es generalizing σ with
  | nil => exact absurd he List.not_mem_nil
  | cons first es ih =>
    obtain ⟨ρ, hfirst, hrest⟩ := h
    rcases List.mem_cons.1 he with rfl | he
    · exact ⟨σ, ρ, hσ, hfirst⟩
    · exact ih (hfirst.declares hσ).inScope hrest he

theorem Naming.Scoped.mem {closed : Bool} {params : List Ident} {body : List Expr} {σ τ : Naming}
    {e : Expr} (h : Scoped Expr.Laid closed σ params body τ) (he : e ∈ body) :
    ∃ ρ υ, ρ.locals ≠ [] ∧ e.Laid ρ υ := by
  obtain ⟨ρ, υ, hparams, hbody, rfl⟩ := h
  have hlocals : ρ.locals = ⟨closed, []⟩ :: σ.locals := locals_of_names hparams
  have hne : ρ.locals ≠ [] := by rw [hlocals]; exact List.cons_ne_nil _ _
  exact hbody.mem (Declares.declareAll hne params).inScope he

theorem Expr.Laid.part {e part : Expr} {σ τ : Naming} (hσ : σ.locals ≠ []) (h : e.Laid σ τ)
    (hpart : part ∈ e.form.parts) : ∃ ρ υ, ρ.locals ≠ [] ∧ part.Laid ρ υ := by
  obtain ⟨ρ, hform, -, rfl⟩ := laid_iff.1 h
  cases e with | node id span form
  rw [form_node] at hpart hform
  cases form with
  | literal v => exact absurd hpart List.not_mem_nil
  | var name => exact absurd hpart List.not_mem_nil
  | yield args => exact Run.mem hσ hform hpart
  | assign target value =>
    obtain ⟨-, -, hvalue⟩ := hform
    obtain rfl := List.mem_singleton.1 hpart
    exact ⟨(σ.declare target.name).fresh, ρ, (Declares.declare hσ target.name).inScope, hvalue⟩
  | call name nameSpan args block =>
    obtain ⟨-, υ, hargs, hblock⟩ := hform
    cases block with
    | none => exact hargs.mem hσ hpart
    | some b =>
      obtain ⟨χ, hscoped, -, -⟩ := hblock
      exact (List.mem_append.1 hpart).elim (hargs.mem hσ) hscoped.mem
  | branch cond thenBody elseBody =>
    obtain ⟨υ, χ, hcond, hthen, helse⟩ := hform
    have hυ := (hcond.declares hσ).inScope
    rw [Form.parts_branch] at hpart
    rcases List.mem_cons.1 hpart with rfl | hpart
    · exact ⟨σ, υ, hσ, hcond⟩
    · exact (List.mem_append.1 hpart).elim (hthen.mem hυ)
        (helse.mem (LaidAll.declares hυ hthen).inScope)
  | loop cond body =>
    obtain ⟨υ, hcond, hbody⟩ := hform
    rcases List.mem_cons.1 hpart with rfl | hpart
    · exact ⟨σ, υ, hσ, hcond⟩
    · exact hbody.mem (hcond.declares hσ).inScope hpart
  | define d =>
    obtain ⟨-, -, hscoped⟩ := hform
    exact hscoped.mem hpart

/-- The identities of a program are the numbers from 0 on. -/
theorem Program.numbers_of_laid {p : Program} {τ : Naming} (h : LaidAll .start p.stmts τ) :
    Numbers 0 p.ids τ.nextId :=
  Numbers.run (fun _ _ _ _ he => he.numbers) h

/-- Every expression in a program that is laid down is laid down. -/
theorem Program.Has.laid {p : Program} {e : Expr} {τ : Naming} (h : LaidAll .start p.stmts τ)
    (he : p.Has e) : ∃ σ τ, σ.locals ≠ [] ∧ e.Laid σ τ := by
  induction he with
  | stmt he => exact h.mem (List.cons_ne_nil _ _) he
  | part _ hpart ih =>
    obtain ⟨σ, τ, hσ, he⟩ := ih
    exact he.part hσ hpart

end FlowTyping
