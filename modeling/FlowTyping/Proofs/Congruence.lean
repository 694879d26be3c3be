import FlowTyping.Proofs.Stacks

/-!
# Relations between runs on stacks

`Flow.Congruence R`: the relation `R` between steps passes from the steps inside a sequence, a choice
or a loop to the whole.  Then it passes from the expressions inside a node to the node
(`Flow.Congruence.layer`), given that it holds of the calls and the definitions.
-/

namespace FlowTyping
namespace Flow

/-- A relation between steps that goes through sequences, choices and passes.  Two loops may be
allowed numbers of passes that are related by `fuels`. -/
structure Congruence (R : ∀ {α : Type}, Flow α → Flow α → Prop) (fuels : Nat → Nat → Prop) :
    Prop where
  give : ∀ {α : Type} (a : α), R (pure a) (pure a)
  bind : ∀ {α β : Type} {m n : Flow α} {f g : α → Flow β}, R m n → (∀ a, R (f a) (g a)) →
    R (m >>= f) (n >>= g)
  getHere : R getHere getHere
  writeHere : ∀ name ty, R (writeHere name ty) (writeHere name ty)
  record : ∀ node ty, R (record node ty) (record node ty)
  fail : ∀ {α : Type} {c₁ c₂ : Standing}, c₁.method? = c₂.method? → ∀ cause node span,
    R (fail c₁ cause node span : Flow α) (fail c₂ cause node span)
  choice : ∀ {k₁ k₂ m₁ m₂ n₁ n₂ : Flow Ty}, R k₁ k₂ → R m₁ m₂ → R n₁ n₂ →
    R (choice k₁ m₁ n₁) (choice k₂ m₂ n₂)
  untilStable : ∀ {α : Type} {m n : Flow α} {fuel₁ fuel₂}, fuels fuel₁ fuel₂ → R m n →
    R (untilStable m fuel₁) (untilStable n fuel₂)
  block : ∀ {m n : Flow Ty} {fuel₁ fuel₂}, fuels fuel₁ fuel₂ → ∀ params, R m n →
    R (outward (Flow.untilStable (nested params m) fuel₁))
      (outward (Flow.untilStable (nested params n) fuel₂))

namespace Congruence
variable {R : ∀ {α : Type}, Flow α → Flow α → Prop} {fuels : Nat → Nat → Prop}

/-- A relation that goes through every single step goes through choices and passes. -/
theorem of_steps
    (give : ∀ {α : Type} (a : α), R (pure a) (pure a))
    (bind : ∀ {α β : Type} {m n : Flow α} {f g : α → Flow β}, R m n → (∀ a, R (f a) (g a)) →
      R (m >>= f) (n >>= g))
    (getHere : R Flow.getHere Flow.getHere)
    (setHere : ∀ tables, R (setHere tables) (setHere tables))
    (writeHere : ∀ name ty, R (Flow.writeHere name ty) (Flow.writeHere name ty))
    (record : ∀ node ty, R (Flow.record node ty) (Flow.record node ty))
    (fail : ∀ {α : Type} {c₁ c₂ : Standing}, c₁.method? = c₂.method? → ∀ cause node span,
      R (Flow.fail c₁ cause node span : Flow α) (Flow.fail c₂ cause node span))
    (outOfFuel : ∀ {α : Type} {m n : Flow α} {fuel₁ fuel₂}, fuels fuel₁ fuel₂ → R m n →
      fuel₁ = 0 ∨ fuel₂ = 0 → R (Flow.untilStable m fuel₁) (Flow.untilStable n fuel₂))
    (pred : ∀ {fuel₁ fuel₂}, fuels (fuel₁ + 1) (fuel₂ + 1) → fuels fuel₁ fuel₂)
    (nested : ∀ {m n : Flow Ty} params, R m n → R (nested params m) (nested params n))
    (outward : ∀ {m n : Flow (List Ty)}, R m n → R (outward m) (outward n)) :
    Congruence R fuels := by
  have until_ {α : Type} {m n : Flow α} {fuel₁ fuel₂} (hf : fuels fuel₁ fuel₂) (h : R m n) :
      R (Flow.untilStable m fuel₁) (Flow.untilStable n fuel₂) := by
    induction fuel₁ generalizing fuel₂ with
    | zero => exact outOfFuel hf h (.inl rfl)
    | succ fuel₁ ih =>
      cases fuel₂ with
      | zero => exact outOfFuel hf h (.inr rfl)
      | succ fuel₂ =>
        refine bind getHere fun before => bind h fun a => bind getHere fun after => ?_
        refine bind (setHere _) fun _ => ?_
        show R (ite (Tables.merge before after = before) _ _)
          (ite (Tables.merge before after = before) _ _)
        split
        · exact give _
        · exact bind (ih (pred hf)) fun _ => give _
  refine ⟨give, bind, getHere, writeHere, record, fail, fun hk hm hn => ?_, until_,
    fun hf params h => outward (until_ hf (nested params h))⟩
  exact bind hk fun _ => bind getHere fun before => bind hm fun _ => bind getHere fun _ =>
    bind (setHere before) fun _ => bind hn fun _ => bind getHere fun _ =>
    bind (setHere _) fun _ => give _

variable (hR : Congruence R fuels)
include hR

section
variable {expr₁ expr₂ : Expr → Flow Ty}

theorem body {stmts : List Expr} (h : ∀ stmt ∈ stmts, R (expr₁ stmt) (expr₂ stmt)) :
    R (body expr₁ stmts) (body expr₂ stmts) := by
  unfold Flow.body
  generalize Ty.nil = ty
  induction stmts generalizing ty with
  | nil => exact hR.give ty
  | cons stmt stmts ih =>
    rw [List.foldlM_cons, List.foldlM_cons]
    exact hR.bind (h stmt List.mem_cons_self) (ih fun e he => h e (List.mem_cons_of_mem _ he))

theorem mapM {args : List Expr} (h : ∀ arg ∈ args, R (expr₁ arg) (expr₂ arg)) :
    R (args.mapM expr₁) (args.mapM expr₂) := by
  induction args with
  | nil => exact hR.give []
  | cons arg args ih =>
    rw [List.mapM_cons, List.mapM_cons]
    exact hR.bind (h arg List.mem_cons_self) fun ty =>
      hR.bind (ih fun e he => h e (List.mem_cons_of_mem _ he)) fun tys => hR.give (ty :: tys)

theorem loopPass {cond : Expr} {stmts : List Expr} (hcond : R (expr₁ cond) (expr₂ cond))
    (hstmts : ∀ stmt ∈ stmts, R (expr₁ stmt) (expr₂ stmt)) :
    R (loopPass expr₁ cond stmts) (loopPass expr₂ cond stmts) :=
  hR.bind (hR.body hstmts) fun _ => hcond

end

variable {c₁ c₂ : Standing}

theorem readVar (hc : c₁.method? = c₂.method?) (id : NodeId) (span : Span) (name : String) :
    R (readVar c₁ id span name) (readVar c₂ id span name) := by
  refine hR.bind hR.getHere fun tables => ?_
  cases Tables.lookup tables name with
  | some ty => exact hR.give ty
  | none => exact hR.fail hc _ id span

variable {w₁ w₂ : Ways} {expr₁ expr₂ : Standing → Expr → Flow Ty} {entry₁ entry₂ : Entry}
  {fuel₁ fuel₂ : Nat}

/-- From the expressions inside a node, the block at hand, and what calls and definitions do. -/
theorem layer (hf : fuels fuel₁ fuel₂) (hmethod : c₁.method? = c₂.method?)
    (hblocks : c₁.blocks = c₂.blocks) {e : Expr}
    (hparts : ∀ part ∈ e.form.parts, R (expr₁ c₁ part) (expr₂ c₂ part))
    (hblock : ∀ block method? outer, c₁.blocks = (block, method?) :: outer →
      ∀ stmt ∈ block.body, R (expr₁ { c₁ with blocks := outer, method? } stmt)
        (expr₂ { c₂ with blocks := outer, method? } stmt))
    (hcall : ∀ name nameSpan args block, e.form = .call name nameSpan args block → ∀ signature,
      R (dispatch entry₁ c₁ e.id e.span name nameSpan signature block)
        (dispatch entry₂ c₂ e.id e.span name nameSpan signature block))
    (hdefine : ∀ d, e.form = .define d → R (define w₁ c₁ d) (define w₂ c₂ d)) :
    R (layer w₁ expr₁ entry₁ fuel₁ c₁ e) (layer w₂ expr₂ entry₂ fuel₂ c₂ e) := by
  refine hR.bind ?_ fun ty => hR.bind (hR.record e.id ty) fun _ => hR.give ty
  unfold form
  cases hform : e.form with
  | literal v => exact hR.give v.type
  | var x => exact hR.readVar hmethod e.id e.span x
  | define d => exact hdefine d hform
  | assign target value =>
    have hvalue := hparts value (by rw [hform]; exact List.mem_singleton_self value)
    exact hR.bind hvalue fun ty => hR.bind (hR.writeHere target.name ty) fun _ =>
      hR.bind (hR.record target.id ty) fun _ => hR.give ty
  | branch cond thenBody elseBody =>
    refine hR.choice (hparts cond ?_) (hR.body fun stmt hs => hparts stmt ?_)
      (hR.body fun stmt hs => hparts stmt ?_) <;> cases elseBody <;> simp_all [Form.parts]
  | loop cond stmts =>
    rw [hform, Form.parts] at hparts
    have hcond := hparts cond List.mem_cons_self
    refine hR.bind hcond fun _ => hR.bind (hR.untilStable hf (hR.loopPass hcond ?_)) fun _ =>
      hR.give _
    exact fun stmt hs => hparts stmt (List.mem_cons_of_mem cond hs)
  | call name nameSpan args block =>
    refine hR.bind (hR.mapM fun arg ha => hparts arg ?_) (hcall name nameSpan args block hform)
    rw [hform]
    cases block with
    | none => exact ha
    | some b => exact List.mem_append_left b.body ha
  | yield args =>
    refine hR.bind (hR.mapM fun arg ha => hparts arg (by rw [hform]; exact ha)) fun signature => ?_
    rw [← hblocks]
    cases hb : c₁.blocks with
    | nil => exact hR.fail hmethod _ e.id e.span
    | cons first outer =>
      obtain ⟨block, method?⟩ := first
      exact hR.bind (hR.block hf _ (hR.body (hblock block method? outer hb))) fun tys =>
        hR.bind (hR.record _ _) fun _ => hR.give _

end Congruence
end Flow
end FlowTyping
