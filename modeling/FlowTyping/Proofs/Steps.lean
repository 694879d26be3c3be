import FlowTyping.Inference
import FlowTyping.Proofs.Sequences

/-!
# Steps of the inference

What one step of the inference gives, and how a choice, a loop or a call that ends well comes apart into
the steps that it is made of.
-/

namespace FlowTyping
namespace Infer

variable {α β : Type} {m : Infer α} {f : α → Infer β} {s t u : Engine} {a : α} {b : β} {e : Stop}

/-! ### Single steps -/

@[simp] theorem pure_apply : (pure a : Infer α) s = .ok a s := rfl

@[simp] theorem get_apply : (get : Infer Engine) s = .ok s s := rfl

@[simp] theorem modify_apply (g : Engine → Engine) : (modify g : Infer Unit) s = .ok () (g s) := rfl

@[simp] theorem throw_apply : (throw e : Infer α) s = .error e s := rfl

@[simp] theorem context_apply : context s = .ok s.context s := rfl

@[simp] theorem snapshot_apply (scope : ScopeId) :
    snapshot scope s = .ok (s.scopes.snapshot scope) s := rfl

@[simp] theorem restore_apply (saved : Snapshot) :
    restore saved s = .ok () { s with scopes := s.scopes.restore saved } := rfl

@[simp] theorem record_apply (node : NodeId) (ty : Ty) :
    record node ty s = .ok () { s with module := s.module.record node ty } := rfl

@[simp] theorem updateMethod_apply (name : String) (g : Method → Method) :
    updateMethod name g s = .ok () { s with module := s.module.updateMethod name g } := rfl

@[simp] theorem fail_apply (cause : TypeError.Cause) (node : NodeId) (span : Span) :
    (fail cause node span : Infer α) s = .error (.error ⟨cause, node, span, s.context.method?⟩) s :=
  rfl

/-! ### Steps in another place -/

theorem within_of_ok {context : Context} (h : m { s with context } = .ok a t) :
    within context m s = .ok a { t with context := s.context } := by
  unfold within; rw [h]

theorem within_of_error {context : Context} (h : m { s with context } = .error e t) :
    within context m s = .error e { t with context := s.context } := by
  unfold within; rw [h]

theorem whileActive_of_ok {call : BlockCall} (h : m { s with active := call :: s.active } = .ok a t) :
    whileActive call m s = .ok a { t with active := t.active.erase call } := by
  unfold whileActive; rw [h]

theorem whileActive_of_error {call : BlockCall}
    (h : m { s with active := call :: s.active } = .error e t) :
    whileActive call m s = .error e { t with active := t.active.erase call } := by
  unfold whileActive; rw [h]

/-! ### Statements -/

variable {expr : Expr → Infer Ty}

@[simp] theorem body_nil : body expr [] = pure .nil := rfl

@[simp] theorem body_singleton (stmt : Expr) : body expr [stmt] = expr stmt := by
  funext s
  show (expr stmt >>= fun ty => pure ty) s = _
  cases h : expr stmt s with
  | ok a t => rw [bind_of_ok h, pure_apply]
  | error e t => rw [bind_of_error h]

theorem body_cons_cons (stmt next : Expr) (stmts : List Expr) :
    body expr (stmt :: next :: stmts) = (expr stmt >>= fun _ => body expr (next :: stmts)) := rfl

/-! ### Variables -/

section
variable {id : NodeId} {span : Span} {name : String}

theorem readVar_of_some {ty : Ty} (h : s.scopes.lookup s.context.scope name = some ty) :
    readVar id span name s = .ok ty s := by
  rw [readVar, bind_of_ok get_apply, bind_of_ok context_apply, h]
  rfl

theorem readVar_of_none (h : s.scopes.lookup s.context.scope name = none) :
    readVar id span name s = fail (.unboundVariable name) id span s := by
  rw [readVar, bind_of_ok get_apply, bind_of_ok context_apply, h]

end

/-! ### Choices and loops -/

/-- A choice that ends well: the condition, the one part, and the other part from the tables before
the first one; behind it the tables are merged. -/
theorem branch_ok {cond : Expr} {thenBody : List Expr} {elseBody : Option (List Expr)} {ty : Ty}
    (h : branch expr cond thenBody elseBody s = .ok ty t) :
    ∃ condType s₁ thenType s₂ elseType s₃, expr cond s = .ok condType s₁ ∧
      body expr thenBody s₁ = .ok thenType s₂ ∧
      body expr (elseBody.getD [])
        { s₂ with scopes := s₂.scopes.restore (s₁.scopes.snapshot s₁.context.scope) } =
          .ok elseType s₃ ∧
      t = { s₃ with
        scopes := s₃.scopes.restore
          ((s₂.scopes.snapshot s₁.context.scope).merge (s₃.scopes.snapshot s₁.context.scope)) } ∧
      ty = thenType.join elseType := by
  obtain ⟨condType, s₁, h₁, h⟩ := bind_eq_ok_iff.1 h
  obtain ⟨_, _, ⟨⟩, h⟩ := bind_eq_ok_iff.1 h
  obtain ⟨_, _, ⟨⟩, h⟩ := bind_eq_ok_iff.1 h
  obtain ⟨thenType, s₂, h₂, h⟩ := bind_eq_ok_iff.1 h
  obtain ⟨_, _, ⟨⟩, h⟩ := bind_eq_ok_iff.1 h
  obtain ⟨_, _, ⟨⟩, h⟩ := bind_eq_ok_iff.1 h
  obtain ⟨elseType, s₃, h₃, h⟩ := bind_eq_ok_iff.1 h
  cases h
  exact ⟨condType, s₁, thenType, s₂, elseType, s₃, h₁, h₂, h₃, rfl, rfl⟩

/-- Passes that end well: one pass, after which the merged tables are the ones before and nothing
more happens, or else the passes from the merged tables on. -/
theorem untilStable_ok {scope : ScopeId} {fuel : Nat} {as : List α}
    (h : untilStable scope m (fuel + 1) s = .ok as t) :
    ∃ a s₁ s₂, m s = .ok a s₁ ∧
      s₂ = { s₁ with
        scopes := s₁.scopes.restore
          ((s.scopes.snapshot scope).merge (s₁.scopes.snapshot scope)) } ∧
      if (s.scopes.snapshot scope).merge (s₁.scopes.snapshot scope) = s.scopes.snapshot scope
      then t = s₂ ∧ as = [a]
      else ∃ rest, untilStable scope m fuel s₂ = .ok rest t ∧ as = a :: rest := by
  obtain ⟨_, _, ⟨⟩, h⟩ := bind_eq_ok_iff.1 h
  obtain ⟨a, s₁, h₁, h⟩ := bind_eq_ok_iff.1 h
  obtain ⟨_, _, ⟨⟩, h⟩ := bind_eq_ok_iff.1 h
  obtain ⟨_, _, ⟨⟩, h⟩ := bind_eq_ok_iff.1 h
  refine ⟨a, s₁, _, h₁, rfl, ?_⟩
  split
  · next hstop =>
    rw [if_pos hstop] at h
    cases h
    exact ⟨rfl, rfl⟩
  · next hstop =>
    rw [if_neg hstop] at h
    obtain ⟨rest, s₃, h₂, h⟩ := bind_eq_ok_iff.1 h
    cases h
    exact ⟨rest, h₂, rfl⟩

theorem loop_ok {fuel : Nat} {cond : Expr} {stmts : List Expr} {ty : Ty}
    (h : loop expr fuel cond stmts s = .ok ty t) :
    ∃ condType s₁ tys, expr cond s = .ok condType s₁ ∧
      untilStable s₁.context.scope (loopPass expr cond stmts) fuel s₁ = .ok tys t ∧ ty = .nil := by
  obtain ⟨condType, s₁, h₁, h⟩ := bind_eq_ok_iff.1 h
  obtain ⟨_, _, ⟨⟩, h⟩ := bind_eq_ok_iff.1 h
  obtain ⟨tys, s₂, h₂, h⟩ := bind_eq_ok_iff.1 h
  cases h
  exact ⟨condType, s₁, tys, h₁, h₂, rfl⟩

/-! ### Calls and yields -/

/-- What a call does with the signature of its arguments. -/
def dispatch (entry : Entry) (id : NodeId) (span : Span) (name : String) (nameSpan : Span)
    (signature : Signature) (block : Option (Block Expr)) : Infer Ty := do
  match (← get).module.method? name with
  | none => fail (.unresolvedMethod name) id nameSpan
  | some method =>
    if method.arity ≠ signature.length then
      fail (.arityMismatch name method.arity signature.length) id span
    else
      entry id span method signature block

theorem call_eq (entry : Entry) (id : NodeId) (span : Span) (name : String) (nameSpan : Span)
    (args : List Expr) (block : Option (Block Expr)) :
    call expr entry id span name nameSpan args block =
      (args.mapM expr >>= fun signature => dispatch entry id span name nameSpan signature block) :=
  rfl

section
variable {entry : Entry} {id : NodeId} {span : Span} {name : String} {nameSpan : Span}
  {signature : Signature} {block : Option (Block Expr)} {method : Method}

theorem dispatch_of_none (hm : s.module.method? name = none) :
    dispatch entry id span name nameSpan signature block s =
      fail (.unresolvedMethod name) id nameSpan s := by
  rw [dispatch, bind_of_ok get_apply, hm]

theorem dispatch_of_arity (hm : s.module.method? name = some method)
    (harity : method.arity ≠ signature.length) :
    dispatch entry id span name nameSpan signature block s =
      fail (.arityMismatch name method.arity signature.length) id span s := by
  rw [dispatch, bind_of_ok get_apply, hm]
  exact congrFun (if_pos harity) s

theorem dispatch_of_some (hm : s.module.method? name = some method)
    (harity : method.arity = signature.length) :
    dispatch entry id span name nameSpan signature block s =
      entry id span method signature block s := by
  rw [dispatch, bind_of_ok get_apply, hm]
  exact congrFun (if_neg fun h => h harity) s

end

theorem yield_ok {fuel : Nat} {id : NodeId} {span : Span} {args : List Expr} {ty : Ty}
    (h : yield expr fuel id span args s = .ok ty t) :
    ∃ signature s₁ frame outer, args.mapM expr s = .ok signature s₁ ∧
      s₁.context.blocks = frame :: outer ∧ runBlock expr fuel frame outer signature s₁ = .ok ty t := by
  obtain ⟨signature, s₁, h₁, h⟩ := bind_eq_ok_iff.1 h
  rw [bind_of_ok context_apply] at h
  cases hblocks : s₁.context.blocks with
  | nil => rw [hblocks] at h; exact nomatch h
  | cons frame outer => rw [hblocks] at h; exact ⟨signature, s₁, frame, outer, h₁, hblocks, h⟩

/-! ### Nodes -/

theorem layer_ok {entry : Entry} {fuel : Nat} {e : Expr} {ty : Ty}
    (h : layer expr entry fuel e s = .ok ty t) :
    ∃ s₁, form expr entry fuel e.id e.span e.form s = .ok ty s₁ ∧
      t = { s₁ with module := s₁.module.record e.id ty } := by
  obtain ⟨ty', s₁, h₁, h⟩ := bind_eq_ok_iff.1 h
  cases h
  exact ⟨s₁, h₁, rfl⟩

end Infer
end FlowTyping
