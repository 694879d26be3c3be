import FlowTyping.Proofs.Sight

/-!
# Coming back to the context

`Infer.restores_expr`: however an evaluation ends, the context and the calls under way are those from
before.  An evaluation goes elsewhere in steps that come back (`Infer.within`, `Infer.whileActive`);
everything else leaves the context alone.
-/

namespace FlowTyping
namespace Infer

/-- However a step ends, it leaves the context and the calls under way as they were. -/
def Restores (m : Infer α) : Prop :=
  ∀ s, match m s with
    | .ok _ t => s.Extends t
    | .error _ t => s.Extends t

namespace Restores
variable {m : Infer α} {f : α → Infer β} {s t : Engine} {a : α} {e : Stop}

theorem ok (h : Restores m) (hm : m s = .ok a t) : s.Extends t := by
  have := h s
  rwa [hm] at this

theorem error (h : Restores m) (hm : m s = .error e t) : s.Extends t := by
  have := h s
  rwa [hm] at this

theorem bind (h : Restores m) (hf : ∀ a, Restores (f a)) : Restores (m >>= f) := by
  intro s
  cases hm : m s with
  | error e t => rw [bind_of_error hm]; exact h.error hm
  | ok a t =>
    rw [bind_of_ok hm]
    have hs := h.ok hm
    cases hft : f a t with
    | ok b u => exact hs.trans ((hf a).ok hft)
    | error e u => exact hs.trans ((hf a).error hft)

theorem give (a : α) : Restores (pure a : Infer α) := fun s => .refl s

theorem throw (e : Stop) : Restores (throw e : Infer α) := fun s => .refl s

theorem fail (cause : TypeError.Cause) (node : NodeId) (span : Span) :
    Restores (fail cause node span : Infer α) := fun s => .refl s

theorem get : Restores (get : Infer Engine) := fun s => .refl s

theorem context : Restores context := fun s => .refl s

theorem snapshot (scope : ScopeId) : Restores (snapshot scope) := fun s => .refl s

theorem restore (saved : Snapshot) : Restores (restore saved) :=
  fun s => ⟨rfl, rfl, .restore s.scopes saved⟩

theorem record (node : NodeId) (ty : Ty) : Restores (record node ty) := fun _ => ⟨rfl, rfl, .refl _⟩

theorem updateMethod (name : String) (g : Method → Method) : Restores (updateMethod name g) :=
  fun _ => ⟨rfl, rfl, .refl _⟩

theorem openScope (parent? : Option ScopeId) (params : List (Ident × Ty)) :
    Restores (openScope parent? params) := by
  intro s
  rw [openScope_apply]
  exact ⟨rfl, rfl, .opened _ _ _⟩

theorem within (c : Context) (h : Restores m) : Restores (within c m) := by
  intro s
  unfold Infer.within
  cases hm : m { s with context := c } with
  | ok a t => exact ⟨rfl, (h.ok hm).active, (h.ok hm).scopes⟩
  | error e t => exact ⟨rfl, (h.error hm).active, (h.error hm).scopes⟩

theorem whileActive (call : BlockCall) (h : Restores m) : Restores (whileActive call m) := by
  have back {s t : Engine} (h : Engine.Extends { s with active := call :: s.active } t) :
      s.Extends { t with active := t.active.erase call } := by
    refine ⟨h.context, ?_, h.scopes⟩
    show t.active.erase call = s.active
    rw [h.active]
    exact List.erase_cons_head call s.active
  intro s
  unfold Infer.whileActive
  cases hm : m { s with active := call :: s.active } with
  | ok a t => exact back (h.ok hm)
  | error e t => exact back (h.error hm)

theorem untilStable (scope : ScopeId) (h : Restores m) (fuel : Nat) :
    Restores (untilStable scope m fuel) := by
  induction fuel with
  | zero => exact throw _
  | succ fuel ih =>
    refine (snapshot scope).bind fun before => h.bind fun a => (snapshot scope).bind fun after => ?_
    refine (restore _).bind fun _ => ?_
    split
    · exact give _
    · exact ih.bind fun _ => give _

section
variable {expr : Expr → Infer Ty} (h : ∀ e, Restores (expr e))
include h

theorem body (stmts : List Expr) : Restores (body expr stmts) := by
  unfold Infer.body
  generalize Ty.nil = ty
  induction stmts generalizing ty with
  | nil => exact give ty
  | cons stmt stmts ih =>
    rw [List.foldlM_cons]
    exact (h stmt).bind ih

theorem mapM (args : List Expr) : Restores (args.mapM expr) := by
  induction args with
  | nil => exact give []
  | cons arg args ih =>
    rw [List.mapM_cons]
    exact (h arg).bind fun ty => ih.bind fun tys => give (ty :: tys)

theorem methodBody (limit : Nat) (id : NodeId) (span : Span) (method : Method)
    (signature : Signature) (blocks : List BlockFrame) :
    Restores (methodBody expr limit id span method signature blocks) := by
  refine context.bind fun c => ?_
  show Restores (if limit ≤ c.depth then _ else _)
  split
  · exact fail _ id span
  · exact (openScope none _).bind fun scope => (body h _).within _

theorem enter (limit : Nat) (id : NodeId) (span : Span) (method : Method) (signature : Signature)
    (block : Option (Block Expr)) :
    Restores (enter expr limit id span method signature block) := by
  have hbody := methodBody h limit id span method signature
  cases block with
  | none =>
    show Restores (plainCall expr limit id span method signature)
    unfold plainCall
    cases method.returns? signature with
    | some ty => exact give ty
    | none =>
      exact (updateMethod _ _).bind fun _ => (hbody []).bind fun ty => (updateMethod _ _).bind
        fun _ => give ty
  | some b =>
    refine get.bind fun s => ?_
    show Restores (if _ ∈ s.active then _ else _)
    split
    · exact give _
    · exact context.bind fun c => ((hbody _).whileActive _).bind fun ty => (updateMethod _ _).bind
        fun _ => give ty

theorem blockPass (frame : BlockFrame) (outer : List BlockFrame) (depth : Nat) (args : Signature) :
    Restores (blockPass expr frame outer depth args) :=
  (openScope _ _).bind fun _ => (body h _).within _

theorem yield (fuel : Nat) (id : NodeId) (span : Span) (args : List Expr) :
    Restores (yield expr fuel id span args) := by
  refine (mapM h args).bind fun signature => context.bind fun c => ?_
  cases c.blocks with
  | nil => exact fail _ id span
  | cons frame outer =>
    refine context.bind fun c => ?_
    exact ((blockPass h frame outer c.depth signature).untilStable _ fuel).bind fun tys =>
      (record _ _).bind fun _ => give _

theorem call {entry : Entry}
    (hentry : ∀ id span method signature block, Restores (entry id span method signature block))
    (id : NodeId) (span : Span) (name : String) (nameSpan : Span) (args : List Expr)
    (block : Option (Block Expr)) :
    Restores (call expr entry id span name nameSpan args block) := by
  refine (mapM h args).bind fun signature => get.bind fun s => ?_
  cases s.module.method? name with
  | none => exact fail _ id nameSpan
  | some method =>
    show Restores (if _ then _ else _)
    split
    · exact fail _ id span
    · exact hentry id span method signature block

theorem branch (cond : Expr) (thenBody : List Expr) (elseBody : Option (List Expr)) :
    Restores (branch expr cond thenBody elseBody) :=
  (h cond).bind fun _ => context.bind fun _ => (snapshot _).bind fun _ => (body h thenBody).bind
    fun _ => (snapshot _).bind fun _ => (restore _).bind fun _ => (body h _).bind fun _ =>
      (snapshot _).bind fun _ => (restore _).bind fun _ => give _

theorem loop (fuel : Nat) (cond : Expr) (stmts : List Expr) :
    Restores (loop expr fuel cond stmts) :=
  (h cond).bind fun _ => context.bind fun _ =>
    (((body h stmts).bind fun _ => h cond).untilStable _ fuel).bind fun _ => give _

theorem assign (target : Ident) (value : Expr) : Restores (assign expr target value) := by
  refine (h value).bind fun ty => bind (m := modify _) (fun s => ?_) fun _ => (record _ _).bind
    fun _ => give ty
  exact ⟨rfl, rfl, .setTable _ _ _⟩

theorem form {entry : Entry}
    (hentry : ∀ id span method signature block, Restores (entry id span method signature block))
    (fuel : Nat) (id : NodeId) (span : Span) (form : Form Expr) :
    Restores (Infer.form expr entry fuel id span form) := by
  unfold Infer.form
  cases form with
  | literal v => exact give _
  | var name =>
    refine get.bind fun s => context.bind fun c => ?_
    cases s.scopes.lookup c.scope name with
    | some ty => exact give ty
    | none => exact fail _ id span
  | assign target value => exact assign h target value
  | call name nameSpan args block => exact call h hentry id span name nameSpan args block
  | yield args => exact yield h fuel id span args
  | branch cond thenBody elseBody => exact branch h cond thenBody elseBody
  | loop cond stmts => exact loop h fuel cond stmts
  | define definition =>
    refine bind (m := modify _) (fun s => ?_) fun _ => give _
    exact ⟨rfl, rfl, .refl _⟩

end

end Restores

/-- An evaluation comes back to its context, from any state and however it ends. -/
theorem restores_expr (limit fuel : Nat) (e : Expr) : Restores (expr limit fuel e) := by
  induction fuel generalizing e with
  | zero => exact .throw _
  | succ fuel ih =>
    exact (Restores.form ih (Restores.enter ih limit) fuel e.id e.span e.form).bind fun ty =>
      (Restores.record e.id ty).bind fun _ => .give ty

end Infer
end FlowTyping
