import FlowTyping.Proofs.Accounts
import FlowTyping.Proofs.Binding
import FlowTyping.Proofs.OpenBodies
import FlowTyping.Proofs.Readings
import Mathlib

/-!
# Local names are bound

The parser takes a bare name for a variable if it is local by the text, and an evaluation looks it up in
the tables at hand.  `Program.unbound_of_parse`: in a program that was read from a text the two agree,
but for reads that come too early (`Program.Early`), in the value of the assignment itself or in the else
part of a choice whose then part assigns to the name.  The text goes on there as if the assignment had
been evaluated, and a run comes there without.

`Covered` is what carries this along a run: what is local at a place of the text is bound in the tables at
hand, up to names that may be read too early there.  Blocks keep it where they are given
(`Program.Hosts`), for the tables there only get more names until they run.
-/

namespace FlowTyping

open Naming

/-! ### Reads that come too early -/

/-- The second expression is inside the first one, in the same body of a method. -/
inductive Expr.Contains (outer : Expr) : Expr → Prop
  | self : Contains outer outer
  | part {e part : Expr} : Contains outer e → (∀ d, e.form ≠ .define d) → part ∈ e.form.parts →
    Contains outer part

namespace Program

/-- In the value of an assignment to `x`, or in the else part of a choice whose then part assigns to
`x`, a read of `x` may come too early. -/
def Early (p : Program) (x : String) (e : Expr) : Prop :=
  ∃ node, p.Has node ∧
    ((∃ target value, node.form = .assign target value ∧ target.name = x ∧ value.Contains e) ∨
      ∃ cond thenBody elseBody, node.form = .branch cond thenBody (some elseBody) ∧
        x ∈ thenBody.flatMap Expr.declared ∧ ∃ stmt ∈ elseBody, stmt.Contains e)

variable {p : Program} {x : String}

theorem Early.part {e part : Expr} (h : p.Early x e) (hform : ∀ d, e.form ≠ .define d)
    (hpart : part ∈ e.form.parts) : p.Early x part := by
  obtain ⟨node, hnode, ⟨target, value, hassign, hx, he⟩ | ⟨c, t, els, hbranch, hx, stmt, hstmt, he⟩⟩ := h
  · exact ⟨node, hnode, .inl ⟨target, value, hassign, hx, he.part hform hpart⟩⟩
  · exact ⟨node, hnode, .inr ⟨c, t, els, hbranch, hx, stmt, hstmt, he.part hform hpart⟩⟩

/-- What may come too early in a node may come too early in its parts. -/
theorem Has.early_part {X : String → Prop} {e part : Expr} (he : p.Has e)
    (hX : ∀ x, X x → p.Early x e) (hform : ∀ d, e.form ≠ .define d) (hpart : part ∈ e.form.parts) :
    p.Has part ∧ ∀ x, X x → p.Early x part :=
  ⟨he.part hpart, fun x hx => (hX x hx).part hform hpart⟩

/-- The node is a read of `x` that may come too early. -/
def ReadsEarly (p : Program) (x : String) (n : NodeId) : Prop :=
  ∃ e, p.Has e ∧ e.form = .var x ∧ e.id = n ∧ p.Early x e

end Program

/-- A run that ends like this has not found a name unbound, unless the read may come too early. -/
def Halt.Forgiven (p : Program) (h : Halt) : Prop :=
  ∀ err x, h = .error err → err.cause = .unboundVariable x → p.ReadsEarly x err.node

/-! ### What is local is bound -/

/-- What is local is bound, or may be read too early. -/
def Covered (σ : Naming) (X : String → Prop) (tables : List Bindings) : Prop :=
  ∀ x, σ.isLocal x = true → X x ∨ Tables.Binds tables x

theorem Covered.mono {σ : Naming} {X : String → Prop} {as bs : List Bindings} (h : Covered σ X as)
    (hnamed : Tables.Named as bs) : Covered σ X bs :=
  fun x hx => (h x hx).imp_right fun hx => hx.named hnamed

/-- More names in the scope. -/
theorem Covered.declares {σ τ : Naming} {X Y : String → Prop} {xs : List String} {tables : List Bindings}
    (h : Covered σ X tables) (hτ : σ.Declares xs τ) (hX : ∀ x, X x → Y x)
    (hxs : ∀ x ∈ xs, Y x ∨ Tables.Binds tables x) : Covered τ Y tables := by
  intro x hx
  rcases (hτ.isLocal x).1 hx with hx | hx
  · exact hxs x hx
  · exact (h x hx).imp_left (hX x)

/-- The block is written at a call where all is local that is bound in the tables. -/
def Program.Hosts (p : Program) (b : Block Expr) (tables : List Bindings) : Prop :=
  tables ≠ [] ∧ ∃ e name nameSpan args σ τ X, p.Has e ∧ e.form = .call name nameSpan args (some b) ∧
    Scoped Expr.Laid false σ b.params b.body τ ∧ (∀ x, X x → p.Early x e) ∧ Covered σ X tables

theorem Program.Hosts.mono {p : Program} {b : Block Expr} {as bs : List Bindings} (h : p.Hosts b as)
    (hnamed : Tables.Named as bs) : p.Hosts b bs := by
  obtain ⟨hne, e, name, nameSpan, args, σ, τ, X, he, hform, hscoped, hX, hcovered⟩ := h
  refine ⟨?_, e, name, nameSpan, args, σ, τ, X, he, hform, hscoped, hX, hcovered.mono hnamed⟩
  rintro rfl
  exact hne (List.length_eq_zero_iff.1 hnamed.length_eq)

/-- The methods are those of the program. -/
def Module.Known (p : Program) (M : Module) : Prop := ∀ m ∈ M.methods, p.Defines m.definition

/-- The methods and the blocks in force are those of the program, and the blocks have what they see. -/
structure Stacks.Ready (p : Program) (c : Standing) (s : Stacks) : Prop where
  methods : s.module.Known p
  here : s.here ≠ []
  held : List.Forall₂ (fun b tables => p.Hosts b.1 tables) c.blocks s.held

namespace Stacks.Ready
variable {p : Program} {c : Standing} {s t : Stacks}

theorem widens (h : s.Ready p c) (hst : s.Widens t) (hmethods : t.module.Known p) : t.Ready p c := by
  refine ⟨hmethods, hst.ne_nil h.here, ?_⟩
  have key {blocks : List (Block Expr × Option String)} {as bs : List (List Bindings)}
      (has : List.Forall₂ (fun b tables => p.Hosts b.1 tables) blocks as)
      (hle : List.Forall₂ Tables.Le as bs) :
      List.Forall₂ (fun b tables => p.Hosts b.1 tables) blocks bs := by
    induction has generalizing bs with
    | nil => cases hle; exact .nil
    | cons hb _ ih =>
      cases hle with
      | cons hab hrest => exact .cons (hb.mono hab.named) (ih hrest)
  exact key h.held hst.held

end Stacks.Ready

/-- Stacks to evaluate something on that is written where the naming is `σ`. -/
structure Stacks.Fits (p : Program) (c : Standing) (σ : Naming) (X : String → Prop) (s : Stacks) : Prop
    extends s.Ready p c where
  covered : Covered σ X s.here

namespace Flow
variable {p : Program} {P K : Stacks → Prop} {m : Flow α} {f : α → Flow β} {Q Q' : α → Stacks → Prop}
  {R : β → Stacks → Prop}

/-- From stacks that `P` holds of, a step that ends well leads to what `Q` says, and another end is
forgiven. -/
def Guarded (p : Program) (P : Stacks → Prop) (m : Flow α) (Q : α → Stacks → Prop) : Prop :=
  ∀ ⦃s⦄, P s → match m s with
    | .ok (a, t) => Q a t
    | .error h => h.Forgiven p

namespace Guarded

theorem give {a : α} (h : ∀ s, P s → Q a s) : Guarded p P (pure a) Q := fun s hs => h s hs

theorem bind (h : Guarded p P m Q) (hf : ∀ a, Guarded p (Q a) (f a) R) : Guarded p P (m >>= f) R := by
  intro s hs
  have hm := h hs
  cases hrun : m s with
  | error e => rw [hrun] at hm; rw [bind_of_error hrun]; exact hm
  | ok r => rw [hrun] at hm; rw [bind_of_ok hrun]; exact hf r.1 hm

/-- What is known of the run itself can be used behind it. -/
theorem ran (h : Guarded p P m Q) (hQ : ∀ s a t, P s → m s = .ok (a, t) → Q a t → Q' a t) :
    Guarded p P m Q' := by
  intro s hs
  have hm := h hs
  cases hrun : m s with
  | error e => rw [hrun] at hm; exact hm
  | ok r => rw [hrun] at hm; exact hQ s r.1 r.2 hs hrun hm

theorem weaken (h : Guarded p P m Q) (hP : ∀ s, K s → P s) : Guarded p K m Q := fun s hs => h (hP s hs)

theorem fail {c : Standing} {cause : TypeError.Cause} {node : NodeId} {span : Span}
    (h : ∀ x, cause ≠ .unboundVariable x) : Guarded p P (fail c cause node span : Flow α) Q := by
  intro s _ err x herr hcause
  cases herr
  exact absurd hcause (h x)

theorem unbound {c : Standing} {x : String} {node : NodeId} {span : Span} (h : p.ReadsEarly x node) :
    Guarded p P (Flow.fail c (.unboundVariable x) node span : Flow α) Q := by
  intro s _ err y herr hcause
  cases herr
  cases hcause
  exact h

/-- A step that only changes stacks. -/
theorem change {g : Stacks → Stacks} {Q : Unit → Stacks → Prop} (h : ∀ s, P s → Q () (g s)) :
    Guarded p P (modify g : Flow Unit) Q := fun s hs => h s hs

theorem at_each (h : ∀ s, P s → Guarded p (· = s) m Q) : Guarded p P m Q := fun s hs => h s hs rfl

theorem getHere {s : Stacks} {f : List Bindings → Flow β} (h : Guarded p (· = s) (f s.here) R) :
    Guarded p (· = s) (getHere >>= f) R := by
  rintro _ rfl
  exact h rfl

theorem setHere {s : Stacks} {f : Unit → Flow β} {tables : List Bindings}
    (h : Guarded p (· = { s with here := tables }) (f ()) R) :
    Guarded p (· = s) (setHere tables >>= f) R := by
  rintro _ rfl
  exact h rfl

theorem choice {cond thenPart elsePart : Flow Ty} {S : Stacks → Prop} {T : Stacks → Stacks → Prop}
    (hcond : Guarded p P cond fun _ => K) (hthen : ∀ s₁, K s₁ → Guarded p (· = s₁) thenPart fun _ => T s₁)
    (helse : ∀ s₁ s₂, K s₁ → T s₁ s₂ → Guarded p (· = { s₂ with here := s₁.here }) elsePart
      fun _ s₃ => S { s₃ with here := Tables.merge s₂.here s₃.here }) :
    Guarded p P (choice cond thenPart elsePart) fun _ => S := by
  refine hcond.bind fun _ => at_each fun s₁ hs₁ => getHere ?_
  refine (hthen s₁ hs₁).bind fun _ => at_each fun s₂ hs₂ => getHere (setHere ?_)
  refine (helse s₁ s₂ hs₁ hs₂).bind fun _ => at_each fun s₃ hs₃ => getHere (setHere (give ?_))
  rintro _ rfl
  exact hs₃

/-- Passes that each keep an invariant behind the merge. -/
theorem untilStable {I : Stacks → Prop} (h : ∀ s, I s → Guarded p (· = s) m fun _ t => I (s.merged t))
    (fuel : Nat) : Guarded p I (untilStable m fuel) fun _ => I := by
  induction fuel with
  | zero => exact fun s _ err _ herr => nomatch herr
  | succ fuel ih =>
    refine at_each fun s hs => getHere ((h s hs).bind fun a => at_each fun t ht => getHere (setHere ?_))
    have ht : ∀ u, u = s.merged t → I u := fun u hu => hu ▸ ht
    show Guarded p _ (ite (Tables.merge s.here t.here = s.here) _ _) _
    split
    · exact give ht
    · exact (ih.weaken ht).bind fun rest => give fun _ hu => hu

/-- Runs a step on other stacks. -/
theorem elsewhere {params : List (Ident × Ty)}
    {go : List Bindings → List (List Bindings) → List Bindings × List (List Bindings)}
    {back : List Bindings → List (List Bindings) → List Bindings → List (List Bindings) →
      List Bindings × List (List Bindings)}
    (h : ∀ s, P s → Guarded p
      (· = ⟨s.module.recordParams params, (go s.here s.held).1, (go s.here s.held).2⟩) m
      fun a t => Q a ⟨t.module, (back s.here s.held t.here t.held).1, (back s.here s.held t.here t.held).2⟩) :
    Guarded p P (elsewhere params m go back) Q := by
  intro s hs
  have hm := h s hs rfl
  cases hrun : m ⟨s.module.recordParams params, (go s.here s.held).1, (go s.here s.held).2⟩ with
  | error e => rw [hrun] at hm; rw [elsewhere_of_error hrun]; exact hm
  | ok r => rw [hrun] at hm; rw [elsewhere_of_ok hrun]; exact hm

theorem outward (h : ∀ s, P s → ∃ first rest, s.held = first :: rest ∧
      Guarded p (· = ⟨s.module, first, rest⟩) m fun a t => Q a ⟨t.module, s.here, t.here :: t.held⟩) :
    Guarded p P (outward m) Q := by
  intro s hs
  obtain ⟨first, rest, hheld, hm⟩ := h s hs
  have hm := hm rfl
  cases hrun : m ⟨s.module, first, rest⟩ with
  | error e => rw [hrun] at hm; rw [outward_of_error hheld hrun]; exact hm
  | ok r => rw [hrun] at hm; rw [outward_of_ok hheld hrun]; exact hm

end Guarded

/-- Evaluations lead from stacks that fit the place of an expression to those that fit the place
behind it. -/
def Sees (p : Program) (expr : Standing → Expr → Flow Ty) : Prop :=
  ∀ ⦃c e σ τ X⦄, p.Has e → e.Laid σ τ → σ.locals ≠ [] → (∀ x, X x → p.Early x e) →
    Guarded p (Stacks.Fits p c σ X) (expr c e) fun _ => Stacks.Fits p c τ X

namespace Sees
variable {expr : Standing → Expr → Flow Ty} {c : Standing} {e : Expr} {σ τ : Naming} {X : String → Prop}
  {es : List Expr} (h : Sees p expr)
include h

theorem body (hes : ∀ e ∈ es, p.Has e ∧ ∀ x, X x → p.Early x e) (hσ : σ.locals ≠ [])
    (hlaid : LaidAll σ es τ) :
    Guarded p (Stacks.Fits p c σ X) (body (expr c) es) fun _ => Stacks.Fits p c τ X := by
  unfold Flow.body
  generalize Ty.nil = ty
  induction es generalizing σ ty with
  | nil => obtain rfl := hlaid; exact .give fun _ hs => hs
  | cons e es ih =>
    obtain ⟨ρ, he, hrest⟩ := hlaid
    obtain ⟨hhas, hX⟩ := hes e List.mem_cons_self
    rw [List.foldlM_cons]
    exact (h hhas he hσ hX).bind fun ty =>
      ih (fun e he => hes e (List.mem_cons_of_mem _ he)) (he.declares hσ).inScope hrest ty

theorem mapM (hes : ∀ e ∈ es, p.Has e ∧ ∀ x, X x → p.Early x e) (hσ : σ.locals ≠ [])
    (hlaid : LaidAll σ es τ) :
    Guarded p (Stacks.Fits p c σ X) (es.mapM (expr c)) fun _ => Stacks.Fits p c τ X := by
  induction es generalizing σ with
  | nil => obtain rfl := hlaid; exact .give fun _ hs => hs
  | cons e es ih =>
    obtain ⟨ρ, he, hrest⟩ := hlaid
    obtain ⟨hhas, hX⟩ := hes e List.mem_cons_self
    rw [List.mapM_cons]
    refine (h hhas he hσ hX).bind fun ty => ?_
    exact (ih (fun e he => hes e (List.mem_cons_of_mem _ he)) (he.declares hσ).inScope hrest).bind
      fun tys => .give fun _ hs => hs

/-! ### Calls -/

section
variable {τ₀ : Naming} (hp : LaidAll .start p.stmts τ₀) {limit : Nat} {id : NodeId} {span : Span}
  {method : Method} {signature : Signature} {block : Option (Block Expr)}

/-- What a call needs of the stacks: those of the block that goes with it are at hand. -/
def Stands (p : Program) (c : Standing) (block : Option (Block Expr)) (s : Stacks) : Prop :=
  s.Ready p c ∧ ∀ b, block = some b → p.Hosts b s.here

include hp

theorem methodBody (hmethod : p.Defines method.definition) (harity : method.arity = signature.length) :
    Guarded p (Stands p c block) (methodBody expr limit c id span method signature block)
      fun _ t => t.module.Known p := by
  by_cases hlimit : limit ≤ c.depth
  · rw [methodBody_of_le hlimit]
    exact .fail nofun
  obtain ⟨node, hnode, hform⟩ := hmethod
  obtain ⟨σ, τ, -, hlaid⟩ := hnode.laid hp
  obtain ⟨χ, hlaid, -, -⟩ := Expr.laid_iff.1 hlaid
  rw [hform] at hlaid
  obtain ⟨-, -, ρ, υ, hparams, hbody, -⟩ := hlaid
  have hin : (ρ.declareAll method.definition.params).locals ≠ [] := by
    refine (Declares.declareAll ?_ _).inScope
    rw [locals_of_names hparams]
    exact List.cons_ne_nil _ _
  have hstmts (e : Expr) (he : e ∈ method.definition.body) :
      p.Has e ∧ ∀ x, (fun _ => False : String → Prop) x → p.Early x e :=
    ⟨hnode.part (by rw [hform]; exact he), fun _ h => h.elim⟩
  have hnames : (method.definition.params.zip signature).map (fun param => param.1.name) =
      method.definition.params.map Ident.name := by
    have hzip := List.map_fst_zip (Nat.le_of_eq harity)
    rw [← congrArg (List.map Ident.name) hzip, List.map_map]
    rfl
  have hcovered : Covered (ρ.declareAll method.definition.params) (fun _ => False)
      [.ofParams (method.definition.params.zip signature)] := by
    intro x hx
    rcases (isLocal_declareAll hparams x).1 hx with hx | ⟨hclosed, -⟩
    · exact .inr (Tables.binds_cons.2 (.inl (Bindings.isSome_ofParams.2 (hnames ▸ hx))))
    · exact nomatch hclosed
  have hmethods (M : Module) (hM : M.Known p) :
      (M.recordParams (method.definition.params.zip signature)).Known p := by
    unfold Module.Known; rw [Module.methods_recordParams]; exact hM
  cases block with
  | none =>
    rw [methodBody_none hlimit]
    refine .elsewhere fun s hs => ((h.body hstmts hin hbody).weaken ?_).ran fun _ _ _ _ _ ht => ht.methods
    rintro _ rfl
    exact ⟨⟨hmethods _ hs.1.methods, List.cons_ne_nil _ _, .nil⟩, hcovered⟩
  | some b =>
    rw [methodBody_some hlimit]
    refine .elsewhere fun s hs => ((h.body hstmts hin hbody).weaken ?_).ran fun _ _ _ _ _ ht => ht.methods
    rintro _ rfl
    exact ⟨⟨hmethods _ hs.1.methods, List.cons_ne_nil _ _, .cons (hs.2 b rfl) hs.1.held⟩, hcovered⟩

theorem enter (hmethod : p.Defines method.definition) (harity : method.arity = signature.length) :
    Guarded p (Stands p c block) (enter .plain expr limit c id span method signature block)
      fun _ t => t.module.Known p := by
  have hbody : Guarded p (Stands p c block) (Flow.methodBody expr limit c id span method signature block)
      fun _ t => t.module.Known p := h.methodBody hp hmethod harity
  have hknown (M : Module) (hM : M.Known p) {name : String} {g : Method → Method}
      (hg : ∀ m, (g m).definition = m.definition) : (M.updateMethod name g).Known p := by
    intro m hm
    obtain ⟨old, hold, hdefinition, -⟩ := Module.mem_updateMethod hg hm
    rw [hdefinition]
    exact hM old hold
  cases block with
  | none =>
    rw [enter_none not_false, plainCall]
    cases Ways.plain.known method signature with
    | some ty => exact .give fun s hs => hs.1.methods
    | none =>
      refine Guarded.bind (Q := fun _ => Stands p c none) (.change fun s hs => ?_) fun _ => ?_
      · exact ⟨hs.1.widens ⟨.refl _, (Stacks.Widens.refl s).held⟩ (hknown _ hs.1.methods fun _ => rfl),
          fun _ hb => by cases hb⟩
      · refine hbody.bind fun ty => ?_
        exact Guarded.bind (Q := fun _ t => t.module.Known p)
          (.change fun t ht => hknown _ ht fun _ => rfl) fun _ => .give fun _ ht => ht
  | some b =>
    rw [enter_some not_false]
    by_cases hmem : ⟨method.name, signature, b.id⟩ ∈ c.active
    · rw [blockCall_of_mem hmem]
      exact .give fun s hs => hs.1.methods
    · rw [blockCall_of_notMem hmem]
      refine hbody.bind fun ty => ?_
      exact Guarded.bind (Q := fun _ t => t.module.Known p)
        (.change fun t ht => hknown _ ht fun _ => rfl) fun _ => .give fun _ ht => ht

theorem dispatch {name : String} {nameSpan : Span} :
    Guarded p (Stands p c block) (dispatch (Flow.enter .plain expr limit) c id span name nameSpan
      signature block) fun _ t => t.module.Known p := by
  have hfail (cause : TypeError.Cause) (span : Span) (hcause : ∀ x, cause ≠ .unboundVariable x) :
      Guarded p (Stands p c block) (fail c cause id span : Flow Ty) fun _ t => t.module.Known p :=
    .fail hcause
  intro s hs
  cases hm : s.module.method? name with
  | none => rw [dispatch_of_none hm]; exact hfail _ _ (by nofun) hs
  | some method =>
    by_cases harity : method.arity = signature.length
    · rw [dispatch_of_some hm harity]
      exact h.enter hp (hs.1.methods _ (Module.mem_of_method? hm)) harity hs
    · rw [dispatch_of_arity hm harity]; exact hfail _ _ (by nofun) hs

end

/-- The passes over the body of a block, on the tables that it is hosted by. -/
theorem passes (hb : ∀ c e, Binds e.declared (expr c e)) {b : Block Expr} {signature : Signature}
    (fuel : Nat) : Guarded p (fun s => s.Ready p c ∧ p.Hosts b s.here)
      (Flow.untilStable (nested (Infer.paramTypes b.params signature) (Flow.body (expr c) b.body)) fuel)
      fun _ t => t.module.Known p := by
  refine .at_each fun s ⟨hs, hne, e, name, nameSpan, args, σ, τ, X, he, hform, hscoped, hX, hcovered⟩ => ?_
  obtain ⟨ρ, υ, hparams, hbody, -⟩ := hscoped
  have hin : (ρ.declareAll b.params).locals ≠ [] := by
    refine (Declares.declareAll ?_ _).inScope
    rw [locals_of_names hparams]
    exact List.cons_ne_nil _ _
  have hpart (stmt : Expr) (hstmt : stmt ∈ b.body) : p.Has stmt ∧ ∀ x, X x → p.Early x stmt :=
    he.early_part hX (by rw [hform]; nofun) (by rw [hform]; exact List.mem_append_right _ hstmt)
  have hnames : (Infer.paramTypes b.params signature).map (fun param => param.1.name) =
      b.params.map Ident.name := by
    rw [Infer.paramTypes, List.map_map, ← congrArg (List.map Ident.name) (List.zipIdx_map_fst 0 b.params),
      List.map_map]
    rfl
  have hwidens : Widens (nested (Infer.paramTypes b.params signature) (Flow.body (expr c) b.body)) :=
    Widens.nested _ (Binds.body (hb c) b.body).widens
  refine ((Guarded.untilStable (I := Stacks.Fits p c σ X) (fun s hs => ?_) fuel).weaken ?_).ran
    fun _ _ _ _ _ ht => ht.methods
  · refine Guarded.ran (Q := fun _ t => t.module.Known p) (.elsewhere ?_) ?_
    · rintro _ rfl
      refine ((h.body hpart hin hbody).weaken ?_).ran fun _ _ _ _ _ ht => ht.methods
      rintro _ rfl
      refine ⟨⟨?_, List.cons_ne_nil _ _, hs.held⟩, fun x hx => ?_⟩
      · unfold Module.Known; rw [Module.methods_recordParams]; exact hs.methods
      · rcases (isLocal_declareAll hparams x).1 hx with hx | ⟨-, hx⟩
        · exact .inr (Tables.binds_cons.2 (.inl (Bindings.isSome_ofParams.2 (hnames ▸ hx))))
        · exact (hs.covered x hx).imp_right fun hx => Tables.binds_cons.2 (.inr hx)
    · rintro _ ty t rfl hrun ht
      have hmerged := (hwidens hrun).le_merged.widens
      exact ⟨hs.toReady.widens hmerged ht, hs.covered.mono hmerged.here⟩
  · rintro _ rfl
    exact ⟨hs, hcovered⟩

/-! ### Nodes -/

section
variable {ρ : Naming} {limit fuel : Nat} (he : p.Has e) (hσ : σ.locals ≠ [])
  (hX : ∀ x, X x → p.Early x e) (hlaid : Form.LaidBy Expr.Laid σ e.form ρ)

include he hσ hX hlaid

theorem assign {target : Ident} {value : Expr} (hform : e.form = .assign target value) :
    Guarded p (Stacks.Fits p c σ X) (assign (expr c) target value) fun _ t => t.module.Known p := by
  rw [hform] at hlaid
  obtain ⟨-, -, hvalue⟩ := hlaid
  obtain ⟨hhas, hvalueX⟩ := he.early_part hX (by rw [hform]; nofun)
    (show value ∈ e.form.parts by rw [hform]; exact List.mem_singleton_self _)
  have hdeclare : σ.Declares [target.name] (σ.declare target.name).fresh :=
    (Declares.declare hσ target.name).congr rfl rfl
  have hY (x : String) : X x ∨ x = target.name → p.Early x value := by
    rintro (hx | rfl)
    · exact hvalueX x hx
    · exact ⟨e, he, .inl ⟨target, value, hform, rfl, .self⟩⟩
  refine ((h hhas hvalue hdeclare.inScope hY).weaken fun s hs => ?_).bind fun ty => ?_
  · exact ⟨hs.toReady, hs.covered.declares hdeclare (fun _ => .inl)
      fun x hx => .inl (.inr (List.mem_singleton.1 hx))⟩
  · refine Guarded.bind (Q := fun _ t => t.module.Known p) (.change fun s hs => hs.methods) fun _ => ?_
    exact Guarded.bind (Q := fun _ t => t.module.Known p) (.change fun s hs => hs) fun _ =>
      .give fun _ hs => hs

theorem branch {cond : Expr} {thenBody : List Expr} {elseBody : Option (List Expr)}
    (hform : e.form = .branch cond thenBody elseBody) :
    Guarded p (Stacks.Fits p c σ X) (branch (expr c) cond thenBody elseBody)
      fun _ t => t.module.Known p := by
  rw [hform] at hlaid
  obtain ⟨υ, χ, hcond, hthen, helse⟩ := hlaid
  have hparts : e.form.parts = cond :: (thenBody ++ elseBody.getD []) := by
    rw [hform, Form.parts_branch]
  have hpart (stmt : Expr) (hstmt : stmt ∈ e.form.parts) : p.Has stmt ∧ ∀ x, X x → p.Early x stmt :=
    he.early_part hX (by rw [hform]; nofun) hstmt
  have hυ := (hcond.declares hσ).inScope
  have hdeclares := LaidAll.declares hυ hthen
  obtain ⟨hhas, hcondX⟩ := hpart cond (by rw [hparts]; exact List.mem_cons_self)
  refine .choice (K := Stacks.Fits p c υ X) (T := fun _ => Stacks.Fits p c χ X)
    (h hhas hcond hσ hcondX) (fun s₁ hs₁ => ?_) fun s₁ s₂ hs₁ hs₂ => ?_
  · refine (h.body (fun stmt hs => hpart stmt ?_) hυ hthen).weaken fun s hs => hs ▸ hs₁
    rw [hparts]; simp [hs]
  · -- The tables are those from before, and the text goes on behind the then part.
    have hY (stmt : Expr) (hstmt : stmt ∈ elseBody.getD []) (x : String) :
        X x ∨ x ∈ thenBody.flatMap Expr.declared → p.Early x stmt := by
      rintro (hx | hx)
      · exact (hpart stmt (by rw [hparts]; simp [hstmt])).2 x hx
      · cases elseBody with
        | none => exact absurd hstmt List.not_mem_nil
        | some stmts => exact ⟨e, he, .inr ⟨cond, thenBody, stmts, hform, hx, stmt, hstmt, .self⟩⟩
    have hhas (stmt : Expr) (hstmt : stmt ∈ elseBody.getD []) :=
      (hpart stmt (by rw [hparts]; simp [hstmt])).1
    refine ((h.body (fun stmt hs => ⟨hhas stmt hs, hY stmt hs⟩) hdeclares.inScope helse).weaken ?_).ran
      fun _ _ t _ _ ht => ht.methods
    rintro _ rfl
    refine ⟨⟨hs₂.methods, hs₁.here, hs₂.held⟩, hs₁.covered.declares hdeclares (fun _ => .inl) ?_⟩
    exact fun x hx => .inl (.inr hx)

theorem loop (hb : ∀ c e, Binds e.declared (expr c e)) {cond : Expr} {stmts : List Expr}
    (hform : e.form = .loop cond stmts) :
    Guarded p (Stacks.Fits p c σ X) (loop (expr c) fuel cond stmts) fun _ t => t.module.Known p := by
  rw [hform] at hlaid
  obtain ⟨υ, hcond, hbody⟩ := hlaid
  have hpart (stmt : Expr) (hstmt : stmt ∈ cond :: stmts) : p.Has stmt ∧ ∀ x, X x → p.Early x stmt :=
    he.early_part hX (by rw [hform]; nofun) (by rw [hform]; exact hstmt)
  obtain ⟨hhas, hcondX⟩ := hpart cond List.mem_cons_self
  have hdeclares := hcond.declares hσ
  have hrun := h.body (c := c) (X := X) (fun stmt hs => hpart stmt (List.mem_cons_of_mem _ hs))
    hdeclares.inScope hbody
  have hσρ := hdeclares.trans (LaidAll.declares hdeclares.inScope hbody)
  refine (h hhas hcond hσ hcondX).bind fun _ => ?_
  refine (Guarded.untilStable (fun s hs => ?_) fuel).bind fun _ => .give fun _ ht => ht.methods
  have hpass : Guarded p (· = s) (loopPass (expr c) cond stmts) fun _ => Stacks.Fits p c υ X := by
    refine (hrun.weaken (by rintro _ rfl; exact hs)).bind fun _ => ?_
    refine (h hhas hcond hσ hcondX).weaken fun t ht => ?_
    exact ⟨ht.toReady, fun x hx => ht.covered x ((hσρ.isLocal x).2 (.inr hx))⟩
  -- Behind the merge all is bound that was bound before the pass.
  refine hpass.ran ?_
  rintro _ _ t rfl hrun ht
  have hwidens :=
    (((Binds.body (hb c) stmts).andThen fun _ => (hb c cond).widens).widens hrun).le_merged.widens
  exact ⟨hs.toReady.widens hwidens ht.methods, hs.covered.mono hwidens.here⟩

theorem call {τ₀ : Naming} (hp : LaidAll .start p.stmts τ₀) {name : String} {nameSpan : Span}
    {args : List Expr} {block : Option (Block Expr)} (hform : e.form = .call name nameSpan args block) :
    Guarded p (Stacks.Fits p c σ X) (call expr (Flow.enter .plain expr limit) c e.id e.span name nameSpan
      args block) fun _ t => t.module.Known p := by
  rw [hform] at hlaid
  obtain ⟨-, υ, hargs, hblock⟩ := hlaid
  have hpart (arg : Expr) (harg : arg ∈ args) : p.Has arg ∧ ∀ x, X x → p.Early x arg :=
    he.early_part hX (by rw [hform]; nofun) (by rw [hform]; exact Form.mem_parts_of_arg harg)
  refine (h.mapM hpart hσ hargs).bind fun signature => (h.dispatch hp).weaken fun s hs => ?_
  refine ⟨hs.toReady, fun b hb => ⟨hs.here, e, name, nameSpan, args, υ, ?_⟩⟩
  subst hb
  obtain ⟨χ, hscoped, -, -⟩ := hblock
  exact ⟨χ, X, he, hform, hscoped, hX, hs.covered⟩

theorem yield (hb : ∀ c e, Binds e.declared (expr c e)) {args : List Expr}
    (hform : e.form = .yield args) :
    Guarded p (Stacks.Fits p c σ X) (yield expr fuel c e.id e.span args) fun _ t => t.module.Known p := by
  rw [hform] at hlaid
  have hpart (arg : Expr) (harg : arg ∈ args) : p.Has arg ∧ ∀ x, X x → p.Early x arg :=
    he.early_part hX (by rw [hform]; nofun) (by rw [hform]; exact harg)
  refine (h.mapM hpart hσ hlaid).bind fun signature => ?_
  cases hblocks : c.blocks with
  | nil => exact .fail nofun
  | cons frame outer =>
    obtain ⟨b, method?⟩ := frame
    refine Guarded.bind (Q := fun _ t => t.module.Known p) (.outward fun s hs => ?_) fun tys => ?_
    · have hheld := hs.held
      rw [hblocks] at hheld
      cases hstacks : s.held with
      | nil => rw [hstacks] at hheld; exact nomatch hheld
      | cons first rest =>
        rw [hstacks] at hheld
        cases hheld with
        | cons hhosts hrest =>
          refine ⟨first, rest, rfl, (h.passes hb fuel).weaken ?_⟩
          rintro _ rfl
          exact ⟨⟨hs.methods, hhosts.1, hrest⟩, hhosts⟩
    · exact Guarded.bind (Q := fun _ t => t.module.Known p) (.change fun s hs => hs) fun _ =>
        .give fun _ hs => hs

end

end Sees

section
variable {c : Standing} {e : Expr} {σ : Naming} {X : String → Prop} (he : p.Has e)
include he

/-- A variable is local where it is read. -/
theorem readVar_guarded (hX : ∀ x, X x → p.Early x e) {x : String} (hx : σ.isLocal x = true)
    (hform : e.form = .var x) :
    Guarded p (Stacks.Fits p c σ X) (readVar c e.id e.span x) fun _ t => t.module.Known p := by
  refine .at_each fun s hs => .getHere ?_
  cases hlookup : Tables.lookup s.here x with
  | some ty => exact .give (by rintro _ rfl; exact hs.methods)
  | none =>
    refine .unbound ⟨e, he, hform, rfl, (hs.covered x hx).elim (hX x) fun hbinds => ?_⟩
    rw [← Tables.isSome_lookup_iff, hlookup] at hbinds
    exact nomatch hbinds

theorem define_guarded {d : Definition Expr} (hform : e.form = .define d) :
    Guarded p (Stacks.Fits p c σ X) (define .plain c d) fun _ t => t.module.Known p := by
  intro s hs
  rw [define_of_not not_false]
  intro m hm
  rcases Module.mem_putMethod hm with rfl | hm
  · exact ⟨e, he, hform⟩
  · exact hs.methods m hm

end

/-- Evaluations on stacks lead from stacks that fit to stacks that fit. -/
theorem sees_expr {τ₀ : Naming} (hp : LaidAll .start p.stmts τ₀) (limit fuel : Nat) :
    Sees p (expr .plain limit fuel) := by
  induction fuel with
  | zero => exact fun _ _ _ _ _ _ _ _ _ s _ err _ herr => nomatch herr
  | succ fuel ih =>
    intro c e σ τ X he hlaid hσ hX
    have hbinds := binds_expr .plain limit
    obtain ⟨ρ, hform, -, -⟩ := Expr.laid_iff.1 hlaid
    have hknown : Guarded p (Stacks.Fits p c σ X)
        (Flow.form .plain (expr .plain limit fuel) (enter .plain (expr .plain limit fuel) limit) fuel c e.id
          e.span e.form) fun _ t => t.module.Known p := by
      cases hcase : e.form with
      | literal v => exact .give fun s hs => hs.methods
      | var x => rw [hcase] at hform; exact readVar_guarded he hX hform.2.1 hcase
      | assign target value => exact ih.assign he hσ hX hform hcase
      | call name nameSpan args block => exact ih.call he hσ hX hform hp hcase
      | yield args => exact ih.yield he hσ hX hform (hbinds fuel) hcase
      | branch cond thenBody elseBody => exact ih.branch he hσ hX hform hcase
      | loop cond stmts => exact ih.loop he hσ hX hform (hbinds fuel) hcase
      | define d => exact define_guarded he hcase
    have hlayer : Guarded p (Stacks.Fits p c σ X) (expr .plain limit (fuel + 1) c e)
        fun _ t => t.module.Known p :=
      hknown.bind fun ty => Guarded.bind (Q := fun _ t => t.module.Known p) (.change fun s hs => hs)
        fun _ => .give fun _ hs => hs
    refine hlayer.ran fun s ty t hs hrun ht => ?_
    have hwidens := (hbinds (fuel + 1) c e).widens hrun
    refine ⟨hs.toReady.widens hwidens ht, ?_⟩
    exact (hs.covered.mono hwidens.here).declares (hlaid.declares hσ) (fun _ => id)
      fun x hx => .inr ((hbinds (fuel + 1) c e).binds hs.here hrun x hx)

end Flow

namespace Program
variable {p : Program} {limit : Nat}

/-- Where a variable is found to be unbound, the read comes too early. -/
theorem readsEarly_of_infer {τ : Naming} (hp : LaidAll .start p.stmts τ) {err : TypeError} {x : String}
    (h : p.infer limit = .error (.error err)) (hcause : err.cause = .unboundVariable x) :
    p.ReadsEarly x err.node := by
  have hstart : (Engine.initial.toStacks 0 []).Fits p .top .start fun _ => False := by
    refine ⟨⟨fun m hm => absurd hm List.not_mem_nil, ?_, .nil⟩, fun x hx => ?_⟩
    · show (Engine.initial.scopes.chain 0).map _ ≠ []
      rw [Scopes.chain]
      exact List.cons_ne_nil _ _
    · exact absurd hx Bool.false_ne_true
  have hrun := (Flow.sees_expr hp limit (p.fuel limit)).body (fun e he => ⟨.stmt he, fun _ h => h.elim⟩)
    (List.cons_ne_nil _ _) hp hstart
  rw [p.infer_eq_run] at h
  cases hbody : Flow.body (Flow.expr .plain limit (p.fuel limit) .top) p.stmts
      (Engine.initial.toStacks 0 []) with
  | ok r => rw [hbody] at h; cases h
  | error halt =>
    rw [hbody] at h hrun
    cases halt with
    | error e => cases h; exact hrun _ x rfl hcause
    | _ => cases h

end Program

/-- A breakpoint can be left out where the run ends anyhow. -/
theorem Infer.Below.exprUntil_of_ends {X : Stop → Prop} (hX : X .outOfFuel) {limit : Nat}
    {stop stop' : Expr → Engine → Bool}
    (h : ∀ fuel e s, stop' e s = true → stop e s = true ∨
      ∃ why t, X why ∧ Infer.exprUntil stop limit (fuel + 1) e s = .error why t) (fuel : Nat) (e : Expr) :
    Below X (exprUntil stop limit fuel e) (exprUntil stop' limit fuel e) := by
  induction fuel generalizing e with
  | zero => exact Below.refl _
  | succ fuel ih =>
    intro s
    by_cases hstop : stop e s = true
    · refine .inl ⟨_, s, hX, ?_⟩
      unfold exprUntil
      exact if_pos hstop
    · by_cases hstop' : stop' e s = true
      · obtain ⟨why, t, hwhy, hrun⟩ := (h fuel e s hstop').resolve_left hstop
        exact .inl ⟨why, t, hwhy, hrun⟩
      · unfold exprUntil
        rw [if_neg hstop, if_neg hstop']
        exact Below.layer ih hX (Nat.le_refl _) (Below.enter ih limit) e s

namespace Program
variable {p : Program} {limit : Nat} {τ : Naming}

/-- Identities tell expressions apart. -/
theorem eq_of_id_eq (hp : LaidAll .start p.stmts τ) {e e' : Expr} (he : p.Has e) (he' : p.Has e')
    (hid : e'.id = e.id) : e' = e := by
  obtain ⟨s, hs, rfl⟩ := he.site
  obtain ⟨q, hq, rfl⟩ := he'.site
  have hnodup := (numbers_of_laid hp).nodup
  rw [site_unique hnodup hq hs (n := s.expr.id) (hid ▸ List.mem_cons_self) List.mem_cons_self]

/-- Wherever a run comes to a variable whose read cannot come too early, it is bound. -/
theorem always_bound (hp : LaidAll .start p.stmts τ) (limit : Nat) :
    p.Always limit fun e s => ∀ x, e.form = .var x → ¬ p.Early x e →
      (s.scopes.lookup s.context.scope x).isSome := by
  classical
  intro stop hstop s hrun
  let astray : Expr → Engine → Bool := fun e s => decide (¬ p.Visits e s)
  have hastray (s : Engine) : Infer.body (Infer.exprUntil astray limit (p.fuel limit)) p.stmts .initial ≠
      .error .outOfFuel s := p.always_visits limit astray (fun _ _ h => of_decide_eq_true h) s
  let X (why : Stop) : Prop := why = .outOfFuel ∨
    ∃ err x, why = .error err ∧ err.cause = .unboundVariable x ∧ ¬ p.ReadsEarly x err.node
  have hends (fuel : Nat) (e : Expr) (s : Engine) (h : stop e s = true) : astray e s = true ∨
      ∃ why t, X why ∧ Infer.exprUntil astray limit (fuel + 1) e s = .error why t := by
    by_cases hvisits : p.Visits e s
    · have hnot : ¬ astray e s = true := by simp [astray, hvisits]
      have hQ := hstop e s h
      push Not at hQ
      obtain ⟨x, hform, hearly, hlookup⟩ := hQ
      refine .inr ⟨.error ⟨.unboundVariable x, e.id, e.span, s.context.method?⟩, s,
        .inr ⟨_, x, rfl, rfl, ?_⟩, ?_⟩
      · rintro ⟨e', he', -, hid, he'early⟩
        exact hearly (eq_of_id_eq hp hvisits.has he' hid ▸ he'early)
      · unfold Infer.exprUntil
        rw [if_neg hnot]
        refine bind_of_error ?_
        rw [hform]
        exact Infer.readVar_of_none (Option.not_isSome_iff_eq_none.1 hlookup)
    · exact .inl (by simp [astray, hvisits])
  have hbelow := Infer.Below.body (Infer.Below.exprUntil_of_ends (.inl rfl) hends (p.fuel limit))
    p.stmts .initial
  rcases hbelow with ⟨why, t, hwhy | ⟨err, x, rfl, hcause, hnot⟩, hlate⟩ | heq
  · exact hastray t (hwhy ▸ hlate)
  · rcases Infer.Below.body (Infer.Below.exprUntil_expr astray limit (p.fuel limit)) p.stmts .initial with
      ⟨_, u, rfl, hfuel⟩ | heq
    · exact hastray u hfuel
    · have hinfer : p.infer limit = .error (.error err) := by
        unfold infer run
        rw [← heq, hlate]
      exact hnot (readsEarly_of_infer hp hinfer hcause)
  · exact hastray s (heq.trans hrun)

/-- In a program that was read from a text, a variable that inference finds unbound is read too early,
and wherever a read cannot come too early the variable is bound. -/
theorem unbound_of_parse (source : String) (p : Program)
    (hparse : (Program.parse source).program? = some p) (limit : Nat) :
    (∀ err x, p.infer limit = .error (.error err) → err.cause = .unboundVariable x →
      ∃ e, p.Has e ∧ e.form = .var x ∧ e.id = err.node ∧ p.Early x e ∧
        ∀ e', p.Has e' → e'.id = err.node → e' = e) ∧
      p.Always limit fun e s => ∀ x, e.form = .var x → ¬ p.Early x e →
        (s.scopes.lookup s.context.scope x).isSome := by
  obtain ⟨τ, hp⟩ := laid_of_parse hparse
  refine ⟨fun err x h hcause => ?_, always_bound hp limit⟩
  obtain ⟨e, he, hform, hid, hearly⟩ := readsEarly_of_infer hp h hcause
  exact ⟨e, he, hform, hid, hearly, fun e' he' hid' => eq_of_id_eq hp he he' (hid'.trans hid.symm)⟩

/-- `x` is assigned to in the then part and read in the else part. -/
def elseRead : Program where
  stmts :=
    [.node 5 ⟨0, 28⟩ (.branch (.node 0 ⟨3, 7⟩ (.literal (.bool true)))
      [.node 3 ⟨10, 15⟩ (.assign ⟨1, "x", ⟨10, 11⟩⟩ (.node 2 ⟨14, 15⟩ (.literal (.int ⟨⟨1#64⟩⟩))))]
      (some [.node 4 ⟨23, 24⟩ (.var "x")]))]

theorem parse_elseRead :
    (Program.parse "if true\n  x = 1\nelse\n  x\nend\n").program? = some elseRead := by cbv

theorem infer_elseRead :
    elseRead.infer 64 = .error (.error ⟨.unboundVariable "x", 4, ⟨23, 24⟩, none⟩) := by
  have herror : (match elseRead.infer 64 with
    | .error stop => some stop
    | .ok _ => none) = some (.error ⟨.unboundVariable "x", 4, ⟨23, 24⟩, none⟩) := by decide +kernel
  cases h : elseRead.infer 64 with
  | ok M => rw [h] at herror; exact nomatch herror
  | error stop => rw [h] at herror; rw [Option.some.inj herror]

/-- The read in the else part is reported, and the name is assigned to elsewhere. -/
theorem unbound_of_parse_elseRead :
    elseRead.infer 64 = .error (.error ⟨.unboundVariable "x", 4, ⟨23, 24⟩, none⟩) ∧
      ∃ e, elseRead.Has e ∧ e.form = .var "x" ∧ e.id = 4 ∧ elseRead.Early "x" e := by
  obtain ⟨e, he, hform, hid, hearly, -⟩ :=
    (unbound_of_parse _ elseRead parse_elseRead 64).1 _ "x" infer_elseRead rfl
  exact ⟨infer_elseRead, e, he, hform, hid, hearly⟩

/-- Not every variable that is found unbound is read in the value of an assignment to it. -/
theorem not_only_in_values :
    ¬ ∀ (source : String) (p : Program) (limit : Nat) (err : TypeError) (x : String),
      (Program.parse source).program? = some p → p.infer limit = .error (.error err) →
        err.cause = .unboundVariable x → ∃ node target value, p.Has node ∧
          node.form = .assign target value ∧ target.name = x ∧ err.node ∈ value.ids := by
  intro h
  obtain ⟨node, target, value, hnode, hform, -, hmem⟩ := h _ _ _ _ "x" parse_elseRead infer_elseRead rfl
  have hvalue : value.ids = [2] := by
    obtain ⟨s, hs, rfl⟩ := hnode.site
    simp only [sites, elseRead, List.flatMap_cons, List.flatMap_nil, Site.within_eq, Site.parts,
      Expr.form_node, Site.body, Option.getD_some, List.cons_append, List.nil_append, List.append_nil,
      List.mem_cons, List.not_mem_nil, or_false] at hs
    rcases hs with rfl | rfl | rfl | rfl | rfl <;> cases hform
    rfl
  rw [hvalue] at hmem
  exact absurd hmem (by decide)

end Program
end FlowTyping
