import FlowTyping.Proofs.Abreast
import FlowTyping.Proofs.Methods
import FlowTyping.Proofs.Refinement

/-!
# Blocks that run any number of times

`Infer.endAlike_loop_call`: a loop around statements, and a call of a method that does nothing but run its
block, with the same statements for a block, leave the same tables in sight of both, or end at the same
variable that is not bound.  The passes over the block are made in a scope of their own each, inside the
scope of the call; where the statements bind no new name that scope stays empty (`Flow.abreast_loop`).  What
else there is to a call and to a `yield` leaves the tables alone.
-/

namespace FlowTyping

/-! ### The tables at the start -/

namespace Tables

/-- The primitives of some tables, and those that there are from the start. -/
def primitives (ts : List Bindings) : Finset String :=
  Module.initial.primitives.toFinset ∪ ts.toFinset.biUnion fun t => t.facts.image Prod.snd

theorem initial_subset_primitives (ts : List Bindings) : ∀ q ∈ Module.initial.primitives, q ∈ primitives ts :=
  fun _ hq => Finset.mem_union_left _ (List.mem_toFinset.2 hq)

theorem shaped_self (ts : List Bindings) : Shaped (primitives ts) ts ts := by
  refine List.forall₂_same.2 fun t ht => ⟨fun _ => rfl, fun x ty hx q hq => Finset.mem_union_right _ ?_⟩
  have hfact : (x, q) ∈ t.facts := Bindings.mem_facts.2 ⟨ty, hx, hq⟩
  exact Finset.mem_biUnion.2 ⟨t, List.mem_toFinset.2 ht, Finset.mem_image_of_mem Prod.snd hfact⟩

theorem any_contains_of_isSome {ts : List Bindings} {x : String} (h : (lookup ts x).isSome) :
    ts.any (·.contains x) := by
  obtain ⟨t, ht, hx⟩ := List.findSome?_isSome_iff.1 h
  exact List.any_eq_true.2 ⟨t, ht, hx⟩

end Tables

/-- An expression that binds no new name does on stacks what it does on the arena, no matter which chains
besides the one at hand are looked at. -/
theorem refines_rebinds {s₀ : Engine} {i : ScopeId} {is : List ScopeId} {c : Standing}
    (hapart : s₀.scopes.Apart (i :: is)) (hi : s₀.context.scope = i) (hc : c.method? = s₀.context.method?)
    (limit fuel : Nat) {bound : String → Prop} {e : Expr} (he : e.Rebinds bound) :
    Refines s₀ i is (Infer.expr limit fuel e) (Flow.expr .plain limit fuel c e) := by
  induction fuel generalizing e with
  | zero => exact fun s _ => ⟨s, rfl⟩
  | succ fuel ih =>
    refine Refines.bind hapart ?_ fun ty => (Refines.record e.id ty).bind hapart fun _ => .give ty
    cases he with
    | @literal _ _ v => exact .give v.type
    | @var id span x => exact .readVar hc hi id span x
    | assign _ hvalue => exact .assign hapart hi (ih hvalue)
    | branch hcond hthen helse =>
      exact .branch hapart hi (ih hcond) (fun e he => ih (hthen e he)) fun e he => ih (helse e he)
    | loop hcond hstmts => exact .loop hapart hi fuel (ih hcond) fun e he => ih (hstmts e he)

namespace Infer
variable {ids : List ScopeId} {s : Engine} {m : Infer β} {f : β → Infer γ}
  {r : EStateM.Result Stop Engine α}

/-! ### Runs that end alike -/

/-- Two runs that end well with the same tables in some scopes, or both at the same variable that is not
bound. -/
inductive EndAlike (ids : List ScopeId) : EStateM.Result Stop Engine α → EStateM.Result Stop Engine β → Prop
  | ok {a b t u} : (∀ j ∈ ids, t.scopes.table j = u.scopes.table j) → EndAlike ids (.ok a t) (.ok b u)
  | unbound (name node span method? t u) : EndAlike ids
    (.error (.error ⟨.unboundVariable name, node, span, method?⟩) t)
    (.error (.error ⟨.unboundVariable name, node, span, method?⟩) u)

/-- A step that ends well and leaves the scopes alone. -/
def Idle (m : Infer α) : Prop := ∀ s, ∃ a t, m s = .ok a t ∧ t.scopes = s.scopes

namespace EndAlike

theorem bind_idle (h : EndAlike ids r (m s)) (hf : ∀ b, Idle (f b)) : EndAlike ids r ((m >>= f) s) := by
  generalize hm : m s = r' at h
  cases h with
  | @ok a b t u htables =>
    obtain ⟨c, v, hrun, hv⟩ := hf b u
    rw [bind_of_ok hm, hrun]
    exact .ok fun j hj => hv ▸ htables j hj
  | unbound => rw [bind_of_error hm]; exact .unbound ..

theorem within {context : Context} (h : EndAlike ids r (m { s with context })) :
    EndAlike ids r (Infer.within context m s) := by
  generalize hm : m { s with context } = r' at h
  cases h with
  | ok htables => rw [within_of_ok hm]; exact .ok htables
  | unbound => rw [within_of_error hm]; exact .unbound ..

theorem whileActive {call : BlockCall} (h : EndAlike ids r (m { s with active := call :: s.active })) :
    EndAlike ids r (Infer.whileActive call m s) := by
  generalize hm : m { s with active := call :: s.active } = r' at h
  cases h with
  | ok htables => rw [whileActive_of_ok hm]; exact .ok htables
  | unbound => rw [whileActive_of_error hm]; exact .unbound ..

section
variable {expr : Expr → Infer Ty} {id : NodeId} {span : Span}

theorem layer {entry : Entry} {fuel : Nat} {e : Expr}
    (h : EndAlike ids r (form expr entry fuel e.id e.span e.form s)) :
    EndAlike ids r (Infer.layer expr entry fuel e s) :=
  h.bind_idle fun ty s => ⟨ty, { s with module := s.module.record e.id ty }, rfl, rfl⟩

/-- A call with a block leaves what the body of the method leaves. -/
theorem blockCall {limit : Nat} {method : Method} {signature : Signature} {block : Block Expr}
    (hactive : ⟨method.name, signature, block.id⟩ ∉ s.active) (hdepth : s.context.depth < limit)
    (h : EndAlike ids r (body expr method.definition.body
      (Refines.opened { s with active := ⟨method.name, signature, block.id⟩ :: s.active }
        ⟨s.scopes.size, ⟨block, s.context.scope, s.context.method?⟩ :: s.context.blocks, some method.name,
          s.context.depth + 1⟩ none (method.definition.params.zip signature)))) :
    EndAlike ids r (Infer.blockCall expr limit id span method signature block s) := by
  rw [Infer.blockCall, bind_of_ok get_apply]
  show EndAlike ids r ((ite (_ ∈ s.active) _ _ : Infer Ty) s)
  rw [if_neg hactive, bind_of_ok context_apply]
  refine bind_idle (whileActive ?_) fun ty s =>
    ⟨ty, { s with module := s.module.updateMethod method.name (·.observe signature ty) }, rfl, rfl⟩
  rw [methodBody_apply, if_neg (Nat.not_le.2 hdepth)]
  exact within h

/-- A `yield` leaves what the passes over the block leave. -/
theorem yield {frame : BlockFrame} {outer : List BlockFrame} (hblocks : s.context.blocks = frame :: outer)
    {fuel : Nat} (h : EndAlike ids r
      (untilStable frame.scope (blockPass expr frame outer s.context.depth []) fuel s)) :
    EndAlike ids r (Infer.yield expr fuel id span [] s) := by
  rw [Infer.yield, List.mapM_nil, bind_of_ok pure_apply, bind_of_ok context_apply, hblocks]
  show EndAlike ids r (runBlock expr fuel frame outer [] s)
  rw [runBlock, bind_of_ok context_apply]
  refine h.bind_idle fun tys s => ⟨Ty.unionOf tys, ?_⟩
  exact ⟨{ s with module := s.module.record frame.block.id (Ty.unionOf tys) }, rfl, rfl⟩

end

/-- Runs end alike that do what runs on stacks do that go abreast. -/
theorem of_endsAbreast {U : Finset String} {shape : List Bindings} {V : γ → δ → Prop} {i : ScopeId}
    {is js : List ScopeId} {s₁ s₂ : Engine} (hi : i < s₁.scopes.size) (hg : s₁.scopes.Grown s₂.scopes)
    {r₁ : EStateM.Result Stop Engine γ} {r₂ : EStateM.Result Stop Engine δ}
    {w₁ : Except Halt (γ × Stacks)} {w₂ : Except Halt (δ × Stacks)}
    (h : Flow.EndsAbreast U shape 0 V w₁ w₂) (h₁ : Matches i is s₁ r₁ w₁) (h₂ : Matches i js s₂ r₂ w₂) :
    EndAlike (s₁.scopes.chain i) r₁ r₂ := by
  cases h with
  | ok _ _ hhere =>
    obtain ⟨t, rfl, rfl, hkeep⟩ := h₁
    obtain ⟨u, rfl, rfl, hkeep'⟩ := h₂
    refine .ok ((Scopes.tables_eq_iff hkeep.extends_.scopes (hg.trans hkeep'.extends_.scopes) hi).1 ?_)
    exact hhere.symm
  | unbound =>
    obtain ⟨t, rfl⟩ := h₁
    obtain ⟨u, rfl⟩ := h₂
    exact .unbound ..

end EndAlike

end Infer

/-! ### A method that runs its block -/

/-- A method without parameters that does nothing but run its block. -/
structure Method.RunsBlock (m : Method) : Prop where
  params : m.definition.params = []
  body : ∃ id span, m.definition.body = [.node id span (.yield [])]

/-- A state in which a call of such a method runs the block: the method is defined, the scope at hand is
there, the depth is not used up, and the call is not under way. -/
structure Engine.RunsBlock (s : Engine) (limit : Nat) (name : String) (block : Block Expr) : Prop where
  scope : s.context.scope < s.scopes.size
  depth : s.context.depth < limit
  method : ∃ m, s.module.method? name = some m ∧ m.RunsBlock
  active : ⟨name, [], block.id⟩ ∉ s.active

namespace Engine
variable (s : Engine) (name : String) (block : Block Expr)

/-- The frame of a block that is written where the state is. -/
def frameOf : BlockFrame := ⟨block, s.context.scope, s.context.method?⟩

/-- The state in the body of a method without parameters that is called with a block. -/
def called : Engine :=
  Refines.opened { s with active := ⟨name, [], block.id⟩ :: s.active }
    ⟨s.scopes.size, s.frameOf block :: s.context.blocks, some name, s.context.depth + 1⟩ none []

end Engine

namespace Infer

section
variable {s : Engine} {limit : Nat} {name : String} {block : Block Expr}

/-- What a call of such a method leaves is what the passes over the block leave. -/
theorem EndAlike.call {r : EStateM.Result Stop Engine α} {ids : List ScopeId}
    (hruns : s.RunsBlock limit name block) {id : NodeId} {span nameSpan : Span} {fuel : Nat}
    (h : EndAlike ids r (untilStable s.context.scope (blockPass (expr limit fuel) (s.frameOf block)
      s.context.blocks (s.context.depth + 1) []) fuel (s.called name block))) :
    EndAlike ids r (expr limit (fuel + 2) (.node id span (.call name nameSpan [] (some block))) s) := by
  obtain ⟨method, hmethod, hparams, yieldId, yieldSpan, hbody⟩ := hruns.method
  have hname : method.name = name := Module.name_of_method? hmethod
  have harity : method.arity = ([] : Signature).length := congrArg List.length hparams
  refine layer ?_
  show EndAlike ids r (Infer.call _ _ id span name nameSpan [] (some block) s)
  rw [call_eq, List.mapM_nil, bind_of_ok pure_apply, dispatch_of_some hmethod harity]
  refine blockCall (hname ▸ hruns.active) hruns.depth ?_
  rw [hbody, hparams, body_singleton, hname]
  exact layer (yield rfl h)

/-- A pass over a block without parameters does on stacks what it does on the arena. -/
theorem refines_blockPass {s₀ : Engine} {is : List ScopeId} {c : Standing} {bound : String → Prop}
    (frame : BlockFrame) (outer : List BlockFrame) (depth : Nat)
    (hapart : s₀.scopes.Apart (frame.scope :: is)) (hc : c.method? = frame.method?)
    (hparams : frame.block.params = []) (hstmts : ∀ e ∈ frame.block.body, e.Rebinds bound)
    (limit fuel : Nat) : Refines s₀ frame.scope is (blockPass (expr limit fuel) frame outer depth [])
      (Flow.nested [] (Flow.body (Flow.expr .plain limit fuel c) frame.block.body)) := by
  intro s hs
  have hapart := hapart.grown hs.scopes
  have hinner : (s.scopes.opened (some frame.scope) (.ofParams [])).Apart (s.scopes.size :: is) :=
    .opened_some hapart
  rw [blockPass_apply, hparams]
  exact Refines.nested hapart (Refines.body hinner fun e he =>
    refines_rebinds hinner rfl hc limit fuel (hstmts e he))

/-- A loop around statements that bind no new name, and the call of such a method with these for its block,
do the same to the tables in sight, or fail at the same place. -/
theorem endAlike_loop_call (hruns : s.RunsBlock limit name block) (hparams : block.params = [])
    (hstmts : ∀ e ∈ block.body, e.Rebinds fun x => (s.scopes.lookup s.context.scope x).isSome)
    (loopId condId callId : NodeId) (loopSpan condSpan callSpan nameSpan : Span) :
    ∃ enough, ∀ fuel ≥ enough, EndAlike (s.scopes.chain s.context.scope)
      (expr limit fuel (.node loopId loopSpan
        (.loop (.node condId condSpan (.literal (.bool true))) block.body)) s)
      (expr limit fuel (.node callId callSpan (.call name nameSpan [] (some block))) s) := by
  let scope := s.context.scope
  let shape := s.scopes.tables scope
  let loop : Expr := .node loopId loopSpan (.loop (.node condId condSpan (.literal (.bool true))) block.body)
  refine ⟨Tables.capacity (Tables.primitives shape) shape + loop.size + 2, fun fuel hfuel => ?_⟩
  obtain ⟨fuel, rfl⟩ : ∃ f, fuel = f + 2 := ⟨fuel - 2, by omega⟩
  -- The call ends as the passes over the block do, from a state with the same tables in sight.
  refine EndAlike.call hruns ?_
  have hapart : s.scopes.Apart [scope] :=
    ⟨fun i hi => List.mem_singleton.1 hi ▸ hruns.scope, by simpa using s.scopes.chain_nodup scope⟩
  have hgrown : s.scopes.Grown (s.called name block).scopes := .opened s.scopes none (.ofParams [])
  have hloop := refines_rebinds (c := s.standing []) hapart rfl rfl limit (fuel + 2)
    (.loop .literal hstmts : loop.Rebinds _) (.refl s)
  have hpasses := (refines_blockPass (c := s.standing []) (s.frameOf block) s.context.blocks
    (s.context.depth + 1) (hapart.grown hgrown) rfl hparams hstmts limit fuel).untilStable
      (hapart.grown hgrown) fuel (.refl _)
  have hhere : (s.called name block).scopes.tables scope = shape := Refines.tables_opened hruns.scope
  have hsize (e : Expr) (he : e ∈ block.body) : e.size < loop.size := by
    have := Expr.size_part_lt (e := loop) (List.mem_cons_of_mem _ he)
    omega
  have hbound (e : Expr) (he : e ∈ block.body) : e.Rebinds fun x => shape.any (·.contains x) :=
    (hstmts e he).mono fun x hx => Tables.any_contains_of_isSome (Scopes.lookup_eq .. ▸ hx)
  have habreast := Flow.abreast_loop (c := s.standing []) (d := s.standing [])
    (Tables.initial_subset_primitives shape) limit rfl hbound loopId condId loopSpan condSpan (.bool true)
    fuel (fun e he => by have := hsize e he; omega) (by have := loop.size_pos; omega)
  have hends := habreast (s := s.toStacks scope []) (t := (s.called name block).toStacks scope [])
    (Tables.shaped_self shape) hhere
  exact .of_endsAbreast hruns.scope hgrown hends hloop hpasses

end

namespace Once

/-- `yield`, and nothing else. -/
def method : Definition Expr := ⟨.bare "once", [], [.bare (.yield [])]⟩

/-- The choice between `x = 'a'` and a loop around `y = x`, by `y`. -/
def block : Block Expr where
  id := 0
  span := ⟨0, 0⟩
  params := []
  body :=
    [.bare (.branch (.bare (.var "y")) [.bare (.assign (.bare "x") (.bare (.literal (.char 'a'))))]
      (some [.bare (.loop (.bare (.var "x")) [.bare (.assign (.bare "y") (.bare (.var "x")))])]))]

/-- Behind the definition of the method, `x = 1` and `y = nil`. -/
def start : Engine :=
  { Engine.initial with
    module := Module.initial.define method
    scopes := (Scopes.initial.declare Scopes.root "x" .int).declare Scopes.root "y" .nil }

end Once

open Once in
theorem endAlike_loop_call_once : start.RunsBlock 64 "once" block ∧
    (∀ e ∈ block.body, e.Rebinds fun x => (start.scopes.lookup Scopes.root x).isSome) ∧
    ∃ enough, ∀ fuel ≥ enough, EndAlike (start.scopes.chain Scopes.root)
      (expr 64 fuel (.bare (.loop (.bare (.literal (.bool true))) block.body)) start)
      (expr 64 fuel (.bare (.call "once" ⟨0, 0⟩ [] (some block))) start) := by
  have hruns : start.RunsBlock 64 "once" block :=
    ⟨by decide, by decide, ⟨_, rfl, rfl, 0, ⟨0, 0⟩, rfl⟩, List.not_mem_nil⟩
  have hstmts : ∀ e ∈ block.body, e.Rebinds fun x => (start.scopes.lookup Scopes.root x).isSome := by
    refine List.forall_mem_singleton.2 (.branch .var ?_ ?_)
    · exact List.forall_mem_singleton.2 (.assign (by decide +kernel) .literal)
    · refine List.forall_mem_singleton.2 (.loop .var ?_)
      exact List.forall_mem_singleton.2 (.assign (by decide +kernel) .var)
  refine ⟨hruns, hstmts, ?_⟩
  exact endAlike_loop_call hruns rfl hstmts 0 0 0 ⟨0, 0⟩ ⟨0, 0⟩ ⟨0, 0⟩ ⟨0, 0⟩

end Infer
end FlowTyping
