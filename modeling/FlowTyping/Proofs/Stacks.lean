import FlowTyping.Proofs.Sight

/-!
# Inference on stacks

The inference once more, without an arena: the state has the tables of the chain at hand and those of
the chains of the blocks in force, and nothing else of the scopes (`Stacks`).  A method body gets
stacks of its own, and what it leaves there is dropped.  `FlowTyping.Proofs.Refinement` shows that
the inference does the same.  What a call does can be compared between two runs here, since the
stacks do not tell which scopes were made before.

`Ways` says how a call and a definition are treated: whether a call without a block may return what
is known for its signature, and where a run is given up.
-/

namespace FlowTyping

/-- What ends a run on stacks. -/
inductive Halt where
  | error (e : TypeError)
  | outOfFuel
  /-- A call that the run is given up at. -/
  | refused
  /-- A definition that the run is given up at. -/
  | replaced

/-- What the inference makes of it. -/
def Halt.stop : Halt → Stop
  | error e => .error e
  | outOfFuel | refused | replaced => .outOfFuel

/-- The tables in sight, for each chain innermost first. -/
structure Stacks where
  module : Module
  /-- The chain at hand. -/
  here : List Bindings
  /-- The chains of the blocks in force. -/
  held : List (List Bindings)

/-- What does not change during an evaluation. -/
structure Standing where
  /-- The blocks in force, each with the method that it was written in. -/
  blocks : List (Block Expr × Option String)
  method? : Option String
  depth : Nat
  active : List BlockCall
  /-- The definitions whose bodies are under inference, for a call without a block with its
  signature. -/
  under : List (Definition Expr × Option Signature)

/-- How calls and definitions are treated. -/
structure Ways where
  /-- What a call without a block returns although nothing is evaluated. -/
  known : Method → Signature → Option Ty
  refuses : Standing → Method → Signature → Option (Block Expr) → Prop
  replaces : Standing → Module → Definition Expr → Prop

/-- A call without a block returns what is known, and a run is not given up anywhere. -/
def Ways.plain : Ways := ⟨Method.returns?, fun _ _ _ _ => False, fun _ _ _ => False⟩

/-- A step of the inference on stacks. -/
abbrev Flow := StateT Stacks (Except Halt)

/-! ### Tables of a chain -/

namespace Tables

/-- The innermost type of a name. -/
def lookup (tables : List Bindings) (name : String) : Option Ty :=
  tables.findSome? fun t => t.get? name

/-- Writes to the first table that binds the name, or else to the first one. -/
def write (name : String) (ty : Ty) : List Bindings → List Bindings
  | [] => []
  | t :: ts =>
    if t.contains name || !ts.any (·.contains name) then t.insert name ty :: ts
    else t :: write name ty ts

/-- Merges the tables at equal places. -/
def merge (as bs : List Bindings) : List Bindings := List.zipWith Bindings.merge as bs

end Tables

/-- Where the body of a method is evaluated. -/
def Standing.inside (c : Standing) (method : Method) (signature : Signature) :
    Option (Block Expr) → Standing
  | none => ⟨[], some method.name, c.depth + 1, c.active,
      (method.definition, some signature) :: c.under⟩
  | some block => ⟨(block, c.method?) :: c.blocks, some method.name, c.depth + 1,
      ⟨method.name, signature, block.id⟩ :: c.active, (method.definition, none) :: c.under⟩

namespace Flow

open scoped Classical

def fail (c : Standing) (cause : TypeError.Cause) (node : NodeId) (span : Span) : Flow α :=
  throw (.error ⟨cause, node, span, c.method?⟩)

def record (node : NodeId) (ty : Ty) : Flow Unit :=
  modify fun s => { s with module := s.module.record node ty }

def updateMethod (name : String) (f : Method → Method) : Flow Unit :=
  modify fun s => { s with module := s.module.updateMethod name f }

def getHere : Flow (List Bindings) := return (← get).here

def setHere (here : List Bindings) : Flow Unit := modify fun s => { s with here }

def writeHere (name : String) (ty : Ty) : Flow Unit :=
  modify fun s => { s with here := Tables.write name ty s.here }

/-! ### Steps on other stacks -/

section
variable (params : List (Ident × Ty)) (step : Flow α)

/-- Runs a step with parameters on other stacks: `go` says which these are, and `back` what the
stacks are afterwards. -/
def elsewhere (go : List Bindings → List (List Bindings) → List Bindings × List (List Bindings))
    (back : List Bindings → List (List Bindings) → List Bindings → List (List Bindings) →
      List Bindings × List (List Bindings)) : Flow α := fun s => do
  let (a, t) ← step ⟨s.module.recordParams params, (go s.here s.held).1, (go s.here s.held).2⟩
  return (a, ⟨t.module, (back s.here s.held t.here t.held).1,
    (back s.here s.held t.here t.held).2⟩)

/-- Runs a step on stacks of its own. -/
def alone : Flow α :=
  elsewhere params step (fun _ _ => ([.ofParams params], [])) fun here held _ _ => (here, held)

/-- Runs a step on a chain of its own from which the chain at hand is reached by a block. -/
def above : Flow α :=
  elsewhere params step (fun here held => ([.ofParams params], here :: held)) fun _ _ _ held =>
    (held.headD [], held.tail)

/-- Runs a step with one more table on the chain at hand. -/
def nested : Flow α :=
  elsewhere params step (fun here held => (.ofParams params :: here, held)) fun _ _ here held =>
    (here.tail, held)

/-- Runs a step at the chain of the first block. -/
def outward : Flow α := fun s =>
  match s.held with
  | [] => throw .outOfFuel
  | first :: rest => do
    let (a, t) ← step ⟨s.module, first, rest⟩
    return (a, ⟨t.module, s.here, t.here :: t.held⟩)

end

/-! ### Expressions -/

section
variable (expr : Expr → Flow Ty)

def body (stmts : List Expr) : Flow Ty := stmts.foldlM (fun _ stmt => expr stmt) .nil

def readVar (c : Standing) (id : NodeId) (span : Span) (name : String) : Flow Ty := do
  match Tables.lookup (← getHere) name with
  | some ty => return ty
  | none => fail c (.unboundVariable name) id span

def assign (target : Ident) (value : Expr) : Flow Ty := do
  let ty ← expr value
  writeHere target.name ty
  record target.id ty
  return ty

/-- A choice: both parts start from the same tables at hand. -/
def choice (cond thenPart elsePart : Flow Ty) : Flow Ty := do
  let _ ← cond
  let before ← getHere
  let thenType ← thenPart
  let afterThen ← getHere
  setHere before
  let elseType ← elsePart
  setHere (Tables.merge afterThen (← getHere))
  return thenType.join elseType

def branch (cond : Expr) (thenBody : List Expr) (elseBody : Option (List Expr)) : Flow Ty :=
  choice (expr cond) (body expr thenBody) (body expr (elseBody.getD []))

def untilStable (pass : Flow α) : Nat → Flow (List α)
  | 0 => throw .outOfFuel
  | fuel + 1 => do
    let before ← getHere
    let a ← pass
    let merged := Tables.merge before (← getHere)
    setHere merged
    if merged = before then return [a] else return a :: (← untilStable pass fuel)

def loopPass (cond : Expr) (stmts : List Expr) : Flow Ty := do
  let _ ← body expr stmts
  expr cond

def loop (fuel : Nat) (cond : Expr) (stmts : List Expr) : Flow Ty := do
  let _ ← expr cond
  let _ ← untilStable (loopPass expr cond stmts) fuel
  return .nil

end

/-! ### Calls -/

section
variable (w : Ways) (expr : Standing → Expr → Flow Ty)

def methodBody (limit : Nat) (c : Standing) (id : NodeId) (span : Span) (method : Method)
    (signature : Signature) (block : Option (Block Expr)) : Flow Ty :=
  if limit ≤ c.depth then
    fail c (.recursionLimitExceeded method.name limit) id span
  else
    let run := body (expr (c.inside method signature block)) method.definition.body
    let params := method.definition.params.zip signature
    match block with
    | none => alone params run
    | some _ => above params run

def firstCall (limit : Nat) (c : Standing) (id : NodeId) (span : Span) (method : Method)
    (signature : Signature) : Flow Ty := do
  updateMethod method.name (·.store signature .nil)
  let ty ← methodBody expr limit c id span method signature none
  updateMethod method.name (·.store signature ty)
  return ty

def plainCall (limit : Nat) (c : Standing) (id : NodeId) (span : Span) (method : Method)
    (signature : Signature) : Flow Ty :=
  match w.known method signature with
  | some ty => return ty
  | none => firstCall expr limit c id span method signature

def blockCall (limit : Nat) (c : Standing) (id : NodeId) (span : Span) (method : Method)
    (signature : Signature) (block : Block Expr) : Flow Ty := do
  if ⟨method.name, signature, block.id⟩ ∈ c.active then
    return .nil
  else
    let ty ← methodBody expr limit c id span method signature (some block)
    updateMethod method.name (·.observe signature ty)
    return ty

/-- What a call at a node does with the method that it has found. -/
abbrev Entry := Standing → NodeId → Span → Method → Signature → Option (Block Expr) → Flow Ty

noncomputable def enter (limit : Nat) : Entry := fun c id span method signature block =>
  if w.refuses c method signature block then
    throw .refused
  else
    match block with
    | none => plainCall w expr limit c id span method signature
    | some block => blockCall expr limit c id span method signature block

/-- A call with its arguments evaluated. -/
def dispatch (entry : Entry) (c : Standing) (id : NodeId) (span : Span) (name : String)
    (nameSpan : Span) (signature : Signature) (block : Option (Block Expr)) : Flow Ty := do
  match (← get).module.method? name with
  | none => fail c (.unresolvedMethod name) id nameSpan
  | some method =>
    if method.arity ≠ signature.length then
      fail c (.arityMismatch name method.arity signature.length) id span
    else
      entry c id span method signature block

def call (entry : Entry) (c : Standing) (id : NodeId) (span : Span) (name : String)
    (nameSpan : Span) (args : List Expr) (block : Option (Block Expr)) : Flow Ty := do
  let signature ← args.mapM (expr c)
  dispatch entry c id span name nameSpan signature block

def runBlock (fuel : Nat) (c : Standing) (block : Block Expr) (method? : Option String)
    (outer : List (Block Expr × Option String)) (args : Signature) : Flow Ty := do
  let pass := nested (Infer.paramTypes block.params args)
    (body (expr { c with blocks := outer, method? }) block.body)
  let ty := Ty.unionOf (← outward (untilStable pass fuel))
  record block.id ty
  return ty

def yield (fuel : Nat) (c : Standing) (id : NodeId) (span : Span) (args : List Expr) :
    Flow Ty := do
  let signature ← args.mapM (expr c)
  match c.blocks with
  | [] => fail c .noBlockGiven id span
  | (block, method?) :: outer => runBlock expr fuel c block method? outer signature

noncomputable def define (c : Standing) (definition : Definition Expr) : Flow Ty := do
  if w.replaces c (← get).module definition then
    throw .replaced
  else
    modify fun s => { s with module := s.module.define definition }
    return .nil

noncomputable def form (entry : Entry) (fuel : Nat) (c : Standing) (id : NodeId) (span : Span) :
    Form Expr → Flow Ty
  | .literal v => return v.type
  | .var name => readVar c id span name
  | .assign target value => assign (expr c) target value
  | .call name nameSpan args block => call expr entry c id span name nameSpan args block
  | .yield args => yield expr fuel c id span args
  | .branch cond thenBody elseBody => branch (expr c) cond thenBody elseBody
  | .loop cond stmts => loop (expr c) fuel cond stmts
  | .define definition => define w c definition

noncomputable def layer (entry : Entry) (fuel : Nat) (c : Standing) (e : Expr) : Flow Ty := do
  let ty ← form w expr entry fuel c e.id e.span e.form
  record e.id ty
  return ty

end

/-- The type of an expression, with at most `fuel` nested evaluations and passes over a loop. -/
noncomputable def expr (w : Ways) (limit : Nat) : Nat → Standing → Expr → Flow Ty
  | 0 => fun _ _ => throw .outOfFuel
  | fuel + 1 => layer w (expr w limit fuel) (enter w (expr w limit fuel) limit) fuel

section
variable {w : Ways} {limit : Nat} {c : Standing} {s : Stacks} {definition : Definition Expr}

theorem define_of_replaces (h : w.replaces c s.module definition) :
    define w c definition s = .error .replaced := by
  show (ite (w.replaces c s.module definition) _ _ : Flow Ty) s = _
  rw [if_pos h]; rfl

theorem define_of_not (h : ¬ w.replaces c s.module definition) :
    define w c definition s = .ok (.nil, { s with module := s.module.define definition }) := by
  show (ite (w.replaces c s.module definition) _ _ : Flow Ty) s = _
  rw [if_neg h]; rfl

variable {expr : Standing → Expr → Flow Ty} {id : NodeId} {span : Span} {method : Method}
  {signature : Signature} {block : Option (Block Expr)}

theorem enter_of_refuses (h : w.refuses c method signature block) :
    enter w expr limit c id span method signature block = throw .refused := if_pos h

theorem enter_none (h : ¬ w.refuses c method signature none) :
    enter w expr limit c id span method signature none =
      plainCall w expr limit c id span method signature := if_neg h

theorem enter_some {block : Block Expr} (h : ¬ w.refuses c method signature (some block)) :
    enter w expr limit c id span method signature (some block) =
      blockCall expr limit c id span method signature block := if_neg h

theorem plainCall_of_some {ty : Ty} (h : w.known method signature = some ty) :
    plainCall w expr limit c id span method signature = pure ty := by
  unfold plainCall; rw [h]

theorem plainCall_of_none (h : w.known method signature = none) :
    plainCall w expr limit c id span method signature =
      firstCall expr limit c id span method signature := by
  unfold plainCall; rw [h]

theorem methodBody_of_le (h : limit ≤ c.depth) :
    methodBody expr limit c id span method signature block =
      fail c (.recursionLimitExceeded method.name limit) id span := if_pos h

theorem methodBody_none (h : ¬ limit ≤ c.depth) :
    methodBody expr limit c id span method signature none =
      alone (method.definition.params.zip signature)
        (body (expr (c.inside method signature none)) method.definition.body) := if_neg h

theorem methodBody_some {block : Block Expr} (h : ¬ limit ≤ c.depth) :
    methodBody expr limit c id span method signature (some block) =
      above (method.definition.params.zip signature)
        (body (expr (c.inside method signature (some block))) method.definition.body) := if_neg h

/-- The body of a method is that of its definition. -/
theorem methodBody_congr {method' : Method} (h : method'.definition = method.definition) :
    methodBody expr limit c id span method' signature block =
      methodBody expr limit c id span method signature block := by
  unfold methodBody Standing.inside Method.name
  rw [h]

theorem blockCall_of_mem {block : Block Expr} (h : ⟨method.name, signature, block.id⟩ ∈ c.active) :
    blockCall expr limit c id span method signature block = pure .nil := if_pos h

theorem blockCall_of_notMem {block : Block Expr}
    (h : ⟨method.name, signature, block.id⟩ ∉ c.active) :
    blockCall expr limit c id span method signature block = (do
      let ty ← methodBody expr limit c id span method signature (some block)
      updateMethod method.name (·.observe signature ty)
      return ty) := if_neg h

theorem blockCall_congr {method' : Method} {block : Block Expr}
    (h : method'.definition = method.definition) :
    blockCall expr limit c id span method' signature block =
      blockCall expr limit c id span method signature block := by
  unfold blockCall Method.name
  rw [methodBody_congr h, h]

variable {entry : Entry} {name : String} {nameSpan : Span}

theorem dispatch_apply : dispatch entry c id span name nameSpan signature block s =
    (match s.module.method? name with
    | none => fail c (.unresolvedMethod name) id nameSpan
    | some method =>
      if method.arity ≠ signature.length then
        fail c (.arityMismatch name method.arity signature.length) id span
      else
        entry c id span method signature block : Flow Ty) s := rfl

theorem dispatch_of_some (hm : s.module.method? name = some method)
    (harity : method.arity = signature.length) :
    dispatch entry c id span name nameSpan signature block s =
      entry c id span method signature block s := by
  rw [dispatch_apply, hm]
  exact congrFun (if_neg fun h => h harity) s

theorem dispatch_of_none (hm : s.module.method? name = none) :
    dispatch entry c id span name nameSpan signature block s =
      fail c (.unresolvedMethod name) id nameSpan s := by
  rw [dispatch_apply, hm]

theorem dispatch_of_arity (hm : s.module.method? name = some method)
    (harity : method.arity ≠ signature.length) :
    dispatch entry c id span name nameSpan signature block s =
      fail c (.arityMismatch name method.arity signature.length) id span s := by
  rw [dispatch_apply, hm]
  exact congrFun (if_pos harity) s

/-- A call that ends well has found a method with as many parameters as there are arguments. -/
theorem dispatch_ok {t : Stacks} {ty : Ty}
    (h : dispatch entry c id span name nameSpan signature block s = .ok (ty, t)) :
    ∃ method, s.module.method? name = some method ∧ method.arity = signature.length ∧
      entry c id span method signature block s = .ok (ty, t) := by
  cases hm : s.module.method? name with
  | none => rw [dispatch_of_none hm] at h; exact nomatch h
  | some method =>
    by_cases harity : method.arity = signature.length
    · rw [dispatch_of_some hm harity] at h; exact ⟨method, rfl, harity, h⟩
    · rw [dispatch_of_arity hm harity] at h; exact nomatch h

end

/-! ### Sequences -/

section
variable {m : Flow α} {f : α → Flow β} {s t u : Stacks} {a : α} {b : β} {h : Halt}

theorem bind_of_ok (hm : m s = .ok (a, t)) : (m >>= f) s = f a t := by
  show (m s >>= fun r => f r.1 r.2) = _
  rw [hm]; rfl

theorem bind_of_error (hm : m s = .error h) : (m >>= f) s = .error h := by
  show (m s >>= fun r => f r.1 r.2) = _
  rw [hm]; rfl

theorem bind_eq_ok_iff : (m >>= f) s = .ok (b, u) ↔ ∃ a t, m s = .ok (a, t) ∧ f a t = .ok (b, u) := by
  cases hm : m s with
  | ok r =>
    rw [bind_of_ok hm]
    exact ⟨fun hf => ⟨r.1, r.2, rfl, hf⟩, by rintro ⟨_, _, ⟨⟩, hf⟩; exact hf⟩
  | error h => rw [bind_of_error hm]; simp

theorem readVar_of_some {c : Standing} {id : NodeId} {span : Span} {name : String} {ty : Ty}
    (hx : Tables.lookup s.here name = some ty) : readVar c id span name s = .ok (ty, s) := by
  have hhere : getHere s = .ok (s.here, s) := rfl
  rw [readVar, bind_of_ok hhere, hx]
  rfl

theorem readVar_of_none {c : Standing} {id : NodeId} {span : Span} {name : String}
    (hx : Tables.lookup s.here name = none) :
    readVar c id span name s = fail c (.unboundVariable name) id span s := by
  have hhere : getHere s = .ok (s.here, s) := rfl
  rw [readVar, bind_of_ok hhere, hx]

variable {params : List (Ident × Ty)}

section
variable {go : List Bindings → List (List Bindings) → List Bindings × List (List Bindings)}
  {back : List Bindings → List (List Bindings) → List Bindings → List (List Bindings) →
    List Bindings × List (List Bindings)}

theorem elsewhere_eq_map :
    elsewhere params m go back s =
      (m ⟨s.module.recordParams params, (go s.here s.held).1, (go s.here s.held).2⟩).map fun r =>
        (r.1, ⟨r.2.module, (back s.here s.held r.2.here r.2.held).1,
          (back s.here s.held r.2.here r.2.held).2⟩) := by
  unfold elsewhere
  cases m ⟨s.module.recordParams params, (go s.here s.held).1, (go s.here s.held).2⟩ <;> rfl

theorem elsewhere_of_ok
    (hm : m ⟨s.module.recordParams params, (go s.here s.held).1, (go s.here s.held).2⟩ =
      .ok (a, t)) :
    elsewhere params m go back s = .ok (a, ⟨t.module, (back s.here s.held t.here t.held).1,
      (back s.here s.held t.here t.held).2⟩) := by
  rw [elsewhere_eq_map, hm]; rfl

theorem elsewhere_of_error
    (hm : m ⟨s.module.recordParams params, (go s.here s.held).1, (go s.here s.held).2⟩ =
      .error h) :
    elsewhere params m go back s = .error h := by
  rw [elsewhere_eq_map, hm]; rfl

theorem elsewhere_ok (h : elsewhere params m go back s = .ok (a, u)) :
    ∃ t, m ⟨s.module.recordParams params, (go s.here s.held).1, (go s.here s.held).2⟩ =
        .ok (a, t) ∧
      u = ⟨t.module, (back s.here s.held t.here t.held).1, (back s.here s.held t.here t.held).2⟩ := by
  cases hm : m ⟨s.module.recordParams params, (go s.here s.held).1, (go s.here s.held).2⟩ with
  | error e => rw [elsewhere_of_error hm] at h; exact nomatch h
  | ok r => rw [elsewhere_of_ok hm] at h; cases h; exact ⟨r.2, rfl, rfl⟩

end

/-- The body of a method without a block neither reads nor changes tables outside. -/
theorem methodBody_none_congr {expr : Standing → Expr → Flow Ty} {limit : Nat} {c : Standing}
    {id : NodeId} {span : Span} {method : Method} {signature : Signature}
    (h : u.module = s.module) :
    methodBody expr limit c id span method signature none u =
      (methodBody expr limit c id span method signature none s).map
        fun r => (r.1, { u with module := r.2.module }) := by
  by_cases hlimit : limit ≤ c.depth
  · rw [methodBody_of_le hlimit]; rfl
  · rw [methodBody_none hlimit, alone, elsewhere_eq_map, elsewhere_eq_map, h]
    cases body (expr (c.inside method signature none)) method.definition.body
      ⟨s.module.recordParams (method.definition.params.zip signature),
        [.ofParams (method.definition.params.zip signature)], []⟩ <;> rfl

theorem methodBody_none_ok {expr : Standing → Expr → Flow Ty} {limit : Nat} {c : Standing}
    {id : NodeId} {span : Span} {method : Method} {signature : Signature} {ty : Ty}
    (h : methodBody expr limit c id span method signature none s = .ok (ty, t)) :
    t = { s with module := t.module } := by
  have hself := h.symm.trans (methodBody_none_congr rfl)
  rw [h] at hself
  exact congrArg Prod.snd (Except.ok.inj hself)

section
variable {expr : Standing → Expr → Flow Ty} {limit : Nat} {c : Standing} {id : NodeId} {span : Span}
  {method : Method} {signature : Signature}

/-- A call that nothing is known of is supposed to return `Nil` in the body of the method. -/
theorem firstCall_eq_map :
    firstCall expr limit c id span method signature s =
      (methodBody expr limit c id span method signature none
        { s with module := s.module.updateMethod method.name (·.store signature .nil) }).map fun r =>
          (r.1, { r.2 with
            module := r.2.module.updateMethod method.name (·.store signature r.1) }) := by
  have hstore : updateMethod method.name (·.store signature .nil) s = .ok ((),
    { s with module := s.module.updateMethod method.name (·.store signature .nil) }) := rfl
  rw [firstCall, bind_of_ok hstore]
  cases hbody : methodBody expr limit c id span method signature none
      { s with module := s.module.updateMethod method.name (·.store signature .nil) } with
  | error e => rw [bind_of_error hbody]; rfl
  | ok r => rw [bind_of_ok hbody]; rfl

theorem firstCall_ok {ty : Ty}
    (h : firstCall expr limit c id span method signature s = .ok (ty, t)) :
    ∃ M, methodBody expr limit c id span method signature none
        { s with module := s.module.updateMethod method.name (·.store signature .nil) } =
          .ok (ty, { s with module := M }) ∧
      t = { s with module := M.updateMethod method.name (·.store signature ty) } := by
  rw [firstCall_eq_map] at h
  cases hbody : methodBody expr limit c id span method signature none
      { s with module := s.module.updateMethod method.name (·.store signature .nil) } with
  | error e => rw [hbody] at h; exact nomatch h
  | ok r =>
    have hr : r.2 = { s with module := r.2.module } := (methodBody_none_ok hbody :)
    rw [hbody] at h
    cases h
    exact ⟨r.2.module, congrArg (fun u => Except.ok (r.1, u)) hr, by rw [hr]⟩

end

theorem outward_ok (h : outward m s = .ok (a, u)) :
    ∃ first rest t, s.held = first :: rest ∧ m ⟨s.module, first, rest⟩ = .ok (a, t) ∧
      u = ⟨t.module, s.here, t.here :: t.held⟩ := by
  unfold outward at h
  split at h
  · exact nomatch h
  · next first rest hheld =>
    cases hm : m ⟨s.module, first, rest⟩ with
    | error e => rw [hm] at h; exact nomatch h
    | ok r => rw [hm] at h; cases h; exact ⟨first, rest, r.2, hheld, hm, rfl⟩

variable {first : List Bindings} {rest : List (List Bindings)}

theorem outward_eq_map (hheld : s.held = first :: rest) :
    outward m s = (m ⟨s.module, first, rest⟩).map
      fun r => (r.1, ⟨r.2.module, s.here, r.2.here :: r.2.held⟩) := by
  unfold outward
  rw [hheld]
  show (m ⟨s.module, first, rest⟩ >>= _) = _
  cases m ⟨s.module, first, rest⟩ <;> rfl

theorem outward_of_ok (hheld : s.held = first :: rest) (hm : m ⟨s.module, first, rest⟩ = .ok (a, t)) :
    outward m s = .ok (a, ⟨t.module, s.here, t.here :: t.held⟩) := by
  rw [outward_eq_map hheld, hm]; rfl

theorem outward_of_error (hheld : s.held = first :: rest)
    (hm : m ⟨s.module, first, rest⟩ = .error h) : outward m s = .error h := by
  rw [outward_eq_map hheld, hm]; rfl

theorem outward_of_nil (hheld : s.held = []) : outward m s = .error .outOfFuel := by
  unfold outward; rw [hheld]; rfl

end

end Flow
end FlowTyping
