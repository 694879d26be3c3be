import FlowTyping.Proofs.Refinement
import FlowTyping.Proofs.Restoration
import FlowTyping.Proofs.Termination

/-!
# Restoring the context by hand

`Infer.within` keeps the whole context of a step aside.  An inference need not: `Infer.exprByHand`
changes and puts back the parts of the context one at a time, a loop and a choice look up the scope at
hand anew for each snapshot, and the passes over a block start from what the pass before has left.  It
gives up where two snapshots that are to be merged are not of the same scopes, and where a pass over a
block does not start in the context that the call with the block was resolved in.
`Program.inferByHand_eq`: it never gives up, and finds what the inference finds.
-/

namespace FlowTyping

deriving instance DecidableEq for BlockFrame

namespace Infer

/-! ### Inference that restores by hand -/

/-- Runs a step and changes the state behind it, however the step ends. -/
def afterwards (f : Engine → Engine) (step : Infer α) : Infer α := fun s =>
  match step s with
  | .ok a t => .ok a (f t)
  | .error e t => .error e (f t)

def setContext (f : Context → Context) : Infer Unit :=
  modify fun s => { s with context := f s.context }

namespace ByHand

/-- Merges snapshots of the same scopes. -/
def merge (a b : Snapshot) : Infer Snapshot :=
  if a.map Prod.fst = b.map Prod.fst then return a.merge b else throw .outOfFuel

/-- The tables of the scope at hand and of the scopes around it. -/
def here : Infer Snapshot := do snapshot (← context).scope

def untilStable (look : Infer Snapshot) (pass : Infer α) : Nat → Infer (List α)
  | 0 => throw .outOfFuel
  | fuel + 1 => do
    let before ← look
    let a ← pass
    let merged ← merge before (← look)
    restore merged
    if merged = before then return [a] else return a :: (← untilStable look pass fuel)

section
variable (expr : Expr → Infer Ty)

def branch (cond : Expr) (thenBody : List Expr) (elseBody : Option (List Expr)) : Infer Ty := do
  let _ ← expr cond
  let before ← here
  let thenType ← body expr thenBody
  let afterThen ← here
  restore before
  let elseType ← body expr (elseBody.getD [])
  let merged ← merge afterThen (← here)
  restore merged
  return thenType.join elseType

def loop (fuel : Nat) (cond : Expr) (stmts : List Expr) : Infer Ty := do
  let _ ← expr cond
  let _ ← untilStable here (loopPass expr cond stmts) fuel
  return .nil

end

section
variable (expr : List Context → Expr → Infer Ty)

/-- `calls` are the contexts in which the calls with `blocks` were resolved. -/
def methodBody (limit : Nat) (id : NodeId) (span : Span) (method : Method) (signature : Signature)
    (blocks : List BlockFrame) (calls : List Context) : Infer Ty := do
  let saved ← context
  if limit ≤ saved.depth then
    fail (.recursionLimitExceeded method.name limit) id span
  else
    setContext fun c => { c with depth := c.depth + 1 }
    let scope ← openScope none (method.definition.params.zip signature)
    setContext fun c => { c with scope, blocks, method? := some method.name }
    afterwards
      (fun s => { s with
        context := ⟨saved.scope, saved.blocks, saved.method?, s.context.depth - 1⟩ })
      (body (expr calls) method.definition.body)

def plainCall (limit : Nat) (id : NodeId) (span : Span) (method : Method) (signature : Signature) :
    Infer Ty :=
  match method.returns? signature with
  | some ty => return ty
  | none => do
    updateMethod method.name (·.store signature .nil)
    let ty ← methodBody expr limit id span method signature [] []
    updateMethod method.name (·.store signature ty)
    return ty

def blockCall (limit : Nat) (id : NodeId) (span : Span) (method : Method) (signature : Signature)
    (block : Block Expr) (calls : List Context) : Infer Ty := do
  let call : BlockCall := ⟨method.name, signature, block.id⟩
  if call ∈ (← get).active then
    return .nil
  else
    let here ← context
    let frame : BlockFrame := ⟨block, here.scope, here.method?⟩
    let ty ← whileActive call
      (methodBody expr limit id span method signature (frame :: here.blocks) (here :: calls))
    updateMethod method.name (·.observe signature ty)
    return ty

def enter (limit : Nat) (calls : List Context) : Entry
  | id, span, method, signature, none => plainCall expr limit id span method signature
  | id, span, method, signature, some block =>
    blockCall expr limit id span method signature block calls

/-- A pass over a block, which must be where `call` was. -/
def blockPass (frame : BlockFrame) (call : Context) (calls : List Context) (args : Signature) :
    Infer Ty := do
  let scope ← openScope (some frame.scope) (paramTypes frame.block.params args)
  setContext fun c => { c with scope }
  let now ← context
  if now.blocks = call.blocks ∧ now.method? = call.method? ∧ frame.scope = call.scope then
    body (expr calls) frame.block.body
  else
    throw .outOfFuel

def runBlock (fuel : Nat) (frame : BlockFrame) (outer : List BlockFrame) (call : Context)
    (calls : List Context) (args : Signature) : Infer Ty := do
  let saved ← context
  setContext fun c => { c with blocks := outer, method? := frame.method? }
  afterwards
    (fun s => { s with
      context := ⟨saved.scope, saved.blocks, saved.method?, s.context.depth⟩ })
    (do
      let ty := Ty.unionOf
        (← untilStable (snapshot frame.scope) (blockPass expr frame call calls args) fuel)
      record frame.block.id ty
      return ty)

def yield (fuel : Nat) (calls : List Context) (id : NodeId) (span : Span) (args : List Expr) :
    Infer Ty := do
  let signature ← args.mapM (expr calls)
  match (← context).blocks, calls with
  | [], _ => fail .noBlockGiven id span
  | frame :: outer, call :: calls => runBlock expr fuel frame outer call calls signature
  | _ :: _, [] => throw .outOfFuel

def form (entry : Entry) (fuel : Nat) (calls : List Context) (id : NodeId) (span : Span) :
    Form Expr → Infer Ty
  | .literal v => return v.type
  | .var name => readVar id span name
  | .assign target value => assign (expr calls) target value
  | .call name nameSpan args block => call (expr calls) entry id span name nameSpan args block
  | .yield args => yield expr fuel calls id span args
  | .branch cond thenBody elseBody => branch (expr calls) cond thenBody elseBody
  | .loop cond stmts => loop (expr calls) fuel cond stmts
  | .define definition => define definition

def layer (entry : Entry) (fuel : Nat) (calls : List Context) (e : Expr) : Infer Ty := do
  let ty ← form expr entry fuel calls e.id e.span e.form
  record e.id ty
  return ty

end

end ByHand

/-- The type of an expression, in a run that puts the parts of the context back one at a time.  It
ends out of fuel if it finds that this goes wrong. -/
def exprByHand (limit : Nat) : Nat → List Context → Expr → Infer Ty
  | 0 => fun _ _ => throw .outOfFuel
  | fuel + 1 => fun calls =>
    ByHand.layer (exprByHand limit fuel) (ByHand.enter (exprByHand limit fuel) limit calls) fuel calls

/-! ### The same in the end -/

/-- The blocks in force go with calls that were resolved in these contexts. -/
inductive Resolved : List BlockFrame → List Context → Prop
  | nil : Resolved [] []
  | cons {frame : BlockFrame} {outer : List BlockFrame} {call : Context} {calls : List Context}
    (hscope : frame.scope = call.scope) (hmethod : frame.method? = call.method?)
    (hblocks : outer = call.blocks) (h : Resolved outer calls) :
    Resolved (frame :: outer) (call :: calls)

/-- All scopes in sight have been made, and the calls with the blocks in force are known. -/
structure Linked (calls : List Context) (s : Engine) : Prop where
  lt : ∀ i ∈ s.context.sight, i < s.scopes.size
  resolved : Resolved s.context.blocks calls

/-- From the states that a run may come to from `s₀` on, the steps do the same. -/
def Same (s₀ : Engine) (m n : Infer α) : Prop := ∀ ⦃s⦄, s₀.Extends s → m s = n s

namespace Same
variable {s₀ : Engine} {m n : Infer α} {f g : α → Infer β} {i : ScopeId}

theorem refl (m : Infer α) : Same s₀ m m := fun _ _ => rfl

theorem bind (h : Same s₀ m n) (hn : Restores n) (hf : ∀ a, Same s₀ (f a) (g a)) :
    Same s₀ (m >>= f) (n >>= g) := by
  intro s hs
  cases hrun : n s with
  | error e t => rw [bind_of_error hrun, bind_of_error ((h hs).trans hrun)]
  | ok a t =>
    rw [bind_of_ok hrun, bind_of_ok ((h hs).trans hrun)]
    exact hf a (hs.trans (hn.ok hrun))

theorem context {f : Context → Infer β} {n : Infer β} (h : Same s₀ n (f s₀.context)) :
    Same s₀ n (Infer.context >>= f) := by
  intro s hs
  rw [bind_of_ok context_apply, hs.context]
  exact h hs

/-- A look at the tables of a scope that was there before. -/
theorem look {look : Infer Snapshot} {f g : Snapshot → Infer β} (hi : i < s₀.scopes.size)
    (hlook : Same s₀ look (snapshot i))
    (h : ∀ a : Snapshot, a.map Prod.fst = s₀.scopes.chain i → Same s₀ (f a) (g a)) :
    Same s₀ (look >>= f) (snapshot i >>= g) := by
  intro s hs
  have hrun := (hlook hs).trans (snapshot_apply i)
  rw [bind_of_ok hrun, bind_of_ok (snapshot_apply i)]
  refine h _ ?_ hs
  rw [Scopes.map_fst_snapshot, hs.scopes.chain hi]

theorem here : Same s₀ ByHand.here (snapshot s₀.context.scope) := by
  intro s hs
  show snapshot s.context.scope s = _
  rw [hs.context]

theorem merge {a b : Snapshot} {f : Snapshot → Infer β} {n : Infer β}
    (h : a.map Prod.fst = b.map Prod.fst) (hf : Same s₀ (f (a.merge b)) n) :
    Same s₀ (ByHand.merge a b >>= f) n := by
  intro s hs
  unfold ByHand.merge
  rw [if_pos h]
  exact hf hs

theorem untilStable {look : Infer Snapshot} (hi : i < s₀.scopes.size)
    (hlook : Same s₀ look (snapshot i)) (h : Same s₀ m n) (hn : Restores n) (fuel : Nat) :
    Same s₀ (ByHand.untilStable look m fuel) (untilStable i n fuel) := by
  induction fuel with
  | zero => exact refl _
  | succ fuel ih =>
    refine Same.look hi hlook fun before hbefore => h.bind hn fun a => ?_
    refine Same.look hi hlook fun after hafter => merge (hbefore.trans hafter.symm) ?_
    refine (refl _).bind (.restore _) fun _ => ?_
    split
    · exact refl _
    · exact ih.bind (hn.untilStable i fuel) fun _ => refl _

section
variable {expr₁ expr₂ : Expr → Infer Ty} (h : ∀ e, Same s₀ (expr₁ e) (expr₂ e))
  (hrest : ∀ e, Restores (expr₂ e))
include h hrest

theorem body (stmts : List Expr) : Same s₀ (body expr₁ stmts) (body expr₂ stmts) := by
  unfold Infer.body
  generalize Ty.nil = ty
  induction stmts generalizing ty with
  | nil => exact refl _
  | cons stmt stmts ih =>
    rw [List.foldlM_cons, List.foldlM_cons]
    exact (h stmt).bind (hrest stmt) ih

theorem mapM (args : List Expr) : Same s₀ (args.mapM expr₁) (args.mapM expr₂) := by
  induction args with
  | nil => exact refl _
  | cons arg args ih =>
    rw [List.mapM_cons, List.mapM_cons]
    exact (h arg).bind (hrest arg) fun ty => ih.bind (.mapM hrest args) fun tys => refl _

theorem branch (hscope : s₀.context.scope < s₀.scopes.size) (cond : Expr) (thenBody : List Expr)
    (elseBody : Option (List Expr)) :
    Same s₀ (ByHand.branch expr₁ cond thenBody elseBody) (branch expr₂ cond thenBody elseBody) := by
  refine (h cond).bind (hrest cond) fun _ => context ?_
  refine look hscope here fun before _ => (body h hrest thenBody).bind (.body hrest _) fun thenType => ?_
  refine look hscope here fun afterThen hthen => (refl _).bind (.restore _) fun _ => ?_
  refine (body h hrest (elseBody.getD [])).bind (.body hrest _) fun elseType => ?_
  refine look hscope here fun afterElse helse => merge (hthen.trans helse.symm) ?_
  exact refl _

theorem loop (hscope : s₀.context.scope < s₀.scopes.size) (fuel : Nat) (cond : Expr)
    (stmts : List Expr) :
    Same s₀ (ByHand.loop expr₁ fuel cond stmts) (loop expr₂ fuel cond stmts) := by
  have hpass : Same s₀ (loopPass expr₁ cond stmts) (loopPass expr₂ cond stmts) :=
    (body h hrest stmts).bind (.body hrest _) fun _ => h cond
  have hrestPass : Restores (loopPass expr₂ cond stmts) :=
    (Restores.body hrest stmts).bind fun _ => hrest cond
  refine (h cond).bind (hrest cond) fun _ => context ?_
  exact (untilStable hscope here hpass hrestPass fuel).bind (hrestPass.untilStable _ fuel)
    fun _ => refl _

theorem call {entry₁ entry₂ : Entry}
    (hentry : ∀ id span method signature block,
      Same s₀ (entry₁ id span method signature block) (entry₂ id span method signature block))
    (id : NodeId) (span : Span) (name : String) (nameSpan : Span) (args : List Expr)
    (block : Option (Block Expr)) :
    Same s₀ (call expr₁ entry₁ id span name nameSpan args block)
      (call expr₂ entry₂ id span name nameSpan args block) := by
  refine (mapM h hrest args).bind (.mapM hrest args) fun signature => (refl _).bind .get fun s => ?_
  cases s.module.method? name with
  | none => exact refl _
  | some method =>
    show Same s₀ (if _ then _ else _) (if _ then _ else _)
    split
    · exact refl _
    · exact hentry id span method signature block

end

/-- The end of a step in another context. -/
def endIn (c : Context) : EStateM.Result Stop Engine α → EStateM.Result Stop Engine α
  | .ok a t => .ok a { t with context := c }
  | .error e t => .error e { t with context := c }

theorem endIn_endIn (c d : Context) (r : EStateM.Result Stop Engine α) :
    endIn c (endIn d r) = endIn c r := by
  cases r <;> rfl

theorem within_eq (c : Context) (m : Infer α) (s : Engine) :
    within c m s = endIn s.context (m { s with context := c }) := by
  unfold within
  cases m { s with context := c } <;> rfl

theorem endIn_of_restores (h : Restores m) (s : Engine) : endIn s.context (m s) = m s := by
  cases hm : m s with
  | ok a t => rw [← (h.ok hm).context]; rfl
  | error e t => rw [← (h.error hm).context]; rfl

/-- Putting the context back behind a step. -/
theorem afterwards {f : Engine → Engine} {c : Context} {s : Engine}
    (hm : m { s with context := c } = n { s with context := c }) (hn : Restores n)
    (hf : ∀ t : Engine, t.context = c → f t = { t with context := s.context }) :
    afterwards f m { s with context := c } = within c n s := by
  unfold Infer.afterwards Infer.within
  rw [hm]
  cases hrun : n { s with context := c } with
  | ok a t => exact congrArg _ (hf t (hn.ok hrun).context)
  | error e t => exact congrArg _ (hf t (hn.error hrun).context)

theorem whileActive {call : BlockCall} (h : Same { s₀ with active := call :: s₀.active } m n) :
    Same s₀ (whileActive call m) (whileActive call n) := by
  intro s hs
  have hinside : Engine.Extends { s₀ with active := call :: s₀.active }
      { s with active := call :: s.active } :=
    ⟨hs.context, congrArg (call :: ·) hs.active, hs.scopes⟩
  unfold Infer.whileActive
  rw [h hinside]

section
variable {hand : List Context → Expr → Infer Ty} {expr : Expr → Infer Ty}
  (h : ∀ {calls : List Context} {s : Engine}, Linked calls s → ∀ e, Same s (hand calls e) (expr e))
  (hrest : ∀ e, Restores (expr e)) {calls : List Context} {blocks : List BlockFrame}
include h hrest

/-- A body in a new scope, as it is at the end of putting its context together. -/
theorem opened {s : Engine} (context : Context) (parent? : Option ScopeId)
    (params : List (Ident × Ty)) (hscope : context.scope = s.scopes.size)
    (hlt : ∀ f ∈ context.blocks, f.scope < s.scopes.size) (hcalls : Resolved context.blocks calls)
    (stmts : List Expr) :
    Infer.body (hand calls) stmts (Refines.opened s context parent? params) =
      Infer.body expr stmts (Refines.opened s context parent? params) := by
  have hsize : (s.scopes.opened parent? (.ofParams params)).size = s.scopes.size + 1 := by
    rw [Scopes.opened, Scopes.size_setTable, Scopes.size_push]
  have hlinked : Linked calls (Refines.opened s context parent? params) := by
    refine ⟨fun i hi => ?_, hcalls⟩
    show i < (s.scopes.opened parent? _).size
    rw [hsize]
    rcases List.mem_cons.1 hi with rfl | hi
    · rw [show (Refines.opened s context parent? params).context = context from rfl, hscope]
      exact Nat.lt_succ_self _
    · obtain ⟨f, hf, rfl⟩ := List.mem_map.1 hi
      exact Nat.lt_succ_of_lt (hlt f hf)
  exact body (h hlinked) hrest stmts (.refl _)

theorem methodBody (hlt : ∀ f ∈ blocks, f.scope < s₀.scopes.size) (hcalls : Resolved blocks calls)
    (limit : Nat) (id : NodeId) (span : Span) (method : Method) (signature : Signature) :
    Same s₀ (ByHand.methodBody hand limit id span method signature blocks calls)
      (methodBody expr limit id span method signature blocks) := by
  intro s hs
  rw [methodBody_apply, ByHand.methodBody, bind_of_ok context_apply]
  by_cases hlimit : limit ≤ s.context.depth
  · rw [if_pos hlimit, if_pos hlimit]
  rw [if_neg hlimit, if_neg hlimit]
  let inside : Context := ⟨s.scopes.size, blocks, some method.name, s.context.depth + 1⟩
  let params := method.definition.params.zip signature
  have hbody := opened h hrest inside none params rfl
    (fun f hf => hs.scopes.lt (hlt f hf)) hcalls method.definition.body
  show (Infer.openScope none params >>= _ : Infer Ty)
    { s with context := { s.context with depth := s.context.depth + 1 } } = _
  rw [bind_of_ok (openScope_apply _ _)]
  refine Same.afterwards (c := inside) (s := { s with
    scopes := s.scopes.opened none (.ofParams params)
    module := s.module.recordParams params }) hbody (.body hrest _) fun t ht => ?_
  rw [ht]
  rfl

theorem enter (hlinked : Linked calls s₀) (limit : Nat) (id : NodeId) (span : Span) (method : Method)
    (signature : Signature) (block : Option (Block Expr)) :
    Same s₀ (ByHand.enter hand limit calls id span method signature block)
      (enter expr limit id span method signature block) := by
  cases block with
  | none =>
    show Same s₀ (ByHand.plainCall hand limit id span method signature)
      (plainCall expr limit id span method signature)
    unfold ByHand.plainCall plainCall
    cases method.returns? signature with
    | some ty => exact refl _
    | none =>
      have hbody : Same s₀ (ByHand.methodBody hand limit id span method signature [] [])
          (Infer.methodBody expr limit id span method signature []) :=
        methodBody h hrest (fun _ hf => absurd hf List.not_mem_nil) .nil limit id span method signature
      exact (refl _).bind (.updateMethod _ _) fun _ =>
        hbody.bind (.methodBody hrest limit id span method signature []) fun ty => refl _
  | some b =>
    refine (refl _).bind .get fun s => ?_
    show Same s₀ (if _ ∈ s.active then _ else _) (if _ ∈ s.active then _ else _)
    split
    · exact refl _
    · let call : BlockCall := ⟨method.name, signature, b.id⟩
      let frames : List BlockFrame := ⟨b, s₀.context.scope, s₀.context.method?⟩ :: s₀.context.blocks
      let inside : Engine := { s₀ with active := call :: s₀.active }
      have hframes : ∀ f ∈ frames, f.scope < inside.scopes.size := by
        refine List.forall_mem_cons.2 ⟨hlinked.lt _ List.mem_cons_self, fun f hf => ?_⟩
        exact hlinked.lt _ (List.mem_cons_of_mem _ (List.mem_map_of_mem hf))
      have hresolved : Resolved frames (s₀.context :: calls) := .cons rfl rfl rfl hlinked.resolved
      have hbody : Same inside
          (ByHand.methodBody hand limit id span method signature frames (s₀.context :: calls))
          (Infer.methodBody expr limit id span method signature frames) :=
        methodBody h hrest hframes hresolved limit id span method signature
      intro s hs
      rw [bind_of_ok context_apply, bind_of_ok context_apply, hs.context]
      refine hbody.whileActive.bind (.whileActive _ (.methodBody hrest limit id span method signature _))
        (fun ty => ?_) hs
      exact refl _

/-! ### Passes over a block -/

section
variable {frame : BlockFrame} {outer : List BlockFrame} {call : Context}
  (hscope : frame.scope = call.scope) (hmethod : frame.method? = call.method?)
  (houter : outer = call.blocks) (hcalls : Resolved outer calls)
  (hlt : ∀ i ∈ frame.scope :: outer.map BlockFrame.scope, i < s₀.scopes.size)
include hscope hmethod houter hcalls hlt

/-- A pass starts in the context of the call, at whatever scope the pass before was. -/
theorem blockPass {s : Engine} (hs : s₀.Extends s) (args : Signature) (depth : Nat) (k : ScopeId) :
    ByHand.blockPass hand frame call calls args
        { s with context := ⟨k, outer, frame.method?, depth⟩ } =
      endIn ⟨s.scopes.size, outer, frame.method?, depth⟩
        (blockPass expr frame outer depth args s) := by
  let params := paramTypes frame.block.params args
  let inside : Context := ⟨s.scopes.size, outer, frame.method?, depth⟩
  have hbody := opened h hrest inside (some frame.scope) params rfl
    (fun f hf => hs.scopes.lt (hlt _ (List.mem_cons_of_mem _ (List.mem_map_of_mem hf)))) hcalls
    frame.block.body
  rw [blockPass_apply, ByHand.blockPass, bind_of_ok (openScope_apply _ _)]
  have hcall : outer = call.blocks ∧ frame.method? = call.method? ∧ frame.scope = call.scope :=
    ⟨houter, hmethod, hscope⟩
  show (if outer = call.blocks ∧ frame.method? = call.method? ∧ frame.scope = call.scope then _
    else _ : Infer Ty) (Refines.opened s inside (some frame.scope) params) = _
  rw [if_pos hcall, hbody]
  rw [within_eq, endIn_endIn]
  exact (endIn_of_restores (.body hrest _) (Refines.opened s inside (some frame.scope) params)).symm

/-- Where the scope at hand is between passes does not matter. -/
theorem passes (args : Signature) (depth fuel : Nat) {s : Engine} (hs : s₀.Extends s) (k : ScopeId) :
    ∃ k', ByHand.untilStable (snapshot frame.scope) (ByHand.blockPass hand frame call calls args) fuel
        { s with context := ⟨k, outer, frame.method?, depth⟩ } =
      endIn ⟨k', outer, frame.method?, depth⟩
        (Infer.untilStable frame.scope (Infer.blockPass expr frame outer depth args) fuel s) := by
  induction fuel generalizing s k with
  | zero => exact ⟨k, rfl⟩
  | succ fuel ih =>
    have hpass := blockPass h hrest hscope hmethod houter hcalls hlt hs args depth k
    have hrestPass := Restores.blockPass hrest frame outer depth args
    unfold ByHand.untilStable Infer.untilStable
    rw [bind_of_ok (snapshot_apply _), bind_of_ok (snapshot_apply _)]
    cases hrun : Infer.blockPass expr frame outer depth args s with
    | error e t =>
      rw [hrun] at hpass
      rw [bind_of_error hpass, bind_of_error hrun]
      exact ⟨s.scopes.size, rfl⟩
    | ok a t =>
      rw [hrun] at hpass
      rw [bind_of_ok hpass, bind_of_ok hrun, bind_of_ok (snapshot_apply _),
        bind_of_ok (snapshot_apply _)]
      have ht := hs.trans (hrestPass.ok hrun)
      have hframe := hlt frame.scope List.mem_cons_self
      have hids : (s.scopes.snapshot frame.scope).map Prod.fst =
          (t.scopes.snapshot frame.scope).map Prod.fst := by
        rw [Scopes.map_fst_snapshot, Scopes.map_fst_snapshot, hs.scopes.chain hframe,
          ht.scopes.chain hframe]
      let merged := (s.scopes.snapshot frame.scope).merge (t.scopes.snapshot frame.scope)
      let next : Engine := { t with scopes := t.scopes.restore merged }
      have hnext : s₀.Extends next := ht.trans ⟨rfl, rfl, .restore _ _⟩
      have hmerge : ByHand.merge (s.scopes.snapshot frame.scope) (t.scopes.snapshot frame.scope)
          { t with context := ⟨s.scopes.size, outer, frame.method?, depth⟩ } =
            .ok merged { t with context := ⟨s.scopes.size, outer, frame.method?, depth⟩ } := by
        unfold ByHand.merge
        rw [if_pos hids]
        rfl
      rw [bind_of_ok hmerge, bind_of_ok (restore_apply _), bind_of_ok (restore_apply _)]
      by_cases hstop : merged = s.scopes.snapshot frame.scope
      · rw [if_pos hstop, if_pos hstop]
        exact ⟨s.scopes.size, rfl⟩
      · rw [if_neg hstop, if_neg hstop]
        obtain ⟨k', hmore⟩ := ih hnext s.scopes.size
        refine ⟨k', ?_⟩
        cases hrest' : Infer.untilStable frame.scope (Infer.blockPass expr frame outer depth args) fuel
            next with
        | error e u =>
          rw [hrest'] at hmore
          rw [bind_of_error hmore, bind_of_error hrest']
          rfl
        | ok as u =>
          rw [hrest'] at hmore
          rw [bind_of_ok hmore, bind_of_ok hrest']
          rfl

theorem runBlock (fuel : Nat) (args : Signature) :
    Same s₀ (ByHand.runBlock hand fuel frame outer call calls args)
      (runBlock expr fuel frame outer args) := by
  intro s hs
  rw [ByHand.runBlock, Infer.runBlock, bind_of_ok context_apply, bind_of_ok context_apply]
  obtain ⟨k, hpasses⟩ := passes h hrest hscope hmethod houter hcalls hlt args
    s.context.depth fuel hs s.context.scope
  have hrestPass := Restores.blockPass hrest frame outer s.context.depth args
  let inside : Context := ⟨s.context.scope, outer, frame.method?, s.context.depth⟩
  show Infer.afterwards _ _ { s with context := inside } = _
  unfold Infer.afterwards
  cases hrun : Infer.untilStable frame.scope
      (Infer.blockPass expr frame outer s.context.depth args) fuel s with
  | error e t =>
    rw [hrun] at hpasses
    rw [bind_of_error hpasses, bind_of_error hrun]
    have ht := (hrestPass.untilStable frame.scope fuel).error hrun
    show EStateM.Result.error e { t with context := s.context } = .error e t
    rw [← ht.context]
  | ok tys t =>
    rw [hrun] at hpasses
    rw [bind_of_ok hpasses, bind_of_ok hrun]
    have ht := (hrestPass.untilStable frame.scope fuel).ok hrun
    show EStateM.Result.ok (Ty.unionOf tys) { t with
      module := t.module.record frame.block.id (Ty.unionOf tys), context := s.context } =
        .ok (Ty.unionOf tys) { t with module := t.module.record frame.block.id (Ty.unionOf tys) }
    rw [← ht.context]

end

theorem yield (hlinked : Linked calls s₀) (fuel : Nat) (id : NodeId) (span : Span)
    (args : List Expr) :
    Same s₀ (ByHand.yield hand fuel calls id span args) (yield expr fuel id span args) := by
  refine (mapM (h hlinked) hrest args).bind (.mapM hrest args) fun signature s hs => ?_
  rw [bind_of_ok context_apply, bind_of_ok context_apply, hs.context]
  have hresolved := hlinked.resolved
  have hlt : ∀ i ∈ s₀.context.blocks.map BlockFrame.scope, i < s₀.scopes.size := fun i hi =>
    hlinked.lt i (List.mem_cons_of_mem _ hi)
  generalize s₀.context.blocks = blocks at hresolved hlt
  cases hresolved with
  | nil => rfl
  | cons hscope hmethod houter hcalls =>
    exact runBlock h hrest hscope hmethod houter hcalls hlt fuel signature hs

theorem layer (hlinked : Linked calls s₀) {entry₁ entry₂ : Entry}
    (hentry : ∀ id span method signature block,
      Same s₀ (entry₁ id span method signature block) (entry₂ id span method signature block))
    (hrestEntry : ∀ id span method signature block, Restores (entry₂ id span method signature block))
    (fuel : Nat) (e : Expr) :
    Same s₀ (ByHand.layer hand entry₁ fuel calls e) (layer expr entry₂ fuel e) := by
  have hscope := hlinked.lt _ List.mem_cons_self
  refine bind ?_ (.form hrest hrestEntry fuel e.id e.span e.form) fun ty => refl _
  unfold ByHand.form form
  cases e.form with
  | literal v => exact refl _
  | var name => exact refl _
  | assign target value => exact (h hlinked value).bind (hrest value) fun ty => refl _
  | call name nameSpan args block =>
    exact call (h hlinked) hrest hentry e.id e.span name nameSpan args block
  | yield args => exact yield h hrest hlinked fuel e.id e.span args
  | branch cond thenBody elseBody => exact branch (h hlinked) hrest hscope cond thenBody elseBody
  | loop cond stmts => exact loop (h hlinked) hrest hscope fuel cond stmts
  | define definition => exact refl _

end

end Same

/-- Restoring by hand comes to the same, for contexts that go with the blocks in force. -/
theorem same_exprByHand (limit fuel : Nat) {calls : List Context} {s : Engine}
    (hlinked : Linked calls s) (e : Expr) :
    Same s (exprByHand limit fuel calls e) (expr limit fuel e) := by
  induction fuel generalizing calls s e with
  | zero => exact .refl _
  | succ fuel ih =>
    have hrest := restores_expr limit fuel
    exact Same.layer ih hrest hlinked (Same.enter ih hrest hlinked limit) (.enter hrest limit) fuel e

end Infer

/-- Infers the types of a program, with contexts that are restored by hand. -/
def Program.inferByHand (p : Program) (limit : Nat) : Except Stop Module :=
  match Infer.body (Infer.exprByHand limit (p.fuel limit) []) p.stmts .initial with
  | .ok ty s => .ok { s.module with result := ty }
  | .error e _ => .error e

/-- However an evaluation ends, its context is restored.  Where a run has restored it by hand so far,
each choice, loop and block merges snapshots of the same scopes, and each pass over a block is in the
context of the call with the block. -/
theorem Program.inferByHand_eq (p : Program) (limit : Nat) :
    (∀ fuel e, Infer.Restores (Infer.expr limit fuel e)) ∧
      (p.Always limit fun _ s => ∀ calls, Infer.Resolved s.context.blocks calls →
        ∀ fuel e, Infer.exprByHand limit fuel calls e s = Infer.expr limit fuel e s) ∧
      p.inferByHand limit = p.infer limit ∧ p.inferByHand limit ≠ .error .outOfFuel := by
  have heq : p.inferByHand limit = p.infer limit := by
    have hlinked : Infer.Linked [] Engine.initial :=
      ⟨(Engine.fits_initial p).apart.lt, .nil⟩
    have hrun := Infer.Same.body (Infer.same_exprByHand limit (p.fuel limit) hlinked)
      (Infer.restores_expr limit _) p.stmts (.refl _)
    cases hend : p.run limit .initial with
    | ok ty t => simp only [inferByHand, infer, hrun.trans hend, hend]
    | error e t => simp only [inferByHand, infer, hrun.trans hend, hend]
  refine ⟨Infer.restores_expr limit, ?_, heq, ?_⟩
  · refine (p.always_visits limit).mono fun _ s hvisits calls hcalls fuel e => ?_
    exact Infer.same_exprByHand limit fuel ⟨hvisits.fits.apart.lt, hcalls⟩ e (.refl s)
  · rw [heq]
    rcases (p.infer_ends limit).1 with ⟨m, h⟩ | ⟨e, h⟩
    · rw [h]; exact nofun
    · rw [h]; exact nofun

end FlowTyping
