import FlowTyping.Proofs.Learning
import FlowTyping.Proofs.Termination

/-!
# Bodies under inference

The engine counts the bodies of methods that are under inference at once, and does not list them.
`Infer.exprOpening` is the inference with the list at hand, and with breakpoints where a body is opened;
what holds of the list at all times is what no breakpoint refutes (`Program.AlwaysOpens`).

`Program.MayOpen` is what holds of it: it is no longer than the limit, it lists methods, signatures and
blocks of the program, and if nothing is defined inside methods and blocks it lists nothing twice.  A
body that is under inference for a call without a block is known to return something, and nothing that
is known of a call is forgotten meanwhile (`Engine.Opened`).
-/

namespace FlowTyping

/-- A body under inference: the method, the signature of the call, and the block that goes with it. -/
structure OpenBody where
  method : String
  signature : Signature
  block? : Option NodeId
deriving DecidableEq

namespace Infer

/-- What a call does around the body of the method, which `run` evaluates with some blocks in force. -/
def around (run : List BlockFrame → Infer Ty) (method : Method) (signature : Signature) :
    Option (Block Expr) → Infer Ty
  | none =>
    match method.returns? signature with
    | some ty => return ty
    | none => do
      updateMethod method.name (·.store signature .nil)
      let ty ← run []
      updateMethod method.name (·.store signature ty)
      return ty
  | some block => do
    let call : BlockCall := ⟨method.name, signature, block.id⟩
    if call ∈ (← get).active then
      return .nil
    else
      let here ← context
      let ty ← whileActive call (run (⟨block, here.scope, here.method?⟩ :: here.blocks))
      updateMethod method.name (·.observe signature ty)
      return ty

section
variable {run : List BlockFrame → Infer Ty} {method : Method} {signature : Signature}

theorem around_of_some {ty : Ty} (h : method.returns? signature = some ty) :
    around run method signature none = pure ty := by
  unfold around; rw [h]

theorem around_of_none (h : method.returns? signature = none) :
    around run method signature none = (updateMethod method.name (·.store signature .nil) >>= fun _ =>
      run [] >>= fun ty => updateMethod method.name (·.store signature ty) >>= fun _ => pure ty) := by
  unfold around; rw [h]

end

theorem enter_eq_around (expr : Expr → Infer Ty) (limit : Nat) (id : NodeId) (span : Span)
    (method : Method) (signature : Signature) (block : Option (Block Expr)) :
    enter expr limit id span method signature block =
      around (methodBody expr limit id span method signature) method signature block := by
  cases block <;> rfl

/-- A step that opens a body, if the limit allows one more.  It ends out of fuel instead if `halt` asks
for the bodies that are then under inference. -/
def opens (halt : List OpenBody → Bool) (limit : Nat) (bodies : List OpenBody) (step : Infer Ty) :
    Infer Ty := fun s =>
  if s.context.depth < limit ∧ halt bodies = true then .error .outOfFuel s else step s

/-- What a call does while some bodies are under inference. -/
def entering (halt : List OpenBody → Bool) (limit : Nat) (tracked : List OpenBody → Expr → Infer Ty)
    (bodies : List OpenBody) : Entry := fun id span method signature block =>
  let inside := ⟨method.name, signature, block.map (·.id)⟩ :: bodies
  let run := methodBody (tracked inside) limit id span method signature
  around (fun blocks => opens halt limit inside (run blocks)) method signature block

/-- The type of an expression that is evaluated while some bodies are under inference, in a run that
ends out of fuel at breakpoints: `stop` asks for evaluations, and `halt` for openings of bodies. -/
def exprOpening (stop : Expr → Engine → Bool) (halt : List OpenBody → Bool) (limit : Nat) :
    Nat → List OpenBody → Expr → Infer Ty
  | 0, _ => fun _ => throw .outOfFuel
  | fuel + 1, bodies => fun e s =>
    if stop e s then .error .outOfFuel s
    else
      layer (exprOpening stop halt limit fuel bodies)
        (entering halt limit (exprOpening stop halt limit fuel) bodies) fuel e s

end Infer

/-- Whenever a body is opened in the run of a program, `Q` holds of the bodies that are then under
inference, the new one first. -/
def Program.AlwaysOpens (p : Program) (limit : Nat) (Q : List OpenBody → Prop) : Prop :=
  ∀ halt : List OpenBody → Bool, (∀ bodies, halt bodies = true → ¬ Q bodies) → ∀ s,
    Infer.body (Infer.exprOpening (fun _ _ => false) halt limit (p.fuel limit) []) p.stmts .initial ≠
      .error .outOfFuel s

/-! ### Runs that are the same -/

namespace Infer

/-- From the states with `I` the one step does what the other one does; it comes to states with `J`, or
ends with one of the stops `X`. -/
def Mirrors (X : Stop → Prop) (I J : Engine → Prop) (m n : Infer α) : Prop :=
  ∀ ⦃s⦄, I s → m s = n s ∧
    match n s with
    | .ok _ t => J t
    | .error e _ => X e

namespace Mirrors
variable {X : Stop → Prop} {I I' J J' K : Engine → Prop} {m n : Infer α} {f g : α → Infer β}
  {s t : Engine} {a : α}

theorem bind (h : Mirrors X I J m n)
    (hf : ∀ a ⦃u t⦄, I u → n u = .ok a t → J t →
      Mirrors X (· = t) K (f a) (g a)) :
    Mirrors X I K (m >>= f) (n >>= g) := by
  intro s hs
  obtain ⟨hmn, hn⟩ := h hs
  cases hrun : n s with
  | ok a t =>
    rw [hrun] at hn
    rw [bind_of_ok (hmn.trans hrun), bind_of_ok hrun]
    exact hf a hs hrun hn rfl
  | error e t =>
    rw [hrun] at hn
    rw [bind_of_error (hmn.trans hrun), bind_of_error hrun]
    exact ⟨rfl, hn⟩

/-- In sequence, where the second step is the same from all states. -/
theorem andThen (h : Mirrors X I J m n) (hf : ∀ a, Mirrors X J K (f a) (g a)) :
    Mirrors X I K (m >>= f) (n >>= g) :=
  h.bind fun a _ _ _ _ ht _ hu => hf a (hu ▸ ht)

theorem give (a : α) : Mirrors X I I (pure a) (pure a) := fun _ hs => ⟨rfl, hs⟩

theorem change {g : Engine → Engine} (h : ∀ s, I s → J (g s)) : Mirrors X I J (modify g) (modify g) :=
  fun s hs => ⟨rfl, h s hs⟩

theorem outOfFuel (h : X .outOfFuel) : Mirrors X I J (throw .outOfFuel : Infer α) (throw .outOfFuel) :=
  fun _ _ => ⟨rfl, h⟩

theorem fail {cause : TypeError.Cause} {node : NodeId} {span : Span}
    (h : ∀ method?, X (.error ⟨cause, node, span, method?⟩)) :
    Mirrors X I J (fail cause node span : Infer α) (fail cause node span) :=
  fun s _ => ⟨rfl, h s.context.method?⟩

theorem get {f g : Engine → Infer β} (hf : ∀ s, I s → Mirrors X (· = s) J (f s) (g s)) :
    Mirrors X I J (get >>= f) (get >>= g) := by
  intro s hs
  rw [bind_of_ok get_apply, bind_of_ok get_apply]
  exact hf s hs rfl

theorem context {f g : Context → Infer β} (hf : ∀ s, I s → Mirrors X I J (f s.context) (g s.context)) :
    Mirrors X I J (context >>= f) (Infer.context >>= g) := by
  intro s hs
  rw [bind_of_ok context_apply, bind_of_ok context_apply]
  exact hf s hs hs

theorem snapshot (scope : ScopeId) : Mirrors X I I (snapshot scope) (Infer.snapshot scope) :=
  fun _ hs => ⟨rfl, hs⟩

theorem within {c : Context} (hgo : ∀ s, I s → I' { s with context := c })
    (hback : ∀ s t, I s → J' t → J { t with context := s.context }) (h : Mirrors X I' J' m n) :
    Mirrors X I J (within c m) (within c n) := by
  intro s hs
  obtain ⟨hmn, hn⟩ := h (hgo s hs)
  unfold Infer.within
  rw [hmn]
  refine ⟨rfl, ?_⟩
  cases hrun : n { s with context := c } with
  | ok a t => rw [hrun] at hn; exact hback s t hs hn
  | error e t => rw [hrun] at hn; exact hn

theorem whileActive {call : BlockCall} (hgo : ∀ s, I s → I' { s with active := call :: s.active })
    (hback : ∀ s t, I s → J' t → J { t with active := t.active.erase call })
    (h : Mirrors X I' J' m n) :
    Mirrors X I J (whileActive call m) (whileActive call n) := by
  intro s hs
  obtain ⟨hmn, hn⟩ := h (hgo s hs)
  unfold Infer.whileActive
  rw [hmn]
  refine ⟨rfl, ?_⟩
  cases hrun : n { s with active := call :: s.active } with
  | ok a t => rw [hrun] at hn; exact hback s t hs hn
  | error e t => rw [hrun] at hn; exact hn

theorem body {expr₁ expr₂ : Expr → Infer Ty} {stmts : List Expr}
    (h : ∀ stmt ∈ stmts, Mirrors X I I (expr₁ stmt) (expr₂ stmt)) :
    Mirrors X I I (body expr₁ stmts) (body expr₂ stmts) := by
  unfold Infer.body
  generalize Ty.nil = ty
  induction stmts generalizing ty with
  | nil => exact give ty
  | cons stmt stmts ih =>
    rw [List.foldlM_cons, List.foldlM_cons]
    exact (h stmt List.mem_cons_self).andThen (ih fun e he => h e (List.mem_cons_of_mem _ he))

theorem mapM {expr₁ expr₂ : Expr → Infer Ty} {args : List Expr}
    (h : ∀ arg ∈ args, Mirrors X I I (expr₁ arg) (expr₂ arg)) :
    Mirrors X I I (args.mapM expr₁) (args.mapM expr₂) := by
  induction args with
  | nil => exact give []
  | cons arg args ih =>
    rw [List.mapM_cons, List.mapM_cons]
    refine (h arg List.mem_cons_self).andThen fun ty => ?_
    exact (ih fun e he => h e (List.mem_cons_of_mem _ he)).andThen fun tys => give (ty :: tys)

theorem untilStable (hX : X .outOfFuel) (hI : ∀ s scopes, I s → I { s with scopes }) {scope : ScopeId}
    (h : Mirrors X I I m n) (fuel : Nat) :
    Mirrors X I I (untilStable scope m fuel) (untilStable scope n fuel) := by
  induction fuel with
  | zero => exact outOfFuel hX
  | succ fuel ih =>
    refine (snapshot scope).andThen fun before => h.andThen fun a => (snapshot scope).andThen
      fun after => ?_
    refine (change fun s hs => hI s _ hs).andThen fun _ => ?_
    split
    · exact give _
    · exact ih.andThen fun _ => give _

end Mirrors

/-- All values of a list of evaluations are of a kind that each evaluation gives. -/
theorem forall_of_mapM_ok {expr : Expr → Infer Ty} {V : Ty → Prop}
    (h : ∀ e s ty t, expr e s = .ok ty t → V ty) {args : List Expr} {s t : Engine} {tys : List Ty}
    (hrun : args.mapM expr s = .ok tys t) : ∀ ty ∈ tys, V ty := by
  induction args generalizing s tys with
  | nil => cases hrun; exact fun _ h => absurd h List.not_mem_nil
  | cons arg args ih =>
    rw [List.mapM_cons] at hrun
    obtain ⟨ty, s₁, harg, hrun⟩ := bind_eq_ok_iff.1 hrun
    obtain ⟨rest, s₂, hrest, hrun⟩ := bind_eq_ok_iff.1 hrun
    cases hrun
    exact List.forall_mem_cons.2 ⟨h arg s ty s₁ harg, ih hrest⟩

end Infer

/-! ### The bodies that are under inference -/

/-- A definition that is written in a program. -/
def Program.Defines (p : Program) (d : Definition Expr) : Prop := ∃ e, p.Has e ∧ e.form = .define d

/-- A block that is written in a program. -/
def Program.Writes (p : Program) (b : Block Expr) : Prop :=
  ∃ e name nameSpan args, p.Has e ∧ e.form = .call name nameSpan args (some b)

/-- A method of the program, a signature that fits it, and none or one of the blocks of the program. -/
structure Program.Openable (p : Program) (b : OpenBody) : Prop where
  method : ∃ d, p.Defines d ∧ d.name.name = b.method ∧ d.params.length = b.signature.length
  signature : ∀ ty ∈ b.signature, ty.Basic
  block : ∀ i, b.block? = some i → ∃ block, p.Writes block ∧ block.id = i

/-- What holds of the bodies that are under inference at once. -/
structure Program.MayOpen (p : Program) (limit : Nat) (bodies : List OpenBody) : Prop where
  le : bodies.length ≤ limit
  openable : ∀ b ∈ bodies, p.Openable b
  nodup : p.defsAtTop → bodies.Nodup

/-- What holds of an engine while some bodies are under inference. -/
structure Engine.Opened (p : Program) (bodies : List OpenBody) (s : Engine) : Prop where
  depth : s.context.depth = bodies.length
  methods : ∀ m ∈ s.module.methods, p.Defines m.definition
  frames : ∀ f ∈ s.context.blocks, p.Writes f.block
  active : ∀ b ∈ bodies, ∀ i, b.block? = some i → ⟨b.method, b.signature, i⟩ ∈ s.active
  known : p.defsAtTop → ∀ b ∈ bodies, b.block? = none →
    ∃ m, s.module.method? b.method = some m ∧ (m.returns? b.signature).isSome

/-- The evaluation comes to no definition while bodies are under inference, if they are all top-level
statements. -/
def Program.DefinesNone (p : Program) (bodies : List OpenBody) (e : Expr) : Prop :=
  p.defsAtTop → bodies = [] ∨ e.defFree

section
variable {p : Program} {limit fuel : Nat} {bodies : List OpenBody} {s t : Engine} {c : Context}
  {as : List BlockCall} {X : Stop → Prop}

theorem Program.Has.definesNone_part {e part : Expr} (h : p.Has e) (hp : part ∈ e.form.parts) :
    p.DefinesNone bodies part :=
  fun hdefs => .inr (h.defFree_part hdefs hp)

theorem Program.Defines.has {d : Definition Expr} (h : p.Defines d) {e : Expr} (he : e ∈ d.body) :
    p.Has e ∧ p.DefinesNone bodies e := by
  obtain ⟨node, hnode, hform⟩ := h
  have hpart : e ∈ node.form.parts := by rw [hform]; exact he
  exact ⟨.part hnode hpart, hnode.definesNone_part hpart⟩

theorem Program.Writes.has {b : Block Expr} (h : p.Writes b) {e : Expr} (he : e ∈ b.body) :
    p.Has e ∧ p.DefinesNone bodies e := by
  obtain ⟨node, name, nameSpan, args, hnode, hform⟩ := h
  have hpart : e ∈ node.form.parts := by rw [hform]; exact List.mem_append_right args he
  exact ⟨.part hnode hpart, hnode.definesNone_part hpart⟩

/-- In a fixed context, and while the same calls with a block are under way. -/
structure Engine.OpenedAt (p : Program) (bodies : List OpenBody) (c : Context) (as : List BlockCall)
    (s : Engine) : Prop extends s.Opened p bodies where
  context_eq : s.context = c
  active_eq : s.active = as

namespace Engine.OpenedAt

/-- Neither scopes nor the types of nodes matter. -/
theorem congr (h : s.OpenedAt p bodies c as) (hM : t.module.methods = s.module.methods)
    (hc : t.context = s.context) (ha : t.active = s.active) : t.OpenedAt p bodies c as where
  depth := by rw [hc]; exact h.depth
  methods := by rw [hM]; exact h.methods
  frames := by rw [hc]; exact h.frames
  active := by rw [ha]; exact h.active
  known hdefs b hb hnone := by
    rw [Module.method?_congr hM]
    exact h.known hdefs b hb hnone
  context_eq := by rw [hc]; exact h.context_eq
  active_eq := by rw [ha]; exact h.active_eq

/-- Another method in the place of an old one that knows no less. -/
theorem updateMethod (h : s.OpenedAt p bodies c as) {name : String} {f : Method → Method}
    (hdef : ∀ m, (f m).definition = m.definition)
    (hret : ∀ m signature, (m.returns? signature).isSome → ((f m).returns? signature).isSome) :
    OpenedAt p bodies c as { s with module := s.module.updateMethod name f } where
  depth := h.depth
  methods m hm := by
    obtain ⟨old, hold, rfl⟩ := List.mem_map.1 hm
    split
    · rw [hdef]; exact h.methods old hold
    · exact h.methods old hold
  frames := h.frames
  active := h.active
  known hdefs b hb hnone := by
    obtain ⟨m, hm, hsome⟩ := h.known hdefs b hb hnone
    show ∃ m, (s.module.updateMethod name f).method? b.method = some m ∧ _
    rw [Module.method?_updateMethod fun m => by unfold Method.name; rw [hdef]]
    split
    · exact ⟨f m, by rw [hm]; rfl, hret m _ hsome⟩
    · exact ⟨m, hm, hsome⟩
  context_eq := h.context_eq
  active_eq := h.active_eq

theorem store (h : s.OpenedAt p bodies c as) (name : String) (signature : Signature) (ty : Ty) :
    OpenedAt p bodies c as
      { s with module := s.module.updateMethod name (·.store signature ty) } := by
  refine h.updateMethod (fun _ => rfl) fun m other hsome => ?_
  rw [Method.returns?_store]
  split
  · rfl
  · exact hsome

theorem define (h : s.OpenedAt p bodies c as) {d : Definition Expr} (hd : p.Defines d)
    (hnone : p.defsAtTop → bodies = []) :
    OpenedAt p bodies c as { s with module := s.module.define d } where
  depth := h.depth
  methods m hm := by
    rcases Module.mem_putMethod hm with rfl | hm
    · exact hd
    · exact h.methods m hm
  frames := h.frames
  active := h.active
  known hdefs b hb _ := by rw [hnone hdefs] at hb; exact absurd hb List.not_mem_nil
  context_eq := h.context_eq
  active_eq := h.active_eq

/-- In the body of a block, of which the depth and the blocks behind it are those of the `yield`. -/
theorem outward (h : s.OpenedAt p bodies c as) {frame : BlockFrame} {outer : List BlockFrame}
    (hc : c.blocks = frame :: outer) (scope : ScopeId) (method? : Option String) :
    OpenedAt p bodies ⟨scope, outer, method?, c.depth⟩ as
      { s with context := ⟨scope, outer, method?, c.depth⟩ } where
  depth := by rw [← h.context_eq]; exact h.depth
  methods := h.methods
  frames f hf := h.frames f (by rw [h.context_eq, hc]; exact List.mem_cons_of_mem _ hf)
  active := h.active
  known := h.known
  context_eq := rfl
  active_eq := h.active_eq

/-- With one more call with a block under way. -/
theorem underway (h : s.OpenedAt p bodies c as) (call : BlockCall) :
    OpenedAt p bodies c (call :: as) { s with active := call :: s.active } where
  depth := h.depth
  methods := h.methods
  frames := h.frames
  active b hb i hi := List.mem_cons_of_mem _ (h.active b hb i hi)
  known := h.known
  context_eq := h.context_eq
  active_eq := congrArg _ h.active_eq

/-- In the body of a method. -/
theorem inside (h : s.OpenedAt p bodies c as) {b : OpenBody} {blocks : List BlockFrame}
    (hblocks : ∀ f ∈ blocks, p.Writes f.block)
    (hactive : ∀ i, b.block? = some i → ⟨b.method, b.signature, i⟩ ∈ as)
    (hknown : p.defsAtTop → b.block? = none →
      ∃ m, s.module.method? b.method = some m ∧ (m.returns? b.signature).isSome)
    (scope : ScopeId) (method? : Option String) :
    OpenedAt p (b :: bodies) ⟨scope, blocks, method?, c.depth + 1⟩ as
      { s with context := ⟨scope, blocks, method?, c.depth + 1⟩ } where
  depth := by rw [← h.context_eq]; exact congrArg (· + 1) h.depth
  methods := h.methods
  frames := hblocks
  active := List.forall_mem_cons.2 ⟨by rw [h.active_eq]; exact hactive, h.active⟩
  known hdefs := List.forall_mem_cons.2 ⟨hknown hdefs, h.known hdefs⟩
  context_eq := rfl
  active_eq := h.active_eq

/-- Back from a place where no fewer bodies were under inference. -/
theorem back (h : s.OpenedAt p bodies c as) {inside : List OpenBody} {c' : Context}
    {as' : List BlockCall} (ht : t.OpenedAt p inside c' as') (hsub : ∀ b ∈ bodies, b ∈ inside) :
    OpenedAt p bodies c as { t with context := s.context, active := s.active } where
  depth := h.depth
  methods := ht.methods
  frames := h.frames
  active := h.active
  known hdefs b hb := ht.known hdefs b (hsub b hb)
  context_eq := h.context_eq
  active_eq := h.active_eq

end Engine.OpenedAt

/-! ### Calls -/

/-- A step of a run that keeps to what is known of the bodies under inference. -/
def Infer.Watched (p : Program) (X : Stop → Prop) (bodies : List OpenBody) (c : Context)
    (as : List BlockCall) (m n : Infer α) : Prop :=
  Mirrors X (Engine.OpenedAt p bodies c as) (Engine.OpenedAt p bodies c as) m n

/-- A run is watched wherever it evaluates an expression of the program. -/
def Infer.WatchedAll (p : Program) (limit : Nat) (X : Stop → Prop)
    (tracked : List OpenBody → Expr → Infer Ty) (expr : Expr → Infer Ty) : Prop :=
  ∀ bodies c as e, p.Has e → p.DefinesNone bodies e → p.MayOpen limit bodies →
    Watched p X bodies c as (tracked bodies e) (expr e)

/-- Where a run may end: for want of fuel, with an error other than that the limit is exceeded, and
with this one if more bodies than the limit allows might be under inference at once. -/
structure Program.Permits (p : Program) (limit : Nat) (X : Stop → Prop) : Prop where
  outOfFuel : X .outOfFuel
  unlimited : ∀ e : TypeError, (∀ name bound, e.cause ≠ .recursionLimitExceeded name bound) →
    X (.error e)
  limited : ∀ bodies : List OpenBody, (∀ b ∈ bodies, p.Openable b) → (p.defsAtTop → bodies.Nodup) →
    limit < bodies.length →
      ∀ name node span method?, X (.error ⟨.recursionLimitExceeded name limit, node, span, method?⟩)

namespace Infer
variable {halt : List OpenBody → Bool} {tracked : List OpenBody → Expr → Infer Ty}
  {expr : Expr → Infer Ty} {id : NodeId} {span : Span} {method : Method} {signature : Signature}

/-- The body of a method that is opened: the call is known of, or it is under way. -/
theorem WatchedAll.methodBody (h : WatchedAll p limit X tracked expr) (id : NodeId) (span : Span)
    (signature : Signature) (hX : p.Permits limit X)
    (hhalt : ∀ bodies, p.MayOpen limit bodies → halt bodies = false) {b : OpenBody}
    (hb : ∀ b' ∈ b :: bodies, p.Openable b') (hnodup : p.defsAtTop → (b :: bodies).Nodup)
    (hmethod : p.Defines method.definition) {blocks : List BlockFrame}
    (hblocks : ∀ f ∈ blocks, p.Writes f.block)
    (hactive : ∀ i, b.block? = some i → ⟨b.method, b.signature, i⟩ ∈ as)
    (hs : s.OpenedAt p bodies c as)
    (hknown : p.defsAtTop → b.block? = none →
      ∃ m, s.module.method? b.method = some m ∧ (m.returns? b.signature).isSome) :
    Mirrors X (· = s) (Engine.OpenedAt p bodies c as)
      (opens halt limit (b :: bodies)
        (Infer.methodBody (tracked (b :: bodies)) limit id span method signature blocks))
      (Infer.methodBody expr limit id span method signature blocks) := by
  intro s' hs'
  subst hs'
  have hdepth : s'.context.depth = bodies.length := hs.depth
  unfold opens
  rw [methodBody_apply, methodBody_apply]
  by_cases hle : limit ≤ s'.context.depth
  · rw [if_neg fun h => Nat.not_le_of_lt h.1 hle, if_pos hle, if_pos hle]
    exact ⟨rfl, hX.limited _ hb hnodup (by rw [List.length_cons]; omega) _ _ _ _⟩
  · have hmay : p.MayOpen limit (b :: bodies) :=
      ⟨by rw [List.length_cons]; omega, hb, hnodup⟩
    rw [if_neg fun h => Bool.false_ne_true ((hhalt _ hmay).symm.trans h.2), if_neg hle, if_neg hle]
    obtain rfl := hs.context_eq
    have hbody (c : Context) : Watched p X (b :: bodies) c as
        (body (tracked (b :: bodies)) method.definition.body) (body expr method.definition.body) :=
      .body fun e he => (hmethod.has he).elim fun hhas hnone => h _ _ _ e hhas hnone hmay
    refine Mirrors.within (I := (· = _)) (fun t ht => ?_) (fun t u ht hu => ?_)
      (hbody ⟨s'.scopes.size, blocks, some method.name, s'.context.depth + 1⟩) rfl
    · subst ht
      exact (hs.inside hblocks hactive hknown _ _).congr (Module.methods_recordParams _ _) rfl rfl
    · subst ht
      exact (hs.back hu fun b' hb' => List.mem_cons_of_mem _ hb').congr rfl rfl
        (hu.active_eq.trans hs.active_eq.symm)

/-- A call without a block opens a body of which nothing is known, and so it is a new one. -/
theorem WatchedAll.plainCall (h : WatchedAll p limit X tracked expr) (hX : p.Permits limit X)
    (hhalt : ∀ bodies, p.MayOpen limit bodies → halt bodies = false) (hmay : p.MayOpen limit bodies)
    (hs : s.OpenedAt p bodies c as) (hfound : s.module.method? method.name = some method)
    (hfits : p.Openable ⟨method.name, signature, none⟩) :
    Mirrors X (· = s) (Engine.OpenedAt p bodies c as)
      (entering halt limit tracked bodies id span method signature none)
      (around (Infer.methodBody expr limit id span method signature) method signature none) := by
  have hmethod := hs.methods method (Module.mem_of_method? hfound)
  unfold entering
  cases hret : method.returns? signature with
  | some ty =>
    rw [around_of_some hret, around_of_some hret]
    exact fun t ht => ⟨rfl, ht ▸ hs⟩
  | none =>
    rw [around_of_none hret, around_of_none hret]
    have hnew (hdefs : p.defsAtTop) : ⟨method.name, signature, none⟩ ∉ bodies := by
      intro hmem
      obtain ⟨m, hm, hsome⟩ := hs.known hdefs _ hmem rfl
      cases hfound.symm.trans hm
      rw [hret] at hsome
      exact nomatch hsome
    have hstored : Module.method? (s.module.updateMethod method.name (·.store signature .nil))
        method.name = some (method.store signature .nil) := by
      rw [Module.method?_updateMethod (f := (·.store signature .nil)) fun _ => rfl, if_pos rfl, hfound]
      rfl
    have hreturns : ((method.store signature .nil).returns? signature).isSome := by
      rw [Method.returns?_store, if_pos rfl]; rfl
    have hstore : Mirrors X (· = s)
        (· = { s with module := s.module.updateMethod method.name (·.store signature .nil) })
        (Infer.updateMethod method.name (·.store signature .nil))
        (Infer.updateMethod method.name (·.store signature .nil)) := .change fun t ht => by rw [ht]
    refine hstore.bind fun _ _ t _ _ ht => ?_
    subst ht
    refine (h.methodBody id span signature hX hhalt (List.forall_mem_cons.2 ⟨hfits, hmay.openable⟩)
      (fun hdefs => List.nodup_cons.2 ⟨hnew hdefs, hmay.nodup hdefs⟩) hmethod
      (fun _ hf => absurd hf List.not_mem_nil) (fun _ h => nomatch h) (hs.store _ _ _)
      fun _ _ => ⟨_, hstored, hreturns⟩).andThen fun ty => ?_
    exact (Mirrors.change fun t ht => ht.store _ _ _).andThen fun _ => .give ty

/-- A call with a block opens a body that is not under way, and so it is a new one. -/
theorem WatchedAll.blockCall (h : WatchedAll p limit X tracked expr) (hX : p.Permits limit X)
    (hhalt : ∀ bodies, p.MayOpen limit bodies → halt bodies = false) (hmay : p.MayOpen limit bodies)
    (hs : s.OpenedAt p bodies c as) (hmethod : p.Defines method.definition) {block : Block Expr}
    (hblock : p.Writes block) (hfits : p.Openable ⟨method.name, signature, some block.id⟩) :
    Mirrors X (· = s) (Engine.OpenedAt p bodies c as)
      (entering halt limit tracked bodies id span method signature (some block))
      (around (Infer.methodBody expr limit id span method signature) method signature
        (some block)) := by
  refine Mirrors.get fun u hu => ?_
  subst hu
  show Mirrors X _ _ (if _ ∈ u.active then _ else _) (if _ ∈ u.active then _ else _)
  split
  · exact fun t ht => ⟨rfl, ht ▸ hs⟩
  · next hidle =>
    have hnew : ⟨method.name, signature, some block.id⟩ ∉ bodies :=
      fun hmem => hidle (hs.active _ hmem _ rfl)
    refine Mirrors.context fun t ht => ?_
    subst ht
    have hblocks : ∀ f ∈ ⟨block, t.context.scope, t.context.method?⟩ :: t.context.blocks,
        p.Writes f.block := List.forall_mem_cons.2 ⟨hblock, hs.frames⟩
    have hback (u v : Engine) (hu : u = t) (hv : v.OpenedAt p bodies c
        (⟨method.name, signature, block.id⟩ :: as)) :
        Engine.OpenedAt p bodies c as
          { v with active := v.active.erase ⟨method.name, signature, block.id⟩ } := by
      refine (hs.back hv fun b hb => hb).congr rfl (hv.context_eq.trans hs.context_eq.symm) ?_
      show v.active.erase _ = t.active
      rw [hv.active_eq, List.erase_cons_head, hs.active_eq]
    have hbody := h.methodBody id span signature hX hhalt
      (List.forall_mem_cons.2 ⟨hfits, hmay.openable⟩)
      (fun hdefs => List.nodup_cons.2 ⟨hnew, hmay.nodup hdefs⟩) hmethod hblocks
      (fun i hi => Option.some.inj hi ▸ List.mem_cons_self)
      (hs.underway ⟨method.name, signature, block.id⟩) fun _ hnone => nomatch hnone
    refine (Mirrors.whileActive (fun u hu => by rw [hu]) hback hbody).andThen fun ty => ?_
    exact (Mirrors.change fun t ht => ht.updateMethod (fun _ => rfl) fun _ _ h => h).andThen
        fun _ => .give ty

theorem WatchedAll.enter (h : WatchedAll p limit X tracked expr) (hX : p.Permits limit X)
    (hhalt : ∀ bodies, p.MayOpen limit bodies → halt bodies = false) (hmay : p.MayOpen limit bodies)
    (hs : s.OpenedAt p bodies c as) (hfound : s.module.method? method.name = some method)
    (harity : method.arity = signature.length) (hsig : ∀ ty ∈ signature, ty.Basic)
    {block : Option (Block Expr)} (hblock : ∀ b, block = some b → p.Writes b) :
    Mirrors X (· = s) (Engine.OpenedAt p bodies c as)
      (entering halt limit tracked bodies id span method signature block)
      (Infer.enter expr limit id span method signature block) := by
  have hmethod := hs.methods method (Module.mem_of_method? hfound)
  rw [enter_eq_around]
  cases block with
  | none =>
    exact h.plainCall hX hhalt hmay hs hfound
      ⟨⟨_, hmethod, rfl, harity⟩, hsig, fun _ hi => nomatch hi⟩
  | some b =>
    have hwrites := hblock b rfl
    exact h.blockCall hX hhalt hmay hs hmethod hwrites
      ⟨⟨_, hmethod, rfl, harity⟩, hsig, fun i hi => ⟨b, hwrites, Option.some.inj hi⟩⟩

/-! ### Other expressions -/

theorem Watched.record {node : NodeId} {ty : Ty} :
    Watched p X bodies c as (record node ty) (Infer.record node ty) :=
  Mirrors.change fun _ hs => hs.congr rfl rfl rfl

theorem Watched.scopes {g : Engine → Scopes} :
    Watched p X bodies c as (modify fun s => { s with scopes := g s })
      (modify fun s => { s with scopes := g s }) :=
  Mirrors.change fun _ hs => hs.congr rfl rfl rfl

theorem Watched.untilStable {m n : Infer α} (hX : p.Permits limit X)
    (h : Watched p X bodies c as m n) (scope : ScopeId) (fuel : Nat) :
    Watched p X bodies c as (untilStable scope m fuel) (Infer.untilStable scope n fuel) :=
  Mirrors.untilStable hX.outOfFuel (fun _ _ hs => hs.congr rfl rfl rfl) h fuel

theorem Watched.fail {cause : TypeError.Cause} {node : NodeId} {span : Span}
    (hX : p.Permits limit X) (hcause : ∀ name bound, cause ≠ .recursionLimitExceeded name bound) :
    Watched p X bodies c as (fail cause node span : Infer α) (Infer.fail cause node span) :=
  Mirrors.fail fun _ => hX.unlimited _ hcause

theorem Watched.readVar (hX : p.Permits limit X) (id : NodeId) (span : Span) (name : String) :
    Watched p X bodies c as (readVar id span name) (Infer.readVar id span name) := by
  intro s hs
  refine ⟨rfl, ?_⟩
  cases hlookup : s.scopes.lookup s.context.scope name with
  | some ty => rw [readVar_of_some hlookup]; exact hs
  | none =>
    rw [readVar_of_none hlookup]
    exact hX.unlimited _ (by nofun)

/-- A call evaluates its arguments to sets of primitives, and enters a method of the program. -/
theorem WatchedAll.call (h : WatchedAll p limit X tracked expr) (hX : p.Permits limit X)
    (hhalt : ∀ bodies, p.MayOpen limit bodies → halt bodies = false) (hmay : p.MayOpen limit bodies)
    (hbasic : ∀ e s ty t, expr e s = .ok ty t → ty.Basic) {name : String} {nameSpan : Span}
    {args : List Expr} {block : Option (Block Expr)}
    (hargs : ∀ arg ∈ args, Watched p X bodies c as (tracked bodies arg) (expr arg))
    (hblock : ∀ b, block = some b → p.Writes b) :
    Watched p X bodies c as
      (call (tracked bodies) (entering halt limit tracked bodies) id span name nameSpan args block)
      (Infer.call expr (Infer.enter expr limit) id span name nameSpan args block) := by
  rw [call_eq, call_eq]
  refine (Mirrors.mapM hargs).bind fun signature _ t _ hrun ht => ?_
  have hsig := forall_of_mapM_ok hbasic hrun
  intro u hu
  subst hu
  cases hm : u.module.method? name with
  | none =>
    rw [dispatch_of_none hm, dispatch_of_none hm]
    exact Watched.fail hX (by nofun) ht
  | some method =>
    by_cases harity : method.arity = signature.length
    · rw [dispatch_of_some hm harity, dispatch_of_some hm harity]
      obtain rfl := Module.name_of_method? hm
      exact h.enter hX hhalt hmay ht hm harity hsig hblock rfl
    · rw [dispatch_of_arity hm harity, dispatch_of_arity hm harity]
      exact Watched.fail hX (by nofun) ht

/-- The body of a block runs among the bodies that are under inference at the `yield`. -/
theorem WatchedAll.blockPass (h : WatchedAll p limit X tracked expr) (hmay : p.MayOpen limit bodies)
    {frame : BlockFrame} {outer : List BlockFrame} (hblocks : c.blocks = frame :: outer)
    (args : Signature) :
    Watched p X bodies c as (blockPass (tracked bodies) frame outer c.depth args)
      (Infer.blockPass expr frame outer c.depth args) := by
  intro s hs
  have hframe : p.Writes frame.block :=
    hs.frames frame (by rw [hs.context_eq, hblocks]; exact List.mem_cons_self)
  have hbody (c : Context) : Watched p X bodies c as
      (body (tracked bodies) frame.block.body) (body expr frame.block.body) :=
    .body fun e he => (hframe.has he).elim fun hhas hnone => h _ _ _ e hhas hnone hmay
  rw [blockPass_apply, blockPass_apply]
  refine Mirrors.within (I := (· = _)) (fun t ht => ?_) (fun t u ht hu => ?_)
    (hbody ⟨s.scopes.size, outer, frame.method?, c.depth⟩) rfl
  · subst ht
    exact (hs.outward hblocks _ _).congr (Module.methods_recordParams _ _) rfl rfl
  · subst ht
    exact (hs.back hu fun b hb => hb).congr rfl rfl (hu.active_eq.trans hs.active_eq.symm)

theorem WatchedAll.yield (h : WatchedAll p limit X tracked expr) (hX : p.Permits limit X)
    (hmay : p.MayOpen limit bodies) {args : List Expr}
    (hargs : ∀ arg ∈ args, Watched p X bodies c as (tracked bodies arg) (expr arg)) (fuel : Nat) :
    Watched p X bodies c as (yield (tracked bodies) fuel id span args)
      (Infer.yield expr fuel id span args) := by
  refine (Mirrors.mapM hargs).andThen fun signature => Mirrors.context fun s hs => ?_
  rw [hs.context_eq]
  cases hblocks : c.blocks with
  | nil => exact Watched.fail hX (by nofun)
  | cons frame outer =>
    refine Mirrors.context fun s hs => ?_
    rw [hs.context_eq]
    exact (Watched.untilStable hX (h.blockPass hmay hblocks signature) _ fuel).andThen fun tys =>
      Watched.record.andThen fun _ => .give _

/-- From the evaluations inside a node, and in the bodies that it opens, to the node. -/
theorem WatchedAll.layer (h : WatchedAll p limit X tracked expr) (hX : p.Permits limit X)
    (hhalt : ∀ bodies, p.MayOpen limit bodies → halt bodies = false) (hmay : p.MayOpen limit bodies)
    (hbasic : ∀ e s ty t, expr e s = .ok ty t → ty.Basic) {e : Expr} (he : p.Has e)
    (hnone : p.DefinesNone bodies e) (fuel : Nat) :
    Watched p X bodies c as
      (layer (tracked bodies) (entering halt limit tracked bodies) fuel e)
      (Infer.layer expr (Infer.enter expr limit) fuel e) := by
  have hpart {part : Expr} (hp : part ∈ e.form.parts) :
      Watched p X bodies c as (tracked bodies part) (expr part) :=
    h _ _ _ part (.part he hp) (he.definesNone_part hp) hmay
  refine Mirrors.andThen ?_ fun ty => Watched.record.andThen fun _ => .give ty
  unfold form
  cases hform : e.form with
  | literal v => exact .give _
  | var name => exact Watched.readVar hX e.id e.span name
  | assign target value =>
    rw [hform] at hpart
    exact (hpart List.mem_cons_self).andThen fun ty => Watched.scopes.andThen fun _ =>
      Watched.record.andThen fun _ => .give ty
  | call name nameSpan args block =>
    refine h.call hX hhalt hmay hbasic (fun arg harg => hpart ?_) ?_
    · rw [hform]; cases block with
      | none => exact harg
      | some b => exact List.mem_append_left b.body harg
    · rintro b rfl; exact ⟨e, name, nameSpan, args, he, hform⟩
  | yield args =>
    exact h.yield hX hmay (fun arg harg => hpart (by rw [hform]; exact harg)) fuel
  | branch cond thenBody elseBody =>
    have hcond : cond ∈ e.form.parts := by
      rw [hform]; cases elseBody <;> exact List.mem_cons_self
    have hthen : ∀ stmt ∈ thenBody, stmt ∈ e.form.parts := by
      rw [hform]; cases elseBody <;> intro stmt hs <;> simp [Form.parts, hs]
    have helse : ∀ stmt ∈ elseBody.getD [], stmt ∈ e.form.parts := by
      rw [hform]; cases elseBody <;> intro stmt hs <;> simp_all [Form.parts]
    refine (hpart hcond).andThen fun _ => Mirrors.context fun s hs => ?_
    exact (Mirrors.snapshot _).andThen fun _ =>
      (Mirrors.body fun stmt hs => hpart (hthen stmt hs)).andThen fun _ =>
      (Mirrors.snapshot _).andThen fun _ => Watched.scopes.andThen fun _ =>
      (Mirrors.body fun stmt hs => hpart (helse stmt hs)).andThen fun _ =>
      (Mirrors.snapshot _).andThen fun _ => Watched.scopes.andThen fun _ => .give _
  | loop cond stmts =>
    rw [hform] at hpart
    have hcond := hpart List.mem_cons_self
    refine hcond.andThen fun _ => Mirrors.context fun s hs => ?_
    exact (Watched.untilStable hX ((Mirrors.body fun stmt hs =>
      hpart (List.mem_cons_of_mem cond hs)).andThen fun _ => hcond) _ fuel).andThen fun _ => .give _
  | define d =>
    have hdefines : p.Defines d := ⟨e, he, hform⟩
    refine (Mirrors.change fun s hs => hs.define hdefines fun hdefs => ?_).andThen fun _ => .give _
    rcases hnone hdefs with hbodies | hfree
    · exact hbodies
    · exact absurd hform (Expr.not_define_of_defFree hfree d)

end Infer
end
end FlowTyping
