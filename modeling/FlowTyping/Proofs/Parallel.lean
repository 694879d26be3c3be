import FlowTyping.Proofs.CallCache
import FlowTyping.Proofs.Likeness

/-!
# Runs of programs of one structure

Programs of one structure have the same types: `Program.Like.infer`.  Two steps are parallel if from alike
stacks they give the same and lead to alike stacks, or end with alike errors (`Flow.Parallel`), and this
goes from the expressions inside a node to the node.  Identities are looked at in two places, when a type
is recorded and when a call with a block asks whether it is under way, and in both two nodes are one on
the left exactly if they are on the right.
-/

namespace FlowTyping

/-! ### Stacks and contexts -/

section
variable (L : Likeness)

structure Stacks.Like (s t : Stacks) : Prop where
  module : s.module.Like L t.module
  here : s.here = t.here
  held : s.held = t.held

structure BlockCall.Like (a b : BlockCall) : Prop where
  method : a.method = b.method
  signature : a.signature = b.signature
  block : L.node a.block b.block

structure Standing.Matches (c d : Standing) : Prop where
  blocks : List.Forall₂ (fun x y => x.1.Like L (Expr.Like L) y.1 ∧ x.2 = y.2) c.blocks d.blocks
  method? : c.method? = d.method?
  depth : c.depth = d.depth
  active : List.Forall₂ (BlockCall.Like L) c.active d.active

structure TypeError.Like (e f : TypeError) : Prop where
  cause : e.cause = f.cause
  node : L.node e.node f.node
  span : L.span e.span f.span
  method? : e.method? = f.method?

end

variable {L : Likeness}

theorem BlockCall.like_unique : Relator.BiUnique (BlockCall.Like L) := by
  constructor
  · rintro ⟨_, _, _⟩ ⟨_, _, _⟩ _ ⟨rfl, rfl, h⟩ ⟨rfl, rfl, h'⟩
    exact congrArg _ (L.node_unique.1 h h')
  · rintro _ ⟨_, _, _⟩ ⟨_, _, _⟩ ⟨rfl, rfl, h⟩ ⟨rfl, rfl, h'⟩
    exact congrArg _ (L.node_unique.2 h h')

theorem Standing.Matches.inside {c d : Standing} (h : c.Matches L d) {m n : Method} (hm : m.Like L n)
    (signature : Signature) {block block' : Option (Block Expr)}
    (hblock : Option.Rel (Block.Like L (Expr.Like L)) block block') :
    (c.inside m signature block).Matches L (d.inside n signature block') := by
  have hdepth : c.depth + 1 = d.depth + 1 := congrArg (· + 1) h.depth
  cases hblock with
  | none => exact ⟨.nil, congrArg some hm.name, hdepth, h.active⟩
  | some hblock =>
    exact ⟨.cons ⟨hblock, h.method?⟩ h.blocks, congrArg some hm.name, hdepth,
      .cons ⟨hm.name, rfl, hblock.id⟩ h.active⟩

/-! ### Steps -/

namespace Flow

/-- Ends of two runs: the same value in alike stacks, or alike errors. -/
inductive EndsLike (L : Likeness) : Except Halt (α × Stacks) → Except Halt (α × Stacks) → Prop
  | ok (a : α) {s t : Stacks} : s.Like L t → EndsLike L (.ok (a, s)) (.ok (a, t))
  | error {e f : TypeError} : e.Like L f → EndsLike L (.error (.error e)) (.error (.error f))
  | outOfFuel : EndsLike L (.error .outOfFuel) (.error .outOfFuel)

/-- From alike stacks the steps end alike. -/
def Parallel (L : Likeness) (m n : Flow α) : Prop := ∀ ⦃s t⦄, s.Like L t → EndsLike L (m s) (n t)

variable {m n : Flow α} {f g : α → Flow β} {s t : Stacks}

theorem EndsLike.bind (h : EndsLike L (m s) (n t)) (hfg : ∀ a, Parallel L (f a) (g a)) :
    EndsLike L ((m >>= f) s) ((n >>= g) t) := by
  generalize hm : m s = r, hn : n t = r' at h
  cases h with
  | ok a hlike => rw [bind_of_ok hm, bind_of_ok hn]; exact hfg a hlike
  | error he => rw [bind_of_error hm, bind_of_error hn]; exact .error he
  | outOfFuel => rw [bind_of_error hm, bind_of_error hn]; exact .outOfFuel

/-- What is done to the stacks behind a step. -/
theorem EndsLike.map {r r' : Except Halt (α × Stacks)} (back back' : Stacks → Stacks)
    (h : EndsLike L r r') (hback : ∀ {s t}, s.Like L t → (back s).Like L (back' t)) :
    EndsLike L (r.map fun x => (x.1, back x.2)) (r'.map fun x => (x.1, back' x.2)) := by
  cases h with
  | ok a hlike => exact .ok a (hback hlike)
  | error he => exact .error he
  | outOfFuel => exact .outOfFuel

namespace Parallel

theorem give (a : α) : Parallel L (pure a) (pure a) := fun _ _ h => .ok a h

theorem bind (h : Parallel L m n) (hfg : ∀ a, Parallel L (f a) (g a)) :
    Parallel L (m >>= f) (n >>= g) :=
  fun _ _ hlike => (h hlike).bind hfg

theorem getHere : Parallel L getHere getHere := by
  intro s t h
  show EndsLike L (.ok (s.here, s)) (.ok (t.here, t))
  rw [h.here]
  exact .ok _ h

theorem setHere (tables : List Bindings) : Parallel L (setHere tables) (setHere tables) :=
  fun _ _ h => .ok () ⟨h.module, rfl, h.held⟩

theorem writeHere (name : String) (ty : Ty) : Parallel L (writeHere name ty) (writeHere name ty) :=
  fun _ _ h => .ok () ⟨h.module, congrArg (Tables.write name ty) h.here, h.held⟩

theorem record {a b : NodeId} (hnode : L.node a b) (ty : Ty) :
    Parallel L (record a ty) (record b ty) :=
  fun _ _ h => .ok () ⟨h.module.record hnode ty, h.here, h.held⟩

theorem updateMethod {name name' : String} (hname : name = name') {f g : Method → Method}
    (hfg : ∀ {m n}, m.Like L n → (f m).Like L (g n)) :
    Parallel L (updateMethod name f) (updateMethod name' g) := by
  subst hname
  exact fun _ _ h => .ok () ⟨h.module.updateMethod name hfg, h.here, h.held⟩

theorem fail {c d : Standing} (hc : c.Matches L d) {cause cause' : TypeError.Cause} (hcause : cause = cause')
    {a b : NodeId} (hnode : L.node a b) {span span' : Span} (hspan : L.span span span') :
    Parallel L (fail c cause a span : Flow α) (fail d cause' b span') :=
  fun _ _ _ => .error ⟨hcause, hnode, hspan, hc.method?⟩

theorem choice {k k' m m' n n' : Flow Ty} (hk : Parallel L k k') (hm : Parallel L m m')
    (hn : Parallel L n n') : Parallel L (choice k m n) (choice k' m' n') :=
  hk.bind fun _ => getHere.bind fun before => hm.bind fun _ => getHere.bind fun _ =>
    (setHere before).bind fun _ => hn.bind fun _ => getHere.bind fun _ =>
      (setHere _).bind fun _ => give _

theorem untilStable (h : Parallel L m n) (fuel : Nat) :
    Parallel L (untilStable m fuel) (untilStable n fuel) := by
  induction fuel with
  | zero => exact fun _ _ _ => .outOfFuel
  | succ fuel ih =>
    refine getHere.bind fun before => h.bind fun a => getHere.bind fun after => (setHere _).bind fun _ => ?_
    show Parallel L (ite (Tables.merge before after = before) _ _)
      (ite (Tables.merge before after = before) _ _)
    split
    · exact give _
    · exact ih.bind fun _ => give _

theorem elsewhere {xs ys : List (Ident × Ty)} (hparams : List.Forall₂ (ParamLike L) xs ys)
    (h : Parallel L m n)
    {go go' : List Bindings → List (List Bindings) → List Bindings × List (List Bindings)} (hgo : go = go')
    {back : List Bindings → List (List Bindings) → List Bindings → List (List Bindings) →
      List Bindings × List (List Bindings)} :
    Parallel L (elsewhere xs m go back) (elsewhere ys n go' back) := by
  subst hgo
  intro s t hlike
  rw [elsewhere_eq_map, elsewhere_eq_map, hlike.here, hlike.held]
  refine EndsLike.map
    (fun s' => ⟨s'.module, (back t.here t.held s'.here s'.held).1, (back t.here t.held s'.here s'.held).2⟩)
    (fun t' => ⟨t'.module, (back t.here t.held t'.here t'.held).1, (back t.here t.held t'.here t'.held).2⟩)
    (h ?_) fun {s' t'} hlike' => ?_
  · exact ⟨hlike.module.recordParams hparams, rfl, rfl⟩
  · rw [hlike'.here, hlike'.held]
    exact ⟨hlike'.module, rfl, rfl⟩

theorem outward (h : Parallel L m n) : Parallel L (outward m) (outward n) := by
  intro s t hlike
  cases hheld : t.held with
  | nil => rw [outward_of_nil hheld, outward_of_nil (hlike.held.trans hheld)]; exact .outOfFuel
  | cons first rest =>
    rw [outward_eq_map hheld, outward_eq_map (hlike.held.trans hheld)]
    refine EndsLike.map (fun s' => ⟨s'.module, s.here, s'.here :: s'.held⟩)
      (fun t' => ⟨t'.module, t.here, t'.here :: t'.held⟩)
      (h (s := ⟨s.module, first, rest⟩) (t := ⟨t.module, first, rest⟩) ⟨hlike.module, rfl, rfl⟩)
      fun {s' t'} hlike' => ?_
    exact ⟨hlike'.module, hlike.here, congrArg₂ List.cons hlike'.here hlike'.held⟩

theorem alone {xs ys : List (Ident × Ty)} (hparams : List.Forall₂ (ParamLike L) xs ys)
    (h : Parallel L m n) : Parallel L (alone xs m) (alone ys n) :=
  elsewhere hparams h (by rw [Bindings.ofParams_eq_of_like hparams])

theorem above {xs ys : List (Ident × Ty)} (hparams : List.Forall₂ (ParamLike L) xs ys)
    (h : Parallel L m n) : Parallel L (above xs m) (above ys n) :=
  elsewhere hparams h (by rw [Bindings.ofParams_eq_of_like hparams])

theorem nested {xs ys : List (Ident × Ty)} (hparams : List.Forall₂ (ParamLike L) xs ys)
    (h : Parallel L m n) : Parallel L (nested xs m) (nested ys n) :=
  elsewhere hparams h (by rw [Bindings.ofParams_eq_of_like hparams])

/-! ### Expressions -/

section
variable {expr expr' : Expr → Flow Ty} (h : ∀ {e e'}, e.Like L e' → Parallel L (expr e) (expr' e'))
include h

theorem body {es es' : List Expr} (hes : List.Forall₂ (Expr.Like L) es es') :
    Parallel L (body expr es) (body expr' es') := by
  unfold Flow.body
  generalize Ty.nil = ty
  induction hes generalizing ty with
  | nil => exact give ty
  | cons he _ ih =>
    rw [List.foldlM_cons, List.foldlM_cons]
    exact (h he).bind ih

theorem mapM {es es' : List Expr} (hes : List.Forall₂ (Expr.Like L) es es') :
    Parallel L (es.mapM expr) (es'.mapM expr') := by
  induction hes with
  | nil => exact give []
  | cons he _ ih =>
    rw [List.mapM_cons, List.mapM_cons]
    exact (h he).bind fun ty => ih.bind fun tys => give (ty :: tys)

end

variable {c d : Standing} (hc : c.Matches L d) {id id' : NodeId} (hid : L.node id id') {span span' : Span}
  (hspan : L.span span span')
include hc hid hspan

theorem readVar (name : String) : Parallel L (readVar c id span name) (readVar d id' span' name) := by
  refine getHere.bind fun tables => ?_
  cases Tables.lookup tables name with
  | some ty => exact give ty
  | none => exact fail hc rfl hid hspan

section
variable {expr expr' : Standing → Expr → Flow Ty}
  (h : ∀ {c d e e'}, c.Matches L d → e.Like L e' → Parallel L (expr c e) (expr' d e'))
include h

omit hid hspan in
theorem runBlock {block block' : Block Expr} (hblock : block.Like L (Expr.Like L) block')
    (method? : Option String) {outer outer' : List (Block Expr × Option String)}
    (houter : List.Forall₂ (fun x y => x.1.Like L (Expr.Like L) y.1 ∧ x.2 = y.2) outer outer')
    (fuel : Nat) (args : Signature) :
    Parallel L (runBlock expr fuel c block method? outer args)
      (runBlock expr' fuel d block' method? outer' args) := by
  have hstanding : Standing.Matches L { c with blocks := outer, method? } { d with blocks := outer', method? } :=
    ⟨houter, rfl, hc.depth, hc.active⟩
  have hpass := nested (paramLike_paramTypes hblock.params args) (body (h hstanding) hblock.body)
  exact (hpass.untilStable fuel).outward.bind fun _ => (record hblock.id _).bind fun _ => give _

theorem yield {args args' : List Expr} (hargs : List.Forall₂ (Expr.Like L) args args') (fuel : Nat) :
    Parallel L (yield expr fuel c id span args) (yield expr' fuel d id' span' args') := by
  refine (mapM (h hc) hargs).bind fun signature => ?_
  have hblocks := hc.blocks
  revert hblocks
  rcases c.blocks with _ | ⟨⟨block, method?⟩, outer⟩ <;>
    rcases d.blocks with _ | ⟨⟨block', method?'⟩, outer'⟩ <;> intro hblocks
  · exact fail hc rfl hid hspan
  · exact nomatch hblocks
  · exact nomatch hblocks
  · obtain _ | ⟨⟨hblock, rfl⟩, houter⟩ := hblocks
    exact runBlock hc h hblock _ houter fuel signature

variable {m n : Method} (hm : m.Like L n) (limit : Nat) (signature : Signature)
include hm

theorem methodBody {block block' : Option (Block Expr)}
    (hblock : Option.Rel (Block.Like L (Expr.Like L)) block block') :
    Parallel L (methodBody expr limit c id span m signature block)
      (methodBody expr' limit d id' span' n signature block') := by
  have hparams := paramLike_zip hm.definition.params signature
  have hrun := body (h (hc.inside hm signature hblock)) hm.definition.body
  by_cases hlimit : limit ≤ c.depth
  · rw [methodBody_of_le hlimit, methodBody_of_le (hc.depth ▸ hlimit)]
    exact fail hc (by rw [hm.name]) hid hspan
  · cases hblock with
    | none =>
      rw [methodBody_none hlimit, methodBody_none (hc.depth ▸ hlimit)]
      exact alone hparams hrun
    | some hblock =>
      rw [methodBody_some hlimit, methodBody_some (hc.depth ▸ hlimit)]
      exact above hparams hrun

theorem plainCall : Parallel L (plainCall .plain expr limit c id span m signature)
    (plainCall .plain expr' limit d id' span' n signature) := by
  have hknown : n.returns? signature = m.returns? signature := (hm.returns? signature).symm
  cases hret : m.returns? signature with
  | some ty =>
    rw [plainCall_of_some (w := .plain) hret, plainCall_of_some (w := .plain) (hknown.trans hret)]
    exact give ty
  | none =>
    rw [plainCall_of_none (w := .plain) hret, plainCall_of_none (w := .plain) (hknown.trans hret)]
    refine (updateMethod hm.name fun h => h.store signature .nil).bind fun _ => ?_
    refine (methodBody hc hid hspan h hm limit signature .none).bind fun ty => ?_
    exact (updateMethod hm.name fun h => h.store signature ty).bind fun _ => give ty

theorem blockCall {block block' : Block Expr} (hblock : block.Like L (Expr.Like L) block') :
    Parallel L (blockCall expr limit c id span m signature block)
      (blockCall expr' limit d id' span' n signature block') := by
  have hcall : BlockCall.Like L ⟨m.name, signature, block.id⟩ ⟨n.name, signature, block'.id⟩ :=
    ⟨hm.name, rfl, hblock.id⟩
  have hmem := List.rel_mem BlockCall.like_unique hcall hc.active
  by_cases hactive : ⟨m.name, signature, block.id⟩ ∈ c.active
  · rw [blockCall_of_mem hactive, blockCall_of_mem (hmem.1 hactive)]
    exact give Ty.nil
  · rw [blockCall_of_notMem hactive, blockCall_of_notMem (mt hmem.2 hactive)]
    refine (methodBody hc hid hspan h hm limit signature (.some hblock)).bind fun ty => ?_
    exact (updateMethod hm.name fun h => h.observe signature ty).bind fun _ => give ty

theorem enter {block block' : Option (Block Expr)}
    (hblock : Option.Rel (Block.Like L (Expr.Like L)) block block') :
    Parallel L (enter .plain expr limit c id span m signature block)
      (enter .plain expr' limit d id' span' n signature block') := by
  have hplain {c : Standing} {m : Method} {block : Option (Block Expr)} :
      ¬ Ways.plain.refuses c m signature block := not_false
  cases hblock with
  | none => rw [enter_none hplain, enter_none hplain]; exact plainCall hc hid hspan h hm limit signature
  | some hblock =>
    rw [enter_some hplain, enter_some hplain]
    exact blockCall hc hid hspan h hm limit signature hblock

omit hm in
theorem dispatch (name : String) {nameSpan nameSpan' : Span} (hname : L.span nameSpan nameSpan')
    {block block' : Option (Block Expr)} (hblock : Option.Rel (Block.Like L (Expr.Like L)) block block') :
    Parallel L
      (dispatch (Flow.enter .plain expr limit) c id span name nameSpan signature block)
      (dispatch (Flow.enter .plain expr' limit) d id' span' name nameSpan' signature block') := by
  intro s t hlike
  generalize hs : s.module.method? name = o, ht : t.module.method? name = o'
  have hmethod := hlike.module.method? name
  rw [hs, ht] at hmethod
  cases hmethod with
  | none =>
    rw [dispatch_of_none hs, dispatch_of_none ht]
    exact fail hc rfl hid hname hlike
  | @some m n hm =>
    by_cases harity : m.arity = signature.length
    · rw [dispatch_of_some hs harity, dispatch_of_some ht (hm.arity ▸ harity)]
      exact enter hc hid hspan h hm limit signature hblock hlike
    · rw [dispatch_of_arity hs harity, dispatch_of_arity ht (hm.arity ▸ harity)]
      exact fail hc (by rw [hm.arity]) hid hspan hlike

omit hm in
theorem form {f f' : Form Expr} (hf : f.Like L (Expr.Like L) f') (fuel : Nat) :
    Parallel L (form .plain expr (Flow.enter .plain expr limit) fuel c id span f)
      (form .plain expr' (Flow.enter .plain expr' limit) fuel d id' span' f') := by
  cases hf with
  | @literal v w hv =>
    show Parallel L (pure v.type) (pure w.type)
    rw [hv]
    exact give _
  | var name => exact readVar hc hid hspan name
  | @assign target target' _ _ htarget hvalue =>
    refine (h hc hvalue).bind fun ty => ?_
    rw [htarget.name]
    exact (writeHere _ ty).bind fun _ => (record htarget.id ty).bind fun _ => give ty
  | call name hname hargs hblock =>
    exact (mapM (h hc) hargs).bind fun signature =>
      dispatch hc hid hspan h limit signature name hname hblock
  | yield hargs => exact yield hc hid hspan h hargs fuel
  | branch hcond hthen helse =>
    refine choice (h hc hcond) (body (h hc) hthen) (body (h hc) ?_)
    cases helse with
    | none => exact .nil
    | some helse => exact helse
  | loop hcond hbody =>
    have hpass := (body (h hc) hbody).bind fun _ => h hc hcond
    exact (h hc hcond).bind fun _ => (hpass.untilStable fuel).bind fun _ => give _
  | @define d₁ d₂ hd =>
    intro s t hlike
    have hplain {c : Standing} {M : Module} {d : Definition Expr} : ¬ Ways.plain.replaces c M d :=
      not_false
    show EndsLike L (Flow.define .plain c d₁ s) (Flow.define .plain d d₂ t)
    rw [define_of_not hplain, define_of_not hplain]
    exact .ok Ty.nil ⟨hlike.module.define hd, hlike.here, hlike.held⟩

end

end Parallel

/-- Expressions of one structure are evaluated in parallel. -/
theorem parallel_expr (limit fuel : Nat) {c d : Standing} {e e' : Expr} (hc : c.Matches L d)
    (he : e.Like L e') :
    Parallel L (Flow.expr .plain limit fuel c e) (Flow.expr .plain limit fuel d e') := by
  induction fuel generalizing c d e e' with
  | zero => exact fun _ _ _ => .outOfFuel
  | succ fuel ih =>
    obtain ⟨hid, hspan, hform⟩ := Expr.like_iff.1 he
    exact (Parallel.form hc hid hspan ih limit hform fuel).bind fun ty =>
      (Parallel.record hid ty).bind fun _ => .give ty

end Flow

/-! ### Programs -/

/-- What inference finds of two programs: alike modules, or alike errors. -/
inductive Inferred.Like (L : Likeness) : Except Stop Module → Except Stop Module → Prop
  | ok {M N : Module} : M.Like L N → Inferred.Like L (.ok M) (.ok N)
  | error {e f : TypeError} : e.Like L f → Inferred.Like L (.error (.error e)) (.error (.error f))
  | outOfFuel : Inferred.Like L (.error .outOfFuel) (.error .outOfFuel)

theorem Program.Like.infer {p q : Program} (h : p.Like L q) (limit : Nat) :
    Inferred.Like L (p.infer limit) (q.infer limit) := by
  have hfuel : q.fuel limit = p.fuel limit := by rw [fuel, fuel, h.size_eq]
  have hp := Follows.run (follows_expr limit (p.fuel limit) []) p.stmts
  have hq := Follows.run (follows_expr limit (p.fuel limit) []) q.stmts
  have hstanding : (Engine.initial.standing []).Matches L (Engine.initial.standing []) :=
    ⟨.nil, rfl, rfl, .nil⟩
  have hstacks : (Engine.initial.toStacks 0 []).Like L (Engine.initial.toStacks 0 []) :=
    ⟨Module.like_initial, rfl, rfl⟩
  have hrun := Flow.Parallel.body (Flow.parallel_expr limit (p.fuel limit) hstanding) h hstacks
  unfold Program.infer Program.run
  rw [hfuel]
  generalize Flow.body _ p.stmts _ = r at hp hrun
  generalize Flow.body _ q.stmts _ = r' at hq hrun
  cases hrun with
  | ok ty hlike =>
    obtain ⟨s, hs, rfl, -⟩ := hp
    obtain ⟨t, ht, rfl, -⟩ := hq
    rw [hs, ht]
    exact .ok ⟨hlike.module.methods, hlike.module.typeOf?, hlike.module.left, hlike.module.right, rfl⟩
  | error he =>
    obtain ⟨s, hs⟩ := hp
    obtain ⟨t, ht⟩ := hq
    rw [hs, ht]
    exact .error he
  | outOfFuel =>
    obtain ⟨s, hs⟩ := hp
    obtain ⟨t, ht⟩ := hq
    rw [hs, ht]
    exact .outOfFuel

end FlowTyping
