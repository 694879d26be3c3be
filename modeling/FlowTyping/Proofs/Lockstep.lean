import FlowTyping.Proofs.Afresh

/-!
# Cached calls and calls evaluated afresh

A run that returns what is known of a call, and one that evaluates the body of the method every time,
go in lockstep: they give the same types and leave the same tables and definitions
(`Flow.lockstep_expr`).  The invariant is `Module.Sound`: what is known of a call is what an
evaluation of the body would give now, but for the calls under inference.  A definition that takes the
place of another one keeps this if no call without a block is under inference and nothing that is
known was found out with the help of the other one (`Standing.MayDefine`).
-/

namespace FlowTyping

/-! ### What is known of calls -/

/-- What was found out about other methods does not hang on the definition of this name. -/
def Module.MayReplace (M : Module) (name : String) : Prop :=
  ∀ m ∈ M.methods, m.name ≠ name → m.instances ≠ [] →
    ¬ Definitions.Reaches M.definition? m.name name

/-- The definition is the first one of its name, or the one in force, or it may take its place. -/
def Standing.MayDefine (c : Standing) (M : Module) (d : Definition Expr) : Prop :=
  ∀ old, M.definition? d.name.name = some old → old ≠ d →
    c.depth = c.active.length ∧ M.MayReplace d.name.name

/-- The depth counts the calls with a block that are under way and the other ones. -/
def Standing.Counted (c : Standing) : Prop :=
  c.depth = c.active.length + c.under.countP (·.2.isSome)

theorem Standing.Counted.inside {c : Standing} (h : c.Counted) (method : Method)
    (signature : Signature) (block : Option (Block Expr)) :
    (c.inside method signature block).Counted := by
  cases block with
  | none =>
    show c.depth + 1 = c.active.length + List.countP _ (_ :: c.under)
    rw [List.countP_cons_of_pos rfl, h]; rfl
  | some b =>
    show c.depth + 1 = c.active.length + 1 + List.countP _ (_ :: c.under)
    rw [List.countP_cons_of_neg Bool.false_ne_true, h, Nat.add_right_comm]

theorem Standing.Counted.not_inPlain {c : Standing} (h : c.Counted)
    (hdepth : c.depth = c.active.length) : ¬ c.InPlain := by
  rintro ⟨d, signature, hmem⟩
  have hzero : c.under.countP (·.2.isSome) = 0 := by unfold Standing.Counted at h; omega
  exact List.countP_eq_zero.1 hzero _ hmem rfl

/-- A call without a block returns what is known, and runs are given up at definitions that may not
take the place of another one. -/
def Ways.cached : Ways where
  known := Method.returns?
  refuses := fun _ _ _ _ => False
  replaces := fun c M d => ¬ c.MayDefine M d

namespace Module
variable {limit : Nat} {under under' : List (Definition Expr × Option Signature)} {M M' : Module}
  {name : String} {method : Method} {d : Definition Expr} {signature : Signature} {ty : Ty}

/-- What is known of a call without a block is what the body of the method has, unless the body is
under inference for that call. -/
def Sound (limit : Nat) (under : List (Definition Expr × Option Signature)) (M : Module) : Prop :=
  ∀ x m, M.method? x = some m → ∀ signature ty, m.returns? signature = some ty →
    (m.definition, some signature) ∈ under ∨ Flow.Returns limit M.definition? m.definition signature ty

namespace Sound

theorem congr (h : M.methods = M'.methods) (hM : M.Sound limit under) : M'.Sound limit under := by
  have hmethod (x : String) : M.method? x = M'.method? x := by unfold method?; rw [h]
  intro x m hm
  rw [← hmethod] at hm
  rw [← definition?_congr h]
  exact hM x m hm

theorem mono (h : ∀ d signature, (d, some signature) ∈ under → (d, some signature) ∈ under')
    (hM : M.Sound limit under) : M.Sound limit under' :=
  fun x m hm signature ty hr => (hM x m hm signature ty hr).imp_left (h _ _)

theorem observe (hM : M.Sound limit under) :
    (M.updateMethod name (·.observe signature ty)).Sound limit under := by
  intro x m hm
  rw [definition?_observe]
  rw [method?_observe] at hm
  split at hm
  · obtain ⟨old, hold, rfl⟩ := Option.map_eq_some_iff.1 hm
    exact hM x old hold
  · exact hM x m hm

/-- A signature with a type to come. -/
theorem pending (hm : M.method? name = some method) (hM : M.Sound limit under) :
    (M.updateMethod name (·.store signature .nil)).Sound limit
      ((method.definition, some signature) :: under) := by
  intro x m hxm other ty' hr
  rw [definition?_store]
  rw [method?_store] at hxm
  split at hxm
  · next hx =>
    rw [hx, hm] at hxm
    cases hxm
    rw [Method.returns?_store] at hr
    split at hr
    · next heq => subst heq; exact .inl List.mem_cons_self
    · exact (hM name method hm other ty' hr).imp_left (List.mem_cons_of_mem _)
  · exact (hM x m hxm other ty' hr).imp_left (List.mem_cons_of_mem _)

/-- A signature whose type was found. -/
theorem finished (hd : M.definition? d.name.name = some d)
    (hty : Flow.Returns limit M.definition? d signature ty)
    (hM : M.Sound limit ((d, some signature) :: under)) :
    (M.updateMethod d.name.name (·.store signature ty)).Sound limit under := by
  obtain ⟨method, hm, hmd⟩ := exists_of_definition? hd
  intro x m hxm other ty' hr
  rw [definition?_store]
  rw [method?_store] at hxm
  split at hxm
  · next hx =>
    rw [hx, hm] at hxm
    cases hxm
    rw [Method.returns?_store] at hr
    split at hr
    · next heq =>
      subst heq
      cases hr
      exact .inr (hmd ▸ hty)
    · next hne =>
      refine (hM _ method hm other ty' hr).imp_left fun hmem => ?_
      rcases List.mem_cons.1 hmem with heq | hmem
      · cases heq; exact absurd rfl hne
      · exact hmem
  · next hx =>
    refine (hM x m hxm other ty' hr).imp_left fun hmem => ?_
    rcases List.mem_cons.1 hmem with heq | hmem
    · cases heq; exact absurd (name_of_method? hxm).symm hx
    · exact hmem

theorem define {c : Standing} (hd : c.MayDefine M d) (hM : M.Sound limit under) :
    (M.define d).Sound limit under := by
  intro x m hm signature ty hr
  rw [method?_define] at hm
  split at hm
  · cases hm; exact nomatch hr
  next hx =>
  refine (hM x m hm signature ty hr).imp_right fun hreturns => ?_
  have hname : m.definition.name.name = x := name_of_method? hm
  have hinstances : m.instances ≠ [] := fun h => by
    rw [Method.returns?, h] at hr; exact nomatch hr
  -- what the method reaches stays as it is
  have hkeep (z : String) (hz : Definitions.Reaches M.definition? m.definition.name.name z)
      (d' : Definition Expr) (hd' : M.definition? z = some d') :
      (M.define d).definition? z = some d' := by
    rw [definition?_define]
    split
    · next hzd =>
      subst hzd
      by_contra hne
      have hreplace := (hd d' hd' fun heq => hne (by rw [heq])).2 m (mem_of_method? hm)
      exact hreplace (fun h => hx (hname.symm.trans h)) hinstances hz
    · exact hd'
  refine hreturns.of_agree fun z hz d' hd' => ⟨?_, hkeep z hz d' hd'⟩
  induction hz generalizing d' with
  | refl => exact .refl
  | tail hy hstep ih =>
    obtain ⟨d'', hd'', hmem⟩ := hstep
    exact (ih d'' hd'').tail ⟨d'', hkeep _ hy d'' hd'', hmem⟩

end Sound
end Module

/-! ### Two runs -/

/-- The states of two runs in lockstep. -/
structure Linked (limit : Nat) (under : List (Definition Expr × Option Signature)) (s t : Stacks) :
    Prop where
  here : s.here = t.here
  held : s.held = t.held
  definitions : s.module.definition? = t.module.definition?
  sound : s.module.Sound limit under

namespace Flow

/-- Two runs end alike, unless the first one is given up or the second one ends with an excuse. -/
inductive Alike (P : Stacks → Stacks → Prop) :
    Except Halt (α × Stacks) → Except Halt (α × Stacks) → Prop
  | ok {a : α} {s t : Stacks} : P s t → Alike P (.ok (a, s)) (.ok (a, t))
  | error (e : TypeError) : Alike P (.error (.error e)) (.error (.error e))
  | outOfFuel {r : Except Halt (α × Stacks)} : Alike P (.error .outOfFuel) r
  | replaced {r : Except Halt (α × Stacks)} : Alike P (.error .replaced) r
  | excused {r : Except Halt (α × Stacks)} {h : Halt} : h.Excused → Alike P r (.error h)

/-- Steps that keep two runs in lockstep. -/
def Lockstep (limit : Nat) (under : List (Definition Expr × Option Signature)) (m n : Flow α) : Prop :=
  ∀ ⦃s t⦄, Linked limit under s t → Alike (Linked limit under) (m s) (n t)

variable {limit : Nat} {under under' : List (Definition Expr × Option Signature)} {s t : Stacks}

theorem Alike.bind {P Q : Stacks → Stacks → Prop} {m n : Flow α} {f g : α → Flow β}
    (h : Alike P (m s) (n t))
    (hf : ∀ a s' t', m s = .ok (a, s') → n t = .ok (a, t') → P s' t' → Alike Q (f a s') (g a t')) :
    Alike Q ((m >>= f) s) ((n >>= g) t) := by
  generalize hm : m s = r at h
  generalize hn : n t = r' at h
  cases h with
  | ok hP => rw [bind_of_ok hm, bind_of_ok hn]; exact hf _ _ _ hm hn hP
  | error e => rw [bind_of_error hm, bind_of_error hn]; exact .error e
  | outOfFuel => rw [bind_of_error hm]; exact .outOfFuel
  | replaced => rw [bind_of_error hm]; exact .replaced
  | excused he => rw [bind_of_error hn]; exact .excused he

theorem Alike.map {P Q : Stacks → Stacks → Prop} {r r' : Except Halt (α × Stacks)}
    {f g : Stacks → Stacks} (h : Alike P r r') (hfg : ∀ s t, P s t → Q (f s) (g t)) :
    Alike Q (r.map fun x => (x.1, f x.2)) (r'.map fun x => (x.1, g x.2)) := by
  cases h with
  | ok hP => exact .ok (hfg _ _ hP)
  | error e => exact .error e
  | outOfFuel => exact .outOfFuel
  | replaced => exact .replaced
  | excused he => exact .excused he

theorem Lockstep.bind {m n : Flow α} {f g : α → Flow β} (h : Lockstep limit under m n)
    (hf : ∀ a, Lockstep limit under (f a) (g a)) : Lockstep limit under (m >>= f) (n >>= g) :=
  fun _ _ hl => Alike.bind (h hl) fun a _ _ _ _ hl' => hf a hl'

theorem Lockstep.elsewhere {m n : Flow α} (params : List (Ident × Ty))
    (h : Lockstep limit under m n)
    {go : List Bindings → List (List Bindings) → List Bindings × List (List Bindings)}
    {back : List Bindings → List (List Bindings) → List Bindings → List (List Bindings) →
      List Bindings × List (List Bindings)} :
    Lockstep limit under (elsewhere params m go back) (elsewhere params n go back) := by
  intro s t hl
  have hmethods (M : Module) : (M.recordParams params).methods = M.methods :=
    Module.methods_recordParams params M
  have hin : Linked limit under
      ⟨s.module.recordParams params, (go s.here s.held).1, (go s.here s.held).2⟩
      ⟨t.module.recordParams params, (go t.here t.held).1, (go t.here t.held).2⟩ := by
    refine ⟨by rw [hl.here, hl.held], by rw [hl.here, hl.held], ?_, hl.sound.congr (hmethods _).symm⟩
    show Module.definition? _ = Module.definition? _
    rw [Module.definition?_congr (hmethods s.module), Module.definition?_congr (hmethods t.module)]
    exact hl.definitions
  rw [elsewhere_eq_map, elsewhere_eq_map]
  refine Alike.map
    (f := fun s' => ⟨s'.module, (back s.here s.held s'.here s'.held).1,
      (back s.here s.held s'.here s'.held).2⟩)
    (g := fun t' => ⟨t'.module, (back t.here t.held t'.here t'.held).1,
      (back t.here t.held t'.here t'.held).2⟩)
    (h hin) fun s' t' hl' => ⟨?_, ?_, hl'.definitions, hl'.sound⟩
  · show (back s.here s.held s'.here s'.held).1 = (back t.here t.held t'.here t'.held).1
    rw [hl.here, hl.held, hl'.here, hl'.held]
  · show (back s.here s.held s'.here s'.held).2 = (back t.here t.held t'.here t'.held).2
    rw [hl.here, hl.held, hl'.here, hl'.held]

theorem Lockstep.outward {m n : Flow α} (h : Lockstep limit under m n) :
    Lockstep limit under (outward m) (outward n) := by
  intro s t hl
  cases hs : s.held with
  | nil => rw [outward_of_nil hs]; exact .outOfFuel
  | cons first rest =>
    have ht : t.held = first :: rest := hl.held ▸ hs
    rw [outward_eq_map hs, outward_eq_map ht]
    have hin : Linked limit under ⟨s.module, first, rest⟩ ⟨t.module, first, rest⟩ :=
      ⟨rfl, rfl, hl.definitions, hl.sound⟩
    refine Alike.map (f := fun s' => ⟨s'.module, s.here, s'.here :: s'.held⟩)
      (g := fun t' => ⟨t'.module, t.here, t'.here :: t'.held⟩) (h hin)
      fun s' t' hl' => ⟨hl.here, ?_, hl'.definitions, hl'.sound⟩
    show s'.here :: s'.held = t'.here :: t'.held
    rw [hl'.here, hl'.held]

theorem Lockstep.congruence (limit : Nat) (under : List (Definition Expr × Option Signature)) :
    Congruence (Lockstep limit under) (fun _ _ => True) := by
  refine .of_steps ?_ Lockstep.bind ?_ ?_ ?_ ?_ ?_ ?_ (fun _ => trivial)
    (fun params h => h.elsewhere params) fun h => h.outward
  · exact fun a s t hl => .ok hl
  · intro s t hl
    show Alike _ (.ok (s.here, s)) (.ok (t.here, t))
    rw [hl.here]
    exact .ok hl
  · exact fun tables s t hl => .ok ⟨rfl, hl.held, hl.definitions, hl.sound⟩
  · intro name ty s t hl
    refine .ok ⟨?_, hl.held, hl.definitions, hl.sound⟩
    show Tables.write name ty s.here = Tables.write name ty t.here
    rw [hl.here]
  · intro node ty s t hl
    exact .ok ⟨hl.here, hl.held, hl.definitions, hl.sound.congr rfl⟩
  · intro α c₁ c₂ hc cause node span s t _
    unfold fail
    rw [hc]
    exact .error _
  · intro α m n fuel₁ fuel₂ _ _ hzero s t _
    rcases hzero with rfl | rfl
    · exact .outOfFuel
    · exact .excused trivial

/-! ### Calls and definitions -/

section
variable {c : Standing} {id : NodeId} {span : Span} {method k : Method} {signature : Signature}
  {block : Option (Block Expr)}

theorem lockstep_methodBody {expr₁ expr₂ : Standing → Expr → Flow Ty}
    (h : ∀ e, Lockstep limit (c.inside method signature block).under
      (expr₁ (c.inside method signature block) e) (expr₂ (c.inside method signature block) e))
    (hk : k.definition = method.definition) :
    Lockstep limit (c.inside method signature block).under
      (methodBody expr₁ limit c id span method signature block)
      (methodBody expr₂ limit c id span k signature block) := by
  rw [methodBody_congr hk]
  have hcongr := Lockstep.congruence limit (c.inside method signature block).under
  have hrun := hcongr.body fun e (_ : e ∈ method.definition.body) => h e
  by_cases hlimit : limit ≤ c.depth
  · rw [methodBody_of_le hlimit, methodBody_of_le hlimit]
    exact hcongr.fail rfl _ id span
  · cases block with
    | none => rw [methodBody_none hlimit, methodBody_none hlimit]; exact hrun.elsewhere _
    | some b => rw [methodBody_some hlimit, methodBody_some hlimit]; exact hrun.elsewhere _

theorem alike_define (hc : c.Counted) (d : Definition Expr) :
    Lockstep limit c.under (define .cached c d) (define .afresh c d) := by
  intro s t hl
  by_cases hmay : c.MayDefine s.module d
  · have hcached : ¬ Ways.cached.replaces c s.module d := fun h => h hmay
    have hafresh : ¬ Ways.afresh.replaces c t.module d := by
      rintro ⟨hplain, old, hold, hne⟩
      rw [← hl.definitions] at hold
      exact hc.not_inPlain (hmay old hold hne).1 hplain
    rw [define_of_not hcached, define_of_not hafresh]
    refine .ok ⟨hl.here, hl.held, ?_, hl.sound.define hmay⟩
    funext x
    show (s.module.define d).definition? x = (t.module.define d).definition? x
    rw [Module.definition?_define, Module.definition?_define, hl.definitions]
  · have hcached : Ways.cached.replaces c s.module d := hmay
    rw [define_of_replaces hcached]
    exact .replaced

section
variable {fuel₁ fuel₂ : Nat}
  (h : ∀ c e, c.Counted →
    Lockstep limit c.under (Flow.expr .cached limit fuel₁ c e) (Flow.expr .afresh limit fuel₂ c e))
  (hc : c.Counted) (hk : k.definition = method.definition) (hl : Linked limit c.under s t)
include h hc hk hl

/-- What is known is what the body of the method has, and what is not known both runs find out. -/
theorem alike_plainCall (hm : s.module.method? method.name = some method)
    (hr : ¬ c.Reenters k signature none) :
    Alike (Linked limit c.under)
      (plainCall .cached (Flow.expr .cached limit fuel₁) limit c id span method signature s)
      (plainCall .afresh (Flow.expr .afresh limit fuel₂) limit c id span k signature t) := by
  cases hret : method.returns? signature with
  | some ty =>
    rw [plainCall_of_some (w := .cached) hret]
    rcases hl.sound _ method hm signature ty hret with hmem | hreturns
    · exact absurd (.inl ⟨_, hk ▸ hmem⟩) hr
    · rcases hreturns.plainCall hk hl.definitions.symm with ⟨e, hrun, he⟩ | ⟨K, hrun, hK⟩
      · rw [hrun]; exact .excused he
      · rw [hrun]; exact .ok ⟨hl.here, hl.held, hK.symm, hl.sound⟩
  | none =>
    have hname : k.name = method.name := by rw [Method.name, hk]; rfl
    rw [plainCall_of_none (w := .cached) hret, plainCall_of_none (w := .afresh) rfl]
    have hl₁ : Linked limit ((method.definition, some signature) :: c.under)
        { s with module := s.module.updateMethod method.name (·.store signature .nil) }
        { t with module := t.module.updateMethod k.name (·.store signature .nil) } := by
      refine ⟨hl.here, hl.held, ?_, hl.sound.pending hm⟩
      show Module.definition? _ = Module.definition? _
      rw [Module.definition?_store, Module.definition?_store, hl.definitions]
    refine Alike.bind (.ok hl₁) fun _ s₁ t₁ hs₁ ht₁ _ => ?_
    cases hs₁
    cases ht₁
    refine Alike.bind (lockstep_methodBody (fun e => h _ e (hc.inside method signature none)) hk hl₁)
      fun ty s₂ t₂ _ ht₂ hl₂ => ?_
    have hdefinition :
        (t.module.updateMethod k.name (·.store signature .nil)).definition? k.name =
          some k.definition := by
      rw [Module.definition?_store, ← hl.definitions, hname, hk]
      exact Module.definition?_of_method? hm
    have hreturns := returns_of_run ht₂ hdefinition
    have hstays := definition?_of_run ht₂ hdefinition
    rw [← hl₂.definitions, hk] at hreturns
    rw [← hl₂.definitions, hname, hk] at hstays
    have hl₃ : Linked limit c.under
        { s₂ with module := s₂.module.updateMethod method.name (·.store signature ty) }
        { t₂ with module := t₂.module.updateMethod k.name (·.store signature ty) } := by
      refine ⟨hl₂.here, hl₂.held, ?_, hl₂.sound.finished hstays hreturns⟩
      show Module.definition? _ = Module.definition? _
      rw [Module.definition?_store, Module.definition?_store, hl₂.definitions]
    exact Alike.bind (.ok hl₃) fun _ _ _ _ _ hl' => .ok hl'

theorem alike_blockCall {b : Block Expr} (hr : ¬ c.Reenters k signature (some b)) :
    Alike (Linked limit c.under)
      (blockCall (Flow.expr .cached limit fuel₁) limit c id span method signature b s)
      (blockCall (Flow.expr .afresh limit fuel₂) limit c id span k signature b t) := by
  rw [blockCall_congr hk]
  have hname : k.name = method.name := by rw [Method.name, hk]; rfl
  have hnot : ⟨method.name, signature, b.id⟩ ∉ c.active := fun hmem =>
    hr (.inr ⟨b, rfl, hname ▸ hmem⟩)
  rw [blockCall_of_notMem hnot, blockCall_of_notMem hnot]
  have hl₁ : Linked limit (c.inside method signature (some b)).under s t :=
    ⟨hl.here, hl.held, hl.definitions, hl.sound.mono fun _ _ => List.mem_cons_of_mem _⟩
  refine Alike.bind (lockstep_methodBody (fun e => h _ e (hc.inside method signature (some b))) rfl
    hl₁) fun ty s₁ t₁ _ _ hl₁ => ?_
  have hl₂ : Linked limit c.under
      { s₁ with module := s₁.module.updateMethod method.name (·.observe signature ty) }
      { t₁ with module := t₁.module.updateMethod method.name (·.observe signature ty) } := by
    refine ⟨hl₁.here, hl₁.held, ?_, (hl₁.sound.mono fun d signature hmem => ?_).observe⟩
    · show Module.definition? _ = Module.definition? _
      rw [Module.definition?_observe, Module.definition?_observe, hl₁.definitions]
    · exact (List.mem_cons.1 hmem).resolve_left fun heq => nomatch heq
  exact Alike.bind (.ok hl₂) fun _ _ _ _ _ hl' => .ok hl'

theorem alike_enter (hm : s.module.method? method.name = some method) :
    Alike (Linked limit c.under)
      (enter .cached (Flow.expr .cached limit fuel₁) limit c id span method signature block s)
      (enter .afresh (Flow.expr .afresh limit fuel₂) limit c id span k signature block t) := by
  by_cases hr : Ways.afresh.refuses c k signature block
  · rw [enter_of_refuses hr]; exact .excused trivial
  have hcached {block : Option (Block Expr)} : ¬ Ways.cached.refuses c method signature block :=
    not_false
  cases block with
  | none =>
    rw [enter_none hcached, enter_none hr]
    exact alike_plainCall h hc hk hl hm hr
  | some b =>
    rw [enter_some hcached, enter_some hr]
    exact alike_blockCall h hc hk hl hr

end

theorem lockstep_dispatch {fuel₁ fuel₂ : Nat}
    (h : ∀ c e, c.Counted →
      Lockstep limit c.under (Flow.expr .cached limit fuel₁ c e) (Flow.expr .afresh limit fuel₂ c e))
    (hc : c.Counted) (name : String) (nameSpan : Span) :
    Lockstep limit c.under
      (dispatch (enter .cached (Flow.expr .cached limit fuel₁) limit) c id span name nameSpan
        signature block)
      (dispatch (enter .afresh (Flow.expr .afresh limit fuel₂) limit) c id span name nameSpan
        signature block) := by
  intro s t hl
  have hcongr := Lockstep.congruence limit c.under
  have hname := congrFun hl.definitions name
  cases hs : s.module.method? name with
  | none =>
    have ht : t.module.method? name = none := by
      rw [Module.definition?, hs] at hname
      exact Option.map_eq_none_iff.1 hname.symm
    rw [dispatch_of_none hs, dispatch_of_none ht]
    exact hcongr.fail rfl _ id nameSpan hl
  | some method =>
    rw [Module.definition?_of_method? hs] at hname
    obtain ⟨k, ht, hk⟩ := Module.exists_of_definition? hname.symm
    have harity : k.arity = method.arity := by rw [Method.arity, hk]; rfl
    by_cases hsig : method.arity = signature.length
    · rw [dispatch_of_some hs hsig, dispatch_of_some ht (harity.trans hsig)]
      obtain rfl := Module.name_of_method? hs
      exact alike_enter h hc hk hl hs
    · rw [dispatch_of_arity hs hsig, dispatch_of_arity ht (harity ▸ hsig), harity]
      exact hcongr.fail rfl _ id span hl

end

/-- A run that returns what is known and one that evaluates every call afresh end alike. -/
theorem lockstep_expr (limit fuel₁ fuel₂ : Nat) {c : Standing} (hc : c.Counted) (e : Expr) :
    Lockstep limit c.under (Flow.expr .cached limit fuel₁ c e)
      (Flow.expr .afresh limit fuel₂ c e) := by
  induction fuel₁ generalizing fuel₂ c e with
  | zero => exact fun _ _ _ => .outOfFuel
  | succ fuel₁ ih =>
    cases fuel₂ with
    | zero => exact fun _ _ _ => .excused trivial
    | succ fuel₂ =>
      refine (Lockstep.congruence limit c.under).layer trivial rfl rfl (fun part _ => ih fuel₂ hc part)
        (fun block method? outer _ stmt _ => ?_) (fun name nameSpan args block _ signature => ?_)
        fun d _ => alike_define hc d
      · exact ih (c := { c with blocks := outer, method? }) fuel₂ hc stmt
      · exact lockstep_dispatch (fun c e hc => ih fuel₂ hc e) hc name nameSpan

end Flow
end FlowTyping
