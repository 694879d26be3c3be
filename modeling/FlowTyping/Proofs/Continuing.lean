import FlowTyping.Proofs.Blame
import FlowTyping.Proofs.Effects
import FlowTyping.Proofs.Learning

/-!
# Programs that go on

`Program.infer_append`: statements that are added behind a program only add to what is found of it.  Along
a run annotations get wider, calls without a block are kept behind the ones that are known, and what is
known of a call with a block gets wider (`Module.Accrues`).  An instance is written twice, before and after
the body of the method is evaluated, but the first time it is new, and so both times it stands behind the
instances that were there (`Instance.prefix_upsert`).  Only a definition makes the methods forget, and that
of its own name alone; so definitions are kept out of the bodies, where they could come in between.
-/

namespace FlowTyping

/-! ### What is kept of calls -/

namespace Instance
variable {combine : Ty → Ty → Ty} {signature : Signature} {returns : Ty} {is js : List Instance}

/-- A call with a new signature is kept behind the others. -/
theorem prefix_upsert (hnew : find? signature is = none) (h : is <+: js) :
    is <+: upsert combine signature returns js := by
  obtain ⟨rest, rfl⟩ := h
  induction is with
  | nil => exact List.nil_prefix
  | cons i is ih =>
    obtain ⟨hi, hnew⟩ := List.forall_mem_cons.1 (List.find?_eq_none.1 hnew)
    rw [beq_iff_eq] at hi
    rw [List.cons_append, upsert, if_neg hi]
    exact List.cons_prefix_cons.2 ⟨rfl, ih (List.find?_eq_none.2 hnew)⟩

/-- Where more is observed of a call it returns more. -/
theorem covered_upsert_join {i : Instance} (hi : i ∈ is) :
    ∃ j ∈ upsert Ty.join signature returns is, j.signature = i.signature ∧ i.returns.CoveredBy j.returns := by
  induction is with
  | nil => exact absurd hi List.not_mem_nil
  | cons first is ih =>
    rw [upsert]
    by_cases hfirst : first.signature = signature
    · rw [if_pos hfirst]
      rcases List.mem_cons.1 hi with rfl | hi
      · exact ⟨_, List.mem_cons_self, hfirst.symm, fun x hx => Ty.mem_join.2 (.inl hx)⟩
      · exact ⟨i, List.mem_cons_of_mem _ hi, rfl, fun _ hx => hx⟩
    · rw [if_neg hfirst]
      rcases List.mem_cons.1 hi with rfl | hi
      · exact ⟨i, List.mem_cons_self, rfl, fun _ hx => hx⟩
      · obtain ⟨j, hj, hcovered⟩ := ih hi
        exact ⟨j, List.mem_cons_of_mem _ hj, hcovered⟩

end Instance

/-- The same method at a later time: the calls without a block that were known come first, and those with
a block return at least what they did. -/
structure Method.Later (m n : Method) : Prop where
  definition : n.definition = m.definition
  instances : m.instances <+: n.instances
  blockInstances : ∀ i ∈ m.blockInstances, ∃ j ∈ n.blockInstances,
    j.signature = i.signature ∧ i.returns.CoveredBy j.returns

namespace Method.Later
variable {m n k : Method} {signature : Signature} {ty : Ty}

theorem refl (m : Method) : m.Later m :=
  ⟨rfl, List.prefix_refl _, fun i hi => ⟨i, hi, rfl, fun _ hx => hx⟩⟩

theorem trans (h₁ : m.Later n) (h₂ : n.Later k) : m.Later k where
  definition := h₂.definition.trans h₁.definition
  instances := h₁.instances.trans h₂.instances
  blockInstances i hi := by
    obtain ⟨j, hj, hji, hcovered⟩ := h₁.blockInstances i hi
    obtain ⟨l, hl, hlj, hcovered'⟩ := h₂.blockInstances j hj
    exact ⟨l, hl, hlj.trans hji, fun x hx => hcovered' x (hcovered x hx)⟩

theorem store (h : m.Later n) (hnew : m.returns? signature = none) : m.Later (n.store signature ty) :=
  ⟨h.definition, Instance.prefix_upsert (Option.map_eq_none_iff.1 hnew) h.instances, h.blockInstances⟩

theorem observe (m : Method) (signature : Signature) (ty : Ty) : m.Later (m.observe signature ty) :=
  ⟨rfl, List.prefix_refl _, fun _ hi => Instance.covered_upsert_join hi⟩

theorem name (h : m.Later n) : n.name = m.name := congrArg (fun d => d.name.name) h.definition

end Method.Later

/-- All that was seen is seen in the second module, and the methods under some names are there as they
were or at a later time. -/
structure Module.Accrues (kept : String → Prop) (M N : Module) : Prop where
  grows : M.Grows N
  methods : ∀ x m, kept x → M.method? x = some m → ∃ n, N.method? x = some n ∧ m.Later n

namespace Module.Accrues
variable {kept : String → Prop} {M N K : Module} {name : String} {m : Method} {signature : Signature}
  {ty : Ty}

theorem of_methods_eq (h : N.methods = M.methods) (hgrows : M.Grows N) : M.Accrues kept N :=
  ⟨hgrows, fun _ m _ hm => ⟨m, (method?_congr h).trans hm, .refl m⟩⟩

theorem refl (M : Module) : M.Accrues kept M := of_methods_eq rfl (.refl M)

theorem trans (h₁ : M.Accrues kept N) (h₂ : N.Accrues kept K) : M.Accrues kept K where
  grows := h₁.grows.trans h₂.grows
  methods x m hx hm := by
    obtain ⟨n, hn, hmn⟩ := h₁.methods x m hx hm
    obtain ⟨k, hk, hnk⟩ := h₂.methods x n hx hn
    exact ⟨k, hk, hmn.trans hnk⟩

/-- What is known of a method changes in a way that takes nothing from what was known before. -/
theorem updateMethod (h : M.Accrues kept N) {f : Method → Method} (hf : ∀ n, (f n).name = n.name)
    (hlater : ∀ m n, M.method? name = some m → m.Later n → m.Later (f n)) :
    M.Accrues kept (N.updateMethod name f) where
  grows := h.grows.trans (.updateMethod N name f)
  methods x m hx hm := by
    obtain ⟨n, hn, hmn⟩ := h.methods x m hx hm
    rw [method?_updateMethod hf]
    split
    · next heq =>
      subst heq
      exact ⟨f n, by rw [hn]; rfl, hlater m n hm hmn⟩
    · exact ⟨n, hn, hmn⟩

theorem store (h : M.Accrues kept N) (hm : M.method? name = some m) (hnew : m.returns? signature = none) :
    M.Accrues kept (N.updateMethod name (·.store signature ty)) := by
  refine h.updateMethod (fun _ => rfl) fun m' n hm' hmn => hmn.store ?_
  cases hm.symm.trans hm'
  exact hnew

theorem observe (M : Module) (name : String) (signature : Signature) (ty : Ty) :
    M.Accrues kept (M.updateMethod name (·.observe signature ty)) :=
  (refl M).updateMethod (fun _ => rfl) fun _ n _ hmn => hmn.trans (.observe n signature ty)

theorem define {d : Definition Expr} (hd : ¬ kept d.name.name) (M : Module) :
    M.Accrues kept (M.define d) where
  grows := .define M d
  methods x m hx hm := by
    have hne : x ≠ d.name.name := fun heq => hd (heq ▸ hx)
    exact ⟨m, by rw [method?_define, if_neg hne, hm], .refl m⟩

end Module.Accrues

theorem Module.DefFree.define {M : Module} (h : M.DefFree) {d : Definition Expr}
    (hd : ∀ e ∈ d.body, e.defFree) : (M.define d).DefFree := by
  intro m hm
  rcases Module.mem_putMethod hm with rfl | hm
  · exact hd
  · exact h m hm

/-! ### Evaluations without definitions -/

/-- The bodies of methods stay free of definitions, and more is known. -/
def Stacks.Accrues (kept : String → Prop) (s t : Stacks) : Prop :=
  s.module.DefFree → t.module.DefFree ∧ s.module.Accrues kept t.module

namespace Stacks.Accrues
variable {kept : String → Prop} {s t u : Stacks}

theorem of_methods_eq (h : t.module.methods = s.module.methods) (hgrows : s.module.Grows t.module) :
    s.Accrues kept t := fun hs => ⟨by unfold Module.DefFree; rwa [h], .of_methods_eq h hgrows⟩

theorem refl (s : Stacks) : s.Accrues kept s := of_methods_eq rfl (.refl _)

theorem trans (h₁ : s.Accrues kept t) (h₂ : t.Accrues kept u) : s.Accrues kept u := fun hs =>
  ⟨(h₂ (h₁ hs).1).1, (h₁ hs).2.trans (h₂ (h₁ hs).1).2⟩

end Stacks.Accrues

namespace Flow
variable {kept : String → Prop}

theorem Leads.accrues_elsewhere {m : Flow α} (params : List (Ident × Ty)) (h : Leads (Stacks.Accrues kept) m)
    {go : List Bindings → List (List Bindings) → List Bindings × List (List Bindings)}
    {back : List Bindings → List (List Bindings) → List Bindings → List (List Bindings) →
      List Bindings × List (List Bindings)} :
    Leads (Stacks.Accrues kept) (elsewhere params m go back) := by
  intro s a u hrun
  obtain ⟨t, hm, rfl⟩ := elsewhere_ok hrun
  have hparams : s.Accrues kept ⟨s.module.recordParams params, (go s.here s.held).1, (go s.here s.held).2⟩ :=
    .of_methods_eq (Module.methods_recordParams _ _) (.recordParams _ _)
  have hbehind := hparams.trans (h hm)
  exact hbehind

theorem Leads.accrues_congruence (kept : String → Prop) :
    Congruence (fun m _ => Leads (Stacks.Accrues kept) m) (· = ·) := by
  refine .of_steps (fun a => ?_) (fun hm hf => ?_) ?_ (fun tables => ?_) (fun name ty => ?_)
    (fun node ty => ?_) (fun _ _ _ _ => throw _) (fun hfuel _ hzero => ?_) Nat.succ.inj
    (fun params h => h.accrues_elsewhere params) fun h => ?_
  · intro s b t hrun; cases hrun; exact .refl s
  · intro s b u hrun
    obtain ⟨a, t, hst, htu⟩ := bind_eq_ok_iff.1 hrun
    exact (hm hst).trans (hf a htu)
  · intro s b t hrun; cases hrun; exact .refl s
  · intro s b t hrun; cases hrun; exact .of_methods_eq rfl (.refl _)
  · intro s b t hrun; cases hrun; exact .of_methods_eq rfl (.refl _)
  · intro s b t hrun; cases hrun; exact .of_methods_eq rfl (.record _ _ _)
  · subst hfuel
    rcases hzero with rfl | rfl <;> exact throw _
  · intro s a u hrun
    obtain ⟨first, rest, t, -, hm, rfl⟩ := outward_ok hrun
    have hbehind := h hm
    exact hbehind

variable {expr : Standing → Expr → Flow Ty} {limit : Nat} {c : Standing} {id : NodeId} {span : Span}
  {method : Method} {signature : Signature} {block : Option (Block Expr)} {s t : Stacks} {ty : Ty}

section
variable (h : ∀ c e, c.DefFree → e.defFree → Leads (Stacks.Accrues kept) (expr c e)) (hc : c.DefFree)
include h hc

theorem accrues_methodBody (hbody : ∀ e ∈ method.definition.body, e.defFree)
    (hblock : ∀ b, block = some b → ∀ e ∈ b.body, e.defFree) :
    Leads (Stacks.Accrues kept) (methodBody expr limit c id span method signature block) := by
  by_cases hlimit : limit ≤ c.depth
  · rw [methodBody_of_le hlimit]; exact .throw _
  have hrun (hinside : (c.inside method signature block).DefFree) :
      Leads (Stacks.Accrues kept) (body (expr (c.inside method signature block)) method.definition.body) :=
    @Congruence.body _ _ (Leads.accrues_congruence kept) _ (expr (c.inside method signature block)) _
      fun e he => h _ e hinside (hbody e he)
  cases block with
  | none =>
    rw [methodBody_none hlimit]
    exact (hrun fun _ hb => absurd hb List.not_mem_nil).accrues_elsewhere _
  | some b =>
    rw [methodBody_some hlimit]
    exact (hrun (List.forall_mem_cons.2 ⟨hblock b rfl, hc⟩)).accrues_elsewhere _

/-- A call that is answered at once changes nothing; the first one with a signature is kept behind the
others. -/
theorem accrues_plainCall (hm : s.module.method? method.name = some method)
    (hrun : plainCall .plain expr limit c id span method signature s = .ok (ty, t)) : s.Accrues kept t := by
  intro hs
  cases hr : method.returns? signature with
  | some ty' =>
    rw [plainCall_of_some (w := .plain) hr] at hrun
    cases hrun
    exact Stacks.Accrues.refl s hs
  | none =>
    rw [plainCall_of_none (w := .plain) hr] at hrun
    obtain ⟨M, hbody, rfl⟩ := firstCall_ok hrun
    have hdefFree := hs _ (Module.mem_of_method? hm)
    have hblock (b : Block Expr) (hb : none = some b) : ∀ e ∈ b.body, e.defFree := nomatch hb
    obtain ⟨hM, haccrues⟩ := accrues_methodBody h hc hdefFree hblock hbody (hs.updateMethod fun _ => rfl)
    have hstored : s.module.Accrues kept (s.module.updateMethod method.name (·.store signature .nil)) :=
      (Module.Accrues.refl s.module).store hm hr
    exact ⟨hM.updateMethod fun _ => rfl, (hstored.trans haccrues).store hm hr⟩

theorem accrues_enter (hm : s.module.method? method.name = some method)
    (hblock : ∀ b, block = some b → ∀ e ∈ b.body, e.defFree)
    (hrun : enter .plain expr limit c id span method signature block s = .ok (ty, t)) : s.Accrues kept t := by
  cases block with
  | none =>
    rw [enter_none not_false] at hrun
    exact accrues_plainCall h hc hm hrun
  | some b =>
    rw [enter_some not_false] at hrun
    intro hs
    by_cases hactive : ⟨method.name, signature, b.id⟩ ∈ c.active
    · rw [blockCall_of_mem hactive] at hrun
      cases hrun
      exact Stacks.Accrues.refl s hs
    · rw [blockCall_of_notMem hactive] at hrun
      obtain ⟨ty', s', hbody, hrun⟩ := bind_eq_ok_iff.1 hrun
      obtain ⟨_, _, ⟨⟩, hrun⟩ := bind_eq_ok_iff.1 hrun
      cases hrun
      have hdefFree := hs _ (Module.mem_of_method? hm)
      obtain ⟨hs', haccrues⟩ := accrues_methodBody h hc hdefFree hblock hbody hs
      exact ⟨hs'.updateMethod fun _ => rfl, haccrues.trans (.observe _ _ _ _)⟩

theorem accrues_dispatch (hblock : ∀ b, block = some b → ∀ e ∈ b.body, e.defFree) (name : String)
    (nameSpan : Span) :
    Leads (Stacks.Accrues kept)
      (dispatch (enter .plain expr limit) c id span name nameSpan signature block) := by
  intro s ty t hrun
  obtain ⟨method, hm, -, hentry⟩ := dispatch_ok hrun
  obtain rfl := Module.name_of_method? hm
  exact accrues_enter h hc hm hblock hentry

end

theorem accrues_expr (kept : String → Prop) (limit fuel : Nat) (hc : c.DefFree) {e : Expr} (he : e.defFree) :
    Leads (Stacks.Accrues kept) (Flow.expr .plain limit fuel c e) := by
  induction fuel generalizing c e with
  | zero => exact .throw _
  | succ fuel ih =>
    refine @Congruence.layer_of_defFree _ _ (Leads.accrues_congruence kept) .plain .plain _
      (Flow.expr .plain limit fuel) _ (enter .plain (Flow.expr .plain limit fuel) limit) fuel fuel c c
      rfl rfl rfl hc e he (fun part hp => ih hc hp) (fun outer method? houter stmt hstmt => ih houter hstmt)
      fun name nameSpan block hblock signature => ?_
    exact accrues_dispatch (fun c e hc he => ih hc he) hc hblock name nameSpan

/-! ### Statements -/

/-- A statement behind which the methods under some names are still known. -/
structure Keeps (kept : String → Prop) (e : Expr) : Prop where
  parts : ∀ part ∈ e.form.parts, part.defFree
  define : ∀ d, e.form = .define d → ¬ kept d.name.name

theorem accrues_stmt (limit fuel : Nat) {e : Expr} (he : Keeps kept e) :
    Leads (Stacks.Accrues kept) (Flow.expr .plain limit fuel .top e) := by
  cases fuel with
  | zero => exact .throw _
  | succ fuel =>
    have htop : Standing.top.DefFree := fun _ hb => absurd hb List.not_mem_nil
    refine @Congruence.layer _ _ (Leads.accrues_congruence kept) .top .top .plain .plain _
      (Flow.expr .plain limit fuel) _ (enter .plain (Flow.expr .plain limit fuel) limit) fuel fuel
      rfl rfl rfl e (fun part hp => accrues_expr kept limit fuel htop (he.parts part hp)) nofun
      (fun name nameSpan args block hform signature => ?_) fun d hform => ?_
    · refine accrues_dispatch (fun c e hc he => accrues_expr kept limit fuel hc he) htop ?_ name nameSpan
      rintro b rfl stmt hstmt
      exact he.parts stmt (by rw [hform]; exact List.mem_append_right args hstmt)
    · intro s ty t hrun hs
      rw [define_of_not not_false] at hrun
      cases hrun
      refine ⟨hs.define fun stmt hstmt => he.parts stmt ?_, .define (he.define d hform) _⟩
      rw [hform]
      exact hstmt

theorem accrues_body (limit fuel : Nat) {stmts : List Expr} (h : ∀ e ∈ stmts, Keeps kept e) :
    Leads (Stacks.Accrues kept) (body (Flow.expr .plain limit fuel .top) stmts) :=
  @Congruence.body _ _ (Leads.accrues_congruence kept) _ (Flow.expr .plain limit fuel .top) _
    fun e he => accrues_stmt limit fuel (h e he)

theorem body_append_ok {expr : Expr → Flow Ty} {es fs : List Expr} {s u : Stacks} {ty : Ty}
    (h : body expr (es ++ fs) s = .ok (ty, u)) :
    ∃ ty₁ t, body expr es s = .ok (ty₁, t) ∧ ∃ ty₂, body expr fs t = .ok (ty₂, u) := by
  rw [body, List.foldlM_append] at h
  obtain ⟨ty₁, t, hes, hfs⟩ := bind_eq_ok_iff.1 h
  refine ⟨ty₁, t, hes, ?_⟩
  cases fs with
  | nil => cases hfs; exact ⟨.nil, rfl⟩
  | cons f fs => exact ⟨ty, hfs⟩

end Flow

/-! ### Programs -/

namespace Program
variable {p q : Program} {limit : Nat} {N : Module}

/-- The program with the statements of another one behind its own. -/
def append (p q : Program) : Program := ⟨p.stmts ++ q.stmts⟩

theorem size_append (p q : Program) : (p.append q).size = p.size + q.size := by
  show (List.map Expr.size (p.stmts ++ q.stmts)).sum =
    (p.stmts.map Expr.size).sum + (q.stmts.map Expr.size).sum
  rw [List.map_append, List.sum_append]

theorem fuel_le_fuel_append (p q : Program) (limit : Nat) : p.fuel limit ≤ (p.append q).fuel limit := by
  have hsize : p.size + 1 ≤ (p.append q).size + 1 := by rw [size_append]; omega
  have hpasses := Nat.mul_le_mul (Nat.mul_le_mul_left 7 hsize) hsize
  have hbodies := Nat.mul_le_mul_left (2 * limit + 2) (Nat.add_le_add_right hsize 1)
  simp only [fuel]
  omega

/-- A top-level statement of the program defines the name. -/
def DefinesName (p : Program) (name : String) : Prop :=
  ∃ e ∈ p.stmts, ∃ d, e.form = .define d ∧ d.name.name = name

/-- The first part of a run that ends well is the run of the first program. -/
theorem infer_of_append (h : (p.append q).infer limit = .ok N) :
    ∃ ty s, p.infer limit = .ok { s.module with result := ty } ∧
      Flow.body (Flow.expr .plain limit ((p.append q).fuel limit) .top) p.stmts
        (Engine.initial.toStacks 0 []) = .ok (ty, s) ∧
      ∃ ty' t, Flow.body (Flow.expr .plain limit ((p.append q).fuel limit) .top) q.stmts s = .ok (ty', t) ∧
        N.methods = t.module.methods ∧ N.types = t.module.types := by
  have hfirst := Follows.run (follows_expr limit ((p.append q).fuel limit) []) p.stmts
  have hfuel := (p.infer_ends limit).2 _ (p.fuel_le_fuel_append q limit)
  have hstanding : Engine.initial.standing [] = .top := rfl
  rw [hstanding] at hfirst
  rw [infer_eq_run] at h
  cases hrun : Flow.body (Flow.expr .plain limit ((p.append q).fuel limit) .top) (p.append q).stmts
      (Engine.initial.toStacks 0 []) with
  | error halt => rw [hrun] at h; exact nomatch h
  | ok r =>
    obtain ⟨ty', t⟩ := r
    rw [hrun] at h
    cases h
    obtain ⟨ty, s, hp, ty', hq⟩ := Flow.body_append_ok hrun
    rw [hp] at hfirst
    obtain ⟨s', hs', rfl, -⟩ := hfirst
    refine ⟨ty, _, ?_, hp, ty', t, hq, rfl, rfl⟩
    rw [infer, ← hfuel, hs']
    rfl

/-- Where a program that goes on ends well, its first part does, and what was found of that is still
known. -/
theorem infer_append (hdefs : (p.append q).defsAtTop) (h : (p.append q).infer limit = .ok N) :
    ∃ M, p.infer limit = .ok M ∧
      (∀ i ty, (i, ty) ∈ M.annotations → ∃ ty', (i, ty') ∈ N.annotations ∧ ty.CoveredBy ty') ∧
      ∀ m ∈ M.methods, ¬ q.DefinesName m.name → ∃ n ∈ N.methods, n.name = m.name ∧ m.Later n := by
  have hparts (e : Expr) (he : e ∈ (p.append q).stmts) (part : Expr) (hp : part ∈ e.form.parts) :
      part.defFree := List.all_eq_true.1 (List.all_eq_true.1 hdefs e he) part hp
  have hkeepsFirst (e : Expr) (he : e ∈ p.stmts) : Flow.Keeps (fun _ => False) e :=
    ⟨hparts e (List.mem_append_left _ he), fun _ _ => not_false⟩
  have hkeepsRest (e : Expr) (he : e ∈ q.stmts) : Flow.Keeps (fun x => ¬ q.DefinesName x) e :=
    ⟨hparts e (List.mem_append_right _ he), fun d hd hkept => hkept ⟨e, he, d, hd, rfl⟩⟩
  obtain ⟨ty, s, hp, hrunFirst, ty', t, hrunRest, hmethods, htypes⟩ := infer_of_append h
  have hdefFree := (Flow.accrues_body limit _ hkeepsFirst hrunFirst fun _ hm => absurd hm List.not_mem_nil).1
  have haccrues := (Flow.accrues_body limit _ hkeepsRest hrunRest hdefFree).2
  obtain ⟨K, tys, hK, -, hkept⟩ := (Account.empty p).of_infer hp
  refine ⟨_, hp, fun i ty₁ hty => ?_, fun m hm hname => ?_⟩
  · rw [Module.mem_annotations] at hty
    have hsees : t.module.SeesAll i ty₁ := fun x hx => haccrues.grows i x ⟨ty₁, hty, hx⟩
    obtain ⟨ty₂, hty₂⟩ := Module.seen_iff.1 hsees.seen
    refine ⟨ty₂, ?_, fun x hx => (Module.typeOf?_eq_some_iff.1 hty₂ x).1 (hsees x hx)⟩
    rw [Module.annotations, htypes]
    exact Module.mem_annotations.2 hty₂
  · have hfound : s.module.method? m.name = some m :=
      (Module.method?_congr (congrArg Module.methods hK :)).trans
        (hkept.methods.method?_of_mem (congrArg Module.methods hK ▸ hm))
    obtain ⟨n, hn, hlater⟩ := haccrues.methods _ m hname hfound
    exact ⟨n, hmethods ▸ Module.mem_of_method? hn, hlater.name, hlater⟩

/-- One method that is called with a block and one that is called without. -/
def begun : Program where
  stmts :=
    [.node 0 ⟨0, 0⟩ (.define ⟨⟨1, "each", ⟨0, 0⟩⟩, [⟨2, "x", ⟨0, 0⟩⟩],
        [.node 3 ⟨0, 0⟩ (.yield [.node 4 ⟨0, 0⟩ (.var "x")])]⟩),
      .node 5 ⟨0, 0⟩ (.define ⟨⟨6, "id", ⟨0, 0⟩⟩, [⟨7, "x", ⟨0, 0⟩⟩], [.node 8 ⟨0, 0⟩ (.var "x")]⟩),
      .node 9 ⟨0, 0⟩ (.call "each" ⟨0, 0⟩ [.node 10 ⟨0, 0⟩ (.literal (.int 1))]
        (some ⟨11, ⟨0, 0⟩, [⟨12, "y", ⟨0, 0⟩⟩],
          [.node 13 ⟨0, 0⟩ (.call "id" ⟨0, 0⟩ [.node 14 ⟨0, 0⟩ (.var "y")] none)]⟩))]

/-- The methods are called again, one with another block and one with another signature, and a third one
is defined. -/
def continued : Program where
  stmts :=
    [.node 15 ⟨0, 0⟩ (.define ⟨⟨16, "g", ⟨0, 0⟩⟩, [],
        [.node 17 ⟨0, 0⟩ (.call "id" ⟨0, 0⟩ [.node 18 ⟨0, 0⟩ (.literal .nil)] none)]⟩),
      .node 19 ⟨0, 0⟩ (.call "each" ⟨0, 0⟩ [.node 20 ⟨0, 0⟩ (.literal (.int 2))]
        (some ⟨21, ⟨0, 0⟩, [], [.node 22 ⟨0, 0⟩ (.call "g" ⟨0, 0⟩ [] none)]⟩))]

theorem infer_append_continued :
    ∃ N M, (begun.append continued).infer 64 = .ok N ∧ begun.infer 64 = .ok M ∧
      (∀ i ty, (i, ty) ∈ M.annotations → ∃ ty', (i, ty') ∈ N.annotations ∧ ty.CoveredBy ty') ∧
      ∀ m ∈ M.methods, ¬ continued.DefinesName m.name → ∃ n ∈ N.methods, n.name = m.name ∧ m.Later n := by
  have hends : ((begun.append continued).infer 64).toBool = true := by decide +kernel
  obtain ⟨N, hN⟩ := exists_infer hends
  obtain ⟨M, hM, hfound⟩ := infer_append (by decide) hN
  exact ⟨N, M, hN, hM, hfound⟩

end Program

end FlowTyping
