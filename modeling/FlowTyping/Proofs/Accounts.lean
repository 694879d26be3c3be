import FlowTyping.Proofs.Ledgers

/-!
# Accounts of a run

An `Account` is what holds of a module in view of the types that are on their way, with what has to be
shown for each kind of step.  Then it holds along every run, and where a program has ended only the
types of its statements are left on their way: `Account.of_infer`.
-/

namespace FlowTyping

/-- What holds of a module in view of what is on its way, and why each kind of step keeps it. -/
structure Account (p : Program) where
  Holds : Ledger → Standing → Module → Prop
  initial : Holds ⟨[], [], []⟩ .top .initial
  /-- A type that goes nowhere. -/
  forget : ∀ {L : Ledger} {c M s ty}, s ∈ p.sites → s.sink = .nothing →
    Holds (L.owe [(s.expr.id, ty)]) c M → Holds L c M
  /-- The types of the parts go into the type of the node. -/
  settle : ∀ {L : Ledger} {c M s D ty}, s ∈ p.sites → L.outer = s.outer → s.expr.form.Typed M D ty →
    Moment p (L.owe D) c M → Holds (L.owe D) c M → Holds (L.owe [(s.expr.id, ty)]) c (M.settle s.expr ty)
  define : ∀ {L : Ledger} {c M s d}, s ∈ p.sites → L.outer = s.outer → s.expr.form = .define d →
    (s.sink = .statement → L.Next p s.expr) → Moment p L c M → Holds L c M →
    Holds (L.owe [(s.expr.id, .nil)]) c ((M.define d).settle s.expr .nil)
  answer : ∀ {L : Ledger} {c M s args m signature block}, Calling p s args m signature block M →
    m.Answers c signature block → Holds (L.owe (dues args signature)) c M → Holds L c M
  enter : ∀ {L : Ledger} {c M s args m signature block q}, Calling p s args m signature block M →
    ¬ m.Answers c signature block → L.outer = s.outer → q ∈ p.sites →
    q.expr.form = .define m.definition → M.Placed p → Holds (L.owe (dues args signature)) c M →
    Holds (L.inside m.definition q.outer) (c.inside m signature block) (M.enter m signature block)
  leave : ∀ {L : Ledger} {c M N s args m signature block q ty}, Calling p s args m signature block M →
    ¬ m.Answers c signature block → q ∈ p.sites → q.expr.form = .define m.definition → M.Grows N →
    Holds (L.owe (dues args signature)) c M →
    Moment p ((L.inside m.definition q.outer).owe (lastDue m.definition.body ty))
      (c.inside m signature block) N →
    Holds ((L.inside m.definition q.outer).owe (lastDue m.definition.body ty))
      (c.inside m signature block) N →
    Holds L c (N.leave m signature ty block)
  run : ∀ {L : Ledger} {c M s b method? outer name nameSpan args}, s ∈ p.sites →
    s.expr.form = .call name nameSpan args (some b) → c.blocks = (b, method?) :: outer →
    Holds L c M → Holds (L.run b s.outer) { c with blocks := outer, method? } M
  bindParams : ∀ {L : Ledger} {c M s b name nameSpan args} (signature : Signature), s ∈ p.sites →
    s.expr.form = .call name nameSpan args (some b) → L.outer = .block b :: s.outer →
    Holds L c M → Holds L c (M.recordParams (Infer.paramTypes b.params signature))
  /-- What the passes over the body of a block have given becomes the type of the block. -/
  collect : ∀ {L : Ledger} {c M N s b method? outer name nameSpan args tys}, s ∈ p.sites →
    s.expr.form = .call name nameSpan args (some b) → c.blocks = (b, method?) :: outer →
    tys ≠ [] → (b.body = [] → ∀ ty ∈ tys, ty = .nil) → M.Grows N → Holds L c M →
    Moment p ((L.run b s.outer).owe (tys.flatMap (lastDue b.body)))
      { c with blocks := outer, method? } N →
    Holds ((L.run b s.outer).owe (tys.flatMap (lastDue b.body))) { c with blocks := outer, method? } N →
    Holds L c (N.record b.id (Ty.unionOf tys))

namespace Account
variable {p : Program} {A : Account p} {limit : Nat} {L : Ledger} {c : Standing} {M N : Module}
  {s : Site}

structure Kept (A : Account p) (L : Ledger) (c : Standing) (M : Module) : Prop
    extends Moment p L c M where
  holds : A.Holds L c M

theorem Kept.forget {ty : Ty} (hs : s ∈ p.sites) (hsink : s.sink = .nothing)
    (h : A.Kept (L.owe [(s.expr.id, ty)]) c M) : A.Kept L c M :=
  ⟨h.of_owe, A.forget hs hsink h.holds⟩

theorem Kept.forget_dues {es : List Expr} {tys : List Ty} (hlen : es.length = tys.length)
    (hes : ∀ e ∈ es, (⟨L.outer, .nothing, e⟩ : Site) ∈ p.sites)
    (h : A.Kept (L.owe (dues es tys)) c M) : A.Kept L c M := by
  induction es generalizing L tys with
  | nil => rwa [dues, List.map_nil, List.zip_nil_left, Ledger.owe_nil] at h
  | cons e es ih =>
    cases tys with
    | nil => exact absurd hlen (Nat.succ_ne_zero _)
    | cons ty tys =>
      have hcons : L.owe (dues (e :: es) (ty :: tys)) = (L.owe [(e.id, ty)]).owe (dues es tys) := by
        rw [Ledger.owe_owe]; rfl
      rw [hcons] at h
      have hrest := ih (L := L.owe [(e.id, ty)]) (Nat.succ.inj hlen)
        (fun e he => hes e (List.mem_cons_of_mem _ he)) h
      exact hrest.forget (hes e List.mem_cons_self) rfl

theorem Kept.forget_last {stmts : List Expr} {ty : Ty}
    (hstmts : ∀ s ∈ Site.body L.outer .nothing stmts, s ∈ p.sites)
    (h : A.Kept (L.owe (lastDue stmts ty)) c M) : A.Kept L c M := by
  unfold lastDue at h
  cases hlast : stmts.getLast? with
  | none => rwa [hlast, Option.toList_none, List.map_nil, Ledger.owe_nil] at h
  | some e =>
    rw [hlast, Option.toList_some, List.map_singleton] at h
    exact h.forget (hstmts _ (Site.last_mem_body hlast)) rfl

/-- Behind the body of a method. -/
theorem Kept.leave {args : List Expr} {m : Method} {signature : Signature}
    {block : Option (Block Expr)} {q : Site} {ty : Ty}
    (hcall : Calling p s args m signature block M) (hnew : ¬ m.Answers c signature block)
    (hM : A.Kept (L.owe (dues args signature)) c M) (hq : q ∈ p.sites)
    (hform : q.expr.form = .define m.definition) (hg : M.Grows N)
    (hN : A.Kept ((L.inside m.definition q.outer).owe (lastDue m.definition.body ty))
      (c.inside m signature block) N) :
    A.Kept L c (N.leave m signature ty block) := by
  have hmethods : (N.leave m signature ty block).Placed p :=
    hN.methods.updateMethod fun m => m.definition_keep signature ty block
  exact ⟨hM.of_owe.grow hmethods hg, A.leave hcall hnew hq hform hg hM.holds hN.toMoment hN.holds⟩

/-- The account is kept once the node is seen to have the type. -/
def Formed (A : Account p) (L : Ledger) (c : Standing) (e : Expr) (ty : Ty) (M : Module) : Prop :=
  A.Kept (L.owe [(e.id, ty)]) c (M.record e.id ty)

theorem Kept.formed {D : List (NodeId × Ty)} {ty : Ty} (hs : s ∈ p.sites) (houter : L.outer = s.outer)
    (hM : A.Kept (L.owe D) c M) (hty : s.expr.form.Typed M D ty) :
    A.Formed L c s.expr ty (M.recordParams (s.expr.form.targets.map (·, ty))) :=
  ⟨hM.settle, A.settle hs houter hty hM.toMoment hM.holds⟩

theorem Kept.formed_of_nil {ty : Ty} (hs : s ∈ p.sites) (houter : L.outer = s.outer)
    (hM : A.Kept L c M) (htargets : s.expr.form.targets = []) (hty : s.expr.form.Typed M [] ty) :
    A.Formed L c s.expr ty M := by
  have hformed := Kept.formed (D := []) hs houter (by rwa [Ledger.owe_nil]) hty
  rwa [htargets] at hformed

/-- Evaluations keep the account: the type of the expression is on its way then. -/
def Keeps (A : Account p) (limit : Nat) (expr : Standing → Expr → Flow Ty) : Prop :=
  ∀ ⦃s⦄, s ∈ p.sites → ∀ ⦃L c M⦄, L.outer = s.outer → (s.sink = .statement → L.Next p s.expr) →
    A.Kept L c M → Flow.Meets p limit (expr c s.expr) M fun ty N =>
      A.Kept (L.owe [(s.expr.id, ty)]) c N

namespace Keeps
variable {expr : Standing → Expr → Flow Ty} (h : A.Keeps limit expr)
include h

theorem part {q : Site} (hs : s ∈ p.sites) (hq : q ∈ s.parts) (houter : L.outer = q.outer)
    (hM : A.Kept L c M) :
    Flow.Meets p limit (expr c q.expr) M fun ty N => A.Kept (L.owe [(q.expr.id, ty)]) c N :=
  h (Program.part_mem_sites hs hq) houter (fun hk => absurd hk (Site.sink_ne_statement hq)) hM

theorem body {k : Sink} {stmts : List Expr} (hs : s ∈ p.sites)
    (hstmts : ∀ q ∈ Site.body L.outer k stmts, q ∈ s.parts) (hM : A.Kept L c M) :
    Flow.Meets p limit (Flow.body (expr c) stmts) M fun ty N =>
      A.Kept (L.owe (lastDue stmts ty)) c N ∧ (stmts = [] → ty = .nil) := by
  induction stmts generalizing M with
  | nil =>
    refine .give ⟨?_, fun _ => rfl⟩
    rw [lastDue, List.getLast?_nil, Option.toList_none, List.map_nil, Ledger.owe_nil]
    exact hM
  | cons e stmts ih =>
    cases stmts with
    | nil =>
      have hpart := hstmts ⟨L.outer, k, e⟩ (List.mem_singleton_self _)
      exact (h.part hs hpart rfl hM).bind fun ty N hN _ => .give ⟨hN, nofun⟩
    | cons next stmts =>
      have hpart := hstmts ⟨L.outer, .nothing, e⟩ List.mem_cons_self
      refine (h.part hs hpart rfl hM).bind fun ty N hN _ => ?_
      refine (ih (fun q hq => hstmts q (List.mem_cons_of_mem _ hq))
        (hN.forget (Program.part_mem_sites hs hpart) rfl)).mono ?_
      rintro ty K ⟨hK, -⟩ -
      refine ⟨?_, nofun⟩
      rw [lastDue, List.getLast?_cons_cons]
      exact hK

theorem mapM {args : List Expr} (hs : s ∈ p.sites)
    (hargs : ∀ arg ∈ args, ∃ k, (⟨L.outer, k, arg⟩ : Site) ∈ s.parts) (hM : A.Kept L c M) :
    Flow.Meets p limit (args.mapM (expr c)) M fun signature N =>
      A.Kept (L.owe (dues args signature)) c N ∧ args.length = signature.length := by
  induction args generalizing L M with
  | nil =>
    refine .give ⟨?_, rfl⟩
    rw [dues, List.map_nil, List.zip_nil_left, Ledger.owe_nil]
    exact hM
  | cons arg args ih =>
    obtain ⟨k, hpart⟩ := hargs arg List.mem_cons_self
    rw [List.mapM_cons]
    refine (h.part hs hpart rfl hM).bind fun ty N hN _ => ?_
    refine (ih (L := L.owe [(arg.id, ty)]) (fun a ha => hargs a (List.mem_cons_of_mem _ ha)) hN).bind ?_
    rintro tys K ⟨hK, hlen⟩ -
    refine .give ⟨?_, congrArg Nat.succ hlen⟩
    rw [Ledger.owe_owe] at hK
    exact hK

/-! #### Calls -/

section
variable {args : List Expr} {m : Method} {signature : Signature} {block : Option (Block Expr)}
  (hcall : Calling p s args m signature block M) (houter : L.outer = s.outer)
  (hM : A.Kept (L.owe (dues args signature)) c M)
include hcall houter hM

theorem methodBody (hnew : ¬ m.Answers c signature block) {q : Site} (hq : q ∈ p.sites)
    (hform : q.expr.form = .define m.definition) {K : Module}
    (hK : K.recordParams (m.definition.params.zip signature) = M.enter m signature block) :
    Flow.Meets p limit (Flow.methodBody expr limit c s.expr.id s.expr.span m signature block) K
      fun ty N => A.Kept ((L.inside m.definition q.outer).owe (lastDue m.definition.body ty))
        (c.inside m signature block) N := by
  have hinside : Standing.Placed p (.method m.definition :: q.outer) (c.inside m signature block) := by
    obtain ⟨nameSpan, hcallForm⟩ := hcall.form
    cases block with
    | none => exact ⟨rfl, fun _ hb => absurd hb List.not_mem_nil, nofun⟩
    | some b =>
      refine ⟨rfl, fun b' hb' => ?_, nofun⟩
      rcases List.mem_cons.1 hb' with rfl | hb'
      · refine ⟨s, hcall.site, m.name, nameSpan, args, hcallForm, ?_⟩
        rw [← houter]
        exact hM.placed.method?
      · exact hM.placed.blocks b' hb'
  have hkept : A.Kept (L.inside m.definition q.outer) (c.inside m signature block)
      (M.enter m signature block) :=
    ⟨⟨hinside, hM.methods.enter m signature block,
      fun due hdue => (Module.Grows.enter M m signature block).seesAll (hM.of_owe.owed due hdue)⟩,
      A.enter hcall hnew houter hq hform hM.methods hM.holds⟩
  by_cases hlimit : limit ≤ c.depth
  -- The error is reported at the call, not in the body.
  · rw [Flow.methodBody_of_le hlimit]
    obtain ⟨nameSpan, hcallForm⟩ := hcall.form
    refine .fail ⟨s, hcall.site, rfl, ?_, nameSpan, args, block, hcallForm, rfl, rfl⟩
    rw [← houter]
    exact hM.placed.method?
  have hbody : Flow.Meets p limit
      (Flow.body (expr (c.inside m signature block)) m.definition.body)
      (K.recordParams (m.definition.params.zip signature)) fun ty N =>
        A.Kept ((L.inside m.definition q.outer).owe (lastDue m.definition.body ty))
          (c.inside m signature block) N := by
    rw [hK]
    refine (h.body (k := .returns m.name) hq (fun r hr => ?_) hkept).mono fun ty N hN _ => hN.1
    rw [Site.parts, hform]
    exact hr
  cases block with
  | none => rw [Flow.methodBody_none hlimit]; exact .elsewhere hbody
  | some b => rw [Flow.methodBody_some hlimit]; exact .elsewhere hbody

theorem enter :
    Flow.Meets p limit (Flow.enter .plain expr limit c s.expr.id s.expr.span m signature block) M
      fun _ N => A.Kept L c N := by
  obtain ⟨q, hq, hform⟩ := hM.methods.definitions m (Module.mem_of_method? hcall.found)
  by_cases hknown : m.Answers c signature block
  · have hL : A.Kept L c M := ⟨hM.of_owe, A.answer hcall hknown hM.holds⟩
    cases block with
    | none =>
      obtain ⟨ty, hty⟩ := Option.isSome_iff_exists.1 hknown
      rw [Flow.enter_none not_false, Flow.plainCall_of_some (w := .plain) hty]
      exact .give hL
    | some b =>
      rw [Flow.enter_some not_false, Flow.blockCall_of_mem hknown]
      exact .give hL
  have hbody {K : Module}
      (hK : K.recordParams (m.definition.params.zip signature) = M.enter m signature block) :=
    h.methodBody hcall houter hM hknown hq hform hK
  cases block with
  | none =>
    have hnone : m.returns? signature = none := Option.not_isSome_iff_eq_none.1 hknown
    rw [Flow.enter_none not_false, Flow.plainCall_of_none (w := .plain) hnone]
    refine Flow.Meets.bind (Q := fun _ N => N = M.updateMethod m.name (·.store signature .nil))
      (.updateMethod rfl) fun _ K hK hMK => ?_
    subst hK
    refine (hbody rfl).bind fun ty N hN hg => ?_
    refine Flow.Meets.bind (Q := fun _ K => A.Kept L c K) (.updateMethod ?_) fun _ K hK _ => .give hK
    exact hM.leave hcall hknown hq hform (hMK.trans hg) hN
  | some b =>
    rw [Flow.enter_some not_false, Flow.blockCall_of_notMem hknown]
    refine (hbody rfl).bind fun ty N hN hg => ?_
    refine Flow.Meets.bind (Q := fun _ K => A.Kept L c K) (.updateMethod ?_) fun _ K hK _ => .give hK
    exact hM.leave hcall hknown hq hform hg hN

end

theorem dispatch {args : List Expr} {name : String} {nameSpan : Span} {signature : Signature}
    {block : Option (Block Expr)} (hs : s ∈ p.sites)
    (hform : s.expr.form = .call name nameSpan args block) (houter : L.outer = s.outer)
    (hlen : args.length = signature.length) (hM : A.Kept (L.owe (dues args signature)) c M) :
    Flow.Meets p limit (Flow.dispatch (Flow.enter .plain expr limit) c s.expr.id s.expr.span name
      nameSpan signature block) M fun _ N => A.Kept L c N := by
  have hmethod : c.method? = Enclosure.method? s.outer := by rw [← houter]; exact hM.placed.method?
  rintro t rfl
  cases hm : t.module.method? name with
  | none =>
    rw [Flow.dispatch_of_none hm]
    exact ⟨s, hs, rfl, hmethod, args, block, hform⟩
  | some m =>
    obtain rfl := Module.name_of_method? hm
    by_cases harity : m.arity = signature.length
    · rw [Flow.dispatch_of_some hm harity]
      exact h.enter ⟨hs, ⟨nameSpan, hform⟩, hlen, hm, harity⟩ houter hM t rfl
    · rw [Flow.dispatch_of_arity hm harity]
      obtain ⟨q, hq, hdefine⟩ := hM.methods.definitions m (Module.mem_of_method? hm)
      exact ⟨s, hs, rfl, hmethod, ⟨nameSpan, args, block, hform, hlen⟩,
        ⟨q, hq, m.definition, hdefine, rfl, rfl⟩, harity, rfl⟩

theorem runBlock {fuel : Nat} {b : Block Expr} {method? : Option String}
    {outer : List (Block Expr × Option String)} (hblocks : c.blocks = (b, method?) :: outer)
    (signature : Signature) (hM : A.Kept L c M) :
    Flow.Meets p limit (Flow.runBlock expr fuel c b method? outer signature) M
      fun _ N => A.Kept L c N := by
  obtain ⟨s, hs, name, nameSpan, args, hform, hmethod⟩ :=
    hM.placed.blocks (b, method?) (by rw [hblocks]; exact List.mem_cons_self)
  let here : Standing := { c with blocks := outer, method? }
  have hplaced : here.Placed p (.block b :: s.outer) :=
    ⟨hmethod, fun b' hb' => hM.placed.blocks b' (by rw [hblocks]; exact List.mem_cons_of_mem _ hb'),
      nofun⟩
  -- The passes before have left the type of the last statement on its way each time.
  let I (done : List Ty) (N : Module) : Prop :=
    A.Kept ((L.run b s.outer).owe (done.flatMap (lastDue b.body))) here N ∧
      (b.body = [] → ∀ ty ∈ done, ty = .nil)
  have hstart : I [] M := by
    refine ⟨?_, fun _ ty hty => absurd hty List.not_mem_nil⟩
    rw [List.flatMap_nil, Ledger.owe_nil]
    exact ⟨⟨hplaced, hM.methods, hM.owed⟩, A.run hs hform hblocks hM.holds⟩
  have hpass (done : List Ty) (N : Module) (hN : I done N) :
      Flow.Meets p limit (Flow.nested (Infer.paramTypes b.params signature)
        (Flow.body (expr here) b.body)) N fun ty K => I (done ++ [ty]) K := by
    obtain ⟨hN, hnil⟩ := hN
    have hbound := hN.grow (hN.methods.congr (Module.methods_recordParams _ N))
      (.recordParams N (Infer.paramTypes b.params signature))
    refine .elsewhere ((h.body (k := .node b.id) hs (fun r hr => ?_)
      ⟨hbound, A.bindParams signature hs hform rfl hN.holds⟩).mono ?_)
    · rw [Site.parts, hform]
      exact List.mem_append_right _ hr
    · rintro ty K ⟨hK, hty⟩ -
      refine ⟨?_, fun hb ty' hty' => ?_⟩
      · rw [List.flatMap_append, List.flatMap_singleton, ← Ledger.owe_owe]
        exact hK
      · rcases List.mem_append.1 hty' with hty' | hty'
        · exact hnil hb ty' hty'
        · rw [List.mem_singleton.1 hty']; exact hty hb
  refine (Flow.Meets.untilStable hpass [] hstart fuel).outward.bind ?_
  rintro tys N ⟨hne, hN, hnil⟩ hg
  refine Flow.Meets.bind (Q := fun _ K => A.Kept L c K) (.record ?_) fun _ K hK _ => .give hK
  exact ⟨hM.grow (hN.methods.congr rfl) (hg.trans (.record N b.id _)),
    A.collect hs hform hblocks hne hnil hg hM.holds hN.toMoment hN.holds⟩

/-! #### Nodes -/

section
variable (hs : s ∈ p.sites) (houter : L.outer = s.outer) (hM : A.Kept L c M)
include hs houter hM

theorem assign {target : Ident} {value : Expr} (hform : s.expr.form = .assign target value) :
    Flow.Meets p limit (Flow.assign (expr c) target value) M (A.Formed L c s.expr) := by
  have hpart : (⟨s.outer, .node s.expr.id, value⟩ : Site) ∈ s.parts := by
    rw [Site.parts, hform]
    exact List.mem_singleton_self _
  refine (h.part hs hpart houter hM).bind fun ty N hN _ => .writeHere ?_
  refine Flow.Meets.bind (Q := fun _ K => K = N.record target.id ty) (.record rfl) fun _ K hK _ => ?_
  subst hK
  have hformed := hN.formed hs houter (by rw [hform]; exact .assign target value ty)
  rw [hform] at hformed
  exact .give hformed

theorem call {name : String} {nameSpan : Span} {args : List Expr} {block : Option (Block Expr)}
    (hform : s.expr.form = .call name nameSpan args block) :
    Flow.Meets p limit (Flow.call expr (Flow.enter .plain expr limit) c s.expr.id s.expr.span name
      nameSpan args block) M (A.Formed L c s.expr) := by
  have hargs (arg : Expr) (harg : arg ∈ args) :
      ∃ k, (⟨L.outer, k, arg⟩ : Site) ∈ s.parts := by
    obtain ⟨i, hi⟩ := List.getElem?_of_mem harg
    refine ⟨.argument name i, ?_⟩
    rw [Site.parts, hform, houter]
    cases block with
    | none => exact Site.argument_mem hi
    | some b => exact List.mem_append_left _ (Site.argument_mem hi)
  refine (h.mapM hs hargs hM).bind ?_
  rintro signature N ⟨hN, hlen⟩ -
  refine (h.dispatch hs hform houter hlen hN).mono fun ty K hK hg => ?_
  refine hK.formed_of_nil hs houter (by rw [hform]; rfl) ?_
  rw [hform]
  exact .call fun arg harg => hg.seen (seen_of_dues hlen hN.dues harg)

theorem yield {args : List Expr} (hform : s.expr.form = .yield args) (fuel : Nat) :
    Flow.Meets p limit (Flow.yield expr fuel c s.expr.id s.expr.span args) M
      (A.Formed L c s.expr) := by
  have hargs (arg : Expr) (harg : arg ∈ args) : (⟨L.outer, .nothing, arg⟩ : Site) ∈ s.parts := by
    rw [Site.parts, hform, houter]
    exact List.mem_map_of_mem harg
  refine (h.mapM hs (fun arg harg => ⟨_, hargs arg harg⟩) hM).bind ?_
  rintro signature N ⟨hN, hlen⟩ -
  replace hN := hN.forget_dues hlen fun arg harg => Program.part_mem_sites hs (hargs arg harg)
  cases hblocks : c.blocks with
  | nil =>
    refine .fail ⟨s, hs, rfl, ?_, args, hform, rfl⟩
    rw [← houter]
    exact hM.placed.method?
  | cons frame outer =>
    refine (h.runBlock hblocks signature hN).mono fun ty K hK _ => ?_
    refine hK.formed_of_nil hs houter (by rw [hform]; rfl) ?_
    rw [hform]
    exact .yield args ty

theorem branch {cond : Expr} {thenBody : List Expr} {elseBody : Option (List Expr)}
    (hform : s.expr.form = .branch cond thenBody elseBody) :
    Flow.Meets p limit (Flow.branch (expr c) cond thenBody elseBody) M (A.Formed L c s.expr) := by
  have hparts : s.parts = ⟨s.outer, .nothing, cond⟩ :: (Site.body s.outer (.node s.expr.id) thenBody ++
      Site.body s.outer (.node s.expr.id) (elseBody.getD [])) := by rw [Site.parts, hform]
  have hcond : (⟨s.outer, .nothing, cond⟩ : Site) ∈ s.parts := by
    rw [hparts]; exact List.mem_cons_self
  refine (h.part hs hcond houter hM).bind fun _ N hN _ => .getHere fun before => ?_
  replace hN := hN.forget (Program.part_mem_sites hs hcond) rfl
  refine (h.body (k := .node s.expr.id) hs (fun q hq => ?_) hN).bind ?_
  · rw [hparts, ← houter]
    exact List.mem_cons_of_mem _ (List.mem_append_left _ hq)
  rintro thenType N₁ ⟨hN₁, hthen⟩ -
  refine .getHere fun afterThen => .setHere ?_
  refine (h.body (k := .node s.expr.id) hs (fun q hq => ?_) hN₁).bind ?_
  · rw [hparts, ← houter]
    exact List.mem_cons_of_mem _ (List.mem_append_right _ hq)
  rintro elseType N₂ ⟨hN₂, helse⟩ -
  rw [Ledger.owe_owe] at hN₂
  have hformed := hN₂.formed hs houter (by rw [hform]; exact .branch hthen helse)
  rw [hform] at hformed
  exact .getHere fun afterElse => .setHere (.give hformed)

theorem loop {cond : Expr} {stmts : List Expr} (hform : s.expr.form = .loop cond stmts) (fuel : Nat) :
    Flow.Meets p limit (Flow.loop (expr c) fuel cond stmts) M (A.Formed L c s.expr) := by
  have hparts : s.parts = ⟨s.outer, .nothing, cond⟩ :: Site.body s.outer .nothing stmts := by
    rw [Site.parts, hform]
  have hcond {N : Module} (hN : A.Kept L c N) :
      Flow.Meets p limit (expr c cond) N fun _ K => A.Kept L c K := by
    have hmem : (⟨s.outer, .nothing, cond⟩ : Site) ∈ s.parts := by
      rw [hparts]; exact List.mem_cons_self
    refine (h.part hs hmem houter hN).mono fun ty K hK _ => ?_
    exact hK.forget (Program.part_mem_sites hs hmem) rfl
  have hstmts (q : Site) (hq : q ∈ Site.body L.outer .nothing stmts) : q ∈ s.parts := by
    rw [hparts, ← houter]
    exact List.mem_cons_of_mem _ hq
  refine (hcond hM).bind fun _ N hN _ => ?_
  refine (Flow.Meets.untilStable (I := fun _ K => A.Kept L c K) (fun _ K hK => ?_) [] hN fuel).bind ?_
  · refine (h.body hs hstmts hK).bind ?_
    rintro _ K₁ ⟨hK₁, -⟩ -
    exact hcond (hK₁.forget_last fun q hq => Program.part_mem_sites hs (hstmts q hq))
  · rintro _ K ⟨-, hK⟩ -
    refine .give (hK.formed_of_nil hs houter (by rw [hform]; rfl) ?_)
    rw [hform]
    exact .loop cond stmts

omit h in
theorem define {d : Definition Expr} (hform : s.expr.form = .define d)
    (hnext : s.sink = .statement → L.Next p s.expr) :
    Flow.Meets p limit (Flow.define .plain c d) M (A.Formed L c s.expr) := by
  rintro t rfl
  have hdefined : Moment p (L.owe []) c (t.module.define d) := by
    rw [Ledger.owe_nil]
    exact hM.grow (hM.methods.define hs hform) (.define _ d)
  have hformed : A.Kept (L.owe [(s.expr.id, .nil)]) c ((t.module.define d).settle s.expr .nil) :=
    ⟨hdefined.settle, A.define hs houter hform hnext hM.toMoment hM.holds⟩
  rw [Module.settle, hform] at hformed
  rw [Flow.define_of_not not_false]
  exact ⟨hformed, .refl _⟩

theorem form (hnext : s.sink = .statement → L.Next p s.expr) (fuel : Nat) :
    Flow.Meets p limit (Flow.form .plain expr (Flow.enter .plain expr limit) fuel c s.expr.id
      s.expr.span s.expr.form) M (A.Formed L c s.expr) := by
  cases hform : s.expr.form with
  | literal v =>
    exact .give (hM.formed_of_nil hs houter (by rw [hform]; rfl) (by rw [hform]; exact .literal v))
  | var name =>
    refine .getHere fun tables => ?_
    cases Tables.lookup tables name with
    | some ty =>
      exact .give (hM.formed_of_nil hs houter (by rw [hform]; rfl) (by rw [hform]; exact .var name ty))
    | none =>
      refine .fail ⟨s, hs, rfl, ?_, hform, rfl⟩
      rw [← houter]
      exact hM.placed.method?
  | assign target value => exact h.assign hs houter hM hform
  | call name nameSpan args block => exact h.call hs houter hM hform
  | yield args => exact h.yield hs houter hM hform fuel
  | branch cond thenBody elseBody => exact h.branch hs houter hM hform
  | loop cond stmts => exact h.loop hs houter hM hform fuel
  | define d => exact define hs houter hM hform hnext

end

end Keeps

/-- Evaluations on stacks keep every account. -/
theorem keeps_expr (A : Account p) (limit fuel : Nat) :
    A.Keeps limit (Flow.expr .plain limit fuel) := by
  induction fuel with
  | zero => exact fun _ _ _ _ _ _ _ _ => .throw trivial
  | succ fuel ih =>
    intro s hs L c M houter hnext hM
    refine (ih.form hs houter hM hnext fuel).bind fun ty N hN _ => ?_
    exact Flow.Meets.bind (Q := fun _ K => A.Kept (L.owe [(s.expr.id, ty)]) c K) (.record hN)
      fun _ K hK _ => .give hK

/-! ### Whole runs -/

end Account

/-- A program ends as its run on stacks does. -/
theorem Program.infer_eq_run (p : Program) (limit : Nat) :
    p.infer limit = match Flow.body (Flow.expr .plain limit (p.fuel limit) .top) p.stmts
        (Engine.initial.toStacks 0 []) with
      | .ok (ty, t) => .ok { t.module with result := ty }
      | .error h => .error h.stop := by
  have hmatches := Follows.run (follows_expr limit (p.fuel limit) []) p.stmts
  have hstanding : Engine.initial.standing [] = .top := rfl
  rw [hstanding] at hmatches
  unfold infer run
  cases hrun : Flow.body (Flow.expr .plain limit (p.fuel limit) .top) p.stmts
      (Engine.initial.toStacks 0 []) with
  | ok r =>
    obtain ⟨ty, w⟩ := r
    rw [hrun] at hmatches
    obtain ⟨t, ht, rfl, -⟩ := hmatches
    rw [ht]
    rfl
  | error h =>
    rw [hrun] at hmatches
    obtain ⟨t, ht⟩ := hmatches
    rw [ht]

/-- Where a program is seen to end well. -/
theorem Program.exists_infer {p : Program} {limit : Nat} (h : (p.infer limit).toBool = true) :
    ∃ M, p.infer limit = .ok M := by
  cases hinfer : p.infer limit with
  | ok M => exact ⟨M, rfl⟩
  | error e => rw [hinfer] at h; exact absurd h Bool.false_ne_true

namespace Account
variable {p : Program} {limit : Nat} {M : Module}

theorem keeps_stmts (A : Account p) (limit fuel : Nat) (done : List Expr) {rest : List Expr}
    (tys : List Ty) (hp : p.stmts = done ++ rest) (hlen : done.length = tys.length)
    (hM : A.Kept ⟨[], dues done tys, []⟩ .top M) :
    Flow.Meets p limit
      (rest.foldlM (fun _ stmt => Flow.expr .plain limit fuel .top stmt) (tys.getLast?.getD .nil)) M
      fun ty N => ∃ tys : List Ty, p.stmts.length = tys.length ∧ ty = tys.getLast?.getD .nil ∧
        A.Kept ⟨[], dues p.stmts tys, []⟩ .top N := by
  induction rest generalizing done tys M with
  | nil =>
    rw [List.append_nil] at hp
    subst hp
    exact .give ⟨tys, hlen, rfl, hM⟩
  | cons e rest ih =>
    have hmem : e ∈ p.stmts := by rw [hp]; exact List.mem_append_right _ List.mem_cons_self
    rw [List.foldlM_cons]
    refine (A.keeps_expr limit fuel (Program.stmt_mem_sites hmem) rfl
      (fun _ => ⟨done, rest, tys, hp, hlen, rfl⟩) hM).bind fun ty N hN _ => ?_
    have hlast : ty = (tys ++ [ty]).getLast?.getD .nil := by simp
    rw [hlast]
    refine ih (done ++ [e]) (tys ++ [ty]) (by rw [hp, List.append_assoc]; rfl) (by simp [hlen]) ?_
    rw [dues_append hlen]
    exact hN

theorem meets_run (A : Account p) (limit : Nat) :
    Flow.Meets p limit (Flow.body (Flow.expr .plain limit (p.fuel limit) .top) p.stmts) .initial
      fun ty N => ∃ tys : List Ty, p.stmts.length = tys.length ∧ ty = tys.getLast?.getD .nil ∧
        A.Kept ⟨[], dues p.stmts tys, []⟩ .top N := by
  refine A.keeps_stmts limit (p.fuel limit) [] [] rfl rfl ⟨⟨?_, ?_, ?_⟩, A.initial⟩
  · exact Standing.placed_top p
  · exact ⟨fun m hm => absurd hm List.not_mem_nil, List.nodup_nil⟩
  · exact fun due hdue => absurd hdue List.not_mem_nil

/-- Where a program ends well, the account holds, and only the types of its statements are still on
their way. -/
theorem of_infer (A : Account p) (h : p.infer limit = .ok M) :
    ∃ (N : Module) (tys : List Ty), M = { N with result := tys.getLast?.getD .nil } ∧
      p.stmts.length = tys.length ∧ A.Kept ⟨[], dues p.stmts tys, []⟩ .top N := by
  have hmeets := A.meets_run limit (Engine.initial.toStacks 0 []) rfl
  rw [p.infer_eq_run] at h
  cases hrun : Flow.body (Flow.expr .plain limit (p.fuel limit) .top) p.stmts
      (Engine.initial.toStacks 0 []) with
  | error e => rw [hrun] at h; exact nomatch h
  | ok r =>
    rw [hrun] at h hmeets
    cases h
    obtain ⟨⟨tys, hlen, hty, hkept⟩, -⟩ := hmeets
    exact ⟨r.2.module, tys, by rw [hty], hlen, hkept⟩

end Account
end FlowTyping
