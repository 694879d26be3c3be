import FlowTyping.Proofs.CallCache
import FlowTyping.Proofs.Supposition

/-!
# The order of calls

`Program.instancesOf_perm`: in a program that defines methods and then calls them without blocks for
literals, the order of the calls does not matter for what is known of the methods in the end, if no
body reads what is supposed of another one (`Program.readsOwn`).  The facts that one run ends with
are coherent, and the other run, in which no more than these facts is known at first, finds out
nothing else: `Flow.finds_expr`.

Where two methods call each other the order does matter, and so it does where a block literal is
under way when another body comes to it (`Program.instancesOf_ne`).
-/

namespace FlowTyping

/-! ### Finding out what the facts say -/

/-- In the second run no more is known than the facts say, apart from what is supposed of the
calls `P`. -/
def finding (D : Definitions) (P : List (String × Signature)) (A : Facts) : Replay where
  Fit := fun M => M.definition? = D
  Ahead := fun _ N => N.Agrees D P A
  Excuse := fun _ => True
  fit_congr := by
    intro M M' hM h
    rw [← Module.definition?_congr hM]
    exact h
  ahead_congr := fun _ hK h => h.congr hK

/-- Of the innermost body of a call without a block the facts say what is supposed of it, and of other
calls no more than `B` says. -/
def Facts.SupposeIn (A B : Facts) (c : Standing) : Prop :=
  A.Suppose c ∧ ∀ q, (pending c.under).head? ≠ some q → ∀ ty, A q = some ty → B q = some ty

namespace Flow
variable {limit fuel fuel' : Nat} {D : Definitions} {P : List (String × Signature)} {A B : Facts}
  {c c' : Standing} {id id' : NodeId} {span span' : Span} {method k : Method}
  {signature : Signature} {block : Option (Block Expr)} {s t : Stacks} {ty : Ty}

theorem finds_observe (name : String) (ty : Ty) :
    Replays (finding D P B) (updateMethod name (·.observe signature ty))
      (updateMethod name (·.observe signature ty)) := by
  intro s _ t hs hrun
  cases hrun
  refine ⟨(Module.definition?_observe s.module name signature ty).trans hs, fun K hK => ⟨hK, .inr ?_⟩⟩
  exact ⟨_, rfl, fun _ hM => hM.observe⟩

theorem finds_method {M K : Module} {name : String} (hM : (finding D P B).Fit M)
    (hK : (finding D P B).Ahead M K) (hm : M.method? name = some method) :
    ∃ k, K.method? name = some k ∧ k.definition = method.definition := by
  refine Module.exists_of_definition? ?_
  rw [hK.definitions, ← show M.definition? = D from hM]
  exact Module.definition?_of_method? hm

theorem told_blockCall
    (h : ∀ {c e}, c.DefFree → e.defFree → Replays (finding D P B)
      (Flow.expr (.told A) limit fuel c e) (Flow.expr (.told A) limit fuel c e))
    (hc : c.DefFree) {b : Block Expr} (hb : ∀ e ∈ b.body, e.defFree)
    (hmethod : ∀ e ∈ method.definition.body, e.defFree)
    (hk : k.definition = method.definition) :
    Replays (finding D P B)
      (blockCall (Flow.expr (.told A) limit fuel) limit c id span method signature b)
      (blockCall (Flow.expr (.told A) limit fuel) limit c id span k signature b) := by
  have hinside : (c.inside method signature (some b)).DefFree := List.forall_mem_cons.2 ⟨hb, hc⟩
  refine .blockCall hk Iff.rfl (fun ty => finds_observe _ ty) (.methodBody rfl .inl ?_)
  exact (Replays.congruence _).body fun e he => h hinside (hmethod e he)

variable (hD : D.DefFree)
include hD

theorem body_defFree (hs : s.module.definition? = D) {name : String}
    (hm : s.module.method? name = some method) : ∀ e ∈ method.definition.body, e.defFree :=
  hD name _ (hs ▸ Module.definition?_of_method? hm)

/-- Where nothing is inferred for the first time, the methods stay. -/
theorem told_expr (hc : c.DefFree) {e : Expr} (he : e.defFree) :
    Replays (finding D P B) (Flow.expr (.told A) limit fuel c e)
      (Flow.expr (.told A) limit fuel c e) := by
  induction fuel generalizing c e with
  | zero => exact fun _ _ _ _ hrun => nomatch hrun
  | succ fuel ih =>
    refine (Replays.congruence _).layer_of_defFree (.inl trivial) rfl rfl hc he
      (fun part hp => ih hc hp) (fun outer method? houter stmt hstmt => ih houter hstmt)
      fun name nameSpan block hblock signature => ?_
    refine .dispatch finds_method (fun {s ty t method} hs hm hrun => ?_) nameSpan
    cases block with
    | none =>
      obtain ⟨hq, rfl⟩ := enter_told_none_ok hrun
      refine ⟨hs, fun K hK => ⟨hK, fun k _ hk => .inr ⟨K, ?_, fun _ hM => hM⟩⟩⟩
      exact enter_told_none (by unfold Method.name; rw [hk]; exact hq)
    | some b =>
      rw [enter_told_some] at hrun
      have hreplays {k : Method} (hk : k.definition = method.definition) :=
        @told_blockCall limit fuel D P A B c e.id e.span method k signature
          (fun hc he => ih hc he) hc b (hblock b rfl) (body_defFree hD hs hm) hk s ty t hs hrun
      refine ⟨(hreplays rfl).1, fun K hK => ⟨((hreplays rfl).2 K hK).1, fun k _ hk => ?_⟩⟩
      rw [enter_told_some]
      exact ((hreplays hk).2 K hK).2

theorem told_blockCall_grows (hc : c.DefFree) {b : Block Expr} (hb : ∀ e ∈ b.body, e.defFree)
    (hmethod : ∀ e ∈ method.definition.body, e.defFree) : Grows (finding D P B)
      (blockCall (Flow.expr (.told A) limit fuel) limit c id span method signature b) :=
  (told_blockCall (fun hc he => told_expr hD hc he) hc hb hmethod rfl).grows

section
variable (hB : B.Coherent limit D)
  (h : ∀ {fuel' c c' A e}, c.Inner c' → c'.DefFree → e.defFree → A.SupposeIn B c →
    Replays (finding D (pending c.under) B) (Flow.expr (.told A) limit fuel' c' e)
      (Flow.expr .own limit fuel c e))
include hB h

/-- A call that nothing is known of has the type that the facts say. -/
theorem finds_firstCall (hs : s.module.Agrees D (pending c.under) B)
    (hm : s.module.method? method.name = some method) (hnew : method.returns? signature = none)
    (hq : B (method.name, signature) = some ty) :
    (∃ e, firstCall (Flow.expr .own limit fuel) limit c id span method signature s = .error e) ∨
      ∃ K, firstCall (Flow.expr .own limit fuel) limit c id span method signature s =
        .ok (ty, { s with module := K }) ∧ K.Agrees D (pending c.under) B := by
  let q : String × Signature := (method.name, signature)
  have hname := Module.isSome_definition? hm
  have hnew := (Module.known_of_method? hm).trans hnew
  have hmem := hs.toAmid.notMem_of_new hnew
  let s₁ : Stacks := { s with module := s.module.updateMethod method.name (·.store signature .nil) }
  have hs₁ : s₁.module.Agrees D (q :: pending c.under) B := hs.start hname hnew
  -- In this run `q` is supposed to return `Nil` in its own body, whatever `B` says of it.
  obtain ⟨d, fuel', hd, htold⟩ := hB q ty hq (B.supposing q) fun _ _ h => h
  have hdefinition : method.definition = d := by
    rw [← hs.definitions] at hd
    exact Option.some.inj ((Module.definition?_of_method? hm).symm.trans hd)
  obtain ⟨K, htold, -⟩ := htold method id span s hdefinition hs.definitions
  have hreplays : Replays (finding D (q :: pending c.under) B)
      (methodBody (Flow.expr (.told (B.supposing q)) limit fuel') limit .top id span method signature
        none)
      (methodBody (Flow.expr .own limit fuel) limit c id span method signature none) := by
    refine .methodBody rfl (fun _ => .inr fun _ _ => trivial) ?_
    refine (Replays.congruence _).body fun e he => ?_
    refine h (.inside_none c) (fun _ hb => absurd hb List.not_mem_nil) ?_ ⟨?_, ?_⟩
    · exact hD _ d hd e (hdefinition ▸ he)
    · rintro _ ⟨⟩; exact Facts.supposing_self
    · intro r hr ty hty
      have hrq : r ≠ q := fun hrq => hr (congrArg some hrq.symm)
      rwa [Facts.supposing_ne hrq] at hty
  rcases ((hreplays hs.definitions htold).2 s₁.module hs₁).2 with ⟨e, -, hown⟩ | ⟨K', hown, hK'⟩
  · refine .inl ⟨e, ?_⟩
    rw [firstCall_eq_map, hown]
    rfl
  · have hagrees : K'.Agrees D (q :: pending c.under) B := hK' s₁.module hs₁
    have hname' : (K'.definition? method.name).isSome := by
      rw [hagrees.definitions, ← hs.definitions]; exact hname
    refine .inr ⟨K'.updateMethod method.name (·.store signature ty), ?_, hagrees.finish hname' hmem hq⟩
    rw [firstCall_eq_map, hown]
    rfl

theorem finds_plainCall (hs : s.module.Agrees D (pending c.under) B) (hA : A.SupposeIn B c)
    (hm : s.module.method? method.name = some method)
    (hown : ¬ Ways.own.refuses c method signature none)
    (hq : A (method.name, signature) = some ty) :
    (∃ e, plainCall .own (Flow.expr .own limit fuel) limit c id span method signature s =
        .error e) ∨
      ∃ K, plainCall .own (Flow.expr .own limit fuel) limit c id span method signature s =
        .ok (ty, { s with module := K }) ∧ K.Agrees D (pending c.under) B := by
  let q : String × Signature := (method.name, signature)
  have hnotMem (hmem : q ∉ pending c.under) : (pending c.under).head? ≠ some q :=
    fun hhead => hmem (List.mem_of_head? hhead)
  cases hknown : method.returns? signature with
  | some ty' =>
    have hty : s.module.known q = some ty' := (Module.known_of_method? hm).trans hknown
    refine .inr ⟨s.module, ?_, hs⟩
    rw [plainCall_of_some (w := .own) hknown]
    by_cases hmem : q ∈ pending c.under
    · have hnil := hA.1 q (head?_of_notMem_tail hmem hown)
      rw [Option.some.inj (hq.symm.trans hnil), Option.some.inj (hty.symm.trans (hs.pending q hmem))]
      rfl
    · have hB := hs.settled q ty' (Module.settled_eq_some_iff.2 ⟨hmem, hty⟩)
      rw [Option.some.inj (hB.symm.trans (hA.2 q (hnotMem hmem) ty hq))]
      rfl
  | none =>
    rw [plainCall_of_none (w := .own) hknown]
    have hmem := hs.toAmid.notMem_of_new ((Module.known_of_method? hm).trans hknown)
    exact finds_firstCall hD hB h hs hm hknown (hA.2 q (hnotMem hmem) ty hq)

theorem finds_enter_none (hs : s.module.Agrees D (pending c.under) B) (hA : A.SupposeIn B c)
    (hm : s.module.method? method.name = some method)
    (hq : A (method.name, signature) = some ty) :
    (∃ e, enter .own (Flow.expr .own limit fuel) limit c id span method signature none s =
        .error e) ∨
      ∃ K, enter .own (Flow.expr .own limit fuel) limit c id span method signature none s =
        .ok (ty, { s with module := K }) ∧ K.Agrees D (pending c.under) B := by
  by_cases hr : Ways.own.refuses c method signature none
  · rw [enter_of_refuses hr]; exact .inl ⟨.refused, rfl⟩
  · rw [enter_none hr]; exact finds_plainCall hD hB h hs hA hm hr hq

theorem finds_dispatch (hinner : c.Inner c') (hc : c'.DefFree)
    (hblock : ∀ b, block = some b → ∀ e ∈ b.body, e.defFree)
    (hA : A.SupposeIn B c)
    (name : String) (nameSpan : Span) :
    Replays (finding D (pending c.under) B)
      (dispatch (enter (.told A) (Flow.expr (.told A) limit fuel') limit) c' id' span' name nameSpan
        signature block)
      (dispatch (enter .own (Flow.expr .own limit fuel) limit) c id span name nameSpan signature
        block) := by
  refine .dispatch finds_method (fun {s ty t method} hs hm hrun => ?_) nameSpan
  cases block with
  | none =>
    obtain ⟨hq, rfl⟩ := enter_told_none_ok hrun
    refine ⟨hs, fun K hK => ⟨hK, fun k hk hdefinition => ?_⟩⟩
    have hname : k.name = method.name := by unfold Method.name; rw [hdefinition]
    have hk : K.method? k.name = some k := Module.name_of_method? hk ▸ hk
    rcases finds_enter_none hD hB h (s := { t with module := K }) hK hA hk (hname ▸ hq) with
      ⟨e, he⟩ | ⟨K', hrun, hK'⟩
    · exact .inl ⟨e, trivial, he⟩
    · exact .inr ⟨K', hrun, fun _ _ => hK'⟩
  | some b =>
    rw [enter_told_some] at hrun
    have hmethod := body_defFree hD hs hm
    have hreplays {k : Method} (hk : k.definition = method.definition) :
        Replays (finding D (pending c.under) B)
          (blockCall (Flow.expr (.told A) limit fuel') limit c' id' span' method signature b)
          (enter .own (Flow.expr .own limit fuel) limit c id span k signature (some b)) := by
      by_cases hr : Ways.own.refuses c k signature (some b)
      · rw [enter_of_refuses hr]
        exact (told_blockCall_grows hD hc (hblock b rfl) hmethod).excused
          fun _ => ⟨.refused, trivial, rfl⟩
      · rw [enter_some hr]
        have hinside : (c'.inside method signature (some b)).DefFree :=
          List.forall_mem_cons.2 ⟨hblock b rfl, hc⟩
        have hactive := hinner.mem_active_iff hr
        unfold Method.name at hactive
        rw [hk] at hactive
        refine .blockCall hk hactive (fun ty => finds_observe _ ty) ?_
        refine .methodBody rfl (fun _ => .inr fun _ _ => trivial) ?_
        refine (Replays.congruence _).body fun e he => ?_
        exact h (hinner.inside_some b) hinside (hmethod e he) hA
    refine ⟨(hreplays rfl hs hrun).1, fun K hK => ⟨((hreplays rfl hs hrun).2 K hK).1, ?_⟩⟩
    exact fun k _ hk => ((hreplays hk hs hrun).2 K hK).2

end

/-- What facts give of an evaluation, a run in which no more is known gives, unless it ends early. -/
theorem finds_expr (limit fuel fuel' : Nat) (hB : B.Coherent limit D) (hinner : c.Inner c')
    (hc : c'.DefFree) {e : Expr} (he : e.defFree)
    (hA : A.SupposeIn B c) :
    Replays (finding D (pending c.under) B) (Flow.expr (.told A) limit fuel' c' e)
      (Flow.expr .own limit fuel c e) := by
  -- On the fuel of the run: the facts have bodies with fuel of their own, so `fuel'` is any.
  induction fuel generalizing fuel' c c' A e with
  | zero => exact (told_expr hD hc he).grows.excused fun _ => ⟨.outOfFuel, trivial, rfl⟩
  | succ fuel ih =>
    have hih {fuel' : Nat} {c c' : Standing} {A : Facts} {e : Expr} (hinner : c.Inner c')
        (hc : c'.DefFree) (he : e.defFree) (hA : A.SupposeIn B c) := ih fuel' hinner hc he hA
    cases fuel' with
    | zero => exact fun _ _ _ _ hrun => nomatch hrun
    | succ fuel' =>
      refine (Replays.congruence _).layer_of_defFree (.inl trivial) hinner.method?.symm
        hinner.blocks.symm hc he (fun part hp => hih hinner hc hp hA)
        (fun outer method? houter stmt hstmt =>
          hih (hinner.outer outer method?) houter hstmt hA)
        fun name nameSpan block hblock signature => ?_
      exact finds_dispatch hD hB hih hinner hc hblock hA name nameSpan

end Flow

/-! ### Definitions and calls at the top level -/

namespace Expr

def literal? (e : Expr) : Option Literal :=
  match e.form with
  | .literal v => some v
  | _ => none

def literalCall? (e : Expr) : Option (String × List Literal) :=
  match e.form with
  | .call name _ args none => (args.mapM literal?).map (name, ·)
  | _ => none

theorem form_of_literal? {e : Expr} {v : Literal} (h : e.literal? = some v) :
    e.form = .literal v := by
  unfold literal? at h
  split at h
  · next hform => cases h; exact hform
  · exact nomatch h

theorem form_of_literalCall? {e : Expr} {name : String} {vs : List Literal}
    (h : e.literalCall? = some (name, vs)) :
    ∃ nameSpan args, e.form = .call name nameSpan args none ∧ args.mapM literal? = some vs := by
  unfold literalCall? at h
  split at h
  · next name' nameSpan args hform =>
    obtain ⟨vs', hvs, heq⟩ := Option.map_eq_some_iff.1 h
    cases heq
    exact ⟨nameSpan, args, hform, hvs⟩
  · exact nomatch h

end Expr

namespace Module
variable {M M' : Module} {x : String}

/-- Nothing is known of any call, and nothing is defined in the bodies of the methods. -/
structure Fresh (M : Module) : Prop where
  defFree : M.DefFree
  instances : ∀ m ∈ M.methods, m.instances = []

def defineNode (M : Module) (e : Expr) : Module :=
  match e.form with
  | .define d => (M.define d).record e.id .nil
  | _ => M

theorem Fresh.defineNode (h : M.Fresh) {e : Expr} (he : e.form.parts.all Expr.defFree) :
    (M.defineNode e).Fresh := by
  unfold Module.defineNode
  split
  · next d hform =>
    rw [hform] at he
    refine ⟨fun m hm stmt hstmt => ?_, fun m hm => ?_⟩
    · rcases mem_putMethod hm with rfl | hm
      · exact List.all_eq_true.1 he stmt hstmt
      · exact h.defFree m hm stmt hstmt
    · rcases mem_putMethod hm with rfl | hm
      · rfl
      · exact h.instances m hm
  · exact h

theorem Fresh.known (h : M.Fresh) : M.known = fun _ => none := by
  funext q
  unfold Module.known
  cases hm : M.method? q.1 with
  | none => rfl
  | some m =>
    show m.returns? q.2 = none
    unfold Method.returns?
    rw [h.instances m (mem_of_method? hm)]
    rfl

theorem settled_nil : M.settled [] = M.known := funext fun _ => if_neg List.not_mem_nil

theorem Fresh.grounded (h : M.Fresh) (limit : Nat) : M.Grounded limit M.definition? [] where
  definitions := rfl
  pending := fun _ hq => absurd hq List.not_mem_nil
  coherent := by
    rw [settled_nil, h.known]
    intro q ty hq
    exact nomatch hq
  distinct := fun m hm => by rw [h.instances m hm]; exact List.nodup_nil

theorem Fresh.agrees (h : M.Fresh) (A : Facts) : M.Agrees M.definition? [] A where
  definitions := rfl
  pending := fun _ hq => absurd hq List.not_mem_nil
  settled := by
    rw [settled_nil, h.known]
    intro q ty hq
    exact nomatch hq

theorem Fresh.body_defFree (h : M.Fresh) (x : String) (d : Definition Expr)
    (hd : M.definition? x = some d) : ∀ e ∈ d.body, e.defFree := by
  obtain ⟨m, hm, rfl⟩ := exists_of_definition? hd
  exact h.defFree m (mem_of_method? hm)

/-- What is known of the calls of a method without a block. -/
def instancesOf (M : Module) (x : String) : List Instance := ((M.method? x).map (·.instances)).getD []

theorem Distinct.mem_instancesOf_iff (h : M.Distinct) {i : Instance} :
    i ∈ M.instancesOf x ↔ M.known (x, i.signature) = some i.returns := by
  unfold instancesOf known
  cases hm : M.method? x with
  | none => simp
  | some m => exact (Method.returns?_eq_some_iff (h m (mem_of_method? hm))).symm

theorem Distinct.perm_instancesOf (h : M.Distinct) (h' : M'.Distinct) (hknown : M.known = M'.known)
    (x : String) : (M.instancesOf x).Perm (M'.instancesOf x) := by
  have hnodup {M : Module} (h : M.Distinct) : (M.instancesOf x).Nodup := by
    unfold instancesOf
    cases hm : M.method? x with
    | none => exact List.nodup_nil
    | some m => exact (h m (mem_of_method? hm)).of_map _
  refine (List.perm_ext_iff_of_nodup (hnodup h) (hnodup h')).2 fun i => ?_
  rw [h.mem_instancesOf_iff, h'.mem_instancesOf_iff, hknown]

end Module

namespace Flow
variable {w : Ways} {limit fuel : Nat} {D : Definitions} {B : Facts} {c : Standing} {s t : Stacks}
  {ty : Ty} {e : Expr}

theorem literal_ok {v : Literal} (he : e.literal? = some v)
    (hrun : Flow.expr w limit fuel c e s = .ok (ty, t)) :
    ty = v.type ∧ t.module.methods = s.module.methods := by
  cases fuel with
  | zero => exact nomatch hrun
  | succ fuel =>
    obtain ⟨ty', t', hform, hrun⟩ := bind_eq_ok_iff.1 hrun
    rw [Expr.form_of_literal? he] at hform
    cases hform
    cases hrun
    exact ⟨rfl, rfl⟩

theorem literals_ok {args : List Expr} {vs : List Literal} (hargs : args.mapM Expr.literal? = some vs)
    {signature : Signature} (hrun : args.mapM (Flow.expr w limit fuel c) s = .ok (signature, t)) :
    signature = vs.map Literal.type ∧ t.module.methods = s.module.methods := by
  induction args generalizing vs signature s with
  | nil => cases hargs; cases hrun; exact ⟨rfl, rfl⟩
  | cons arg args ih =>
    rw [List.mapM_cons] at hargs hrun
    obtain ⟨v, hv, hargs⟩ := Option.bind_eq_some_iff.1 hargs
    obtain ⟨vs', hvs, hargs⟩ := Option.bind_eq_some_iff.1 hargs
    obtain ⟨ty, s₁, harg, hrun⟩ := bind_eq_ok_iff.1 hrun
    obtain ⟨tys, s₂, hrest, hrun⟩ := bind_eq_ok_iff.1 hrun
    cases hargs
    cases hrun
    obtain ⟨rfl, hmethods₁⟩ := literal_ok hv harg
    obtain ⟨rfl, hmethods₂⟩ := ih hvs hrest
    exact ⟨rfl, hmethods₂.trans hmethods₁⟩

/-- A call without a block for literals comes to the method that it names. -/
theorem literalCall_ok {name : String} {vs : List Literal} (he : e.literalCall? = some (name, vs))
    (hrun : Flow.expr w limit fuel c e s = .ok (ty, t)) :
    ∃ fuel' s₁ t₁ method, s₁.module.methods = s.module.methods ∧
      s₁.module.method? name = some method ∧
      enter w (Flow.expr w limit fuel') limit c e.id e.span method (vs.map Literal.type) none s₁ =
        .ok (ty, t₁) ∧ t.module.methods = t₁.module.methods := by
  obtain ⟨nameSpan, args, hform, hargs⟩ := Expr.form_of_literalCall? he
  cases fuel with
  | zero => exact nomatch hrun
  | succ fuel =>
    obtain ⟨ty', t₁, hcall, hrun⟩ := bind_eq_ok_iff.1 hrun
    cases hrun
    rw [hform] at hcall
    obtain ⟨signature, s₁, hmapM, hcall⟩ := bind_eq_ok_iff.1 hcall
    obtain ⟨rfl, hmethods⟩ := literals_ok hargs hmapM
    obtain ⟨method, hm, -, hentry⟩ := dispatch_ok hcall
    exact ⟨fuel, s₁, t₁, method, hmethods, hm, hentry, rfl⟩

theorem define_ok (he : e.form.isDefine) (hrun : Flow.expr .own limit fuel c e s = .ok (ty, t)) :
    t.module = s.module.defineNode e := by
  cases fuel with
  | zero => exact nomatch hrun
  | succ fuel =>
    obtain ⟨ty', t₁, hdefine, hrun⟩ := bind_eq_ok_iff.1 hrun
    cases hrun
    unfold Module.defineNode
    cases hform : e.form with
    | define d =>
      rw [hform] at hdefine
      have hdefine : define .own c d s = .ok (ty, t₁) := hdefine
      rw [define_of_not not_false] at hdefine
      cases hdefine
      rfl
    | _ => rw [hform] at he; exact absurd he Bool.false_ne_true

/-- Behind definitions the module is the one that they make, however they are evaluated. -/
theorem defines_ok {defs : List Expr} (hdefs : ∀ e ∈ defs, e.form.isDefine) {start : Ty}
    (hrun : defs.foldlM (fun _ e => Flow.expr .own limit fuel c e) start s = .ok (ty, t)) :
    t.module = defs.foldl Module.defineNode s.module := by
  induction defs generalizing start s with
  | nil => cases hrun; rfl
  | cons e defs ih =>
    rw [List.foldlM_cons] at hrun
    obtain ⟨ty', s₁, he, hrun⟩ := bind_eq_ok_iff.1 hrun
    rw [ih (fun e' he' => hdefs e' (List.mem_cons_of_mem e he')) hrun,
      define_ok (hdefs e List.mem_cons_self) he]
    rfl

theorem fresh_foldl {defs : List Expr} (hdefs : ∀ e ∈ defs, e.form.parts.all Expr.defFree)
    {M : Module} (h : M.Fresh) : (defs.foldl Module.defineNode M).Fresh := by
  induction defs generalizing M with
  | nil => exact h
  | cons e defs ih =>
    exact ih (fun e' he' => hdefs e' (List.mem_cons_of_mem e he'))
      (h.defineNode (hdefs e List.mem_cons_self))

section
variable (hD : D.DefFree)
include hD

/-- Behind a call what was found out so far stays, and the call is known. -/
theorem settles_call (hs : s.module.Grounded limit D []) {name : String} {vs : List Literal}
    (he : e.literalCall? = some (name, vs))
    (hrun : Flow.expr .own limit fuel .top e s = .ok (ty, t)) :
    t.module.Grounded limit D [] ∧ s.module.known.Within t.module.known ∧
      t.module.known (name, vs.map Literal.type) = some ty := by
  obtain ⟨fuel', s₁, t₁, method, hmethods, hm, hentry, ht⟩ := literalCall_ok he hrun
  obtain rfl := Module.name_of_method? hm
  have hown : ¬ Ways.own.refuses .top method (vs.map Literal.type) none := List.not_mem_nil
  rw [enter_none hown] at hentry
  have hs₁ : s₁.module.Grounded limit D [] := hs.congr hmethods.symm
  obtain ⟨ht₁, hwithin⟩ := settles_plainCall (c := .top) (A := t₁.module.settled [])
    (fun hinner hc he hA => settles_expr limit fuel' hD hinner hc he hA) hD (fun _ hq => nomatch hq)
    hs₁ hm hown hentry
  obtain ⟨-, hgrow, hq⟩ := hwithin fun _ _ h => h
  have hgrow : (s₁.module.settled []).Within (t₁.module.settled []) := hgrow
  rw [Module.settled_nil, Module.settled_nil, Module.known_congr hmethods] at hgrow
  rw [Module.settled_nil] at hq
  rw [Module.known_congr ht]
  exact ⟨ht₁.congr ht.symm, hgrow, hq⟩

theorem settles_calls {calls : List Expr} (hcalls : ∀ e ∈ calls, e.literalCall?.isSome)
    (hs : s.module.Grounded limit D []) {start : Ty}
    (hrun : calls.foldlM (fun _ e => Flow.expr .own limit fuel .top e) start s = .ok (ty, t)) :
    t.module.Grounded limit D [] ∧ s.module.known.Within t.module.known ∧
      ∀ name vs, some (name, vs) ∈ calls.map Expr.literalCall? →
        (t.module.known (name, vs.map Literal.type)).isSome := by
  induction calls generalizing start s with
  | nil => cases hrun; exact ⟨hs, fun _ _ h => h, fun _ _ h => absurd h List.not_mem_nil⟩
  | cons e calls ih =>
    rw [List.foldlM_cons] at hrun
    obtain ⟨ty', s₁, he, hrun⟩ := bind_eq_ok_iff.1 hrun
    obtain ⟨⟨name, vs⟩, hcall⟩ := Option.isSome_iff_exists.1 (hcalls e List.mem_cons_self)
    obtain ⟨hs₁, hgrow₁, hq⟩ := settles_call hD hs hcall he
    obtain ⟨ht, hgrow₂, hknown⟩ := ih (fun e' he' => hcalls e' (List.mem_cons_of_mem e he')) hs₁ hrun
    refine ⟨ht, hgrow₁.trans hgrow₂, fun name' vs' hmem => ?_⟩
    rcases List.mem_cons.1 hmem with heq | hmem
    · cases hcall.symm.trans heq.symm
      rw [hgrow₂ _ _ hq]
      rfl
    · exact hknown name' vs' hmem

/-- From facts that say what each of the calls returns, no more is known behind them than the facts
say. -/
theorem finds_calls (hB : B.Coherent limit D) {calls : List Expr}
    (hcalls : ∀ e ∈ calls, ∃ name vs, e.literalCall? = some (name, vs) ∧
      (B (name, vs.map Literal.type)).isSome)
    (hs : s.module.Agrees D [] B) {start : Ty}
    (hrun : calls.foldlM (fun _ e => Flow.expr .own limit fuel .top e) start s = .ok (ty, t)) :
    t.module.Agrees D [] B := by
  induction calls generalizing start s with
  | nil => cases hrun; exact hs
  | cons e calls ih =>
    rw [List.foldlM_cons] at hrun
    obtain ⟨ty', s₁, he, hrun⟩ := bind_eq_ok_iff.1 hrun
    refine ih (fun e' he' => hcalls e' (List.mem_cons_of_mem e he')) ?_ hrun
    obtain ⟨name, vs, hcall, hq⟩ := hcalls e List.mem_cons_self
    obtain ⟨ty'', hq⟩ := Option.isSome_iff_exists.1 hq
    obtain ⟨fuel', s₂, s₃, method, hmethods, hm, hentry, hs₃⟩ := literalCall_ok hcall he
    obtain rfl := Module.name_of_method? hm
    have htop : B.SupposeIn B .top := ⟨fun _ hq => (nomatch hq), fun _ _ _ hq => hq⟩
    rcases finds_enter_none (c := .top) hD hB
        (fun hinner hc he hA => finds_expr hD limit fuel' _ hB hinner hc he hA)
        (hs.congr hmethods.symm) htop hm hq with ⟨_, hfails⟩ | ⟨K, hends, hK⟩
    · exact nomatch hentry.symm.trans hfails
    · cases hentry.symm.trans hends
      exact hK.congr hs₃.symm

end

theorem known_of_run {defs calls : List Expr}
    (hdefs : ∀ e ∈ defs, e.form.isDefine ∧ e.form.parts.all Expr.defFree)
    (hcalls : ∀ e ∈ calls, e.literalCall?.isSome) (hs : s.module.Fresh)
    (hrun : body (Flow.expr .own limit fuel .top) (defs ++ calls) s = .ok (ty, t)) :
    t.module.Grounded limit (defs.foldl Module.defineNode s.module).definition? [] ∧
      ∀ {calls' fuel' ty' t'}, (∀ e ∈ calls', e.literalCall?.isSome) →
        (∀ call ∈ calls'.map Expr.literalCall?, call ∈ calls.map Expr.literalCall?) →
        body (Flow.expr .own limit fuel' .top) (defs ++ calls') s = .ok (ty', t') →
        t'.module.known.Within t.module.known := by
  have hdefines (e : Expr) (he : e ∈ defs) := (hdefs e he).1
  have hfresh := fresh_foldl (fun e he => (hdefs e he).2) hs
  unfold body at hrun
  rw [List.foldlM_append] at hrun
  obtain ⟨ty₁, s₁, hdefsRun, hrun⟩ := bind_eq_ok_iff.1 hrun
  rw [← defines_ok hdefines hdefsRun] at hfresh ⊢
  obtain ⟨ht, -, hknown⟩ := settles_calls hfresh.body_defFree hcalls (hfresh.grounded limit) hrun
  refine ⟨ht, fun {calls' fuel' ty' t'} hcalls' hsub hrun' => ?_⟩
  unfold body at hrun'
  rw [List.foldlM_append] at hrun'
  obtain ⟨ty₁', s₁', hdefsRun', hrun'⟩ := bind_eq_ok_iff.1 hrun'
  have hsame : s₁'.module = s₁.module :=
    (defines_ok hdefines hdefsRun').trans (defines_ok hdefines hdefsRun).symm
  have hcoherent := ht.coherent
  rw [Module.settled_nil] at hcoherent
  have hagrees := finds_calls hfresh.body_defFree hcoherent (fun e he => ?_)
    (hsame ▸ hfresh.agrees t.module.known) hrun'
  · rw [← Module.settled_nil (M := t'.module)]
    exact hagrees.settled
  · obtain ⟨⟨name, vs⟩, hcall⟩ := Option.isSome_iff_exists.1 (hcalls' e he)
    refine ⟨name, vs, hcall, hknown name vs (hsub _ ?_)⟩
    exact List.mem_map.2 ⟨e, he, hcall⟩

end Flow

/-! ### Runs that are given up at what is supposed of others -/

namespace Infer

/-- A call returns what is known of it or evaluates the body of the method, with the call counted
among those under inference. -/
def enterOwn (expr : List (Definition Expr × Option Signature) → Expr → Infer Ty) (limit : Nat)
    (under : List (Definition Expr × Option Signature)) : Entry
  | id, span, method, signature, none =>
    plainCall (expr ((method.definition, some signature) :: under)) limit id span method signature
  | id, span, method, signature, some block =>
    blockCall (expr ((method.definition, none) :: under)) limit id span method signature block

/-- The type of an expression, in a run that is given up where a body reads what is supposed of
another one. -/
def exprOwn (limit : Nat) : Nat → List (Definition Expr × Option Signature) → Expr → Infer Ty
  | 0 => fun _ _ => throw .outOfFuel
  | fuel + 1 => fun under =>
    let entry : Entry := fun id span method signature block => do
      if Borrows under (← get).active method signature block then throw .outOfFuel
      else enterOwn (exprOwn limit fuel) limit under id span method signature block
    layer (exprOwn limit fuel under) entry fuel

end Infer

/-- The inference ends well, and no body reads what is supposed of another one. -/
def Program.readsOwn (p : Program) (limit : Nat) : Bool :=
  match Infer.body (Infer.exprOwn limit (p.fuel limit) []) p.stmts .initial with
  | .ok _ _ => true
  | .error _ _ => false

theorem follows_exprOwn (limit fuel : Nat) (under : List (Definition Expr × Option Signature)) :
    Follows (Infer.exprOwn limit fuel under) (Flow.expr .own limit fuel) under := by
  induction fuel generalizing under with
  | zero => exact fun e s _ => ⟨s, rfl⟩
  | succ fuel ih =>
    intro e s hapart
    refine (ih under).layer hapart (fun id span method signature block s' hs => ?_) fuel
      fun d _ => not_false
    rw [bind_of_ok Infer.get_apply, hs.active]
    by_cases hr : Borrows under s.active method signature block
    · have hr' : Ways.own.refuses (s.standing under) method signature block := hr
      rw [if_pos hr, Flow.enter_of_refuses hr']
      exact ⟨s', rfl⟩
    · have hr' : ¬ Ways.own.refuses (s.standing under) method signature block := hr
      rw [if_neg hr]
      cases block with
      | none =>
        rw [Flow.enter_none hr']
        exact (ih ((method.definition, some signature) :: under)).plainCall (w := .own) rfl hapart
          limit id span hs
      | some b =>
        rw [Flow.enter_some hr']
        exact (ih ((method.definition, none) :: under)).blockCall hapart limit id span b hs

theorem Ways.own_below_plain : Ways.own.Below (· = .refused) Ways.plain where
  known := rfl
  refuses := fun c method signature block => by
    by_cases h : Ways.own.refuses c method signature block
    · exact .inr ⟨rfl, h⟩
    · exact .inl ⟨h, False.elim⟩
  replaces := fun _ _ _ => .inl Iff.rfl

/-- Such a run finds out what the inference does. -/
theorem Program.run_of_readsOwn {p : Program} {limit : Nat} {M : Module} (hown : p.readsOwn limit)
    (hM : p.infer limit = .ok M) :
    ∃ ty t, Flow.body (Flow.expr .own limit (p.fuel limit) .top) p.stmts
      (Engine.initial.toStacks 0 []) = .ok (ty, t) ∧ t.module.methods = M.methods := by
  have hownRun := Follows.run (follows_exprOwn limit (p.fuel limit) []) p.stmts
  have hplainRun := Follows.run (follows_expr limit (p.fuel limit) []) p.stmts
  have hbelow := (Flow.Below.congruence _).body
    (fun e (_ : e ∈ p.stmts) => Flow.below_expr Ways.own_below_plain limit (p.fuel limit) .top e)
    (Engine.initial.toStacks 0 [])
  have hstanding : Engine.initial.standing [] = .top := rfl
  rw [hstanding] at hownRun hplainRun
  unfold readsOwn at hown
  cases hflow : Flow.body (Flow.expr .own limit (p.fuel limit) .top) p.stmts
      (Engine.initial.toStacks 0 []) with
  | error e =>
    rw [hflow] at hownRun
    obtain ⟨t, ht⟩ := hownRun
    rw [ht] at hown
    exact absurd hown Bool.false_ne_true
  | ok r =>
    refine ⟨r.1, r.2, rfl, ?_⟩
    rcases hbelow with ⟨_, _, h⟩ | hsame
    · exact nomatch hflow.symm.trans h
    · rw [← hsame, hflow] at hplainRun
      obtain ⟨t, ht, hstacks, -⟩ := hplainRun
      unfold infer run at hM
      rw [ht] at hM
      cases hM
      rw [← hstacks]
      rfl

namespace Orders

def define (name : String) (params : List String) (body : List Expr) : Expr :=
  .bare (.define ⟨.bare name, params.map .bare, body⟩)

def call (name : String) (args : List Literal) : Expr :=
  .bare (.call name ⟨0, 0⟩ (args.map fun v => .bare (.literal v)) none)

def callWith (name : String) (id : NodeId) (body : List Expr) : Expr :=
  .bare (.call name ⟨0, 0⟩ [] (some ⟨id, ⟨0, 0⟩, [], body⟩))

/-- Either what a statement gives or 1. -/
def orOne (stmt : Expr) : Expr :=
  .bare (.branch (.bare (.literal (.bool true))) [stmt] (some [.bare (.literal (.int 1))]))

/-- Of `f` something is supposed only in its own body, also when `g` comes to it in a block. -/
def apart : List Expr :=
  [define "f" ["n"] [orOne (.bare (.call "f" ⟨0, 0⟩ [.bare (.var "n")] none))],
    define "each" [] [.bare (.yield [])], define "g" [] [callWith "each" 1 [call "f" [.int 1]]]]

/-- `f` and `g` call each other. -/
def crossed : List Expr := [define "f" [] [orOne (call "g" [])], define "g" [] [call "f" []]]

/-- `g` calls `f` in a block that `x` runs in a block of its own; `f` calls `x`, too. -/
def shared : List Expr :=
  [define "each" [] [.bare (.yield [])], define "x" [] [callWith "each" 1 [.bare (.yield [])]],
    define "f" [] [callWith "x" 2 [.bare (.literal (.int 1))]],
    define "g" [] [callWith "x" 3 [call "f" []]]]

/-- What is known of `f` and `g` behind definitions and calls. -/
def known (defs calls : List Expr) : Except Stop (List Instance × List Instance) :=
  (Program.infer ⟨defs ++ calls⟩ 64).map fun M => (M.instancesOf "f", M.instancesOf "g")

end Orders

end FlowTyping
