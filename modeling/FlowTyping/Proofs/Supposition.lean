import FlowTyping.Proofs.Afresh
import FlowTyping.Proofs.Learning

/-!
# What is supposed of calls under inference

While a body is under inference for a call without a block, that call is supposed to return `Nil`;
so is a call with a block that is under way.  A body may read what is supposed of itself, but what
it reads of another one says nothing about that one.  With `Ways.own` a run is given up at such a
read.  Then what is found out of a call hangs on what is known of the others at the end, and on
nothing else of the run: `Flow.settles_expr`.
-/

namespace FlowTyping

/-! ### Facts -/

/-- What is known of calls without a block, each given by the name of the method and the types of
the arguments. -/
abbrev Facts := String × Signature → Option Ty

namespace Facts
variable {A B : Facts} {q r : String × Signature} {ty : Ty}

/-- The second facts say all that the first ones do. -/
def Within (A B : Facts) : Prop := ∀ q ty, A q = some ty → B q = some ty

/-- The facts where a call is supposed to return `Nil`. -/
def supposing (A : Facts) (q : String × Signature) : Facts := Function.update A q (some .nil)

theorem supposing_self : A.supposing q q = some .nil := by
  rw [supposing, Function.update_self]

theorem supposing_ne (h : r ≠ q) : A.supposing q r = A r := by
  rw [supposing, Function.update_of_ne h]

theorem Within.trans {C : Facts} (h₁ : A.Within B) (h₂ : B.Within C) : A.Within C :=
  fun q ty h => h₂ q ty (h₁ q ty h)

theorem Within.antisymm (h₁ : A.Within B) (h₂ : B.Within A) : A = B :=
  funext fun q => Option.ext fun ty => ⟨h₁ q ty, h₂ q ty⟩

theorem Within.update (hnew : A q = none) : A.Within (Function.update A q (some ty)) := by
  intro r ty' hr
  rw [Function.update_of_ne fun hrq => by rw [hrq, hnew] at hr; exact nomatch hr]
  exact hr

theorem Within.supposing (h : ∀ r, r ≠ q → ∀ ty, A r = some ty → B r = some ty)
    (hq : B q = some .nil) : (A.supposing q).Within B := by
  intro r ty hr
  by_cases hrq : r = q
  · subst hrq
    rw [supposing_self] at hr
    exact hq.trans hr
  · rw [supposing_ne hrq] at hr
    exact h r hrq ty hr

theorem Within.of_supposing (h : (A.supposing q).Within B) (hr : r ≠ q) (hA : A r = some ty) :
    B r = some ty := h r ty ((supposing_ne hr).trans hA)

theorem Within.supposed (h : (A.supposing q).Within B) : B q = some .nil :=
  h q .nil supposing_self

end Facts

namespace Module
variable {M M' : Module} {name x : String} {method : Method} {signature : Signature} {ty : Ty}
  {P : List (String × Signature)} {q r : String × Signature}

/-- What is known of the calls without a block. -/
def known (M : Module) : Facts := fun q => (M.method? q.1).bind (·.returns? q.2)

/-- What is known of calls that are not among `P`. -/
def settled (M : Module) (P : List (String × Signature)) : Facts :=
  fun q => if q ∈ P then none else M.known q

theorem known_congr (h : M.methods = M'.methods) : M.known = M'.known := by
  funext q
  unfold known
  rw [method?_congr h]

theorem settled_congr (h : M.methods = M'.methods) : M.settled P = M'.settled P := by
  unfold settled
  rw [known_congr h]

theorem known_of_method? (hm : M.method? name = some method) :
    M.known (name, signature) = method.returns? signature := by
  unfold known
  rw [hm]
  rfl

theorem known_store (hm : (M.definition? name).isSome) :
    (M.updateMethod name (·.store signature ty)).known q =
      if q = (name, signature) then some ty else M.known q := by
  obtain ⟨d, hd⟩ := Option.isSome_iff_exists.1 hm
  obtain ⟨method, hm, -⟩ := exists_of_definition? hd
  obtain ⟨x, other⟩ := q
  unfold known
  rw [method?_store]
  by_cases hx : x = name
  · subst hx
    rw [if_pos rfl, hm]
    show (method.store signature ty).returns? other = _
    rw [Method.returns?_store]
    simp only [Prod.mk.injEq, true_and]
    rfl
  · rw [if_neg hx, if_neg fun h => hx (congrArg Prod.fst h)]

theorem known_observe : (M.updateMethod name (·.observe signature ty)).known = M.known := by
  funext q
  unfold known
  rw [method?_observe]
  split
  · cases M.method? q.1 <;> rfl
  · rfl

theorem settled_eq_some_iff : M.settled P q = some ty ↔ q ∉ P ∧ M.known q = some ty := by
  unfold settled
  split <;> simp [*]

/-- A call that nothing is known of is taken up. -/
theorem settled_start (hm : (M.definition? name).isSome) (hnew : M.known (name, signature) = none) :
    (M.updateMethod name (·.store signature .nil)).settled ((name, signature) :: P) = M.settled P := by
  funext q
  unfold settled
  rw [known_store hm]
  by_cases hq : q = (name, signature)
  · rw [if_pos (hq ▸ List.mem_cons_self), hq, hnew, ite_self]
  · simp only [List.mem_cons, hq, false_or, if_false]

/-- What the call returns is found out. -/
theorem settled_finish (hm : (M.definition? name).isSome) (hq : (name, signature) ∉ P) :
    (M.updateMethod name (·.store signature ty)).settled P =
      Function.update (M.settled ((name, signature) :: P)) (name, signature) (some ty) := by
  funext r
  unfold settled
  rw [known_store hm]
  by_cases hr : r = (name, signature)
  · rw [hr, if_neg hq, if_pos rfl, Function.update_self]
  · rw [Function.update_of_ne hr]
    simp only [List.mem_cons, hr, false_or, if_false]

end Module

/-! ### Runs that are given up -/

/-- The calls without a block whose bodies are under inference, innermost first. -/
def pending (under : List (Definition Expr × Option Signature)) : List (String × Signature) :=
  under.filterMap fun (d, signature?) => signature?.map (d.name.name, ·)

/-- How many calls with a block are under way in the innermost body of a call without one. -/
def blocksWithin (under : List (Definition Expr × Option Signature)) : Nat :=
  (under.takeWhile (·.2.isNone)).length

/-- The call returns what is supposed of it, and it is not the innermost body of a call without a
block, nor under way in that body. -/
def Borrows (under : List (Definition Expr × Option Signature)) (active : List BlockCall)
    (method : Method) (signature : Signature) : Option (Block Expr) → Prop
  | none => (method.name, signature) ∈ (pending under).tail
  | some block => ⟨method.name, signature, block.id⟩ ∈ active.drop (blocksWithin under)

instance (under : List (Definition Expr × Option Signature)) (active : List BlockCall)
    (method : Method) (signature : Signature) (block : Option (Block Expr)) :
    Decidable (Borrows under active method signature block) := by
  cases block <;> exact inferInstanceAs (Decidable (_ ∈ _))

/-- A call returns what is known of it, but what is supposed of it only to the body itself. -/
def Ways.own : Ways where
  known := Method.returns?
  refuses := fun c => Borrows c.under c.active
  replaces := fun _ _ _ => False

/-- A call without a block returns what the facts say, and a run is given up where they say
nothing. -/
def Ways.told (A : Facts) : Ways where
  known := fun method signature => A (method.name, signature)
  refuses := fun _ method signature block => block = none ∧ A (method.name, signature) = none
  replaces := fun _ _ _ => False

namespace Standing
variable {c c' : Standing} {method : Method} {signature : Signature} {block : Option (Block Expr)}

/-- The second standing has what the first one has in the innermost body of a call without a
block. -/
structure Inner (c c' : Standing) : Prop where
  blocks : c.blocks = c'.blocks
  method? : c.method? = c'.method?
  depth : c'.depth ≤ c.depth
  active : c'.active = c.active.take (blocksWithin c.under)

def top : Standing := ⟨[], none, 0, [], []⟩

theorem Inner.inside_none (c : Standing) :
    (c.inside method signature none).Inner (top.inside method signature none) :=
  ⟨rfl, rfl, Nat.succ_le_succ (Nat.zero_le c.depth), rfl⟩

theorem Inner.inside_some (h : c.Inner c') (b : Block Expr) :
    (c.inside method signature (some b)).Inner (c'.inside method signature (some b)) where
  blocks := by
    show (b, c.method?) :: c.blocks = (b, c'.method?) :: c'.blocks
    rw [h.blocks, h.method?]
  method? := rfl
  depth := Nat.succ_le_succ h.depth
  active := by
    show _ :: c'.active = _
    rw [h.active]
    rfl

theorem Inner.outer (h : c.Inner c') (outer : List (Block Expr × Option String))
    (method? : Option String) :
    Inner { c with blocks := outer, method? } { c' with blocks := outer, method? } :=
  ⟨rfl, rfl, h.depth, h.active⟩

/-- Of a call with a block both standings say the same, unless the run is given up. -/
theorem Inner.mem_active_iff (h : c.Inner c') {b : Block Expr}
    (hown : ¬ Ways.own.refuses c method signature (some b)) :
    ⟨method.name, signature, b.id⟩ ∈ c'.active ↔ ⟨method.name, signature, b.id⟩ ∈ c.active := by
  rw [h.active]
  refine ⟨List.mem_of_mem_take, fun hmem => ?_⟩
  rw [← List.take_append_drop (blocksWithin c.under) c.active] at hmem
  exact (List.mem_append.1 hmem).resolve_right hown

end Standing

/-! ### What hangs on facts -/

/-- Nothing is defined in the bodies of the methods. -/
def Definitions.DefFree (D : Definitions) : Prop := ∀ x d, D x = some d → ∀ e ∈ d.body, e.defFree

/-- Of the innermost body of a call without a block the facts say what is supposed of it. -/
def Facts.Suppose (A : Facts) (c : Standing) : Prop :=
  ∀ q, (pending c.under).head? = some q → A q = some .nil

/-- Among the definitions `D`, the body of a method has a type for a signature if calls return what
the facts say. -/
def Facts.Gives (limit : Nat) (D : Definitions) (A : Facts) (q : String × Signature) (ty : Ty) :
    Prop :=
  ∃ d fuel, D q.1 = some d ∧ ∀ (method : Method) (id : NodeId) (span : Span) (s : Stacks),
    method.definition = d → s.module.definition? = D →
      ∃ K, Flow.methodBody (Flow.expr (.told A) limit fuel) limit .top id span method q.2 none s =
        .ok (ty, { s with module := K }) ∧ K.definition? = D

/-- What the facts say of a call, its body has, if the call is supposed to return `Nil` and the
others return what the facts say. -/
def Facts.Coherent (limit : Nat) (D : Definitions) (A : Facts) : Prop :=
  ∀ q ty, A q = some ty → ∀ B, (A.supposing q).Within B → B.Gives limit D q ty

theorem Facts.Coherent.extend {limit : Nat} {D : Definitions} {A : Facts} (h : A.Coherent limit D)
    {q : String × Signature} {ty : Ty} (hnew : A q = none)
    (hq : ∀ B, (A.supposing q).Within B → B.Gives limit D q ty) :
    Facts.Coherent limit D (Function.update A q (some ty)) := by
  intro r ty' hr B hB
  have hnil : B r = some .nil := hB.supposed
  have hothers (p : String × Signature) (hp : p ≠ r) (ty' : Ty) (hA : A p = some ty') :
      B p = some ty' := by
    have hpq : p ≠ q := fun hpq => by rw [hpq, hnew] at hA; exact nomatch hA
    exact hB.of_supposing hp ((Function.update_of_ne hpq _ _).trans hA)
  by_cases hrq : r = q
  · subst hrq
    rw [Function.update_self] at hr
    cases hr
    exact hq B (.supposing hothers hnil)
  · rw [Function.update_of_ne hrq] at hr
    exact h r ty' hr B (.supposing hothers hnil)

namespace Module
variable {M N : Module} {name : String} {signature : Signature} {ty : Ty} {limit : Nat}
  {D : Definitions} {P : List (String × Signature)} {A : Facts}

/-- No method has two instances for one signature. -/
def Distinct (M : Module) : Prop := ∀ m ∈ M.methods, (m.instances.map Instance.signature).Nodup

theorem Distinct.store (h : M.Distinct) :
    (M.updateMethod name (·.store signature ty)).Distinct := by
  intro m hm
  obtain ⟨old, hold, rfl⟩ := List.mem_map.1 hm
  split
  · show ((Instance.upsert _ signature ty old.instances).map Instance.signature).Nodup
    rw [Instance.signatures_upsert]
    split
    · exact h old hold
    · next hnew =>
      exact List.nodup_append.2 ⟨h old hold, List.nodup_singleton signature,
        fun a ha b hb hab => hnew (List.mem_singleton.1 hb ▸ hab ▸ ha)⟩
  · exact h old hold

theorem Distinct.observe (h : M.Distinct) :
    (M.updateMethod name (·.observe signature ty)).Distinct := by
  intro m hm
  obtain ⟨old, hold, rfl⟩ := List.mem_map.1 hm
  split <;> exact h old hold

/-- Along a run with the definitions `D`, while the calls `P` are under inference. -/
structure Amid (D : Definitions) (P : List (String × Signature)) (M : Module) : Prop where
  definitions : M.definition? = D
  pending : ∀ q ∈ P, M.known q = some .nil

/-- What is known of calls that are not under inference hangs on the definitions and on what is known
of such calls. -/
structure Grounded (limit : Nat) (D : Definitions) (P : List (String × Signature)) (M : Module) : Prop
    extends Amid D P M where
  coherent : (M.settled P).Coherent limit D
  distinct : M.Distinct

/-- Of calls that are not under inference no more is known than the facts say. -/
structure Agrees (D : Definitions) (P : List (String × Signature)) (A : Facts) (M : Module) : Prop
    extends Amid D P M where
  settled : (M.settled P).Within A

theorem Amid.congr (hM : M.methods = N.methods) (h : M.Amid D P) : N.Amid D P where
  definitions := definition?_congr hM ▸ h.definitions
  pending := known_congr hM ▸ h.pending

theorem Grounded.congr (hM : M.methods = N.methods) (h : M.Grounded limit D P) :
    N.Grounded limit D P where
  toAmid := h.toAmid.congr hM
  coherent := settled_congr hM ▸ h.coherent
  distinct := by
    unfold Distinct
    rw [← hM]
    exact h.distinct

theorem Agrees.congr (hM : M.methods = N.methods) (h : M.Agrees D P A) : N.Agrees D P A where
  toAmid := h.toAmid.congr hM
  settled := settled_congr hM ▸ h.settled

theorem isSome_definition? {method : Method} (hm : M.method? name = some method) :
    (M.definition? name).isSome := by
  rw [definition?_of_method? hm]; rfl

theorem Amid.notMem_of_new (h : M.Amid D P) (hnew : M.known (name, signature) = none) :
    (name, signature) ∉ P := by
  intro hmem
  exact nomatch hnew.symm.trans (h.pending _ hmem)

section
variable (hname : (M.definition? name).isSome)
include hname

theorem Amid.start (h : M.Amid D P) :
    (M.updateMethod name (·.store signature .nil)).Amid D ((name, signature) :: P) where
  definitions := (definition?_store M name signature .nil).trans h.definitions
  pending := by
    intro q hq
    rw [known_store hname]
    split
    · rfl
    · next hne => exact h.pending q ((List.mem_cons.1 hq).resolve_left hne)

theorem Grounded.start (h : M.Grounded limit D P) (hnew : M.known (name, signature) = none) :
    (M.updateMethod name (·.store signature .nil)).Grounded limit D ((name, signature) :: P) where
  toAmid := h.toAmid.start hname
  coherent := by rw [settled_start hname hnew]; exact h.coherent
  distinct := h.distinct.store

theorem Agrees.start (h : M.Agrees D P A) (hnew : M.known (name, signature) = none) :
    (M.updateMethod name (·.store signature .nil)).Agrees D ((name, signature) :: P) A where
  toAmid := h.toAmid.start hname
  settled := by rw [settled_start hname hnew]; exact h.settled

variable (hP : (name, signature) ∉ P)
include hP

theorem Amid.finish (h : M.Amid D ((name, signature) :: P)) :
    (M.updateMethod name (·.store signature ty)).Amid D P where
  definitions := (definition?_store M name signature ty).trans h.definitions
  pending := by
    intro q hq
    have hne : q ≠ (name, signature) := fun heq => hP (heq ▸ hq)
    rw [known_store hname, if_neg hne]
    exact h.pending q (List.mem_cons_of_mem _ hq)

theorem Grounded.finish (h : M.Grounded limit D ((name, signature) :: P))
    (hgives : ∀ B, ((M.settled ((name, signature) :: P)).supposing (name, signature)).Within B →
      B.Gives limit D (name, signature) ty) :
    (M.updateMethod name (·.store signature ty)).Grounded limit D P where
  toAmid := h.toAmid.finish hname hP
  coherent := by
    rw [settled_finish hname hP]
    exact h.coherent.extend (if_pos List.mem_cons_self) hgives
  distinct := h.distinct.store

theorem Agrees.finish (h : M.Agrees D ((name, signature) :: P) A)
    (hA : A (name, signature) = some ty) :
    (M.updateMethod name (·.store signature ty)).Agrees D P A where
  toAmid := h.toAmid.finish hname hP
  settled := by
    intro q ty' hq
    rw [settled_finish hname hP] at hq
    by_cases heq : q = (name, signature)
    · rw [heq, Function.update_self] at hq
      rw [heq, ← hq]
      exact hA
    · rw [Function.update_of_ne heq] at hq
      exact h.settled q ty' hq

end

theorem settled_observe :
    (M.updateMethod name (·.observe signature ty)).settled P = M.settled P := by
  unfold settled
  rw [known_observe]

theorem Amid.observe (h : M.Amid D P) : (M.updateMethod name (·.observe signature ty)).Amid D P where
  definitions := (definition?_observe M name signature ty).trans h.definitions
  pending := by rw [known_observe]; exact h.pending

theorem Grounded.observe (h : M.Grounded limit D P) :
    (M.updateMethod name (·.observe signature ty)).Grounded limit D P where
  toAmid := h.toAmid.observe
  coherent := by rw [settled_observe]; exact h.coherent
  distinct := h.distinct.observe

theorem Agrees.observe (h : M.Agrees D P A) :
    (M.updateMethod name (·.observe signature ty)).Agrees D P A where
  toAmid := h.toAmid.observe
  settled := by rw [settled_observe]; exact h.settled

end Module

/-! ### What a run finds out, from facts alone -/

/-- The first run is sound while the calls `P` are under inference, and the facts say all that it
knows of other calls. -/
def settling (limit : Nat) (D : Definitions) (P : List (String × Signature)) (A : Facts) :
    Replay where
  Fit := Module.Grounded limit D P
  Ahead := fun M K => (M.settled P).Within A ∧ K.definition? = D
  Excuse := fun _ => False
  fit_congr := Module.Grounded.congr
  ahead_congr := by
    intro M M' K K' hM hK h
    rwa [← Module.settled_congr hM, ← Module.definition?_congr hK]

namespace Flow
variable {limit fuel : Nat} {D : Definitions} {P : List (String × Signature)} {A : Facts}
  {c c' : Standing} {id id' : NodeId} {span span' : Span} {method k : Method}
  {signature : Signature} {block : Option (Block Expr)} {s t : Stacks} {ty : Ty}

theorem enter_told_none {expr : Standing → Expr → Flow Ty}
    (hA : A (method.name, signature) = some ty) :
    enter (.told A) expr limit c id span method signature none s = .ok (ty, s) := by
  have hknown : ¬ (Ways.told A).refuses c method signature none := fun h =>
    nomatch hA.symm.trans h.2
  rw [enter_none hknown, plainCall_of_some (w := .told A) hA]
  rfl

theorem enter_told_none_ok {expr : Standing → Expr → Flow Ty}
    (h : enter (.told A) expr limit c id span method signature none s = .ok (ty, t)) :
    A (method.name, signature) = some ty ∧ t = s := by
  cases hA : A (method.name, signature) with
  | none =>
    have hr : (Ways.told A).refuses c method signature none := ⟨rfl, hA⟩
    rw [enter_of_refuses hr] at h
    exact nomatch h
  | some ty' =>
    rw [enter_told_none hA] at h
    cases h
    exact ⟨rfl, rfl⟩

theorem enter_told_some {expr : Standing → Expr → Flow Ty} (b : Block Expr) :
    enter (.told A) expr limit c id span method signature (some b) =
      blockCall expr limit c id span method signature b :=
  enter_some fun h => nomatch h.1

theorem head?_of_notMem_tail {q : String × Signature} (hmem : q ∈ P) (h : q ∉ P.tail) :
    P.head? = some q := by
  cases hmem with
  | head => rfl
  | tail _ hmem => exact absurd hmem h

/-- What is known of a call that a run is not given up at, the facts say. -/
theorem fact_of_known (hs : s.module.Grounded limit D (pending c.under))
    (hA : A.Suppose c)
    (hsettled : (s.module.settled (pending c.under)).Within A) {q : String × Signature}
    (hown : q ∉ (pending c.under).tail) (hq : s.module.known q = some ty) : A q = some ty := by
  by_cases hmem : q ∈ pending c.under
  · rw [← hq, hs.pending q hmem]
    exact hA q (head?_of_notMem_tail hmem hown)
  · exact hsettled q ty (Module.settled_eq_some_iff.2 ⟨hmem, hq⟩)

theorem settles_observe (name : String) (ty : Ty) :
    Replays (settling limit D P A) (updateMethod name (·.observe signature ty))
      (updateMethod name (·.observe signature ty)) := by
  intro s _ t hs hrun
  cases hrun
  refine ⟨Module.Grounded.observe hs, fun K hK => ⟨⟨?_, hK.2⟩, .inr ⟨_, rfl, fun M hM => ⟨hM.1, ?_⟩⟩⟩⟩
  · exact Module.settled_observe (M := s.module) ▸ hK.1
  · exact (Module.definition?_observe K name signature ty).trans hM.2

section
variable (h : ∀ {c c' A e}, c.Inner c' → c.DefFree → e.defFree → A.Suppose c →
    Replays (settling limit D (pending c.under) A) (Flow.expr .own limit fuel c e)
      (Flow.expr (.told A) limit fuel c' e))
include h

theorem settles_methodBody (hc : (c.inside method signature block).DefFree)
    (hinner : (c.inside method signature block).Inner (c'.inside method signature block))
    (hdepth : c'.depth ≤ c.depth) (hmethod : ∀ e ∈ method.definition.body, e.defFree)
    (hA : A.Suppose (c.inside method signature block))
    (hk : k.definition = method.definition) :
    Replays (settling limit D (pending (c.inside method signature block).under) A)
      (methodBody (Flow.expr .own limit fuel) limit c id span method signature block)
      (methodBody (Flow.expr (.told A) limit fuel) limit c' id' span' k signature block) := by
  refine .methodBody hk (fun hlimit => .inl (Nat.le_trans hlimit hdepth)) ?_
  exact (Replays.congruence _).body fun e he => h hinner hc (hmethod e he) hA

variable (hD : D.DefFree)
include hD

/-- What the body of a call without a block has in a run, it has from facts. -/
theorem gives_of_run {q : String × Signature} (hq : q = (method.name, signature))
    (hs : s.module.Grounded limit D (q :: pending c.under))
    (hd : D method.name = some method.definition)
    (hrun : methodBody (Flow.expr .own limit fuel) limit c id span method signature none s =
      .ok (ty, t)) :
    t.module.Grounded limit D (q :: pending c.under) ∧
      (s.module.settled (q :: pending c.under)).Within (t.module.settled (q :: pending c.under)) ∧
      ∀ A, ((t.module.settled (q :: pending c.under)).supposing q).Within A →
        A.Gives limit D q ty := by
  subst hq
  let q : String × Signature := (method.name, signature)
  have hreplays {A : Facts} (hA : A q = some .nil) (id' : NodeId) (span' : Span) {k : Method}
      (hk : k.definition = method.definition) :
      Replays (settling limit D (q :: pending c.under) A)
        (methodBody (Flow.expr .own limit fuel) limit c id span method signature none)
        (methodBody (Flow.expr (.told A) limit fuel) limit .top id' span' k signature none) :=
    settles_methodBody h (fun _ hb => absurd hb List.not_mem_nil) (.inside_none c)
      (Nat.zero_le c.depth) (hD _ _ hd) (by rintro _ ⟨⟩; exact hA) hk
  have hne {M : Module} {r : String × Signature} {ty : Ty}
      (hr : M.settled (q :: pending c.under) r = some ty) : r ≠ q :=
    fun hrq => (Module.settled_eq_some_iff.1 hr).1 (hrq ▸ List.mem_cons_self)
  -- Replayed from what it has found out itself, the body shows that this only grew on the way.
  have hself := hreplays (A := (t.module.settled (q :: pending c.under)).supposing q)
    Facts.supposing_self id span rfl hs hrun
  refine ⟨hself.1, fun r ty' hr => ?_, fun A hA => ?_⟩
  -- `q` is under inference, so it is settled neither before nor behind the body.
  · have hahead := (hself.2 t.module ⟨fun r ty' hr => ?_, hself.1.definitions⟩).1.1 r ty' hr
    · rwa [Facts.supposing_ne (hne hr)] at hahead
    · rwa [Facts.supposing_ne (hne hr)]
  · refine ⟨method.definition, fuel, hd, fun k id' span' u hk hu => ?_⟩
    have hahead : (settling limit D (q :: pending c.under) A).Ahead t.module u.module :=
      ⟨fun r ty' hr => hA.of_supposing (hne hr) hr, hu⟩
    obtain ⟨-, hn⟩ := (hreplays hA.supposed id' span' hk hs hrun).2 u.module hahead
    obtain ⟨K, hn, hK⟩ := hn.resolve_left fun ⟨_, hf, _⟩ => hf
    rw [methodBody_none_congr (u := u) (s := { s with module := u.module }) rfl, hn]
    exact ⟨K, rfl, (hK _ hahead).2⟩

theorem settles_firstCall (hs : s.module.Grounded limit D (pending c.under))
    (hm : s.module.method? method.name = some method) (hnew : method.returns? signature = none)
    (hrun : firstCall (Flow.expr .own limit fuel) limit c id span method signature s = .ok (ty, t)) :
    t = { s with module := t.module } ∧ t.module.Grounded limit D (pending c.under) ∧
      (s.module.settled (pending c.under)).Within (t.module.settled (pending c.under)) ∧
      t.module.settled (pending c.under) (method.name, signature) = some ty := by
  have hname := Module.isSome_definition? hm
  have hnew := (Module.known_of_method? hm).trans hnew
  have hq := hs.toAmid.notMem_of_new hnew
  have hd : D method.name = some method.definition := by
    rw [← hs.definitions]; exact Module.definition?_of_method? hm
  obtain ⟨M, hbody, rfl⟩ := firstCall_ok hrun
  obtain ⟨hs₂, hgrow, hgives⟩ := gives_of_run h hD
    (s := { s with module := s.module.updateMethod method.name _ }) rfl (hs.start hname hnew) hd
    hbody
  have hname₂ : (M.definition? method.name).isSome := by rw [hs₂.definitions, hd]; rfl
  refine ⟨rfl, hs₂.finish hname₂ hq hgives, ?_, ?_⟩
  · rw [Module.settled_finish hname₂ hq]
    rw [Module.settled_start hname hnew] at hgrow
    exact hgrow.trans (.update (if_pos List.mem_cons_self))
  · rw [Module.settled_finish hname₂ hq, Function.update_self]

theorem settles_plainCall (hA : A.Suppose c)
    (hs : s.module.Grounded limit D (pending c.under))
    (hm : s.module.method? method.name = some method)
    (hown : ¬ Ways.own.refuses c method signature none)
    (hrun : plainCall .own (Flow.expr .own limit fuel) limit c id span method signature s =
      .ok (ty, t)) :
    t.module.Grounded limit D (pending c.under) ∧
      ((t.module.settled (pending c.under)).Within A →
        t = { s with module := t.module } ∧ (s.module.settled (pending c.under)).Within A ∧
          A (method.name, signature) = some ty) := by
  cases hknown : method.returns? signature with
  | some ty' =>
    rw [plainCall_of_some (w := .own) hknown] at hrun
    cases hrun
    refine ⟨hs, fun hwithin => ⟨rfl, hwithin, ?_⟩⟩
    exact fact_of_known hs hA hwithin hown ((Module.known_of_method? hm).trans hknown)
  | none =>
    rw [plainCall_of_none (w := .own) hknown] at hrun
    obtain ⟨ht, hsound, hgrow, hq⟩ := settles_firstCall h hD hs hm hknown hrun
    exact ⟨hsound, fun hwithin => ⟨ht, hgrow.trans hwithin, hwithin _ _ hq⟩⟩

theorem settles_dispatch (hinner : c.Inner c') (hc : c.DefFree)
    (hblock : ∀ b, block = some b → ∀ e ∈ b.body, e.defFree)
    (hA : A.Suppose c) (name : String)
    (nameSpan : Span) :
    Replays (settling limit D (pending c.under) A)
      (dispatch (enter .own (Flow.expr .own limit fuel) limit) c id span name nameSpan signature block)
      (dispatch (enter (.told A) (Flow.expr (.told A) limit fuel) limit) c' id' span' name nameSpan
        signature block) := by
  refine .dispatch (fun {M K method} hM hK hm => ?_) (fun {s ty t method} hs hm hrun => ?_) nameSpan
  · refine Module.exists_of_definition? ?_
    rw [hK.2, ← (Module.Grounded.toAmid hM).definitions]
    exact Module.definition?_of_method? hm
  obtain rfl := Module.name_of_method? hm
  have hown : ¬ Ways.own.refuses c method signature block := fun hr => by
    rw [enter_of_refuses hr] at hrun; exact nomatch hrun
  cases block with
  | none =>
    rw [enter_none hown] at hrun
    obtain ⟨ht, hA⟩ := settles_plainCall h hD hA hs hm hown hrun
    refine ⟨ht, fun K hK => ?_⟩
    obtain ⟨hsame, hwithin, hA⟩ := hA hK.1
    refine ⟨⟨hwithin, hK.2⟩, fun k _ hk => .inr ⟨K, ?_, fun _ hM => hM⟩⟩
    have hkA : A (k.name, signature) = some ty := by unfold Method.name; rw [hk]; exact hA
    rw [enter_told_none hkA, hsame]
  | some b =>
    rw [enter_some hown] at hrun
    have hd : D method.name = some method.definition := by
      rw [← (Module.Grounded.toAmid hs).definitions]; exact Module.definition?_of_method? hm
    have hreplays {k : Method} (hk : k.definition = method.definition) :
        Replays (settling limit D (pending c.under) A)
          (blockCall (Flow.expr .own limit fuel) limit c id span method signature b)
          (blockCall (Flow.expr (.told A) limit fuel) limit c' id' span' k signature b) := by
      have hinside : (c.inside method signature (some b)).DefFree :=
        List.forall_mem_cons.2 ⟨hblock b rfl, hc⟩
      refine .blockCall hk (hinner.mem_active_iff hown).symm (fun ty => settles_observe _ ty) ?_
      exact settles_methodBody h hinside (hinner.inside_some b) hinner.depth (hD _ _ hd) hA rfl
    refine ⟨(hreplays rfl hs hrun).1, fun K hK => ⟨((hreplays rfl hs hrun).2 K hK).1, ?_⟩⟩
    intro k _ hk
    rw [enter_told_some]
    exact ((hreplays hk hs hrun).2 K hK).2

end

/-- What an evaluation that is not given up has given, it gives from facts that say what is known
at its end. -/
theorem settles_expr (limit fuel : Nat) (hD : D.DefFree)
    (hinner : c.Inner c') (hc : c.DefFree) {e : Expr} (he : e.defFree)
    (hA : A.Suppose c) :
    Replays (settling limit D (pending c.under) A) (Flow.expr .own limit fuel c e)
      (Flow.expr (.told A) limit fuel c' e) := by
  -- The facts are general, since each body that is inferred on the way has a call of its own that
  -- something is supposed of.
  induction fuel generalizing c c' A e with
  | zero => exact fun _ _ _ _ hrun => nomatch hrun
  | succ fuel ih =>
    have hih {c c' : Standing} {A : Facts} {e : Expr} (hinner : c.Inner c') (hc : c.DefFree)
        (he : e.defFree) (hA : A.Suppose c) := ih hinner hc he hA
    refine (Replays.congruence _).layer_of_defFree (.inr rfl) hinner.method? hinner.blocks hc he
      (fun part hp => ih hinner hc hp hA)
      (fun outer method? houter stmt hstmt => ih (hinner.outer outer method?) houter hstmt hA)
      fun name nameSpan block hblock signature => ?_
    exact settles_dispatch hih hD hinner hc hblock hA name nameSpan

end Flow

end FlowTyping
