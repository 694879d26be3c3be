import FlowTyping.Proofs.Methods
import FlowTyping.Proofs.Occurrences
import FlowTyping.Proofs.Replay
import Mathlib.Data.Set.Basic
import Mathlib.Logic.Relation

/-!
# Calls that are evaluated afresh

With `Ways.afresh` the body of a method is evaluated at every call, whatever is known of the call.
What such a call returns hangs only on the definitions that the method reaches: `Returns`.  A run is
given up where it calls a method whose body is under inference, and where a definition takes the place
of another one inside a call without a block; what reaches a type without that reaches it again from
all modules with the same definitions (`Flow.returns_of_run`).
-/

namespace FlowTyping

/-- What names are defined as. -/
abbrev Definitions := String → Option (Definition Expr)

/-- The one name is the other, or is defined by something that mentions a name that reaches it. -/
def Definitions.Reaches (D : Definitions) : String → String → Prop :=
  Relation.ReflTransGen fun x y => ∃ d, D x = some d ∧ y ∈ d.mentions

/-- The ends of a run that say nothing about what it would have given. -/
def Halt.Excused : Halt → Prop
  | error e => ∃ name limit, e.cause = .recursionLimitExceeded name limit
  | outOfFuel | refused => True
  | replaced => False

namespace Standing

/-- The body of a method that was called without a block is under inference. -/
def InPlain (c : Standing) : Prop := ∃ d signature, (d, some signature) ∈ c.under

/-- All that the blocks in force mention is in a set. -/
def Within (S : Set String) (c : Standing) : Prop :=
  ∀ b ∈ c.blocks, ∀ e ∈ b.1.body, ∀ y ∈ e.mentions, y ∈ S

/-- The body of the method is under inference, or the call with the block is under way. -/
def Reenters (c : Standing) (method : Method) (signature : Signature)
    (block : Option (Block Expr)) : Prop :=
  (∃ signature?, (method.definition, signature?) ∈ c.under) ∨
    ∃ b, block = some b ∧ ⟨method.name, signature, b.id⟩ ∈ c.active

end Standing

/-- Every call evaluates the body of the method. -/
def Ways.afresh : Ways where
  known := fun _ _ => none
  refuses := Standing.Reenters
  replaces := fun c M d => c.InPlain ∧ ∃ old, M.definition? d.name.name = some old ∧ old ≠ d

/-! ### Runs among the same definitions -/

/-- The second run has the definitions `D`, and the first one has the same ones for the names in
`S`. -/
def again (S : Set String) (D : Definitions) : Replay where
  Fit := fun M => ∀ x ∈ S, ∀ d, M.definition? x = some d → ∀ y ∈ d.mentions, y ∈ S
  Ahead := fun M K => (∀ x ∈ S, ∀ d, M.definition? x = some d → D x = some d) ∧ K.definition? = D
  Excuse := Halt.Excused
  fit_congr := by
    intro M M' h hM
    rw [← Module.definition?_congr h]; exact hM
  ahead_congr := by
    intro M M' K K' hM hK h
    rw [← Module.definition?_congr hM, ← Module.definition?_congr hK]; exact h

namespace Flow
variable {S : Set String} {D : Definitions} {limit fuel fuel' : Nat} {c c' : Standing}
  {id id' : NodeId} {span span' : Span} {method k : Method} {signature : Signature}
  {block : Option (Block Expr)}

theorem again_updateMethod {f g : Method → Method} (hf : ∀ m, (f m).definition = m.definition)
    (hg : ∀ m, (g m).definition = m.definition) (name name' : String) :
    Replays (again S D) (updateMethod name f) (updateMethod name' g) := by
  intro s a t hs hrun
  cases hrun
  have hM := Module.definition?_updateMethod hf s.module name
  refine ⟨fun x hx d hd => hs x hx d (by rwa [hM] at hd), fun K hK => ⟨⟨?_, hK.2⟩, .inr ?_⟩⟩
  · intro x hx d hd
    exact hK.1 x hx d (by rw [hM]; exact hd)
  · refine ⟨_, rfl, fun M hMK => ⟨hMK.1, ?_⟩⟩
    rw [Module.definition?_updateMethod hg]; exact hMK.2

theorem again_define (hc : c.InPlain) {d : Definition Expr} (hname : d.name.name ∈ S)
    (hd : ∀ y ∈ d.mentions, y ∈ S) :
    Replays (again S D) (define .afresh c d) (define .afresh c' d) := by
  intro s ty t hs hrun
  by_cases hr : Ways.afresh.replaces c s.module d
  · rw [define_of_replaces hr] at hrun; exact nomatch hrun
  rw [define_of_not hr] at hrun
  cases hrun
  have hsame : ∀ old, s.module.definition? d.name.name = some old → old = d :=
    fun old hold => by_contra fun hne => hr ⟨hc, old, hold, hne⟩
  refine ⟨fun x hx d' hd' => ?_, fun K ⟨hagree, hD⟩ => ?_⟩
  · rw [Module.definition?_define] at hd'
    split at hd'
    · cases hd'; exact hd
    · exact hs x hx d' hd'
  have hDd : D d.name.name = some d :=
    hagree _ hname d (by rw [Module.definition?_define, if_pos rfl])
  have hKd : ¬ Ways.afresh.replaces c' K d := by
    rintro ⟨-, old, hold, hne⟩
    rw [hD, hDd] at hold
    exact hne (Option.some.inj hold).symm
  refine ⟨⟨fun x hx d' hd' => ?_, hD⟩, .inr ⟨K.define d, define_of_not hKd, fun M hM => ⟨hM.1, ?_⟩⟩⟩
  · by_cases hx' : x = d.name.name
    · subst hx'; rw [hsame d' hd']; exact hDd
    · exact hagree x hx d' (by rw [Module.definition?_define, if_neg hx']; exact hd')
  · funext x
    rw [Module.definition?_define]
    split
    · next hx => rw [hx]; exact hDd.symm
    · exact congrFun hD x

section
variable {expr expr' : Standing → Expr → Flow Ty}
  (h : ∀ c c' e, c.InPlain → c.blocks = c'.blocks → c.method? = c'.method? → c.Within S →
    (∀ y ∈ e.mentions, y ∈ S) → Replays (again S D) (expr c e) (expr' c' e))
include h

theorem again_body (hplain : c.InPlain) (hblocks : c.blocks = c'.blocks)
    (hmethod : c.method? = c'.method?) (hwithin : c.Within S) {stmts : List Expr}
    (hbody : ∀ y ∈ stmts.flatMap Expr.mentions, y ∈ S) :
    Replays (again S D) (body (expr c) stmts) (body (expr' c') stmts) :=
  (Replays.congruence (again S D)).body fun e he => h c c' e hplain hblocks hmethod hwithin
    fun y hy => hbody y (List.mem_flatMap.2 ⟨e, he, hy⟩)

theorem again_methodBody (hk : k.definition = method.definition)
    (hplain : (c.inside method signature block).InPlain)
    (hblocks : (c.inside method signature block).blocks = (c'.inside method signature block).blocks)
    (hwithin : (c.inside method signature block).Within S)
    (hbody : ∀ y ∈ method.definition.mentions, y ∈ S) :
    Replays (again S D) (methodBody expr limit c id span method signature block)
      (methodBody expr' limit c' id' span' k signature block) := by
  have hmethod : (c.inside method signature block).method? =
      (c'.inside method signature block).method? := by cases block <;> rfl
  refine .methodBody hk (fun _ => .inr fun e he => ⟨method.name, limit, he⟩) ?_
  exact again_body h hplain hblocks hmethod hwithin hbody

theorem again_enter (hplain : c.InPlain) (hblocks : c.blocks = c'.blocks)
    (hmethod : c.method? = c'.method?) (hwithin : c.Within S)
    (hblock : ∀ b, block = some b → ∀ e ∈ b.body, ∀ y ∈ e.mentions, y ∈ S)
    (hk : k.definition = method.definition) (hbody : ∀ y ∈ method.definition.mentions, y ∈ S) :
    Replays (again S D) (enter .afresh expr limit c id span method signature block)
      (enter .afresh expr' limit c' id' span' k signature block) := by
  by_cases hr : Ways.afresh.refuses c method signature block
  · rw [enter_of_refuses hr]; exact fun _ _ _ _ hrun => nomatch hrun
  have hrefused {m : Flow Ty} (hm : Grows (again S D) m) : Replays (again S D) m (throw .refused) :=
    hm.excused fun s => ⟨.refused, trivial, rfl⟩
  obtain ⟨d, signature', hunder⟩ := hplain
  cases block with
  | none =>
    have hcall : Replays (again S D) (firstCall expr limit c id span method signature)
        (firstCall expr' limit c' id' span' k signature) := by
      have hstore (ty : Ty) := again_updateMethod (S := S) (D := D) (f := (·.store signature ty))
        (g := (·.store signature ty)) (fun _ => rfl) (fun _ => rfl) method.name k.name
      have hbody' : Replays (again S D) (methodBody expr limit c id span method signature none)
          (methodBody expr' limit c' id' span' k signature none) :=
        again_methodBody h hk ⟨_, signature, List.mem_cons_self⟩ rfl
          (fun _ hb => absurd hb List.not_mem_nil) hbody
      exact (hstore .nil).bind fun _ => hbody'.bind fun ty => (hstore ty).bind fun _ => .give ty
    rw [enter_none hr, plainCall_of_none (w := .afresh) rfl]
    by_cases hr' : Ways.afresh.refuses c' k signature none
    · rw [enter_of_refuses hr']; exact hrefused hcall.grows
    · rw [enter_none hr', plainCall_of_none (w := .afresh) rfl]; exact hcall
  | some b =>
    have hnot {c : Standing} {m : Method} (hr : ¬ Ways.afresh.refuses c m signature (some b)) :
        ⟨m.name, signature, b.id⟩ ∉ c.active := fun hmem => hr (.inr ⟨b, rfl, hmem⟩)
    have hbody' : Replays (again S D) (methodBody expr limit c id span method signature (some b))
        (methodBody expr' limit c' id' span' k signature (some b)) := by
      refine again_methodBody h hk ⟨d, signature', List.mem_cons_of_mem _ hunder⟩ ?_
        (List.forall_mem_cons.2 ⟨hblock b rfl, hwithin⟩) hbody
      show (b, c.method?) :: c.blocks = (b, c'.method?) :: c'.blocks
      rw [hblocks, hmethod]
    have hcall := hbody'.bind fun ty =>
      (again_updateMethod (f := (·.observe signature ty)) (g := (·.observe signature ty))
        (fun _ => rfl) (fun _ => rfl) method.name k.name).bind fun _ => .give ty
    rw [enter_some hr, blockCall_of_notMem (hnot hr)]
    by_cases hr' : Ways.afresh.refuses c' k signature (some b)
    · rw [enter_of_refuses hr']; exact hrefused hcall.grows
    · rw [enter_some hr', blockCall_of_notMem (hnot hr')]; exact hcall

theorem again_dispatch (hplain : c.InPlain) (hblocks : c.blocks = c'.blocks)
    (hmethod : c.method? = c'.method?) (hwithin : c.Within S)
    (hblock : ∀ b, block = some b → ∀ e ∈ b.body, ∀ y ∈ e.mentions, y ∈ S) {name : String}
    (hname : name ∈ S) (nameSpan : Span) :
    Replays (again S D) (dispatch (enter .afresh expr limit) c id span name nameSpan signature block)
      (dispatch (enter .afresh expr' limit) c' id' span' name nameSpan signature block) := by
  have hfound {M K : Module} {method : Method} (hMK : (again S D).Ahead M K)
      (hm : M.method? name = some method) : K.definition? name = some method.definition := by
    rw [hMK.2]; exact hMK.1 name hname _ (Module.definition?_of_method? hm)
  refine .dispatch (fun _ hMK hm => Module.exists_of_definition? (hfound hMK hm))
    (fun {s ty t method} hs hm hrun => ?_) nameSpan
  have hbody := hs name hname _ (Module.definition?_of_method? hm)
  have hcall (k : Method) (hk : k.definition = method.definition) :=
    @again_enter S D limit c c' id id' span span' method k signature block expr expr' h hplain
      hblocks hmethod hwithin hblock hk hbody s ty t hs hrun
  refine ⟨(hcall method rfl).1, fun K hK => ⟨((hcall method rfl).2 K hK).1, fun k _ hk => ?_⟩⟩
  exact ((hcall k hk).2 K hK).2

end

/-- What an evaluation inside a call without a block has given, another one inside such a call gives
among definitions that are the same for all that is mentioned, unless it ends with an excuse. -/
theorem again_expr (fuel fuel' : Nat) (hplain : c.InPlain) (hblocks : c.blocks = c'.blocks)
    (hmethod : c.method? = c'.method?) (hwithin : c.Within S) {e : Expr}
    (he : ∀ y ∈ e.mentions, y ∈ S) :
    Replays (again S D) (Flow.expr .afresh limit fuel c e) (Flow.expr .afresh limit fuel' c' e) := by
  induction fuel generalizing fuel' c c' e with
  | zero => exact fun _ _ _ _ hrun => nomatch hrun
  | succ fuel ih =>
    have hstep (fuel' : Nat) {c' : Standing} (hblocks : c.blocks = c'.blocks)
        (hmethod : c.method? = c'.method?) : Replays (again S D)
          (Flow.expr .afresh limit (fuel + 1) c e) (Flow.expr .afresh limit (fuel' + 1) c' e) := by
      refine (Replays.congruence (again S D)).layer (.inl trivial) hmethod hblocks
        (fun part hp => ?_) (fun block method? outer hb stmt hstmt => ?_)
        (fun name nameSpan args block hform signature => ?_) fun d hform => ?_
      · exact ih fuel' hplain hblocks hmethod hwithin
          fun y hy => he y (Expr.mem_mentions_of_part hp hy)
      · rw [Standing.Within, hb] at hwithin
        obtain ⟨hblock, hwithin⟩ := List.forall_mem_cons.1 hwithin
        have hplain : Standing.InPlain { c with blocks := outer, method? } := hplain
        have hblocks : { c with blocks := outer, method? }.blocks =
            { c' with blocks := outer, method? }.blocks := rfl
        exact ih fuel' hplain hblocks rfl hwithin (hblock stmt hstmt)
      · have hih : ∀ c c' e, c.InPlain → c.blocks = c'.blocks → c.method? = c'.method? →
            c.Within S → (∀ y ∈ e.mentions, y ∈ S) →
            Replays (again S D) (Flow.expr .afresh limit fuel c e)
              (Flow.expr .afresh limit fuel' c' e) :=
          fun _ _ _ hc hb hm hw he => ih fuel' hc hb hm hw he
        refine again_dispatch hih hplain hblocks hmethod hwithin
          (fun b hb e' he' y hy => he y ?_) (he name ?_) nameSpan
        · refine Expr.mem_mentions_of_part ?_ hy
          rw [hform, hb]; exact List.mem_append_right args he'
        · exact Expr.mem_mentions_of_form (by rw [hform]; exact List.mem_singleton_self name)
      · refine again_define hplain (he _ ?_) fun y hy => he y ?_
        · exact Expr.mem_mentions_of_form (by rw [hform]; exact List.mem_singleton_self _)
        · obtain ⟨stmt, hstmt, hy⟩ := List.mem_flatMap.1 hy
          exact Expr.mem_mentions_of_part (by rw [hform]; exact hstmt) hy
    cases fuel' with
    | zero => exact (hstep fuel rfl rfl).grows.excused fun s => ⟨.outOfFuel, trivial, rfl⟩
    | succ fuel' => exact hstep fuel' hblocks hmethod

/-! ### What a call returns -/

/-- Among all definitions that agree with `D` on what is defined there and reached from `d`, the body
of `d` has a type and leaves the definitions as they are, unless it ends with an excuse. -/
def Returns (limit : Nat) (D : Definitions) (d : Definition Expr) (signature : Signature) (ty : Ty) :
    Prop :=
  ∀ (D' : Definitions), (∀ x, D.Reaches d.name.name x → ∀ d', D x = some d' → D' x = some d') →
    ∀ (method : Method) (c : Standing) (fuel : Nat) (id : NodeId) (span : Span) (s : Stacks),
      method.definition = d → s.module.definition? = D' →
      (∃ h, methodBody (Flow.expr .afresh limit fuel) limit c id span method signature none s =
          .error h ∧ h.Excused) ∨
        ∃ K, methodBody (Flow.expr .afresh limit fuel) limit c id span method signature none s =
          .ok (ty, { s with module := K }) ∧ K.definition? = D'

section
variable {s t : Stacks} {ty : Ty}

/-- Inside a call without a block definitions stay. -/
theorem definition?_of_run
    (h : methodBody (Flow.expr .afresh limit fuel) limit c id span method signature none s =
      .ok (ty, t)) {x : String} {d : Definition Expr} (hx : s.module.definition? x = some d) :
    t.module.definition? x = some d := by
  have hrun : Replays (again Set.univ t.module.definition?)
      (methodBody (Flow.expr .afresh limit fuel) limit c id span method signature none)
      (methodBody (Flow.expr .afresh limit fuel) limit c id span method signature none) :=
    again_methodBody (fun c c' e hc hb hm hw he => again_expr fuel fuel hc hb hm hw he) rfl
      ⟨_, signature, List.mem_cons_self⟩ rfl (fun _ hb => absurd hb List.not_mem_nil)
      fun _ _ => Set.mem_univ _
  obtain ⟨-, hgrow⟩ := hrun.grows (fun _ _ _ _ _ _ => Set.mem_univ _) h
  exact (hgrow t.module ⟨fun _ _ _ h => h, rfl⟩).1 x (Set.mem_univ x) d hx

/-- What the body of a method was seen to have, it has among all definitions of the kind. -/
theorem returns_of_run
    (h : methodBody (Flow.expr .afresh limit fuel) limit c id span method signature none s =
      .ok (ty, t)) (hm : s.module.definition? method.name = some method.definition) :
    Returns limit t.module.definition? method.definition signature ty := by
  intro D' hagree k c' fuel' id' span' s' hk hs'
  let S : Set String := { x | Definitions.Reaches t.module.definition? method.name x }
  have hfit : (again S D').Fit s.module := fun x hx d hd y hy =>
    Relation.ReflTransGen.tail hx ⟨d, definition?_of_run h hd, hy⟩
  have hrun : Replays (again S D')
      (methodBody (Flow.expr .afresh limit fuel) limit c id span method signature none)
      (methodBody (Flow.expr .afresh limit fuel') limit c' id' span' k signature none) :=
    again_methodBody (fun c c' e hc hb hm hw he => again_expr fuel fuel' hc hb hm hw he) hk
      ⟨_, signature, List.mem_cons_self⟩ rfl (fun _ hb => absurd hb List.not_mem_nil)
      fun y hy => hfit method.name .refl _ hm y hy
  have hahead : (again S D').Ahead t.module s'.module := ⟨fun x hx d hd => hagree x hx d hd, hs'⟩
  rw [methodBody_none_congr (u := s') (s := { s with module := s'.module }) rfl]
  rcases ((hrun hfit h).2 s'.module hahead).2 with ⟨e, he, hn⟩ | ⟨K, hn, hK⟩
  · rw [hn]; exact .inl ⟨e, rfl, he⟩
  · rw [hn]; exact .inr ⟨K, rfl, (hK t.module hahead).2⟩

/-- A call gives what the body of the method has. -/
theorem Returns.plainCall {d : Definition Expr} (h : Returns limit D d signature ty)
    (hd : method.definition = d) (hs : s.module.definition? = D) :
    (∃ e, plainCall .afresh (Flow.expr .afresh limit fuel) limit c id span method signature s =
        .error e ∧ e.Excused) ∨
      ∃ K, plainCall .afresh (Flow.expr .afresh limit fuel) limit c id span method signature s =
        .ok (ty, { s with module := K }) ∧ K.definition? = D := by
  rw [plainCall_of_none (w := .afresh) rfl]
  let s₁ : Stacks := { s with module := s.module.updateMethod method.name (·.store signature .nil) }
  have hs₁ : s₁.module.definition? = D := by
    rw [← hs]; exact Module.definition?_store _ _ _ _
  rcases h D (fun _ _ _ h => h) method c fuel id span s₁ hd hs₁ with ⟨e, hrun, he⟩ | ⟨K, hrun, hK⟩
  · refine .inl ⟨e, ?_, he⟩
    rw [firstCall_eq_map, hrun]
    rfl
  · refine .inr ⟨K.updateMethod method.name (·.store signature ty), ?_, ?_⟩
    · rw [firstCall_eq_map, hrun]; rfl
    · rw [← hK]; exact Module.definition?_store _ _ _ _

/-- Definitions that a definition does not reach do not matter, and neither do names that were not
defined. -/
theorem Returns.of_agree {d : Definition Expr} (h : Returns limit D d signature ty) {D' : Definitions}
    (hD : ∀ x, D.Reaches d.name.name x → ∀ d', D x = some d' →
      Definitions.Reaches D' d.name.name x ∧ D' x = some d') : Returns limit D' d signature ty :=
  fun D'' hagree => h D'' fun x hx d' hd' =>
    have ⟨hx', hd''⟩ := hD x hx d' hd'
    hagree x hx' d' hd''

end
end Flow
end FlowTyping
