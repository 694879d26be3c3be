import FlowTyping.Proofs.Methods
import FlowTyping.Proofs.Occurrences
import FlowTyping.Proofs.Replay

/-!
# Runs without definitions

Where nothing is defined the methods stay as they are, and what is known of their calls only grows:
`Module.Learns`.  So an evaluation that is repeated, from the same tables and with what is known after
it, gives the same (`Flow.replays_expr`): a call that was inferred the first time is answered with
the type that was found then.
-/

namespace FlowTyping

/-! ### Expressions without definitions -/

namespace Form

def isDefine : Form α → Bool
  | define _ => true
  | _ => false

@[simp] theorem isDefine_map (f : α → β) (form : Form α) : (form.map f).isDefine = form.isDefine := by
  rcases form with _ | _ | _ | ⟨_, _, _, _ | _⟩ | _ | _ | _ | _ <;> rfl

end Form

namespace Expr
variable {e part : Expr}

/-- Nothing is defined inside. -/
def defFree : Expr → Bool := fold fun _ _ form => !form.isDefine && form.parts.all fun b => b

theorem defFree_eq (e : Expr) : e.defFree = (!e.form.isDefine && e.form.parts.all defFree) := by
  rw [eta e, defFree, fold_node, Form.isDefine_map, Form.parts_map, List.all_map]; rfl

theorem defFree_part (h : e.defFree) (hp : part ∈ e.form.parts) : part.defFree := by
  rw [defFree_eq, Bool.and_eq_true] at h
  exact List.all_eq_true.1 h.2 part hp

theorem not_define_of_defFree (h : e.defFree) (d : Definition Expr) : e.form ≠ .define d := by
  intro hd
  rw [defFree_eq, hd] at h
  exact Bool.false_ne_true h

end Expr

/-- Definitions are top-level statements, and nothing is defined inside them. -/
def Program.defsAtTop (p : Program) : Bool := p.stmts.all fun e => e.form.parts.all Expr.defFree

theorem Program.Has.defFree_part {p : Program} {e part : Expr} (h : p.defsAtTop) (he : p.Has e)
    (hp : part ∈ e.form.parts) : part.defFree := by
  induction he generalizing part with
  | stmt he => exact List.all_eq_true.1 (List.all_eq_true.1 h _ he) part hp
  | part _ hpart ih => exact Expr.defFree_part (ih hpart) hp

/-! ### Modules that know more -/

namespace Module
variable {M N K : Module} {x name : String} {m method : Method} {signature : Signature} {ty : Ty}

/-- Nothing is defined in the bodies of the methods. -/
def DefFree (M : Module) : Prop := ∀ m ∈ M.methods, ∀ e ∈ m.definition.body, e.defFree

theorem DefFree.updateMethod (h : M.DefFree) {f : Method → Method}
    (hf : ∀ m, (f m).definition = m.definition) : (M.updateMethod name f).DefFree := by
  intro m hm e he
  obtain ⟨old, hold, rfl⟩ := List.mem_map.1 hm
  refine h old hold e ?_
  split at he
  · rwa [hf] at he
  · exact he

/-- The second module has the methods of the first one, and all that is known of their calls without
a block. -/
def Learns (M K : Module) : Prop :=
  ∀ x m, M.method? x = some m → ∃ k, K.method? x = some k ∧ k.definition = m.definition ∧
    ∀ signature ty, m.returns? signature = some ty → k.returns? signature = some ty

theorem Learns.refl (M : Module) : M.Learns M := fun _ m hm => ⟨m, hm, rfl, fun _ _ h => h⟩

theorem method?_congr {M' : Module} (h : M.methods = M'.methods) : M.method? x = M'.method? x := by
  unfold method?; rw [h]

theorem Learns.congr {M' K' : Module} (hM : M.methods = M'.methods) (hK : K.methods = K'.methods)
    (h : M.Learns K) : M'.Learns K' := by
  intro x m hm
  rw [← method?_congr hM] at hm
  rw [← method?_congr hK]
  exact h x m hm

/-- What is kept about calls with a block does not count. -/
theorem learns_observe : M.Learns (M.updateMethod name (·.observe signature ty)) := by
  intro x m hm
  rw [method?_observe]
  split
  · exact ⟨m.observe signature ty, by rw [hm]; rfl, rfl, fun _ _ h => h⟩
  · exact ⟨m, hm, rfl, fun _ _ h => h⟩

theorem Learns.trans {L : Module} (h₁ : M.Learns K) (h₂ : K.Learns L) : M.Learns L := by
  intro x m hm
  obtain ⟨k, hk, hkm, hkr⟩ := h₁ x m hm
  obtain ⟨l, hl, hlk, hlr⟩ := h₂ x k hk
  exact ⟨l, hl, hlk.trans hkm, fun signature ty h => hlr signature ty (hkr signature ty h)⟩

/-- A call that was inferred for the first time: `N` is the module after the body of the method.  The
signature counts as returning `Nil` meanwhile, which is not known any longer behind it; so the facts
known at the end are compared with the others over a module that says `Nil` there. -/
theorem Learns.of_firstCall (hm : M.method? name = some method)
    (hnew : method.returns? signature = none)
    (hbody : ∀ K, N.Learns K → (M.updateMethod name (·.store signature .nil)).Learns K)
    (hK : (N.updateMethod name (·.store signature ty)).Learns K) :
    M.Learns K ∧ ∃ k, K.method? name = some k ∧ k.returns? signature = some ty := by
  have hstored {L : Module} {ty : Ty} {l : Method} (hl : L.method? name = some l) :
      (L.updateMethod name (·.store signature ty)).method? name = some (l.store signature ty) := by
    rw [method?_store, if_pos rfl, hl]; rfl
  have hother {L : Module} {ty : Ty} {x : String} (hx : x ≠ name) :
      (L.updateMethod name (·.store signature ty)).method? x = L.method? x := by
    rw [method?_store, if_neg hx]
  obtain ⟨n, hn, -, hnr⟩ := hbody N (.refl N) name _ (hstored hm)
  have hnil : n.returns? signature = some .nil :=
    hnr _ _ (by rw [Method.returns?_store, if_pos rfl])
  obtain ⟨k, hk, hkn, hkr⟩ := hK name _ (hstored hn)
  have hNK : N.Learns (K.updateMethod name (·.store signature .nil)) := by
    intro x m hxm
    by_cases hx : x = name
    · subst hx
      cases hn.symm.trans hxm
      refine ⟨_, hstored hk, hkn, fun other ty' h => ?_⟩
      rw [Method.returns?_store]
      split
      · next heq => subst heq; exact hnil.symm.trans h
      · next hne => exact hkr other ty' (by rw [Method.returns?_store, if_neg hne]; exact h)
    · rw [hother hx]
      exact hK x m (by rw [hother hx]; exact hxm)
  refine ⟨fun x m hxm => ?_, k, hk, hkr _ _ (by rw [Method.returns?_store, if_pos rfl])⟩
  by_cases hx : x = name
  · subst hx
    cases hm.symm.trans hxm
    obtain ⟨_, hk', hkm, hkr'⟩ := hbody _ hNK x _ (hstored hm)
    cases (hstored hk).symm.trans hk'
    refine ⟨k, hk, hkm, fun other ty' h => ?_⟩
    have hne : other ≠ signature := fun heq => by rw [heq, hnew] at h; exact nomatch h
    have := hkr' other ty' (by rw [Method.returns?_store, if_neg hne]; exact h)
    rwa [Method.returns?_store, if_neg hne] at this
  · have := hbody _ hNK x m (by rw [hother hx]; exact hxm)
    rwa [hother hx] at this

end Module

/-! ### Replays -/

/-- The second run knows what the first one knows at its end. -/
def learning : Replay where
  Fit := Module.DefFree
  Ahead := Module.Learns
  Excuse := fun _ => False
  fit_congr h hM := by unfold Module.DefFree; rw [← h]; exact hM
  ahead_congr := Module.Learns.congr

/-- Nothing is defined in the blocks in force. -/
def Standing.DefFree (c : Standing) : Prop := ∀ b ∈ c.blocks, ∀ e ∈ b.1.body, e.defFree

namespace Flow

/-- A node inside which nothing is defined. -/
theorem Congruence.layer_of_defFree {R : ∀ {α : Type}, Flow α → Flow α → Prop}
    {fuels : Nat → Nat → Prop} (hR : Congruence R fuels) {w₁ w₂ : Ways}
    {expr₁ expr₂ : Standing → Expr → Flow Ty} {entry₁ entry₂ : Entry} {fuel₁ fuel₂ : Nat}
    {c₁ c₂ : Standing} (hf : fuels fuel₁ fuel₂) (hmethod : c₁.method? = c₂.method?)
    (hblocks : c₁.blocks = c₂.blocks) (hc : c₁.DefFree) {e : Expr} (he : e.defFree)
    (hparts : ∀ part, part.defFree → R (expr₁ c₁ part) (expr₂ c₂ part))
    (hblock : ∀ outer method?, Standing.DefFree { c₁ with blocks := outer, method? } →
      ∀ stmt, stmt.defFree → R (expr₁ { c₁ with blocks := outer, method? } stmt)
        (expr₂ { c₂ with blocks := outer, method? } stmt))
    (hcall : ∀ name nameSpan block, (∀ b, block = some b → ∀ stmt ∈ b.body, stmt.defFree) →
      ∀ signature, R (dispatch entry₁ c₁ e.id e.span name nameSpan signature block)
        (dispatch entry₂ c₂ e.id e.span name nameSpan signature block)) :
    R (Flow.layer w₁ expr₁ entry₁ fuel₁ c₁ e) (Flow.layer w₂ expr₂ entry₂ fuel₂ c₂ e) := by
  refine hR.layer hf hmethod hblocks (fun part hp => hparts part (Expr.defFree_part he hp))
    (fun block method? outer hb stmt hstmt => ?_)
    (fun name nameSpan args block hform => hcall name nameSpan block fun b hb stmt hstmt => ?_)
    fun d hd => absurd hd (Expr.not_define_of_defFree he d)
  · rw [Standing.DefFree, hb] at hc
    obtain ⟨hhere, houter⟩ := List.forall_mem_cons.1 hc
    exact hblock outer method? houter stmt (hhere stmt hstmt)
  · refine Expr.defFree_part he ?_
    rw [hform, hb]
    exact List.mem_append_right args hstmt

variable {expr : Standing → Expr → Flow Ty} {limit : Nat} {c : Standing} {id : NodeId} {span : Span}
  {method k : Method} {signature : Signature} {s t : Stacks} {ty : Ty} {K : Module}

section
variable (h : ∀ c e, c.DefFree → e.defFree → Replays learning (expr c e) (expr c e))
include h

theorem replays_methodBody (hc : c.DefFree) (hbody : ∀ e ∈ method.definition.body, e.defFree)
    {block : Option (Block Expr)} (hblock : ∀ b, block = some b → ∀ e ∈ b.body, e.defFree) :
    Replays learning (methodBody expr limit c id span method signature block)
      (methodBody expr limit c id span method signature block) := by
  have hinside : (c.inside method signature block).DefFree := by
    cases block with
    | none => exact fun _ hb => absurd hb List.not_mem_nil
    | some b => exact List.forall_mem_cons.2 ⟨hblock b rfl, hc⟩
  refine .methodBody rfl .inl ((Replays.congruence learning).body fun e he => ?_)
  exact h _ e hinside (hbody e he)

theorem replays_blockCall (hc : c.DefFree) (hbody : ∀ e ∈ method.definition.body, e.defFree)
    {block : Block Expr} (hblock : ∀ e ∈ block.body, e.defFree) :
    Replays learning (blockCall expr limit c id span method signature block)
      (blockCall expr limit c id span method signature block) := by
  refine .blockCall rfl Iff.rfl (fun ty s _ t hs hrun => ?_)
    (replays_methodBody h hc hbody fun b hb => Option.some.inj hb ▸ hblock)
  cases hrun
  refine ⟨Module.DefFree.updateMethod hs fun _ => rfl, fun K hK => ?_⟩
  exact ⟨Module.learns_observe.trans hK,
    .inr ⟨_, rfl, fun M hM => Module.Learns.trans hM Module.learns_observe⟩⟩

/-- A call without a block that went well goes well with what is known then, and at once. -/
theorem replays_plainCall (hc : c.DefFree) (hs : s.module.DefFree)
    (hm : s.module.method? method.name = some method)
    (hrun : plainCall .plain expr limit c id span method signature s = .ok (ty, t)) :
    t.module.DefFree ∧ ∀ K, t.module.Learns K → s.module.Learns K ∧
      ∀ k, K.method? method.name = some k →
        plainCall .plain expr limit c id span k signature { s with module := K } =
          .ok (ty, { t with module := K }) := by
  have hit {k : Method} (hk : k.returns? signature = some ty) (s : Stacks) :
      plainCall .plain expr limit c id span k signature s = .ok (ty, s) := by
    rw [plainCall_of_some (w := .plain) hk]; rfl
  cases hr : method.returns? signature with
  | some ty' =>
    rw [plainCall_of_some (w := .plain) hr] at hrun
    cases hrun
    refine ⟨hs, fun K hK => ⟨hK, fun k hk => hit ?_ _⟩⟩
    obtain ⟨_, hk', -, hkr⟩ := hK _ _ hm
    cases hk.symm.trans hk'
    exact hkr _ _ hr
  | none =>
    rw [plainCall_of_none (w := .plain) hr] at hrun
    obtain ⟨M, hbody, rfl⟩ := firstCall_ok hrun
    have hdefFree := hs _ (Module.mem_of_method? hm)
    have hs₁ : (s.module.updateMethod method.name (·.store signature .nil)).DefFree :=
      hs.updateMethod fun _ => rfl
    obtain ⟨hs₂, hgrow⟩ := (replays_methodBody h hc hdefFree (by rintro _ ⟨⟩)).grows
      (s := { s with module := s.module.updateMethod method.name _ }) hs₁ hbody
    refine ⟨Module.DefFree.updateMethod hs₂ fun _ => rfl, fun K hK => ?_⟩
    obtain ⟨hMK, k', hk', hkr⟩ := Module.Learns.of_firstCall hm hr hgrow hK
    refine ⟨hMK, fun k hk => ?_⟩
    cases hk.symm.trans hk'
    exact hit hkr _

theorem replays_enter (hc : c.DefFree) (hs : s.module.DefFree)
    (hm : s.module.method? method.name = some method) {block : Option (Block Expr)}
    (hblock : ∀ b, block = some b → ∀ e ∈ b.body, e.defFree)
    (hrun : enter .plain expr limit c id span method signature block s = .ok (ty, t)) :
    t.module.DefFree ∧ ∀ K, t.module.Learns K → s.module.Learns K ∧
      ∀ k, K.method? method.name = some k → ∃ K',
        enter .plain expr limit c id span k signature block { s with module := K } =
          .ok (ty, { t with module := K' }) ∧ ∀ M : Module, M.Learns K → M.Learns K' := by
  cases block with
  | none =>
    rw [enter_none not_false] at hrun
    obtain ⟨ht, hK⟩ := replays_plainCall h hc hs hm hrun
    refine ⟨ht, fun K hKt => ⟨(hK K hKt).1, fun k hk => ⟨K, ?_, fun _ hM => hM⟩⟩⟩
    rw [enter_none not_false]
    exact (hK K hKt).2 k hk
  | some b =>
    rw [enter_some not_false] at hrun
    have hbody := hs _ (Module.mem_of_method? hm)
    obtain ⟨ht, hK⟩ := replays_blockCall h hc hbody (hblock b rfl) hs hrun
    refine ⟨ht, fun K hKt => ⟨(hK K hKt).1, fun k hk => ?_⟩⟩
    obtain ⟨_, hk', hdefinition, -⟩ := (hK K hKt).1 _ _ hm
    cases hk.symm.trans hk'
    rw [enter_some not_false, blockCall_congr hdefinition]
    exact (hK K hKt).2.resolve_left fun ⟨_, hf, _⟩ => hf

theorem replays_dispatch (hc : c.DefFree) {block : Option (Block Expr)}
    (hblock : ∀ b, block = some b → ∀ e ∈ b.body, e.defFree) (name : String) (nameSpan : Span) :
    Replays learning
      (dispatch (enter .plain expr limit) c id span name nameSpan signature block)
      (dispatch (enter .plain expr limit) c id span name nameSpan signature block) := by
  refine .dispatch (fun {M K method} _ hMK hm => ?_) (fun {s ty t method} hs hm hrun => ?_) nameSpan
  · obtain ⟨k, hk, hdefinition, -⟩ := hMK name method hm
    exact ⟨k, hk, hdefinition⟩
  · obtain rfl := Module.name_of_method? hm
    obtain ⟨ht, hK⟩ := replays_enter h hc hs hm hblock hrun
    exact ⟨ht, fun K hKt => ⟨(hK K hKt).1, fun k hk _ => .inr ((hK K hKt).2 k hk)⟩⟩

end

/-- Where nothing is defined, what is known at the end gives everything that was found out. -/
theorem replays_expr (limit fuel : Nat) (hc : c.DefFree) {e : Expr} (he : e.defFree) :
    Replays learning (Flow.expr .plain limit fuel c e) (Flow.expr .plain limit fuel c e) := by
  induction fuel generalizing c e with
  | zero => exact fun _ _ _ _ hrun => nomatch hrun
  | succ fuel ih =>
    refine (Replays.congruence learning).layer_of_defFree (.inr rfl) rfl rfl hc he
      (fun part hp => ih hc hp) (fun outer method? houter stmt hstmt => ih houter hstmt)
      fun name nameSpan block hblock signature => ?_
    exact replays_dispatch (fun c e hc he => ih hc he) hc hblock name nameSpan

end Flow
end FlowTyping
