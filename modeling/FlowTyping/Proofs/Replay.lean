import FlowTyping.Proofs.Congruence

/-!
# Running again with what is known by then

`Flow.Replays r m n`: whatever `m` gives from a state, `n` gives from the same tables and a module
that is ahead of the one that `m` ends with, unless it ends with an excuse.  So the second of two runs
need not find out again what the first one did.  What being ahead means is left open (`Replay`); it
goes through everything but calls and definitions (`Replays.congruence`).
-/

namespace FlowTyping

/-- What a second run knows of a first one. -/
structure Replay where
  /-- What holds of the modules along the first run. -/
  Fit : Module → Prop
  /-- The second module has what matters of the first one. -/
  Ahead : Module → Module → Prop
  /-- How the second run may end without giving what the first one does. -/
  Excuse : Halt → Prop
  fit_congr : ∀ {M M' : Module}, M.methods = M'.methods → Fit M → Fit M'
  ahead_congr : ∀ {M M' K K' : Module}, M.methods = M'.methods → K.methods = K'.methods →
    Ahead M K → Ahead M' K'

namespace Flow

variable {r : Replay} {m n : Flow α} {f g : α → Flow β}

/-- A step behind which nothing is lost that a module ahead of it has. -/
def Grows (r : Replay) (m : Flow α) : Prop :=
  ∀ ⦃s a t⦄, r.Fit s.module → m s = .ok (a, t) →
    r.Fit t.module ∧ ∀ K, r.Ahead t.module K → r.Ahead s.module K

/-- What the one step gives, the other one gives from a module that is ahead. -/
def Replays (r : Replay) (m n : Flow α) : Prop :=
  ∀ ⦃s a t⦄, r.Fit s.module → m s = .ok (a, t) →
    r.Fit t.module ∧ ∀ K, r.Ahead t.module K →
      r.Ahead s.module K ∧
        ((∃ h, r.Excuse h ∧ n { s with module := K } = .error h) ∨
          ∃ K', n { s with module := K } = .ok (a, { t with module := K' }) ∧
            ∀ M, r.Ahead M K → r.Ahead M K')

/-- A second run that always ends with an excuse. -/
theorem Grows.excused (h : Grows r m) (hn : ∀ s, ∃ e, r.Excuse e ∧ n s = .error e) :
    Replays r m n := by
  intro s a t hs hm
  obtain ⟨ht, hK⟩ := h hs hm
  exact ⟨ht, fun K hKt => ⟨hK K hKt, .inl (hn _)⟩⟩

namespace Replays

theorem grows (h : Replays r m n) : Grows r m := fun _ _ _ hs hm =>
  ⟨(h hs hm).1, fun K hK => ((h hs hm).2 K hK).1⟩

theorem bind (h : Replays r m n) (hf : ∀ a, Replays r (f a) (g a)) :
    Replays r (m >>= f) (n >>= g) := by
  intro s b u hs hrun
  obtain ⟨a, t, hm, hft⟩ := bind_eq_ok_iff.1 hrun
  obtain ⟨ht, hm⟩ := h hs hm
  obtain ⟨hu, hft⟩ := hf a ht hft
  refine ⟨hu, fun K hK => ?_⟩
  obtain ⟨hKs, hn⟩ := hm K (hft K hK).1
  refine ⟨hKs, ?_⟩
  rcases hn with ⟨e, he, hn⟩ | ⟨K₁, hn, hK₁⟩
  · exact .inl ⟨e, he, bind_of_error hn⟩
  · rw [bind_of_ok hn]
    rcases (hft K₁ (hK₁ _ hK)).2 with hg | ⟨K₂, hg, hK₂⟩
    · exact .inl hg
    · exact .inr ⟨K₂, hg, fun M hM => hK₂ M (hK₁ M hM)⟩

theorem give (a : α) : Replays r (pure a) (pure a) := by
  intro s b t hs hrun
  cases hrun
  exact ⟨hs, fun K hK => ⟨hK, .inr ⟨K, rfl, fun _ hM => hM⟩⟩⟩

theorem elsewhere (params : List (Ident × Ty)) (h : Replays r m n)
    {go : List Bindings → List (List Bindings) → List Bindings × List (List Bindings)}
    {back : List Bindings → List (List Bindings) → List Bindings → List (List Bindings) →
      List Bindings × List (List Bindings)} :
    Replays r (elsewhere params m go back) (elsewhere params n go back) := by
  intro s a u hs hrun
  have hmethods (M : Module) : (M.recordParams params).methods = M.methods :=
    Module.methods_recordParams params M
  obtain ⟨t, hm, rfl⟩ := elsewhere_ok hrun
  obtain ⟨ht, hn⟩ := h (r.fit_congr (hmethods _).symm hs) hm
  refine ⟨ht, fun K hK => ?_⟩
  obtain ⟨hKs, hn⟩ := hn _ (r.ahead_congr rfl (hmethods K).symm hK)
  refine ⟨r.ahead_congr (hmethods _) (hmethods K) hKs, ?_⟩
  rcases hn with ⟨e, he, hn⟩ | ⟨K₁, hn, hK₁⟩
  · exact .inl ⟨e, he, elsewhere_of_error (s := { s with module := K }) hn⟩
  · refine .inr ⟨K₁, elsewhere_of_ok (s := { s with module := K }) hn, fun M hM => hK₁ M ?_⟩
    exact r.ahead_congr rfl (hmethods K).symm hM

theorem outward {m n : Flow α} (h : Replays r m n) : Replays r (outward m) (outward n) := by
  intro s a u hs hrun
  obtain ⟨first, rest, t, hheld, hm, rfl⟩ := outward_ok hrun
  obtain ⟨ht, hn⟩ := h (s := ⟨s.module, first, rest⟩) hs hm
  refine ⟨ht, fun K hK => ⟨(hn K hK).1, ?_⟩⟩
  rcases (hn K hK).2 with ⟨e, he, hn⟩ | ⟨K₁, hn, hK₁⟩
  · exact .inl ⟨e, he, outward_of_error (s := { s with module := K }) hheld hn⟩
  · exact .inr ⟨K₁, outward_of_ok (s := { s with module := K }) hheld hn, hK₁⟩

end Replays

theorem Grows.untilStable (h : Grows r m) (fuel : Nat) : Grows r (untilStable m fuel) := by
  induction fuel with
  | zero => intro s a t _ hrun; exact nomatch hrun
  | succ fuel ih =>
    intro s as t hs hrun
    obtain ⟨_, _, ⟨⟩, hrun⟩ := bind_eq_ok_iff.1 hrun
    obtain ⟨a, s₁, h₁, hrun⟩ := bind_eq_ok_iff.1 hrun
    obtain ⟨_, _, ⟨⟩, hrun⟩ := bind_eq_ok_iff.1 hrun
    obtain ⟨_, _, ⟨⟩, hrun⟩ := bind_eq_ok_iff.1 hrun
    obtain ⟨hs₁, hK₁⟩ := h hs h₁
    by_cases hstop : Tables.merge s.here s₁.here = s.here
    · rw [if_pos hstop] at hrun
      cases hrun
      exact ⟨hs₁, hK₁⟩
    · rw [if_neg hstop] at hrun
      obtain ⟨rest, s₂, h₂, hrun⟩ := bind_eq_ok_iff.1 hrun
      cases hrun
      obtain ⟨ht, hK₂⟩ := ih (s := { s₁ with here := Tables.merge s.here s₁.here }) hs₁ h₂
      exact ⟨ht, fun K hK => hK₁ K (hK₂ K hK)⟩

/-- What is replayed inside a node is replayed by the node.  The passes that are allowed may differ
if running out of fuel is an excuse. -/
theorem Replays.congruence (r : Replay) :
    Congruence (Replays r) (fun fuel₁ fuel₂ => r.Excuse .outOfFuel ∨ fuel₁ = fuel₂) := by
  refine .of_steps give bind ?_ ?_ ?_ ?_ ?_ ?_ ?_ (fun params h => h.elsewhere params)
    fun h => h.outward
  · intro s a t hs hrun
    cases hrun
    exact ⟨hs, fun K hK => ⟨hK, .inr ⟨K, rfl, fun _ hM => hM⟩⟩⟩
  · intro tables s a t hs hrun
    cases hrun
    exact ⟨hs, fun K hK => ⟨hK, .inr ⟨K, rfl, fun _ hM => hM⟩⟩⟩
  · intro name ty s a t hs hrun
    cases hrun
    exact ⟨hs, fun K hK => ⟨hK, .inr ⟨K, rfl, fun _ hM => hM⟩⟩⟩
  · intro node ty s a t hs hrun
    cases hrun
    have hmethods (M : Module) : M.methods = (M.record node ty).methods := rfl
    exact ⟨r.fit_congr (hmethods _) hs, fun K hK => ⟨r.ahead_congr (hmethods _).symm rfl hK, .inr
      ⟨K.record node ty, rfl, fun _ hM => r.ahead_congr rfl (hmethods K) hM⟩⟩⟩
  · intro α c₁ c₂ _ cause node span s a t _ hrun
    exact nomatch hrun
  · intro α m n fuel₁ fuel₂ hf h hzero s as t hs hrun
    cases fuel₁ with
    | zero => exact nomatch hrun
    | succ fuel₁ =>
      have hzero : fuel₂ = 0 := hzero.resolve_left (Nat.succ_ne_zero _)
      subst hzero
      have hexcuse : r.Excuse .outOfFuel := hf.resolve_right (Nat.succ_ne_zero _)
      exact (h.grows.untilStable (fuel₁ + 1)).excused (fun _ => ⟨.outOfFuel, hexcuse, rfl⟩) hs hrun
  · exact fun hf => hf.imp_right Nat.succ.inj

/-! ### Calls -/

section
variable {expr₁ expr₂ : Standing → Expr → Flow Ty} {limit : Nat} {c₁ c₂ : Standing}
  {id₁ id₂ : NodeId} {span₁ span₂ : Span} {method k : Method} {signature : Signature}
  {block : Option (Block Expr)} {name : String}

/-- From the body of a method to its evaluation for a call.  Where only the second evaluation comes
to the recursion limit, that is an excuse. -/
theorem Replays.methodBody (hk : k.definition = method.definition)
    (hlimit : limit ≤ c₂.depth → limit ≤ c₁.depth ∨
      ∀ e : TypeError, e.cause = .recursionLimitExceeded method.name limit → r.Excuse (.error e))
    (hbody : Replays r (body (expr₁ (c₁.inside method signature block)) method.definition.body)
      (body (expr₂ (c₂.inside method signature block)) method.definition.body)) :
    Replays r (methodBody expr₁ limit c₁ id₁ span₁ method signature block)
      (methodBody expr₂ limit c₂ id₂ span₂ k signature block) := by
  rw [methodBody_congr hk]
  by_cases h₁ : limit ≤ c₁.depth
  · rw [methodBody_of_le h₁]; exact fun _ _ _ _ hrun => nomatch hrun
  have hexcused {m : Flow Ty} (hm : Grows r m) (h₂ : limit ≤ c₂.depth) :
      Replays r m (Flow.methodBody expr₂ limit c₂ id₂ span₂ method signature block) := by
    have hcause := (hlimit h₂).resolve_left h₁
    rw [methodBody_of_le h₂]
    exact hm.excused fun s => ⟨_, hcause ⟨_, id₂, span₂, c₂.method?⟩ rfl, rfl⟩
  cases block with
  | none =>
    rw [methodBody_none h₁]
    by_cases h₂ : limit ≤ c₂.depth
    · exact hexcused (hbody.elsewhere _).grows h₂
    · rw [methodBody_none h₂]; exact hbody.elsewhere _
  | some b =>
    rw [methodBody_some h₁]
    by_cases h₂ : limit ≤ c₂.depth
    · exact hexcused (hbody.elsewhere _).grows h₂
    · rw [methodBody_some h₂]; exact hbody.elsewhere _

/-- From the body of a method to a call with a block, which is under way for both runs or for neither
of them. -/
theorem Replays.blockCall {b : Block Expr} (hk : k.definition = method.definition)
    (hactive : ⟨method.name, signature, b.id⟩ ∈ c₁.active ↔ ⟨method.name, signature, b.id⟩ ∈ c₂.active)
    (hobserve : ∀ ty, Replays r (updateMethod method.name (·.observe signature ty))
      (updateMethod method.name (·.observe signature ty)))
    (hbody : Replays r (Flow.methodBody expr₁ limit c₁ id₁ span₁ method signature (some b))
      (Flow.methodBody expr₂ limit c₂ id₂ span₂ method signature (some b))) :
    Replays r (blockCall expr₁ limit c₁ id₁ span₁ method signature b)
      (blockCall expr₂ limit c₂ id₂ span₂ k signature b) := by
  rw [blockCall_congr hk]
  by_cases h₁ : ⟨method.name, signature, b.id⟩ ∈ c₁.active
  · rw [blockCall_of_mem h₁, blockCall_of_mem (hactive.1 h₁)]
    exact .give _
  · rw [blockCall_of_notMem h₁, blockCall_of_notMem fun h₂ => h₁ (hactive.2 h₂)]
    exact hbody.bind fun ty => (hobserve ty).bind fun _ => .give ty

/-- From what is done with a method to the call that looks it up. -/
theorem Replays.dispatch {entry₁ entry₂ : Entry}
    (hfound : ∀ {M K method}, r.Fit M → r.Ahead M K → M.method? name = some method →
      ∃ k, K.method? name = some k ∧ k.definition = method.definition)
    (hentry : ∀ {s ty t method}, r.Fit s.module → s.module.method? name = some method →
      entry₁ c₁ id₁ span₁ method signature block s = .ok (ty, t) →
        r.Fit t.module ∧ ∀ K, r.Ahead t.module K → r.Ahead s.module K ∧
          ∀ k, K.method? name = some k → k.definition = method.definition →
            (∃ h, r.Excuse h ∧
              entry₂ c₂ id₂ span₂ k signature block { s with module := K } = .error h) ∨
            ∃ K', entry₂ c₂ id₂ span₂ k signature block { s with module := K } =
                .ok (ty, { t with module := K' }) ∧ ∀ M, r.Ahead M K → r.Ahead M K')
    (nameSpan : Span) :
    Replays r (dispatch entry₁ c₁ id₁ span₁ name nameSpan signature block)
      (dispatch entry₂ c₂ id₂ span₂ name nameSpan signature block) := by
  intro s ty t hs hrun
  obtain ⟨method, hm, harity, hrun⟩ := dispatch_ok hrun
  obtain ⟨ht, hK⟩ := hentry hs hm hrun
  refine ⟨ht, fun K hKt => ?_⟩
  obtain ⟨hKs, hK⟩ := hK K hKt
  obtain ⟨k, hk, hdefinition⟩ := hfound hs hKs hm
  have harity' : k.arity = signature.length := by rw [Method.arity, hdefinition]; exact harity
  rw [dispatch_of_some (s := { s with module := K }) hk harity']
  exact ⟨hKs, hK k hk hdefinition⟩

end

end Flow
end FlowTyping
