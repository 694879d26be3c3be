import FlowTyping.Proofs.Accounts

/-!
# The calls that are kept

A call is checked against the method that has the name before the body of the method runs, and what it
returns is kept with the method that has the name behind it.  A definition in the body, or in a method or
a block that the body comes to, may come in between, and may have another number of parameters.  So the
calls that are kept have as many arguments as the method has parameters, unless a definition inside a
method or a block took the place of another one: `Program.arity_of_infer`,
`Program.arity_ne_selfReplacing`.
-/

namespace FlowTyping

namespace Method
variable {m : Method} {signature other : Signature} {ty : Ty} {block : Option (Block Expr)}

/-- The calls of the method that were inferred. -/
def calls (m : Method) : List Instance := m.instances ++ m.blockInstances

def signatures (m : Method) : List Signature := m.calls.map Instance.signature

theorem mem_signatures_keep :
    other ∈ (m.keep signature ty block).signatures ↔ other ∈ m.signatures ∨ other = signature := by
  have hupsert (combine : Ty → Ty → Ty) (is : List Instance) :
      other ∈ (Instance.upsert combine signature ty is).map Instance.signature ↔
        other ∈ is.map Instance.signature ∨ other = signature := by
    rw [Instance.signatures_upsert]
    split
    · next hmem => exact ⟨.inl, fun h => h.elim id fun heq => heq ▸ hmem⟩
    · rw [List.mem_append, List.mem_singleton]
  unfold signatures calls
  rw [List.map_append, List.map_append, List.mem_append, List.mem_append]
  cases block with
  | none => exact (or_congr_left (hupsert _ m.instances)).trans or_right_comm
  | some b => exact (or_congr_right (hupsert _ m.blockInstances)).trans (or_assoc ..).symm

end Method

namespace Program
variable {p : Program} {m : Method} {signature : Signature}

/-- The definition is inside a method or a block. -/
def Nested (p : Program) (d : Definition Expr) : Prop :=
  ∃ s ∈ p.sites, s.expr.form = .define d ∧ s.outer ≠ []

/-- The signature is one for the method, or for another definition of the name that the one of the
method took the place of. -/
def Explains (p : Program) (m : Method) (signature : Signature) : Prop :=
  signature.length = m.arity ∨ p.Nested m.definition ∧ ∃ s ∈ p.sites, ∃ d,
    s.expr.form = .define d ∧ d.name.name = m.name ∧ d.params.length = signature.length

end Program

/-! ### Entries along a run -/

/-- The calls that are kept are explained, and so will be those whose bodies are under inference. -/
structure Entries (p : Program) (c : Standing) (M : Module) : Prop where
  explained : ∀ m ∈ M.methods, ∀ signature ∈ m.signatures, p.Explains m signature
  under : ∀ entry ∈ c.under, ∀ m ∈ M.methods, m.name = entry.1.name.name →
    m.definition = entry.1 ∨ p.Nested m.definition

namespace Entries
variable {p : Program} {c : Standing} {M N : Module} {m : Method} {signature : Signature} {ty : Ty}
  {block : Option (Block Expr)} {name : String}

theorem congr (h : Entries p c M) (hN : N.methods = M.methods) : Entries p c N := by
  constructor
  · rw [hN]; exact h.explained
  · rw [hN]; exact h.under

theorem keep (h : Entries p c M) (block : Option (Block Expr)) (ty : Ty)
    (hname : ∀ m ∈ M.methods, m.name = name → p.Explains m signature) :
    Entries p c (M.updateMethod name (·.keep signature ty block)) := by
  have hdefinition (m : Method) : (m.keep signature ty block).definition = m.definition :=
    m.definition_keep signature ty block
  constructor
  · intro new hnew other hother
    obtain ⟨m, hm, hsame, ⟨hmname, rfl⟩ | ⟨-, rfl⟩⟩ := Module.mem_updateMethod hdefinition hnew
    · have hexplains : p.Explains m other := by
        rcases Method.mem_signatures_keep.1 hother with hmem | rfl
        · exact h.explained m hm other hmem
        · exact hname m hm hmname
      unfold Program.Explains Method.arity Method.name at hexplains ⊢
      rwa [hsame]
    · exact h.explained new hm other hother
  · intro entry hentry new hnew hnewName
    obtain ⟨m, hm, hsame, -⟩ := Module.mem_updateMethod hdefinition hnew
    unfold Method.name at hnewName
    rw [hsame] at hnewName ⊢
    exact h.under entry hentry m hm hnewName

theorem define {d : Definition Expr} (h : Entries p c M) (hd : c.under ≠ [] → p.Nested d) :
    Entries p c (M.define d) := by
  constructor
  · intro m hm signature hmem
    rcases Module.mem_putMethod hm with rfl | hm
    · exact absurd hmem List.not_mem_nil
    · exact h.explained m hm signature hmem
  · intro entry hentry m hm hmname
    rcases Module.mem_putMethod hm with rfl | hm
    · exact .inr (hd (List.ne_nil_of_mem hentry))
    · exact h.under entry hentry m hm hmname

end Entries

/-- The calls that are kept are explained along a run. -/
def Account.entries (p : Program) : Account p where
  Holds _ c M := Entries p c M
  initial := ⟨fun _ hm => absurd hm List.not_mem_nil, fun _ he => absurd he List.not_mem_nil⟩
  forget _ _ h := h
  settle _ _ _ _ h := h.congr (Module.methods_settle _ _ _)
  define := by
    intro L c M s d hs houter hform _ hM h
    refine (h.define fun hunder => ⟨s, hs, hform, fun htop => hunder ?_⟩).congr
      (Module.methods_settle _ _ _)
    exact hM.placed.under (houter.trans htop)
  answer _ _ h := h
  enter := by
    intro L c M s args m signature block q hcall _ _ _ _ hM h
    have hself (m' : Method) (hm' : m' ∈ M.methods) (hname : m'.name = m.name) : m' = m := by
      have hfound := hM.method?_of_mem hm'
      rw [hname, hcall.found] at hfound
      exact (Option.some.inj hfound).symm
    have hinside : Entries p (c.inside m signature block) M := by
      refine ⟨h.explained, fun entry hentry m' hm' hname => ?_⟩
      have hentry : entry.1 = m.definition ∨ entry ∈ c.under := by
        cases block <;> exact (List.mem_cons.1 hentry).imp_left fun heq => congrArg Prod.fst heq
      rcases hentry with heq | hentry
      · rw [heq] at hname ⊢
        exact .inl (congrArg Method.definition (hself m' hm' hname))
      · exact h.under entry hentry m' hm' hname
    cases block with
    | none =>
      refine (hinside.keep none .nil fun m' hm' hname => .inl ?_).congr
        (Module.methods_recordParams _ _)
      rw [hself m' hm' hname, hcall.arity]
    | some b => exact hinside.congr (Module.methods_recordParams _ _)
  leave := by
    intro L c M N s args m signature block q ty hcall _ hq hform _ _ _ hN
    have hhere : (m.definition, if block.isNone then some signature else none) ∈
        (c.inside m signature block).under := by cases block <;> exact List.mem_cons_self
    have hkept : Entries p (c.inside m signature block)
        (N.updateMethod m.name (·.keep signature ty block)) :=
      hN.keep block ty fun m' hm' hname => ?_
    · refine ⟨hkept.explained, fun entry hentry => hkept.under entry ?_⟩
      cases block <;> exact List.mem_cons_of_mem _ hentry
    -- The method that has the name now is the one that was called, or a definition in a body took its
    -- place.
    · rcases hN.under _ hhere m' hm' hname with hdefinition | hnested
      · refine .inl ?_
        rw [Method.arity, hdefinition]
        exact hcall.arity.symm
      · exact .inr ⟨hnested, q, hq, m.definition, hform, hname.symm, hcall.arity⟩
  run _ _ _ h := ⟨h.explained, h.under⟩
  bindParams _ _ _ _ h := h.congr (Module.methods_recordParams _ _)
  collect _ _ _ _ _ _ _ _ hN := ⟨hN.explained, hN.under⟩

namespace Program
variable {p : Program} {limit : Nat} {M : Module} {m : Method}

/-- A call that is kept with a method has as many arguments as the method has parameters.  If the
definition of the method is inside a method or a block, the other definitions of the name have to have
as many parameters. -/
theorem arity_of_infer (h : p.infer limit = .ok M) (hm : m ∈ M.methods)
    (hnested : p.Nested m.definition → ∀ s ∈ p.sites, ∀ d, s.expr.form = .define d →
      d.name.name = m.name → d.params.length = m.arity) :
    ∀ i ∈ m.calls, i.signature.length = m.arity := by
  intro i hi
  obtain ⟨N, tys, rfl, -, hkept⟩ := (Account.entries p).of_infer h
  rcases hkept.holds.explained m hm i.signature (List.mem_map_of_mem hi) with
    harity | ⟨hin, s, hs, d, hform, hname, hlen⟩
  · exact harity
  · rw [← hlen]
    exact hnested hin s hs d hform hname

/-- Inside, the method is defined once more, with one parameter like before. -/
def renewing : Program where
  stmts :=
    [.node 0 ⟨0, 0⟩ (.define ⟨⟨1, "f", ⟨0, 0⟩⟩, [⟨2, "a", ⟨0, 0⟩⟩],
        [.node 3 ⟨0, 0⟩ (.define ⟨⟨4, "f", ⟨0, 0⟩⟩, [⟨5, "b", ⟨0, 0⟩⟩],
            [.node 6 ⟨0, 0⟩ (.var "b")]⟩),
          .node 7 ⟨0, 0⟩ (.literal (.int 2))]⟩),
      .node 8 ⟨0, 0⟩ (.call "f" ⟨0, 0⟩ [.node 9 ⟨0, 0⟩ (.literal (.int 1))] none)]

theorem arity_renewing :
    ∃ M, renewing.infer 64 = .ok M ∧ ∀ m ∈ M.methods, ∀ i ∈ m.calls, i.signature.length = m.arity := by
  have hdefs (s : Site) (hs : s ∈ renewing.sites) (d : Definition Expr)
      (hform : s.expr.form = .define d) : d.params.length = 1 := by
    simp only [sites, renewing, Site.within_eq, Site.parts, Expr.form_node, Site.body,
      Site.arguments, List.zipIdx_cons, List.zipIdx_nil, List.map_cons, List.map_nil,
      List.flatMap_cons, List.flatMap_nil, List.append_nil, List.cons_append, List.nil_append,
      List.mem_cons, List.not_mem_nil, or_false] at hs
    rcases hs with rfl | rfl | rfl | rfl | rfl | rfl <;> cases hform <;> rfl
  have hends : (renewing.infer 64).toBool = true := by decide +kernel
  obtain ⟨M, hM⟩ := exists_infer hends
  refine ⟨M, hM, fun m hm => arity_of_infer hM hm ?_⟩
  rintro ⟨q, hq, hqform, -⟩ s hs d hform -
  exact (hdefs s hs d hform).trans (hdefs q hq _ hqform).symm

/-- Inside, the method is defined once more, with two parameters in place of one. -/
def selfReplacing : Program where
  stmts :=
    [.node 0 ⟨0, 0⟩ (.define ⟨⟨1, "f", ⟨0, 0⟩⟩, [⟨2, "a", ⟨0, 0⟩⟩],
        [.node 3 ⟨0, 0⟩ (.define ⟨⟨4, "f", ⟨0, 0⟩⟩, [⟨5, "a", ⟨0, 0⟩⟩, ⟨6, "b", ⟨0, 0⟩⟩],
            [.node 7 ⟨0, 0⟩ (.literal (.int 1))]⟩),
          .node 8 ⟨0, 0⟩ (.literal (.int 2))]⟩),
      .node 9 ⟨0, 0⟩ (.call "f" ⟨0, 0⟩ [.node 10 ⟨0, 0⟩ (.literal (.int 1))] none)]

/-- What the call with one argument returned is kept with the method that has two parameters. -/
theorem arity_ne_selfReplacing :
    ∃ M, selfReplacing.infer 64 = .ok M ∧
      ∃ m ∈ M.methods, ∃ i ∈ m.calls, i.signature.length ≠ m.arity := by
  have hmisfit : (match selfReplacing.infer 64 with
    | .ok M => M.methods.any fun m => m.calls.any fun i => i.signature.length ≠ m.arity
    | .error _ => false) = true := by decide +kernel
  cases hM : selfReplacing.infer 64 with
  | error e => rw [hM] at hmisfit; exact absurd hmisfit Bool.false_ne_true
  | ok M =>
    rw [hM] at hmisfit
    obtain ⟨m, hm, hmisfit⟩ := List.any_eq_true.1 hmisfit
    obtain ⟨i, hi, hmisfit⟩ := List.any_eq_true.1 hmisfit
    exact ⟨M, rfl, m, hm, i, hi, of_decide_eq_true hmisfit⟩

end Program
end FlowTyping
