import FlowTyping.Proofs.Frame

/-!
# Where the parts of a choice start

`Program.always_restarts`: the else part of a choice starts where the then part did, but for the tables of
the callers.  Between the two parts the tables of the scopes at hand are put back, so only what a `yield`
in the then part left on the chains of the blocks in force can be different, and there the names are the
same, at types that cover the ones before.  Without a block in force both parts start from the same tables;
with one they need not (`Program.not_always_restarts_detour`).
-/

namespace FlowTyping

namespace Engine
variable {s t : Engine} {j : ScopeId}

/-- Where the else part of a choice starts, if the then part leads from `s` to `t`. -/
def elseStart (s t : Engine) : Engine :=
  { t with scopes := t.scopes.restore (s.scopes.snapshot s.context.scope) }

/-- The scopes that a `yield` runs its block in sight of. -/
def callers (s : Engine) : List ScopeId := (s.context.blocks.map BlockFrame.scope).flatMap s.scopes.chain

theorem table_elseStart_of_notMem (h : j ∉ s.scopes.chain s.context.scope) :
    (s.elseStart t).scopes.table j = t.scopes.table j := by
  refine Scopes.table_restore_of_notMem ?_
  rwa [Scopes.snapshot_eq, List.map_fst_zip (Nat.le_of_eq (Scopes.length_tables ..).symm)]

theorem notMem_chain_of_mem_callers (hapart : s.scopes.Apart s.context.sight) (hj : j ∈ s.callers) :
    j ∉ s.scopes.chain s.context.scope :=
  fun hmem => (List.nodup_append.1 hapart.nodup).2.2 j hmem j hj rfl

/-- What the then part does to the tables that the else part starts from. -/
theorem elseStart_frame {limit fuel : Nat} {stmts : List Expr} {ty : Ty}
    (hapart : s.scopes.Apart s.context.sight)
    (h : Infer.body (Infer.expr limit fuel) stmts s = .ok ty t) :
    s.scopes.WidensIn s.callers (s.elseStart t).scopes ∧
      ∀ j ∈ s.scopes.chain s.context.scope, (s.elseStart t).scopes.table j = s.scopes.table j := by
  have hbody := Refines.body hapart fun e (_ : e ∈ stmts) => (follows_expr limit fuel []).refines hapart e
  have hrestore := Refines.restore hapart (Scopes.length_tables s.scopes s.context.scope).symm
  rw [← Scopes.snapshot_eq] at hrestore
  have hrun : (Infer.body (Infer.expr limit fuel) stmts >>= fun _ =>
      Infer.restore (s.scopes.snapshot s.context.scope)) s = .ok () (s.elseStart t) := bind_of_ok h
  obtain ⟨hflow, hkeep⟩ := (hbody.bind hapart fun _ => hrestore).ok (.refl s) hrun
  obtain ⟨ty', w, hw, hset⟩ := Flow.bind_eq_ok_iff.1 hflow
  have hstart : (s.elseStart t).toStacks s.context.scope (s.context.blocks.map BlockFrame.scope) =
      { w with here := s.scopes.tables s.context.scope } := (congrArg Prod.snd (Except.ok.inj hset)).symm
  have hwidens := Flow.Widens.body (fun e (_ : e ∈ stmts) =>
    Flow.widens_expr .plain limit fuel (s.standing []) e) hw
  have hlocal := Flow.Local.body (fun e (_ : e ∈ stmts) =>
    Flow.local_expr .plain limit fuel (s.standing []) e) hw
  have hheld : w.held = (s.context.blocks.map BlockFrame.scope).map (s.elseStart t).scopes.tables :=
    (congrArg Stacks.held hstart).symm
  have hg := hkeep.extends_.scopes
  have hhere : ∀ j ∈ s.scopes.chain s.context.scope, (s.elseStart t).scopes.table j = s.scopes.table j :=
    (Scopes.tables_eq_iff hg (.refl _) hapart.head_lt).1 (congrArg Stacks.here hstart)
  refine ⟨Scopes.widensIn_of_forall (fun j hj hmem => ?_) ?_ ?_, hhere⟩
  · by_cases hchain : j ∈ s.scopes.chain s.context.scope
    · exact hhere j hchain
    · exact hkeep.tables j hj fun h => (List.mem_append.1 h).elim hchain hmem
  · exact (Scopes.forall₂_map_tables_iff (.refl _) hg hapart.tail.lt).1 (hheld ▸ hwidens.held)
  · exact (Scopes.forall₂_map_tables_iff hg (.refl _) hapart.tail.lt).1 (hheld ▸ hlocal.held)

end Engine

namespace Infer
variable (limit fuel : Nat)

/-- The parts of a choice that ends well: from `s` the condition leads to `atThen`, from there the then
part leads to `behind`, and from where it starts the else part ends well, too. -/
structure Parts (cond : Expr) (thenBody : List Expr) (elseBody : Option (List Expr))
    (s atThen behind : Engine) : Prop where
  cond : ∃ ty, expr limit fuel cond s = .ok ty atThen
  thenPart : ∃ ty, body (expr limit fuel) thenBody atThen = .ok ty behind
  elsePart : ∃ ty t, body (expr limit fuel) (elseBody.getD []) (atThen.elseStart behind) = .ok ty t

/-- In every scope that there is behind the condition, both parts of a choice start from the same table. -/
def Restarts (e : Expr) (s : Engine) : Prop :=
  ∀ cond thenBody elseBody, e.form = .branch cond thenBody elseBody → ∀ fuel ty t,
    branch (expr limit fuel) cond thenBody elseBody s = .ok ty t →
      ∃ atThen behind, Parts limit fuel cond thenBody elseBody s atThen behind ∧
        ∀ j < atThen.scopes.size, (atThen.elseStart behind).scopes.table j = atThen.scopes.table j

variable {limit fuel} {cond : Expr} {thenBody : List Expr} {elseBody : Option (List Expr)}
  {s atThen behind atThen' behind' : Engine}

theorem Parts.of_branch {ty : Ty} {t : Engine}
    (h : branch (expr limit fuel) cond thenBody elseBody s = .ok ty t) :
    ∃ atThen behind, Parts limit fuel cond thenBody elseBody s atThen behind := by
  obtain ⟨condType, s₁, thenType, s₂, elseType, s₃, h₁, h₂, h₃, -⟩ := branch_ok h
  exact ⟨s₁, s₂, ⟨_, h₁⟩, ⟨_, h₂⟩, ⟨_, _, h₃⟩⟩

end Infer

/-- Where the parts of the choices of a run start. -/
theorem Program.always_restarts (p : Program) (limit : Nat) :
    p.Always limit fun e s => ∀ cond thenBody elseBody, e.form = .branch cond thenBody elseBody →
      ∀ fuel ty t, Infer.branch (Infer.expr limit fuel) cond thenBody elseBody s = .ok ty t →
        ∃ atThen behind, Infer.Parts limit fuel cond thenBody elseBody s atThen behind ∧
          atThen.scopes.WidensIn atThen.callers (atThen.elseStart behind).scopes ∧
          ((∀ j < atThen.scopes.size,
              (atThen.elseStart behind).scopes.table j = atThen.scopes.table j) ↔
            ∀ j ∈ atThen.callers, behind.scopes.table j = atThen.scopes.table j) ∧
          (s.context.blocks = [] → ∀ j < atThen.scopes.size,
            (atThen.elseStart behind).scopes.table j = atThen.scopes.table j) := by
  refine (p.always_visits limit).mono fun e s hvisits cond thenBody elseBody hform fuel ty t hrun => ?_
  obtain ⟨atThen, behind, hparts⟩ := Infer.Parts.of_branch hrun
  obtain ⟨condType, hcond⟩ := hparts.cond
  obtain ⟨thenType, hthen⟩ := hparts.thenPart
  have hapart := hvisits.fits.apart
  obtain ⟨-, hkeep⟩ := ((follows_expr limit fuel []).refines hapart cond).ok (.refl s) hcond
  have hapart₁ : atThen.scopes.Apart atThen.context.sight := by
    rw [hkeep.extends_.context]; exact hapart.grown hkeep.extends_.scopes
  obtain ⟨hwidens, hhere⟩ := Engine.elseStart_frame hapart₁ hthen
  have hiff : (∀ j < atThen.scopes.size, (atThen.elseStart behind).scopes.table j = atThen.scopes.table j) ↔
      ∀ j ∈ atThen.callers, behind.scopes.table j = atThen.scopes.table j := by
    constructor
    · intro h j hj
      rw [← Engine.table_elseStart_of_notMem (Engine.notMem_chain_of_mem_callers hapart₁ hj)]
      exact h j (hapart₁.lt_of_mem (List.mem_append_right _ hj))
    · intro h j hj
      by_contra hne
      have hmem := (hwidens j hj hne).1
      refine hne ?_
      rw [Engine.table_elseStart_of_notMem (Engine.notMem_chain_of_mem_callers hapart₁ hmem)]
      exact h j hmem
  refine ⟨atThen, behind, hparts, hwidens, hiff, fun hnil => hiff.2 fun j hj => ?_⟩
  rw [Engine.callers, hkeep.extends_.context, hnil] at hj
  exact absurd hj List.not_mem_nil

/-! ### Parts that start apart -/

namespace Detour

/-- A method that gives its block a character in the then part of a choice, and keeps what the block hands
out in the else part: `z = nil`, the choice between `yield('a')` and `z = yield(nil)`, and `z`. -/
def method : Definition Expr where
  name := .bare "m"
  params := []
  body :=
    [.bare (.assign (.bare "z") (.bare (.literal .nil))),
      .bare (.branch (.bare (.literal (.bool true))) [.bare (.yield [.bare (.literal (.char 'a'))])]
        (some [.bare (.assign (.bare "z") (.bare (.yield [.bare (.literal .nil)])))])),
      .bare (.var "z")]

/-- `y = x`, `x = p` and `y`, for `p`. -/
def block : Block Expr where
  id := 0
  span := ⟨0, 0⟩
  params := [.bare "p"]
  body :=
    [.bare (.assign (.bare "y") (.bare (.var "x"))), .bare (.assign (.bare "x") (.bare (.var "p"))),
      .bare (.var "y")]

def program : Program where
  stmts :=
    [.bare (.define method), .bare (.assign (.bare "x") (.bare (.literal (.int 1)))),
      .bare (.call "m" ⟨0, 0⟩ [] (some block))]

/-- The evaluations of a choice whose parts start from different types of `x`, in the scope of the call. -/
def diverts (e : Expr) (s : Engine) : Bool :=
  match e.form with
  | .branch cond thenBody elseBody =>
    match Infer.branch (Infer.expr 64 40) cond thenBody elseBody s, Infer.expr 64 40 cond s with
    | .ok _ _, .ok _ atThen =>
      match Infer.body (Infer.expr 64 40) thenBody atThen with
      | .ok _ behind => 0 < atThen.scopes.size && (atThen.scopes.table 0).get? "x" == some .int &&
          ((atThen.elseStart behind).scopes.table 0).get? "x" == some (Ty.int.join .char)
      | .error _ _ => false
    | _, _ => false
  | _ => false

theorem not_restarts_of_diverts {e : Expr} {s : Engine} (h : diverts e s = true) :
    ¬ Infer.Restarts 64 e s := by
  intro hrestarts
  unfold diverts at h
  split at h
  · next cond thenBody elseBody hform =>
    split at h
    · next ty t condType atThen hbranch hcond =>
      obtain ⟨atThen', behind', ⟨⟨_, hcond'⟩, ⟨_, hthen'⟩, -⟩, hsame⟩ :=
        hrestarts cond thenBody elseBody hform 40 ty t hbranch
      cases hcond.symm.trans hcond'
      rw [hthen'] at h
      simp only [Bool.and_eq_true, decide_eq_true_eq, beq_iff_eq] at h
      obtain ⟨⟨hlt, hthen⟩, helse⟩ := h
      rw [hsame 0 hlt, hthen] at helse
      exact absurd helse (by decide)
    · exact absurd h Bool.false_ne_true
  · exact absurd h Bool.false_ne_true

end Detour

/-- With a block in force the parts of a choice may start from different tables. -/
theorem Program.not_always_restarts_detour : ¬ Detour.program.Always 64 (Infer.Restarts 64) := by
  intro h
  have hrun : (match Infer.body (Infer.exprUntil Detour.diverts 64 (Detour.program.fuel 64))
      Detour.program.stmts .initial with
    | .error .outOfFuel _ => true
    | _ => false) = true := by decide +kernel
  split at hrun
  · next s heq => exact h _ (fun e s => Detour.not_restarts_of_diverts) s heq
  · exact nomatch hrun

end FlowTyping
