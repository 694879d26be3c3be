import FlowTyping.Proofs.Arena
import FlowTyping.Proofs.Steps

/-!
# What an evaluation can see

The scopes in sight of an evaluation are those on the chain of its scope and on the chains of the
blocks in force.  Along a run no scope is on two of these chains (`Scopes.Apart`): the body of a
method gets a scope without a scope around it, and the body of a block runs in sight of the block's
chain in place of the chain of the method.  Scopes are only ever added, so what is apart stays apart
(`Scopes.Grown`).
-/

namespace FlowTyping
namespace Scopes

variable {s t u : Scopes} {i j : ScopeId} {ids : List ScopeId}

/-! ### More scopes -/

/-- The scopes of `s` are in `t`, with the same scopes around them. -/
structure Grown (s t : Scopes) : Prop where
  size : s.size ≤ t.size
  parent : ∀ i < s.size, t.parent? i = s.parent? i

namespace Grown

@[refl] theorem refl (s : Scopes) : s.Grown s := ⟨Nat.le_refl _, fun _ _ => rfl⟩

theorem trans (h₁ : s.Grown t) (h₂ : t.Grown u) : s.Grown u :=
  ⟨Nat.le_trans h₁.size h₂.size, fun i hi =>
    (h₂.parent i (Nat.lt_of_lt_of_le hi h₁.size)).trans (h₁.parent i hi)⟩

theorem lt (h : s.Grown t) (hi : i < s.size) : i < t.size := Nat.lt_of_lt_of_le hi h.size

theorem chain (h : s.Grown t) (hi : i < s.size) : t.chain i = s.chain i :=
  chain_congr fun j hj => h.parent j (Nat.lt_of_le_of_lt hj hi)

theorem setTable (s : Scopes) (i : ScopeId) (table : Bindings) : s.Grown (s.setTable i table) :=
  ⟨Nat.le_of_eq size_setTable.symm, fun _ _ => parent?_setTable⟩

theorem restore (s : Scopes) (saved : Snapshot) : s.Grown (s.restore saved) :=
  ⟨Nat.le_of_eq (size_restore saved).symm, fun _ _ => parent?_restore saved⟩

theorem push (s : Scopes) (parent? : Option ScopeId) : s.Grown (s.push parent?).1 :=
  ⟨by rw [size_push]; exact Nat.le_succ _, fun _ hi => parent?_push_of_lt hi⟩

end Grown

/-! ### Scopes that are apart -/

/-- The chains of these scopes have no scope in common. -/
structure Apart (s : Scopes) (ids : List ScopeId) : Prop where
  lt : ∀ i ∈ ids, i < s.size
  nodup : (ids.flatMap s.chain).Nodup

theorem chain_nodup (s : Scopes) (i : ScopeId) : (s.chain i).Nodup := by
  induction i using Nat.strongRecOn with
  | ind i ih =>
    rw [chain]
    refine List.nodup_cons.2 ⟨fun h => ?_, ?_⟩
    · split at h
      · next parent _ =>
        split at h
        · next hlt => exact Nat.not_le_of_lt hlt (le_of_mem_chain h)
        · exact List.not_mem_nil h
      · exact List.not_mem_nil h
    · split
      · next parent _ =>
        split
        · next hlt => exact ih parent hlt
        · exact List.nodup_nil
      · exact List.nodup_nil

theorem lt_of_mem_chain (hi : i < s.size) (h : j ∈ s.chain i) : j < s.size :=
  Nat.lt_of_le_of_lt (le_of_mem_chain h) hi

namespace Apart

theorem lt_of_mem (h : s.Apart ids) (hj : j ∈ ids.flatMap s.chain) : j < s.size := by
  obtain ⟨i, hi, hj⟩ := List.mem_flatMap.1 hj
  exact lt_of_mem_chain (h.lt i hi) hj

theorem tail (h : s.Apart (i :: ids)) : s.Apart ids :=
  ⟨fun j hj => h.lt j (List.mem_cons_of_mem i hj), (List.nodup_append.1 h.nodup).2.1⟩

theorem head_lt (h : s.Apart (i :: ids)) : i < s.size := h.lt i List.mem_cons_self

theorem grown (h : s.Apart ids) (hg : s.Grown t) : t.Apart ids := by
  refine ⟨fun i hi => hg.lt (h.lt i hi), ?_⟩
  have : ids.flatMap t.chain = ids.flatMap s.chain := by
    rw [List.flatMap_def, List.flatMap_def, List.map_congr_left fun i hi => hg.chain (h.lt i hi)]
  rw [this]; exact h.nodup

theorem chain_push_none : (s.push none).1.chain s.size = [s.size] :=
  chain_of_parent?_eq_none parent?_push_self

theorem chain_push_some (hi : i < s.size) :
    (s.push (some i)).1.chain s.size = s.size :: s.chain i := by
  rw [chain_of_parent?_eq_some parent?_push_self hi, chain_push_of_lt hi]

/-- The scope of a method body, next to what was in sight. -/
theorem push_none (h : s.Apart ids) : (s.push none).1.Apart (s.size :: ids) := by
  have hg := h.grown (Grown.push s none)
  refine ⟨?_, ?_⟩
  · intro j hj
    rcases List.mem_cons.1 hj with rfl | hj
    · rw [size_push]; exact Nat.lt_succ_self _
    · exact hg.lt j hj
  · rw [List.flatMap_cons, chain_push_none]
    refine List.nodup_cons.2 ⟨fun hm => ?_, hg.nodup⟩
    obtain ⟨j, hj, hm⟩ := List.mem_flatMap.1 hm
    exact Nat.not_le_of_lt (h.lt j hj) (le_of_mem_chain hm)

/-- The scope of a pass over a block, in place of the scope of the call that it goes with. -/
theorem push_some (h : s.Apart (i :: ids)) : (s.push (some i)).1.Apart (s.size :: ids) := by
  have hg := h.grown (Grown.push s (some i))
  refine ⟨?_, ?_⟩
  · intro j hj
    rcases List.mem_cons.1 hj with rfl | hj
    · rw [size_push]; exact Nat.lt_succ_self _
    · exact hg.lt j (List.mem_cons_of_mem i hj)
  · have hnd := hg.nodup
    rw [List.flatMap_cons] at hnd ⊢
    rw [chain_push_of_lt h.head_lt] at hnd
    rw [chain_push_some h.head_lt]
    refine List.nodup_cons.2 ⟨fun hm => ?_, hnd⟩
    rcases List.mem_append.1 hm with hm | hm
    · exact Nat.not_le_of_lt h.head_lt (le_of_mem_chain hm)
    · obtain ⟨j, hj, hm⟩ := List.mem_flatMap.1 hm
      exact Nat.not_le_of_lt (h.lt j (List.mem_cons_of_mem i hj)) (le_of_mem_chain hm)

end Apart

/-! ### Scopes with parameters -/

theorem setTable_setTable (s : Scopes) (i : ScopeId) (a b : Bindings) :
    (s.setTable i a).setTable i b = s.setTable i b := by
  unfold setTable
  congr 1
  refine Array.ext_getElem? fun j => ?_
  rw [Array.getElem?_modify, Array.getElem?_modify, Array.getElem?_modify]
  split
  · cases s.cells[j]? <;> rfl
  · rfl

theorem setTable_table (s : Scopes) (i : ScopeId) : s.setTable i (s.table i) = s := by
  obtain ⟨cells⟩ := s
  unfold setTable table
  congr 1
  refine Array.ext_getElem? fun j => ?_
  rw [Array.getElem?_modify]
  split
  · next h => subst h; show Option.map _ cells[i]? = cells[i]?; cases cells[i]? <;> rfl
  · rfl

/-- A new scope with a table. -/
def opened (s : Scopes) (parent? : Option ScopeId) (table : Bindings) : Scopes :=
  (s.push parent?).1.setTable s.size table

section
variable {parent? : Option ScopeId} {table : Bindings}

theorem Grown.opened (s : Scopes) (parent? : Option ScopeId) (table : Bindings) :
    s.Grown (s.opened parent? table) := (Grown.push s parent?).trans (.setTable _ _ _)

theorem table_opened_of_lt (h : i < s.size) : (s.opened parent? table).table i = s.table i := by
  rw [Scopes.opened, table_setTable_ne (Nat.ne_of_lt h), table_push_of_lt h]

theorem table_opened_self : (s.opened parent? table).table s.size = table :=
  table_setTable_self (by rw [size_push]; exact Nat.lt_succ_self _)

theorem Apart.opened_none (h : s.Apart ids) : (s.opened none table).Apart (s.size :: ids) :=
  h.push_none.grown (.setTable _ _ _)

theorem Apart.opened_some (h : s.Apart (i :: ids)) : (s.opened (some i) table).Apart (s.size :: ids) :=
  h.push_some.grown (.setTable _ _ _)

theorem chain_opened_none : (s.opened none table).chain s.size = [s.size] := by
  rw [Scopes.opened, chain_setTable, Apart.chain_push_none]

theorem chain_opened_some (hi : i < s.size) :
    (s.opened (some i) table).chain s.size = s.size :: s.chain i := by
  rw [Scopes.opened, chain_setTable, Apart.chain_push_some hi]

end

/-! ### Coming back to merged tables -/

theorem length_snapshot (s : Scopes) (i : ScopeId) :
    (s.snapshot i).length = (s.chain i).length := by
  rw [snapshot, List.length_map]

/-- Tables put back in place for a whole chain are what a snapshot then finds there. -/
theorem snapshot_restore_zip {tables : List Bindings} (hi : i < s.size)
    (hlen : (s.chain i).length = tables.length) :
    (s.restore ((s.chain i).zip tables)).snapshot i = (s.chain i).zip tables := by
  rw [snapshot_eq_zip, chain_restore,
    map_table_restore (s.chain_nodup i) (fun _ => lt_of_mem_chain hi) hlen]

/-- Tables merged with earlier ones of the same chain and put back in place. -/
theorem snapshot_restore_merge (hi : i < s.size) (hg : s.Grown t) :
    (t.restore ((s.snapshot i).merge (t.snapshot i))).snapshot i =
      (s.snapshot i).merge (t.snapshot i) := by
  rw [snapshot_eq_zip s, snapshot_eq_zip t, hg.chain hi, Snapshot.merge_zip, ← hg.chain hi]
  exact snapshot_restore_zip (hg.lt hi) (by simp)

end Scopes

/-- The table in which the parameters are bound one after the other. -/
def Bindings.ofParams (params : List (Ident × Ty)) : Bindings :=
  params.foldl (fun t param => t.insert param.1.name param.2) .empty

/-- The annotations of the parameters, one after the other. -/
def Module.recordParams (params : List (Ident × Ty)) (m : Module) : Module :=
  params.foldl (fun m param => m.record param.1.id param.2) m

theorem Module.methods_recordParams (params : List (Ident × Ty)) (m : Module) :
    (m.recordParams params).methods = m.methods := by
  unfold recordParams
  induction params generalizing m with
  | nil => rfl
  | cons param params ih => rw [List.foldl_cons, ih]; rfl

namespace Infer

variable {s t u : Engine}

theorem forM_bindParam (scope : ScopeId) (params : List (Ident × Ty)) (hs : scope < s.scopes.size) :
    (params.forM fun (param, ty) => bindParam scope param ty) s = .ok ⟨⟩ { s with
      scopes := s.scopes.setTable scope
        (params.foldl (fun t param => t.insert param.1.name param.2) (s.scopes.table scope))
      module := s.module.recordParams params } := by
  induction params generalizing s with
  | nil => simp only [List.foldl_nil, Scopes.setTable_table]; rfl
  | cons param params ih =>
    show (bindParam scope param.1 param.2 >>= fun _ =>
      params.forM fun (param, ty) => bindParam scope param ty) s = _
    have hstep : bindParam scope param.1 param.2 s = .ok () { s with
      scopes := s.scopes.declare scope param.1.name param.2
      module := s.module.record param.1.id param.2 } := rfl
    rw [bind_of_ok hstep, ih (by rw [Scopes.declare, Scopes.size_setTable]; exact hs)]
    show EStateM.Result.ok _ { s with scopes := _, module := _ } = _
    rw [Scopes.declare, Scopes.setTable_setTable, Scopes.table_setTable_self hs]
    rfl

/-- A scope with parameters is the next one, and nothing else changes but the annotations. -/
theorem openScope_apply (parent? : Option ScopeId) (params : List (Ident × Ty)) :
    openScope parent? params s = .ok s.scopes.size { s with
      scopes := s.scopes.opened parent? (.ofParams params)
      module := s.module.recordParams params } := by
  have hnew : newScope parent? s =
      .ok s.scopes.size { s with scopes := (s.scopes.push parent?).1 } := rfl
  have hlt : s.scopes.size < (s.scopes.push parent?).1.size := by
    rw [Scopes.size_push]; exact Nat.lt_succ_self _
  rw [openScope, bind_of_ok hnew, bind_of_ok (forM_bindParam s.scopes.size params hlt),
    Scopes.table_push_self]
  rfl

theorem methodBody_apply (expr : Expr → Infer Ty) (limit : Nat) (id : NodeId) (span : Span)
    (method : Method) (signature : Signature) (blocks : List BlockFrame) :
    methodBody expr limit id span method signature blocks s =
      if limit ≤ s.context.depth then
        fail (.recursionLimitExceeded method.name limit) id span s
      else
        within ⟨s.scopes.size, blocks, some method.name, s.context.depth + 1⟩
          (body expr method.definition.body)
          { s with
            scopes := s.scopes.opened none
              (.ofParams (method.definition.params.zip signature))
            module := s.module.recordParams (method.definition.params.zip signature) } := by
  rw [methodBody, bind_of_ok context_apply]
  show (if limit ≤ s.context.depth then _ else _ : Infer Ty) s = _
  split
  · rfl
  · rw [bind_of_ok (openScope_apply _ _)]

theorem blockPass_apply (expr : Expr → Infer Ty) (frame : BlockFrame) (outer : List BlockFrame)
    (depth : Nat) (args : Signature) :
    blockPass expr frame outer depth args s =
      within ⟨s.scopes.size, outer, frame.method?, depth⟩ (body expr frame.block.body)
        { s with
          scopes := s.scopes.opened (some frame.scope)
            (.ofParams (paramTypes frame.block.params args))
          module := s.module.recordParams (paramTypes frame.block.params args) } := by
  rw [blockPass, bind_of_ok (openScope_apply _ _)]

end Infer

/-! ### States of one evaluation -/

namespace Context

/-- The scope at hand and the scopes that the blocks in force go with. -/
def sight (c : Context) : List ScopeId := c.scope :: c.blocks.map BlockFrame.scope

end Context

namespace Engine

variable {s t u : Engine}

/-- `t` is in the same place of the run as `s`, at most with more scopes. -/
structure Extends (s t : Engine) : Prop where
  context : t.context = s.context
  active : t.active = s.active
  scopes : s.scopes.Grown t.scopes

namespace Extends

@[refl] theorem refl (s : Engine) : s.Extends s := ⟨rfl, rfl, .refl _⟩

theorem trans (h₁ : s.Extends t) (h₂ : t.Extends u) : s.Extends u :=
  ⟨h₂.context.trans h₁.context, h₂.active.trans h₁.active, h₁.scopes.trans h₂.scopes⟩

end Extends

end Engine
end FlowTyping
