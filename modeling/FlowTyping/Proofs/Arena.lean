import FlowTyping.Scopes
import Mathlib.Data.List.Nodup

/-!
# The arena of scopes

What the operations on scopes do to the tables, the parents and the chains.  Making a scope and
writing to tables leave the parents of the scopes that were there, so a chain stays what it was
(`chain_congr`), and a write is seen in one table only.
-/

namespace FlowTyping
namespace Scopes

variable {s t : Scopes} {i j : ScopeId} {table : Bindings}

theorem parent?_eq (s : Scopes) (i : ScopeId) : s.parent? i = s.cells[i]?.bind Scope.parent? := by
  cases h : s.cells[i]? <;> simp [parent?, h]

/-! ### Chains -/

theorem chain_of_parent?_eq_none (h : s.parent? i = none) : s.chain i = [i] := by
  rw [chain, h]

theorem chain_of_parent?_eq_some (h : s.parent? i = some j) (hj : j < i) :
    s.chain i = i :: s.chain j := by
  rw [chain, h]; simp [hj]

theorem mem_chain_self (s : Scopes) (i : ScopeId) : i ∈ s.chain i := by
  rw [chain]; exact List.mem_cons_self

/-- Scopes that agree on the parents from a scope downwards agree on its chain. -/
theorem chain_congr (h : ∀ j ≤ i, s.parent? j = t.parent? j) : s.chain i = t.chain i := by
  induction i using Nat.strongRecOn with
  | ind i ih =>
    rw [chain, chain, h i (Nat.le_refl i)]
    split
    · next parent _ =>
      split
      · next hlt => rw [ih parent hlt fun j hj => h j (Nat.le_trans hj (Nat.le_of_lt hlt))]
      · rfl
    · rfl

theorem le_of_mem_chain (h : j ∈ s.chain i) : j ≤ i := by
  induction i using Nat.strongRecOn with
  | ind i ih =>
    rw [chain] at h
    rcases List.mem_cons.1 h with rfl | h
    · exact Nat.le_refl _
    · split at h
      · next parent _ =>
        split at h
        · next hlt => exact Nat.le_trans (ih parent hlt h) (Nat.le_of_lt hlt)
        · exact absurd h List.not_mem_nil
      · exact absurd h List.not_mem_nil

/-! ### Writing to a table -/

@[simp] theorem size_setTable : (s.setTable i table).size = s.size := by
  simp [setTable, size]

@[simp] theorem parent?_setTable : (s.setTable i table).parent? j = s.parent? j := by
  rw [parent?_eq, parent?_eq, setTable, Array.getElem?_modify]
  split <;> cases s.cells[j]? <;> rfl

@[simp] theorem chain_setTable : (s.setTable i table).chain j = s.chain j :=
  chain_congr fun _ _ => parent?_setTable

theorem table_setTable_self (h : i < s.size) : (s.setTable i table).table i = table := by
  have hi : i < s.cells.size := h
  simp [Scopes.table, setTable, Array.getElem?_modify, Array.getElem?_eq_getElem hi]

theorem table_setTable_ne (h : j ≠ i) : (s.setTable i table).table j = s.table j := by
  simp [Scopes.table, setTable, Array.getElem?_modify, h.symm]

/-! ### Making a scope -/

variable {parent? : Option ScopeId}

@[simp] theorem push_snd : (s.push parent?).2 = s.size := rfl

@[simp] theorem size_push : (s.push parent?).1.size = s.size + 1 := by
  simp [push, size]

theorem parent?_push_of_lt (h : i < s.size) : (s.push parent?).1.parent? i = s.parent? i := by
  have hi : i < s.cells.size := h
  rw [parent?_eq, parent?_eq, push, Array.getElem?_push_lt hi, Array.getElem?_eq_getElem hi]

theorem parent?_push_self : (s.push parent?).1.parent? s.size = parent? := by
  simp [parent?_eq, push, size]

theorem table_push_of_lt (h : i < s.size) : (s.push parent?).1.table i = s.table i := by
  have hi : i < s.cells.size := h
  simp [Scopes.table, push, Array.getElem?_push_lt hi, Array.getElem?_eq_getElem hi]

theorem table_push_self : (s.push parent?).1.table s.size = .empty := by
  simp [Scopes.table, push, size]

theorem chain_push_of_lt (h : i < s.size) : (s.push parent?).1.chain i = s.chain i :=
  chain_congr fun _ hj => parent?_push_of_lt (Nat.lt_of_le_of_lt hj h)

/-! ### Putting a snapshot back -/

theorem restore_cons (id : ScopeId) (table : Bindings) (saved : Snapshot) :
    s.restore ((id, table) :: saved) = (s.setTable id table).restore saved := rfl

@[simp] theorem size_restore (saved : Snapshot) : (s.restore saved).size = s.size := by
  induction saved generalizing s with
  | nil => rfl
  | cons cell saved ih => rw [restore_cons, ih, size_setTable]

@[simp] theorem parent?_restore (saved : Snapshot) : (s.restore saved).parent? j = s.parent? j := by
  induction saved generalizing s with
  | nil => rfl
  | cons cell saved ih => rw [restore_cons, ih, parent?_setTable]

@[simp] theorem chain_restore (saved : Snapshot) : (s.restore saved).chain j = s.chain j :=
  chain_congr fun _ _ => parent?_restore saved

theorem table_restore_of_notMem {saved : Snapshot} (h : j ∉ saved.map Prod.fst) :
    (s.restore saved).table j = s.table j := by
  induction saved generalizing s with
  | nil => rfl
  | cons cell saved ih =>
    rw [List.map_cons, List.mem_cons, not_or] at h
    rw [restore_cons, ih h.2, table_setTable_ne h.1]

/-- After a restore the scopes of the snapshot have its tables. -/
theorem map_table_restore {ids : List ScopeId} {tables : List Bindings} (hnd : ids.Nodup)
    (hlt : ∀ i ∈ ids, i < s.size) (hlen : ids.length = tables.length) :
    ids.map (s.restore (ids.zip tables)).table = tables := by
  induction ids generalizing s tables with
  | nil => rw [List.length_nil] at hlen; rw [List.length_eq_zero_iff.1 hlen.symm, List.map_nil]
  | cons i ids ih =>
    cases tables with
    | nil => simp at hlen
    | cons table tables =>
      obtain ⟨hi, hnd⟩ := List.nodup_cons.1 hnd
      have hrest : i ∉ (ids.zip tables).map Prod.fst := fun h =>
        hi (by obtain ⟨⟨a, b⟩, hab, rfl⟩ := List.mem_map.1 h; exact (List.of_mem_zip hab).1)
      rw [List.zip_cons_cons, restore_cons, List.map_cons, table_restore_of_notMem hrest,
        table_setTable_self (hlt i List.mem_cons_self)]
      congr 1
      exact ih hnd (fun j hj => by rw [size_setTable]; exact hlt j (List.mem_cons_of_mem i hj))
        (by simpa using hlen)

theorem snapshot_eq_zip (s : Scopes) (i : ScopeId) :
    s.snapshot i = (s.chain i).zip ((s.chain i).map s.table) := by
  rw [snapshot, ← List.zip_map', List.map_id']

theorem map_fst_snapshot (s : Scopes) (i : ScopeId) : (s.snapshot i).map Prod.fst = s.chain i := by
  rw [snapshot, List.map_map]
  exact List.map_id' _

end Scopes

/-- Snapshots of the same scopes are merged table by table. -/
theorem Snapshot.merge_zip (ids : List ScopeId) (as bs : List Bindings) :
    Snapshot.merge (ids.zip as) (ids.zip bs) = ids.zip (List.zipWith Bindings.merge as bs) := by
  induction ids generalizing as bs with
  | nil => rfl
  | cons id ids ih =>
    cases as with
    | nil => rfl
    | cons a as =>
      cases bs with
      | nil => rfl
      | cons b bs =>
        show (id, Bindings.merge a b) :: Snapshot.merge (ids.zip as) (ids.zip bs) = _
        rw [ih]; rfl

end FlowTyping
