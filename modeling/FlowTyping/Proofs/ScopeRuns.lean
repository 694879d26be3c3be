import FlowTyping.Proofs.Refinement
import Mathlib.Logic.Relation

/-!
# Scopes as stacks of tables

`Scopes.Store.frames_of_leads`: after any operations on scopes and snapshots of them, each scope stands on a stack of
tables, its chain.  A scope is made after the one around it (`Scopes.Ordered`), so the way outwards ends and
never comes back.  A name is read where the stack first binds it, an assignment writes one entry, and a
snapshot that is put back brings back the tables of its chain and no others.
-/

namespace FlowTyping
namespace Scopes

variable {s t u : Scopes} {i j k : ScopeId} {x y : String} {ty : Ty}

/-! ### The way outwards -/

/-- A scope is made after the one around it. -/
def Ordered (s : Scopes) : Prop := ∀ i j, s.parent? i = some j → j < i

/-- The scopes from one outwards, up to one that has none around it. -/
inductive Outward (s : Scopes) : ScopeId → List ScopeId → Prop
  | outermost {i : ScopeId} (h : s.parent? i = none) : Outward s i [i]
  | inside {i j : ScopeId} {ids : List ScopeId} (h : s.parent? i = some j) (hj : Outward s j ids) :
    Outward s i (i :: ids)

theorem Ordered.congr (h : s.Ordered) (hst : ∀ i, t.parent? i = s.parent? i) : t.Ordered :=
  fun i j hij => h i j (hst i ▸ hij)

theorem Ordered.push (h : s.Ordered) {parent? : Option ScopeId} (hp : ∀ p ∈ parent?, p < s.size) :
    (s.push parent?).1.Ordered := by
  intro i j hij
  rcases Nat.lt_trichotomy i s.size with hi | rfl | hi
  · rw [parent?_push_of_lt hi] at hij
    exact h i j hij
  · rw [parent?_push_self] at hij
    exact hp j hij
  · have hnone : (s.push parent?).1.cells[i]? = none := by
      refine Array.getElem?_eq_none ?_
      have : (s.push parent?).1.size = s.size + 1 := size_push
      simp only [size] at this hi
      omega
    simp [parent?_eq, hnone] at hij

theorem Ordered.outward (h : s.Ordered) (i : ScopeId) : s.Outward i (s.chain i) := by
  induction i using Nat.strongRecOn with
  | ind i ih =>
    cases hi : s.parent? i with
    | none =>
      rw [chain_of_parent?_eq_none hi]
      exact .outermost hi
    | some j =>
      have hj := h i j hi
      rw [chain_of_parent?_eq_some hi hj]
      exact .inside hi (ih j hj)

/-! ### Reading -/

/-- The first scope from `i` outwards that binds a name. -/
def Resolves (s : Scopes) (i : ScopeId) (x : String) (j : ScopeId) : Prop :=
  ∃ inner outer, s.chain i = inner ++ j :: outer ∧ (∀ k ∈ inner, (s.table k).get? x = none) ∧
    (s.table j).contains x

theorem lookup_eq_some_iff :
    s.lookup i x = some ty ↔ ∃ j, s.Resolves i x j ∧ (s.table j).get? x = some ty := by
  rw [lookup, List.findSome?_eq_some_iff]
  constructor
  · rintro ⟨inner, j, outer, hchain, hty, hinner⟩
    exact ⟨j, ⟨inner, outer, hchain, hinner, by rw [Table.contains, hty]; rfl⟩, hty⟩
  · rintro ⟨j, ⟨inner, outer, hchain, hinner, -⟩, hty⟩
    exact ⟨inner, j, outer, hchain, hty, hinner⟩

theorem lookup_eq_none_iff : s.lookup i x = none ↔ ∀ j ∈ s.chain i, (s.table j).get? x = none :=
  List.findSome?_eq_none_iff

/-! ### Writing -/

/-- The scope that an assignment in `i` writes to: the first one that binds the name, or else `i` itself. -/
def Receives (s : Scopes) (i : ScopeId) (x : String) (j : ScopeId) : Prop :=
  s.Resolves i x j ∨ (∀ k ∈ s.chain i, (s.table k).get? x = none) ∧ j = i

/-- `t` is `s` with one entry written. -/
structure Rebound (s t : Scopes) (j : ScopeId) (x : String) (ty : Ty) : Prop where
  size : t.size = s.size
  parent? : ∀ k, t.parent? k = s.parent? k
  get? : ∀ k y, (t.table k).get? y = if k = j ∧ y = x then some ty else (s.table k).get? y

theorem receives_holder (s : Scopes) (i : ScopeId) (x : String) : s.Receives i x (s.holder i x) := by
  unfold holder
  cases h : (s.chain i).find? fun id => (s.table id).contains x with
  | none =>
    refine .inr ⟨fun k hk => ?_, rfl⟩
    simpa [Table.contains] using List.find?_eq_none.1 h k hk
  | some j =>
    obtain ⟨hj, inner, outer, hchain, hinner⟩ := List.find?_eq_some_iff_append.1 h
    exact .inl ⟨inner, outer, hchain, fun k hk => by simpa [Table.contains] using hinner k hk, hj⟩

theorem rebound_declare (hj : j < s.size) (x : String) (ty : Ty) : s.Rebound (s.declare j x ty) j x ty where
  size := size_setTable
  parent? _ := parent?_setTable
  get? k y := by
    rcases eq_or_ne k j with rfl | hk
    · simp [declare, table_setTable_self hj]
    · simp [declare, table_setTable_ne hk, hk]

namespace Rebound
variable (h : s.Rebound t j x ty)
include h

theorem chain (k : ScopeId) : t.chain k = s.chain k := chain_congr fun i _ => h.parent? i

theorem get?_ne (hk : k ≠ j) : (t.table k).get? y = (s.table k).get? y := by
  rw [h.get?, if_neg fun hkj => hk hkj.1]

theorem get?_self : (t.table j).get? x = some ty := by rw [h.get?, if_pos ⟨rfl, rfl⟩]

/-- The scope that receives the entry is the one that the name is read from afterwards. -/
theorem resolves (hj : s.Receives i x j) : t.Resolves i x j := by
  have hcontains : (t.table j).contains x := by rw [Table.contains, h.get?_self]; rfl
  rcases hj with ⟨inner, outer, hchain, hinner, hj⟩ | ⟨-, rfl⟩
  · refine ⟨inner, outer, (h.chain i).trans hchain, fun k hk => ?_, hcontains⟩
    have hkj : k ≠ j := by
      rintro rfl
      simp [Table.contains, hinner k hk] at hj
    rw [h.get?_ne hkj, hinner k hk]
  · refine ⟨[], (t.chain j).tail, ?_, fun k hk => absurd hk List.not_mem_nil, hcontains⟩
    rw [List.nil_append, List.cons_head?_tail (t.head?_chain j)]

theorem lookup_self (hj : s.Receives i x j) : t.lookup i x = some ty :=
  lookup_eq_some_iff.2 ⟨j, h.resolves hj, h.get?_self⟩

theorem lookup_ne (hy : y ≠ x) (k : ScopeId) : t.lookup k y = s.lookup k y := by
  rw [lookup, lookup, h.chain]
  congr 1
  funext i
  rw [h.get?, if_neg fun hij => hy hij.2]

/-- Where a name is not read from the entry, it is read as before. -/
theorem lookup_of_not_resolves (hk : ¬ t.Resolves k x j) : t.lookup k x = s.lookup k x := by
  have hbound : (t.table j).get? x ≠ none := by simp [h.get?_self]
  cases hlookup : t.lookup k x with
  | some v =>
    obtain ⟨m, hm, hv⟩ := lookup_eq_some_iff.1 hlookup
    have hmj : m ≠ j := by
      rintro rfl
      exact hk hm
    obtain ⟨inner, outer, hchain, hinner, hcontains⟩ := hm
    refine (lookup_eq_some_iff.2 ⟨m, ⟨inner, outer, (h.chain k).symm.trans hchain, fun n hn => ?_, ?_⟩, ?_⟩).symm
    · have hnj : n ≠ j := by
        rintro rfl
        exact hbound (hinner n hn)
      rw [← h.get?_ne hnj, hinner n hn]
    · rwa [Table.contains, ← h.get?_ne hmj]
    · rwa [← h.get?_ne hmj]
  | none =>
    have hnone := lookup_eq_none_iff.1 hlookup
    refine (lookup_eq_none_iff.2 fun n hn => ?_).symm
    rw [← h.chain] at hn
    have hnj : n ≠ j := by
      rintro rfl
      exact hbound (hnone n hn)
    rw [← h.get?_ne hnj, hnone n hn]

end Rebound

/-! ### Putting a snapshot back -/

/-- A snapshot brings back the tables of its chain, and no others. -/
theorem table_restore_snapshot (hg : s.Grown t) (hi : i < s.size) (j : ScopeId) :
    (t.restore (s.snapshot i)).table j = if j ∈ s.chain i then s.table j else t.table j := by
  split
  · next hj =>
    have hlt : ∀ k ∈ s.chain i, k < t.size := fun k hk => hg.lt (lt_of_mem_chain hi hk)
    have htables : (s.chain i).map (t.restore (s.snapshot i)).table = (s.chain i).map s.table := by
      rw [snapshot_eq_zip]
      exact map_table_restore (s.chain_nodup i) hlt (List.length_map _).symm
    exact List.map_inj_left.1 htables j hj
  · next hj => exact table_restore_of_notMem (by rwa [map_fst_snapshot])

/-! ### Runs of operations -/

/-- Scopes with the snapshots that were taken of them, each with the scope that it is for. -/
structure Store where
  scopes : Scopes
  saved : List (ScopeId × Snapshot)

namespace Store

def initial : Store := ⟨.initial, []⟩

/-- The operations on scopes. -/
inductive Step : Store → Store → Prop
  | push {σ : Store} {parent? : Option ScopeId} (hp : ∀ p ∈ parent?, p < σ.scopes.size) :
    Step σ { σ with scopes := (σ.scopes.push parent?).1 }
  | declare {σ : Store} {i : ScopeId} (hi : i < σ.scopes.size) (x : String) (ty : Ty) :
    Step σ { σ with scopes := σ.scopes.declare i x ty }
  | assign {σ : Store} {i : ScopeId} (hi : i < σ.scopes.size) (x : String) (ty : Ty) :
    Step σ { σ with scopes := σ.scopes.assign i x ty }
  | snapshot {σ : Store} {i : ScopeId} (hi : i < σ.scopes.size) :
    Step σ { σ with saved := (i, σ.scopes.snapshot i) :: σ.saved }
  | merge {σ : Store} {i : ScopeId} {a b : Snapshot} (ha : (i, a) ∈ σ.saved) (hb : (i, b) ∈ σ.saved) :
    Step σ { σ with saved := (i, a.merge b) :: σ.saved }
  | restore {σ : Store} {i : ScopeId} {a : Snapshot} (ha : (i, a) ∈ σ.saved) :
    Step σ { σ with scopes := σ.scopes.restore a }

/-- Any number of operations. -/
abbrev Leads : Store → Store → Prop := Relation.ReflTransGen Step

variable {σ τ : Store}

theorem Step.grown (h : Step σ τ) : σ.scopes.Grown τ.scopes := by
  cases h with
  | push hp => exact .push _ _
  | declare hi x ty => exact .setTable _ _ _
  | assign hi x ty => exact .setTable _ _ _
  | snapshot hi => exact .refl _
  | merge ha hb => exact .refl _
  | restore ha => exact .restore _ _

theorem Step.ordered (h : Step σ τ) (hσ : σ.scopes.Ordered) : τ.scopes.Ordered := by
  cases h with
  | push hp => exact hσ.push hp
  | declare hi x ty => exact hσ.congr fun _ => parent?_setTable
  | assign hi x ty => exact hσ.congr fun _ => parent?_setTable
  | snapshot hi => exact hσ
  | merge ha hb => exact hσ
  | restore ha => exact hσ.congr fun _ => parent?_restore _

theorem Leads.grown (h : σ.Leads τ) : σ.scopes.Grown τ.scopes := by
  induction h with
  | refl => exact .refl _
  | tail _ hstep ih => exact ih.trans hstep.grown

theorem Leads.ordered (h : σ.Leads τ) (hσ : σ.scopes.Ordered) : τ.scopes.Ordered := by
  induction h with
  | refl => exact hσ
  | tail _ hstep ih => exact hstep.ordered ih

theorem ordered_initial : initial.scopes.Ordered := by
  intro i j hij
  rcases i with _ | i <;> simp [initial, Scopes.initial, parent?_eq] at hij

/-- After any operations a scope stands on a finite stack of tables.  A name is read from the first one that
binds it; an assignment writes one entry, and only who reads this entry sees it; and a snapshot brings back
the tables of its chain whatever was done since, and leaves the others alone. -/
theorem frames_of_leads (h : initial.Leads σ) :
    (∀ i < σ.scopes.size, σ.scopes.Outward i (σ.scopes.chain i) ∧ (σ.scopes.chain i).Nodup ∧
      ∀ j ∈ σ.scopes.chain i, j < σ.scopes.size) ∧
    (∀ i < σ.scopes.size, ∀ x ty, σ.scopes.lookup i x = some ty ↔
      ∃ j, σ.scopes.Resolves i x j ∧ (σ.scopes.table j).get? x = some ty) ∧
    (∀ i < σ.scopes.size, ∀ x ty, ∃ j t, t = σ.scopes.assign i x ty ∧
      σ.scopes.Receives i x j ∧ σ.scopes.Rebound t j x ty ∧ t.lookup i x = some ty ∧
      (∀ k y, y ≠ x → t.lookup k y = σ.scopes.lookup k y) ∧
      ∀ k, ¬ t.Resolves k x j → t.lookup k x = σ.scopes.lookup k x) ∧
    ∀ τ, σ.Leads τ → ∀ i < σ.scopes.size, ∃ t, t = τ.scopes.restore (σ.scopes.snapshot i) ∧
      t.size = τ.scopes.size ∧ τ.scopes.chain i = σ.scopes.chain i ∧
      ∀ j, t.parent? j = τ.scopes.parent? j ∧
        t.table j = if j ∈ σ.scopes.chain i then σ.scopes.table j else τ.scopes.table j := by
  refine ⟨fun i hi => ⟨(h.ordered ordered_initial).outward i, chain_nodup _ i, fun j => lt_of_mem_chain hi⟩,
    fun i _ x ty => lookup_eq_some_iff, fun i hi x ty => ?_, fun τ hτ i hi => ?_⟩
  · have hj := receives_holder σ.scopes i x
    have hlt : σ.scopes.holder i x < σ.scopes.size := lt_of_mem_chain hi (mem_chain_of_holder _ i x)
    have hrebound := rebound_declare hlt x ty
    exact ⟨_, _, rfl, hj, hrebound, hrebound.lookup_self hj, fun k y hy => hrebound.lookup_ne hy k,
      fun k => hrebound.lookup_of_not_resolves⟩
  · have hg := hτ.grown
    exact ⟨_, rfl, size_restore _, hg.chain hi, fun j =>
      ⟨parent?_restore _, table_restore_snapshot hg hi j⟩⟩

/-- A name at the top level, the scope of a block there, and the scope of a method. -/
def nested : Store where
  scopes := ⟨#[⟨none, Table.empty.insert "x" .int⟩, ⟨some 0, .empty⟩, ⟨none, .empty⟩]⟩
  saved := []

/-- The method has a name of its own now, and what the block assigned to the other one has been merged with
what it was before. -/
def merged : Store :=
  let before := nested.scopes.snapshot 1
  let written := (nested.scopes.declare 2 "x" .string).assign 1 "x" .char
  let after := written.snapshot 1
  ⟨written.restore (before.merge after), [(1, before.merge after), (1, after), (1, before)]⟩

theorem leads_nested : initial.Leads nested :=
  ((Relation.ReflTransGen.single (.declare (i := 0) (by decide) "x" .int)).tail
    (@Step.push _ (some 0) (by decide))).tail (@Step.push _ none (by decide))

theorem leads_merged : nested.Leads merged := by
  refine .head (.snapshot (i := 1) (by decide)) (.head (.declare (i := 2) (by decide) "x" .string) ?_)
  refine .head (.assign (i := 1) (by decide) "x" .char) (.head (.snapshot (i := 1) ?_) ?_)
  · rw [assign, declare, size_setTable]
    decide
  · exact (Relation.ReflTransGen.single (.merge (List.mem_cons_of_mem _ List.mem_cons_self)
      List.mem_cons_self)).tail (.restore List.mem_cons_self)

theorem frames_of_leads_nested :
    initial.Leads nested ∧ nested.Leads merged ∧ merged.scopes.lookup 1 "x" = some (Ty.int.join .char) ∧
      ((merged.scopes.restore (nested.scopes.snapshot 1)).table 0).get? "x" = some .int ∧
      ((merged.scopes.restore (nested.scopes.snapshot 1)).table 2).get? "x" = some .string := by
  obtain ⟨t, rfl, -, -, ht⟩ := (frames_of_leads leads_nested).2.2.2 merged leads_merged 1 (by decide)
  have hchain : nested.scopes.chain 1 = [1, 0] := by decide +kernel
  refine ⟨leads_nested, leads_merged, by decide +kernel, ?_, ?_⟩
  · rw [(ht 0).2, hchain]
    decide +kernel
  · rw [(ht 2).2, hchain]
    decide +kernel

end Store
end Scopes
end FlowTyping
