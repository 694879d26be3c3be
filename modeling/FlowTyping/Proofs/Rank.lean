import FlowTyping.Proofs.Sight
import Mathlib.Algebra.Group.Action.Defs
import Mathlib.Algebra.GroupWithZero.Nat
import Mathlib.Algebra.Order.BigOperators.Group.List
import Mathlib.Algebra.Order.Group.Nat
import Mathlib.Data.Finset.Prod

/-!
# How much tables say

A table of finitely many names, each at a set of the six primitives, says finitely much: there are
only so many pairs of a name and a primitive that it may have (`Bindings.card_facts_le`).  A merge
that changes tables makes them say more (`Snapshot.rank_lt_rank_merge`).
-/

namespace FlowTyping

/-! ### Types and tables of a program -/

/-- A set of the primitives that there are from the start. -/
def Ty.Basic (t : Ty) : Prop := ∀ q ∈ t, q ∈ Module.initial.primitives

theorem Literal.type_basic (v : Literal) : v.type.Basic := by
  intro q hq
  cases v <;> (rw [type] at hq; cases Ty.mem_prim.1 hq; decide)

namespace Ty

theorem nil_basic : nil.Basic := Literal.type_basic .nil

theorem Basic.join {a b : Ty} (ha : a.Basic) (hb : b.Basic) : (a.join b).Basic := fun q hq =>
  (mem_join.1 hq).elim (ha q) (hb q)

theorem unionOf_basic {ts : List Ty} (h : ∀ t ∈ ts, t.Basic) : (unionOf ts).Basic := by
  cases ts with
  | nil => exact nil_basic
  | cons t ts =>
    intro q hq
    obtain ⟨u, hu, hq⟩ := (mem_unionOf (List.cons_ne_nil t ts)).1 hq
    exact h u hu q hq

end Ty

namespace Bindings
variable {names : Finset String} {t u : Bindings}

/-- A table of some names, each at a set of the primitives. -/
def Within (names : Finset String) (t : Bindings) : Prop :=
  ∀ x ty, t.get? x = some ty → x ∈ names ∧ ty.Basic

theorem within_empty : Within names .empty := fun _ _ h => nomatch h

theorem Within.insert {x : String} {ty : Ty} (h : t.Within names) (hx : x ∈ names)
    (hty : ty.Basic) : Within names (t.insert x ty) := by
  intro y u hy
  rw [Table.get?_insert] at hy
  split at hy
  · next heq => cases hy; exact ⟨heq ▸ hx, hty⟩
  · exact h y u hy

theorem Within.merge (ht : t.Within names) (hu : u.Within names) : Within names (merge t u) := by
  intro x ty hx
  rw [get?_merge] at hx
  cases h₁ : t.get? x with
  | none =>
    cases h₂ : u.get? x with
    | none => rw [h₁, h₂] at hx; exact nomatch hx
    | some v =>
      rw [h₁, h₂] at hx; cases hx
      exact ⟨(hu x v h₂).1, (hu x v h₂).2.join Ty.nil_basic⟩
  | some v =>
    rw [h₁] at hx; cases hx
    refine ⟨(ht x v h₁).1, (ht x v h₁).2.join ?_⟩
    cases h₂ : u.get? x with
    | none => exact Ty.nil_basic
    | some w => exact (hu x w h₂).2

theorem within_ofParams {params : List (Ident × Ty)}
    (h : ∀ param ∈ params, param.1.name ∈ names ∧ param.2.Basic) : (ofParams params).Within names := by
  have key : ∀ t : Bindings, t.Within names →
      Within names (params.foldl (fun t param => t.insert param.1.name param.2) t) := by
    induction params with
    | nil => exact fun _ ht => ht
    | cons param params ih =>
      obtain ⟨hx, hty⟩ := h param List.mem_cons_self
      exact fun t ht => ih (fun q hq => h q (List.mem_cons_of_mem _ hq)) _ (ht.insert hx hty)
  exact key _ within_empty

/-! ### How much a table says -/

/-- The pairs of a name and a primitive that it may have. -/
def facts (t : Bindings) : Finset (String × String) :=
  (t.entries.flatMap fun entry => entry.2.names.map (entry.1, ·)).toFinset

theorem mem_facts {x q : String} : (x, q) ∈ t.facts ↔ ∃ ty, t.get? x = some ty ∧ q ∈ ty := by
  rw [facts, List.mem_toFinset, List.mem_flatMap]
  constructor
  · rintro ⟨⟨y, ty⟩, hm, hq⟩
    obtain ⟨r, hr, he⟩ := List.mem_map.1 hq
    cases he
    exact ⟨ty, (Table.lookup_eq_some_iff t.increasing).2 hm, hr⟩
  · rintro ⟨ty, hx, hq⟩
    exact ⟨(x, ty), (Table.lookup_eq_some_iff t.increasing).1 hx, List.mem_map.2 ⟨q, hq, rfl⟩⟩

theorem facts_subset_merge (t u : Bindings) : t.facts ⊆ (merge t u).facts := by
  rintro ⟨x, q⟩ h
  obtain ⟨ty, hx, hq⟩ := mem_facts.1 h
  refine mem_facts.2 ⟨ty.join ((u.get? x).getD .nil), ?_, Ty.mem_join.2 (.inl hq)⟩
  rw [get?_merge, hx]; rfl

/-- A table is what it says. -/
theorem ext_facts (h : t.facts = u.facts) : t = u := by
  have half {t u : Bindings} (h : t.facts = u.facts) {x : String} {v : Ty}
      (hx : t.get? x = some v) : u.get? x = some v := by
    have hq (q : String) : q ∈ v ↔ ∃ w, u.get? x = some w ∧ q ∈ w := by
      rw [← mem_facts, ← h, mem_facts]
      exact ⟨fun hq => ⟨v, hx, hq⟩, fun ⟨w, hw, hq⟩ => by cases hx.symm.trans hw; exact hq⟩
    obtain ⟨q, hv⟩ := v.exists_mem
    obtain ⟨w, hw, -⟩ := (hq q).1 hv
    rw [hw]
    refine congrArg some (Ty.ext_mem fun r => ?_)
    rw [hq r]
    exact ⟨fun hr => ⟨w, hw, hr⟩, fun ⟨w', hw', hr⟩ => by cases hw.symm.trans hw'; exact hr⟩
  refine Table.ext_get? fun x => ?_
  cases hx : t.get? x with
  | some v => exact (half h hx).symm
  | none =>
    cases hu : u.get? x with
    | none => rfl
    | some w => exact absurd (half h.symm hu) (by rw [hx]; exact nofun)

/-- What a table of some names at some primitives says is among their pairs. -/
theorem facts_subset_product {U : Finset String}
    (h : ∀ x ty, t.get? x = some ty → x ∈ names ∧ ∀ q ∈ ty, q ∈ U) : t.facts ⊆ names ×ˢ U := by
  rintro ⟨x, q⟩ hm
  obtain ⟨ty, hx, hq⟩ := mem_facts.1 hm
  exact Finset.mem_product.2 ⟨(h x ty hx).1, (h x ty hx).2 q hq⟩

theorem card_facts_le (h : t.Within names) : t.facts.card ≤ names.card * 6 := by
  have hsub : t.facts ⊆ names ×ˢ Module.initial.primitives.toFinset := facts_subset_product fun x ty hx =>
    ⟨(h x ty hx).1, fun q hq => List.mem_toFinset.2 ((h x ty hx).2 q hq)⟩
  calc t.facts.card ≤ (names ×ˢ Module.initial.primitives.toFinset).card := Finset.card_le_card hsub
    _ = names.card * 6 := by rw [Finset.card_product]; rfl

end Bindings

namespace Snapshot
variable {a b : Snapshot}

/-- How much the tables of a snapshot say. -/
def rank (saved : Snapshot) : Nat := (saved.map fun cell => cell.2.facts.card).sum

theorem rank_le_rank_merge (h : a.length = b.length) :
    rank a ≤ rank (merge a b) ∧ (rank (merge a b) ≤ rank a → merge a b = a) := by
  induction a generalizing b with
  | nil => exact ⟨Nat.le_refl _, fun _ => rfl⟩
  | cons cell a ih =>
    cases b with
    | nil => exact nomatch h
    | cons other b =>
      obtain ⟨hle, heq⟩ := ih (Nat.succ.inj h)
      have hcell := Finset.card_le_card (cell.2.facts_subset_merge other.2)
      have hcons : rank (merge (cell :: a) (other :: b)) =
          (Bindings.merge cell.2 other.2).facts.card + rank (merge a b) := rfl
      have hcons' : rank (cell :: a) = cell.2.facts.card + rank a := rfl
      rw [hcons, hcons']
      refine ⟨by omega, fun hback => ?_⟩
      have hfacts := Finset.eq_of_subset_of_card_le (cell.2.facts_subset_merge other.2) (by omega)
      show (cell.1, Bindings.merge cell.2 other.2) :: merge a b = cell :: a
      rw [heq (by omega), ← Bindings.ext_facts hfacts]

/-- Tables that a merge changes say more afterwards. -/
theorem rank_lt_rank_merge (h : a.length = b.length) (hne : a.merge b ≠ a) :
    a.rank < (a.merge b).rank := by
  obtain ⟨-, heq⟩ := rank_le_rank_merge h
  exact Nat.lt_of_not_le fun hle => hne (heq hle)

end Snapshot

theorem Scopes.rank_snapshot_le {s : Scopes} {names : Finset String}
    (h : ∀ i, (s.table i).Within names) (i : ScopeId) :
    (s.snapshot i).rank ≤ (s.chain i).length * (names.card * 6) := by
  rw [Snapshot.rank, snapshot, List.map_map]
  refine (List.sum_le_card_nsmul _ (names.card * 6) fun n hn => ?_).trans ?_
  · obtain ⟨j, -, rfl⟩ := List.mem_map.1 hn
    exact Bindings.card_facts_le (h j)
  · rw [List.length_map, smul_eq_mul]

end FlowTyping
