import FlowTyping.Table
import FlowTyping.Ty

/-!
# Binding tables

A binding table holds the types that the local names of one scope have at one point of the program.
Where two ways through a program meet, their tables are merged: a name gets all types that it may
have on either way, and `Nil` besides if it is bound on one way only (`Bindings.get?_merge`).
-/

namespace FlowTyping

/-- The types of local names. -/
abbrev Bindings := Table String Ty

namespace Bindings

/-- The type that a name has after a merge, given what it has on either side. -/
def meeting : Option Ty → Option Ty → Option Ty
  | none, none => none
  | some t, u => some (t.join (u.getD .nil))
  | none, some u => some (u.join .nil)

/-- The table where two ways meet. -/
def merge (a b : Bindings) : Bindings :=
  let names := a.entries.map (·.1) ++ b.entries.map (·.1)
  names.foldl (fun t name => t.insert name ((meeting (a.get? name) (b.get? name)).getD .nil)) .empty

/-- The type under a name after inserting one type for each name of a list. -/
theorem get?_foldl_insert (f : String → Ty) (names : List String) (t : Bindings) (x : String) :
    (names.foldl (fun t name => Table.insert t name (f name)) t).get? x =
      if x ∈ names then some (f x) else t.get? x := by
  induction names generalizing t with
  | nil => simp
  | cons n ns ih =>
    rw [List.foldl_cons, ih, Table.get?_insert]
    by_cases h₁ : x ∈ ns
    · simp [h₁]
    · by_cases h₂ : x = n
      · simp [h₂]
      · simp [h₁, h₂]

theorem mem_keys_iff (t : Bindings) (x : String) :
    x ∈ t.entries.map (·.1) ↔ ∃ ty, t.get? x = some ty := by
  constructor
  · intro h
    obtain ⟨⟨n, ty⟩, hm, rfl⟩ := List.mem_map.mp h
    exact ⟨ty, (Table.lookup_eq_some_iff t.increasing).mpr hm⟩
  · rintro ⟨ty, h⟩
    exact List.mem_map.mpr ⟨(x, ty), (Table.lookup_eq_some_iff t.increasing).mp h, rfl⟩

/-- A merge looks up a name on both sides. -/
theorem get?_merge (a b : Bindings) (x : String) :
    (merge a b).get? x = meeting (a.get? x) (b.get? x) := by
  rw [merge, get?_foldl_insert]
  split
  · next h =>
    rcases List.mem_append.mp h with h | h
    all_goals
      obtain ⟨ty, h⟩ := (mem_keys_iff _ x).mp h
      cases ha : a.get? x <;> cases hb : b.get? x <;> simp_all [meeting]
  · next h =>
    have ha : a.get? x = none := Option.eq_none_iff_forall_ne_some.mpr fun ty hty =>
      h (List.mem_append.mpr (.inl ((mem_keys_iff a x).mpr ⟨ty, hty⟩)))
    have hb : b.get? x = none := Option.eq_none_iff_forall_ne_some.mpr fun ty hty =>
      h (List.mem_append.mpr (.inr ((mem_keys_iff b x).mpr ⟨ty, hty⟩)))
    rw [ha, hb]
    rfl

end Bindings

end FlowTyping
