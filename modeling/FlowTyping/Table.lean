/-!
# Tables

A table holds values under keys.  It is a list with strictly increasing keys, so two tables are
equal exactly if they hold the same values under the same keys (`Table.ext_get?`).
-/

namespace FlowTyping

/-! ### Lists with keys -/

namespace Table

variable {κ : Type} [Ord κ] {β : Type}

/-- The keys of the list increase strictly. -/
def Increasing (es : List (κ × β)) : Prop := es.Pairwise fun a b => compare a.1 b.1 = .lt

/-- Puts a value under a key into a list with increasing keys, in place of an earlier one. -/
def put (key : κ) (value : β) : List (κ × β) → List (κ × β)
  | [] => [(key, value)]
  | (k, v) :: es =>
    match compare key k with
    | .lt => (key, value) :: (k, v) :: es
    | .eq => (key, value) :: es
    | .gt => (k, v) :: put key value es

variable [DecidableEq κ]

omit [Ord κ] in
theorem lookup_cons_ite (k' : κ) (v : β) (es : List (κ × β)) (k : κ) :
    ((k', v) :: es).lookup k = if k = k' then some v else es.lookup k := by
  show (match k == k' with | true => some v | false => es.lookup k) = _
  by_cases h : k = k'
  · rw [if_pos h, beq_iff_eq.2 h]
  · rw [if_neg h, beq_eq_false_iff_ne.2 h]

omit [DecidableEq κ] in
theorem mem_put {key : κ} {value : β} {e : κ × β} {es : List (κ × β)} (h : e ∈ put key value es) :
    e = (key, value) ∨ e ∈ es := by
  induction es with
  | nil => simpa [put] using h
  | cons a es ih =>
    rw [put] at h
    split at h
    · simpa using h
    · rcases List.mem_cons.mp h with h | h
      · exact .inl h
      · exact .inr (List.mem_cons_of_mem _ h)
    · rcases List.mem_cons.mp h with h | h
      · exact .inr (h ▸ List.mem_cons_self)
      · exact (ih h).imp_right (List.mem_cons_of_mem _)

variable [Std.LawfulEqOrd κ]

theorem lookup_put (key : κ) (value : β) (k : κ) (es : List (κ × β)) :
    (put key value es).lookup k = if k = key then some value else es.lookup k := by
  induction es with
  | nil => rw [put, lookup_cons_ite]
  | cons e es ih =>
    obtain ⟨k', v'⟩ := e
    rw [put]
    split
    · rw [lookup_cons_ite]
    · next h =>
      have := Std.LawfulEqOrd.eq_of_compare h
      subst this
      rw [lookup_cons_ite, lookup_cons_ite]
      split <;> rfl
    · next h =>
      have hne : key ≠ k' := by
        rintro rfl
        simp at h
      rw [lookup_cons_ite, lookup_cons_ite, ih]
      by_cases hk : k = k'
      · rw [if_pos hk, if_pos hk, if_neg (hk ▸ Ne.symm hne)]
      · rw [if_neg hk, if_neg hk]

variable [Std.TransOrd κ]

omit [DecidableEq κ] in
theorem Increasing.put {key : κ} {value : β} {es : List (κ × β)} (h : Increasing es) :
    Increasing (put key value es) := by
  induction es with
  | nil => simp [Table.put, Increasing]
  | cons a es ih =>
    obtain ⟨k, v⟩ := a
    rw [Table.put]
    split
    · next hlt =>
      refine List.pairwise_cons.mpr ⟨fun x hx => ?_, h⟩
      rcases List.mem_cons.mp hx with rfl | hx
      · exact hlt
      · exact Std.TransCmp.lt_trans hlt (List.rel_of_pairwise_cons h hx)
    · next heq =>
      have := Std.LawfulEqOrd.eq_of_compare heq
      subst this
      exact List.pairwise_cons.mpr ⟨fun x hx => List.rel_of_pairwise_cons h hx, h.of_cons⟩
    · next hgt =>
      refine List.pairwise_cons.mpr ⟨fun x hx => ?_, ih h.of_cons⟩
      rcases mem_put hx with rfl | hx
      · exact Std.OrientedCmp.gt_iff_lt.mp hgt
      · exact List.rel_of_pairwise_cons h hx

omit [Std.TransOrd κ] in
theorem lookup_eq_some_iff {es : List (κ × β)} (h : Increasing es) {k : κ} {v : β} :
    es.lookup k = some v ↔ (k, v) ∈ es := by
  induction es with
  | nil => exact ⟨fun h => absurd h (by simp), fun h => absurd h List.not_mem_nil⟩
  | cons a es ih =>
    obtain ⟨k', v'⟩ := a
    by_cases hk : k = k'
    · subst hk
      simp only [lookup_cons_ite, if_true, Option.some.injEq, List.mem_cons, Prod.mk.injEq, true_and]
      constructor
      · exact fun he => .inl he.symm
      · rintro (he | hm)
        · exact he.symm
        · have := List.rel_of_pairwise_cons h hm
          simp at this
    · rw [lookup_cons_ite, if_neg hk, ih h.of_cons, List.mem_cons]
      simp only [Prod.mk.injEq, hk, false_and, false_or]

/-- Lists with increasing keys that hold the same values under the same keys are equal. -/
theorem eq_of_lookup_eq {as bs : List (κ × β)} (ha : Increasing as) (hb : Increasing bs)
    (h : ∀ k, as.lookup k = bs.lookup k) : as = bs := by
  have mem_iff : ∀ e, e ∈ as ↔ e ∈ bs := fun ⟨k, v⟩ => by
    rw [← lookup_eq_some_iff ha, ← lookup_eq_some_iff hb, h k]
  clear h
  induction as generalizing bs with
  | nil =>
    cases bs with
    | nil => rfl
    | cons b bs => simpa using mem_iff b
  | cons a as ih =>
    cases bs with
    | nil => simpa using mem_iff a
    | cons b bs =>
      have irrefl (x : κ) : compare x x ≠ .lt := by simp
      have hab : a = b := by
        rcases List.mem_cons.mp ((mem_iff a).mp List.mem_cons_self) with h₁ | h₁
        · exact h₁
        · rcases List.mem_cons.mp ((mem_iff b).mpr List.mem_cons_self) with h₂ | h₂
          · exact h₂.symm
          · exact absurd (Std.TransCmp.lt_trans (List.rel_of_pairwise_cons ha h₂)
              (List.rel_of_pairwise_cons hb h₁)) (irrefl _)
      subst hab
      refine congrArg _ (ih ha.of_cons hb.of_cons fun x => ?_)
      have hx := mem_iff x
      simp only [List.mem_cons] at hx
      have hxa : x ∈ as → x ≠ a := fun hm he =>
        irrefl _ (he ▸ List.rel_of_pairwise_cons ha hm)
      have hxb : x ∈ bs → x ≠ a := fun hm he =>
        irrefl _ (he ▸ List.rel_of_pairwise_cons hb hm)
      exact ⟨fun hm => (hx.mp (.inr hm)).resolve_left (hxa hm),
        fun hm => (hx.mpr (.inr hm)).resolve_left (hxb hm)⟩

end Table

/-! ### Tables -/

/-- Values under keys, in the order of the keys. -/
structure Table (κ β : Type) [Ord κ] where
  entries : List (κ × β)
  increasing : Table.Increasing entries
deriving DecidableEq

namespace Table

variable {κ : Type} [Ord κ] {β : Type}

instance [Repr κ] [Repr β] : Repr (Table κ β) := ⟨fun t _ => repr t.entries⟩

def empty : Table κ β := ⟨[], .nil⟩

instance : Inhabited (Table κ β) := ⟨empty⟩

def size (t : Table κ β) : Nat := t.entries.length

def isEmpty (t : Table κ β) : Bool := t.entries.isEmpty

variable [DecidableEq κ]

/-- The value under a key. -/
def get? (t : Table κ β) (key : κ) : Option β := t.entries.lookup key

def contains (t : Table κ β) (key : κ) : Bool := (t.get? key).isSome

@[simp] theorem get?_empty (key : κ) : (empty : Table κ β).get? key = none := rfl

variable [Std.TransOrd κ] [Std.LawfulEqOrd κ]

/-- The table with a value under a key, whatever was there. -/
def insert (t : Table κ β) (key : κ) (value : β) : Table κ β :=
  ⟨put key value t.entries, t.increasing.put⟩

@[simp] theorem get?_insert (t : Table κ β) (key k : κ) (value : β) :
    (t.insert key value).get? k = if k = key then some value else t.get? k :=
  lookup_put key value k t.entries

/-- Two tables that hold the same values under the same keys are equal. -/
theorem ext_get? {a b : Table κ β} (h : ∀ k, a.get? k = b.get? k) : a = b := by
  have he : a.entries = b.entries := eq_of_lookup_eq a.increasing b.increasing h
  cases a
  cases b
  simp only at he
  subst he
  rfl

end Table

end FlowTyping
