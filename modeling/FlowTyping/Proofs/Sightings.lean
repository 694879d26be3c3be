import FlowTyping.Proofs.Sight

/-!
# What nodes were seen to be

The type of a node in a module covers every type that the node was seen to have.  So what a module
says of a node is known from the primitives that it has seen there (`Module.Sees`), and along a run
these only get more (`Module.Grows`).
-/

namespace FlowTyping

/-- The least type that covers all of a list, if there is anything in it. -/
def Ty.union? : List Ty → Option Ty
  | [] => none
  | t :: ts => some (unionOf (t :: ts))

theorem Ty.union?_eq_none_iff {tys : List Ty} : Ty.union? tys = none ↔ tys = [] := by
  cases tys <;> simp [Ty.union?]

namespace Module
variable {M N K : Module} {n k : NodeId} {x : String} {ty : Ty}

/-- A node was seen to have a type with the primitive. -/
def Sees (M : Module) (n : NodeId) (x : String) : Prop := ∃ ty, M.typeOf? n = some ty ∧ x ∈ ty

/-- A node was seen to have all of a type. -/
def SeesAll (M : Module) (n : NodeId) (ty : Ty) : Prop := ∀ x ∈ ty, M.Sees n x

theorem mem_annotations {i : NodeId} : (i, ty) ∈ M.annotations ↔ M.typeOf? i = some ty :=
  (Table.lookup_eq_some_iff M.types.increasing).symm

/-- A node has a type. -/
def Seen (M : Module) (n : NodeId) : Prop := ∃ x, M.Sees n x

theorem typeOf?_eq_some_iff : M.typeOf? n = some ty ↔ ∀ x, M.Sees n x ↔ x ∈ ty := by
  constructor
  · intro h x
    constructor
    · rintro ⟨_, hty, hx⟩
      cases h.symm.trans hty
      exact hx
    · exact fun hx => ⟨ty, h, hx⟩
  · intro h
    obtain ⟨x, hx⟩ := ty.exists_mem
    obtain ⟨ty', hty', -⟩ := (h x).2 hx
    rw [hty']
    refine congrArg some (Ty.ext_mem fun y => ?_)
    rw [← h y]
    constructor
    · exact fun hy => ⟨ty', hty', hy⟩
    · rintro ⟨_, hty, hy⟩
      cases hty'.symm.trans hty
      exact hy

theorem seen_iff : M.Seen n ↔ ∃ ty, M.typeOf? n = some ty := by
  constructor
  · rintro ⟨_, ty, hty, -⟩
    exact ⟨ty, hty⟩
  · rintro ⟨ty, hty⟩
    obtain ⟨x, hx⟩ := ty.exists_mem
    exact ⟨x, ty, hty, hx⟩

theorem typeOf?_eq_none_iff : M.typeOf? n = none ↔ ¬ M.Seen n := by
  rw [seen_iff, Option.eq_none_iff_forall_ne_some, not_exists]

/-- Nodes that were seen to have the same have the same type. -/
theorem typeOf?_congr (h : ∀ x, M.Sees n x ↔ N.Sees k x) : M.typeOf? n = N.typeOf? k := by
  cases hk : N.typeOf? k with
  | none =>
    rw [typeOf?_eq_none_iff] at hk ⊢
    rintro ⟨x, hx⟩
    exact hk ⟨x, (h x).1 hx⟩
  | some ty =>
    rw [typeOf?_eq_some_iff] at hk ⊢
    exact fun x => (h x).trans (hk x)

theorem typeOf?_eq_union? {tys : List Ty} (h : ∀ x, M.Sees n x ↔ ∃ ty ∈ tys, x ∈ ty) :
    M.typeOf? n = Ty.union? tys := by
  cases tys with
  | nil =>
    rw [Ty.union?, typeOf?_eq_none_iff]
    rintro ⟨x, hx⟩
    obtain ⟨ty, hty, -⟩ := (h x).1 hx
    exact List.not_mem_nil hty
  | cons t ts =>
    rw [Ty.union?, typeOf?_eq_some_iff]
    intro x
    rw [h, Ty.mem_unionOf (List.cons_ne_nil t ts)]

/-! ### Sightings along a run -/

theorem sees_record : (M.record n ty).Sees k x ↔ M.Sees k x ∨ k = n ∧ x ∈ ty := by
  unfold Sees record typeOf?
  rw [Table.get?_insert]
  by_cases hk : k = n
  · subst hk
    cases M.types.get? k <;> simp
  · simp [hk]

theorem sees_recordParams {params : List (Ident × Ty)} :
    (M.recordParams params).Sees k x ↔ M.Sees k x ∨ ∃ param ∈ params, k = param.1.id ∧ x ∈ param.2 := by
  unfold recordParams
  induction params generalizing M with
  | nil => simp
  | cons param params ih => rw [List.foldl_cons, ih, sees_record]; simp [or_assoc]

/-- Everything that was seen is seen in the second module. -/
def Grows (M N : Module) : Prop := ∀ n x, M.Sees n x → N.Sees n x

namespace Grows

theorem refl (M : Module) : M.Grows M := fun _ _ h => h

theorem trans (h₁ : M.Grows N) (h₂ : N.Grows K) : M.Grows K := fun n x h => h₂ n x (h₁ n x h)

theorem record (M : Module) (n : NodeId) (ty : Ty) : M.Grows (M.record n ty) :=
  fun _ _ h => sees_record.2 (.inl h)

theorem recordParams (M : Module) (params : List (Ident × Ty)) : M.Grows (M.recordParams params) :=
  fun _ _ h => sees_recordParams.2 (.inl h)

/-- Of methods the table says nothing. -/
theorem define (M : Module) (d : Definition Expr) : M.Grows (M.define d) := .refl M

theorem updateMethod (M : Module) (name : String) (f : Method → Method) :
    M.Grows (M.updateMethod name f) := .refl M

theorem seesAll (h : M.Grows N) (hn : M.SeesAll n ty) : N.SeesAll n ty :=
  fun x hx => h n x (hn x hx)

theorem seen (h : M.Grows N) : M.Seen n → N.Seen n := fun ⟨x, hx⟩ => ⟨x, h n x hx⟩

end Grows

theorem SeesAll.seen (h : M.SeesAll n ty) : M.Seen n := by
  obtain ⟨x, hx⟩ := ty.exists_mem
  exact ⟨x, h x hx⟩

end Module
end FlowTyping
