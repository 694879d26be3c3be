import FlowTyping.Registry
import Mathlib.Data.List.Nodup

/-!
# Looking up methods

What the operations on a module do to the method under a name and to what it returns.
-/

namespace FlowTyping

theorem Instance.find?_upsert (combine : Ty → Ty → Ty) (signature other : Signature) (returns : Ty)
    (is : List Instance) :
    find? other (upsert combine signature returns is) =
      if other = signature then
        some ⟨signature, ((find? signature is).map fun i => combine i.returns returns).getD returns⟩
      else find? other is := by
  unfold find?
  induction is with
  | nil =>
    by_cases h : other = signature
    · subst h; simp [upsert]
    · simp [upsert, h, Ne.symm h]
  | cons i is ih =>
    rw [upsert]
    by_cases hi : i.signature = signature
    · by_cases h : other = signature
      · subst h; simp [hi]
      · simp [hi, h, Ne.symm h]
    · by_cases h : other = signature
      · subst h; simp [hi, ih]
      · rw [if_neg hi, if_neg h, List.find?_cons, List.find?_cons, ih, if_neg h]

theorem Instance.signatures_upsert (combine : Ty → Ty → Ty) (signature : Signature) (returns : Ty)
    (is : List Instance) :
    (upsert combine signature returns is).map Instance.signature =
      if signature ∈ is.map Instance.signature then is.map Instance.signature
      else is.map Instance.signature ++ [signature] := by
  induction is with
  | nil => rfl
  | cons i is ih =>
    rw [upsert, List.map_cons]
    by_cases hi : i.signature = signature
    · rw [if_pos hi, if_pos (hi ▸ List.mem_cons_self), List.map_cons, hi]
    · rw [if_neg hi, List.map_cons, ih]
      simp only [List.mem_cons, Ne.symm hi, false_or]
      split <;> rfl

namespace Method

theorem returns?_store (m : Method) (signature other : Signature) (ty : Ty) :
    (m.store signature ty).returns? other =
      if other = signature then some ty else m.returns? other := by
  unfold returns? store
  rw [Instance.find?_upsert]
  by_cases h : other = signature
  · rw [if_pos h, if_pos h]
    cases Instance.find? signature m.instances <;> rfl
  · rw [if_neg h, if_neg h]

/-- Where each signature has one instance, the instances are what the method is known to return. -/
theorem returns?_eq_some_iff {m : Method} (hnodup : (m.instances.map Instance.signature).Nodup)
    {i : Instance} : m.returns? i.signature = some i.returns ↔ i ∈ m.instances := by
  unfold returns? Instance.find?
  rw [Option.map_eq_some_iff]
  constructor
  · rintro ⟨⟨signature, returns⟩, hfound, rfl⟩
    obtain rfl : signature = i.signature := by simpa using List.find?_some hfound
    exact List.mem_of_find?_eq_some hfound
  · intro hi
    have hsome : (m.instances.find? fun j => j.signature == i.signature).isSome :=
      List.find?_isSome.2 ⟨i, hi, beq_self_eq_true _⟩
    obtain ⟨j, hfound⟩ := Option.isSome_iff_exists.1 hsome
    have hsignature : j.signature = i.signature := by simpa using List.find?_some hfound
    have hji := List.inj_on_of_nodup_map hnodup (List.mem_of_find?_eq_some hfound) hi hsignature
    exact ⟨j, hfound, congrArg Instance.returns hji⟩

end Method

namespace Module
variable {M : Module} {m : Method} {x name : String}

theorem mem_of_method? (h : M.method? x = some m) : m ∈ M.methods := List.mem_of_find?_eq_some h

theorem name_of_method? (h : M.method? x = some m) : m.name = x := by
  simpa using List.find?_some h

theorem method?_updateMethod {f : Method → Method} (hf : ∀ m, (f m).name = m.name) :
    (M.updateMethod name f).method? x = if x = name then (M.method? x).map f else M.method? x := by
  unfold method? updateMethod
  rw [List.find?_map]
  have hname : ((fun m : Method => m.name == x) ∘ fun m => if m.name = name then f m else m) =
      fun m => m.name == x := by
    funext m
    show ((if m.name = name then f m else m).name == x) = (m.name == x)
    split
    · rw [hf]
    · rfl
  rw [hname]
  cases h : M.methods.find? fun m => m.name == x with
  | none => simp
  | some m =>
    have : m.name = x := by simpa using List.find?_some h
    by_cases hx : x = name
    · rw [if_pos hx]; simp [this, hx]
    · rw [if_neg hx]; simp [this, hx]

theorem method?_store (M : Module) (name : String) (signature : Signature) (ty : Ty) (x : String) :
    (M.updateMethod name (·.store signature ty)).method? x =
      if x = name then (M.method? x).map (·.store signature ty) else M.method? x :=
  method?_updateMethod (f := (·.store signature ty)) fun _ => rfl

theorem method?_observe (M : Module) (name : String) (signature : Signature) (ty : Ty) (x : String) :
    (M.updateMethod name (·.observe signature ty)).method? x =
      if x = name then (M.method? x).map (·.observe signature ty) else M.method? x :=
  method?_updateMethod (f := (·.observe signature ty)) fun _ => rfl

theorem find?_putMethod (new : Method) (ms : List Method) (x : String) :
    (putMethod new ms).find? (·.name == x) =
      if x = new.name then some new else ms.find? (·.name == x) := by
  induction ms with
  | nil =>
    by_cases h : x = new.name
    · simp [putMethod, h]
    · simp [putMethod, h, Ne.symm h]
  | cons m ms ih =>
    rw [putMethod]
    by_cases hm : m.name = new.name
    · rw [if_pos hm]
      by_cases h : x = new.name
      · simp [h]
      · have : m.name ≠ x := fun h' => h (h'.symm.trans hm)
        simp [h, Ne.symm h, this]
    · rw [if_neg hm]
      by_cases h : x = new.name
      · have : m.name ≠ x := fun h' => hm (h'.trans h)
        rw [List.find?_cons_of_neg (by simpa using this), ih, if_pos h, if_pos h]
      · rw [List.find?_cons, List.find?_cons, ih, if_neg h, if_neg h]

/-- What a name is defined as. -/
def definition? (M : Module) (x : String) : Option (Definition Expr) :=
  (M.method? x).map Method.definition

theorem definition?_congr {M' : Module} (h : M.methods = M'.methods) :
    M.definition? = M'.definition? := by
  funext x; unfold definition? method?; rw [h]

theorem definition?_of_method? (h : M.method? x = some m) : M.definition? x = some m.definition := by
  rw [definition?, h]; rfl

theorem exists_of_definition? {d : Definition Expr} (h : M.definition? x = some d) :
    ∃ m, M.method? x = some m ∧ m.definition = d := Option.map_eq_some_iff.1 h

theorem definition?_updateMethod {f : Method → Method} (hf : ∀ m, (f m).definition = m.definition)
    (M : Module) (name : String) : (M.updateMethod name f).definition? = M.definition? := by
  funext x
  unfold definition?
  rw [method?_updateMethod fun m => by unfold Method.name; rw [hf]]
  split
  · cases M.method? x with
    | none => rfl
    | some m => exact congrArg some (hf m)
  · rfl

theorem definition?_store (M : Module) (name : String) (signature : Signature) (ty : Ty) :
    (M.updateMethod name (·.store signature ty)).definition? = M.definition? :=
  definition?_updateMethod (f := (·.store signature ty)) (fun _ => rfl) M name

theorem definition?_observe (M : Module) (name : String) (signature : Signature) (ty : Ty) :
    (M.updateMethod name (·.observe signature ty)).definition? = M.definition? :=
  definition?_updateMethod (f := (·.observe signature ty)) (fun _ => rfl) M name

theorem method?_define (M : Module) (d : Definition Expr) (x : String) :
    (M.define d).method? x = if x = d.name.name then some { definition := d } else M.method? x :=
  find?_putMethod _ _ _

theorem definition?_define (M : Module) (d : Definition Expr) (x : String) :
    (M.define d).definition? x = if x = d.name.name then some d else M.definition? x := by
  unfold definition?
  rw [method?_define]
  split <;> rfl

end Module
end FlowTyping
