/-!
# Types

A type is the set of primitives that a value may belong to: never empty, and kept as a strictly
increasing list of names, so that two types are equal exactly if they have the same primitives
(`Ty.ext_mem`).  A type of one name is a primitive, any other type is a union.
-/

namespace FlowTyping

/-! ### Sets of names -/

/-- Puts a name into a strictly increasing list of names. -/
def insertName (name : String) : List String → List String
  | [] => [name]
  | n :: ns =>
    if name < n then name :: n :: ns
    else if name = n then n :: ns
    else n :: insertName name ns

theorem mem_insertName {name x : String} {ns : List String} :
    x ∈ insertName name ns ↔ x = name ∨ x ∈ ns := by
  fun_induction insertName name ns with
  | case1 => simp
  | case2 n ns h => simp
  | case3 ns h => simp
  | case4 n ns h₁ h₂ ih =>
    rw [List.mem_cons, ih, List.mem_cons]
    constructor
    · rintro (h | h | h)
      · exact .inr (.inl h)
      · exact .inl h
      · exact .inr (.inr h)
    · rintro (h | h | h)
      · exact .inr (.inl h)
      · exact .inl h
      · exact .inr (.inr h)

theorem lt_of_not_lt_of_ne {a b : String} (h₁ : ¬a < b) (h₂ : a ≠ b) : b < a := by
  apply Decidable.byContradiction
  intro h
  exact h₂ (String.le_antisymm (String.not_lt.mp h) (String.not_lt.mp h₁))

theorem pairwise_insertName (name : String) {ns : List String} (h : ns.Pairwise (· < ·)) :
    (insertName name ns).Pairwise (· < ·) := by
  fun_induction insertName name ns with
  | case1 => simp
  | case2 n ns hlt =>
    refine List.pairwise_cons.mpr ⟨fun x hx => ?_, h⟩
    rcases List.mem_cons.mp hx with rfl | hx
    · exact hlt
    · exact String.lt_trans hlt (List.rel_of_pairwise_cons h hx)
  | case3 ns hlt => exact h
  | case4 n ns hlt hne ih =>
    refine List.pairwise_cons.mpr ⟨fun x hx => ?_, ih h.of_cons⟩
    rcases mem_insertName.mp hx with rfl | hx
    · exact lt_of_not_lt_of_ne hlt hne
    · exact List.rel_of_pairwise_cons h hx

/-- Strictly increasing lists with the same members are equal. -/
theorem eq_of_mem_iff {as bs : List String} (ha : as.Pairwise (· < ·)) (hb : bs.Pairwise (· < ·))
    (h : ∀ x, x ∈ as ↔ x ∈ bs) : as = bs := by
  induction as generalizing bs with
  | nil =>
    cases bs with
    | nil => rfl
    | cons b bs => simpa using h b
  | cons a as ih =>
    cases bs with
    | nil => simpa using h a
    | cons b bs =>
      have hab : a = b := by
        have h₁ : a ∈ b :: bs := (h a).mp (by simp)
        have h₂ : b ∈ a :: as := (h b).mpr (by simp)
        rcases List.mem_cons.mp h₁ with h₁ | h₁
        · exact h₁
        · rcases List.mem_cons.mp h₂ with h₂ | h₂
          · exact h₂.symm
          · exact absurd (List.rel_of_pairwise_cons ha h₂)
              (String.lt_asymm (List.rel_of_pairwise_cons hb h₁))
      subst hab
      refine congrArg _ (ih ha.of_cons hb.of_cons fun x => ?_)
      have hx := h x
      simp only [List.mem_cons] at hx
      have hxa : x ∈ as → x ≠ a := fun hm he =>
        String.lt_irrefl a (he ▸ List.rel_of_pairwise_cons ha hm)
      have hxb : x ∈ bs → x ≠ a := fun hm he =>
        String.lt_irrefl a (he ▸ List.rel_of_pairwise_cons hb hm)
      exact ⟨fun hm => (hx.mp (.inr hm)).resolve_left (hxa hm),
        fun hm => (hx.mpr (.inr hm)).resolve_left (hxb hm)⟩

/-- Puts several names into a strictly increasing list of names. -/
def insertNames (names ns : List String) : List String := names.foldr insertName ns

theorem mem_insertNames {x : String} {names ns : List String} :
    x ∈ insertNames names ns ↔ x ∈ names ∨ x ∈ ns := by
  induction names with
  | nil => simp [insertNames]
  | cons n names ih =>
    rw [insertNames, List.foldr_cons, mem_insertName, ← insertNames, ih, List.mem_cons, or_assoc]

theorem pairwise_insertNames (names : List String) {ns : List String} (h : ns.Pairwise (· < ·)) :
    (insertNames names ns).Pairwise (· < ·) := by
  induction names with
  | nil => exact h
  | cons n names ih => exact pairwise_insertName n ih

/-! ### Types -/

/-- The primitives that a value may belong to, by name. -/
structure Ty where
  names : List String
  increasing : names.Pairwise (· < ·)
  nonempty : names ≠ []
deriving DecidableEq

namespace Ty

instance : Repr Ty := ⟨fun t _ => repr t.names⟩

/-- The type with one primitive. -/
def prim (name : String) : Ty := ⟨[name], by simp, by simp⟩

def int : Ty := prim "Int"
def float : Ty := prim "Float"
def char : Ty := prim "Char"
def string : Ty := prim "String"
def bool : Ty := prim "Bool"
def nil : Ty := prim "Nil"

instance : Inhabited Ty := ⟨nil⟩

/-- A primitive belongs to a type. -/
instance : Membership String Ty := ⟨fun t name => name ∈ t.names⟩

theorem mem_def {name : String} {t : Ty} : name ∈ t ↔ name ∈ t.names := Iff.rfl

instance (name : String) (t : Ty) : Decidable (name ∈ t) :=
  inferInstanceAs (Decidable (name ∈ t.names))

@[simp] theorem mem_prim {x name : String} : x ∈ prim name ↔ x = name := by simp [mem_def, prim]

theorem exists_mem (t : Ty) : ∃ name, name ∈ t := List.exists_mem_of_ne_nil t.names t.nonempty

/-- Two types with the same primitives are equal. -/
theorem ext_mem {a b : Ty} (h : ∀ x, x ∈ a ↔ x ∈ b) : a = b := by
  have hn : a.names = b.names := eq_of_mem_iff a.increasing b.increasing h
  cases a
  cases b
  simp only at hn
  subst hn
  rfl

/-- A union has more than one primitive. -/
def isUnion (t : Ty) : Bool := 2 ≤ t.names.length

/-- Every primitive of the one type belongs to the other. -/
def CoveredBy (a b : Ty) : Prop := ∀ x ∈ a.names, x ∈ b

instance (a b : Ty) : Decidable (a.CoveredBy b) :=
  inferInstanceAs (Decidable (∀ x ∈ a.names, x ∈ b))

/-- The least type that covers both. -/
def join (a b : Ty) : Ty where
  names := insertNames a.names b.names
  increasing := pairwise_insertNames _ b.increasing
  nonempty h := by
    obtain ⟨x, hx⟩ := b.exists_mem
    have : x ∈ insertNames a.names b.names := mem_insertNames.mpr (.inr hx)
    rw [h] at this
    exact List.not_mem_nil this

@[simp] theorem mem_join {x : String} {a b : Ty} : x ∈ a.join b ↔ x ∈ a ∨ x ∈ b := mem_insertNames

@[simp] theorem join_self (a : Ty) : a.join a = a := ext_mem fun x => by simp

theorem join_comm (a b : Ty) : a.join b = b.join a := ext_mem fun x => by simp [or_comm]

theorem join_assoc (a b c : Ty) : (a.join b).join c = a.join (b.join c) :=
  ext_mem fun x => by simp [or_assoc]

/-- The least type that covers all of a list; `Nil` covers the empty list. -/
def unionOf : List Ty → Ty
  | [] => nil
  | t :: ts => ts.foldl join t

theorem mem_foldl_join {x : String} {t : Ty} {ts : List Ty} :
    x ∈ ts.foldl join t ↔ x ∈ t ∨ ∃ u ∈ ts, x ∈ u := by
  induction ts generalizing t with
  | nil => simp
  | cons u us ih => simp [ih, or_assoc]

@[simp] theorem unionOf_nil : unionOf [] = nil := rfl

theorem mem_unionOf {x : String} {ts : List Ty} (h : ts ≠ []) :
    x ∈ unionOf ts ↔ ∃ t ∈ ts, x ∈ t := by
  cases ts with
  | nil => exact absurd rfl h
  | cons t ts => simp [unionOf, mem_foldl_join]

/-- How a type is written: its primitives in order, with bars between them. -/
def display (t : Ty) : String := " | ".intercalate t.names

end Ty

/-! ### Signatures -/

/-- The types of the arguments of one call, in order. -/
abbrev Signature := List Ty

/-- How the types of the arguments of a call are written. -/
def Signature.display (s : Signature) : String := "(" ++ ", ".intercalate (s.map Ty.display) ++ ")"

end FlowTyping
