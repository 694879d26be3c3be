import FlowTyping.Expr
import Mathlib.Algebra.GroupWithZero.Nat
import Mathlib.Algebra.Order.BigOperators.Group.List
import Mathlib.Algebra.Order.Group.Nat
import Mathlib.Data.Finset.Card
import Mathlib.Data.Finset.Lattice.Basic

/-!
# Occurrences

The expressions that occur in a program (`Program.Has`), the local names that they bind
(`Program.names`), and how large they are.  An evaluation only ever comes to expressions that occur,
so it binds finitely many names.
-/

namespace FlowTyping

namespace Form

/-- The places of a layer where a local name is bound. -/
def binders : Form α → List Ident
  | assign target _ => [target]
  | call _ _ _ (some block) => block.params
  | define d => d.params
  | _ => []

@[simp] theorem binders_map (f : α → β) (form : Form α) : (form.map f).binders = form.binders := by
  rcases form with _ | _ | _ | ⟨_, _, _, _ | _⟩ | _ | _ | _ | _ <;> rfl

@[simp] theorem places_map (f : α → β) (form : Form α) : (form.map f).places = form.places := by
  rcases form with _ | _ | _ | ⟨_, _, _, _ | _⟩ | _ | _ | _ | _ <;> rfl

/-- The method that a layer calls or defines. -/
def methods : Form α → List String
  | call name _ _ _ => [name]
  | define d => [d.name.name]
  | _ => []

@[simp] theorem methods_map (f : α → β) (form : Form α) : (form.map f).methods = form.methods := by
  rcases form with _ | _ | _ | ⟨_, _, _, _ | _⟩ | _ | _ | _ | _ <;> rfl

theorem length_binders_le (form : Form α) : form.binders.length ≤ form.places.length := by
  rcases form with _ | _ | _ | ⟨_, _, _, _ | _⟩ | _ | _ | _ | _ <;> simp [binders, places]

/-- A layer without its parts. -/
def shape (form : Form α) : Form Unit := form.map fun _ => ()

@[simp] theorem shape_map (f : α → β) (form : Form α) : (form.map f).shape = form.shape :=
  map_map _ _ _

/-- A layer is known by its shape and its parts. -/
theorem eq_of_shape {f g : Form α} (hs : f.shape = g.shape) (hp : f.parts = g.parts) : f = g := by
  rcases f with v | x | ⟨t, a⟩ | ⟨n, s, as, _ | ⟨i, r, ps, b⟩⟩ | as | ⟨c, t, _ | e⟩ | ⟨c, b⟩ |
      ⟨n, ps, b⟩ <;>
    rcases g with v' | x' | ⟨t', a'⟩ | ⟨n', s', as', _ | ⟨i', r', ps', b'⟩⟩ | as' |
      ⟨c', t', _ | e'⟩ | ⟨c', b'⟩ | ⟨n', ps', b'⟩ <;>
    simp_all [shape, map, parts, Block.map, Definition.map]
  · exact List.append_inj hp hs.2.2.1
  · exact List.append_inj hp.2 hs.1

end Form

/-- A name without a place of its own. -/
def Ident.bare (name : String) : Ident := ⟨0, name, ⟨0, 0⟩⟩

namespace Expr

/-- A node without an identity and a place of its own. -/
def bare (form : Form Expr) : Expr := node 0 ⟨0, 0⟩ form

theorem eta (e : Expr) : e = node e.id e.span e.form := by cases e; rfl

/-- All local names that an expression binds somewhere inside. -/
def names : Expr → List String := fold fun _ _ form =>
  form.binders.map Ident.name ++ form.parts.flatten

theorem names_eq (e : Expr) :
    e.names = e.form.binders.map Ident.name ++ e.form.parts.flatMap names := by
  rw [eta e, names, fold_node, Form.binders_map, Form.parts_map, ← List.flatMap_def]; rfl

/-- All methods that are called or defined somewhere inside an expression. -/
def mentions : Expr → List String := fold fun _ _ form => form.methods ++ form.parts.flatten

theorem mentions_eq (e : Expr) :
    e.mentions = e.form.methods ++ e.form.parts.flatMap mentions := by
  rw [eta e, mentions, fold_node, Form.methods_map, Form.parts_map, ← List.flatMap_def]; rfl

theorem mem_mentions_of_form {e : Expr} {x : String} (h : x ∈ e.form.methods) : x ∈ e.mentions := by
  rw [mentions_eq]; exact List.mem_append_left _ h

theorem mem_mentions_of_part {e part : Expr} {x : String} (hp : part ∈ e.form.parts)
    (h : x ∈ part.mentions) : x ∈ e.mentions := by
  rw [mentions_eq]; exact List.mem_append_right _ (List.mem_flatMap.2 ⟨part, hp, h⟩)

/-- Whether an expression is another one. -/
def same : Expr → Expr → Bool := fold fun id span form other =>
  decide (id = other.id ∧ span = other.span ∧ form.shape = other.form.shape) &&
    (List.zipWith (fun same part => same part) form.parts other.form.parts).all fun b => b

theorem same_eq (e other : Expr) :
    e.same other =
      (decide (e.id = other.id ∧ e.span = other.span ∧ e.form.shape = other.form.shape) &&
        (List.zipWith same e.form.parts other.form.parts).all fun b => b) := by
  rw [eta e, same, fold_node, Form.shape_map, Form.parts_map, List.zipWith_map_left]; rfl

theorem all_zipWith_same {as bs : List Expr} (hlen : as.length = bs.length)
    (h : ∀ a ∈ as, ∀ {b}, a.same b = true ↔ a = b) :
    (List.zipWith same as bs).all (fun b => b) = true ↔ as = bs := by
  induction as generalizing bs with
  | nil => rw [List.length_eq_zero_iff.1 hlen.symm]; exact iff_of_true rfl rfl
  | cons a as ih =>
    cases bs with
    | nil => exact nomatch hlen
    | cons b bs =>
      rw [List.zipWith_cons_cons, List.all_cons, Bool.and_eq_true, List.cons.injEq,
        h a List.mem_cons_self,
        ih (Nat.succ.inj hlen) fun a ha => h a (List.mem_cons_of_mem _ ha)]

theorem same_iff_eq {e other : Expr} : e.same other = true ↔ e = other := by
  induction e using induction generalizing other with
  | step id span form ih =>
    rw [same_eq, Bool.and_eq_true, decide_eq_true_eq]
    constructor
    · rintro ⟨⟨hid, hspan, hshape⟩, hparts⟩
      have hlen : form.parts.length = other.form.parts.length := by
        have := congrArg (fun f => f.parts.length) hshape
        simpa [Form.shape, Form.parts_map] using this
      rw [eta other, ← hid, ← hspan]
      exact congrArg _ (Form.eq_of_shape hshape ((all_zipWith_same hlen ih).1 hparts))
    · rintro rfl
      exact ⟨⟨rfl, rfl, rfl⟩, (all_zipWith_same rfl ih).2 rfl⟩

instance : DecidableEq Expr := fun _ _ => decidable_of_iff _ same_iff_eq

theorem size_eq (e : Expr) :
    e.size = 1 + e.form.places.length + (e.form.parts.map size).sum := by
  rw [eta e, size, fold_node, Form.places_map, Form.parts_map]; rfl

theorem size_pos (e : Expr) : 0 < e.size := by rw [size_eq]; omega

theorem size_part_lt {e part : Expr} (h : part ∈ e.form.parts) :
    part.size + e.form.places.length < e.size := by
  have := List.le_sum_of_mem (List.mem_map_of_mem (f := size) h)
  rw [size_eq e]; omega

theorem length_names_le (e : Expr) : e.names.length ≤ e.size := by
  induction e using induction with
  | step id span form ih =>
    rw [names_eq, size_eq, List.length_append, List.length_map, List.length_flatMap]
    have hparts : ((form.parts.map fun e => e.names.length)).sum ≤ (form.parts.map size).sum :=
      List.sum_le_sum ih
    have := form.length_binders_le
    simp only [form_node]
    omega

end Expr

/-- The methods that are called or defined in the body of a definition. -/
def Definition.mentions (d : Definition Expr) : List String := d.body.flatMap Expr.mentions

namespace Program

variable {p : Program} {e part : Expr}

/-- An expression of a program. -/
inductive Has (p : Program) : Expr → Prop
  | stmt {e : Expr} : e ∈ p.stmts → Has p e
  | part {e part : Expr} : Has p e → part ∈ e.form.parts → Has p part

/-- The local names that a program binds. -/
def names (p : Program) : Finset String := (p.stmts.flatMap Expr.names).toFinset

theorem Has.size_le (h : p.Has e) : e.size ≤ p.size := by
  induction h with
  | stmt h => exact List.le_sum_of_mem (List.mem_map_of_mem h)
  | part _ hp ih => have := Expr.size_part_lt hp; omega

theorem Has.names_subset (h : p.Has e) {x : String} (hx : x ∈ e.names) : x ∈ p.names := by
  induction h with
  | stmt h => exact List.mem_toFinset.2 (List.mem_flatMap.2 ⟨_, h, hx⟩)
  | part _ hp ih =>
    refine ih ?_
    rw [Expr.names_eq]
    exact List.mem_append_right _ (List.mem_flatMap.2 ⟨_, hp, hx⟩)

/-- What an expression of a program binds is a name of the program. -/
theorem Has.name_mem (h : p.Has e) {i : Ident} (hi : i ∈ e.form.binders) : i.name ∈ p.names := by
  refine h.names_subset ?_
  rw [Expr.names_eq]
  exact List.mem_append_left _ (List.mem_map_of_mem hi)

theorem card_names_le (p : Program) : p.names.card ≤ p.size := by
  refine (List.toFinset_card_le _).trans ?_
  rw [List.length_flatMap]
  exact List.sum_le_sum fun e _ => e.length_names_le

end Program
end FlowTyping
