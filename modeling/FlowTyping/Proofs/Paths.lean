import FlowTyping.Proofs.Arena
import FlowTyping.Proofs.Occurrences
import FlowTyping.Proofs.Steps
import Mathlib.Data.Set.Lattice
import Mathlib.Logic.Relation

/-!
# The paths through a program without calls

`Expr.paths`: the ways that control can take through an expression, each with the primitive that it
gives and what the variables hold behind it.  `body_exact`: for statements without calls and yields
the inference loses nothing and invents nothing, for a table describes exactly what the variables
hold over all paths.  The tables are not related to each other, yet the result is exact, because a
value is only ever copied from one variable and every way may be taken from every memory.
-/

namespace FlowTyping

/-! ### Memories and courses -/

/-- What the variables hold: the primitive assigned last, or nothing before the first assignment. -/
abbrev Memory := String → Option String

namespace Memory

/-- A variable that holds nothing reads as `Nil`. -/
def read (m : Memory) (x : String) : String := (m x).getD "Nil"

def write (m : Memory) (x p : String) : Memory := fun y => if y = x then some p else m y

theorem read_write (m : Memory) (x p y : String) :
    (m.write x p).read y = if y = x then p else m.read y := by
  unfold read write; split <;> rfl

end Memory

/-- What may happen from a memory: a primitive as the value, and the memory behind it. -/
abbrev Course := Memory → String → Memory → Prop

namespace Course

/-- Gives a value and leaves the memory. -/
def give (value : Memory → String) : Course := fun m p n => p = value m ∧ n = m

def andThen (c d : Course) : Course := fun m p n => ∃ q k, c m q k ∧ d k p n

/-- The value of a sequence is that of its last part, and `Nil` if there is none. -/
def seq : List Course → Course
  | [] => give fun _ => "Nil"
  | [c] => c
  | c :: d :: cs => c.andThen (seq (d :: cs))

/-- Any number of times. -/
def many (c : Course) : Memory → Memory → Prop := Relation.ReflTransGen fun m n => ∃ p, c m p n

/-- The memories of a set and those behind any number of runs from them. -/
def closure (c : Course) (S : Set Memory) : Set Memory := {n | ∃ m ∈ S, c.many m n}

/-- The memories behind a course from one of the memories of a set. -/
def ends (c : Course) (S : Set Memory) : Set Memory := {n | ∃ m ∈ S, ∃ p, c m p n}

/-- The values of a course from one of the memories of a set. -/
def values (c : Course) (S : Set Memory) : Set String := {p | ∃ m ∈ S, ∃ n, c m p n}

/-- The memories of a set and those behind at most so many runs from them. -/
def within (c : Course) (S : Set Memory) : Nat → Set Memory
  | 0 => S
  | n + 1 => within c S n ∪ c.ends (within c S n)

theorem closure_eq_iUnion (c : Course) (S : Set Memory) : c.closure S = ⋃ n, c.within S n := by
  ext k
  rw [Set.mem_iUnion]
  constructor
  · rintro ⟨m, hm, h⟩
    induction h with
    | refl => exact ⟨0, hm⟩
    | tail _ hstep ih =>
      obtain ⟨n, hn⟩ := ih
      obtain ⟨p, hp⟩ := hstep
      exact ⟨n + 1, .inr ⟨_, hn, p, hp⟩⟩
  · rintro ⟨n, hn⟩
    induction n generalizing k with
    | zero => exact ⟨k, hn, .refl⟩
    | succ n ih =>
      rcases hn with hn | ⟨l, hl, p, hp⟩
      · exact ih k hn
      · obtain ⟨m, hm, h⟩ := ih l hl
        exact ⟨m, hm, h.tail ⟨p, hp⟩⟩

theorem closure_union_ends (c : Course) (S : Set Memory) :
    c.closure (S ∪ c.ends S) = c.closure S := by
  ext k
  constructor
  · rintro ⟨m, hm | ⟨l, hl, p, hp⟩, h⟩
    · exact ⟨m, hm, h⟩
    · exact ⟨l, hl, .head ⟨p, hp⟩ h⟩
  · rintro ⟨m, hm, h⟩; exact ⟨m, .inl hm, h⟩

theorem ends_andThen (c d : Course) (S : Set Memory) : (c.andThen d).ends S = d.ends (c.ends S) := by
  ext n
  constructor
  · rintro ⟨m, hm, p, q, k, hc, hd⟩; exact ⟨k, ⟨m, hm, q, hc⟩, p, hd⟩
  · rintro ⟨k, ⟨m, hm, q, hc⟩, p, hd⟩; exact ⟨m, hm, p, q, k, hc, hd⟩

theorem values_andThen (c d : Course) (S : Set Memory) :
    (c.andThen d).values S = d.values (c.ends S) := by
  ext p
  constructor
  · rintro ⟨m, hm, n, q, k, hc, hd⟩; exact ⟨k, ⟨m, hm, q, hc⟩, n, hd⟩
  · rintro ⟨k, ⟨m, hm, q, hc⟩, n, hd⟩; exact ⟨m, hm, n, q, k, hc, hd⟩

theorem ends_give (value : Memory → String) (S : Set Memory) : (give value).ends S = S := by
  ext n
  constructor
  · rintro ⟨m, hm, p, -, rfl⟩; exact hm
  · intro hn; exact ⟨n, hn, value n, rfl, rfl⟩

theorem mem_values_give {value : Memory → String} {S : Set Memory} {p : String} :
    p ∈ (give value).values S ↔ ∃ m ∈ S, value m = p := by
  constructor
  · rintro ⟨m, hm, n, rfl, -⟩; exact ⟨m, hm, rfl⟩
  · rintro ⟨m, hm, rfl⟩; exact ⟨m, hm, m, rfl, rfl⟩

theorem ends_many (c : Course) (S : Set Memory) :
    ends (fun m p n => p = "Nil" ∧ c.many m n) S = c.closure S := by
  ext n
  constructor
  · rintro ⟨m, hm, p, -, h⟩; exact ⟨m, hm, h⟩
  · rintro ⟨m, hm, h⟩; exact ⟨m, hm, "Nil", rfl, h⟩

theorem ends_or (c d : Course) (S : Set Memory) :
    ends (fun m p n => c m p n ∨ d m p n) S = c.ends S ∪ d.ends S := by
  ext n; simp only [ends, Set.mem_union, Set.mem_ofPred_eq, exists_or, and_or_left]

theorem values_or (c d : Course) (S : Set Memory) :
    values (fun m p n => c m p n ∨ d m p n) S = c.values S ∪ d.values S := by
  ext p; simp only [values, Set.mem_union, Set.mem_ofPred_eq, exists_or, and_or_left]

end Course

/-- The primitive of a literal. -/
def Literal.primitive : Literal → String
  | int _ => "Int"
  | float _ => "Float"
  | char _ => "Char"
  | str _ => "String"
  | bool _ => "Bool"
  | nil => "Nil"

namespace Expr

/-- The paths through an expression.  A choice may go either way.  A loop evaluates its condition,
and then its body and its condition any number of times.  Calls and yields have no paths here. -/
def paths : Expr → Course := fold fun _ _ form =>
  match form with
  | .literal v => .give fun _ => v.primitive
  | .var x => .give fun m => m.read x
  | .assign target value => fun m p n => ∃ k, value m p k ∧ n = k.write target.name p
  | .branch cond thenBody elseBody => cond.andThen fun m p n =>
      Course.seq thenBody m p n ∨ Course.seq (elseBody.getD []) m p n
  | .loop cond stmts => cond.andThen fun m p n =>
      p = "Nil" ∧ Course.many ((Course.seq stmts).andThen cond) m n
  | .define _ => .give fun _ => "Nil"
  | .call .. | .yield _ => fun _ _ _ => False

/-- An expression without calls and yields.  The bodies of definitions do not count. -/
def callFree : Expr → Bool := fold fun _ _ form =>
  match form with
  | .literal _ | .var _ | .define _ => true
  | .assign _ value => value
  | .branch cond thenBody elseBody => cond && thenBody.all (fun e => e) && (elseBody.getD []).all fun e => e
  | .loop cond stmts => cond && stmts.all fun e => e
  | .call .. | .yield _ => false

end Expr

/-! ### Tables that describe sets of memories -/

/-- A table describes a set of memories: it binds the variables that some memory holds something
for, each at exactly the primitives that it reads as. -/
structure Describes (t : Bindings) (S : Set Memory) : Prop where
  bound : ∀ x, (t.get? x).isSome ↔ ∃ m ∈ S, (m x).isSome
  holds : ∀ x ty, t.get? x = some ty → ∀ p, p ∈ ty ↔ ∃ m ∈ S, m.read x = p

namespace Describes
variable {t a b : Bindings} {S T : Set Memory}

theorem read_of_get?_eq_none (h : Describes t S) {x : String} (hx : t.get? x = none) {m : Memory}
    (hm : m ∈ S) : m.read x = "Nil" := by
  have : ¬ (m x).isSome := fun hs => by simpa [hx] using (h.bound x).2 ⟨m, hm, hs⟩
  rw [Memory.read, Option.not_isSome_iff_eq_none.1 this, Option.getD_none]

/-- What a merge holds for a variable that is bound on the left: on the right it is bound, or reads
as `Nil` throughout. -/
theorem mem_getD_iff (h : Describes b T) (hT : T.Nonempty) (x p : String) :
    p ∈ (b.get? x).getD .nil ↔ ∃ m ∈ T, m.read x = p := by
  cases hb : b.get? x with
  | some ty => exact h.holds x ty hb p
  | none =>
    show p ∈ Ty.nil ↔ _
    rw [Ty.nil, Ty.mem_prim]
    constructor
    · rintro rfl
      obtain ⟨m, hm⟩ := hT
      exact ⟨m, hm, h.read_of_get?_eq_none hb hm⟩
    · rintro ⟨m, hm, rfl⟩; exact h.read_of_get?_eq_none hb hm

/-- Where two ways meet. -/
theorem merge (ha : Describes a S) (hb : Describes b T) (hS : S.Nonempty) (hT : T.Nonempty) :
    Describes (Bindings.merge a b) (S ∪ T) := by
  have hor (P : Memory → Prop) : (∃ m ∈ S ∪ T, P m) ↔ (∃ m ∈ S, P m) ∨ ∃ m ∈ T, P m := by
    simp only [Set.mem_union, or_and_right, exists_or]
  refine ⟨fun x => ?_, fun x ty hx p => ?_⟩
  · rw [hor, ← ha.bound, ← hb.bound, Bindings.get?_merge]
    cases a.get? x <;> cases b.get? x <;> simp [Bindings.meeting]
  · rw [hor, ← ha.mem_getD_iff hS, ← hb.mem_getD_iff hT]
    rw [Bindings.get?_merge] at hx
    cases hax : a.get? x with
    | some u =>
      rw [hax, Bindings.meeting, Option.some.injEq] at hx
      rw [← hx, Ty.mem_join, Option.getD_some]
    | none =>
      cases hbx : b.get? x with
      | some u =>
        rw [hax, hbx, Bindings.meeting, Option.some.injEq] at hx
        rw [← hx, Ty.mem_join, Option.getD_some, Option.getD_none, or_comm]
      | none => rw [hax, hbx] at hx; exact absurd hx (by simp [Bindings.meeting])

theorem iUnion {ι : Type} [Nonempty ι] {F : ι → Set Memory} (h : ∀ i, Describes t (F i)) :
    Describes t (⋃ i, F i) := by
  have hex (P : Memory → Prop) : (∃ m ∈ ⋃ i, F i, P m) ↔ ∃ i, ∃ m ∈ F i, P m := by
    simp only [Set.mem_iUnion]
    exact ⟨fun ⟨m, ⟨i, hm⟩, hP⟩ => ⟨i, m, hm, hP⟩, fun ⟨i, m, hm, hP⟩ => ⟨m, ⟨i, hm⟩, hP⟩⟩
  refine ⟨fun x => ?_, fun x ty hx p => ?_⟩
  · rw [hex, ← exists_const ι (b := (t.get? x).isSome = true)]
    exact exists_congr fun i => (h i).bound x
  · rw [hex, ← exists_const ι (b := p ∈ ty)]
    exact exists_congr fun i => (h i).holds x ty hx p

/-- An assignment: the memories behind the value, each with the value written. -/
theorem insert {c : Course} {x : String} {ty : Ty} (h : Describes t (c.ends S))
    (hty : ∀ p, p ∈ ty ↔ p ∈ c.values S) :
    Describes (t.insert x ty) {n | ∃ m ∈ S, ∃ p k, c m p k ∧ n = k.write x p} := by
  refine ⟨fun y => ?_, fun y u hu p => ?_⟩
  · rw [Table.get?_insert]
    by_cases hy : y = x
    · obtain ⟨p, hp⟩ := ty.exists_mem
      obtain ⟨m, hm, k, hk⟩ := (hty p).1 hp
      rw [if_pos hy]
      exact iff_of_true rfl ⟨k.write x p, ⟨m, hm, p, k, hk, rfl⟩, by simp [Memory.write, hy]⟩
    · rw [if_neg hy, h.bound]
      constructor
      · rintro ⟨k, ⟨m, hm, p, hk⟩, hs⟩
        exact ⟨k.write x p, ⟨m, hm, p, k, hk, rfl⟩, by simpa [Memory.write, hy] using hs⟩
      · rintro ⟨_, ⟨m, hm, p, k, hk, rfl⟩, hs⟩
        exact ⟨k, ⟨m, hm, p, hk⟩, by simpa [Memory.write, hy] using hs⟩
  · rw [Table.get?_insert] at hu
    by_cases hy : y = x
    · rw [if_pos hy, Option.some.injEq] at hu
      rw [← hu, hty]
      constructor
      · rintro ⟨m, hm, k, hk⟩
        exact ⟨k.write x p, ⟨m, hm, p, k, hk, rfl⟩, by rw [Memory.read_write, if_pos hy]⟩
      · rintro ⟨_, ⟨m, hm, q, k, hk, rfl⟩, hr⟩
        rw [Memory.read_write, if_pos hy] at hr
        exact ⟨m, hm, k, hr ▸ hk⟩
    · rw [if_neg hy] at hu
      rw [h.holds y u hu]
      constructor
      · rintro ⟨k, ⟨m, hm, q, hk⟩, hr⟩
        exact ⟨k.write x q, ⟨m, hm, q, k, hk, rfl⟩, by rw [Memory.read_write, if_neg hy, hr]⟩
      · rintro ⟨_, ⟨m, hm, q, k, hk, rfl⟩, hr⟩
        rw [Memory.read_write, if_neg hy] at hr
        exact ⟨k, ⟨m, hm, q, hk⟩, hr⟩

end Describes

/-! ### One table -/

namespace Engine

/-- The scope at hand is there, and no scope is around it. -/
def AtRoot (s : Engine) : Prop :=
  s.context.scope < s.scopes.size ∧ s.scopes.parent? s.context.scope = none

/-- The table of the scope at hand. -/
def here (s : Engine) : Bindings := s.scopes.table s.context.scope

variable {s : Engine}

theorem AtRoot.chain (h : s.AtRoot) : s.scopes.chain s.context.scope = [s.context.scope] :=
  Scopes.chain_of_parent?_eq_none h.2

theorem AtRoot.lookup (h : s.AtRoot) (x : String) :
    s.scopes.lookup s.context.scope x = s.here.get? x := by
  rw [Scopes.lookup, h.chain, List.findSome?_singleton]; rfl

theorem AtRoot.assign (h : s.AtRoot) (x : String) (ty : Ty) :
    s.scopes.assign s.context.scope x ty =
      s.scopes.setTable s.context.scope (s.here.insert x ty) := by
  have : s.scopes.holder s.context.scope x = s.context.scope := by
    rw [Scopes.holder, h.chain, List.find?_singleton]; split <;> rfl
  rw [Scopes.assign, this]; rfl

theorem AtRoot.snapshot (h : s.AtRoot) :
    s.scopes.snapshot s.context.scope = [(s.context.scope, s.here)] := by
  rw [Scopes.snapshot, h.chain]; rfl

theorem AtRoot.setTable (h : s.AtRoot) (t : Bindings) :
    AtRoot { s with scopes := s.scopes.setTable s.context.scope t } :=
  ⟨by simpa using h.1, by simpa using h.2⟩

theorem AtRoot.here_setTable (h : s.AtRoot) (t : Bindings) :
    here { s with scopes := s.scopes.setTable s.context.scope t } = t :=
  Scopes.table_setTable_self h.1

end Engine

/-- At a root, a step that ends well comes back to the context and does to the table what a course
does to the memories: from a description of a set of memories it makes the description of the
memories behind the course, and the type is the set of the values. -/
def Exact (c : Course) (step : Infer Ty) : Prop :=
  ∀ ⦃s ty t⦄, s.AtRoot → step s = .ok ty t →
    (t.AtRoot ∧ t.context = s.context) ∧
      ∀ S : Set Memory, S.Nonempty → Describes s.here S →
        Describes t.here (c.ends S) ∧ ∀ p, p ∈ ty ↔ p ∈ c.values S

theorem Course.ends_nonempty {c : Course} {S : Set Memory} {ty : Ty}
    (h : ∀ p, p ∈ ty ↔ p ∈ c.values S) : (c.ends S).Nonempty := by
  obtain ⟨p, hp⟩ := ty.exists_mem
  obtain ⟨m, hm, n, hc⟩ := (h p).1 hp
  exact ⟨n, m, hm, p, hc⟩

namespace Exact
variable {c d : Course} {step next : Infer Ty} {expr : Expr → Infer Ty}

theorem record (h : Exact c step) (id : NodeId) :
    Exact c (do let ty ← step; Infer.record id ty; return ty) := by
  intro s ty t hs ht
  obtain ⟨ty', t', h₁, h₂⟩ := bind_eq_ok_iff.1 ht
  cases h₂
  obtain ⟨hr, he⟩ := h hs h₁
  exact ⟨hr, he⟩

/-- A step that leaves the scopes alone. -/
theorem give {value : Memory → String}
    (h : ∀ ⦃s ty t⦄, s.AtRoot → step s = .ok ty t → t.scopes = s.scopes ∧ t.context = s.context ∧
      ∀ S : Set Memory, S.Nonempty → Describes s.here S →
        ∀ p, p ∈ ty ↔ ∃ m ∈ S, value m = p) : Exact (.give value) step := by
  intro s ty t hs ht
  obtain ⟨hsc, hcx, hv⟩ := h hs ht
  refine ⟨⟨by rw [Engine.AtRoot, hsc, hcx]; exact hs, hcx⟩, fun S hS hd => ⟨?_, fun p => ?_⟩⟩
  · rw [Course.ends_give, Engine.here, hsc, hcx]; exact hd
  · rw [Course.mem_values_give]; exact hv S hS hd p

theorem constant {ty : Ty} {q : String} (hty : ty = .prim q) :
    Exact (.give fun _ => q) (pure ty) := by
  refine give fun s ty' t _ ht => ?_
  cases ht
  refine ⟨rfl, rfl, fun S hS _ p => ?_⟩
  rw [hty, Ty.mem_prim]
  exact ⟨fun hp => hS.imp fun m hm => ⟨hm, hp.symm⟩, fun ⟨_, _, hp⟩ => hp.symm⟩

theorem andThen (hc : Exact c step) (hd : Exact d next) :
    Exact (c.andThen d) (step >>= fun _ => next) := by
  intro s ty t hs ht
  obtain ⟨u, s₁, h₁, h₂⟩ := bind_eq_ok_iff.1 ht
  obtain ⟨⟨hr₁, hx₁⟩, e₁⟩ := hc hs h₁
  obtain ⟨⟨hr₂, hx₂⟩, e₂⟩ := hd hr₁ h₂
  refine ⟨⟨hr₂, hx₂.trans hx₁⟩, fun S hS hdesc => ?_⟩
  obtain ⟨hdesc₁, hu⟩ := e₁ S hS hdesc
  rw [Course.ends_andThen, Course.values_andThen]
  exact e₂ _ (Course.ends_nonempty hu) hdesc₁

theorem body {stmts : List Expr} (h : ∀ e ∈ stmts, Exact e.paths (expr e)) :
    Exact (Course.seq (stmts.map Expr.paths)) (Infer.body expr stmts) := by
  match stmts with
  | [] => exact constant rfl
  | [stmt] => rw [Infer.body_singleton]; exact h stmt List.mem_cons_self
  | stmt :: next :: stmts =>
    rw [Infer.body_cons_cons]
    exact (h stmt List.mem_cons_self).andThen (body fun e he => h e (List.mem_cons_of_mem _ he))

theorem readVar (id : NodeId) (span : Span) (x : String) :
    Exact (.give fun m => m.read x) (Infer.readVar id span x) := by
  refine give fun s ty t hs ht => ?_
  obtain ⟨s', s₁, ⟨⟩, ht⟩ := bind_eq_ok_iff.1 ht
  obtain ⟨c, s₂, ⟨⟩, ht⟩ := bind_eq_ok_iff.1 ht
  rw [hs.lookup] at ht
  cases hx : s.here.get? x with
  | none => rw [hx] at ht; exact nomatch ht
  | some u =>
    rw [hx] at ht
    cases ht
    exact ⟨rfl, rfl, fun S _ hd p => hd.holds x ty hx p⟩

theorem assign (target : Ident) {value : Expr} (h : Exact c (expr value)) :
    Exact (fun m p n => ∃ k, c m p k ∧ n = k.write target.name p)
      (Infer.assign expr target value) := by
  intro s ty t hs ht
  obtain ⟨u, s₁, h₁, ht⟩ := bind_eq_ok_iff.1 ht
  obtain ⟨⟨hr, hx⟩, he⟩ := h hs h₁
  have htt : t = { s₁ with scopes := s₁.scopes.assign s₁.context.scope target.name u,
                           module := s₁.module.record target.id u } ∧ ty = u := by
    cases ht; exact ⟨rfl, rfl⟩
  obtain ⟨rfl, rfl⟩ := htt
  rw [hr.assign]
  refine ⟨⟨hr.setTable _, hx⟩, fun S hS hd => ?_⟩
  obtain ⟨hd₁, hv⟩ := he S hS hd
  refine ⟨?_, fun p => (hv p).trans ?_⟩
  · show Describes (s₁.scopes.setTable _ _ |>.table _) _
    rw [Scopes.table_setTable_self hr.1]
    have : Course.ends (fun m p n => ∃ k, c m p k ∧ n = k.write target.name p) S =
        {n | ∃ m ∈ S, ∃ p k, c m p k ∧ n = k.write target.name p} := rfl
    rw [this]
    exact hd₁.insert hv
  · constructor
    · rintro ⟨m, hm, k, hk⟩; exact ⟨m, hm, _, k, hk, rfl⟩
    · rintro ⟨m, hm, _, k, hk, rfl⟩; exact ⟨m, hm, k, hk⟩

/-- The two parts of a choice, from the same table, with the tables merged behind them. -/
theorem branch {cond : Expr} {thenBody : List Expr} {elseBody : Option (List Expr)} {k : Course}
    (hk : Exact k (expr cond)) (hc : Exact c (Infer.body expr thenBody))
    (hd : Exact d (Infer.body expr (elseBody.getD []))) :
    Exact (k.andThen fun m p n => c m p n ∨ d m p n) (Infer.branch expr cond thenBody elseBody) := by
  intro s ty t hs ht
  obtain ⟨_, s₁, thenType, s₂, elseType, s₃, h₁, h₂, h₃, rfl, rfl⟩ := Infer.branch_ok ht
  obtain ⟨⟨hr₁, hx₁⟩, e₁⟩ := hk hs h₁
  obtain ⟨⟨hr₂, hx₂⟩, e₂⟩ := hc hr₁ h₂
  have hback : s₂.scopes.restore (s₁.scopes.snapshot s₁.context.scope) =
      s₂.scopes.setTable s₂.context.scope s₁.here := by rw [hr₁.snapshot, hx₂]; rfl
  rw [hback] at h₃
  obtain ⟨⟨hr₃, hx₃⟩, e₃⟩ := hd (hr₂.setTable s₁.here) h₃
  rw [hr₂.here_setTable] at e₃
  have hmerge : (s₂.scopes.snapshot s₁.context.scope).merge (s₃.scopes.snapshot s₁.context.scope) =
      [(s₃.context.scope, Bindings.merge s₂.here s₃.here)] := by
    have hx : s₃.context = s₂.context := hx₃
    rw [← hx₂, hr₂.snapshot, ← hx, hr₃.snapshot]; rfl
  rw [hmerge]
  refine ⟨⟨hr₃.setTable _, hx₃.trans (hx₂.trans hx₁)⟩, fun S hS hdesc => ?_⟩
  obtain ⟨hd₁, hv₁⟩ := e₁ S hS hdesc
  have hS₁ := Course.ends_nonempty hv₁
  obtain ⟨hd₂, hv₂⟩ := e₂ _ hS₁ hd₁
  obtain ⟨hd₃, hv₃⟩ := e₃ _ hS₁ hd₁
  rw [Course.ends_andThen, Course.values_andThen, Course.ends_or, Course.values_or]
  refine ⟨?_, fun p => by rw [Ty.mem_join, hv₂, hv₃]; rfl⟩
  have := hd₂.merge hd₃ (Course.ends_nonempty hv₂) (Course.ends_nonempty hv₃)
  rwa [← hr₃.here_setTable (Bindings.merge s₂.here s₃.here)] at this

/-- The passes over a loop.  As long as a pass widens the table, the memories behind it are added to
those described; once a pass leaves the table as it is, the table describes what any number of
passes adds. -/
theorem untilStable (h : Exact c step) (fuel : Nat) ⦃s t : Engine⦄ {tys : List Ty} (hs : s.AtRoot)
    (ht : Infer.untilStable s.context.scope step fuel s = .ok tys t) :
    (t.AtRoot ∧ t.context = s.context) ∧ ∀ S : Set Memory, S.Nonempty → Describes s.here S →
      Describes t.here (c.closure S) := by
  induction fuel generalizing s tys with
  | zero => exact nomatch ht
  | succ fuel ih =>
    obtain ⟨ty, s₁, s₂, h₁, rfl, ht⟩ := Infer.untilStable_ok ht
    obtain ⟨⟨hr₁, hx₁⟩, e₁⟩ := h hs h₁
    have hmerge : (s.scopes.snapshot s.context.scope).merge (s₁.scopes.snapshot s.context.scope) =
        [(s₁.context.scope, Bindings.merge s.here s₁.here)] := by
      rw [hs.snapshot, ← hx₁, hr₁.snapshot]; rfl
    rw [hmerge, hs.snapshot, hx₁] at ht
    have hr₂ := hr₁.setTable (Bindings.merge s.here s₁.here)
    have hh₂ := hr₁.here_setTable (Bindings.merge s.here s₁.here)
    have grow : ∀ S : Set Memory, S.Nonempty → Describes s.here S →
        Describes (Bindings.merge s.here s₁.here) (S ∪ c.ends S) := fun S hS hd =>
      hd.merge (e₁ S hS hd).1 hS (Course.ends_nonempty (e₁ S hS hd).2)
    rw [← hx₁] at ht
    split at ht
    · next hstop =>
      obtain ⟨rfl, -⟩ := ht
      have hstop : Bindings.merge s.here s₁.here = s.here := by simpa using hstop
      refine ⟨⟨hr₂, hx₁⟩, fun S hS hd => ?_⟩
      show Describes (Engine.here { s₁ with
        scopes := s₁.scopes.setTable s₁.context.scope (Bindings.merge s.here s₁.here) }) _
      rw [hh₂, hstop, Course.closure_eq_iUnion]
      rw [hstop] at grow
      refine Describes.iUnion fun n => And.right (a := (c.within S n).Nonempty) ?_
      induction n with
      | zero => exact ⟨hS, hd⟩
      | succ n ih => exact ⟨ih.1.mono Set.subset_union_left, grow _ ih.1 ih.2⟩
    · obtain ⟨rest, ht, -⟩ := ht
      obtain ⟨hr, e⟩ := ih hr₂ ht
      refine ⟨⟨hr.1, hr.2.trans hx₁⟩, fun S hS hd => ?_⟩
      have := e _ (hS.mono Set.subset_union_left) (hh₂ ▸ grow S hS hd)
      rwa [Course.closure_union_ends] at this

theorem loop {cond : Expr} {stmts : List Expr} {k : Course} (fuel : Nat) (hk : Exact k (expr cond))
    (hc : Exact c (Infer.loopPass expr cond stmts)) :
    Exact (k.andThen fun m p n => p = "Nil" ∧ c.many m n) (Infer.loop expr fuel cond stmts) := by
  intro s ty t hs ht
  obtain ⟨_, s₁, tys, h₁, h₂, rfl⟩ := Infer.loop_ok ht
  obtain ⟨⟨hr₁, hx₁⟩, e₁⟩ := hk hs h₁
  obtain ⟨⟨hr₂, hx₂⟩, e₂⟩ := hc.untilStable fuel hr₁ h₂
  refine ⟨⟨hr₂, hx₂.trans hx₁⟩, fun S hS hd => ?_⟩
  obtain ⟨hd₁, hv₁⟩ := e₁ S hS hd
  rw [Course.ends_andThen, Course.values_andThen, Course.ends_many, Ty.nil]
  refine ⟨e₂ _ (Course.ends_nonempty hv₁) hd₁, fun p => ?_⟩
  rw [Ty.mem_prim]
  constructor
  · rintro rfl
    obtain ⟨m, hm⟩ := Course.ends_nonempty hv₁
    exact ⟨m, hm, m, rfl, .refl⟩
  · rintro ⟨m, hm, n, hp, -⟩; exact hp

theorem define (definition : Definition Expr) :
    Exact (.give fun _ => "Nil") (Infer.define definition) := by
  refine give fun s ty t _ ht => ?_
  cases ht
  refine ⟨rfl, rfl, fun S hS _ p => ?_⟩
  rw [Ty.nil, Ty.mem_prim]
  exact ⟨fun hp => hS.imp fun m hm => ⟨hm, hp.symm⟩, fun ⟨_, _, hp⟩ => hp.symm⟩

theorem literal (v : Literal) : Exact (.give fun _ => v.primitive) (pure v.type) :=
  constant (by cases v <;> rfl)

/-- A node follows its paths if the expressions inside it do. -/
theorem layer {entry : Infer.Entry} (fuel : Nat) {e : Expr} (he : e.callFree)
    (h : ∀ part ∈ e.form.parts, part.callFree → Exact part.paths (expr part)) :
    Exact e.paths (Infer.layer expr entry fuel e) := by
  obtain ⟨id, span, form⟩ := e
  rw [Expr.callFree, Expr.fold_node] at he
  rw [Expr.paths, Expr.fold_node]
  apply record
  have hbody {stmts : List Expr} (hin : ∀ stmt ∈ stmts, stmt ∈ form.parts)
      (hfree : (stmts.map Expr.callFree).all fun e => e) :
      Exact (Course.seq (stmts.map Expr.paths)) (Infer.body expr stmts) := by
    simp only [List.all_map, List.all_eq_true, Function.comp_apply] at hfree
    exact body fun stmt hs => h stmt (hin stmt hs) (hfree stmt hs)
  cases form with
  | literal v => exact literal v
  | var x => exact readVar id span x
  | assign target value => exact assign target (h value (by simp [Form.parts]) he)
  | define definition => exact define definition
  | call name nameSpan args block => exact absurd he Bool.false_ne_true
  | yield args => exact absurd he Bool.false_ne_true
  | branch cond thenBody elseBody =>
    obtain ⟨⟨hcond, hthen⟩, helse⟩ : (cond.callFree ∧ (thenBody.map Expr.callFree).all fun e => e) ∧
        ((elseBody.map (List.map Expr.callFree)).getD []).all fun e => e := by
      simpa [Form.map, Expr.callFree] using he
    have hc : cond ∈ (Form.branch cond thenBody elseBody).parts := by
      cases elseBody <;> simp [Form.parts]
    refine branch (h cond hc hcond) (hbody (fun _ hs => ?_) hthen) ?_
    · cases elseBody <;> simp [Form.parts, hs]
    · cases elseBody with
      | none => exact body (by simp)
      | some stmts => exact hbody (fun _ hs => by simp [Form.parts, show _ ∈ stmts from hs]) helse
  | loop cond stmts =>
    obtain ⟨hcond, hstmts⟩ : cond.callFree ∧ (stmts.map Expr.callFree).all fun e => e := by
      simpa [Form.map, Expr.callFree] using he
    have hc := h cond (by simp [Form.parts]) hcond
    exact loop fuel hc ((hbody (by simp +contextual [Form.parts]) hstmts).andThen hc)

theorem expr_of_callFree (limit fuel : Nat) {e : Expr} (he : e.callFree) :
    Exact e.paths (Infer.expr limit fuel e) := by
  induction fuel generalizing e with
  | zero => intro s ty t _ ht; exact nomatch ht
  | succ fuel ih => exact layer fuel he fun part _ hpart => ih hpart

end Exact

/-! ### Whole programs -/

namespace Bindings

/-- The memories that a table stands for: each variable that it binds holds one of the primitives of
its type, and no other variable holds anything. -/
def starts (t : Bindings) : Set Memory :=
  {m | ∀ x, match t.get? x with
    | some ty => ∃ p ∈ ty, m x = some p
    | none => m x = none}

theorem exists_mem_starts (t : Bindings) {x p : String} {ty : Ty} (hx : t.get? x = some ty)
    (hp : p ∈ ty) : ∃ m ∈ t.starts, m x = some p := by
  choose pick hpick using Ty.exists_mem
  refine ⟨fun y => if y = x then some p else (t.get? y).map pick, fun y => ?_, if_pos rfl⟩
  by_cases hy : y = x
  · subst hy
    rw [hx]
    exact ⟨p, hp, if_pos rfl⟩
  · show match t.get? y with
      | some ty => ∃ p ∈ ty, (if y = x then _ else _) = some p
      | none => (if y = x then _ else _) = none
    cases h : t.get? y with
    | none => rw [if_neg hy]; rfl
    | some u => exact ⟨pick u, hpick u, by rw [if_neg hy]; rfl⟩

theorem starts_nonempty (t : Bindings) : t.starts.Nonempty := by
  choose pick hpick using Ty.exists_mem
  refine ⟨fun y => (t.get? y).map pick, fun y => ?_⟩
  show match t.get? y with
    | some ty => ∃ p ∈ ty, (t.get? y).map pick = some p
    | none => (t.get? y).map pick = none
  cases t.get? y with
  | none => rfl
  | some u => exact ⟨pick u, hpick u, rfl⟩

theorem eq_none_of_mem_starts {t : Bindings} {m : Memory} (hm : m ∈ t.starts) {x : String}
    (hx : t.get? x = none) : m x = none := by
  have := hm x
  rwa [hx] at this

theorem exists_mem_of_mem_starts {t : Bindings} {m : Memory} (hm : m ∈ t.starts) {x : String}
    {ty : Ty} (hx : t.get? x = some ty) : ∃ p ∈ ty, m x = some p := by
  have := hm x
  rwa [hx] at this

theorem describes_starts (t : Bindings) : Describes t t.starts := by
  refine ⟨fun x => ?_, fun x ty hx p => ?_⟩
  · cases hx : t.get? x with
    | none =>
      refine iff_of_false Bool.false_ne_true ?_
      rintro ⟨m, hm, hs⟩
      rw [eq_none_of_mem_starts hm hx] at hs
      exact nomatch hs
    | some ty =>
      obtain ⟨p, hp⟩ := ty.exists_mem
      obtain ⟨m, hm, hmx⟩ := t.exists_mem_starts hx hp
      exact iff_of_true rfl ⟨m, hm, by rw [hmx]; rfl⟩
  · constructor
    · intro hp
      obtain ⟨m, hm, hmx⟩ := t.exists_mem_starts hx hp
      exact ⟨m, hm, by rw [Memory.read, hmx]; rfl⟩
    · rintro ⟨m, hm, rfl⟩
      obtain ⟨p, hp, hmx⟩ := exists_mem_of_mem_starts hm hx
      rwa [Memory.read, hmx]

end Bindings

/-- A variable that holds something goes on to hold something. -/
def Course.Keeps (c : Course) : Prop := ∀ ⦃m p n⦄, c m p n → ∀ x, (m x).isSome → (n x).isSome

namespace Course.Keeps
variable {c d : Course}

theorem give (value : Memory → String) : Keeps (.give value) := by
  rintro m p n ⟨-, rfl⟩ x hx; exact hx

theorem andThen (hc : c.Keeps) (hd : d.Keeps) : (c.andThen d).Keeps := by
  rintro m p n ⟨q, k, h₁, h₂⟩ x hx; exact hd h₂ x (hc h₁ x hx)

theorem seq {cs : List Course} (h : ∀ c ∈ cs, c.Keeps) : (Course.seq cs).Keeps := by
  match cs with
  | [] => exact give _
  | [c] => exact h c List.mem_cons_self
  | c :: d :: cs =>
    exact (h c List.mem_cons_self).andThen (seq fun e he => h e (List.mem_cons_of_mem _ he))

theorem many (h : c.Keeps) {m n : Memory} (hmn : c.many m n) {x : String} (hx : (m x).isSome) :
    (n x).isSome := by
  induction hmn with
  | refl => exact hx
  | tail _ hstep ih => obtain ⟨p, hp⟩ := hstep; exact h hp x ih

end Course.Keeps

theorem Expr.keeps_paths (e : Expr) : e.paths.Keeps := by
  induction e using Expr.induction with
  | step id span form ih =>
  rw [paths, fold_node]
  have hseq {stmts : List Expr} (h : ∀ stmt ∈ stmts, stmt ∈ form.parts) :
      (Course.seq (stmts.map paths)).Keeps :=
    .seq fun c hc => by obtain ⟨stmt, hs, rfl⟩ := List.mem_map.1 hc; exact ih stmt (h stmt hs)
  cases form with
  | literal v => exact .give _
  | var x => exact .give _
  | define definition => exact .give _
  | call name nameSpan args block => rintro m p n ⟨⟩
  | yield args => rintro m p n ⟨⟩
  | assign target value =>
    rintro m p n ⟨k, hk, rfl⟩ x hx
    have := ih value (by simp [Form.parts]) hk x hx
    unfold Memory.write; split
    · rfl
    · exact this
  | branch cond thenBody elseBody =>
    have hc : cond ∈ (Form.branch cond thenBody elseBody).parts := by
      cases elseBody <;> simp [Form.parts]
    refine (ih cond hc).andThen ?_
    rintro m p n (h | h) x hx
    · exact hseq (fun _ hs => by cases elseBody <;> simp [Form.parts, hs]) h x hx
    · cases elseBody with
      | none => exact Course.Keeps.seq (by simp) h x hx
      | some stmts => exact hseq (fun _ hs => by simp [Form.parts, hs]) h x hx
  | loop cond stmts =>
    have hc := ih cond (by simp [Form.parts])
    refine hc.andThen ?_
    rintro m p n ⟨-, h⟩ x hx
    exact ((hseq (by simp +contextual [Form.parts])).andThen hc).many h hx

/-- The paths through statements. -/
def pathsThrough (stmts : List Expr) : Course := .seq (stmts.map Expr.paths)

theorem keeps_pathsThrough (stmts : List Expr) : (pathsThrough stmts).Keeps :=
  .seq fun c hc => by obtain ⟨e, _, rfl⟩ := List.mem_map.1 hc; exact e.keeps_paths

/-- For statements without calls and yields, from any table of a scope without a scope around it:
the names bound afterwards are those bound before or assigned on some path; a name has the
primitives that it holds at the end of some path; and the type has the values of the paths. -/
theorem body_exact {limit fuel : Nat} {stmts : List Expr} {s s' : Engine} {ty : Ty} {t : Bindings}
    (hfree : ∀ e ∈ stmts, e.callFree)
    (hs : s.scopes.cells[s.context.scope]? = some ⟨none, t⟩)
    (hok : Infer.body (Infer.expr limit fuel) stmts s = .ok ty s') :
    (∀ x, ((s'.scopes.table s.context.scope).get? x).isSome ↔
      (t.get? x).isSome ∨
        ∃ m ∈ t.starts, ∃ p n, pathsThrough stmts m p n ∧ m x = none ∧ (n x).isSome) ∧
    (∀ x u, (s'.scopes.table s.context.scope).get? x = some u → ∀ p, p ∈ u ↔
      ∃ m ∈ t.starts, ∃ q n, pathsThrough stmts m q n ∧ n.read x = p) ∧
    ∀ p, p ∈ ty ↔ ∃ m ∈ t.starts, ∃ n, pathsThrough stmts m p n := by
  have hroot : s.AtRoot :=
    ⟨(Array.getElem?_eq_some_iff.1 hs).1, by rw [Scopes.parent?_eq, hs]; rfl⟩
  have hhere : s.here = t := by rw [Engine.here, Scopes.table, hs]; rfl
  obtain ⟨⟨-, hx⟩, hexact⟩ :=
    (Exact.body fun e he => Exact.expr_of_callFree limit fuel (hfree e he)) hroot hok
  obtain ⟨hd, hv⟩ := hexact t.starts t.starts_nonempty (hhere ▸ t.describes_starts)
  rw [Engine.here, hx] at hd
  refine ⟨fun x => (hd.bound x).trans ⟨?_, ?_⟩, fun x u hu p => (hd.holds x u hu p).trans ⟨?_, ?_⟩,
    hv⟩
  · rintro ⟨n, ⟨m, hm, p, hpath⟩, hn⟩
    cases hmx : t.get? x with
    | some u => exact .inl rfl
    | none => exact .inr ⟨m, hm, p, n, hpath, Bindings.eq_none_of_mem_starts hm hmx, hn⟩
  · rintro (hb | ⟨m, hm, p, n, hpath, -, hn⟩)
    · -- a path from a start, where `x` holds something, ends where it holds something
      obtain ⟨u, hu⟩ := Option.isSome_iff_exists.1 hb
      obtain ⟨q, hq⟩ := ty.exists_mem
      obtain ⟨m, hm, n, hpath⟩ := (hv q).1 hq
      obtain ⟨r, -, hr⟩ := Bindings.exists_mem_of_mem_starts hm hu
      exact ⟨n, ⟨m, hm, q, hpath⟩, keeps_pathsThrough stmts hpath x (by rw [hr]; rfl)⟩
    · exact ⟨n, ⟨m, hm, p, hpath⟩, hn⟩
  · rintro ⟨n, ⟨m, hm, q, hpath⟩, hr⟩; exact ⟨m, hm, q, n, hpath, hr⟩
  · rintro ⟨m, hm, q, n, hpath, hr⟩; exact ⟨n, ⟨m, hm, q, hpath⟩, hr⟩

namespace NestedChoice

/-- `x = 1`, a loop over a choice between `y = x` and `x = nil`, and `y`. -/
def stmts : List Expr :=
  [.bare (.assign (.bare "x") (.bare (.literal (.int 1)))),
    .bare (.loop (.bare (.var "c"))
      [.bare (.branch (.bare (.var "c"))
        [.bare (.assign (.bare "y") (.bare (.var "x")))]
        (some [.bare (.assign (.bare "x") (.bare (.literal .nil)))]))]),
    .bare (.var "y")]

/-- The top level with `c` bound. -/
def table : Bindings := Table.empty.insert "c" .bool

def start : Engine := { Engine.initial with scopes := ⟨#[⟨none, table⟩]⟩ }

def run : EStateM.Result Stop Engine Ty := Infer.body (Infer.expr 4 32) stmts start

/-- The type that the statements end with. -/
def type? : Option Ty :=
  match run with
  | .ok ty _ => some ty
  | .error _ _ => none

end NestedChoice

open NestedChoice in
/-- The loop ends with `y` at the primitives that it holds over all paths. -/
theorem body_exact_nestedChoice :
    ∃ ty s', run = .ok ty s' ∧ ty = Ty.int.join .nil ∧
      ∀ p, p ∈ ty ↔ ∃ m ∈ table.starts, ∃ n, pathsThrough stmts m p n := by
  have hty : type? = some (Ty.int.join .nil) := by decide +kernel
  unfold type? at hty
  cases hrun : run with
  | error e s' => rw [hrun] at hty; cases hty
  | ok ty s' =>
    rw [hrun] at hty
    have hfree : ∀ e ∈ stmts, e.callFree := by decide +kernel
    obtain ⟨-, -, hv⟩ := body_exact hfree (s := start) (t := table) rfl hrun
    exact ⟨ty, s', rfl, Option.some.inj hty, hv⟩

end FlowTyping
