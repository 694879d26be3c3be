import FlowTyping.Proofs.Parallel
import FlowTyping.Proofs.Sightings
import Mathlib.Logic.Equiv.Basic

/-!
# Renumbered programs

`Program.infer_renumbered`: the types of a program do not depend on how its nodes are numbered, where they
stand in the text, or which values its literals have.  With other numbers the same is found at the
renumbered nodes, and an error is reported at the renumbered node.  The numbers decide which types are
joined and which calls with a block count as one, so they have to stay distinct; nothing else is asked of
them, in particular not that their order stays.
-/

namespace FlowTyping

/-- A node corresponds to the one with its new number, and any two spans correspond. -/
def Likeness.renumbering (r : NodeId → NodeId) (hr : r.Injective) : Likeness where
  node a b := r a = b
  span _ _ := True
  node_unique := ⟨fun _ _ _ h h' => hr (h.trans h'.symm), fun _ _ _ h h' => h.symm.trans h'⟩

/-- What is reported of a method: its name, its parameters, the calls without a block and those with one. -/
def Method.report (m : Method) : String × List String × List Instance × List Instance :=
  (m.name, m.params, m.instances, m.blockInstances)

/-- The same types and methods, with the types at the renumbered nodes. -/
structure Module.Renumbered (r : NodeId → NodeId) (M N : Module) : Prop where
  result : N.result = M.result
  methods : N.methods.map Method.report = M.methods.map Method.report
  annotations : ∀ j ty, (j, ty) ∈ N.annotations ↔ ∃ i, r i = j ∧ (i, ty) ∈ M.annotations

/-- The same error, with the same details and in the same method, at the renumbered node. -/
structure TypeError.Renumbered (r : NodeId → NodeId) (e f : TypeError) : Prop where
  cause : f.cause = e.cause
  node : f.node = r e.node
  method? : f.method? = e.method?

variable {r : NodeId → NodeId} {hr : r.Injective}

theorem Module.Like.renumbered {M N : Module} (h : M.Like (.renumbering r hr) N) : M.Renumbered r N where
  result := h.result.symm
  methods := by
    refine (map_eq_of_forall₂ h.methods fun m _ n hm => ?_).symm
    rw [Method.report, Method.report, hm.name, hm.params, hm.instances, hm.blockInstances]
  annotations j ty := by
    simp only [mem_annotations]
    constructor
    · intro hty
      obtain ⟨i, hi⟩ := h.right hty
      exact ⟨i, hi, (h.typeOf? hi).trans hty⟩
    · rintro ⟨i, hi, hty⟩
      exact (h.typeOf? hi).symm.trans hty

theorem TypeError.Like.renumbered {e f : TypeError} (h : e.Like (.renumbering r hr) f) : e.Renumbered r f :=
  ⟨h.cause.symm, h.node.symm, h.method?.symm⟩

namespace Program

/-- Inference of a program and of the program with other numbers, spans and literal values: either both
succeed and find the same, or both fail in the same way. -/
theorem infer_renumbered {r : NodeId → NodeId} (hr : r.Injective) {p q : Program}
    (h : p.Like (.renumbering r hr) q) (limit : Nat) :
    (∃ M N, p.infer limit = .ok M ∧ q.infer limit = .ok N ∧ M.Renumbered r N) ∨
      ∃ e f, p.infer limit = .error (.error e) ∧ q.infer limit = .error (.error f) ∧ e.Renumbered r f := by
  have hlike := h.infer limit
  rcases (p.infer_ends limit).1 with ⟨M, hp⟩ | ⟨e, hp⟩
  · rw [hp] at hlike
    generalize hq : q.infer limit = found at hlike
    cases hlike with
    | ok hmodule => exact .inl ⟨M, _, hp, rfl, hmodule.renumbered⟩
  · rw [hp] at hlike
    generalize hq : q.infer limit = found at hlike
    cases hlike with
    | error herror => exact .inr ⟨e, _, hp, rfl, herror.renumbered⟩

/-- A block that is run by a method and binds a name of its call site. -/
def stored : Program where
  stmts :=
    [.node 0 ⟨0, 27⟩ (.define ⟨⟨1, "each", ⟨4, 8⟩⟩, [⟨2, "x", ⟨9, 10⟩⟩],
        [.node 3 ⟨14, 22⟩ (.yield [.node 4 ⟨20, 21⟩ (.var "x")])]⟩),
      .node 5 ⟨27, 34⟩ (.assign ⟨6, "z", ⟨27, 28⟩⟩ (.node 7 ⟨31, 34⟩ (.literal .nil))),
      .node 8 ⟨35, 60⟩ (.call "each" ⟨35, 39⟩ [.node 9 ⟨40, 41⟩ (.literal (.int 1))]
        (some ⟨10, ⟨43, 60⟩, [⟨11, "y", ⟨47, 48⟩⟩],
          [.node 12 ⟨50, 55⟩ (.assign ⟨13, "z", ⟨50, 51⟩⟩ (.node 14 ⟨54, 55⟩ (.var "y")))]⟩))]

/-- The same program with the numbers of the call and of its block exchanged, another literal, and no
spans. -/
def storedSwapped : Program where
  stmts :=
    [.node 0 ⟨0, 0⟩ (.define ⟨⟨1, "each", ⟨0, 0⟩⟩, [⟨2, "x", ⟨0, 0⟩⟩],
        [.node 3 ⟨0, 0⟩ (.yield [.node 4 ⟨0, 0⟩ (.var "x")])]⟩),
      .node 5 ⟨0, 0⟩ (.assign ⟨6, "z", ⟨0, 0⟩⟩ (.node 7 ⟨0, 0⟩ (.literal .nil))),
      .node 10 ⟨0, 0⟩ (.call "each" ⟨0, 0⟩ [.node 9 ⟨0, 0⟩ (.literal (.int 42))]
        (some ⟨8, ⟨0, 0⟩, [⟨11, "y", ⟨0, 0⟩⟩],
          [.node 12 ⟨0, 0⟩ (.assign ⟨13, "z", ⟨0, 0⟩⟩ (.node 14 ⟨0, 0⟩ (.var "y")))]⟩))]

theorem infer_renumbered_stored :
    stored.Like (.renumbering (Equiv.swap 8 10) (Equiv.injective _)) storedSwapped ∧
      ∃ M N, stored.infer 64 = .ok M ∧ storedSwapped.infer 64 = .ok N ∧ M.Renumbered (Equiv.swap 8 10) N := by
  have hlike : stored.Like (.renumbering (Equiv.swap 8 10) (Equiv.injective _)) storedSwapped := by
    have hident (a b : Ident) (h : Equiv.swap 8 10 a.id = b.id ∧ a.name = b.name) :
        a.Like (.renumbering (Equiv.swap 8 10) (Equiv.injective _)) b := ⟨h.1, h.2, trivial⟩
    refine .cons (Expr.like_iff.2 ⟨rfl, trivial, .define ?_⟩) <|
      .cons (Expr.like_iff.2 ⟨rfl, trivial, .assign ?_ ?_⟩) <|
      .cons (Expr.like_iff.2 ⟨rfl, trivial, .call _ trivial ?_ (.some ?_)⟩) .nil
    · refine ⟨hident _ _ (by decide), .cons (hident _ _ (by decide)) .nil, .cons ?_ .nil⟩
      refine Expr.like_iff.2 ⟨rfl, trivial, .yield (.cons ?_ .nil)⟩
      exact Expr.like_iff.2 ⟨rfl, trivial, .var _⟩
    · exact hident _ _ (by decide)
    · exact Expr.like_iff.2 ⟨rfl, trivial, .literal rfl⟩
    · exact .cons (Expr.like_iff.2 ⟨rfl, trivial, .literal rfl⟩) .nil
    · refine ⟨rfl, trivial, .cons (hident _ _ (by decide)) .nil, .cons ?_ .nil⟩
      refine Expr.like_iff.2 ⟨rfl, trivial, .assign (hident _ _ (by decide)) ?_⟩
      exact Expr.like_iff.2 ⟨rfl, trivial, .var _⟩
  refine ⟨hlike, (infer_renumbered (Equiv.injective _) hlike 64).resolve_right ?_⟩
  rintro ⟨e, -, he, -⟩
  have hends : (stored.infer 64).toBool = true := by decide +kernel
  rw [he] at hends
  exact Bool.false_ne_true hends

end Program

end FlowTyping
