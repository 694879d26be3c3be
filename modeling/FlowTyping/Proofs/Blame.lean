import FlowTyping.Proofs.Accounts

/-!
# What type errors point at

`Program.blames_of_infer`: a type error is reported at a node of the program that it can be about, and
with the method that the node is written in.  A body is evaluated far from where it is written: that of
a method for a call anywhere, that of a block while another method is under inference.  The context goes
along, and no account of the types is needed to see that it fits (`Account.empty`).
-/

namespace FlowTyping

/-- The account that says nothing. -/
def Account.empty (p : Program) : Account p where
  Holds _ _ _ := True
  initial := trivial
  forget _ _ _ := trivial
  settle _ _ _ _ _ := trivial
  define _ _ _ _ _ _ := trivial
  answer _ _ _ := trivial
  enter _ _ _ _ _ _ _ := trivial
  leave _ _ _ _ _ _ _ _ := trivial
  run _ _ _ _ := trivial
  bindParams _ _ _ _ _ := trivial
  collect _ _ _ _ _ _ _ _ _ := trivial

namespace Program

/-- A type error is reported at a node that it can be about, with the method around the node. -/
theorem blames_of_infer {p : Program} {limit : Nat} {e : TypeError}
    (h : p.infer limit = .error (.error e)) : p.Blames limit e := by
  have hmeets := (Account.empty p).meets_run limit (Engine.initial.toStacks 0 []) rfl
  rw [p.infer_eq_run] at h
  cases hrun : Flow.body (Flow.expr .plain limit (p.fuel limit) .top) p.stmts
      (Engine.initial.toStacks 0 []) with
  | ok r => rw [hrun] at h; exact nomatch h
  | error halt =>
    rw [hrun] at h hmeets
    cases halt with
    | error e' => cases h; exact hmeets
    | _ => exact nomatch h

/-- `g` gives a block to `each`, and in the block reads a variable that is not bound. -/
def strayRead : Program where
  stmts :=
    [.node 0 ⟨0, 20⟩ (.define ⟨⟨1, "each", ⟨4, 8⟩⟩, [], [.node 2 ⟨10, 15⟩ (.yield [])]⟩),
      .node 3 ⟨21, 45⟩ (.define ⟨⟨4, "g", ⟨25, 26⟩⟩, [],
        [.node 5 ⟨28, 40⟩ (.call "each" ⟨28, 32⟩ []
          (some ⟨6, ⟨33, 40⟩, [], [.node 7 ⟨35, 36⟩ (.var "x")]⟩))]⟩),
      .node 8 ⟨46, 49⟩ (.call "g" ⟨46, 47⟩ [] none)]

/-- The block runs in `each`, but the error is reported in `g`, where the block is written. -/
theorem blames_strayRead :
    strayRead.infer 64 = .error (.error ⟨.unboundVariable "x", 7, ⟨35, 36⟩, some "g"⟩) ∧
      strayRead.Blames 64 ⟨.unboundVariable "x", 7, ⟨35, 36⟩, some "g"⟩ := by
  have herror : (match strayRead.infer 64 with
    | .error stop => some stop
    | .ok _ => none) = some (.error ⟨.unboundVariable "x", 7, ⟨35, 36⟩, some "g"⟩) := by
    decide +kernel
  have hinfer : strayRead.infer 64 =
      .error (.error ⟨.unboundVariable "x", 7, ⟨35, 36⟩, some "g"⟩) := by
    cases h : strayRead.infer 64 with
    | ok M => rw [h] at herror; exact nomatch herror
    | error stop => rw [h] at herror; rw [Option.some.inj herror]
  exact ⟨hinfer, blames_of_infer hinfer⟩

end Program
end FlowTyping
