import FlowTyping.Proofs.Sightings
import FlowTyping.Proofs.Sites
import FlowTyping.Proofs.Supposition
import FlowTyping.Proofs.Termination

/-!
# Where runs come to

A run evaluates an expression where it is written: the context has the method around it, and the blocks
in force and the methods that are known are written in the program, too (`Standing.Placed`,
`Module.Placed`).  `Flow.Meets` says what a step leads to from a module, and that a type error blames a
site of the program (`Program.Blames`), with one rule for each way that steps are put together.
-/

namespace FlowTyping

/-- What a type error says of the node that it is reported at. -/
def TypeError.Cause.Suits (p : Program) (limit : Nat) (e : Expr) (span : Span) :
    TypeError.Cause → Prop
  | .unboundVariable name => e.form = .var name ∧ span = e.span
  | .unresolvedMethod name => ∃ args block, e.form = .call name span args block
  | .noBlockGiven => ∃ args, e.form = .yield args ∧ span = e.span
  | .arityMismatch name expected found =>
    (∃ nameSpan args block, e.form = .call name nameSpan args block ∧ args.length = found) ∧
      (∃ s ∈ p.sites, ∃ d, s.expr.form = .define d ∧ d.name.name = name ∧
        d.params.length = expected) ∧ expected ≠ found ∧ span = e.span
  | .recursionLimitExceeded name bound =>
    ∃ nameSpan args block, e.form = .call name nameSpan args block ∧ span = e.span ∧ bound = limit

/-- A type error is reported at a site of the program, with the method around it. -/
def Program.Blames (p : Program) (limit : Nat) (e : TypeError) : Prop :=
  ∃ s ∈ p.sites, s.expr.id = e.node ∧ e.method? = Enclosure.method? s.outer ∧
    e.cause.Suits p limit s.expr e.span

def Halt.Blames (p : Program) (limit : Nat) : Halt → Prop
  | .error e => p.Blames limit e
  | .outOfFuel | .refused | .replaced => True

/-- The context of an expression inside the given bodies. -/
structure Standing.Placed (p : Program) (outer : List Enclosure) (c : Standing) : Prop where
  method? : c.method? = Enclosure.method? outer
  /-- A block in force goes with a call, and belongs to the method around it. -/
  blocks : ∀ b ∈ c.blocks, ∃ s ∈ p.sites, ∃ name nameSpan args,
    s.expr.form = .call name nameSpan args (some b.1) ∧ b.2 = Enclosure.method? s.outer
  /-- The top level is evaluated once only. -/
  under : outer = [] → c.under = []

theorem Standing.placed_top (p : Program) : Standing.top.Placed p [] :=
  ⟨rfl, fun _ hb => absurd hb List.not_mem_nil, fun _ => rfl⟩

namespace Module
variable {p : Program} {M N : Module} {d : Definition Expr} {s : Site} {name : String}

/-- The methods have the definitions of the program, one for each name. -/
structure Placed (p : Program) (M : Module) : Prop where
  definitions : ∀ m ∈ M.methods, ∃ s ∈ p.sites, s.expr.form = .define m.definition
  names : (M.methods.map Method.name).Nodup

theorem Placed.congr (h : M.Placed p) (hM : N.methods = M.methods) : N.Placed p := by
  constructor
  · rw [hM]; exact h.definitions
  · rw [hM]; exact h.names

theorem mem_updateMethod {f : Method → Method} (hf : ∀ m, (f m).definition = m.definition) {new : Method}
    (h : new ∈ (M.updateMethod name f).methods) : ∃ m ∈ M.methods, new.definition = m.definition ∧
      (m.name = name ∧ new = f m ∨ m.name ≠ name ∧ new = m) := by
  obtain ⟨m, hm, rfl⟩ := List.mem_map.1 h
  refine ⟨m, hm, ?_⟩
  split
  · next hname => exact ⟨hf m, .inl ⟨hname, rfl⟩⟩
  · next hname => exact ⟨rfl, .inr ⟨hname, rfl⟩⟩

theorem names_updateMethod {f : Method → Method} (hf : ∀ m, (f m).definition = m.definition) :
    (M.updateMethod name f).methods.map Method.name = M.methods.map Method.name := by
  rw [updateMethod, List.map_map]
  refine List.map_congr_left fun m _ => ?_
  show (if m.name = name then f m else m).name = m.name
  split
  · exact congrArg (fun d => d.name.name) (hf m)
  · rfl

theorem Placed.updateMethod {f : Method → Method} (h : M.Placed p)
    (hf : ∀ m, (f m).definition = m.definition) : (M.updateMethod name f).Placed p := by
  constructor
  · intro new hnew
    obtain ⟨m, hm, hdefinition, -⟩ := mem_updateMethod hf hnew
    rw [hdefinition]
    exact h.definitions m hm
  · rw [names_updateMethod hf]
    exact h.names

theorem names_putMethod (new : Method) (ms : List Method) :
    (putMethod new ms).map Method.name =
      if new.name ∈ ms.map Method.name then ms.map Method.name
      else ms.map Method.name ++ [new.name] := by
  induction ms with
  | nil => rfl
  | cons m ms ih =>
    rw [putMethod]
    by_cases hm : m.name = new.name
    · simp [hm]
    · rw [if_neg hm, List.map_cons, ih]
      simp only [List.map_cons, List.mem_cons, Ne.symm hm, false_or]
      split <;> rfl

theorem Placed.define (h : M.Placed p) (hs : s ∈ p.sites) (hform : s.expr.form = .define d) :
    (M.define d).Placed p := by
  constructor
  · intro m hm
    rcases mem_putMethod hm with rfl | hm
    · exact ⟨s, hs, hform⟩
    · exact h.definitions m hm
  · rw [Module.define, names_putMethod]
    split
    · exact h.names
    · next hnew =>
      refine List.nodup_append.2 ⟨h.names, List.nodup_singleton _, fun a ha b hb hab => hnew ?_⟩
      rw [← List.mem_singleton.1 hb, ← hab]
      exact ha

theorem method?_of_mem (h : (M.methods.map Method.name).Nodup) {m : Method} (hm : m ∈ M.methods) :
    M.method? m.name = some m := by
  obtain ⟨m', hm'⟩ : ∃ m', M.method? m.name = some m' :=
    Option.isSome_iff_exists.1 (List.find?_isSome.2 ⟨m, hm, beq_self_eq_true _⟩)
  have hname := name_of_method? hm'
  rw [hm', List.inj_on_of_nodup_map h (mem_of_method? hm') hm hname]

theorem Placed.method?_of_mem (h : M.Placed p) {m : Method} (hm : m ∈ M.methods) :
    M.method? m.name = some m := Module.method?_of_mem h.names hm

end Module

/-! ### Rules for steps -/

namespace Flow
variable {p : Program} {limit : Nat} {M N : Module} {m : Flow α} {f : α → Flow β}
  {Q : α → Module → Prop} {R : β → Module → Prop}

/-- From a module, a step that ends well leads to what `Q` says, and a type error blames a site. -/
def Meets (p : Program) (limit : Nat) (m : Flow α) (M : Module) (Q : α → Module → Prop) : Prop :=
  ∀ s : Stacks, s.module = M → match m s with
    | .ok (a, t) => Q a t.module ∧ M.Grows t.module
    | .error h => h.Blames p limit

namespace Meets

theorem give {a : α} (h : Q a M) : Meets p limit (pure a) M Q := by
  rintro s rfl
  exact ⟨h, .refl _⟩

theorem bind (h : Meets p limit m M Q)
    (hf : ∀ a N, Q a N → M.Grows N → Meets p limit (f a) N R) :
    Meets p limit (m >>= f) M R := by
  intro s hs
  have hm := h s hs
  cases hrun : m s with
  | error e =>
    rw [hrun] at hm
    rw [bind_of_error hrun]
    exact hm
  | ok r =>
    rw [hrun] at hm
    have hft := hf r.1 r.2.module hm.1 hm.2 r.2 rfl
    rw [bind_of_ok hrun]
    cases hrun₂ : f r.1 r.2 with
    | error e => rw [hrun₂] at hft; exact hft
    | ok r₂ => rw [hrun₂] at hft; exact ⟨hft.1, hm.2.trans hft.2⟩

theorem mono {Q' : α → Module → Prop} (h : Meets p limit m M Q)
    (hQ : ∀ a N, Q a N → M.Grows N → Q' a N) : Meets p limit m M Q' := by
  intro s hs
  have hm := h s hs
  cases hrun : m s with
  | error e => rw [hrun] at hm; exact hm
  | ok r => rw [hrun] at hm; exact ⟨hQ _ _ hm.1 hm.2, hm.2⟩

theorem throw {h : Halt} (hh : h.Blames p limit) : Meets p limit (throw h : Flow α) M Q :=
  fun _ _ => hh

theorem fail {c : Standing} {cause : TypeError.Cause} {node : NodeId} {span : Span}
    (h : p.Blames limit ⟨cause, node, span, c.method?⟩) :
    Meets p limit (fail c cause node span : Flow α) M Q := throw h

/-- A step that leaves the module as it is. -/
theorem getHere {f : List Bindings → Flow β} (hf : ∀ tables, Meets p limit (f tables) M R) :
    Meets p limit (getHere >>= f) M R := fun s hs => hf s.here s hs

theorem setHere {f : Unit → Flow β} {tables : List Bindings} (hf : Meets p limit (f ()) M R) :
    Meets p limit (setHere tables >>= f) M R := fun s hs => hf { s with here := tables } hs

theorem writeHere {f : Unit → Flow β} {name : String} {ty : Ty} (hf : Meets p limit (f ()) M R) :
    Meets p limit (writeHere name ty >>= f) M R :=
  fun s hs => hf { s with here := Tables.write name ty s.here } hs

theorem record {Q : Unit → Module → Prop} {node : NodeId} {ty : Ty} (h : Q () (M.record node ty)) :
    Meets p limit (record node ty) M Q := by
  rintro s rfl
  exact ⟨h, .record s.module node ty⟩

theorem updateMethod {Q : Unit → Module → Prop} {name : String} {g : Method → Method}
    (h : Q () (M.updateMethod name g)) : Meets p limit (updateMethod name g) M Q := by
  rintro s rfl
  exact ⟨h, .refl _⟩

/-- Passes that each go from one prefix of their results to the next one. -/
theorem untilStable {I : List α → Module → Prop}
    (h : ∀ done N, I done N → Meets p limit m N fun a K => I (done ++ [a]) K) (done : List α)
    (hM : I done M) (fuel : Nat) :
    Meets p limit (untilStable m fuel) M fun rest N => rest ≠ [] ∧ I (done ++ rest) N := by
  induction fuel generalizing done M with
  | zero => exact throw trivial
  | succ fuel ih =>
    refine getHere fun before => (h done M hM).bind fun a N hN _ => getHere fun after => setHere ?_
    show Meets p limit (ite (Tables.merge before after = before) _ _) N _
    split
    · exact give ⟨List.cons_ne_nil a [], hN⟩
    · refine (ih _ hN).bind fun rest K hK _ => give ⟨List.cons_ne_nil a rest, ?_⟩
      rw [List.append_cons]
      exact hK.2

theorem elsewhere {params : List (Ident × Ty)} (h : Meets p limit m (M.recordParams params) Q)
    {go : List Bindings → List (List Bindings) → List Bindings × List (List Bindings)}
    {back : List Bindings → List (List Bindings) → List Bindings → List (List Bindings) →
      List Bindings × List (List Bindings)} :
    Meets p limit (elsewhere params m go back) M Q := by
  rintro s rfl
  have hm := h ⟨s.module.recordParams params, (go s.here s.held).1, (go s.here s.held).2⟩ rfl
  rw [elsewhere_eq_map]
  cases hrun : m ⟨s.module.recordParams params, (go s.here s.held).1, (go s.here s.held).2⟩ with
  | error e => rw [hrun] at hm; exact hm
  | ok r => rw [hrun] at hm; exact ⟨hm.1, (Module.Grows.recordParams _ _).trans hm.2⟩

theorem outward (h : Meets p limit m M Q) : Meets p limit (outward m) M Q := by
  rintro s rfl
  cases hheld : s.held with
  | nil => rw [outward_of_nil hheld]; trivial
  | cons first rest =>
    have hm := h ⟨s.module, first, rest⟩ rfl
    rw [outward_eq_map hheld]
    cases hrun : m ⟨s.module, first, rest⟩ with
    | error e => rw [hrun] at hm; exact hm
    | ok r => rw [hrun] at hm; exact hm

end Meets
end Flow
end FlowTyping
