import FlowTyping.Proofs.Fuel
import FlowTyping.Proofs.Methods
import FlowTyping.Proofs.Occurrences
import FlowTyping.Proofs.Rank
import Mathlib.Tactic.Ring

/-!
# Every run ends

`Program.infer_ends`: with the fuel that `Program.fuel` grants, inference ends with a module or with
a type error, and more fuel gives the same.  `Program.Visits` is what all evaluations of a run have in
common: the expression occurs in the program, the tables bind names of the program to sets of the six
primitives, what is in sight is apart, and the chain at hand is no longer than the expression is
nested.  Going into the body of a method uses up depth, going into the body of a block uses up a
block in force (`Context.reserve`), and a pass that does not end a loop makes the tables say more.
-/

namespace FlowTyping

/-! ### What holds throughout a run -/

/-- A method of a program. -/
structure Method.Fits (p : Program) (m : Method) : Prop where
  occurs : ∃ e, p.Has e ∧ e.form = .define m.definition
  returns : ∀ i ∈ m.instances, i.returns.Basic

/-- A block of a program, at a chain that leaves room for a scope around each of its nested blocks. -/
structure BlockFrame.Fits (p : Program) (scopes : Scopes) (f : BlockFrame) : Prop where
  occurs : ∃ e name span args, p.Has e ∧ e.form = .call name span args (some f.block)
  room : (scopes.chain f.scope).length + (f.block.body.map Expr.size).sum < p.size

structure Engine.Fits (p : Program) (s : Engine) : Prop where
  tables : ∀ i, (s.scopes.table i).Within p.names
  methods : ∀ m ∈ s.module.methods, m.Fits p
  apart : s.scopes.Apart s.context.sight
  frames : ∀ f ∈ s.context.blocks, f.Fits p s.scopes

/-- What the evaluations of a run have in common. -/
structure Program.Visits (p : Program) (e : Expr) (s : Engine) : Prop where
  has : p.Has e
  fits : s.Fits p
  room : (s.scopes.chain s.context.scope).length + e.size ≤ p.size + 1

/-- A call of the program has this block, and its body has room behind what is in sight. -/
def Program.HasBlock (p : Program) (s : Engine) (b : Block Expr) : Prop :=
  (∃ e name span args, p.Has e ∧ e.form = .call name span args (some b)) ∧
    (s.scopes.chain s.context.scope).length + (b.body.map Expr.size).sum < p.size

/-- How often a run can still go into the body of a method or of a block before it comes back. -/
def Context.reserve (limit : Nat) (c : Context) : Nat := 2 * (limit - c.depth) + c.blocks.length

/-- How many passes over a loop can change the tables of a chain, and one more. -/
def Program.passes (p : Program) : Nat := (p.size + 1) * (p.size * 6) + 1

/-- How many nested evaluations an expression can use. -/
def Program.need (p : Program) (limit : Nat) (c : Context) (e : Expr) : Nat :=
  c.reserve limit * (p.size + 1) + e.size

section
variable {p : Program} {s t : Engine} {scopes scopes' : Scopes} {e part : Expr}

theorem Method.Fits.params {m : Method} (h : m.Fits p) {i : Ident} (hi : i ∈ m.definition.params) :
    i.name ∈ p.names := by
  obtain ⟨e, he, hform⟩ := h.occurs
  exact he.name_mem (by rw [hform]; exact hi)

theorem Method.Fits.body {m : Method} (h : m.Fits p) {e : Expr} (he : e ∈ m.definition.body) :
    p.Has e := by
  obtain ⟨e, hhas, hform⟩ := h.occurs
  exact .part hhas (by rw [hform]; exact he)

namespace BlockFrame.Fits
variable {f : BlockFrame}

theorem params (h : f.Fits p scopes) {i : Ident} (hi : i ∈ f.block.params) : i.name ∈ p.names := by
  obtain ⟨e, name, span, args, he, hform⟩ := h.occurs
  exact he.name_mem (by rw [hform]; exact hi)

theorem body (h : f.Fits p scopes) {e : Expr} (he : e ∈ f.block.body) : p.Has e := by
  obtain ⟨e, name, span, args, hhas, hform⟩ := h.occurs
  exact .part hhas (by rw [hform]; exact List.mem_append_right args he)

theorem grown (h : f.Fits p scopes) (hf : f.scope < scopes.size) (hg : scopes.Grown scopes') :
    f.Fits p scopes' :=
  ⟨h.occurs, by rw [hg.chain hf]; exact h.room⟩

end BlockFrame.Fits

namespace Engine.Fits

theorem scope_lt (h : s.Fits p) : s.context.scope < s.scopes.size := h.apart.head_lt

theorem frame_lt (h : s.Fits p) {f : BlockFrame} (hf : f ∈ s.context.blocks) :
    f.scope < s.scopes.size :=
  h.apart.lt _ (List.mem_cons_of_mem _ (List.mem_map_of_mem hf))

/-- The tables and methods of a later state with the context of an earlier one. -/
theorem back (h : s.Fits p) (ht : t.Fits p) (hg : s.scopes.Grown t.scopes) :
    Fits p { t with context := s.context } :=
  ⟨ht.tables, ht.methods, h.apart.grown hg, fun f hf => (h.frames f hf).grown (h.frame_lt hf) hg⟩

theorem setTables (h : s.Fits p) (hg : s.scopes.Grown scopes)
    (ht : ∀ i, (scopes.table i).Within p.names) : Fits p { s with scopes } :=
  ⟨ht, h.methods, h.apart.grown hg, fun f hf => (h.frames f hf).grown (h.frame_lt hf) hg⟩

theorem record (h : s.Fits p) (node : NodeId) (ty : Ty) :
    Fits p { s with module := s.module.record node ty } :=
  ⟨h.tables, h.methods, h.apart, h.frames⟩

theorem lookup_basic (h : s.Fits p) {i : ScopeId} {x : String} {ty : Ty}
    (hx : s.scopes.lookup i x = some ty) : ty.Basic := by
  obtain ⟨j, -, hj⟩ := List.exists_of_findSome?_eq_some hx
  exact (h.tables j x ty hj).2

end Engine.Fits

theorem Scopes.within_setTable {names : Finset String} (h : ∀ i, (scopes.table i).Within names)
    {i : ScopeId} {table : Bindings} (ht : table.Within names) (j : ScopeId) :
    ((scopes.setTable i table).table j).Within names := by
  by_cases hj : j = i
  · subst hj
    by_cases hlt : j < scopes.size
    · rw [table_setTable_self hlt]; exact ht
    · have : (scopes.setTable j table).cells[j]? = none :=
        Array.getElem?_eq_none (by rw [setTable, Array.size_modify]; exact Nat.le_of_not_lt hlt)
      rw [Scopes.table, this]; exact Bindings.within_empty
  · rw [table_setTable_ne hj]; exact h j

theorem Scopes.within_restore {names : Finset String} {saved : Snapshot}
    (h : ∀ i, (scopes.table i).Within names) (hs : ∀ cell ∈ saved, cell.2.Within names)
    (j : ScopeId) : ((scopes.restore saved).table j).Within names := by
  induction saved generalizing scopes with
  | nil => exact h j
  | cons cell saved ih =>
    exact ih (within_setTable h (hs cell List.mem_cons_self))
      fun c hc => hs c (List.mem_cons_of_mem _ hc)

theorem Scopes.within_snapshot {names : Finset String} (h : ∀ i, (scopes.table i).Within names)
    (i : ScopeId) : ∀ cell ∈ scopes.snapshot i, cell.2.Within names := by
  intro cell hc
  obtain ⟨j, -, rfl⟩ := List.mem_map.1 hc
  exact h j

theorem Snapshot.within_merge {names : Finset String} {a b : Snapshot}
    (ha : ∀ cell ∈ a, cell.2.Within names) (hb : ∀ cell ∈ b, cell.2.Within names) :
    ∀ cell ∈ Snapshot.merge a b, cell.2.Within names := by
  intro cell hc
  rw [merge, ← List.map_uncurry_zip_eq_zipWith] at hc
  obtain ⟨⟨x, y⟩, hxy, rfl⟩ := List.mem_map.1 hc
  exact (ha x (List.of_mem_zip hxy).1).merge (hb y (List.of_mem_zip hxy).2)

namespace Module
variable {m : Module}

theorem mem_putMethod {new method : Method} {ms : List Method} (h : method ∈ putMethod new ms) :
    method = new ∨ method ∈ ms := by
  induction ms with
  | nil => exact .inl (List.mem_singleton.1 h)
  | cons old ms ih =>
    rw [putMethod] at h
    split at h
    · exact (List.mem_cons.1 h).imp_right (List.mem_cons_of_mem _)
    · rcases List.mem_cons.1 h with h | h
      · exact .inr (h ▸ List.mem_cons_self)
      · exact (ih h).imp_right (List.mem_cons_of_mem _)

end Module

/-- What is upserted is returned for its signature, or what is combined from it and what was there. -/
theorem Instance.mem_upsert {combine : Ty → Ty → Ty} {signature : Signature} {returns : Ty}
    {is : List Instance} {i : Instance} (h : i ∈ upsert combine signature returns is) :
    i ∈ is ∨ i.returns = returns ∨ ∃ j ∈ is, i.returns = combine j.returns returns := by
  induction is with
  | nil => cases List.mem_singleton.1 h; exact .inr (.inl rfl)
  | cons j is ih =>
    rw [upsert] at h
    split at h
    · rcases List.mem_cons.1 h with rfl | h
      · exact .inr (.inr ⟨j, List.mem_cons_self, rfl⟩)
      · exact .inl (List.mem_cons_of_mem _ h)
    · rcases List.mem_cons.1 h with rfl | h
      · exact .inl List.mem_cons_self
      · rcases ih h with h | h | ⟨k, hk, h⟩
        · exact .inl (List.mem_cons_of_mem _ h)
        · exact .inr (.inl h)
        · exact .inr (.inr ⟨k, List.mem_cons_of_mem _ hk, h⟩)

theorem Method.Fits.store {m : Method} (h : m.Fits p) (signature : Signature) {ty : Ty}
    (hty : ty.Basic) : (m.store signature ty).Fits p := by
  refine ⟨h.occurs, fun i hi => ?_⟩
  rcases Instance.mem_upsert hi with hi | hi | ⟨j, hj, hi⟩
  · exact h.returns i hi
  · exact hi ▸ hty
  · exact hi ▸ hty

theorem Engine.Fits.updateMethod (h : s.Fits p) (name : String) {f : Method → Method}
    (hf : ∀ m, m.Fits p → (f m).Fits p) :
    Fits p { s with module := s.module.updateMethod name f } := by
  refine ⟨h.tables, fun m hm => ?_, h.apart, h.frames⟩
  obtain ⟨old, hold, rfl⟩ := List.mem_map.1 hm
  split
  · exact hf old (h.methods old hold)
  · exact h.methods old hold

end

/-! ### Steps that end -/

/-- From a state a step ends well with `Q`, or with a type error. -/
def Ends (m : Infer α) (s : Engine) (Q : α → Engine → Prop) : Prop :=
  match m s with
  | .ok a t => Q a t
  | .error (.error _) _ => True
  | .error .outOfFuel _ => False

/-- A step that ends wherever a run may come to from a state on, and gives a value with `V`. -/
def Safe (p : Program) (s : Engine) (m : Infer α) (V : α → Prop) : Prop :=
  ∀ ⦃s'⦄, s.Extends s' → s'.Fits p → Ends m s' fun a t => V a ∧ t.Fits p ∧ s'.Extends t

section
variable {p : Program} {s : Engine} {m : Infer α} {f : α → Infer β} {V : α → Prop}
  {W : β → Prop}

theorem Ends.bind {Q : α → Engine → Prop} {R : β → Engine → Prop} (h : Ends m s Q)
    (hf : ∀ a t, Q a t → Ends (f a) t R) : Ends (m >>= f) s R := by
  unfold Ends at h ⊢
  cases hm : m s with
  | ok a t => rw [hm] at h; rw [bind_of_ok hm]; exact hf a t h
  | error e t =>
    rw [hm] at h; rw [bind_of_error hm]
    cases e with
    | error e => trivial
    | outOfFuel => exact h

theorem Ends.mono {Q R : α → Engine → Prop} (h : Ends m s Q) (hQR : ∀ a t, Q a t → R a t) :
    Ends m s R := by
  unfold Ends at h ⊢
  cases hm : m s with
  | ok a t => rw [hm] at h; exact hQR a t h
  | error e t => rw [hm] at h; cases e <;> exact h

/-- The same run of another step. -/
theorem Ends.of_eq {n : Infer α} {t : Engine} {Q : α → Engine → Prop} (h : Ends n t Q)
    (hrun : m s = n t) : Ends m s Q := by
  unfold Ends at h ⊢; rwa [hrun]

theorem Ends.whileActive {call : BlockCall}
    (h : Ends m { s with active := call :: s.active } fun a t =>
      V a ∧ t.Fits p ∧ Engine.Extends { s with active := call :: s.active } t) :
    Ends (Infer.whileActive call m) s fun a t => V a ∧ t.Fits p ∧ s.Extends t := by
  unfold Ends at h ⊢
  unfold Infer.whileActive
  split at h
  · next a t hrun =>
    rw [hrun]
    refine ⟨h.1, ⟨h.2.1.tables, h.2.1.methods, h.2.1.apart, h.2.1.frames⟩, h.2.2.context, ?_,
      h.2.2.scopes⟩
    show t.active.erase call = s.active
    rw [h.2.2.active]; exact List.erase_cons_head call s.active
  · next hrun => rw [hrun]; trivial
  · exact h.elim

namespace Safe

theorem bind (h : Safe p s m V) (hf : ∀ a, V a → Safe p s (f a) W) : Safe p s (m >>= f) W := by
  intro s' hs hfit
  refine (h hs hfit).bind fun a t ⟨ha, ht, hst⟩ => ?_
  exact (hf a ha (hs.trans hst) ht).mono fun b u ⟨hb, hu, htu⟩ => ⟨hb, hu, hst.trans htu⟩

theorem give {a : α} (ha : V a) : Safe p s (pure a) V := fun s' _ hfit => ⟨ha, hfit, .refl s'⟩

theorem fail (cause : TypeError.Cause) (node : NodeId) (span : Span) :
    Safe p s (Infer.fail cause node span) V := fun _ _ _ => trivial

theorem context : Safe p s Infer.context (· = s.context) :=
  fun s' hs hfit => ⟨hs.context, hfit, .refl s'⟩

theorem change {g : Engine → Engine}
    (h : ∀ s', s.Extends s' → s'.Fits p → (g s').Fits p ∧ s'.Extends (g s')) :
    Safe p s (modify g) fun _ => True :=
  fun s' hs hfit => ⟨trivial, (h s' hs hfit).1, (h s' hs hfit).2⟩

theorem record (node : NodeId) (ty : Ty) : Safe p s (Infer.record node ty) fun _ => True :=
  change fun _ _ hfit => ⟨hfit.record node ty, rfl, rfl, .refl _⟩

/-! #### Statements -/

theorem body {expr : Expr → Infer Ty} {stmts : List Expr}
    (h : ∀ stmt ∈ stmts, Safe p s (expr stmt) Ty.Basic) :
    Safe p s (Infer.body expr stmts) Ty.Basic := by
  unfold Infer.body
  have key : ∀ ty : Ty, ty.Basic →
      Safe p s (stmts.foldlM (fun _ stmt => expr stmt) ty) Ty.Basic := by
    induction stmts with
    | nil => exact fun ty hty => give hty
    | cons stmt stmts ih =>
      intro ty _
      rw [List.foldlM_cons]
      exact (h stmt List.mem_cons_self).bind (ih fun e he => h e (List.mem_cons_of_mem _ he))
  exact key _ Ty.nil_basic

theorem mapM {expr : Expr → Infer Ty} {args : List Expr}
    (h : ∀ arg ∈ args, Safe p s (expr arg) Ty.Basic) :
    Safe p s (args.mapM expr) fun tys => ∀ ty ∈ tys, ty.Basic := by
  induction args with
  | nil => exact give fun _ h => absurd h List.not_mem_nil
  | cons arg args ih =>
    rw [List.mapM_cons]
    refine (h arg List.mem_cons_self).bind fun ty hty => ?_
    refine (ih fun e he => h e (List.mem_cons_of_mem _ he)).bind fun tys htys => ?_
    exact give (List.forall_mem_cons.2 ⟨hty, htys⟩)

theorem readVar (id : NodeId) (span : Span) (name : String) :
    Safe p s (Infer.readVar id span name) Ty.Basic := by
  intro s' _ hfit
  unfold Ends
  cases hx : s'.scopes.lookup s'.context.scope name with
  | some ty => rw [Infer.readVar_of_some hx]; exact ⟨hfit.lookup_basic hx, hfit, .refl s'⟩
  | none => rw [Infer.readVar_of_none hx]; trivial

theorem assign {expr : Expr → Infer Ty} {target : Ident} {value : Expr}
    (hx : target.name ∈ p.names) (h : Safe p s (expr value) Ty.Basic) :
    Safe p s (Infer.assign expr target value) Ty.Basic := by
  refine h.bind fun ty hty => (change fun s' _ hfit => ?_).bind fun _ _ =>
    (record target.id ty).bind fun _ _ => give hty
  have hg := Scopes.Grown.setTable s'.scopes
    (s'.scopes.holder s'.context.scope target.name)
    ((s'.scopes.table (s'.scopes.holder s'.context.scope target.name)).insert target.name ty)
  exact ⟨hfit.setTables hg (Scopes.within_setTable hfit.tables ((hfit.tables _).insert hx hty)),
    rfl, rfl, hg⟩

theorem define {definition : Definition Expr}
    (hoccurs : ∃ e, p.Has e ∧ e.form = .define definition) :
    Safe p s (Infer.define definition) Ty.Basic := by
  refine (change fun s' _ hfit => ?_).bind fun _ _ => give Ty.nil_basic
  refine ⟨⟨hfit.tables, fun m hm => ?_, hfit.apart, hfit.frames⟩, rfl, rfl, .refl _⟩
  rcases Module.mem_putMethod hm with rfl | hm
  · exact ⟨hoccurs, fun _ h => absurd h List.not_mem_nil⟩
  · exact hfit.methods m hm

/-! #### Choices and loops -/

theorem snapshot (scope : ScopeId) :
    Safe p s (Infer.snapshot scope) fun saved => ∀ cell ∈ saved, cell.2.Within p.names :=
  fun s' _ hfit => ⟨Scopes.within_snapshot hfit.tables scope, hfit, .refl s'⟩

theorem restore {saved : Snapshot} (h : ∀ cell ∈ saved, cell.2.Within p.names) :
    Safe p s (Infer.restore saved) fun _ => True :=
  change fun s' _ hfit =>
    have hg := Scopes.Grown.restore s'.scopes saved
    ⟨hfit.setTables hg (Scopes.within_restore hfit.tables h), rfl, rfl, hg⟩

theorem branch {expr : Expr → Infer Ty} {cond : Expr} {thenBody : List Expr}
    {elseBody : Option (List Expr)} (hcond : Safe p s (expr cond) Ty.Basic)
    (hthen : ∀ stmt ∈ thenBody, Safe p s (expr stmt) Ty.Basic)
    (helse : ∀ stmt ∈ elseBody.getD [], Safe p s (expr stmt) Ty.Basic) :
    Safe p s (Infer.branch expr cond thenBody elseBody) Ty.Basic := by
  refine hcond.bind fun _ _ => context.bind fun here _ => (snapshot here.scope).bind fun before hb =>
    (body hthen).bind fun thenType ht => (snapshot here.scope).bind fun afterThen ha =>
    (restore hb).bind fun _ _ => (body helse).bind fun elseType he =>
    (snapshot here.scope).bind fun afterElse hc => ?_
  exact (restore (Snapshot.within_merge ha hc)).bind fun _ _ => give (ht.join he)

/-- As long as a pass changes the merged tables they say more, and they cannot say more than all
primitives for all names. -/
theorem untilStable {scope : ScopeId} {fuel : Nat} (h : Safe p s m V)
    (hscope : scope < s.scopes.size) (hlen : (s.scopes.chain scope).length ≤ p.size + 1)
    (hfuel : p.passes ≤ fuel) :
    Safe p s (Infer.untilStable scope m fuel) fun as => ∀ a ∈ as, V a := by
  have hbound {s' : Engine} (hs : s.Extends s') (hfit : s'.Fits p) :
      (s'.scopes.snapshot scope).rank < p.passes := by
    refine Nat.lt_succ_of_le ((Scopes.rank_snapshot_le hfit.tables scope).trans ?_)
    rw [hs.scopes.chain hscope]
    exact Nat.mul_le_mul hlen (Nat.mul_le_mul_right 6 p.card_names_le)
  have key : ∀ fuel s', s.Extends s' → s'.Fits p →
      p.passes ≤ fuel + (s'.scopes.snapshot scope).rank →
      Ends (Infer.untilStable scope m fuel) s' fun as t =>
        (∀ a ∈ as, V a) ∧ t.Fits p ∧ s'.Extends t := by
    intro fuel
    induction fuel with
    | zero => intro s' hs hfit hle; have := hbound hs hfit; omega
    | succ fuel ih =>
      intro s' hs hfit hle
      refine Ends.bind (Q := fun before t => before = s'.scopes.snapshot scope ∧ s' = t)
        ⟨rfl, rfl⟩ ?_
      rintro _ _ ⟨rfl, rfl⟩
      refine (h hs hfit).bind fun a t ⟨ha, ht, hst⟩ => ?_
      refine Ends.bind (Q := fun after u => after = t.scopes.snapshot scope ∧ t = u)
        ⟨rfl, rfl⟩ ?_
      rintro _ _ ⟨rfl, rfl⟩
      have hmerged := Snapshot.within_merge (Scopes.within_snapshot hfit.tables scope)
        (Scopes.within_snapshot ht.tables scope)
      refine Ends.bind (Q := fun _ u => u = { t with
        scopes := t.scopes.restore
          (.merge (s'.scopes.snapshot scope) (t.scopes.snapshot scope)) }) rfl ?_
      rintro _ _ rfl
      obtain ⟨-, hfit', hext⟩ := restore hmerged (hs.trans hst) ht
      have hlt := hs.scopes.lt hscope
      split
      · exact ⟨fun _ hb => List.mem_singleton.1 hb ▸ ha, hfit', hst.trans hext⟩
      · next hne =>
        have hrank := Snapshot.rank_lt_rank_merge
          (by rw [Scopes.length_snapshot, Scopes.length_snapshot, hst.scopes.chain hlt]) hne
        refine (ih _ (hs.trans (hst.trans hext)) hfit' ?_).bind fun as u ⟨has, hu, htu⟩ =>
          ⟨List.forall_mem_cons.2 ⟨ha, has⟩, hu, (hst.trans hext).trans htu⟩
        show _ ≤ fuel + Snapshot.rank (Scopes.snapshot (t.scopes.restore _) scope)
        rw [Scopes.snapshot_restore_merge hlt hst.scopes]
        omega
  exact fun s' hs hfit => key fuel s' hs hfit (Nat.le_add_right_of_le hfuel)

end Safe
end

/-! ### Bodies of methods and of blocks -/

theorem Scopes.within_opened {names : Finset String} {scopes : Scopes} {table : Bindings}
    (h : ∀ i, (scopes.table i).Within names) (ht : table.Within names) (parent? : Option ScopeId)
    (i : ScopeId) : ((scopes.opened parent? table).table i).Within names := by
  refine within_setTable (fun j => ?_) ht i
  rcases Nat.lt_trichotomy j scopes.size with hj | rfl | hj
  · rw [table_push_of_lt hj]; exact h j
  · rw [table_push_self]; exact Bindings.within_empty
  · have : (scopes.push parent?).1.cells[j]? = none :=
      Array.getElem?_eq_none (by rw [push, Array.size_push]; exact hj)
    rw [Scopes.table, this]; exact Bindings.within_empty

/-- Inference of single expressions that ends for all evaluations that the fuel suffices for. -/
def Answers (p : Program) (limit fuel : Nat) (expr : Expr → Infer Ty) : Prop :=
  ∀ ⦃e s⦄, p.Visits e s → p.need limit s.context e + p.passes ≤ fuel →
    Ends (expr e) s fun ty t => ty.Basic ∧ t.Fits p ∧ s.Extends t

/-- Inference of calls in the same context that ends if the fuel suffices for the bodies of methods. -/
def AnswersCalls (p : Program) (limit fuel : Nat) (s : Engine) (entry : Infer.Entry) : Prop :=
  ∀ id span method signature block, method.Fits p → (∀ ty ∈ signature, ty.Basic) →
    (∀ b, block = some b → p.HasBlock s b) →
    s.context.reserve limit * (p.size + 1) + p.passes ≤ fuel →
    Safe p s (entry id span method signature block) Ty.Basic

namespace Answers
variable {p : Program} {limit fuel : Nat} {expr : Expr → Infer Ty} {s : Engine}

theorem safe (h : Answers p limit fuel expr) {e : Expr} (he : p.Has e) (hs : s.Fits p)
    (hroom : (s.scopes.chain s.context.scope).length + e.size ≤ p.size + 1)
    (hfuel : p.need limit s.context e + p.passes ≤ fuel) : Safe p s (expr e) Ty.Basic := by
  intro s' hs' hfit
  refine h ⟨he, hfit, ?_⟩ ?_
  · rw [hs'.context, hs'.scopes.chain hs.scope_lt]; exact hroom
  · rw [hs'.context]; exact hfuel

/-- A body that is evaluated in a new scope and another context, on the way back from which the
context is the one before. -/
theorem within (h : Answers p limit fuel expr) {stmts : List Expr} {parent? : Option ScopeId}
    {params : List (Ident × Ty)} {context : Context} (hs : s.Fits p)
    (hapart : (s.scopes.opened parent? (.ofParams params)).Apart context.sight)
    (hframes : ∀ f ∈ context.blocks, f.Fits p (s.scopes.opened parent? (.ofParams params)))
    (hparams : ∀ param ∈ params, param.1.name ∈ p.names ∧ param.2.Basic)
    (hstmts : ∀ e ∈ stmts, p.Has e ∧
      ((s.scopes.opened parent? (.ofParams params)).chain context.scope).length + e.size ≤
        p.size + 1 ∧
      p.need limit context e + p.passes ≤ fuel) :
    Ends (Infer.within context (Infer.body expr stmts))
      { s with
        scopes := s.scopes.opened parent? (.ofParams params)
        module := s.module.recordParams params }
      fun ty t => ty.Basic ∧ t.Fits p ∧ s.Extends t := by
  have hfit : Engine.Fits p { s with
      context
      scopes := s.scopes.opened parent? (.ofParams params)
      module := s.module.recordParams params } := by
    refine ⟨?_, ?_, hapart, hframes⟩
    · exact Scopes.within_opened hs.tables (Bindings.within_ofParams hparams) parent?
    · show ∀ m ∈ (s.module.recordParams params).methods, m.Fits p
      rw [Module.methods_recordParams]; exact hs.methods
  have hbody := Safe.body (fun e he => h.safe (hstmts e he).1 hfit (hstmts e he).2.1
    (hstmts e he).2.2) (.refl _) hfit
  unfold Ends at hbody ⊢
  unfold Infer.within
  split at hbody
  · next ty t hrun =>
    rw [hrun]
    have hgrown := (Scopes.Grown.opened s.scopes parent? _).trans hbody.2.2.scopes
    exact ⟨hbody.1, hs.back hbody.2.1 hgrown, rfl, hbody.2.2.active, hgrown⟩
  · next hrun => rw [hrun]; trivial
  · exact hbody.elim

theorem methodBody (h : Answers p limit fuel expr) (id : NodeId) (span : Span)
    (blocks : List BlockFrame) {method : Method} {signature : Signature} (hmethod : method.Fits p)
    (hsig : ∀ ty ∈ signature, ty.Basic) (hapart : s.scopes.Apart (blocks.map BlockFrame.scope))
    (hframes : ∀ f ∈ blocks, f.Fits p s.scopes)
    (hlen : blocks.length ≤ s.context.blocks.length + 1)
    (hfuel : s.context.reserve limit * (p.size + 1) + p.passes ≤ fuel) :
    Safe p s (Infer.methodBody expr limit id span method signature blocks) Ty.Basic := by
  intro s' hs hfit
  have hrun := Infer.methodBody_apply (s := s') expr limit id span method signature blocks
  by_cases hdepth : limit ≤ s'.context.depth
  · rw [if_pos hdepth] at hrun
    exact Ends.of_eq (n := Infer.fail _ id span) trivial hrun
  · rw [if_neg hdepth] at hrun
    refine Ends.of_eq (h.within hfit (hapart.grown hs.scopes).opened_none (fun f hf => ?_)
      (fun param hp => ?_) fun e he => ⟨hmethod.body he, ?_, ?_⟩) hrun
    · have hlt := hapart.lt _ (List.mem_map_of_mem hf)
      exact (hframes f hf).grown hlt (hs.scopes.trans (.opened _ _ _))
    · obtain ⟨h₁, h₂⟩ := List.of_mem_zip (show (param.1, param.2) ∈ _ from hp)
      exact ⟨hmethod.params h₁, hsig _ h₂⟩
    · rw [Scopes.chain_opened_none]
      have := (hmethod.body he).size_le
      simp only [List.length_singleton]; omega
    · -- the depth used up makes up for the block that is now in force
      have hsize := (hmethod.body he).size_le
      have hres : (Context.reserve limit
          ⟨s'.scopes.size, blocks, some method.name, s'.context.depth + 1⟩) + 1 ≤
          s.context.reserve limit := by
        rw [hs.context] at hdepth ⊢
        simp only [Context.reserve]; omega
      have := Nat.mul_le_mul_right (p.size + 1) hres
      rw [Nat.add_mul] at this
      unfold Program.need
      omega

theorem firstCall (h : Answers p limit fuel expr) (id : NodeId) (span : Span) {method : Method}
    {signature : Signature} (hmethod : method.Fits p) (hsig : ∀ ty ∈ signature, ty.Basic)
    (hfuel : s.context.reserve limit * (p.size + 1) + p.passes ≤ fuel) :
    Safe p s (Infer.firstCall expr limit id span method signature) Ty.Basic := by
  have hstore {ty : Ty} (hty : ty.Basic) :
      Safe p s (Infer.updateMethod method.name (·.store signature ty)) fun _ => True :=
    Safe.change fun s' _ hfit =>
      ⟨hfit.updateMethod _ fun _ hm => hm.store signature hty, rfl, rfl, .refl _⟩
  refine (hstore Ty.nil_basic).bind fun _ _ => ?_
  have hbody := h.methodBody (s := s) id span [] hmethod hsig
    ⟨fun _ h => absurd h List.not_mem_nil, List.nodup_nil⟩ (fun _ h => absurd h List.not_mem_nil)
    (Nat.zero_le _) hfuel
  exact hbody.bind fun ty hty => (hstore hty).bind fun _ _ => Safe.give hty

theorem blockCall (h : Answers p limit fuel expr) (id : NodeId) (span : Span) {method : Method}
    {signature : Signature} {block : Block Expr} (hs : s.Fits p) (hmethod : method.Fits p)
    (hsig : ∀ ty ∈ signature, ty.Basic) (hblock : p.HasBlock s block)
    (hfuel : s.context.reserve limit * (p.size + 1) + p.passes ≤ fuel) :
    Safe p s (Infer.blockCall expr limit id span method signature block) Ty.Basic := by
  intro s' hs' hfit
  refine Ends.bind (Q := fun a t => s' = a ∧ s' = t) ⟨rfl, rfl⟩ ?_
  rintro _ _ ⟨rfl, rfl⟩
  show Ends (if _ ∈ s'.active then _ else _) _ _
  split
  · exact ⟨Ty.nil_basic, hfit, .refl _⟩
  · refine Ends.bind (Q := fun a t => s'.context = a ∧ s' = t) ⟨rfl, rfl⟩ ?_
    rintro _ _ ⟨rfl, rfl⟩
    have hfit' (call : BlockCall) : Engine.Fits p { s' with active := call :: s'.active } :=
      ⟨hfit.tables, hfit.methods, hfit.apart, hfit.frames⟩
    have hlt := hfit.scope_lt
    have hbody := h.methodBody (s := { s' with active := ⟨method.name, signature, block.id⟩ ::
      s'.active }) id span (⟨block, s'.context.scope, s'.context.method?⟩ :: s'.context.blocks)
      hmethod hsig hfit.apart ?_ (Nat.le_refl _) ?_ (.refl _) (hfit' _)
    · refine (Ends.whileActive hbody).bind fun ty t ⟨hty, ht, hst⟩ => ?_
      exact ⟨hty, ht.updateMethod _ fun m hm => ⟨hm.occurs, hm.returns⟩, hst.context,
        hst.active, hst.scopes⟩
    · refine List.forall_mem_cons.2 ⟨⟨hblock.1, ?_⟩, hfit.frames⟩
      show (s'.scopes.chain s'.context.scope).length + _ < _
      rw [hs'.context, hs'.scopes.chain hs.scope_lt]; exact hblock.2
    · show s'.context.reserve limit * _ + _ ≤ _
      rw [hs'.context]; exact hfuel

theorem enter (h : Answers p limit fuel expr) (hs : s.Fits p) :
    AnswersCalls p limit fuel s (Infer.enter expr limit) := by
  intro id span method signature block hmethod hsig hblock hfuel
  cases block with
  | none =>
    show Safe p s (Infer.plainCall expr limit id span method signature) Ty.Basic
    unfold Infer.plainCall
    cases hr : method.returns? signature with
    | some ty =>
      refine Safe.give ?_
      obtain ⟨i, hi, rfl⟩ := Option.map_eq_some_iff.1 hr
      exact hmethod.returns i (List.mem_of_find?_eq_some hi)
    | none => exact h.firstCall id span hmethod hsig hfuel
  | some b => exact h.blockCall id span hs hmethod hsig (hblock b rfl) hfuel

theorem runBlock (h : Answers p limit fuel expr) {frame : BlockFrame} {outer : List BlockFrame}
    {args : Signature} (hs : s.Fits p) (hblocks : s.context.blocks = frame :: outer)
    (hargs : ∀ ty ∈ args, ty.Basic)
    (hfuel : s.context.reserve limit * (p.size + 1) + p.passes ≤ fuel) :
    Safe p s (Infer.runBlock expr fuel frame outer args) Ty.Basic := by
  have hframe : frame.Fits p s.scopes := hs.frames frame (by rw [hblocks]; exact List.mem_cons_self)
  have hapart : s.scopes.Apart (frame.scope :: outer.map BlockFrame.scope) := by
    have := hs.apart.tail; rwa [hblocks] at this
  refine Safe.context.bind fun _ hc => ?_
  subst hc
  have hpass : Safe p s (Infer.blockPass expr frame outer s.context.depth args) Ty.Basic := by
    intro s' hs' hfit
    have hapart' := hapart.grown hs'.scopes
    refine Ends.of_eq (h.within hfit hapart'.opened_some (fun f hf => ?_) (fun param hp => ?_)
      fun e he => ⟨hframe.body he, ?_, ?_⟩) (Infer.blockPass_apply ..)
    · have hf' : f ∈ s.context.blocks := by rw [hblocks]; exact List.mem_cons_of_mem _ hf
      exact (hs.frames f hf').grown (hs.frame_lt hf') (hs'.scopes.trans (.opened _ _ _))
    · obtain ⟨⟨i, k⟩, hi, rfl⟩ := List.mem_map.1 hp
      refine ⟨hframe.params (List.fst_mem_of_mem_zipIdx hi), ?_⟩
      show (args.getD k .nil).Basic
      rw [List.getD_eq_getElem?_getD]
      cases hk : args[k]? with
      | none => exact Ty.nil_basic
      | some ty => exact hargs ty (List.mem_of_getElem? hk)
    · rw [Scopes.chain_opened_some hapart'.head_lt, hs'.scopes.chain hapart.head_lt,
        List.length_cons]
      have := List.le_sum_of_mem (List.mem_map_of_mem (f := Expr.size) he)
      have := hframe.room
      omega
    · have hsize := (hframe.body he).size_le
      have hres : Context.reserve limit ⟨s'.scopes.size, outer, frame.method?, s.context.depth⟩ + 1 =
          s.context.reserve limit := by
        simp only [Context.reserve, hblocks, List.length_cons]; omega
      rw [← hres, Nat.add_mul] at hfuel
      unfold Program.need
      omega
  have hlen : (s.scopes.chain frame.scope).length ≤ p.size + 1 := by have := hframe.room; omega
  refine (hpass.untilStable hapart.head_lt hlen (Nat.le_of_add_left_le hfuel)).bind fun as has => ?_
  exact (Safe.record _ _).bind fun _ _ => Safe.give (Ty.unionOf_basic has)

theorem yield (h : Answers p limit fuel expr) (id : NodeId) (span : Span) {args : List Expr}
    (hs : s.Fits p) (hargs : ∀ arg ∈ args, Safe p s (expr arg) Ty.Basic)
    (hfuel : s.context.reserve limit * (p.size + 1) + p.passes ≤ fuel) :
    Safe p s (Infer.yield expr fuel id span args) Ty.Basic := by
  refine (Safe.mapM hargs).bind fun signature hsig => Safe.context.bind fun _ hc => ?_
  subst hc
  cases hblocks : s.context.blocks with
  | nil => exact Safe.fail _ _ _
  | cons frame outer => exact h.runBlock hs hblocks hsig hfuel

end Answers

namespace AnswersCalls
variable {p : Program} {limit fuel : Nat} {s : Engine} {entry : Infer.Entry}
  {block : Option (Block Expr)}

theorem dispatch (h : AnswersCalls p limit fuel s entry) (id : NodeId) (span nameSpan : Span)
    (name : String) {signature : Signature} (hsig : ∀ ty ∈ signature, ty.Basic)
    (hblock : ∀ b, block = some b → p.HasBlock s b)
    (hfuel : s.context.reserve limit * (p.size + 1) + p.passes ≤ fuel) :
    Safe p s (Infer.dispatch entry id span name nameSpan signature block) Ty.Basic := by
  intro s' hs' hfit
  cases hm : s'.module.method? name with
  | none => exact Ends.of_eq (Safe.fail _ _ _ hs' hfit) (Infer.dispatch_of_none hm)
  | some method =>
    have hmethod := hfit.methods method (Module.mem_of_method? hm)
    by_cases harity : method.arity = signature.length
    · exact Ends.of_eq (h id span method signature block hmethod hsig hblock hfuel hs' hfit)
        (Infer.dispatch_of_some hm harity)
    · exact Ends.of_eq (Safe.fail _ _ _ hs' hfit) (Infer.dispatch_of_arity hm harity)

theorem call {expr : Expr → Infer Ty} (h : AnswersCalls p limit fuel s entry) (id : NodeId)
    (span nameSpan : Span) (name : String) {args : List Expr}
    (hargs : ∀ arg ∈ args, Safe p s (expr arg) Ty.Basic)
    (hblock : ∀ b, block = some b → p.HasBlock s b)
    (hfuel : s.context.reserve limit * (p.size + 1) + p.passes ≤ fuel) :
    Safe p s (Infer.call expr entry id span name nameSpan args block) Ty.Basic :=
  (Safe.mapM hargs).bind fun _ hsig => h.dispatch id span nameSpan name hsig hblock hfuel

end AnswersCalls

theorem Answers.part {p : Program} {limit fuel : Nat} {expr : Expr → Infer Ty} {s : Engine}
    (h : Answers p limit fuel expr) {e part : Expr} (he : p.Visits e s)
    (hfuel : p.need limit s.context e + p.passes ≤ fuel + 1) (hp : part ∈ e.form.parts) :
    Safe p s (expr part) Ty.Basic := by
  have hlt := Expr.size_part_lt hp
  refine h.safe (.part he.has hp) he.fits ?_ ?_
  · have := he.room; omega
  · unfold Program.need at hfuel ⊢; omega

/-- From the inference of the expressions inside a node, and of calls, to the node. -/
theorem Answers.layer {p : Program} {limit fuel : Nat} {expr : Expr → Infer Ty} {s : Engine}
    {entry : Infer.Entry} (h : Answers p limit fuel expr) (hentry : AnswersCalls p limit fuel s entry)
    {e : Expr} (he : p.Visits e s) (hfuel : p.need limit s.context e + p.passes ≤ fuel + 1) :
    Safe p s (Infer.layer expr entry fuel e) Ty.Basic := by
  refine Safe.bind ?_ fun ty hty => (Safe.record e.id ty).bind fun _ _ => Safe.give hty
  have hpart {part : Expr} (hp : part ∈ e.form.parts) : Safe p s (expr part) Ty.Basic :=
    h.part he hfuel hp
  have hrest : s.context.reserve limit * (p.size + 1) + p.passes ≤ fuel := by
    have := e.size_pos; unfold Program.need at hfuel; omega
  unfold Infer.form
  cases hform : e.form with
  | literal v => exact Safe.give v.type_basic
  | var x => exact Safe.readVar e.id e.span x
  | assign target value =>
    exact Safe.assign (he.has.name_mem (by rw [hform]; exact List.mem_singleton_self target))
      (hpart (by rw [hform]; exact List.mem_singleton_self value))
  | define definition => exact Safe.define ⟨e, he.has, hform⟩
  | branch cond thenBody elseBody =>
    refine Safe.branch (hpart ?_) (fun stmt hs => hpart ?_) fun stmt hs => hpart ?_ <;>
      cases elseBody <;> simp_all [Form.parts]
  | loop cond stmts =>
    rw [hform, Form.parts] at hpart
    have hcond := hpart List.mem_cons_self
    refine hcond.bind fun _ _ => Safe.context.bind fun _ hc => ?_
    subst hc
    have hpass := (Safe.body fun stmt hs => hpart (List.mem_cons_of_mem cond hs)).bind
      fun _ _ => hcond
    have hroom := he.room
    exact (hpass.untilStable he.fits.scope_lt (by omega) (Nat.le_of_add_left_le hrest)).bind
      fun _ _ => Safe.give Ty.nil_basic
  | yield args =>
    exact h.yield e.id e.span he.fits (fun arg ha => hpart (by rw [hform]; exact ha)) hrest
  | call name nameSpan args block =>
    refine hentry.call e.id e.span nameSpan name (fun arg ha => hpart ?_) ?_ hrest
    · rw [hform]; cases block with
      | none => exact ha
      | some b => exact List.mem_append_left b.body ha
    · rintro b rfl
      refine ⟨⟨e, name, nameSpan, args, he.has, hform⟩, ?_⟩
      have hsize := e.size_eq
      have hroom := he.room
      rw [hform] at hsize
      simp only [Form.places, Form.parts, List.length_cons, List.map_append, List.sum_append]
        at hsize
      omega

/-! ### Runs of programs -/

section
variable {p : Program} {limit : Nat}

/-- With enough fuel every evaluation of a run ends, also with breakpoints at evaluations that a run
does not come to. -/
theorem answers_exprUntil {stop : Expr → Engine → Bool}
    (hstop : ∀ e s, stop e s = true → ¬ p.Visits e s) (fuel : Nat) :
    Answers p limit fuel (Infer.exprUntil stop limit fuel) := by
  induction fuel with
  | zero =>
    intro e s _ hfuel
    have := e.size_pos
    unfold Program.need at hfuel
    omega
  | succ fuel ih =>
    intro e s he hfuel
    refine Ends.of_eq (ih.layer (ih.enter he.fits) he hfuel (.refl s) he.fits) ?_
    exact if_neg fun h => hstop e s h he

theorem answers_expr (fuel : Nat) : Answers p limit fuel (Infer.expr limit fuel) := by
  rw [← Infer.exprUntil_never]
  exact answers_exprUntil (fun _ _ h => absurd h Bool.false_ne_true) fuel

theorem Program.need_le_fuel (p : Program) (limit : Nat) {e : Expr} (he : p.Has e) :
    p.need limit Engine.initial.context e + p.passes ≤ p.fuel limit := by
  have hsize := he.size_le
  have h₁ : p.need limit Engine.initial.context e = 2 * limit * (p.size + 1) + e.size := rfl
  have h₂ : p.fuel limit = 2 * limit * (p.size + 1) + 2 * limit + 9 * p.size + 7 * (p.size * p.size) +
      13 + 7 * p.size := by
    unfold Program.fuel; ring
  have h₃ : p.passes = 6 * (p.size * p.size) + 6 * p.size + 1 := by unfold Program.passes; ring
  omega

theorem Engine.fits_initial (p : Program) : Engine.initial.Fits p where
  tables := by
    intro i
    have : Engine.initial.scopes.table i = .empty := by
      cases i with
      | zero => rfl
      | succ i => rfl
    rw [this]; exact Bindings.within_empty
  methods := fun _ h => absurd h List.not_mem_nil
  apart := ⟨fun i hi => by rw [List.mem_singleton.1 hi]; decide, by
    show (List.flatMap _ [Scopes.root]).Nodup
    rw [List.flatMap_singleton]; exact Scopes.chain_nodup _ _⟩
  frames := fun _ h => absurd h List.not_mem_nil

theorem Program.ends_body {expr : Expr → Infer Ty} (h : Answers p limit (p.fuel limit) expr) :
    Ends (Infer.body expr p.stmts) .initial
      fun ty t => ty.Basic ∧ t.Fits p ∧ Engine.initial.Extends t := by
  have hfit := Engine.fits_initial p
  refine Safe.body (fun e he => ?_) (.refl _) hfit
  have hhas : p.Has e := .stmt he
  refine h.safe hhas hfit ?_ (p.need_le_fuel limit hhas)
  have hchain : Engine.initial.scopes.chain Engine.initial.context.scope = [0] :=
    Scopes.chain_of_parent?_eq_none rfl
  have := hhas.size_le
  rw [hchain, List.length_singleton]; omega

/-- What the evaluations of any run have in common. -/
theorem Program.always_visits (p : Program) (limit : Nat) : p.Always limit p.Visits := by
  intro stop hstop s hrun
  have := Program.ends_body (answers_exprUntil hstop (p.fuel limit))
  unfold Ends at this
  rw [hrun] at this
  exact this

theorem Program.Always.mono {Q R : Expr → Engine → Prop} (h : p.Always limit Q)
    (hQR : ∀ e s, Q e s → R e s) : p.Always limit R :=
  fun stop hstop => h stop fun e s hs hq => hstop e s hs (hQR e s hq)

/-- Inference ends with a module or with a type error, and with more fuel the run is the same. -/
theorem Program.infer_ends (p : Program) (limit : Nat) :
    ((∃ m, p.infer limit = .ok m) ∨ ∃ e, p.infer limit = .error (.error e)) ∧
      ∀ fuel, p.fuel limit ≤ fuel →
        Infer.body (Infer.expr limit fuel) p.stmts .initial = p.run limit .initial := by
  have hends := Program.ends_body (answers_expr (p := p) (p.fuel limit))
  refine ⟨?_, fun fuel hle => ?_⟩
  · unfold infer run
    unfold Ends at hends
    split at hends
    · next hrun => rw [hrun]; exact .inl ⟨_, rfl⟩
    · next hrun => rw [hrun]; exact .inr ⟨_, rfl⟩
    · exact hends.elim
  · rcases Infer.Below.body (fun e => Infer.Below.expr_of_le limit hle e) p.stmts .initial with
      ⟨_, t, rfl, hrun⟩ | h
    · unfold Ends at hends; rw [hrun] at hends; exact hends.elim
    · exact h.symm

end

end FlowTyping
