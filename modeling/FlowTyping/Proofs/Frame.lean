import FlowTyping.Proofs.Refinement
import FlowTyping.Proofs.Termination
import FlowTyping.Proofs.Widening

/-!
# What calls and yields leave alone

`Program.always_frame`: behind its arguments a call without a block changes no table of the scopes
that there were.  A call with a block changes tables in sight only, and a `yield` tables on the chains
of the blocks in force only; such a table keeps its names, at types that cover the ones before.

An evaluation binds new names in the scope at hand only, not in the scopes around it
(`Flow.local_expr`).  The body of a block runs in a scope of its own, so none of its names gets into
the scopes around the call.
-/

namespace FlowTyping

/-! ### Where names are bound -/

namespace Bindings
variable {a b c : Bindings} {x : String}

theorem merge_named (h₁ : a.Named c) (h₂ : b.Named c) : (merge a b).Named c := by
  intro x hx
  rw [get?_merge] at hx
  cases ha : a.get? x with
  | some ty => exact h₁ x (by rw [ha]; rfl)
  | none =>
    cases hb : b.get? x with
    | some ty => exact h₂ x (by rw [hb]; rfl)
    | none => rw [ha, hb] at hx; exact nomatch hx

theorem insert_named (h : a.contains x) (ty : Ty) : Named (a.insert x ty) a := by
  intro y hy
  rw [Table.get?_insert] at hy
  split at hy
  · next heq => exact heq ▸ h
  · exact hy

end Bindings

namespace Tables
variable {as bs cs : List Bindings} {k : Nat}

theorem merge_named (h₁ : Named as cs) (h₂ : Named bs cs) : Named (merge as bs) cs := by
  induction h₁ generalizing bs with
  | nil => exact .nil
  | cons hac _ ih =>
    cases h₂ with
    | cons hbc hrest => exact .cons (Bindings.merge_named hac hbc) (ih hrest)

theorem held_named_trans {as bs cs : List (List Bindings)} (h₁ : List.Forall₂ Named as bs)
    (h₂ : List.Forall₂ Named bs cs) : List.Forall₂ Named as cs :=
  forall₂_trans (fun _ _ _ h h' => h.trans h') h₁ h₂

theorem drop_merge : (merge as bs).drop k = merge (as.drop k) (bs.drop k) := List.drop_zipWith

/-- A name that some table binds is written to such a table. -/
theorem write_named_of_any {name : String} (h : as.any (·.contains name)) (ty : Ty) :
    Named (write name ty as) as := by
  induction as with
  | nil => exact .nil
  | cons a as ih =>
    rw [write]
    by_cases ha : a.contains name
    · rw [ha, Bool.true_or, if_pos rfl]
      exact .cons (Bindings.insert_named ha ty) (Named.refl as)
    · have hrest : as.any (·.contains name) := by simpa [ha] using h
      simp only [ha, hrest, Bool.not_true, Bool.or_false, Bool.false_eq_true, if_false]
      exact .cons (.refl a) (ih hrest)

theorem write_named (name : String) (ty : Ty) (as : List Bindings) :
    Named ((write name ty as).drop 1) (as.drop 1) := by
  cases as with
  | nil => exact .nil
  | cons a as =>
    rw [write]
    split
    · exact Named.refl as
    · next h =>
      refine write_named_of_any ?_ ty
      simp only [Bool.or_eq_true, Bool.not_eq_true', not_or, Bool.not_eq_false] at h
      exact h.2

end Tables

namespace Stacks
variable {k : Nat} {s t u : Stacks}

/-- New names are bound in the first `k` tables at hand only. -/
structure Local (k : Nat) (s t : Stacks) : Prop where
  here : Tables.Named (t.here.drop k) (s.here.drop k)
  held : List.Forall₂ Tables.Named t.held s.held

theorem Local.refl (k : Nat) (s : Stacks) : s.Local k s :=
  ⟨.refl _, List.forall₂_same.2 fun _ _ => .refl _⟩

theorem Local.trans (h₁ : s.Local k t) (h₂ : t.Local k u) : s.Local k u :=
  ⟨h₂.here.trans h₁.here, Tables.held_named_trans h₂.held h₁.held⟩

theorem Local.stable : Stable (Local k) where
  refl := fun s _ => ⟨.refl _, (Local.refl k s).held⟩
  trans := Local.trans

theorem Local.merged (h : s.Local k t) : s.Local k (s.merged t) := by
  refine ⟨?_, h.held⟩
  show Tables.Named ((Tables.merge s.here t.here).drop k) _
  rw [Tables.drop_merge]
  exact Tables.merge_named (.refl _) h.here

end Stacks

namespace Flow

/-- A step that binds new names in the first `k` tables at hand only. -/
def Local (k : Nat) (m : Flow α) : Prop := ∀ ⦃s a t⦄, m s = .ok (a, t) → s.Local k t

namespace Local
variable {m : Flow α} {k : Nat}

theorem untilStable (h : Local k m) (fuel : Nat) : Local k (untilStable m fuel) := fun _ _ _ hrun =>
  untilStable_ok Stacks.Local.trans (fun _ _ _ hm => (h hm).merged) hrun

/-- New names are bound in the table that is only there meanwhile. -/
theorem nested (params : List (Ident × Ty)) (h : Local 1 m) : Local 0 (nested params m) := by
  intro s a u hrun
  obtain ⟨t, hm, rfl⟩ := elsewhere_ok hrun
  obtain ⟨hhere, hheld⟩ := h hm
  refine ⟨?_, hheld⟩
  show Tables.Named t.here.tail s.here
  rwa [List.drop_one, List.drop_one] at hhere

theorem alone (params : List (Ident × Ty)) : Local k (alone params m) := by
  intro s a u hrun
  obtain ⟨t, hm, rfl⟩ := elsewhere_ok hrun
  exact ⟨.refl _, (Stacks.Local.refl k s).held⟩

theorem above (params : List (Ident × Ty)) (h : Local 1 m) : Local 0 (above params m) := by
  intro s a u hrun
  obtain ⟨⟨_, _, held⟩, hm, rfl⟩ := elsewhere_ok hrun
  have hheld : List.Forall₂ Tables.Named held (s.here :: s.held) := (h hm).held
  cases hheld with
  | cons hfirst hrest => exact ⟨hfirst, hrest⟩

theorem outward (h : Local 0 m) : Local k (outward m) := by
  intro s a u hrun
  obtain ⟨first, rest, t, hheld, hm, rfl⟩ := outward_ok hrun
  obtain ⟨hfirst, hrest⟩ := h hm
  exact ⟨.refl _, by rw [hheld]; exact .cons hfirst hrest⟩

theorem le_one (h : Local 0 m) : Local 1 m := fun _ _ _ hrun =>
  ⟨List.forall₂_drop 1 (h hrun).here, (h hrun).held⟩

theorem congruence : Congruence (fun m _ => Local 1 m) fun _ _ => True := by
  refine Leads.congruence Stacks.Local.stable (fun name ty s => ?_) (fun hthen helse => ?_)
    (fun h => untilStable h _) (fun h => ((nested _ h).untilStable _).outward)
  · exact ⟨Tables.write_named name ty s.here, (Stacks.Local.refl 1 s).held⟩
  · refine ⟨?_, Tables.held_named_trans helse.held hthen.held⟩
    rw [Tables.drop_merge]
    exact Tables.merge_named hthen.here helse.here

theorem body {expr : Expr → Flow Ty} {stmts : List Expr} (h : ∀ stmt ∈ stmts, Local 1 (expr stmt)) :
    Local 1 (body expr stmts) :=
  @Congruence.body _ _ congruence expr expr _ h

theorem methodBody {expr : Standing → Expr → Flow Ty} (h : ∀ c e, Local 1 (expr c e)) (limit : Nat)
    (c : Standing) (id : NodeId) (span : Span) (method : Method) (signature : Signature)
    (block : Option (Block Expr)) :
    Local 0 (methodBody expr limit c id span method signature block) := by
  by_cases hlimit : limit ≤ c.depth
  · rw [methodBody_of_le hlimit]; exact Leads.throw _
  · cases block with
    | none => rw [methodBody_none hlimit]; exact alone _
    | some b => rw [methodBody_some hlimit]; exact (body fun e _ => h _ e).above _

end Local

/-- An evaluation binds new names in the first table at hand only. -/
theorem local_expr (w : Ways) (limit fuel : Nat) (c : Standing) (e : Expr) :
    Local 1 (expr w limit fuel c e) :=
  leads_expr Stacks.Local.stable Local.congruence
    (fun h limit c id span method signature block =>
      (Local.methodBody h limit c id span method signature block).le_one) w limit fuel c e

/-! ### Calls and yields on stacks -/

section
variable {limit fuel : Nat} {c : Standing} {id : NodeId} {span : Span} {name : String}
  {nameSpan : Span} {signature : Signature} {s t : Stacks} {ty : Ty}

/-- A call without a block changes no table. -/
theorem dispatch_none_ok
    (h : dispatch (enter .plain (expr .plain limit fuel) limit) c id span name nameSpan signature none
      s = .ok (ty, t)) : t = { s with module := t.module } := by
  have hstable : Stacks.Stable fun s t => t = { s with module := t.module } :=
    ⟨fun _ _ => rfl, fun hst htu => by rw [htu, hst]⟩
  refine Leads.dispatch name nameSpan (fun method => Leads.enter hstable ?_) h
  exact fun _ _ _ hrun => methodBody_none_ok hrun

/-- A call with a block only adds primitives. -/
theorem dispatch_some_ok {block : Block Expr}
    (h : dispatch (enter .plain (expr .plain limit fuel) limit) c id span name nameSpan signature
      (some block) s = .ok (ty, t)) : s.Le t := by
  refine Leads.dispatch name nameSpan (fun method => Leads.enter Stacks.Le.stable ?_) h
  exact fun _ _ _ hrun => Widens.methodBody_some_ok (widens_expr .plain limit fuel) hrun

theorem local_dispatch (block : Option (Block Expr)) :
    Local 0 (dispatch (enter .plain (expr .plain limit fuel) limit) c id span name nameSpan signature
      block) :=
  Leads.dispatch name nameSpan fun method => Leads.enter Stacks.Local.stable
    (Local.methodBody (local_expr .plain limit fuel) limit c id span method signature block)

/-- A pass over the body of a block only adds primitives at the blocks in force. -/
theorem runBlock_ok {block : Block Expr} {method? : Option String}
    {outer : List (Block Expr × Option String)}
    (h : runBlock (expr .plain limit fuel) fuel c block method? outer signature s = .ok (ty, t)) :
    t.here = s.here ∧ List.Forall₂ Tables.Le s.held t.held ∧
      List.Forall₂ Tables.Named t.held s.held := by
  obtain ⟨tys, s₁, hblock, h⟩ := bind_eq_ok_iff.1 h
  obtain ⟨_, _, ⟨⟩, h⟩ := bind_eq_ok_iff.1 h
  cases h
  have hwidens := Widens.body fun e (_ : e ∈ block.body) =>
    widens_expr .plain limit fuel { c with blocks := outer, method? } e
  have hlocal := Local.body fun e (_ : e ∈ block.body) =>
    local_expr .plain limit fuel { c with blocks := outer, method? } e
  have hheld := (hwidens.block (Infer.paramTypes block.params signature) fuel hblock).held
  have hnames := (((hlocal.nested (Infer.paramTypes block.params signature)).untilStable
    fuel).outward (k := 0) hblock).held
  obtain ⟨first, rest, t, -, -, rfl⟩ := outward_ok hblock
  exact ⟨rfl, hheld, hnames⟩

end

end Flow

/-! ### On the arena -/

namespace Scopes
variable {s t : Scopes}

/-- Of the tables in `s` only those of some scopes are different in `t`.  Such a table has the same
names as before, at types that cover the ones before. -/
def WidensIn (ids : List ScopeId) (s t : Scopes) : Prop :=
  ∀ j < s.size, t.table j ≠ s.table j →
    j ∈ ids ∧ (∀ x, (t.table j).contains x = (s.table j).contains x) ∧ (s.table j).Le (t.table j)

theorem widensIn_of_forall {ids : List ScopeId}
    (hout : ∀ j < s.size, j ∉ ids → t.table j = s.table j)
    (hle : ∀ j ∈ ids, (s.table j).Le (t.table j)) (hnamed : ∀ j ∈ ids, (t.table j).Named (s.table j)) :
    WidensIn ids s t := by
  intro j hj hne
  have hmem : j ∈ ids := by
    by_contra hmem
    exact hne (hout j hj hmem)
  refine ⟨hmem, fun x => ?_, hle j hmem⟩
  exact Bool.eq_iff_iff.2 ⟨hnamed j hmem x, (hle j hmem).named x⟩

end Scopes

section
variable {s t : Engine} {limit fuel : Nat} {id : NodeId} {span : Span} {name : String}
  {nameSpan : Span} {signature : Signature} {ty : Ty}

variable (hapart : s.scopes.Apart s.context.sight)
include hapart

theorem Engine.table_dispatch_none
    (h : Infer.dispatch (Infer.enter (Infer.expr limit fuel) limit) id span name nameSpan signature
      none s = .ok ty t) : ∀ j < s.scopes.size, t.scopes.table j = s.scopes.table j := by
  obtain ⟨hflow, hkeep⟩ := (refines_dispatch hapart limit fuel id span name nameSpan signature none).ok
    (.refl s) h
  have hsame := Flow.dispatch_none_ok hflow
  have hg := hkeep.extends_.scopes
  intro j hj
  by_cases hmem : j ∈ s.context.sight.flatMap s.scopes.chain
  · obtain ⟨k, hk, hjk⟩ := List.mem_flatMap.1 hmem
    refine (Scopes.tables_eq_iff hg (.refl _) (hapart.lt k hk)).1 ?_ j hjk
    rcases List.mem_cons.1 hk with rfl | hk
    · exact congrArg Stacks.here hsame
    · exact List.map_inj_left.1 (congrArg Stacks.held hsame) k hk
  · exact hkeep.tables j hj hmem

theorem Engine.widensIn_dispatch_some {block : Block Expr}
    (h : Infer.dispatch (Infer.enter (Infer.expr limit fuel) limit) id span name nameSpan signature
      (some block) s = .ok ty t) :
    s.scopes.WidensIn (s.context.sight.flatMap s.scopes.chain) t.scopes := by
  obtain ⟨hflow, hkeep⟩ := (refines_dispatch hapart limit fuel id span name nameSpan signature
    (some block)).ok (.refl s) h
  have hle := Flow.dispatch_some_ok hflow
  have hnamed := Flow.local_dispatch _ hflow
  have hg := hkeep.extends_.scopes
  refine Scopes.widensIn_of_forall hkeep.tables (fun j hj => ?_) fun j hj => ?_
  · rcases List.mem_append.1 hj with hj | hj
    · exact (Scopes.forall₂_tables_iff (.refl _) hg hapart.head_lt).1 hle.here j hj
    · exact (Scopes.forall₂_map_tables_iff (.refl _) hg hapart.tail.lt).1 hle.held j hj
  · rcases List.mem_append.1 hj with hj | hj
    · exact (Scopes.forall₂_tables_iff hg (.refl _) hapart.head_lt).1 hnamed.here j hj
    · exact (Scopes.forall₂_map_tables_iff hg (.refl _) hapart.tail.lt).1 hnamed.held j hj

theorem Engine.widensIn_runBlock {frame : BlockFrame} {outer : List BlockFrame}
    (hblocks : s.context.blocks = frame :: outer)
    (h : Infer.runBlock (Infer.expr limit fuel) fuel frame outer signature s = .ok ty t) :
    s.scopes.WidensIn ((s.context.blocks.map BlockFrame.scope).flatMap s.scopes.chain) t.scopes ∧
      ∀ j ∈ s.scopes.chain s.context.scope, t.scopes.table j = s.scopes.table j := by
  have hrefines := (follows_expr limit fuel []).runBlock hapart fuel hblocks signature
  obtain ⟨hflow, hkeep⟩ := hrefines.ok (.refl s) h
  obtain ⟨hhere, hle, hnamed⟩ := Flow.runBlock_ok hflow
  have hg := hkeep.extends_.scopes
  have hsame : ∀ j ∈ s.scopes.chain s.context.scope, t.scopes.table j = s.scopes.table j :=
    (Scopes.tables_eq_iff hg (.refl _) hapart.head_lt).1 hhere
  refine ⟨Scopes.widensIn_of_forall (fun j hj hmem => ?_) ?_ ?_, hsame⟩
  · by_cases hhere : j ∈ s.scopes.chain s.context.scope
    · exact hsame j hhere
    · exact hkeep.tables j hj fun h => (List.mem_append.1 h).elim hhere hmem
  · exact (Scopes.forall₂_map_tables_iff (.refl _) hg hapart.tail.lt).1 hle
  · exact (Scopes.forall₂_map_tables_iff hg (.refl _) hapart.tail.lt).1 hnamed

end

/-- What the calls and yields of a run do to the scopes that there are when their arguments have been
evaluated. -/
theorem Program.always_frame (p : Program) (limit : Nat) :
    p.Always limit fun _ s => ∀ e fuel ty t, Infer.expr limit (fuel + 1) e s = .ok ty t →
      (∀ name nameSpan args block, e.form = .call name nameSpan args block →
        ∃ signature s₁, args.mapM (Infer.expr limit fuel) s = .ok signature s₁ ∧
          match block with
          | none => ∀ i < s₁.scopes.size, t.scopes.table i = s₁.scopes.table i
          | some _ => s₁.scopes.WidensIn (s₁.context.sight.flatMap s₁.scopes.chain) t.scopes) ∧
      ∀ args, e.form = .yield args →
        ∃ signature s₁, args.mapM (Infer.expr limit fuel) s = .ok signature s₁ ∧
          s₁.scopes.WidensIn ((s₁.context.blocks.map BlockFrame.scope).flatMap s₁.scopes.chain)
            t.scopes ∧
          ∀ i ∈ s₁.scopes.chain s₁.context.scope, t.scopes.table i = s₁.scopes.table i := by
  refine (p.always_visits limit).mono fun _ s hvisits e fuel ty t hrun => ?_
  have hapart := hvisits.fits.apart
  have hargs (args : List Expr) := Refines.mapM hapart fun e (_ : e ∈ args) =>
    (follows_expr limit fuel []).refines hapart e
  obtain ⟨u, hform, rfl⟩ := Infer.layer_ok hrun
  constructor
  · intro name nameSpan args block hcall
    rw [hcall, Infer.form, Infer.call_eq] at hform
    obtain ⟨signature, s₁, h₁, hdispatch⟩ := bind_eq_ok_iff.1 hform
    obtain ⟨-, hkeep⟩ := (hargs args).ok (.refl s) h₁
    have hapart₁ : s₁.scopes.Apart s₁.context.sight := by
      rw [hkeep.extends_.context]; exact hapart.grown hkeep.extends_.scopes
    refine ⟨signature, s₁, h₁, ?_⟩
    cases block with
    | none => exact Engine.table_dispatch_none (t := u) hapart₁ hdispatch
    | some b => exact Engine.widensIn_dispatch_some (t := u) hapart₁ hdispatch
  · intro args hyield
    rw [hyield, Infer.form] at hform
    obtain ⟨signature, s₁, frame, outer, h₁, hblocks, hrun⟩ := Infer.yield_ok hform
    obtain ⟨-, hkeep⟩ := (hargs args).ok (.refl s) h₁
    have hapart₁ : s₁.scopes.Apart s₁.context.sight := by
      rw [hkeep.extends_.context]; exact hapart.grown hkeep.extends_.scopes
    exact ⟨signature, s₁, h₁, Engine.widensIn_runBlock (t := u) hapart₁ hblocks hrun⟩

end FlowTyping
