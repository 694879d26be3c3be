import FlowTyping.Proofs.Fuel
import FlowTyping.Proofs.Stacks

/-!
# The inference does what inference on stacks does

`Refines`: from a state whose sight is apart, a step on the arena gives the value, or ends with the
error, that a step on stacks gives from the tables in sight; it leaves the tables that the other
step leaves, and no table out of sight is changed.
-/

namespace FlowTyping

/-! ### The tables of chains -/

namespace Scopes
variable {s t : Scopes} {i j : ScopeId} {is : List ScopeId}

/-- The tables of a chain, innermost first. -/
def tables (s : Scopes) (i : ScopeId) : List Bindings := (s.chain i).map s.table

theorem tables_congr (hc : t.chain i = s.chain i) (ht : ∀ j ∈ s.chain i, t.table j = s.table j) :
    t.tables i = s.tables i := by
  rw [tables, tables, hc]; exact List.map_congr_left ht

section
variable {u : Scopes} (ht : s.Grown t) (hu : s.Grown u)
include ht hu

theorem tables_eq_iff (hi : i < s.size) :
    t.tables i = u.tables i ↔ ∀ j ∈ s.chain i, t.table j = u.table j := by
  rw [tables, tables, ht.chain hi, hu.chain hi, List.map_inj_left]

theorem forall₂_tables_iff {R : Bindings → Bindings → Prop} (hi : i < s.size) :
    List.Forall₂ R (t.tables i) (u.tables i) ↔ ∀ j ∈ s.chain i, R (t.table j) (u.table j) := by
  rw [tables, tables, ht.chain hi, hu.chain hi, List.forall₂_map_left_iff,
    List.forall₂_map_right_iff, List.forall₂_same]

theorem forall₂_map_tables_iff {R : Bindings → Bindings → Prop} (hlt : ∀ i ∈ is, i < s.size) :
    List.Forall₂ (List.Forall₂ R) (is.map t.tables) (is.map u.tables) ↔
      ∀ j ∈ is.flatMap s.chain, R (t.table j) (u.table j) := by
  rw [List.forall₂_map_left_iff, List.forall₂_map_right_iff, List.forall₂_same]
  constructor
  · intro h j hj
    obtain ⟨i, hi, hj⟩ := List.mem_flatMap.1 hj
    exact (forall₂_tables_iff ht hu (hlt i hi)).1 (h i hi) j hj
  · intro h i hi
    exact (forall₂_tables_iff ht hu (hlt i hi)).2 fun j hj => h j (List.mem_flatMap.2 ⟨i, hi, hj⟩)

end

theorem lookup_eq (s : Scopes) (i : ScopeId) (x : String) :
    s.lookup i x = Tables.lookup (s.tables i) x := by
  rw [lookup, Tables.lookup, tables, List.findSome?_map]; rfl

theorem snapshot_eq (s : Scopes) (i : ScopeId) : s.snapshot i = (s.chain i).zip (s.tables i) :=
  s.snapshot_eq_zip i

/-- A write to the holder of a name, in a list of different scopes. -/
theorem map_table_assign {x : String} {ty : Ty} {ids : List ScopeId} (hnd : ids.Nodup)
    (hlt : ∀ i ∈ ids, i < s.size) {first : ScopeId} (hfirst : ids.head? = some first) :
    ids.map (s.declare ((ids.find? fun id => (s.table id).contains x).getD first) x ty).table =
      Tables.write x ty (ids.map s.table) := by
  induction ids generalizing first with
  | nil => cases hfirst
  | cons id ids ih =>
    cases hfirst
    obtain ⟨hid, hnd⟩ := List.nodup_cons.1 hnd
    have hself (t : Bindings) : (s.setTable id t).table id = t :=
      table_setTable_self (hlt id List.mem_cons_self)
    have hothers (t : Bindings) : ids.map (s.setTable id t).table = ids.map s.table :=
      List.map_congr_left fun j hj => table_setTable_ne (fun h => hid (h ▸ hj))
    rw [List.map_cons, List.map_cons, Tables.write, List.find?_cons]
    cases hc : (s.table id).contains x with
    | true => simp only [Option.getD_some, Bool.true_or, if_true, declare, hself, hothers]
    | false =>
      cases hf : ids.find? fun id => (s.table id).contains x with
      | none =>
        have : (ids.map s.table).any (·.contains x) = false := by
          rw [List.any_map, List.any_eq_false]
          exact fun j hj => by simpa using List.find?_eq_none.1 hf j hj
        simp only [this, Option.getD_none, Bool.not_false, Bool.or_true, if_true, declare, hself,
          hothers]
      | some holder =>
        have hmem := List.mem_of_find?_eq_some hf
        have : (ids.map s.table).any (·.contains x) = true := by
          rw [List.any_map, List.any_eq_true]; exact ⟨holder, hmem, List.find?_some hf⟩
        obtain ⟨first, hfirst⟩ : ∃ first, ids.head? = some first := by
          cases ids with
          | nil => exact absurd hmem List.not_mem_nil
          | cons first _ => exact ⟨first, rfl⟩
        have hih := ih hnd (fun j hj => hlt j (List.mem_cons_of_mem id hj)) hfirst
        rw [hf] at hih
        simp only [this, Bool.not_true, Bool.or_false, Bool.false_eq_true, if_false,
          Option.getD_some] at hih ⊢
        rw [hih, declare, table_setTable_ne (show id ≠ holder from fun h => hid (h ▸ hmem))]

theorem mem_chain_of_holder (s : Scopes) (i : ScopeId) (x : String) : s.holder i x ∈ s.chain i := by
  unfold holder
  cases h : (s.chain i).find? fun id => (s.table id).contains x with
  | none => exact s.mem_chain_self i
  | some j => exact List.mem_of_find?_eq_some h

theorem head?_chain (s : Scopes) (i : ScopeId) : (s.chain i).head? = some i := by
  rw [chain]; rfl

theorem tables_assign (hi : i < s.size) (x : String) (ty : Ty) :
    (s.assign i x ty).tables i = Tables.write x ty (s.tables i) := by
  rw [tables, assign, declare, chain_setTable]
  exact map_table_assign (s.chain_nodup i) (fun _ => lt_of_mem_chain hi) (s.head?_chain i)

theorem tables_restore (hi : i < s.size) {tables : List Bindings}
    (hlen : (s.chain i).length = tables.length) :
    (s.restore ((s.chain i).zip tables)).tables i = tables := by
  rw [Scopes.tables, chain_restore]
  exact map_table_restore (s.chain_nodup i) (fun _ => lt_of_mem_chain hi) hlen

theorem length_tables (s : Scopes) (i : ScopeId) : (s.tables i).length = (s.chain i).length :=
  List.length_map _

end Scopes

/-! ### Steps -/

namespace Engine
variable {s t u : Engine} {i : ScopeId} {is : List ScopeId}

/-- The tables on the chains of some scopes, the first of which is at hand. -/
def toStacks (s : Engine) (i : ScopeId) (is : List ScopeId) : Stacks :=
  ⟨s.module, s.scopes.tables i, is.map s.scopes.tables⟩

/-- What the context says apart from scopes. -/
def standing (s : Engine) (under : List (Definition Expr × Option Signature)) : Standing :=
  ⟨s.context.blocks.map fun f => (f.block, f.method?), s.context.method?, s.context.depth, s.active,
    under⟩

/-- Nothing but the tables on the chains of some scopes was changed. -/
structure Keeps (ids : List ScopeId) (s t : Engine) : Prop where
  extends_ : s.Extends t
  tables : ∀ j < s.scopes.size, j ∉ ids.flatMap s.scopes.chain → t.scopes.table j = s.scopes.table j

theorem Keeps.refl (ids : List ScopeId) (s : Engine) : s.Keeps ids s := ⟨.refl s, fun _ _ _ => rfl⟩

theorem flatMap_chain_grown {s t : Scopes} {ids : List ScopeId} (hg : s.Grown t)
    (hlt : ∀ i ∈ ids, i < s.size) : ids.flatMap t.chain = ids.flatMap s.chain := by
  rw [List.flatMap_def, List.flatMap_def, List.map_congr_left fun i hi => hg.chain (hlt i hi)]

theorem Keeps.trans {ids : List ScopeId} (hlt : ∀ i ∈ ids, i < s.scopes.size) (h₁ : s.Keeps ids t)
    (h₂ : t.Keeps ids u) : s.Keeps ids u := by
  refine ⟨h₁.extends_.trans h₂.extends_, fun j hj hmem => ?_⟩
  have hg := h₁.extends_.scopes
  rw [h₂.tables j (hg.lt hj) (by rwa [flatMap_chain_grown hg hlt]), h₁.tables j hj hmem]

end Engine

/-- A run of the inference that ends the way a run on stacks does. -/
def Matches (i : ScopeId) (is : List ScopeId) (s : Engine) (r : EStateM.Result Stop Engine α)
    (r' : Except Halt (α × Stacks)) : Prop :=
  match r' with
  | .ok (a, w) => ∃ t, r = .ok a t ∧ t.toStacks i is = w ∧ s.Keeps (i :: is) t
  | .error h => ∃ t, r = .error h.stop t

/-- From the states that a run may come to from `s₀` on, a step does what the other one does to the
tables on the chains of the scopes, and nothing else. -/
def Refines (s₀ : Engine) (i : ScopeId) (is : List ScopeId) (m : Infer α) (n : Flow α) : Prop :=
  ∀ ⦃s⦄, s₀.Extends s → Matches i is s (m s) (n (s.toStacks i is))

namespace Matches
variable {s : Engine} {i j : ScopeId} {is js : List ScopeId} {m : Infer α} {w : Except Halt (α × Stacks)}

/-- A run in another context: behind it the stacks become what `g` makes of them. -/
theorem within {s' : Engine} {context : Context} {g : Stacks → Stacks}
    (h : Matches j js { s' with context } (m { s' with context }) w)
    (hback : ∀ t, Engine.Keeps (j :: js) { s' with context } t →
      Engine.toStacks { t with context := s'.context } i is = g (t.toStacks j js) ∧
        s.Keeps (i :: is) { t with context := s'.context }) :
    Matches i is s (Infer.within context m s') (w.map fun x => (x.1, g x.2)) := by
  rcases w with e | ⟨a, w⟩
  · obtain ⟨t, hm⟩ := h
    exact ⟨_, Infer.within_of_error hm⟩
  · obtain ⟨t, hm, rfl, hkeep⟩ := h
    exact ⟨_, Infer.within_of_ok hm, hback t hkeep⟩

theorem whileActive {call : BlockCall}
    (h : Matches i is { s with active := call :: s.active } (m { s with active := call :: s.active }) w) :
    Matches i is s (Infer.whileActive call m s) w := by
  rcases w with e | ⟨a, w⟩
  · obtain ⟨t, hm⟩ := h
    exact ⟨_, Infer.whileActive_of_error hm⟩
  · obtain ⟨t, hm, hw, hkeep⟩ := h
    refine ⟨_, Infer.whileActive_of_ok hm, hw,
      ⟨hkeep.extends_.context, ?_, hkeep.extends_.scopes⟩, hkeep.tables⟩
    show t.active.erase call = s.active
    rw [hkeep.extends_.active]
    exact List.erase_cons_head call s.active

end Matches

namespace Refines
variable {s₀ : Engine} {i : ScopeId} {is : List ScopeId} {m : Infer α} {n : Flow α}
  {f : α → Infer β} {g : α → Flow β} {f' : Context → Infer α}

theorem give (a : α) : Refines s₀ i is (pure a) (pure a) :=
  fun s _ => ⟨s, rfl, rfl, .refl _ s⟩

theorem bind_at {s : Engine} (hapart : s.scopes.Apart (i :: is))
    (h : Matches i is s (m s) (n (s.toStacks i is))) (hf : ∀ a, Refines s i is (f a) (g a)) :
    Matches i is s ((m >>= f) s) ((n >>= g) (s.toStacks i is)) := by
  cases hn : n (s.toStacks i is) with
  | error e =>
    rw [hn] at h
    obtain ⟨t, hm⟩ := h
    rw [Flow.bind_of_error hn]
    exact ⟨t, bind_of_error hm⟩
  | ok r =>
    rw [hn] at h
    obtain ⟨t, hm, hw, hkeep⟩ := h
    rw [Flow.bind_of_ok hn, bind_of_ok hm, ← hw]
    have hft := hf r.1 hkeep.extends_
    cases hg : g r.1 (t.toStacks i is) with
    | ok r' =>
      rw [hg] at hft
      obtain ⟨u, hu, hw', hkeep'⟩ := hft
      exact ⟨u, hu, hw', hkeep.trans hapart.lt hkeep'⟩
    | error e => rw [hg] at hft; exact hft

theorem bind (hapart : s₀.scopes.Apart (i :: is)) (h : Refines s₀ i is m n)
    (hf : ∀ a, Refines s₀ i is (f a) (g a)) : Refines s₀ i is (m >>= f) (n >>= g) :=
  fun _ hs => bind_at (hapart.grown hs.scopes) (h hs) fun a _ ht => hf a (hs.trans ht)

theorem fail {c : Standing} (hc : c.method? = s₀.context.method?) (cause : TypeError.Cause)
    (node : NodeId) (span : Span) :
    Refines s₀ i is (Infer.fail cause node span : Infer α) (Flow.fail c cause node span) := by
  intro s hs
  refine ⟨s, ?_⟩
  rw [Infer.fail_apply, hs.context, ← hc]; rfl

theorem record (node : NodeId) (ty : Ty) :
    Refines s₀ i is (Infer.record node ty) (Flow.record node ty) :=
  fun s _ => ⟨{ s with module := s.module.record node ty }, rfl, rfl, ⟨rfl, rfl, .refl _⟩,
    fun _ _ _ => rfl⟩

theorem updateMethod (name : String) (k : Method → Method) :
    Refines s₀ i is (Infer.updateMethod name k) (Flow.updateMethod name k) :=
  fun s _ => ⟨{ s with module := s.module.updateMethod name k }, rfl, rfl, ⟨rfl, rfl, .refl _⟩,
    fun _ _ _ => rfl⟩

section
variable {s t : Engine} {a : α}

/-- A step that ends well does so on stacks. -/
theorem ok (h : Refines s₀ i is m n) (hs : s₀.Extends s) (hm : m s = .ok a t) :
    n (s.toStacks i is) = .ok (a, t.toStacks i is) ∧ s.Keeps (i :: is) t := by
  have := h hs
  cases hn : n (s.toStacks i is) with
  | error e => rw [hn] at this; obtain ⟨u, hu⟩ := this; exact nomatch hm.symm.trans hu
  | ok r =>
    rw [hn] at this
    obtain ⟨u, hu, hw, hkeep⟩ := this
    cases hm.symm.trans hu
    exact ⟨by rw [hw], hkeep⟩

theorem of_ok (h : Refines s₀ i is m n) (hs : s₀.Extends s) {w : Stacks}
    (hn : n (s.toStacks i is) = .ok (a, w)) :
    ∃ t, m s = .ok a t ∧ t.toStacks i is = w ∧ s.Keeps (i :: is) t := by
  have := h hs; rwa [hn] at this

end

/-! #### Statements -/

theorem body (hapart : s₀.scopes.Apart (i :: is)) {expr : Expr → Infer Ty} {flow : Expr → Flow Ty}
    {stmts : List Expr} (h : ∀ stmt ∈ stmts, Refines s₀ i is (expr stmt) (flow stmt)) :
    Refines s₀ i is (Infer.body expr stmts) (Flow.body flow stmts) := by
  unfold Infer.body Flow.body
  generalize Ty.nil = ty
  induction stmts generalizing ty with
  | nil => exact give ty
  | cons stmt stmts ih =>
    rw [List.foldlM_cons, List.foldlM_cons]
    exact (h stmt List.mem_cons_self).bind hapart
      (ih fun e he => h e (List.mem_cons_of_mem _ he))

theorem mapM (hapart : s₀.scopes.Apart (i :: is)) {expr : Expr → Infer Ty} {flow : Expr → Flow Ty}
    {args : List Expr} (h : ∀ arg ∈ args, Refines s₀ i is (expr arg) (flow arg)) :
    Refines s₀ i is (args.mapM expr) (args.mapM flow) := by
  induction args with
  | nil => exact give []
  | cons arg args ih =>
    rw [List.mapM_cons, List.mapM_cons]
    refine (h arg List.mem_cons_self).bind hapart fun ty => ?_
    exact (ih fun e he => h e (List.mem_cons_of_mem _ he)).bind hapart fun tys => give (ty :: tys)

theorem readVar {c : Standing} (hc : c.method? = s₀.context.method?) (hi : s₀.context.scope = i)
    (id : NodeId) (span : Span) (name : String) :
    Refines s₀ i is (Infer.readVar id span name) (Flow.readVar c id span name) := by
  intro s hs
  have hlookup : s.scopes.lookup s.context.scope name = Tables.lookup (s.toStacks i is).here name := by
    rw [hs.context, hi]; exact Scopes.lookup_eq ..
  cases hx : Tables.lookup (s.toStacks i is).here name with
  | some ty =>
    rw [Infer.readVar_of_some (hlookup.trans hx), Flow.readVar_of_some hx]
    exact give ty hs
  | none =>
    rw [Infer.readVar_of_none (hlookup.trans hx), Flow.readVar_of_none hx]
    exact (fail hc _ id span : Refines s₀ i is (Infer.fail _ id span : Infer Ty) _) hs

/-- A change of the tables at hand. -/
theorem change {s : Engine} (hapart : s.scopes.Apart (i :: is)) {scopes : Scopes}
    (hg : s.scopes.Grown scopes) (hout : ∀ j, j ∉ s.scopes.chain i → scopes.table j = s.scopes.table j) :
    Engine.toStacks { s with scopes } i is = { s.toStacks i is with here := scopes.tables i } ∧
      s.Keeps (i :: is) { s with scopes } := by
  refine ⟨?_, ⟨rfl, rfl, hg⟩, fun j _ hj => hout j fun h => hj ?_⟩
  · have : is.map scopes.tables = is.map s.scopes.tables := by
      refine List.map_congr_left fun k hk => ?_
      refine Scopes.tables_congr (hg.chain (hapart.lt k (List.mem_cons_of_mem i hk))) fun j hj => ?_
      refine hout j fun hji => ?_
      exact (List.nodup_append.1 hapart.nodup).2.2 j hji j (List.mem_flatMap.2 ⟨k, hk, hj⟩) rfl
    rw [Engine.toStacks, Engine.toStacks, this]
  · exact List.mem_append_left _ h

theorem assign (hapart : s₀.scopes.Apart (i :: is)) (hi : s₀.context.scope = i)
    {expr : Expr → Infer Ty} {flow : Expr → Flow Ty} {target : Ident} {value : Expr}
    (h : Refines s₀ i is (expr value) (flow value)) :
    Refines s₀ i is (Infer.assign expr target value) (Flow.assign flow target value) := by
  refine h.bind hapart fun ty => bind hapart (fun s hs => ?_) fun _ =>
    (record target.id ty).bind hapart fun _ => give ty
  have hapart := hapart.grown hs.scopes
  have hg : s.scopes.Grown (s.scopes.assign i target.name ty) := Scopes.Grown.setTable _ _ _
  obtain ⟨hstacks, hkeep⟩ := change hapart hg fun j hj =>
    Scopes.table_setTable_ne fun h => hj (h ▸ s.scopes.mem_chain_of_holder i target.name)
  refine ⟨{ s with scopes := s.scopes.assign i target.name ty }, ?_, ?_, hkeep⟩
  · rw [← hi, ← hs.context]; rfl
  · rw [hstacks, Scopes.tables_assign hapart.head_lt]; rfl

/-! #### Choices and loops -/

theorem context (h : Refines s₀ i is (f' s₀.context) n) :
    Refines s₀ i is (Infer.context >>= f') n := by
  intro s hs
  have := h hs
  rw [← hs.context] at this
  exact this

/-- A look at the tables at hand. -/
theorem snapshot {f : Snapshot → Infer β} {g : List Bindings → Flow β}
    (hapart : s₀.scopes.Apart (i :: is))
    (h : ∀ tables : List Bindings, (s₀.scopes.chain i).length = tables.length →
      Refines s₀ i is (f ((s₀.scopes.chain i).zip tables)) (g tables)) :
    Refines s₀ i is (Infer.snapshot i >>= f) (Flow.getHere >>= g) := by
  intro s hs
  have hchain := hs.scopes.chain hapart.head_lt
  have := h (s.scopes.tables i) (by rw [Scopes.length_tables, hchain]) hs
  rw [← hchain, ← Scopes.snapshot_eq] at this
  exact this

theorem restore (hapart : s₀.scopes.Apart (i :: is)) {tables : List Bindings}
    (hlen : (s₀.scopes.chain i).length = tables.length) :
    Refines s₀ i is (Infer.restore ((s₀.scopes.chain i).zip tables)) (Flow.setHere tables) := by
  intro s hs
  have hchain := hs.scopes.chain hapart.head_lt
  rw [← hchain] at hlen ⊢
  have hapart := hapart.grown hs.scopes
  have hids : ((s.scopes.chain i).zip tables).map Prod.fst = s.scopes.chain i :=
    List.map_fst_zip (Nat.le_of_eq hlen)
  obtain ⟨hstacks, hkeep⟩ := change hapart (.restore s.scopes ((s.scopes.chain i).zip tables))
    fun j hj => Scopes.table_restore_of_notMem (by rwa [hids])
  refine ⟨{ s with scopes := s.scopes.restore _ }, rfl, ?_, hkeep⟩
  rw [hstacks, Scopes.tables_restore hapart.head_lt hlen]

theorem branch (hapart : s₀.scopes.Apart (i :: is)) (hi : s₀.context.scope = i)
    {expr : Expr → Infer Ty} {flow : Expr → Flow Ty} {cond : Expr} {thenBody : List Expr}
    {elseBody : Option (List Expr)} (hcond : Refines s₀ i is (expr cond) (flow cond))
    (hthen : ∀ stmt ∈ thenBody, Refines s₀ i is (expr stmt) (flow stmt))
    (helse : ∀ stmt ∈ elseBody.getD [], Refines s₀ i is (expr stmt) (flow stmt)) :
    Refines s₀ i is (Infer.branch expr cond thenBody elseBody)
      (Flow.branch flow cond thenBody elseBody) := by
  subst hi
  refine hcond.bind hapart fun _ => context (snapshot hapart fun before hb => ?_)
  refine (body hapart hthen).bind hapart fun thenType => snapshot hapart fun afterThen ht => ?_
  refine (restore hapart hb).bind hapart fun _ => (body hapart helse).bind hapart fun elseType => ?_
  refine snapshot hapart fun afterElse he => ?_
  rw [Snapshot.merge_zip]
  refine (restore hapart ?_).bind hapart fun _ => give _
  rw [List.length_zipWith, ← ht, ← he, Nat.min_self]

theorem zip_inj {ids : List α} {as bs : List β} (ha : ids.length = as.length)
    (hb : ids.length = bs.length) : ids.zip as = ids.zip bs ↔ as = bs := by
  refine ⟨fun h => ?_, fun h => by rw [h]⟩
  have := congrArg (List.map Prod.snd) h
  rwa [List.map_snd_zip (Nat.le_of_eq ha.symm), List.map_snd_zip (Nat.le_of_eq hb.symm)] at this

theorem untilStable (hapart : s₀.scopes.Apart (i :: is)) (h : Refines s₀ i is m n) (fuel : Nat) :
    Refines s₀ i is (Infer.untilStable i m fuel) (Flow.untilStable n fuel) := by
  induction fuel with
  | zero => exact fun s _ => ⟨s, rfl⟩
  | succ fuel ih =>
    refine snapshot hapart fun before hb => h.bind hapart fun a => snapshot hapart fun after ha => ?_
    have hlen : (s₀.scopes.chain i).length = (Tables.merge before after).length := by
      rw [Tables.merge, List.length_zipWith, ← hb, ← ha, Nat.min_self]
    rw [show Snapshot.merge _ _ = (s₀.scopes.chain i).zip (Tables.merge before after) from
      Snapshot.merge_zip _ _ _]
    refine (restore hapart hlen).bind hapart fun _ => ?_
    show Refines s₀ i is (ite ((s₀.scopes.chain i).zip (Tables.merge before after) = _) _ _)
      (ite (Tables.merge before after = before) _ _)
    by_cases hz : Tables.merge before after = before
    · rw [if_pos hz, if_pos ((zip_inj hlen hb).2 hz)]; exact give _
    · rw [if_neg hz, if_neg fun h => hz ((zip_inj hlen hb).1 h)]
      exact ih.bind hapart fun as => give _

theorem loopPass (hapart : s₀.scopes.Apart (i :: is)) {expr : Expr → Infer Ty}
    {flow : Expr → Flow Ty} {cond : Expr} {stmts : List Expr}
    (hcond : Refines s₀ i is (expr cond) (flow cond))
    (hstmts : ∀ stmt ∈ stmts, Refines s₀ i is (expr stmt) (flow stmt)) :
    Refines s₀ i is (Infer.loopPass expr cond stmts) (Flow.loopPass flow cond stmts) :=
  (body hapart hstmts).bind hapart fun _ => hcond

theorem loop (hapart : s₀.scopes.Apart (i :: is)) (hi : s₀.context.scope = i) (fuel : Nat)
    {expr : Expr → Infer Ty} {flow : Expr → Flow Ty} {cond : Expr} {stmts : List Expr}
    (hcond : Refines s₀ i is (expr cond) (flow cond))
    (hstmts : ∀ stmt ∈ stmts, Refines s₀ i is (expr stmt) (flow stmt)) :
    Refines s₀ i is (Infer.loop expr fuel cond stmts) (Flow.loop flow fuel cond stmts) := by
  subst hi
  refine hcond.bind hapart fun _ => context ?_
  exact ((loopPass hapart hcond hstmts).untilStable hapart fuel).bind hapart fun _ => give _

/-! #### Steps on other stacks -/

/-- What a state becomes when a scope with parameters is opened and a context entered. -/
def opened (s : Engine) (context : Context) (parent? : Option ScopeId) (params : List (Ident × Ty)) :
    Engine :=
  { s with
    context
    scopes := s.scopes.opened parent? (.ofParams params)
    module := s.module.recordParams params }

section
variable {s t : Engine} {context' : Context} {parent? : Option ScopeId}
  {params : List (Ident × Ty)} {ids inner : List ScopeId}

/-- A run in a new scope changes what it has in sight; behind it the context is the one before. -/
theorem back (hin : ∀ j < s.scopes.size,
      j ∈ inner.flatMap (s.scopes.opened parent? (.ofParams params)).chain →
        j ∈ ids.flatMap s.scopes.chain)
    (h : (opened s context' parent? params).Keeps inner t) :
    s.Keeps ids { t with context := s.context } := by
  have hg := Scopes.Grown.opened s.scopes parent? (.ofParams params)
  refine ⟨⟨rfl, h.extends_.active, hg.trans h.extends_.scopes⟩, fun j hj hmem => ?_⟩
  rw [← Scopes.table_opened_of_lt hj]
  exact h.tables j (hg.lt hj) fun hm => hmem (hin j hj hm)

theorem tables_opened {j : ScopeId} {table : Bindings} (hj : j < s.scopes.size) :
    (s.scopes.opened parent? table).tables j = s.scopes.tables j :=
  Scopes.tables_congr ((Scopes.Grown.opened ..).chain hj) fun _ hk =>
    Scopes.table_opened_of_lt (Scopes.lt_of_mem_chain hj hk)

theorem map_tables_opened {table : Bindings} (hlt : ∀ j ∈ ids, j < s.scopes.size) :
    ids.map (s.scopes.opened parent? table).tables = ids.map s.scopes.tables :=
  List.map_congr_left fun j hj => tables_opened (hlt j hj)

theorem toStacks_opened (hlt : ∀ j ∈ ids, j < s.scopes.size) (k : ScopeId) :
    (opened s context' parent? params).toStacks k ids =
      ⟨s.module.recordParams params, (s.scopes.opened parent? (.ofParams params)).tables k,
        ids.map s.scopes.tables⟩ := by
  rw [← map_tables_opened hlt]; rfl

/-- A chain out of sight of a run is left as it was. -/
theorem tables_of_keeps {s t : Engine} (h : s.Keeps ids t) {j : ScopeId} (hj : j < s.scopes.size)
    (hout : ∀ k ∈ s.scopes.chain j, k ∉ ids.flatMap s.scopes.chain) :
    t.scopes.tables j = s.scopes.tables j :=
  Scopes.tables_congr (h.extends_.scopes.chain hj) fun k hk =>
    h.tables k (Scopes.lt_of_mem_chain hj hk) (hout k hk)

variable (hapart : s.scopes.Apart (i :: is))
include hapart

/-- The body of a method that is called without a block. -/
theorem alone (h : Refines (opened s context' none params) s.scopes.size [] m n) :
    Matches i is s (Infer.within context' m { s with
        scopes := s.scopes.opened none (.ofParams params)
        module := s.module.recordParams params })
      (Flow.alone params n (s.toStacks i is)) := by
  have hstacks : (opened s context' none params).toStacks s.scopes.size [] =
      ⟨s.module.recordParams params, [.ofParams params], []⟩ := by
    rw [toStacks_opened fun _ h => absurd h List.not_mem_nil, Scopes.tables, Scopes.chain_opened_none,
      List.map_singleton, Scopes.table_opened_self]
    rfl
  have hrun := h (.refl _)
  rw [hstacks] at hrun
  rw [Flow.alone, Flow.elsewhere_eq_map]
  refine hrun.within (g := fun u => ⟨u.module, s.scopes.tables i, is.map s.scopes.tables⟩)
    fun t hkeep => ⟨?_, ?_⟩
  · have htables : ∀ j ∈ i :: is, t.scopes.tables j = s.scopes.tables j := by
      intro j hj
      have hlt := hapart.lt j hj
      rw [tables_of_keeps hkeep (Nat.lt_of_lt_of_le hlt (Scopes.Grown.opened ..).size) ?_]
      · exact tables_opened hlt
      · intro k hk
        rw [List.flatMap_singleton]
        show k ∉ (s.scopes.opened none _).chain _
        rw [Scopes.chain_opened_none, List.mem_singleton]
        exact Nat.ne_of_lt (Nat.lt_of_le_of_lt (Scopes.le_of_mem_chain hk) hlt)
    show Stacks.mk t.module (t.scopes.tables i) (is.map t.scopes.tables) = Stacks.mk t.module _ _
    rw [htables i List.mem_cons_self,
      List.map_congr_left fun j hj => htables j (List.mem_cons_of_mem i hj)]
  · refine back (fun j hj hmem => ?_) hkeep
    rw [List.flatMap_singleton, Scopes.chain_opened_none, List.mem_singleton] at hmem
    exact absurd hmem (Nat.ne_of_lt hj)

/-- The body of a method that is called with a block at hand. -/
theorem above (h : Refines (opened s context' none params) s.scopes.size (i :: is) m n) :
    Matches i is s (Infer.within context' m { s with
        scopes := s.scopes.opened none (.ofParams params)
        module := s.module.recordParams params })
      (Flow.above params n (s.toStacks i is)) := by
  have hstacks : (opened s context' none params).toStacks s.scopes.size (i :: is) =
      ⟨s.module.recordParams params, [.ofParams params],
        s.scopes.tables i :: is.map s.scopes.tables⟩ := by
    rw [toStacks_opened hapart.lt, Scopes.tables, Scopes.chain_opened_none, List.map_singleton,
      Scopes.table_opened_self]
    rfl
  have hrun := h (.refl _)
  rw [hstacks] at hrun
  rw [Flow.above, Flow.elsewhere_eq_map]
  refine hrun.within (g := fun u => ⟨u.module, u.held.headD [], u.held.tail⟩) fun t hkeep => ⟨rfl, ?_⟩
  refine back (fun j hj hmem => ?_) hkeep
  rw [List.flatMap_cons, Scopes.chain_opened_none] at hmem
  rcases List.mem_append.1 hmem with hmem | hmem
  · exact absurd (List.mem_singleton.1 hmem) (Nat.ne_of_lt hj)
  · rwa [Engine.flatMap_chain_grown (.opened ..) hapart.lt] at hmem

/-- A pass over the body of a block. -/
theorem nested (h : Refines (opened s context' (some i) params) s.scopes.size is m n) :
    Matches i is s (Infer.within context' m { s with
        scopes := s.scopes.opened (some i) (.ofParams params)
        module := s.module.recordParams params })
      (Flow.nested params n (s.toStacks i is)) := by
  have hstacks : (opened s context' (some i) params).toStacks s.scopes.size is =
      ⟨s.module.recordParams params, .ofParams params :: s.scopes.tables i,
        is.map s.scopes.tables⟩ := by
    have htables : (s.scopes.chain i).map (s.scopes.opened (some i) (.ofParams params)).table =
        s.scopes.tables i :=
      List.map_congr_left fun k hk =>
        Scopes.table_opened_of_lt (Scopes.lt_of_mem_chain hapart.head_lt hk)
    rw [toStacks_opened hapart.tail.lt, Scopes.tables, Scopes.chain_opened_some hapart.head_lt,
      List.map_cons, Scopes.table_opened_self, htables]
  have hrun := h (.refl _)
  rw [hstacks] at hrun
  rw [Flow.nested, Flow.elsewhere_eq_map]
  refine hrun.within (g := fun u => ⟨u.module, u.here.tail, u.held⟩) fun t hkeep => ?_
  have hback : s.Keeps (i :: is) { t with context := s.context } := by
    refine back (fun j hj hmem => ?_) hkeep
    rw [List.flatMap_cons, Scopes.chain_opened_some hapart.head_lt] at hmem
    rw [List.flatMap_cons]
    rw [Engine.flatMap_chain_grown (.opened ..) hapart.tail.lt] at hmem
    exact (List.mem_cons.1 hmem).resolve_left (Nat.ne_of_lt hj)
  refine ⟨?_, hback⟩
  have hchain : t.scopes.chain s.scopes.size = s.scopes.size :: s.scopes.chain i := by
    rw [← Scopes.chain_opened_some hapart.head_lt]
    refine hkeep.extends_.scopes.chain ?_
    show _ < (s.scopes.opened _ _).size
    rw [Scopes.opened, Scopes.size_setTable, Scopes.size_push]
    exact Nat.lt_succ_self _
  have hchain' : t.scopes.chain i = s.scopes.chain i :=
    hback.extends_.scopes.chain hapart.head_lt
  show Stacks.mk t.module (t.scopes.tables i) _ = ⟨t.module, (t.scopes.tables _).tail, _⟩
  rw [Scopes.tables, Scopes.tables, hchain, hchain']
  rfl

/-- A run at the chain of the first block. -/
theorem outward {j : ScopeId} {js : List ScopeId} (his : is = j :: js) (h : Refines s₀ j js m n)
    (hs : s₀.Extends s) :
    Matches i is s (m s) (Flow.outward n (s.toStacks i is)) := by
  subst his
  have hrun := h hs
  cases hn : n (s.toStacks j js) with
  | error e =>
    rw [hn] at hrun
    obtain ⟨t, hm⟩ := hrun
    rw [Flow.outward_of_error (s := s.toStacks i (j :: js)) rfl hn]
    exact ⟨t, hm⟩
  | ok r =>
    rw [hn] at hrun
    obtain ⟨t, hm, hw, hkeep⟩ := hrun
    rw [Flow.outward_of_ok (s := s.toStacks i (j :: js)) rfl hn, hm, ← hw]
    refine ⟨t, rfl, ?_, hkeep.extends_, fun k hk hmem => hkeep.tables k hk fun h => hmem ?_⟩
    · have htables : t.scopes.tables i = s.scopes.tables i :=
        tables_of_keeps hkeep hapart.head_lt fun k hk hmem =>
          (List.nodup_append.1 hapart.nodup).2.2 k hk k hmem rfl
      show Stacks.mk t.module (t.scopes.tables i) _ = ⟨t.module, s.scopes.tables i, _⟩
      rw [htables]; rfl
    · exact List.mem_append_right _ h

end

end Refines

/-! ### Calls -/

/-- Evaluations of expressions that do what evaluations on stacks do. -/
def Follows (expr : Expr → Infer Ty) (flow : Standing → Expr → Flow Ty)
    (under : List (Definition Expr × Option Signature)) : Prop :=
  ∀ e s, s.scopes.Apart s.context.sight →
    Matches s.context.scope (s.context.blocks.map BlockFrame.scope) s (expr e s)
      (flow (s.standing under) e
        (s.toStacks s.context.scope (s.context.blocks.map BlockFrame.scope)))

namespace Follows
variable {expr : Expr → Infer Ty} {flow : Standing → Expr → Flow Ty}
  {under : List (Definition Expr × Option Signature)} {s₀ : Engine}

theorem refines (h : Follows expr flow under) (hapart : s₀.scopes.Apart s₀.context.sight)
    (e : Expr) :
    Refines s₀ s₀.context.scope (s₀.context.blocks.map BlockFrame.scope) (expr e)
      (flow (s₀.standing under) e) := by
  intro s hs
  have hstanding : s.standing under = s₀.standing under := by
    unfold Engine.standing; rw [hs.context, hs.active]
  have := h e s (by rw [hs.context]; exact hapart.grown hs.scopes)
  rwa [hs.context, hstanding] at this

theorem body (h : Follows expr flow under) (s₀ : Engine)
    (hapart : s₀.scopes.Apart s₀.context.sight) (stmts : List Expr) :
    Refines s₀ s₀.context.scope (s₀.context.blocks.map BlockFrame.scope) (Infer.body expr stmts)
      (Flow.body (flow (s₀.standing under)) stmts) :=
  Refines.body hapart fun e _ => h.refines hapart e

section
variable {i : ScopeId} {is : List ScopeId}

theorem methodBody_none {method : Method} {signature : Signature}
    (h : Follows expr flow ((method.definition, some signature) :: under))
    (hapart : s₀.scopes.Apart (i :: is)) (limit : Nat) (id : NodeId) (span : Span) :
    Refines s₀ i is (Infer.methodBody expr limit id span method signature [])
      (Flow.methodBody flow limit (s₀.standing under) id span method signature none) := by
  intro s hs
  rw [Infer.methodBody_apply, Flow.methodBody]
  by_cases hdepth : limit ≤ s₀.context.depth
  · rw [if_pos (by rwa [hs.context]),
      if_pos (show limit ≤ (s₀.standing under).depth from hdepth)]
    exact (Refines.fail rfl _ id span : Refines s₀ i is (Infer.fail _ id span : Infer Ty) _) hs
  · rw [if_neg (by rwa [hs.context]),
      if_neg (show ¬ limit ≤ (s₀.standing under).depth from hdepth)]
    have hbody := h.body (Refines.opened s
      ⟨s.scopes.size, [], some method.name, s.context.depth + 1⟩ none
      (method.definition.params.zip signature))
      (Scopes.Apart.opened_none ⟨fun _ h => absurd h List.not_mem_nil, List.nodup_nil⟩)
      method.definition.body
    have hinside : Engine.standing (Refines.opened s
        ⟨s.scopes.size, [], some method.name, s.context.depth + 1⟩ none
        (method.definition.params.zip signature)) ((method.definition, some signature) :: under) =
        (s₀.standing under).inside method signature none := by
      show Standing.mk [] _ (s.context.depth + 1) s.active _ =
        ⟨[], _, s₀.context.depth + 1, s₀.active, _⟩
      rw [hs.active, hs.context]; rfl
    rw [hinside] at hbody
    exact Refines.alone (hapart.grown hs.scopes) hbody

/-- The body of a method that is called with a block, with the call counted as under way. -/
theorem methodBody_some {method : Method} {signature : Signature} {block : Block Expr}
    (h : Follows expr flow ((method.definition, none) :: under))
    (hapart : s₀.scopes.Apart s₀.context.sight) (limit : Nat) (id : NodeId) (span : Span) :
    Refines s₀ s₀.context.scope (s₀.context.blocks.map BlockFrame.scope)
      (Infer.whileActive ⟨method.name, signature, block.id⟩
        (Infer.methodBody expr limit id span method signature
          (⟨block, s₀.context.scope, s₀.context.method?⟩ :: s₀.context.blocks)))
      (Flow.methodBody flow limit (s₀.standing under) id span method signature (some block)) := by
  intro s hs
  refine Matches.whileActive ?_
  let call : BlockCall := ⟨method.name, signature, block.id⟩
  let inner : Engine := { s with active := call :: s.active }
  have hinner : Engine.Extends { s₀ with active := call :: s₀.active } inner :=
    ⟨hs.context, congrArg (call :: ·) hs.active, hs.scopes⟩
  rw [Infer.methodBody_apply, Flow.methodBody]
  by_cases hdepth : limit ≤ s₀.context.depth
  · rw [if_pos (by rwa [hs.context]),
      if_pos (show limit ≤ (s₀.standing under).depth from hdepth)]
    exact (Refines.fail rfl _ id span : Refines { s₀ with active := call :: s₀.active } _ _
      (Infer.fail _ id span : Infer Ty) _) hinner
  · rw [if_neg (by rwa [hs.context]),
      if_neg (show ¬ limit ≤ (s₀.standing under).depth from hdepth)]
    have hapart := hapart.grown hs.scopes
    have hbody := h.body (Refines.opened inner
      ⟨s.scopes.size, ⟨block, s₀.context.scope, s₀.context.method?⟩ :: s₀.context.blocks,
        some method.name, inner.context.depth + 1⟩ none
      (method.definition.params.zip signature)) (Scopes.Apart.opened_none hapart)
      method.definition.body
    have hinside : Engine.standing (Refines.opened inner
        ⟨s.scopes.size, ⟨block, s₀.context.scope, s₀.context.method?⟩ :: s₀.context.blocks,
          some method.name, inner.context.depth + 1⟩ none
        (method.definition.params.zip signature)) ((method.definition, none) :: under) =
        (s₀.standing under).inside method signature (some block) := by
      show Standing.mk _ _ (s.context.depth + 1) (call :: s.active) _ =
        ⟨_, _, s₀.context.depth + 1, call :: s₀.active, _⟩
      rw [hs.active, hs.context]; rfl
    rw [hinside] at hbody
    exact Refines.above (s := inner) hapart hbody

theorem blockCall {method : Method} {signature : Signature}
    (h : Follows expr flow ((method.definition, none) :: under))
    (hapart : s₀.scopes.Apart s₀.context.sight) (limit : Nat) (id : NodeId) (span : Span)
    (block : Block Expr) :
    Refines s₀ s₀.context.scope (s₀.context.blocks.map BlockFrame.scope)
      (Infer.blockCall expr limit id span method signature block)
      (Flow.blockCall flow limit (s₀.standing under) id span method signature block) := by
  intro s hs
  have hapart' := hapart.grown hs.scopes
  let call : BlockCall := ⟨method.name, signature, block.id⟩
  let frames : List BlockFrame :=
    ⟨block, s₀.context.scope, s₀.context.method?⟩ :: s₀.context.blocks
  have hrun : Infer.blockCall expr limit id span method signature block s =
      (if call ∈ s₀.active then return .nil
        else do
          let ty ← Infer.whileActive call
            (Infer.methodBody expr limit id span method signature frames)
          Infer.updateMethod method.name (·.observe signature ty)
          return ty : Infer Ty) s := by
    rw [← hs.active, Infer.blockCall, bind_of_ok Infer.get_apply]
    show (ite (call ∈ s.active) _ _ : Infer Ty) s = _
    split
    · rfl
    · rw [bind_of_ok Infer.context_apply, hs.context]
  rw [hrun, Flow.blockCall]
  show Matches _ _ s ((ite (call ∈ s₀.active) _ _ : Infer Ty) s)
    ((ite (call ∈ s₀.active) _ _ : Flow Ty) _)
  split
  · exact Refines.give Ty.nil hs
  · exact (h.methodBody_some hapart limit id span).bind hapart
      (fun ty => (Refines.updateMethod _ _).bind hapart fun _ => Refines.give ty) hs

theorem firstCall {method : Method} {signature : Signature}
    (h : Follows expr flow ((method.definition, some signature) :: under))
    (hapart : s₀.scopes.Apart (i :: is)) (limit : Nat) (id : NodeId) (span : Span) :
    Refines s₀ i is (Infer.firstCall expr limit id span method signature)
      (Flow.firstCall flow limit (s₀.standing under) id span method signature) :=
  (Refines.updateMethod _ _).bind hapart fun _ =>
    (h.methodBody_none hapart limit id span).bind hapart fun ty =>
      (Refines.updateMethod _ _).bind hapart fun _ => Refines.give ty

theorem plainCall {w : Ways} {method : Method} {signature : Signature}
    (hknown : w.known method signature = method.returns? signature)
    (h : Follows expr flow ((method.definition, some signature) :: under))
    (hapart : s₀.scopes.Apart (i :: is)) (limit : Nat) (id : NodeId) (span : Span) :
    Refines s₀ i is (Infer.plainCall expr limit id span method signature)
      (Flow.plainCall w flow limit (s₀.standing under) id span method signature) := by
  unfold Infer.plainCall Flow.plainCall
  rw [hknown]
  cases method.returns? signature with
  | some ty => exact Refines.give ty
  | none => exact h.firstCall hapart limit id span

end

/-- Calls that do what calls on stacks do. -/
def Entered (s₀ : Engine) (entry : Infer.Entry) (flowEntry : Flow.Entry)
    (under : List (Definition Expr × Option Signature)) : Prop :=
  ∀ id span method signature block,
    Refines s₀ s₀.context.scope (s₀.context.blocks.map BlockFrame.scope)
      (entry id span method signature block)
      (flowEntry (s₀.standing under) id span method signature block)

theorem dispatch {entry : Infer.Entry} {flowEntry : Flow.Entry}
    (hentry : Entered s₀ entry flowEntry under) (id : NodeId) (span : Span) (name : String)
    (nameSpan : Span) (signature : Signature) (block : Option (Block Expr)) :
    Refines s₀ s₀.context.scope (s₀.context.blocks.map BlockFrame.scope)
      (Infer.dispatch entry id span name nameSpan signature block)
      (Flow.dispatch flowEntry (s₀.standing under) id span name nameSpan signature block) := by
  intro s hs
  let w := s.toStacks s₀.context.scope (s₀.context.blocks.map BlockFrame.scope)
  cases hm : s.module.method? name with
  | none =>
    rw [Infer.dispatch_of_none hm, Flow.dispatch_of_none (s := w) hm]
    exact (Refines.fail rfl _ id nameSpan : Refines s₀ _ _ (Infer.fail _ id nameSpan : Infer Ty) _) hs
  | some method =>
    by_cases harity : method.arity = signature.length
    · rw [Infer.dispatch_of_some hm harity, Flow.dispatch_of_some (s := w) hm harity]
      exact hentry id span method signature block hs
    · rw [Infer.dispatch_of_arity hm harity, Flow.dispatch_of_arity (s := w) hm harity]
      exact (Refines.fail rfl _ id span : Refines s₀ _ _ (Infer.fail _ id span : Infer Ty) _) hs

section
variable (h : Follows expr flow under) (hapart : s₀.scopes.Apart s₀.context.sight)
include h hapart

theorem call {entry : Infer.Entry} {flowEntry : Flow.Entry}
    (hentry : Entered s₀ entry flowEntry under) (id : NodeId) (span : Span) (name : String)
    (nameSpan : Span) (args : List Expr) (block : Option (Block Expr)) :
    Refines s₀ s₀.context.scope (s₀.context.blocks.map BlockFrame.scope)
      (Infer.call expr entry id span name nameSpan args block)
      (Flow.call flow flowEntry (s₀.standing under) id span name nameSpan args block) :=
  (Refines.mapM hapart fun e _ => h.refines hapart e).bind hapart fun signature =>
    dispatch hentry id span name nameSpan signature block

theorem runBlock (fuel : Nat) {frame : BlockFrame} {outer : List BlockFrame}
    (hblocks : s₀.context.blocks = frame :: outer) (args : Signature) :
    Refines s₀ s₀.context.scope (s₀.context.blocks.map BlockFrame.scope)
      (Infer.runBlock expr fuel frame outer args)
      (Flow.runBlock flow fuel (s₀.standing under) frame.block frame.method?
        (outer.map fun f => (f.block, f.method?)) args) := by
  have hscopes : s₀.context.blocks.map BlockFrame.scope =
      frame.scope :: outer.map BlockFrame.scope := by rw [hblocks]; rfl
  have houter : s₀.scopes.Apart (frame.scope :: outer.map BlockFrame.scope) :=
    hscopes ▸ hapart.tail
  have hpass : Refines s₀ frame.scope (outer.map BlockFrame.scope)
      (Infer.blockPass expr frame outer s₀.context.depth args)
      (Flow.nested (Infer.paramTypes frame.block.params args)
        (Flow.body (flow { s₀.standing under with
          blocks := outer.map fun f => (f.block, f.method?)
          method? := frame.method? }) frame.block.body)) := by
    intro s hs
    have houter := houter.grown hs.scopes
    rw [Infer.blockPass_apply]
    refine Refines.nested houter ?_
    have hbody := h.body (Refines.opened s
      ⟨s.scopes.size, outer, frame.method?, s₀.context.depth⟩ (some frame.scope)
      (Infer.paramTypes frame.block.params args)) (Scopes.Apart.opened_some houter) frame.block.body
    have hstanding : Engine.standing (Refines.opened s
        ⟨s.scopes.size, outer, frame.method?, s₀.context.depth⟩ (some frame.scope)
        (Infer.paramTypes frame.block.params args)) under = { s₀.standing under with
          blocks := outer.map fun f => (f.block, f.method?)
          method? := frame.method? } := by
      show Standing.mk _ _ _ s.active _ = ⟨_, _, _, s₀.active, _⟩
      rw [hs.active]; rfl
    rw [hstanding] at hbody
    exact hbody
  refine Refines.context ?_
  refine Refines.bind hapart (fun s hs => ?_) fun tys =>
    (Refines.record frame.block.id (Ty.unionOf tys)).bind hapart fun _ => Refines.give _
  exact Refines.outward (hapart.grown hs.scopes) hscopes (hpass.untilStable houter fuel) hs

theorem yield (fuel : Nat) (id : NodeId) (span : Span) (args : List Expr) :
    Refines s₀ s₀.context.scope (s₀.context.blocks.map BlockFrame.scope)
      (Infer.yield expr fuel id span args)
      (Flow.yield flow fuel (s₀.standing under) id span args) := by
  refine (Refines.mapM hapart fun e _ => h.refines hapart e).bind hapart fun signature => ?_
  refine Refines.context ?_
  have hstanding : (s₀.standing under).blocks =
      s₀.context.blocks.map fun f => (f.block, f.method?) := rfl
  rw [hstanding]
  cases hblocks : s₀.context.blocks with
  | nil => exact Refines.fail rfl _ id span
  | cons frame outer =>
    have := h.runBlock hapart fuel hblocks signature
    rwa [hblocks] at this

end

/-- A node does what it does on stacks if the expressions inside it and the methods that it calls
do. -/
theorem layer {w : Ways} (h : Follows expr flow under) {s : Engine} {e : Expr}
    (hapart : s.scopes.Apart s.context.sight) {entry : Infer.Entry} {flowEntry : Flow.Entry}
    (hentry : Entered s entry flowEntry under) (fuel : Nat)
    (hdefine : ∀ d, e.form = .define d → ¬ w.replaces (s.standing under) s.module d) :
    Matches s.context.scope (s.context.blocks.map BlockFrame.scope) s
      (Infer.layer expr entry fuel e s)
      (Flow.layer w flow flowEntry fuel (s.standing under) e
        (s.toStacks s.context.scope (s.context.blocks.map BlockFrame.scope))) := by
  refine Refines.bind_at hapart ?_ fun ty => (Refines.record e.id ty).bind hapart fun _ =>
    Refines.give ty
  have hparts (part : Expr) := h.refines hapart part
  unfold Infer.form Flow.form
  cases hform : e.form with
  | literal v => exact Refines.give v.type (.refl s)
  | var x => exact Refines.readVar rfl rfl e.id e.span x (.refl s)
  | assign target value => exact Refines.assign hapart rfl (hparts value) (.refl s)
  | branch cond thenBody elseBody =>
    exact Refines.branch hapart rfl (hparts cond) (fun e _ => hparts e) (fun e _ => hparts e)
      (.refl s)
  | loop cond stmts =>
    exact Refines.loop hapart rfl fuel (hparts cond) (fun e _ => hparts e) (.refl s)
  | yield args => exact h.yield hapart fuel e.id e.span args (.refl s)
  | call name nameSpan args block =>
    exact h.call hapart hentry e.id e.span name nameSpan args block (.refl s)
  | define d =>
    show Matches _ _ s (Infer.define d s) (Flow.define w (s.standing under) d (s.toStacks _ _))
    rw [Flow.define_of_not (hdefine d hform)]
    exact ⟨_, rfl, rfl, ⟨rfl, rfl, .refl _⟩, fun _ _ _ => rfl⟩

theorem enter {w : Ways} (hknown : w.known = Method.returns?)
    (hrefuses : ∀ c method signature block, ¬ w.refuses c method signature block)
    (h : ∀ under, Follows expr flow under) (hapart : s₀.scopes.Apart s₀.context.sight)
    (limit : Nat) : Entered s₀ (Infer.enter expr limit) (Flow.enter w flow limit) under := by
  intro id span method signature block
  cases block with
  | none =>
    rw [Flow.enter_none (hrefuses _ _ _ _)]
    exact (h _).plainCall (by rw [hknown]) hapart limit id span
  | some block =>
    rw [Flow.enter_some (hrefuses _ _ _ _)]
    exact (h _).blockCall hapart limit id span block

/-- Breakpoints at definitions are where a run on stacks is given up. -/
theorem exprUntil {w : Ways} (hknown : w.known = Method.returns?)
    (hrefuses : ∀ c method signature block, ¬ w.refuses c method signature block)
    {stop : Expr → Engine → Bool}
    (hstop : ∀ e s under, stop e s = true ↔
      ∃ d, e.form = .define d ∧ w.replaces (s.standing under) s.module d)
    (limit fuel : Nat) (under : List (Definition Expr × Option Signature)) :
    Follows (Infer.exprUntil stop limit fuel) (Flow.expr w limit fuel) under := by
  induction fuel generalizing under with
  | zero => exact fun e s _ => ⟨s, rfl⟩
  | succ fuel ih =>
    intro e s hapart
    unfold Infer.exprUntil Flow.expr
    by_cases h : stop e s = true
    · obtain ⟨d, hform, hreplaces⟩ := (hstop e s under).1 h
      rw [if_pos h]
      have hrun : Flow.layer w (Flow.expr w limit fuel) (Flow.enter w (Flow.expr w limit fuel) limit)
          fuel (s.standing under) e (s.toStacks s.context.scope
            (s.context.blocks.map BlockFrame.scope)) = .error .replaced := by
        refine Flow.bind_of_error ?_
        rw [hform]
        exact Flow.define_of_replaces hreplaces
      rw [hrun]
      exact ⟨s, rfl⟩
    · rw [if_neg h]
      refine (ih under).layer hapart (enter hknown hrefuses ih hapart limit) fuel fun d hform hr => ?_
      exact h ((hstop e s under).2 ⟨d, hform, hr⟩)

end Follows

/-- The inference of an expression is that on stacks. -/
theorem follows_expr (limit fuel : Nat) (under : List (Definition Expr × Option Signature)) :
    Follows (Infer.expr limit fuel) (Flow.expr .plain limit fuel) under := by
  rw [← Infer.exprUntil_never]
  refine Follows.exprUntil rfl (fun _ _ _ _ => id) (fun e s under => ?_) limit fuel under
  exact ⟨nofun, fun ⟨_, _, h⟩ => h.elim⟩

theorem refines_dispatch {s : Engine} (hapart : s.scopes.Apart s.context.sight) (limit fuel : Nat)
    (id : NodeId) (span : Span) (name : String) (nameSpan : Span) (signature : Signature)
    (block : Option (Block Expr)) :
    Refines s s.context.scope (s.context.blocks.map BlockFrame.scope)
      (Infer.dispatch (Infer.enter (Infer.expr limit fuel) limit) id span name nameSpan signature block)
      (Flow.dispatch (Flow.enter .plain (Flow.expr .plain limit fuel) limit) (s.standing []) id span
        name nameSpan signature block) :=
  Follows.dispatch (Follows.enter rfl (fun _ _ _ _ => not_false) (follows_expr limit fuel) hapart limit)
    id span name nameSpan signature block

end FlowTyping
