import FlowTyping.Proofs.Effects
import FlowTyping.Proofs.Occurrences
import FlowTyping.Proofs.Rank

/-!
# Runs with more scopes in front

`Flow.abreast_expr`: an expression without calls and definitions that binds no new name (`Expr.Rebinds`)
does the same with more scopes in front of the tables that it reads and writes.  The tables in front stay
empty, and the passes over a loop end at the same one.  Only the names that there are come up, at the
primitives that there are (`Tables.Shaped`), so the tables can say only so much (`Tables.capacity`); with
more passes allowed than that, a run of this kind ends well or at a variable that is not bound.

Statements of this kind that are repeated in a scope inside the one at hand therefore do what a loop around
them does (`Flow.abreast_loop`).
-/

namespace FlowTyping

/-- An expression that is built from literals, variables, assignments, choices and loops only, and assigns
only to names that are bound. -/
inductive Expr.Rebinds (bound : String → Prop) : Expr → Prop
  | literal {id span v} : Rebinds bound (.node id span (.literal v))
  | var {id span x} : Rebinds bound (.node id span (.var x))
  | assign {id span target value} : bound target.name → Rebinds bound value →
    Rebinds bound (.node id span (.assign target value))
  | branch {id span cond thenBody elseBody} : Rebinds bound cond → (∀ e ∈ thenBody, Rebinds bound e) →
    (∀ e ∈ elseBody.getD [], Rebinds bound e) → Rebinds bound (.node id span (.branch cond thenBody elseBody))
  | loop {id span cond stmts} : Rebinds bound cond → (∀ e ∈ stmts, Rebinds bound e) →
    Rebinds bound (.node id span (.loop cond stmts))

namespace Expr.Rebinds
variable {bound bound' : String → Prop} {e : Expr}

theorem mono (h : e.Rebinds bound) (hbound : ∀ x, bound x → bound' x) : e.Rebinds bound' := by
  induction h with
  | literal => exact .literal
  | var => exact .var
  | assign htarget _ ih => exact .assign (hbound _ htarget) ih
  | branch _ _ _ ihcond ihthen ihelse => exact .branch ihcond ihthen ihelse
  | loop _ _ ihcond ihstmts => exact .loop ihcond ihstmts

theorem part {part : Expr} (h : e.Rebinds bound) (hp : part ∈ e.form.parts) : part.Rebinds bound := by
  cases h with
  | literal | var => exact absurd hp List.not_mem_nil
  | assign _ hvalue => exact List.mem_singleton.1 hp ▸ hvalue
  | @branch _ _ cond thenBody elseBody hcond hthen helse =>
    have hmem : part = cond ∨ part ∈ thenBody ∨ part ∈ elseBody.getD [] := by
      cases elseBody <;> simpa [Form.parts] using hp
    rcases hmem with rfl | hp | hp
    exacts [hcond, hthen part hp, helse part hp]
  | loop hcond hstmts =>
    rcases List.mem_cons.1 hp with rfl | hp
    exacts [hcond, hstmts part hp]

end Expr.Rebinds

/-! ### Tables of one shape -/

/-- All primitives of the type are some of the given ones. -/
def Ty.Among (U : Finset String) (t : Ty) : Prop := ∀ q ∈ t, q ∈ U

theorem Ty.Among.join {U : Finset String} {a b : Ty} (ha : a.Among U) (hb : b.Among U) : (a.join b).Among U :=
  fun q hq => (mem_join.1 hq).elim (ha q) (hb q)

namespace Bindings
variable {U : Finset String} {shape t u : Bindings} {x : String} {ty : Ty}

/-- The names of another table, at some of the given primitives. -/
structure Shaped (U : Finset String) (shape t : Bindings) : Prop where
  names : ∀ x, t.contains x = shape.contains x
  types : ∀ x ty, t.get? x = some ty → ty.Among U

theorem Shaped.insert (h : Shaped U shape t) (hx : shape.contains x) (hty : ty.Among U) :
    Shaped U shape (t.insert x ty) where
  names y := by
    unfold Table.contains
    rw [Table.get?_insert]
    split
    · next heq => exact heq ▸ hx.symm
    · exact h.names y
  types y u hy := by
    rw [Table.get?_insert] at hy
    split at hy
    · cases hy; exact hty
    · exact h.types y u hy

theorem Shaped.merge (ht : Shaped U shape t) (hu : Shaped U shape u) : Shaped U shape (merge t u) := by
  have hboth (x : String) : (t.get? x).isSome = (u.get? x).isSome := (ht.names x).trans (hu.names x).symm
  constructor
  · intro x
    rw [← ht.names x]
    unfold Table.contains
    rw [get?_merge]
    specialize hboth x
    cases h₁ : t.get? x <;> cases h₂ : u.get? x <;> simp_all [meeting]
  · intro x ty hx
    rw [get?_merge] at hx
    specialize hboth x
    cases h₁ : t.get? x with
    | none =>
      have h₂ : u.get? x = none := by simpa [h₁] using hboth
      rw [h₁, h₂] at hx
      cases hx
    | some v =>
      obtain ⟨w, h₂⟩ : ∃ w, u.get? x = some w := Option.isSome_iff_exists.1 (by rw [← hboth, h₁]; rfl)
      rw [h₁, h₂] at hx
      cases hx
      exact (ht.types x v h₁).join (hu.types x w h₂)

/-- A table says no more than its names and the primitives allow. -/
theorem Shaped.card_facts_le (h : Shaped U shape t) : t.facts.card ≤ shape.size * U.card := by
  have hsub : t.facts ⊆ (shape.entries.map Prod.fst).toFinset ×ˢ U := by
    refine facts_subset_product fun x ty hx => ⟨List.mem_toFinset.2 ?_, h.types x ty hx⟩
    have hname : shape.contains x = true := by rw [← h.names x, Table.contains, hx]; rfl
    exact (mem_keys_iff shape x).2 (Option.isSome_iff_exists.1 hname)
  have hnames : (shape.entries.map Prod.fst).toFinset.card ≤ shape.size :=
    (List.toFinset_card_le _).trans_eq (List.length_map _)
  calc t.facts.card ≤ ((shape.entries.map Prod.fst).toFinset ×ˢ U).card := Finset.card_le_card hsub
    _ = (shape.entries.map Prod.fst).toFinset.card * U.card := Finset.card_product ..
    _ ≤ shape.size * U.card := Nat.mul_le_mul_right _ hnames

end Bindings

namespace Tables
variable {U : Finset String} {shape as bs ts : List Bindings} {x : String} {ty : Ty} {k : Nat}

/-- Table by table the names of other tables, at some of the given primitives. -/
abbrev Shaped (U : Finset String) : List Bindings → List Bindings → Prop := List.Forall₂ (Bindings.Shaped U)

/-- How much tables say. -/
def rank (ts : List Bindings) : Nat := (ts.map fun t => t.facts.card).sum

/-- How much tables of one shape may say. -/
def capacity (U : Finset String) (shape : List Bindings) : Nat := (shape.map fun t => t.size * U.card).sum

theorem Shaped.rank_le (h : Shaped U shape ts) : rank ts ≤ capacity U shape := by
  induction h with
  | nil => exact Nat.le_refl _
  | cons ht _ ih =>
    have := ht.card_facts_le
    simp only [rank, capacity, List.map_cons, List.sum_cons] at ih ⊢
    omega

theorem Shaped.merge (ha : Shaped U shape as) (hb : Shaped U shape bs) : Shaped U shape (merge as bs) := by
  induction ha generalizing bs with
  | nil => exact .nil
  | cons ht _ ih =>
    cases hb with
    | cons hu hrest => exact .cons (ht.merge hu) (ih hrest)

theorem Shaped.lookup (h : Shaped U shape ts) (hx : lookup ts x = some ty) : ty.Among U := by
  induction h with
  | nil => exact nomatch hx
  | @cons _ t _ ts ht _ ih =>
    rw [Tables.lookup, List.findSome?_cons] at hx
    cases htx : t.get? x with
    | some u => rw [htx] at hx; cases hx; exact ht.types x _ htx
    | none => rw [htx] at hx; exact ih hx

theorem Shaped.any_contains (h : Shaped U shape ts) : ts.any (·.contains x) = shape.any (·.contains x) := by
  induction h with
  | nil => rfl
  | cons ht _ ih => rw [List.any_cons, List.any_cons, ih, ht.names x]

/-- A name that is bound goes on to be bound where it was. -/
theorem Shaped.write (h : Shaped U shape ts) (hx : shape.any (·.contains x)) (hty : ty.Among U) :
    Shaped U shape (write x ty ts) := by
  induction h with
  | nil => exact .nil
  | @cons shape₁ t shape ts ht hts ih =>
    rw [Tables.write, ht.names x, Shaped.any_contains hts]
    rw [List.any_cons, Bool.or_eq_true] at hx
    split
    · next hhere =>
      rw [Bool.or_eq_true, Bool.not_eq_true'] at hhere
      have hcontains : shape₁.contains x = true := by
        rcases hx with hx | hx
        · exact hx
        · exact hhere.resolve_right fun hnone => Bool.false_ne_true (hnone.symm.trans hx)
      exact .cons (ht.insert hcontains hty) hts
    · next hthere =>
      rw [Bool.not_eq_true, Bool.or_eq_false_iff, Bool.not_eq_false'] at hthere
      exact .cons ht (ih hthere.2)

/-- Tables that a merge changes say more afterwards. -/
theorem rank_lt_rank_merge (h : as.length = bs.length) (hne : merge as bs ≠ as) :
    rank as < rank (merge as bs) := by
  let ids : List ScopeId := List.range as.length
  have hids (ts : List Bindings) (hlen : as.length = ts.length) :
      ids.length ≤ ts.length ∧ ts.length ≤ ids.length := by simp [ids, hlen]
  have hrank (ts : List Bindings) (hlen : as.length = ts.length) : Snapshot.rank (ids.zip ts) = rank ts := by
    have hsnd := List.map_snd_zip (hids ts hlen).2
    rw [rank, ← hsnd, List.map_map, hsnd]
    rfl
  have hmerged : as.length = (merge as bs).length := by rw [merge, List.length_zipWith, ← h, Nat.min_self]
  have hzip : Snapshot.merge (ids.zip as) (ids.zip bs) = ids.zip (merge as bs) := Snapshot.merge_zip ids as bs
  have hlt := Snapshot.rank_lt_rank_merge (a := ids.zip as) (b := ids.zip bs)
    (by rw [List.length_zip, List.length_zip, h]) fun heq => hne ?_
  · rwa [hzip, hrank _ rfl, hrank _ hmerged] at hlt
  · rw [hzip] at heq
    have := congrArg (List.map Prod.snd) heq
    rwa [List.map_snd_zip (hids _ hmerged).2, List.map_snd_zip (hids _ rfl).2] at this

/-! ### Empty tables in front -/

/-- The tables with some empty ones in front. -/
def below (k : Nat) (ts : List Bindings) : List Bindings := List.replicate k .empty ++ ts

theorem lookup_below (k : Nat) (ts : List Bindings) (x : String) : lookup (below k ts) x = lookup ts x := by
  induction k with
  | zero => rfl
  | succ k ih => exact ih

/-- A name that is bound is written to where it is bound. -/
theorem write_below (k : Nat) (h : ts.any (·.contains x)) (ty : Ty) :
    write x ty (below k ts) = below k (write x ty ts) := by
  induction k with
  | zero => rfl
  | succ k ih =>
    have hany : (below k ts).any (·.contains x) = true := by
      rw [below, List.any_append, h, Bool.or_true]
    show write x ty (.empty :: below k ts) = .empty :: below k (write x ty ts)
    rw [write, hany, ih]
    rfl

theorem merge_below (k : Nat) (as bs : List Bindings) :
    merge (below k as) (below k bs) = below k (merge as bs) := by
  induction k with
  | zero => rfl
  | succ k ih => exact congrArg (Table.empty :: ·) ih

theorem below_inj : below k as = below k bs ↔ as = bs := List.append_right_inj _

end Tables

/-! ### Runs that go abreast -/

namespace Flow

section
variable (U : Finset String) (shape : List Bindings) (k : Nat)

/-- How two runs end that go abreast, the second one with more tables in front: both well, or both at a
variable that is not bound. -/
inductive EndsAbreast (V : α → β → Prop) : Except Halt (α × Stacks) → Except Halt (β × Stacks) → Prop
  | ok {a b s t} : V a b → Tables.Shaped U shape s.here → t.here = Tables.below k s.here →
    EndsAbreast V (.ok (a, s)) (.ok (b, t))
  | unbound (name node span method?) : EndsAbreast V
    (.error (.error ⟨.unboundVariable name, node, span, method?⟩))
    (.error (.error ⟨.unboundVariable name, node, span, method?⟩))

/-- From tables of one shape the two steps go abreast. -/
def Abreast (V : α → β → Prop) (m : Flow α) (n : Flow β) : Prop :=
  ∀ ⦃s t⦄, Tables.Shaped U shape s.here → t.here = Tables.below k s.here →
    EndsAbreast U shape k V (m s) (n t)

/-- A step that ends well and leaves the tables alone. -/
def Idle (m : Flow α) : Prop := ∀ s, ∃ a M, m s = .ok (a, { s with module := M })

/-- The same type, of the given primitives. -/
def Agree (a b : Ty) : Prop := a = b ∧ a.Among U

end

variable {U : Finset String} {shape : List Bindings} {k : Nat} {V : α → β → Prop} {W : γ → δ → Prop}
  {m : Flow α} {n : Flow β} {f : α → Flow γ} {g : β → Flow δ}

theorem EndsAbreast.bind {s t : Stacks} (h : EndsAbreast U shape k V (m s) (n t))
    (hf : ∀ {a b s' t'}, V a b → Tables.Shaped U shape s'.here → t'.here = Tables.below k s'.here →
      EndsAbreast U shape k W (f a s') (g b t')) :
    EndsAbreast U shape k W ((m >>= f) s) ((n >>= g) t) := by
  generalize hm : m s = r, hn : n t = r' at h
  cases h with
  | ok hab hs ht => rw [bind_of_ok hm, bind_of_ok hn]; exact hf hab hs ht
  | unbound => rw [bind_of_error hm, bind_of_error hn]; exact .unbound ..

namespace Abreast

theorem give {a : α} {b : β} (h : V a b) : Abreast U shape k V (pure a) (pure b) :=
  fun _ _ hs ht => .ok h hs ht

theorem bind (h : Abreast U shape k V m n) (hf : ∀ a b, V a b → Abreast U shape k W (f a) (g b)) :
    Abreast U shape k W (m >>= f) (n >>= g) :=
  fun _ _ hs ht => (h hs ht).bind fun hab hs' ht' => hf _ _ hab hs' ht'

theorem idle_bind {n : Flow δ} (hm : Idle m) (hf : ∀ a, Abreast U shape k W (f a) n) :
    Abreast U shape k W (m >>= f) n := by
  intro s t hs ht
  obtain ⟨a, M, hm⟩ := hm s
  rw [bind_of_ok hm]
  exact hf a (s := { s with module := M }) hs ht

theorem bind_idle (h : Abreast U shape k V m n) (hf : ∀ a, Idle (f a)) :
    Abreast U shape k (fun _ _ => True) (m >>= f) n := by
  intro s t hs ht
  have hrun := h hs ht
  generalize hm : m s = r, hn : n t = r' at hrun
  cases hrun with
  | @ok a b s' t' _ hs' ht' =>
    obtain ⟨c, M, hf⟩ := hf a s'
    rw [bind_of_ok hm, hf]
    exact .ok trivial hs' ht'
  | unbound => rw [bind_of_error hm]; exact .unbound ..

theorem getHere : Abreast U shape k (fun as bs => Tables.Shaped U shape as ∧ bs = Tables.below k as)
    Flow.getHere Flow.getHere := fun _ _ hs ht => .ok ⟨hs, ht⟩ hs ht

theorem setHere {as bs : List Bindings} (ha : Tables.Shaped U shape as) (hb : bs = Tables.below k as) :
    Abreast U shape k (fun _ _ => True) (setHere as) (setHere bs) := fun _ _ _ _ => .ok trivial ha hb

theorem writeHere {name : String} {ty : Ty} (hname : shape.any (·.contains name)) (hty : ty.Among U) :
    Abreast U shape k (fun _ _ => True) (writeHere name ty) (writeHere name ty) := by
  intro s t hs ht
  refine .ok trivial (Tables.Shaped.write hs hname hty) ?_
  have hany := hs.any_contains.trans hname
  show Tables.write name ty t.here = Tables.below k (Tables.write name ty s.here)
  rw [ht, Tables.write_below k hany]

theorem record (node node' : NodeId) (ty ty' : Ty) :
    Abreast U shape k (fun _ _ => True) (record node ty) (record node' ty') :=
  fun _ _ hs ht => .ok trivial hs ht

theorem choice {cond cond' thenPart thenPart' elsePart elsePart' : Flow Ty}
    (hcond : Abreast U shape k (Agree U) cond cond') (hthen : Abreast U shape k (Agree U) thenPart thenPart')
    (helse : Abreast U shape k (Agree U) elsePart elsePart') :
    Abreast U shape k (Agree U) (choice cond thenPart elsePart) (choice cond' thenPart' elsePart') := by
  refine hcond.bind fun _ _ _ => getHere.bind fun before _ ⟨hbefore, hb⟩ => ?_
  refine hthen.bind fun ty _ ⟨rfl, hty⟩ => ?_
  refine getHere.bind fun atEnd _ ⟨hend, he⟩ => (setHere hbefore hb).bind fun _ _ _ => ?_
  refine helse.bind fun ty' _ ⟨rfl, hty'⟩ => getHere.bind fun atEnd' _ ⟨hend', he'⟩ => ?_
  refine (setHere (hend.merge hend') ?_).bind fun _ _ _ => give ⟨rfl, hty.join hty'⟩
  rw [he, he', Tables.merge_below]

theorem untilStable (h : Abreast U shape k V m n) {fuel fuel' : Nat} (hfuel : Tables.capacity U shape < fuel)
    (hfuel' : Tables.capacity U shape < fuel') :
    Abreast U shape k (fun _ _ => True) (untilStable m fuel) (untilStable n fuel') := by
  -- The passes that are left are more than what the tables may still come to say.
  have key (fuel : Nat) : ∀ {fuel' : Nat} {s t : Stacks}, Tables.Shaped U shape s.here →
      t.here = Tables.below k s.here → Tables.capacity U shape < Tables.rank s.here + fuel →
      Tables.capacity U shape < Tables.rank s.here + fuel' →
      EndsAbreast U shape k (fun _ _ => True) (Flow.untilStable m fuel s) (Flow.untilStable n fuel' t) := by
    induction fuel with
    | zero => intro fuel' s t hs _ hlt _; exact absurd hs.rank_le (Nat.not_le.2 hlt)
    | succ fuel ih =>
      intro fuel' s t hs ht hlt hlt'
      obtain _ | fuel' := fuel'
      · exact absurd hs.rank_le (Nat.not_le.2 hlt')
      have hpass := h hs ht
      generalize hm : m s = r, hn : n t = r' at hpass
      cases hpass with
      | unbound => rw [untilStable_of_error hm, untilStable_of_error hn]; exact .unbound ..
      | @ok a b s₁ t₁ _ hs₁ ht₁ =>
        have hmerge : Tables.merge t.here t₁.here = Tables.below k (Tables.merge s.here s₁.here) := by
          rw [ht, ht₁, Tables.merge_below]
        have hshaped := hs.merge hs₁
        by_cases hstop : Tables.merge s.here s₁.here = s.here
        · rw [untilStable_of_stop hm hstop,
            untilStable_of_stop hn (by rw [hmerge, ht, hstop])]
          exact .ok trivial hshaped hmerge
        · have hlen : s.here.length = s₁.here.length := hs.length_eq.symm.trans hs₁.length_eq
          have hgrow := Tables.rank_lt_rank_merge hlen hstop
          rw [untilStable_of_not hm hstop, untilStable_of_not hn fun hstop' => hstop ?_]
          · refine (ih (s := s.merged s₁) (t := t.merged t₁) hshaped hmerge ?_ ?_).bind
              fun _ hs' ht' => .ok trivial hs' ht' <;>
            · show _ < Tables.rank (Tables.merge s.here s₁.here) + _
              omega
          · rw [hmerge, ht] at hstop'
            exact Tables.below_inj.1 hstop'
  exact fun s t hs ht => key fuel hs ht (Nat.lt_add_left _ hfuel) (Nat.lt_add_left _ hfuel')

/-- A step in a scope of its own inside the one at hand. -/
theorem nested (h : Abreast U shape 1 V m n) : Abreast U shape 0 V m (nested [] n) := by
  intro s t hs ht
  have hrun := h hs (t := ⟨t.module, .empty :: t.here, t.held⟩) (congrArg (Table.empty :: ·) ht)
  generalize hm : m s = r, hn : n ⟨t.module, .empty :: t.here, t.held⟩ = r' at hrun
  cases hrun with
  | ok hab hs' ht' =>
    rw [show Flow.nested [] n t = _ from elsewhere_of_ok hn]
    exact .ok hab hs' (congrArg List.tail ht')
  | unbound =>
    rw [show Flow.nested [] n t = _ from elsewhere_of_error hn]
    exact .unbound ..

variable (hU : ∀ q ∈ Module.initial.primitives, q ∈ U)
include hU

theorem body {expr expr' : Expr → Flow Ty} {stmts : List Expr}
    (h : ∀ stmt ∈ stmts, Abreast U shape k (Agree U) (expr stmt) (expr' stmt)) :
    Abreast U shape k (Agree U) (body expr stmts) (body expr' stmts) := by
  unfold Flow.body
  have hnil : Agree U .nil .nil := ⟨rfl, fun q hq => hU q (Ty.nil_basic q hq)⟩
  revert hnil
  generalize Ty.nil = ty
  intro hty
  induction stmts generalizing ty with
  | nil => exact give hty
  | cons stmt stmts ih =>
    rw [List.foldlM_cons, List.foldlM_cons]
    refine (h stmt List.mem_cons_self).bind fun ty' _ ⟨heq, hty'⟩ => ?_
    subst heq
    exact ih (fun e he => h e (List.mem_cons_of_mem _ he)) ty' ⟨rfl, hty'⟩

end Abreast

/-- An expression that binds no new name does the same below empty tables, if it is allowed enough
passes. -/
theorem abreast_expr (hU : ∀ q ∈ Module.initial.primitives, q ∈ U) (limit : Nat) {c d : Standing}
    (hmethod : c.method? = d.method?) {e : Expr} (he : e.Rebinds fun x => shape.any (·.contains x))
    {fuel fuel' : Nat} (hfuel : Tables.capacity U shape + e.size < fuel)
    (hfuel' : Tables.capacity U shape + e.size < fuel') :
    Abreast U shape k (Agree U) (Flow.expr .plain limit fuel c e) (Flow.expr .plain limit fuel' d e) := by
  induction e using Expr.induction generalizing fuel fuel' with
  | step id span form ih =>
    obtain _ | fuel := fuel
    · exact absurd hfuel (Nat.not_lt_zero _)
    obtain _ | fuel' := fuel'
    · exact absurd hfuel' (Nat.not_lt_zero _)
    have hpart (part : Expr) (hp : part ∈ form.parts) :
        Abreast U shape k (Agree U) (Flow.expr .plain limit fuel c part)
          (Flow.expr .plain limit fuel' d part) := by
      have := Expr.size_part_lt (e := .node id span form) hp
      exact ih part hp (he.part hp) (by omega) (by omega)
    have hcapacity : Tables.capacity U shape < fuel ∧ Tables.capacity U shape < fuel' := by
      have := (Expr.node id span form).size_pos
      omega
    have hbasic {ty : Ty} (h : ty.Basic) : ty.Among U := fun q hq => hU q (h q hq)
    refine Abreast.bind (V := Agree U) ?_ fun ty _ ⟨heq, hty⟩ =>
      (Abreast.record ..).bind fun _ _ _ => .give ⟨heq, hty⟩
    cases he with
    | @literal _ _ v => exact .give ⟨rfl, hbasic v.type_basic⟩
    | @var _ _ x =>
      intro s t hs ht
      have hlookup : Tables.lookup t.here x = Tables.lookup s.here x := by rw [ht, Tables.lookup_below]
      show EndsAbreast U shape k (Agree U) (readVar c id span x s) (readVar d id span x t)
      cases hx : Tables.lookup s.here x with
      | some ty =>
        rw [readVar_of_some hx, readVar_of_some (hlookup.trans hx)]
        exact .ok ⟨rfl, hs.lookup hx⟩ hs ht
      | none =>
        rw [readVar_of_none hx, readVar_of_none (hlookup.trans hx), fail, fail, hmethod]
        exact .unbound ..
    | @assign _ _ target value htarget _ =>
      refine (hpart value (List.mem_singleton_self value)).bind fun ty _ ⟨heq, hty⟩ => ?_
      subst heq
      exact (Abreast.writeHere htarget hty).bind fun _ _ _ => (Abreast.record ..).bind fun _ _ _ =>
        .give ⟨rfl, hty⟩
    | @branch _ _ cond thenBody elseBody =>
      refine .choice (hpart cond ?_) (.body hU fun stmt hs => hpart stmt ?_)
        (.body hU fun stmt hs => hpart stmt ?_) <;> cases elseBody <;> simp_all [Form.parts]
    | @loop _ _ cond stmts =>
      have hcond := hpart cond List.mem_cons_self
      have hstmts := Abreast.body hU fun stmt (hs : stmt ∈ stmts) => hpart stmt (List.mem_cons_of_mem cond hs)
      have hpass := hstmts.bind fun _ _ _ => hcond
      exact hcond.bind fun _ _ _ => (hpass.untilStable hcapacity.1 hcapacity.2).bind fun _ _ _ =>
        .give ⟨rfl, hbasic Ty.nil_basic⟩

/-- A loop with a literal for its condition does what its statements do that are repeated in a scope of
their own. -/
theorem abreast_loop (hU : ∀ q ∈ Module.initial.primitives, q ∈ U) (limit : Nat) {c d : Standing}
    (hmethod : c.method? = d.method?) {stmts : List Expr}
    (hstmts : ∀ e ∈ stmts, e.Rebinds fun x => shape.any (·.contains x)) (id condId : NodeId)
    (span condSpan : Span) (v : Literal) (fuel : Nat)
    (hfuel : ∀ e ∈ stmts, Tables.capacity U shape + e.size < fuel)
    (hpositive : Tables.capacity U shape < fuel) : Abreast U shape 0 (fun _ _ => True)
      (Flow.expr .plain limit (fuel + 2) c (.node id span (.loop (.node condId condSpan (.literal v)) stmts)))
      (Flow.untilStable (Flow.nested [] (Flow.body (Flow.expr .plain limit fuel d) stmts)) fuel) := by
  have hcond : Idle (Flow.expr .plain limit (fuel + 1) c (.node condId condSpan (.literal v))) :=
    fun s => ⟨v.type, s.module.record condId v.type, rfl⟩
  have hbody : Abreast U shape 0 (Agree U) (Flow.body (Flow.expr .plain limit (fuel + 1) c) stmts)
      (Flow.nested [] (Flow.body (Flow.expr .plain limit fuel d) stmts)) :=
    .nested (.body hU fun e he =>
      abreast_expr hU limit hmethod (hstmts e he) (Nat.lt_succ_of_lt (hfuel e he)) (hfuel e he))
  have hpasses := (hbody.bind_idle fun _ => hcond).untilStable (Nat.lt_succ_of_lt hpositive) hpositive
  have hloop := Abreast.idle_bind hcond fun _ => hpasses.bind_idle (f := fun _ => pure Ty.nil) fun _ s =>
    ⟨.nil, s.module, rfl⟩
  exact hloop.bind_idle fun ty s => ⟨ty, s.module.record id ty, rfl⟩

end Flow
end FlowTyping
