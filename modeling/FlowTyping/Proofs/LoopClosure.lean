import FlowTyping.Proofs.Learning
import FlowTyping.Proofs.Refinement
import FlowTyping.Proofs.Termination
import FlowTyping.Proofs.Widening

/-!
# Where loops stop

A loop stops once a pass changes nothing in the tables of the chain at hand.  A pass may also run the
block in force, which reads and writes the tables of another chain, and these are not looked at.
`Infer.settledLoop` is a loop that looks at them as well.  Where nothing is defined in the loop, one
more pass after it adds nothing to any table exactly if that other loop ends at the same tables
(`Program.always_closed_iff`); so it does if no block is in force.
-/

namespace FlowTyping

/-! ### Loops that look at all tables in sight -/

namespace Infer

/-- The tables on the chains of some scopes. -/
def tables (scopes : List ScopeId) : Infer (List (List Bindings)) :=
  return scopes.map (← get).scopes.tables

/-- Repeats a step as `untilStable` does, until a pass also leaves the tables on other chains as they
were. -/
def untilSettled (scope : ScopeId) (others : List ScopeId) (pass : Infer α) : Nat → Infer (List α)
  | 0 => throw .outOfFuel
  | fuel + 1 => do
    let before ← snapshot scope
    let outside ← tables others
    let a ← pass
    let merged := before.merge (← snapshot scope)
    restore merged
    if merged = before ∧ (← tables others) = outside then return [a]
    else return a :: (← untilSettled scope others pass fuel)

/-- A loop that goes on until a pass changes neither the tables at hand nor those at the blocks in
force. -/
def settledLoop (expr : Expr → Infer Ty) (fuel : Nat) (cond : Expr) (stmts : List Expr) :
    Infer Ty := do
  let _ ← expr cond
  let here ← context
  let _ ← untilSettled here.scope (here.blocks.map BlockFrame.scope) (loopPass expr cond stmts) fuel
  return .nil

/-- One more pass binds no new name in any scope, and every name at a type that is covered by the one
that it has. -/
def Closed (pass : Infer α) (s : Engine) : Prop :=
  ∃ a t, pass s = .ok a t ∧ ∀ i < s.scopes.size, (t.scopes.table i).Le (s.scopes.table i)

end Infer

namespace Flow

def getHeld : Flow (List (List Bindings)) := return (← get).held

def untilSettled (pass : Flow α) : Nat → Flow (List α)
  | 0 => throw .outOfFuel
  | fuel + 1 => do
    let before ← getHere
    let outside ← getHeld
    let a ← pass
    let merged := Tables.merge before (← getHere)
    setHere merged
    if merged = before ∧ (← getHeld) = outside then return [a]
    else return a :: (← untilSettled pass fuel)

def settledLoop (expr : Expr → Flow Ty) (fuel : Nat) (cond : Expr) (stmts : List Expr) :
    Flow Ty := do
  let _ ← expr cond
  let _ ← untilSettled (loopPass expr cond stmts) fuel
  return .nil

def Closed (pass : Flow α) (s : Stacks) : Prop :=
  ∃ a t, pass s = .ok (a, t) ∧ t.Le s

/-! ### Passes -/

variable {m : Flow α} {s t u : Stacks} {a : α} {as bs : List α} {fuel passes : Nat}

theorem untilSettled_of_stop (hm : m s = .ok (a, t)) (h : Tables.merge s.here t.here = s.here)
    (hheld : t.held = s.held) : untilSettled m (passes + 1) s = .ok ([a], s.merged t) := by
  rw [untilSettled, bind_of_ok (a := s.here) (t := s) rfl, bind_of_ok (a := s.held) (t := s) rfl,
    bind_of_ok hm, bind_of_ok (a := t.here) (t := t) rfl,
    bind_of_ok (a := ()) (t := s.merged t) rfl, bind_of_ok (a := t.held) (t := s.merged t) rfl]
  exact congrFun (if_pos ⟨h, hheld⟩) _

theorem untilSettled_of_not (hm : m s = .ok (a, t))
    (h : ¬ (Tables.merge s.here t.here = s.here ∧ t.held = s.held)) :
    untilSettled m (passes + 1) s =
      (do return a :: (← untilSettled m passes) : Flow (List α)) (s.merged t) := by
  rw [untilSettled, bind_of_ok (a := s.here) (t := s) rfl, bind_of_ok (a := s.held) (t := s) rfl,
    bind_of_ok hm, bind_of_ok (a := t.here) (t := t) rfl,
    bind_of_ok (a := ()) (t := s.merged t) rfl, bind_of_ok (a := t.held) (t := s.merged t) rfl]
  exact congrFun (if_neg h) _

/-- Passes that end well: the first one, and the others unless it was the last one. -/
theorem untilSettled_ok (h : untilSettled m passes s = .ok (as, u)) :
    ∃ a t, m s = .ok (a, t) ∧ (u = s.merged t ∧ t.held = s.held ∨
      ∃ rest bs, passes = rest + 1 ∧ untilSettled m rest (s.merged t) = .ok (bs, u)) := by
  cases passes with
  | zero => exact nomatch h
  | succ passes =>
    cases hm : m s with
    | error e =>
      rw [untilSettled, bind_of_ok (a := s.here) (t := s) rfl,
        bind_of_ok (a := s.held) (t := s) rfl, bind_of_error hm] at h
      exact nomatch h
    | ok r =>
      refine ⟨r.1, r.2, rfl, ?_⟩
      by_cases hstop : Tables.merge s.here r.2.here = s.here ∧ r.2.held = s.held
      · rw [untilSettled_of_stop hm hstop.1 hstop.2] at h
        cases h
        exact .inl ⟨rfl, hstop.2⟩
      · rw [untilSettled_of_not hm hstop] at h
        obtain ⟨bs, _, hrest, h⟩ := bind_eq_ok_iff.1 h
        cases h
        exact .inr ⟨passes, bs, rfl, hrest⟩

section
variable (hw : Widens m)
include hw

theorem Widens.untilSettled (h : untilSettled m passes s = .ok (as, u)) : s.Le u := by
  induction passes generalizing s as with
  | zero => exact nomatch h
  | succ passes ih =>
    obtain ⟨a, t, hm, ⟨rfl, -⟩ | ⟨rest, bs, hn, hrest⟩⟩ := untilSettled_ok h
    · exact (hw hm).le_merged
    · cases hn
      exact (hw hm).le_merged.trans (ih hrest)

/-- Passes that end at the tables where they start add nothing. -/
theorem closed_of_settled (h : untilSettled m passes s = .ok (as, u)) (hhere : u.here = s.here)
    (hheld : u.held = s.held) : Closed m s := by
  obtain ⟨a, t, hm, hrest⟩ := untilSettled_ok h
  have hpass := hw hm
  have hle : (s.merged t).Le u := by
    rcases hrest with ⟨rfl, -⟩ | ⟨rest, bs, -, hrest⟩
    · exact .refl _
    · exact hw.untilSettled hrest
  have hmerge : Tables.Le (Tables.merge s.here t.here) s.here := by
    have := hle.here; rwa [hhere] at this
  refine ⟨a, t, hm, Tables.le_of_merge_eq hpass.here.length_eq ?_, hheld ▸ hle.held⟩
  exact hmerge.antisymm hpass.le_merged.here

/-- One more pass that adds nothing is one that they end behind. -/
theorem settled_of_closed (h : Closed m s) :
    ∃ as u, untilSettled m 1 s = .ok (as, u) ∧ u.here = s.here ∧ u.held = s.held := by
  obtain ⟨a, t, hm, hle⟩ := h
  have hpass := hw hm
  have hstop := Tables.merge_eq_of_le hpass.here hle.here
  have hheld : t.held = s.held := Tables.held_antisymm hle.held hpass.held
  exact ⟨[a], s.merged t, untilSettled_of_stop hm hstop hheld, hstop, hheld⟩

/-- Where the passes end one more adds nothing exactly if they would end at the same tables with an
eye on all tables in sight. -/
theorem closed_iff_settled (hr : Replays learning m m) (hs : s.module.DefFree)
    (h : untilStable m fuel s = .ok (as, t)) :
    Closed m t ↔ ∃ passes bs u,
      untilSettled m passes s = .ok (bs, u) ∧ u.here = t.here ∧ u.held = t.held := by
  induction fuel generalizing s as with
  | zero => exact nomatch h
  | succ fuel ih =>
    cases hm : m s with
    | error e =>
      rw [untilStable_of_error hm] at h
      exact nomatch h
    | ok r =>
      obtain ⟨a, s₁⟩ := r
      obtain ⟨hs₁, hagain⟩ := hr hs hm
      -- the passes behind the first one, unless it settles everything
      have hrest {x : Stacks} (hnot : ¬ (Tables.merge s.here s₁.here = s.here ∧ s₁.held = s.held)) :
          (∃ passes bs u, untilSettled m passes s = .ok (bs, u) ∧ u.here = x.here ∧
            u.held = x.held) ↔
          ∃ passes bs u, untilSettled m passes (s.merged s₁) = .ok (bs, u) ∧ u.here = x.here ∧
            u.held = x.held := by
        constructor
        · rintro ⟨_ | passes, bs, u, hrun, hx⟩
          · exact nomatch hrun
          · rw [untilSettled_of_not hm hnot] at hrun
            obtain ⟨bs, _, hrun, hret⟩ := bind_eq_ok_iff.1 hrun
            cases hret
            exact ⟨passes, bs, _, hrun, hx⟩
        · rintro ⟨passes, bs, u, hrun, hx⟩
          refine ⟨passes + 1, a :: bs, u, ?_, hx⟩
          rw [untilSettled_of_not hm hnot, bind_of_ok hrun]; rfl
      by_cases hstop : Tables.merge s.here s₁.here = s.here
      · rw [untilStable_of_stop hm hstop] at h
        cases h
        by_cases hheld : s₁.held = s.held
        · -- it does: the tables are those before the pass, which is repeated
          have hclosed : Closed m (s.merged s₁) := by
            have hstart : s.merged s₁ = { s with module := s₁.module } := by
              show Stacks.mk _ _ _ = Stacks.mk _ _ _
              rw [hstop, hheld]
            rcases (hagain s₁.module (.refl _)).2 with ⟨_, hno, -⟩ | ⟨K, hrun, -⟩
            · exact hno.elim
            · rw [← hstart] at hrun
              refine ⟨a, _, hrun, ?_, List.forall₂_same.2 fun _ _ => .refl _⟩
              show Tables.Le s₁.here (Tables.merge s.here s₁.here)
              rw [hstop]
              exact Tables.le_of_merge_eq (hw hm).here.length_eq hstop
          refine iff_of_true hclosed ?_
          exact ⟨1, [a], _, untilSettled_of_stop hm hstop hheld, rfl, rfl⟩
        · rw [hrest fun h => hheld h.2]
          exact ⟨fun hc => ⟨1, settled_of_closed hw hc⟩,
            fun ⟨_, _, _, hrun, hhere, hheld⟩ => closed_of_settled hw hrun hhere hheld⟩
      · rw [untilStable_of_not hm hstop] at h
        obtain ⟨bs, _, h, hret⟩ := bind_eq_ok_iff.1 h
        cases hret
        rw [hrest fun h => hstop h.1]
        exact ih hs₁ h

/-- Without a block in force all passes look at all tables in sight. -/
theorem settled_of_held_nil (hnil : s.held = []) (h : untilStable m fuel s = .ok (as, t)) :
    untilSettled m fuel s = .ok (as, t) := by
  induction fuel generalizing s as with
  | zero => exact nomatch h
  | succ fuel ih =>
    cases hm : m s with
    | error e =>
      rw [untilStable_of_error hm] at h
      exact nomatch h
    | ok r =>
      have hheld : r.2.held = [] := by
        have := (hw hm).held
        rw [hnil] at this
        exact List.forall₂_nil_left_iff.1 this
      by_cases hstop : Tables.merge s.here r.2.here = s.here
      · rw [untilSettled_of_stop hm hstop (hheld.trans hnil.symm), ← h,
          untilStable_of_stop hm hstop]
      · rw [untilStable_of_not hm hstop] at h
        rw [untilSettled_of_not hm fun h => hstop h.1]
        obtain ⟨bs, _, h, hret⟩ := bind_eq_ok_iff.1 h
        cases hret
        rw [bind_of_ok (ih (s := s.merged r.2) hheld h)]
        rfl

end
end Flow

/-! ### On the arena -/

namespace Engine
variable {s t u : Engine} {i : ScopeId} {is : List ScopeId}

theorem le_stacks_iff (hapart : s.scopes.Apart (i :: is)) (ht : s.Extends t) :
    (t.toStacks i is).Le (s.toStacks i is) ↔
      ∀ j ∈ (i :: is).flatMap s.scopes.chain, (t.scopes.table j).Le (s.scopes.table j) := by
  have hhere := Scopes.forall₂_tables_iff (R := Bindings.Le) ht.scopes (.refl _) hapart.head_lt
  have hheld := Scopes.forall₂_map_tables_iff (R := Bindings.Le) ht.scopes (.refl _) hapart.tail.lt
  constructor
  · rintro ⟨hhere', hheld'⟩ j hj
    exact (List.mem_append.1 hj).elim (hhere.1 hhere' j) (hheld.1 hheld' j)
  · exact fun h => ⟨hhere.2 fun j hj => h j (List.mem_append.2 (.inl hj)),
      hheld.2 fun j hj => h j (List.mem_append.2 (.inr hj))⟩

end Engine

namespace Refines
variable {s₀ s t : Engine} {i : ScopeId} {is : List ScopeId} {m : Infer α} {n : Flow α} {a : α}

/-- Passes are closed on the arena if they are on stacks. -/
theorem closed_iff (hapart : s₀.scopes.Apart (i :: is)) (h : Refines s₀ i is m n)
    (hs : s₀.Extends s) : Infer.Closed m s ↔ Flow.Closed n (s.toStacks i is) := by
  have hapart := hapart.grown hs.scopes
  constructor
  · rintro ⟨a, t, hm, hle⟩
    obtain ⟨hn, hkeep⟩ := h.ok hs hm
    exact ⟨a, _, hn, (Engine.le_stacks_iff hapart hkeep.extends_).2 fun j hj =>
      hle j (hapart.lt_of_mem hj)⟩
  · rintro ⟨a, w, hn, hle⟩
    obtain ⟨t, hm, rfl, hkeep⟩ := h.of_ok hs hn
    refine ⟨a, t, hm, fun j hj => ?_⟩
    by_cases hmem : j ∈ (i :: is).flatMap s.scopes.chain
    · exact (Engine.le_stacks_iff hapart hkeep.extends_).1 hle j hmem
    · rw [hkeep.tables j hj hmem]; exact .refl _

/-- Two ends with the same tables on the arena are two ends with the same stacks. -/
theorem same_tables_iff (hapart : s.scopes.Apart (i :: is)) (h : Refines s i is m n)
    (ht : s.Keeps (i :: is) t) :
    (∃ a u, m s = .ok a u ∧ ∀ j < s.scopes.size, u.scopes.table j = t.scopes.table j) ↔
      ∃ a w, n (s.toStacks i is) = .ok (a, w) ∧ w.here = (t.toStacks i is).here ∧
        w.held = (t.toStacks i is).held := by
  constructor
  · rintro ⟨a, u, hm, hsame⟩
    obtain ⟨hn, hkeep⟩ := h.ok (.refl s) hm
    have htables (k : ScopeId) (hk : k ∈ i :: is) : u.scopes.tables k = t.scopes.tables k :=
      (Scopes.tables_eq_iff hkeep.extends_.scopes ht.extends_.scopes (hapart.lt k hk)).2 fun j hj =>
        hsame j (Scopes.lt_of_mem_chain (hapart.lt k hk) hj)
    exact ⟨a, _, hn, htables i List.mem_cons_self,
      List.map_congr_left fun k hk => htables k (List.mem_cons_of_mem i hk)⟩
  · rintro ⟨a, w, hn, hhere, hheld⟩
    obtain ⟨u, hm, rfl, hkeep⟩ := h.of_ok (.refl s) hn
    refine ⟨a, u, hm, fun j hj => ?_⟩
    by_cases hmem : j ∈ (i :: is).flatMap s.scopes.chain
    · obtain ⟨k, hk, hjk⟩ := List.mem_flatMap.1 hmem
      have htables : u.scopes.tables k = t.scopes.tables k := by
        rcases List.mem_cons.1 hk with rfl | hk
        · exact hhere
        · exact List.map_inj_left.1 hheld k hk
      exact (Scopes.tables_eq_iff hkeep.extends_.scopes ht.extends_.scopes (hapart.lt k hk)).1 htables j
        hjk
    · rw [hkeep.tables j hj hmem, ht.tables j hj hmem]

theorem tables {f : List (List Bindings) → Infer β} {g : List (List Bindings) → Flow β}
    (h : ∀ held, Refines s₀ i is (f held) (g held)) :
    Refines s₀ i is (Infer.tables is >>= f) (Flow.getHeld >>= g) :=
  fun s hs => h (is.map s.scopes.tables) hs

theorem untilSettled (hapart : s₀.scopes.Apart (i :: is)) (h : Refines s₀ i is m n) (fuel : Nat) :
    Refines s₀ i is (Infer.untilSettled i is m fuel) (Flow.untilSettled n fuel) := by
  induction fuel with
  | zero => exact fun s _ => ⟨s, rfl⟩
  | succ fuel ih =>
    refine snapshot hapart fun before hb => tables fun outside => h.bind hapart fun a =>
      snapshot hapart fun after ha => ?_
    have hlen : (s₀.scopes.chain i).length = (Tables.merge before after).length := by
      rw [Tables.merge, List.length_zipWith, ← hb, ← ha, Nat.min_self]
    rw [show Snapshot.merge _ _ = (s₀.scopes.chain i).zip (Tables.merge before after) from
      Snapshot.merge_zip _ _ _]
    refine (restore hapart hlen).bind hapart fun _ => tables fun held => ?_
    show Refines s₀ i is
      (ite ((s₀.scopes.chain i).zip (Tables.merge before after) = _ ∧ held = outside) _ _)
      (ite (Tables.merge before after = before ∧ held = outside) _ _)
    have hiff : _ ∧ held = outside ↔ _ ∧ held = outside := and_congr_left fun _ => zip_inj hlen hb
    by_cases hz : Tables.merge before after = before ∧ held = outside
    · rw [if_pos hz, if_pos (hiff.2 hz)]; exact give _
    · rw [if_neg hz, if_neg fun h => hz (hiff.1 h)]
      exact ih.bind hapart fun as => give _

theorem settledLoop (hapart : s₀.scopes.Apart s₀.context.sight) (fuel : Nat)
    {expr : Expr → Infer Ty} {flow : Expr → Flow Ty} {cond : Expr} {stmts : List Expr}
    (h : ∀ e, Refines s₀ s₀.context.scope (s₀.context.blocks.map BlockFrame.scope) (expr e) (flow e)) :
    Refines s₀ s₀.context.scope (s₀.context.blocks.map BlockFrame.scope)
      (Infer.settledLoop expr fuel cond stmts) (Flow.settledLoop flow fuel cond stmts) := by
  refine (h cond).bind hapart fun _ => context ?_
  exact ((loopPass hapart (h cond) fun e _ => h e).untilSettled hapart fuel).bind hapart
    fun _ => give _

end Refines

/-! ### Loops of a program -/

section
variable {p : Program} {s t : Engine}

theorem Engine.Fits.module_defFree (h : p.defsAtTop) (hs : s.Fits p) : s.module.DefFree := by
  intro m hm e he
  obtain ⟨d, hd, hform⟩ := (hs.methods m hm).occurs
  exact hd.defFree_part h (by rw [hform]; exact he)

theorem Engine.Fits.standing_defFree (h : p.defsAtTop) (hs : s.Fits p)
    (under : List (Definition Expr × Option Signature)) : (s.standing under).DefFree := by
  intro b hb e he
  obtain ⟨f, hf, rfl⟩ := List.mem_map.1 hb
  obtain ⟨d, name, span, args, hd, hform⟩ := (hs.frames f hf).occurs
  exact hd.defFree_part h (by rw [hform]; exact List.mem_append_right args he)

/-- A loop that ends well is closed under one more pass exactly if a loop that looks at all tables in
sight ends at the same tables, and without a block in force it always is. -/
theorem Engine.Fits.closed_iff (h : p.defsAtTop) (hs : s.Fits p) {cond : Expr} {stmts : List Expr}
    (hcond : cond.defFree) (hstmts : ∀ stmt ∈ stmts, stmt.defFree) {limit fuel : Nat} {ty : Ty}
    (hrun : Infer.loop (Infer.expr limit fuel) fuel cond stmts s = .ok ty t) :
    (Infer.Closed (Infer.loopPass (Infer.expr limit fuel) cond stmts) t ↔
      ∃ passes ty' t', Infer.settledLoop (Infer.expr limit fuel) passes cond stmts s = .ok ty' t' ∧
        ∀ i < s.scopes.size, t'.scopes.table i = t.scopes.table i) ∧
    (s.context.blocks = [] →
      Infer.Closed (Infer.loopPass (Infer.expr limit fuel) cond stmts) t) := by
  have hapart := hs.apart
  have hexpr := (follows_expr limit fuel []).refines hapart
  have hpass := Refines.loopPass hapart (hexpr cond) fun e (_ : e ∈ stmts) => hexpr e
  have hreplays {e : Expr} (he : e.defFree) :=
    Flow.replays_expr limit fuel (hs.standing_defFree h []) he
  have hwidens (e : Expr) := Flow.widens_expr .plain limit fuel (s.standing []) e
  have hw := Flow.Widens.loopPass (hwidens cond) fun e (_ : e ∈ stmts) => hwidens e
  have hr := (Flow.Replays.congruence learning).loopPass (hreplays hcond)
    fun e he => hreplays (hstmts e he)
  obtain ⟨hflow, hkeep⟩ :=
    (Refines.loop hapart rfl fuel (hexpr cond) fun e _ => hexpr e).ok (.refl s) hrun
  obtain ⟨_, s₁, h₁, hflow⟩ := Flow.bind_eq_ok_iff.1 hflow
  obtain ⟨as, w, hpasses, hret⟩ := Flow.bind_eq_ok_iff.1 hflow
  cases hret
  have hs₁ := (hreplays hcond (s := s.toStacks _ _) (hs.module_defFree h) h₁).1
  have hclosed := Flow.closed_iff_settled hw hr hs₁ hpasses
  rw [hpass.closed_iff hapart hkeep.extends_]
  refine ⟨hclosed.trans (exists_congr fun passes => Iff.symm ?_), fun hnil => hclosed.2 ?_⟩
  · refine (Refines.same_tables_iff hapart
      (Refines.settledLoop hapart passes hexpr) hkeep).trans ?_
    constructor
    · rintro ⟨ty', w, hw, hsame⟩
      obtain ⟨_, s₂, h₂, hw⟩ := Flow.bind_eq_ok_iff.1 hw
      cases h₁.symm.trans h₂
      obtain ⟨bs, u, hsettled, hret⟩ := Flow.bind_eq_ok_iff.1 hw
      cases hret
      exact ⟨bs, _, hsettled, hsame⟩
    · rintro ⟨bs, u, hsettled, hsame⟩
      refine ⟨.nil, u, ?_, hsame⟩
      rw [Flow.settledLoop, Flow.bind_of_ok h₁, Flow.bind_of_ok hsettled]; rfl
  · refine ⟨fuel, as, _, Flow.settled_of_held_nil hw ?_ hpasses, rfl, rfl⟩
    have := (hwidens cond h₁).held
    rw [Engine.toStacks, hnil] at this
    exact List.forall₂_nil_left_iff.1 this

/-- What one more pass does behind the loops of a run. -/
theorem Program.always_closed_iff (p : Program) (limit : Nat) (h : p.defsAtTop) :
    p.Always limit fun e s => ∀ cond stmts, e.form = .loop cond stmts → ∀ fuel ty t,
      Infer.loop (Infer.expr limit fuel) fuel cond stmts s = .ok ty t →
      (Infer.Closed (Infer.loopPass (Infer.expr limit fuel) cond stmts) t ↔
        ∃ passes ty' t', Infer.settledLoop (Infer.expr limit fuel) passes cond stmts s = .ok ty' t' ∧
          ∀ i < s.scopes.size, t'.scopes.table i = t.scopes.table i) ∧
      (s.context.blocks = [] →
        Infer.Closed (Infer.loopPass (Infer.expr limit fuel) cond stmts) t) := by
  refine (p.always_visits limit).mono fun e s hvisits cond stmts hform fuel ty t hrun => ?_
  have hpart {part : Expr} (hp : part ∈ e.form.parts) := hvisits.has.defFree_part h hp
  rw [hform] at hpart
  exact hvisits.fits.closed_iff h (hpart List.mem_cons_self)
    (fun stmt hs => hpart (List.mem_cons_of_mem cond hs)) hrun

end

/-! ### A loop that stops too early -/

/-- Loops that end well are closed under one more pass. -/
def Infer.ClosesLoops (limit : Nat) (e : Expr) (s : Engine) : Prop :=
  ∀ cond stmts, e.form = .loop cond stmts → ∀ fuel ty t,
    loop (expr limit fuel) fuel cond stmts s = .ok ty t → Closed (loopPass (expr limit fuel) cond stmts) t

namespace Handover

/-- A method that keeps what its block hands out, which is what the block was given the time before:
`x = nil`, a loop over `x = yield(nil)` and `yield('a')`, and `x`. -/
def method : Definition Expr where
  name := .bare "m"
  params := []
  body :=
    [.bare (.assign (.bare "x") (.bare (.literal .nil))),
      .bare (.loop (.bare (.literal (.bool true)))
        [.bare (.assign (.bare "x") (.bare (.yield [.bare (.literal .nil)]))),
          .bare (.yield [.bare (.literal (.char 'a'))])]),
      .bare (.var "x")]

/-- `r = q`, `q = p` and `r`, for `p`. -/
def block : Block Expr where
  id := 0
  span := ⟨0, 0⟩
  params := [.bare "p"]
  body :=
    [.bare (.assign (.bare "r") (.bare (.var "q"))), .bare (.assign (.bare "q") (.bare (.var "p"))),
      .bare (.var "r")]

def program : Program where
  stmts :=
    [.bare (.define method), .bare (.assign (.bare "q") (.bare (.literal .nil))),
      .bare (.call "m" ⟨0, 0⟩ [] (some block))]

/-- The evaluations of a loop behind which `x`, in the scope of the method, is `Nil` and no longer so
after one more pass. -/
def unclosed (e : Expr) (s : Engine) : Bool :=
  match e.form with
  | .loop cond stmts =>
    match Infer.loop (Infer.expr 64 40) 40 cond stmts s with
    | .ok _ t =>
      match Infer.loopPass (Infer.expr 64 40) cond stmts t with
      | .ok _ u => 1 < t.scopes.size && (t.scopes.table 1).get? "x" == some .nil &&
          (u.scopes.table 1).get? "x" == some (Ty.nil.join .char)
      | .error _ _ => false
    | .error _ _ => false
  | _ => false

theorem not_closesLoops_of_unclosed {e : Expr} {s : Engine} (h : unclosed e s = true) :
    ¬ Infer.ClosesLoops 64 e s := by
  intro hcloses
  unfold unclosed at h
  split at h
  · next cond stmts hform =>
    split at h
    · next ty t hrun =>
      obtain ⟨ty', u, hpass, hle⟩ := hcloses cond stmts hform 40 ty t hrun
      rw [hpass] at h
      simp only [Bool.and_eq_true, decide_eq_true_eq, beq_iff_eq] at h
      obtain ⟨⟨hlt, ht⟩, hu⟩ := h
      obtain ⟨v, hv, hcov⟩ := hle 1 hlt "x" _ hu
      cases ht.symm.trans hv
      exact absurd hcov (by decide)
    · exact absurd h Bool.false_ne_true
  · exact absurd h Bool.false_ne_true

end Handover

/-- It applies to a program whose loop is not closed. -/
theorem Program.always_closed_handover :
    Handover.program.defsAtTop = true ∧
      Handover.program.Always 64 fun e s => s.context.blocks = [] → Infer.ClosesLoops 64 e s := by
  have h : Handover.program.defsAtTop = true := by decide +kernel
  refine ⟨h, (Handover.program.always_closed_iff 64 h).mono fun e s hloop hnil => ?_⟩
  exact fun cond stmts hform fuel ty t hrun => (hloop cond stmts hform fuel ty t hrun).2 hnil

/-- With a block in force a loop may stop although one more pass adds to a local name. -/
theorem Program.not_always_closed_handover :
    Handover.program.defsAtTop = true ∧ ¬ Handover.program.Always 64 (Infer.ClosesLoops 64) := by
  refine ⟨by decide +kernel, fun h => ?_⟩
  have hrun : (match Infer.body (Infer.exprUntil Handover.unclosed 64 (Handover.program.fuel 64))
      Handover.program.stmts .initial with
    | .error .outOfFuel _ => true
    | _ => false) = true := by decide +kernel
  split at hrun
  · next s heq => exact h _ (fun e s => Handover.not_closesLoops_of_unclosed) s heq
  · exact nomatch hrun

end FlowTyping
