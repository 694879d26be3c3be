import FlowTyping.Proofs.Learning
import Mathlib.Data.List.Pairwise

/-!
# Where an expression is written

A site is an expression together with the bodies that it is written inside of and with what becomes of
its type.  `Program.sites` are all sites of a program, each once.  Where the identities in a program
are distinct (`Program.ids`), an identity belongs to one site only (`Program.site_unique`).
-/

namespace FlowTyping

/-- A body that other expressions are written in. -/
inductive Enclosure where
  | method (d : Definition Expr)
  | block (b : Block Expr)

/-- The method of the innermost body of a method, from the inside outwards.  A block belongs to the
method that it is written in. -/
def Enclosure.method? : List Enclosure → Option String
  | [] => none
  | method d :: _ => some d.name.name
  | block _ :: outer => method? outer

/-- What becomes of the type of an expression. -/
inductive Sink where
  | nothing
  /-- It goes into the type of a node. -/
  | node (id : NodeId)
  /-- It is the type of an argument. -/
  | argument (method : String) (i : Nat)
  /-- It is what a method returns. -/
  | returns (method : String)
  /-- It is the type of a top-level statement. -/
  | statement
deriving DecidableEq

structure Site where
  /-- The bodies around the expression, the innermost one first. -/
  outer : List Enclosure
  sink : Sink
  expr : Expr

namespace Site
variable {s q r : Site} {outer : List Enclosure} {k : Sink} {stmts : List Expr}

/-- The sites of statements, of which the last one gives the type of the whole. -/
def body (outer : List Enclosure) (k : Sink) : List Expr → List Site
  | [] => []
  | [e] => [⟨outer, k, e⟩]
  | e :: next :: stmts => ⟨outer, .nothing, e⟩ :: body outer k (next :: stmts)

def arguments (outer : List Enclosure) (name : String) (args : List Expr) : List Site :=
  args.zipIdx.map fun (arg, i) => ⟨outer, .argument name i, arg⟩

/-- The sites of the parts of an expression, in source order. -/
def parts (s : Site) : List Site :=
  match s.expr.form with
  | .literal _ => []
  | .var _ => []
  | .assign _ value => [⟨s.outer, .node s.expr.id, value⟩]
  | .call name _ args none => arguments s.outer name args
  | .call name _ args (some b) =>
    arguments s.outer name args ++ body (.block b :: s.outer) (.node b.id) b.body
  | .yield args => args.map fun arg => ⟨s.outer, .nothing, arg⟩
  | .branch cond thenBody elseBody =>
    ⟨s.outer, .nothing, cond⟩ :: (body s.outer (.node s.expr.id) thenBody ++
      body s.outer (.node s.expr.id) (elseBody.getD []))
  | .loop cond stmts => ⟨s.outer, .nothing, cond⟩ :: body s.outer .nothing stmts
  | .define d => body (.method d :: s.outer) (.returns d.name.name) d.body

theorem map_expr_body : (body outer k stmts).map Site.expr = stmts := by
  induction stmts with
  | nil => rfl
  | cons e stmts ih =>
    cases stmts with
    | nil => rfl
    | cons next stmts => rw [body, List.map_cons, ih]

theorem map_expr_arguments (name : String) (args : List Expr) :
    (arguments outer name args).map Site.expr = args := by
  rw [arguments, List.map_map]
  exact List.zipIdx_map_fst 0 args

theorem map_expr_parts (s : Site) : s.parts.map Site.expr = s.expr.form.parts := by
  unfold parts
  rcases s.expr.form with _ | _ | _ | ⟨_, _, _, _ | _⟩ | _ | ⟨_, _, _ | _⟩ | _ | _ <;>
    simp [Form.parts, map_expr_body, map_expr_arguments, Function.comp_def, body]

theorem expr_mem_parts (h : q ∈ s.parts) : q.expr ∈ s.expr.form.parts := by
  rw [← map_expr_parts]; exact List.mem_map_of_mem h

theorem sizeOf_expr_lt (h : q ∈ s.parts) : sizeOf q.expr < sizeOf s.expr := by
  have hlt := Expr.sizeOf_lt_of_mem_parts (expr_mem_parts h)
  rw [Expr.eta s.expr, Expr.node.sizeOf_spec]
  omega

/-- The site itself and all sites inside it, in source order. -/
def within (s : Site) : List Site := s :: s.parts.attach.flatMap fun q => within q.1
termination_by sizeOf s.expr
decreasing_by exact sizeOf_expr_lt q.2

theorem within_eq (s : Site) : s.within = s :: s.parts.flatMap within := by
  rw [within]
  congr 1
  simp [List.flatMap_def]

theorem induction {motive : Site → Prop} (step : ∀ s, (∀ q ∈ s.parts, motive q) → motive s)
    (s : Site) : motive s :=
  step s fun q _ => induction step q
termination_by sizeOf s.expr
decreasing_by exact sizeOf_expr_lt ‹_›

theorem mem_within_self (s : Site) : s ∈ s.within := by rw [within_eq]; exact List.mem_cons_self

theorem mem_within_iff : r ∈ s.within ↔ r = s ∨ ∃ q ∈ s.parts, r ∈ q.within := by
  rw [within_eq, List.mem_cons, List.mem_flatMap]

theorem mem_within_part (hr : r ∈ s.within) (hq : q ∈ r.parts) : q ∈ s.within := by
  induction s using induction with
  | step s ih =>
    rcases mem_within_iff.1 hr with rfl | ⟨t, ht, hrt⟩
    · exact mem_within_iff.2 (.inr ⟨q, hq, mem_within_self q⟩)
    · exact mem_within_iff.2 (.inr ⟨t, ht, ih t ht hrt⟩)

/-! ### Parts -/

theorem mem_body (h : q ∈ body outer k stmts) :
    q.outer = outer ∧ q.expr ∈ stmts ∧ (q.sink = .nothing ∨ q.sink = k) := by
  induction stmts with
  | nil => exact absurd h List.not_mem_nil
  | cons e stmts ih =>
    cases stmts with
    | nil => rw [List.mem_singleton.1 h]; exact ⟨rfl, List.mem_singleton_self e, .inr rfl⟩
    | cons next stmts =>
      rcases List.mem_cons.1 h with rfl | h
      · exact ⟨rfl, List.mem_cons_self, .inl rfl⟩
      · obtain ⟨houter, hmem, hsink⟩ := ih h
        exact ⟨houter, List.mem_cons_of_mem e hmem, hsink⟩

theorem last_mem_body {e : Expr} (h : stmts.getLast? = some e) :
    (⟨outer, k, e⟩ : Site) ∈ body outer k stmts := by
  induction stmts with
  | nil => exact nomatch h
  | cons first stmts ih =>
    cases stmts with
    | nil => cases h; exact List.mem_singleton_self _
    | cons next stmts => exact List.mem_cons_of_mem _ (ih (by simpa using h))

theorem argument_mem {name : String} {args : List Expr} {i : Nat} {arg : Expr}
    (h : args[i]? = some arg) : (⟨outer, .argument name i, arg⟩ : Site) ∈ arguments outer name args := by
  refine List.mem_map.2 ⟨(arg, i), ?_, rfl⟩
  rw [List.mk_mem_zipIdx_iff_getElem?]
  exact h

theorem mem_arguments {name : String} {args : List Expr} (h : q ∈ arguments outer name args) :
    q.outer = outer ∧ ∃ i, q.sink = .argument name i ∧ args[i]? = some q.expr := by
  obtain ⟨⟨arg, i⟩, hmem, rfl⟩ := List.mem_map.1 h
  rw [List.mk_mem_zipIdx_iff_getElem?] at hmem
  exact ⟨rfl, i, rfl, hmem⟩

theorem sink_ne_statement (h : q ∈ s.parts) : q.sink ≠ .statement := by
  have hbody {outer : List Enclosure} {k : Sink} {stmts : List Expr}
      (h : q ∈ body outer k stmts) (hk : k ≠ .statement) : q.sink ≠ .statement := by
    rcases (mem_body h).2.2 with hs | hs
    · rw [hs]; exact nofun
    · rw [hs]; exact hk
  have hargs {name : String} {args : List Expr} (h : q ∈ arguments s.outer name args) :
      q.sink ≠ .statement := by
    obtain ⟨-, i, hs, -⟩ := mem_arguments h
    rw [hs]; exact nofun
  unfold parts at h
  split at h
  · exact absurd h List.not_mem_nil
  · exact absurd h List.not_mem_nil
  · rw [List.mem_singleton.1 h]; exact nofun
  · exact hargs h
  · rcases List.mem_append.1 h with h | h
    · exact hargs h
    · exact hbody h nofun
  · obtain ⟨arg, -, rfl⟩ := List.mem_map.1 h; exact nofun
  · rcases List.mem_cons.1 h with rfl | h
    · exact nofun
    · rcases List.mem_append.1 h with h | h <;> exact hbody h nofun
  · rcases List.mem_cons.1 h with rfl | h
    · exact nofun
    · exact hbody h nofun
  · exact hbody h nofun

theorem outer_suffix_of_part (h : q ∈ s.parts) : s.outer <:+ q.outer := by
  have hbody {outer : List Enclosure} {k : Sink} {stmts : List Expr} (houter : s.outer <:+ outer)
      (h : q ∈ body outer k stmts) : s.outer <:+ q.outer := by rw [(mem_body h).1]; exact houter
  have hargs {name : String} {args : List Expr} (h : q ∈ arguments s.outer name args) :
      s.outer <:+ q.outer := by rw [(mem_arguments h).1]
  have hcons (enclosure : Enclosure) : s.outer <:+ enclosure :: s.outer := List.suffix_cons _ _
  unfold parts at h
  split at h
  · exact absurd h List.not_mem_nil
  · exact absurd h List.not_mem_nil
  · rw [List.mem_singleton.1 h]
  · exact hargs h
  · exact (List.mem_append.1 h).elim hargs (hbody (hcons _))
  · obtain ⟨arg, -, rfl⟩ := List.mem_map.1 h; exact List.suffix_rfl
  · rcases List.mem_cons.1 h with rfl | h
    · exact List.suffix_rfl
    · exact (List.mem_append.1 h).elim (hbody List.suffix_rfl) (hbody List.suffix_rfl)
  · rcases List.mem_cons.1 h with rfl | h
    · exact List.suffix_rfl
    · exact hbody List.suffix_rfl h
  · exact hbody (hcons _) h

theorem outer_suffix_of_within (h : r ∈ s.within) : s.outer <:+ r.outer := by
  induction s using induction with
  | step s ih =>
    rcases mem_within_iff.1 h with rfl | ⟨q, hq, hr⟩
    · exact List.suffix_rfl
    · exact (outer_suffix_of_part hq).trans (ih q hq hr)

end Site

/-! ### Identities -/

/-- The identities that belong to a node itself. -/
def Expr.own (e : Expr) : List NodeId := e.id :: e.form.places.map Place.id

/-- All identities in an expression. -/
def Expr.ids : Expr → List NodeId := fold fun id _ form =>
  id :: (form.places.map Place.id ++ form.parts.flatten)

theorem Expr.ids_eq (e : Expr) : e.ids = e.own ++ e.form.parts.flatMap ids := by
  rw [eta e, ids, fold_node, Form.places_map, Form.parts_map, ← List.flatMap_def]; rfl

theorem Expr.id_mem_ids (e : Expr) : e.id ∈ e.ids := by
  rw [ids_eq]
  exact List.mem_append_left _ List.mem_cons_self

/-- All identities in a program. -/
def Program.ids (p : Program) : List NodeId := p.stmts.flatMap Expr.ids

theorem Site.flatMap_own_within (s : Site) :
    s.within.flatMap (fun q => q.expr.own) = s.expr.ids := by
  induction s using Site.induction with
  | step s ih =>
    rw [within_eq, List.flatMap_cons, Expr.ids_eq, ← map_expr_parts, List.flatMap_assoc,
      List.flatMap_map]
    congr 1
    exact List.flatMap_congr ih

theorem Site.exists_of_mem_ids_body (outer : List Enclosure) (k : Sink) {stmts : List Expr}
    {n : NodeId} (h : n ∈ stmts.flatMap Expr.ids) :
    ∃ q ∈ body outer k stmts, ∃ r ∈ q.within, n ∈ r.expr.own := by
  obtain ⟨e, he, hn⟩ := List.mem_flatMap.1 h
  have hmap : (body outer k stmts).map Site.expr = stmts := map_expr_body
  rw [← hmap] at he
  obtain ⟨q, hq, rfl⟩ := List.mem_map.1 he
  rw [← flatMap_own_within] at hn
  exact ⟨q, hq, List.mem_flatMap.1 hn⟩

/-! ### Sites of a program -/

namespace Program
variable {p : Program} {s q : Site} {e : Expr}

/-- All sites of a program, in source order. -/
def sites (p : Program) : List Site := p.stmts.flatMap fun e => Site.within ⟨[], .statement, e⟩

theorem mem_sites_iff : s ∈ p.sites ↔ ∃ e ∈ p.stmts, s ∈ Site.within ⟨[], .statement, e⟩ :=
  List.mem_flatMap

theorem stmt_mem_sites (h : e ∈ p.stmts) : (⟨[], .statement, e⟩ : Site) ∈ p.sites :=
  mem_sites_iff.2 ⟨e, h, Site.mem_within_self _⟩

theorem part_mem_sites (hs : s ∈ p.sites) (hq : q ∈ s.parts) : q ∈ p.sites := by
  obtain ⟨e, he, hs⟩ := mem_sites_iff.1 hs
  exact mem_sites_iff.2 ⟨e, he, Site.mem_within_part hs hq⟩

/-- What holds of the top-level statements and goes on to parts holds of all sites. -/
theorem site_induction {motive : Site → Prop} (stmt : ∀ e ∈ p.stmts, motive ⟨[], .statement, e⟩)
    (part : ∀ s ∈ p.sites, motive s → ∀ q ∈ s.parts, motive q) (hs : s ∈ p.sites) : motive s := by
  have key (t : Site) : t ∈ p.sites → motive t → s ∈ t.within → motive s := by
    induction t using Site.induction with
    | step t ih =>
      intro ht hmotive hst
      rcases Site.mem_within_iff.1 hst with rfl | ⟨q, hq, hsq⟩
      · exact hmotive
      · exact ih q hq (part_mem_sites ht hq) (part t ht hmotive q hq) hsq
  obtain ⟨e, he, hs⟩ := mem_sites_iff.1 hs
  exact key _ (stmt_mem_sites he) (stmt e he) hs

theorem Has.site (h : p.Has e) : ∃ s ∈ p.sites, s.expr = e := by
  induction h with
  | stmt h => exact ⟨_, stmt_mem_sites h, rfl⟩
  | part _ hp ih =>
    obtain ⟨s, hs, rfl⟩ := ih
    rw [← Site.map_expr_parts] at hp
    obtain ⟨q, hq, rfl⟩ := List.mem_map.1 hp
    exact ⟨q, part_mem_sites hs hq, rfl⟩

theorem within_mem_sites (hs : s ∈ p.sites) (hq : q ∈ s.within) : q ∈ p.sites := by
  induction s using Site.induction with
  | step s ih =>
    rcases Site.mem_within_iff.1 hq with rfl | ⟨r, hr, hqr⟩
    · exact hs
    · exact ih r hr (part_mem_sites hs hr) hqr

theorem sink_eq_statement (h : s ∈ p.sites) (hk : s.sink = .statement) :
    s.outer = [] ∧ s.expr ∈ p.stmts := by
  revert hk
  refine site_induction (motive := fun s => s.sink = .statement → s.outer = [] ∧ s.expr ∈ p.stmts)
    (fun e he _ => ⟨rfl, he⟩) (fun _ _ _ q hq hk => ?_) h
  exact absurd hk (Site.sink_ne_statement hq)

theorem statement_of_define (hp : p.defsAtTop) (hs : s ∈ p.sites) {d : Definition Expr}
    (hform : s.expr.form = .define d) : s.sink = .statement := by
  obtain ⟨e, he, hmem⟩ := mem_sites_iff.1 hs
  rcases Site.mem_within_iff.1 hmem with rfl | ⟨q, hq, hsq⟩
  · rfl
  have hfree : q.expr.defFree :=
    List.all_eq_true.1 (List.all_eq_true.1 hp e he) _ (Site.expr_mem_parts hq)
  have key (t : Site) : t.expr.defFree → s ∈ t.within → s.expr.defFree := by
    induction t using Site.induction with
    | step t ih =>
      intro hfree hst
      rcases Site.mem_within_iff.1 hst with rfl | ⟨r, hr, hsr⟩
      · exact hfree
      · exact ih r hr (Expr.defFree_part hfree (Site.expr_mem_parts hr)) hsr
  exact absurd hform (Expr.not_define_of_defFree (key q hfree hsq) d)

theorem flatMap_own_sites (p : Program) : p.sites.flatMap (fun s => s.expr.own) = p.ids := by
  rw [sites, List.flatMap_assoc, ids]
  exact List.flatMap_congr fun e _ => Site.flatMap_own_within _

section
variable (h : p.ids.Nodup)
include h

/-- An identity belongs to one site. -/
theorem site_unique (hs : s ∈ p.sites) (hq : q ∈ p.sites) {n : NodeId} (hns : n ∈ s.expr.own)
    (hnq : n ∈ q.expr.own) : s = q := by
  rw [← flatMap_own_sites, List.nodup_flatMap] at h
  have : Std.Symm (Function.onFun List.Disjoint fun s : Site => s.expr.own) :=
    ⟨fun _ _ hab => hab.symm⟩
  by_contra hne
  exact h.2.forall hs hq hne hns hnq

theorem nodup_own (hs : s ∈ p.sites) : s.expr.own.Nodup := by
  rw [← flatMap_own_sites, List.nodup_flatMap] at h
  exact h.1 s hs

theorem nodup_stmts : (p.stmts.map Expr.id).Nodup := by
  rw [ids, List.nodup_flatMap] at h
  refine List.pairwise_map.2 (h.2.imp fun hdisjoint heq => hdisjoint (Expr.id_mem_ids _) ?_)
  rw [heq]
  exact Expr.id_mem_ids _

end

end Program
end FlowTyping
