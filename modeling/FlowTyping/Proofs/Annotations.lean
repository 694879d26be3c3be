import FlowTyping.Proofs.Accounts

/-!
# The table of types is consistent

Nodes are looked at many times, and each time the type is added to what is in the table.  In the end
the table looks as if each node had been looked at once: the type of a node comes from the types of its
parts in the table (`Module.AgreesAt`, `Program.agreesAt_of_infer`).  This needs distinct identities.
On the way a part may have been seen to be more than its node, by what is on its way to the node
(`Account.flow`), and nodes in a block have types before the block has one (`Account.enclosed`).
-/

namespace FlowTyping

/-! ### Places -/

namespace Form

/-- The block of a call. -/
def block? : Form α → Option (Block α)
  | call _ _ _ block => block
  | _ => none

/-- The parameters of a block or of a method. -/
def params : Form α → List Ident
  | call _ _ _ (some b) => b.params
  | define d => d.params
  | _ => []

theorem eq_call_of_block {form : Form α} {b : Block α} (hb : form.block? = some b) :
    ∃ name nameSpan args, form = .call name nameSpan args (some b) := by
  cases form with
  | call name nameSpan args block =>
    cases hb
    exact ⟨name, nameSpan, args, rfl⟩
  | _ => exact nomatch hb

theorem mem_params_of_block {form : Form α} {b : Block α} {param : Ident} (hb : form.block? = some b)
    (h : param ∈ b.params) : param ∈ form.params := by
  obtain ⟨name, nameSpan, args, rfl⟩ := eq_call_of_block hb
  exact h

end Form

/-- The places of a node that have types, apart from parameters. -/
def Expr.subjects (e : Expr) : List NodeId :=
  e.id :: (e.form.targets.map Ident.id ++ e.form.block?.toList.map Block.id)

theorem Expr.sublist_own (e : Expr) :
    (e.subjects ++ e.form.params.map Ident.id).Sublist e.own := by
  have hplaces (params : List Ident) :
      params.map (Place.id ∘ Ident.place) = params.map Ident.id := rfl
  unfold subjects own
  refine List.Sublist.cons_cons e.id ?_
  rcases e.form with _ | _ | ⟨t, _⟩ | ⟨_, _, _, _ | b⟩ | _ | _ | _ | d
  case define =>
    show (d.params.map Ident.id).Sublist _
    rw [Form.places, List.map_cons, List.map_map, hplaces]
    exact List.sublist_cons_self _ _
  all_goals simp [Form.targets, Form.block?, Form.params, Form.places, Ident.place, hplaces]

namespace Expr
variable {e : Expr} {n : NodeId} {param : Ident}

theorem subject_mem_own (h : n ∈ e.subjects) : n ∈ e.own :=
  e.sublist_own.mem (List.mem_append_left _ h)

theorem block_mem_subjects {b : Block Expr} (h : e.form.block? = some b) : b.id ∈ e.subjects := by
  unfold subjects
  rw [h]
  exact List.mem_cons_of_mem _ (List.mem_append_right _ (List.mem_singleton_self b.id))

theorem mem_params_of_zip {d : Definition Expr} {signature : Signature} {param : Ident × Ty}
    (hform : e.form = .define d) (h : param ∈ d.params.zip signature) : param.1 ∈ e.form.params := by
  rw [hform]
  exact (List.of_mem_zip h).1

theorem param_mem_own (h : param ∈ e.form.params) : param.id ∈ e.own :=
  e.sublist_own.mem (List.mem_append_right _ (List.mem_map_of_mem h))

end Expr

theorem Infer.mem_of_paramTypes {params : List Ident} {signature : Signature} {param : Ident × Ty}
    (h : param ∈ paramTypes params signature) : param.1 ∈ params := by
  obtain ⟨⟨i, j⟩, hmem, rfl⟩ := List.mem_map.1 h
  exact List.fst_mem_of_mem_zipIdx hmem

namespace Program
variable {p : Program} {s q : Site} {n : NodeId} {param : Ident} (hids : p.ids.Nodup)
include hids

theorem param_notMem_subjects (hs : s ∈ p.sites) (hq : q ∈ p.sites)
    (hparam : param ∈ s.expr.form.params) : param.id ∉ q.expr.subjects := by
  intro hmem
  obtain rfl := site_unique hids hs hq (Expr.param_mem_own hparam) (Expr.subject_mem_own hmem)
  have hnodup := (nodup_own hids hs).sublist (Expr.sublist_own _)
  exact (List.nodup_append.1 hnodup).2.2 _ hmem _ (List.mem_map_of_mem hparam) rfl

theorem id_ne_block {b : Block Expr} (hs : s ∈ p.sites) (hq : q ∈ p.sites)
    (hb : s.expr.form.block? = some b) : q.expr.id ≠ b.id := by
  intro heq
  have hmem : b.id ∈ s.expr.own := Expr.subject_mem_own (Expr.block_mem_subjects hb)
  obtain rfl := site_unique hids hs hq hmem (heq ▸ List.mem_cons_self)
  have hnodup := ((nodup_own hids hs).sublist (Expr.sublist_own _)).of_append_left
  refine (List.nodup_cons.1 hnodup).1 (List.mem_append_right _ ?_)
  rw [hb, heq]
  exact List.mem_singleton_self b.id

theorem site_of_define {d : Definition Expr} (hs : s ∈ p.sites) (hq : q ∈ p.sites)
    (hsform : s.expr.form = .define d) (hqform : q.expr.form = .define d) : s = q := by
  have hname {s : Site} (hform : s.expr.form = .define d) : d.name.id ∈ s.expr.own := by
    unfold Expr.own
    rw [hform]
    exact List.mem_cons_of_mem _ List.mem_cons_self
  exact site_unique hids hs hq (hname hsform) (hname hqform)

theorem site_of_block {b : Block Expr} (hs : s ∈ p.sites) (hq : q ∈ p.sites)
    (hsb : s.expr.form.block? = some b) (hqb : q.expr.form.block? = some b) : s = q :=
  site_unique hids hs hq (Expr.subject_mem_own (Expr.block_mem_subjects hsb))
    (Expr.subject_mem_own (Expr.block_mem_subjects hqb))

theorem notMem_subjects (hs : s ∈ p.sites) (hq : q ∈ p.sites) (hne : q ≠ s) (hn : n ∈ q.expr.own) :
    n ∉ s.expr.subjects :=
  fun hmem => hne (site_unique hids hq hs hn (Expr.subject_mem_own hmem))

variable {M : Module} {x : String}

/-- Parameters are seen apart from nodes. -/
theorem sees_of_recordParams {params : List (Ident × Ty)} (hs : s ∈ p.sites) (hq : q ∈ p.sites)
    (hparams : ∀ param ∈ params, param.1 ∈ s.expr.form.params) (hn : n ∈ q.expr.subjects)
    (h : (M.recordParams params).Sees n x) : M.Sees n x := by
  rcases Module.sees_recordParams.1 h with h | ⟨param, hparam, rfl, -⟩
  · exact h
  · exact absurd hn (param_notMem_subjects hids hs hq (hparams param hparam))

/-- The type of a block is not that of a node. -/
theorem sees_of_record_block {b : Block Expr} {ty : Ty} (hs : s ∈ p.sites)
    (hb : s.expr.form.block? = some b) (hq : q ∈ p.sites)
    (h : (M.record b.id ty).Sees q.expr.id x) : M.Sees q.expr.id x :=
  (Module.sees_record.1 h).resolve_right fun ⟨heq, _⟩ => id_ne_block hids hs hq hb heq

theorem sees_of_enter {m : Method} {signature : Signature} {block : Option (Block Expr)}
    (hs : s ∈ p.sites) (hform : s.expr.form = .define m.definition) (hq : q ∈ p.sites)
    (hn : n ∈ q.expr.subjects) (h : (M.enter m signature block).Sees n x) : M.Sees n x := by
  have hparams (param : Ident × Ty) : param ∈ m.definition.params.zip signature →
      param.1 ∈ s.expr.form.params := Expr.mem_params_of_zip hform
  cases block with
  | none => exact sees_of_recordParams (M := M.updateMethod m.name _) hids hs hq hparams hn h
  | some b => exact sees_of_recordParams hids hs hq hparams hn h

end Program

/-! ### What is in the table -/

namespace Module
variable {M N : Module} {e : Expr} {stmts : List Expr} {x : String} {ty : Ty} {n : NodeId}

/-- What is seen of a node does not change what was seen elsewhere. -/
theorem sees_of_settle (h : (M.settle e ty).Sees n x) (hn : n ∉ e.subjects) : M.Sees n x := by
  refine (sees_settle.1 h).resolve_right fun ⟨hid, _⟩ => hn ?_
  rcases hid with rfl | ⟨t, ht, rfl⟩
  · exact List.mem_cons_self
  · exact List.mem_cons_of_mem _ (List.mem_append_left _ (List.mem_map_of_mem ht))

theorem sees_of_record_block {b : Block Expr} (h : (M.record b.id ty).Sees n x)
    (hb : e.form.block? = some b) (hn : n ∉ e.subjects) : M.Sees n x := by
  refine (sees_record.1 h).resolve_right fun ⟨hid, _⟩ => hn ?_
  rw [hid]
  exact Expr.block_mem_subjects hb

theorem seen_recordParams {params : List (Ident × Ty)} (h : (M.recordParams params).Seen n) :
    M.Seen n ∨ ∃ param ∈ params, n = param.1.id := by
  obtain ⟨x, hx⟩ := h
  refine (sees_recordParams.1 hx).imp (fun hx => ⟨x, hx⟩) ?_
  exact fun ⟨param, hparam, hn, _⟩ => ⟨param, hparam, hn⟩

/-- The type that statements have by the table: that of the last one, and `Nil` if there is none. -/
def bodyType? (M : Module) (stmts : List Expr) : Option Ty :=
  match stmts.getLast? with
  | none => some .nil
  | some e => M.typeOf? e.id

/-- The type of a node is the one that it has by the types of its parts. -/
def AgreesAt (M : Module) (e : Expr) : Prop :=
  match e.form with
  | .literal v => ∀ ty, M.typeOf? e.id = some ty → ty = v.type
  | .assign target value =>
    M.typeOf? e.id = M.typeOf? target.id ∧ M.typeOf? e.id = M.typeOf? value.id
  | .branch _ thenBody elseBody =>
    ∀ ty, M.typeOf? e.id = some ty → ∃ thenType elseType, M.bodyType? thenBody = some thenType ∧
      M.bodyType? (elseBody.getD []) = some elseType ∧ ty = thenType.join elseType
  | .loop _ _ | .define _ => ∀ ty, M.typeOf? e.id = some ty → ty = .nil
  | .call _ _ _ (some b) =>
    (∀ ty, M.typeOf? b.id = some ty → M.bodyType? b.body = some ty) ∧
      ∀ n ∈ b.params.map Ident.id ++ b.body.flatMap Expr.ids,
        (M.typeOf? n).isSome → (M.typeOf? b.id).isSome
  | _ => True

/-- What statements were seen to be. -/
def BodySees (M : Module) (stmts : List Expr) (x : String) : Prop :=
  match stmts.getLast? with
  | none => x ∈ Ty.nil
  | some e => M.Sees e.id x

theorem BodySees.grow (hg : M.Grows N) (h : M.BodySees stmts x) : N.BodySees stmts x := by
  unfold BodySees at h ⊢
  split at h
  · exact h
  · exact hg _ x h

theorem bodySees_of_lastDue (hdue : ∀ due ∈ lastDue stmts ty, M.SeesAll due.1 due.2)
    (hnil : stmts = [] → ty = .nil) (hx : x ∈ ty) : M.BodySees stmts x := by
  unfold BodySees
  split
  · next hlast => rwa [hnil (List.getLast?_eq_none_iff.1 hlast)] at hx
  · next e hlast =>
    refine hdue (e.id, ty) ?_ x hx
    rw [lastDue, hlast]
    exact List.mem_singleton_self _

theorem bodyType?_eq_some_iff : M.bodyType? stmts = some ty ↔ ∀ x, M.BodySees stmts x ↔ x ∈ ty := by
  unfold bodyType? BodySees
  split
  · constructor
    · rintro h x
      rw [Option.some.inj h]
    · exact fun h => congrArg some (Ty.ext_mem h)
  · exact typeOf?_eq_some_iff

/-- A node was seen to be only what its parts, and its other places, were seen to be. -/
def Backs (M : Module) (e : Expr) : Prop :=
  match e.form with
  | .literal v => ∀ x, M.Sees e.id x → x ∈ v.type
  | .assign target value =>
    ∀ x, (M.Sees e.id x ↔ M.Sees target.id x) ∧ (M.Sees e.id x → M.Sees value.id x)
  | .branch _ thenBody elseBody =>
    (∀ x, M.Sees e.id x → M.BodySees thenBody x ∨ M.BodySees (elseBody.getD []) x) ∧
      ∀ stmts ∈ [thenBody, elseBody.getD []], M.Seen e.id →
        (∃ x, M.BodySees stmts x) ∧ (stmts = [] → M.SeesAll e.id .nil)
  | .loop _ _ | .define _ => ∀ x, M.Sees e.id x → x ∈ Ty.nil
  | .call _ _ _ (some b) => ∀ x, M.Sees b.id x → M.BodySees b.body x
  | _ => True

/-- Where parts are seen to be more, but nothing new is seen of the node. -/
theorem Backs.grow (h : M.Backs e) (hg : M.Grows N)
    (hold : ∀ n ∈ e.subjects, ∀ x, N.Sees n x → M.Sees n x) : N.Backs e := by
  have hid (x : String) (hx : N.Sees e.id x) : M.Sees e.id x := hold e.id List.mem_cons_self x hx
  unfold Backs at h ⊢
  unfold Expr.subjects at hold
  cases hform : e.form with
  | literal v => rw [hform] at h; exact fun x hx => h x (hid x hx)
  | loop cond stmts => rw [hform] at h; exact fun x hx => h x (hid x hx)
  | define d => rw [hform] at h; exact fun x hx => h x (hid x hx)
  | assign target value =>
    rw [hform] at h hold
    refine fun x => ⟨⟨fun hx => hg _ x ((h x).1.1 (hid x hx)), fun hx => hg _ x ((h x).1.2 ?_)⟩,
      fun hx => hg _ x ((h x).2 (hid x hx))⟩
    exact hold target.id (List.mem_cons_of_mem _ List.mem_cons_self) x hx
  | branch cond thenBody elseBody =>
    rw [hform] at h
    refine ⟨fun x hx => (h.1 x (hid x hx)).imp (.grow hg) (.grow hg), fun stmts hstmts hseen => ?_⟩
    obtain ⟨⟨x, hx⟩, hnil⟩ := h.2 stmts hstmts (hseen.imp hid)
    exact ⟨⟨x, hx.grow hg⟩, fun hempty => hg.seesAll (hnil hempty)⟩
  | call name nameSpan args block =>
    rw [hform] at h hold
    cases block with
    | none => trivial
    | some b =>
      refine fun x hx => .grow hg (h x (hold b.id ?_ x hx))
      exact List.mem_cons_of_mem _ List.mem_cons_self
  | _ => trivial

end Module

/-! ### Types flow from parts to nodes -/

/-- What has got where it goes. -/
def Module.Arrived (M : Module) : Sink → String → Prop
  | .node n, x => M.Sees n x
  | .statement, _ => False
  | _, _ => True

theorem Module.Arrived.grow {M N : Module} (hg : M.Grows N) {k : Sink} {x : String}
    (h : M.Arrived k x) : N.Arrived k x := by
  cases k with
  | node n => exact hg n x h
  | statement => exact h
  | _ => trivial

/-- Apart from what is on its way, nodes were seen to be what their parts were seen to be. -/
structure Flows (p : Program) (L : Ledger) (M : Module) : Prop where
  covers : L.Covers p M.Arrived M
  backs : ∀ s ∈ p.sites, M.Backs s.expr

namespace Flows
variable {p : Program} {L : Ledger} {M N : Module} {s : Site} {D : List (NodeId × Ty)} {ty : Ty}

theorem of_sees (h : Flows p L M) (hg : M.Grows N)
    (hold : ∀ s ∈ p.sites, ∀ n ∈ s.expr.subjects, ∀ x, N.Sees n x → M.Sees n x) : Flows p L N where
  covers := (h.covers.of_sees fun s hs => hold s hs s.expr.id List.mem_cons_self).mono
    fun _ _ => .grow hg
  backs s hs := (h.backs s hs).grow hg (hold s hs)

variable (hids : p.ids.Nodup)
include hids

/-- The node is seen to be what its parts have just been seen to be. -/
theorem backs_settle (hs : s ∈ p.sites) (hty : s.expr.form.Typed M D ty)
    (hdue : ∀ due ∈ D, M.SeesAll due.1 due.2) (h : M.Backs s.expr) :
    (M.settle s.expr ty).Backs s.expr := by
  have hg : M.Grows (M.settle s.expr ty) := .settle M s.expr ty
  have hself := M.seesAll_settle s.expr ty
  have hid (x : String) (hx : (M.settle s.expr ty).Sees s.expr.id x) :
      M.Sees s.expr.id x ∨ x ∈ ty := (Module.sees_settle.1 hx).imp_right And.right
  unfold Module.Backs at h ⊢
  generalize hform : s.expr.form = form at hty h
  cases hty with
  | literal v => exact fun x hx => (hid x hx).elim (h x) id
  | loop cond stmts => exact fun x hx => (hid x hx).elim (h x) id
  | define d => exact fun x hx => (hid x hx).elim (h x) id
  | assign target value _ =>
    have htarget : target ∈ s.expr.form.targets := by rw [hform]; exact List.mem_singleton_self _
    refine fun x => ⟨⟨fun hx => ?_, fun hx => ?_⟩, fun hx => ?_⟩
    · rcases hid x hx with hx | hx
      · exact hg _ x ((h x).1.1 hx)
      · exact Module.sees_settle.2 (.inr ⟨.inr ⟨target, htarget, rfl⟩, hx⟩)
    · rcases Module.sees_settle.1 hx with hx | ⟨-, hx⟩
      · exact hg _ x ((h x).1.2 hx)
      · exact hself x hx
    · rcases hid x hx with hx | hx
      · exact hg _ x ((h x).2 hx)
      · exact hg _ x (hdue _ (List.mem_singleton_self _) x hx)
  | @branch cond thenBody elseBody thenType elseType hthen helse =>
    have hthenSees (x : String) (hx : x ∈ thenType) : M.BodySees thenBody x :=
      Module.bodySees_of_lastDue (fun due hmem => hdue due (List.mem_append_left _ hmem)) hthen hx
    have helseSees (x : String) (hx : x ∈ elseType) : M.BodySees (elseBody.getD []) x :=
      Module.bodySees_of_lastDue (fun due hmem => hdue due (List.mem_append_right _ hmem)) helse hx
    refine ⟨fun x hx => ?_, fun stmts hstmts _ => ?_⟩
    · rcases hid x hx with hx | hx
      · exact (h.1 x hx).imp (.grow hg) (.grow hg)
      · exact (Ty.mem_join.1 hx).imp (fun hx => (hthenSees x hx).grow hg)
          fun hx => (helseSees x hx).grow hg
    · rcases List.mem_pair.1 hstmts with rfl | rfl
      · obtain ⟨x, hx⟩ := thenType.exists_mem
        refine ⟨⟨x, (hthenSees x hx).grow hg⟩, fun hempty y hy => hself y ?_⟩
        exact Ty.mem_join.2 (.inl (by rwa [hthen hempty]))
      · obtain ⟨x, hx⟩ := elseType.exists_mem
        refine ⟨⟨x, (helseSees x hx).grow hg⟩, fun hempty y hy => hself y ?_⟩
        exact Ty.mem_join.2 (.inr (by rwa [helse hempty]))
  | @call name nameSpan args block _ hargs =>
    cases block with
    | none => trivial
    | some b =>
      intro x hx
      have hblock : s.expr.form.block? = some b := by rw [hform]; rfl
      rcases Module.sees_settle.1 hx with hx | ⟨heq | ⟨t, ht, -⟩, -⟩
      · exact (h x hx).grow hg
      · exact absurd heq.symm (Program.id_ne_block hids hs hs hblock)
      · rw [hform] at ht; exact absurd ht List.not_mem_nil
  | _ => trivial

theorem settle (hs : s ∈ p.sites) (hty : s.expr.form.Typed M D ty)
    (hdue : ∀ due ∈ D, M.SeesAll due.1 due.2) (h : Flows p (L.owe D) M) :
    Flows p (L.owe [(s.expr.id, ty)]) (M.settle s.expr ty) := by
  have hg : M.Grows (M.settle s.expr ty) := .settle M s.expr ty
  constructor
  · exact h.covers.settle_parts hids hs hty (fun _ _ => .grow hg) (M.seesAll_settle s.expr ty)
  · intro q hq
    by_cases hne : q = s
    · subst hne
      exact backs_settle hids hs hty hdue (h.backs q hq)
    · refine (h.backs q hq).grow hg fun n hn x hx => Module.sees_of_settle hx ?_
      exact Program.notMem_subjects hids hs hq hne (Expr.subject_mem_own hn)

theorem recordParams {params : List (Ident × Ty)} (hs : s ∈ p.sites)
    (hparams : ∀ param ∈ params, param.1 ∈ s.expr.form.params) (h : Flows p L M) :
    Flows p L (M.recordParams params) :=
  h.of_sees (.recordParams M params) fun _ hq _ hn _ hx =>
    Program.sees_of_recordParams hids hs hq hparams hn hx

/-- The block is seen to be what the last statement of its body was seen to be in the passes. -/
theorem collect {b : Block Expr} {name : String} {nameSpan : Span} {args : List Expr}
    {tys : List Ty} (hs : s ∈ p.sites) (hform : s.expr.form = .call name nameSpan args (some b))
    (hne : tys ≠ []) (hnil : b.body = [] → ∀ ty ∈ tys, ty = .nil)
    (hdue : ∀ due ∈ tys.flatMap (lastDue b.body), M.SeesAll due.1 due.2)
    (h : Flows p (L.owe (tys.flatMap (lastDue b.body))) M) :
    Flows p L (M.record b.id (Ty.unionOf tys)) := by
  have hg : M.Grows (M.record b.id (Ty.unionOf tys)) := .record M b.id _
  have hblock : s.expr.form.block? = some b := by rw [hform]; rfl
  constructor
  · refine ((h.covers.mono fun _ _ => .grow hg).pay_passes hids hs hform ?_).of_sees ?_
    · exact fun ty hty x hx => Module.sees_record.2 (.inr ⟨rfl, (Ty.mem_unionOf hne).2 ⟨ty, hty, hx⟩⟩)
    · exact fun q hq x => Program.sees_of_record_block hids hs hblock hq
  · intro q hq
    by_cases hqs : q = s
    · subst hqs
      have hback := h.backs q hq
      unfold Module.Backs at hback ⊢
      rw [hform] at hback ⊢
      intro x hx
      rcases Module.sees_record.1 hx with hx | ⟨-, hx⟩
      · exact (hback x hx).grow hg
      · obtain ⟨ty, hty, hx⟩ := (Ty.mem_unionOf hne).1 hx
        refine Module.BodySees.grow hg ?_
        refine Module.bodySees_of_lastDue (fun due hmem => ?_) (fun hb => hnil hb ty hty) hx
        exact hdue due (List.mem_flatMap.2 ⟨ty, hty, hmem⟩)
    · refine (h.backs q hq).grow hg fun n hn x hx => Module.sees_of_record_block hx hblock ?_
      exact Program.notMem_subjects hids hs hq hqs (Expr.subject_mem_own hn)

end Flows

theorem Module.not_sees_initial {n : NodeId} {x : String} : ¬ Module.initial.Sees n x := by
  rintro ⟨_, hty, -⟩
  exact nomatch hty

theorem Module.backs_initial (e : Expr) : Module.initial.Backs e := by
  unfold Backs
  cases e.form with
  | literal v => exact fun _ hx => absurd hx not_sees_initial
  | loop cond stmts => exact fun _ hx => absurd hx not_sees_initial
  | define d => exact fun _ hx => absurd hx not_sees_initial
  | assign target value =>
    exact fun x => ⟨iff_of_false not_sees_initial not_sees_initial, fun hx => absurd hx not_sees_initial⟩
  | branch cond thenBody elseBody =>
    exact ⟨fun _ hx => absurd hx not_sees_initial, fun _ _ ⟨_, hx⟩ => absurd hx not_sees_initial⟩
  | call name nameSpan args block =>
    cases block with
    | none => trivial
    | some b => exact fun _ hx => absurd hx not_sees_initial
  | _ => trivial

/-- Types flow from parts to nodes along a run. -/
def Account.flow {p : Program} (hids : p.ids.Nodup) : Account p where
  Holds L _ M := Flows p L M
  initial := ⟨fun _ _ _ hx => absurd hx Module.not_sees_initial, fun s _ => Module.backs_initial s.expr⟩
  forget := by
    intro L c M s ty hs hsink h
    exact ⟨h.covers.forget hids hs fun _ => by rw [hsink]; trivial, h.backs⟩
  settle hs _ hty hM h := h.settle hids hs hty hM.dues
  define := by
    intro L c M s d hs _ hform _ _ h
    have hdefined : Flows p (L.owe []) (M.define d) := ⟨by rw [Ledger.owe_nil]; exact h.covers, h.backs⟩
    refine hdefined.settle hids hs ?_ fun due hdue => absurd hdue List.not_mem_nil
    rw [hform]
    exact .define d
  answer hcall _ h := ⟨h.covers.pay_args hids hcall fun _ _ _ _ _ => trivial, h.backs⟩
  enter := by
    intro L c M s args m signature block q hcall _ _ hq hform _ h
    have henter : Flows p L (M.enter m signature block) :=
      Flows.of_sees ⟨h.covers.pay_args hids hcall fun _ _ _ _ _ => trivial, h.backs⟩
        (.enter M m signature block) fun r hr n hn x => Program.sees_of_enter hids hq hform hr hn
    exact ⟨henter.covers, henter.backs⟩
  leave := by
    intro L c M N s args m signature block q ty _ _ hq hform _ _ _ h
    exact ⟨h.covers.pay_last hids hq hform fun _ _ => trivial, h.backs⟩
  run _ _ _ h := ⟨h.covers, h.backs⟩
  bindParams := by
    intro L c M s b name nameSpan args signature hs hform _ h
    refine h.recordParams hids hs fun param hparam => ?_
    rw [hform]
    exact Infer.mem_of_paramTypes hparam
  collect := by
    intro L c M N s b method? outer name nameSpan args tys hs hform _ hne hnil _ _ hM h
    exact Flows.collect hids hs hform hne hnil hM.dues ⟨h.covers, h.backs⟩

/-! ### Nodes in blocks -/

/-- All blocks around are open. -/
def Opened (Open : NodeId → Prop) (outer : List Enclosure) : Prop :=
  ∀ b, .block b ∈ outer → Open b.id

theorem Opened.mono {Open Open' : NodeId → Prop} {outer : List Enclosure} (h : Opened Open outer)
    (hto : ∀ n, Open n → Open' n) : Opened Open' outer := fun b hb => hto b.id (h b hb)

/-- What a run comes to lies in open blocks. -/
structure Enclosed (p : Program) (Open : NodeId → Prop) (outer : List Enclosure) (c : Standing)
    (M : Module) : Prop where
  here : Opened Open outer
  blocks : ∀ s ∈ p.sites, ∀ b, s.expr.form.block? = some b → b ∈ c.blocks.map Prod.fst →
    Opened Open s.outer
  methods : ∀ m ∈ M.methods, ∀ s ∈ p.sites, s.expr.form = .define m.definition →
    Opened Open s.outer
  nodes : ∀ s ∈ p.sites, ∀ n ∈ s.expr.own, M.Seen n → Opened Open s.outer
  params : ∀ s ∈ p.sites, ∀ b, s.expr.form.block? = some b → ∀ param ∈ b.params,
    M.Seen param.id → Open b.id

namespace Enclosed
variable {p : Program} {Open Open' : NodeId → Prop} {outer : List Enclosure} {c : Standing}
  {M N : Module} {s : Site} {ty : Ty}

theorem mono (h : Enclosed p Open outer c M) (hto : ∀ n, Open n → Open' n) :
    Enclosed p Open' outer c M where
  here := h.here.mono hto
  blocks s hs b hb hc := (h.blocks s hs b hb hc).mono hto
  methods m hm s hs hform := (h.methods m hm s hs hform).mono hto
  nodes s hs n hn hseen := (h.nodes s hs n hn hseen).mono hto
  params s hs b hb param hparam hseen := hto _ (h.params s hs b hb param hparam hseen)

/-- Where other nodes are seen that lie in open blocks. -/
theorem see (h : Enclosed p Open outer c M) (hmethods : N.methods = M.methods)
    (hnodes : ∀ s ∈ p.sites, ∀ n ∈ s.expr.own, N.Seen n → M.Seen n ∨ Opened Open s.outer)
    (hparams : ∀ s ∈ p.sites, ∀ b, s.expr.form.block? = some b → ∀ param ∈ b.params,
      N.Seen param.id → M.Seen param.id ∨ Open b.id) : Enclosed p Open outer c N where
  here := h.here
  blocks := h.blocks
  methods := by rw [hmethods]; exact h.methods
  nodes s hs n hn hseen := (hnodes s hs n hn hseen).elim (h.nodes s hs n hn) id
  params s hs b hb param hparam hseen :=
    (hparams s hs b hb param hparam hseen).elim (h.params s hs b hb param hparam) id

theorem updateMethod {name : String} {f : Method → Method} (h : Enclosed p Open outer c M)
    (hf : ∀ m, (f m).definition = m.definition) :
    Enclosed p Open outer c (M.updateMethod name f) where
  here := h.here
  blocks := h.blocks
  methods new hnew := by
    obtain ⟨m, hm, hdefinition, -⟩ := Module.mem_updateMethod hf hnew
    rw [hdefinition]
    exact h.methods m hm
  nodes := h.nodes
  params := h.params

variable (hids : p.ids.Nodup)
include hids

theorem settle (h : Enclosed p Open outer c M) (hs : s ∈ p.sites) (houter : outer = s.outer) :
    Enclosed p Open outer c (M.settle s.expr ty) := by
  refine h.see (M.methods_settle s.expr ty) (fun q hq n hn hseen => ?_)
    fun q hq b hb param hparam hseen => .inl (hseen.imp fun x hx => Module.sees_of_settle hx ?_)
  · by_cases hqs : q = s
    · rw [hqs, ← houter]
      exact .inr h.here
    · refine .inl (hseen.imp fun x hx => Module.sees_of_settle hx ?_)
      exact Program.notMem_subjects hids hs hq hqs hn
  · exact Program.param_notMem_subjects hids hq hs (Form.mem_params_of_block hb hparam)

theorem define {d : Definition Expr} (h : Enclosed p Open outer c M) (hs : s ∈ p.sites)
    (houter : outer = s.outer) (hform : s.expr.form = .define d) :
    Enclosed p Open outer c (M.define d) where
  here := h.here
  blocks := h.blocks
  methods m hm q hq hq' := by
    rcases Module.mem_putMethod hm with rfl | hm
    · obtain rfl := Program.site_of_define hids hq hs hq' hform
      rw [← houter]
      exact h.here
    · exact h.methods m hm q hq hq'
  nodes := h.nodes
  params := h.params

/-- Parameters of a node that lies in open blocks, and in an open block if they belong to one. -/
theorem recordParams {params : List (Ident × Ty)} (h : Enclosed p Open outer c M) (hs : s ∈ p.sites)
    (hparams : ∀ param ∈ params, param.1 ∈ s.expr.form.params) (hopened : Opened Open s.outer)
    (hopen : ∀ b, s.expr.form.block? = some b → Open b.id) :
    Enclosed p Open outer c (M.recordParams params) := by
  have hsite {q : Site} (hq : q ∈ p.sites) {n : NodeId} (hn : n ∈ q.expr.own)
      (hseen : (M.recordParams params).Seen n) : M.Seen n ∨ q = s := by
    refine (Module.seen_recordParams hseen).imp_right ?_
    rintro ⟨param, hparam, rfl⟩
    exact Program.site_unique hids hq hs hn (Expr.param_mem_own (hparams param hparam))
  refine h.see (Module.methods_recordParams params M) (fun q hq n hn hseen => ?_)
    fun q hq b hb param hparam hseen => ?_
  · refine (hsite hq hn hseen).imp_right fun hqs => ?_
    rw [hqs]
    exact hopened
  · refine (hsite hq (Expr.param_mem_own (Form.mem_params_of_block hb hparam)) hseen).imp_right ?_
    rintro rfl
    exact hopen b hb

theorem record_block {b : Block Expr} (h : Enclosed p Open outer c M) (hs : s ∈ p.sites)
    (hb : s.expr.form.block? = some b) (hopened : Opened Open s.outer) :
    Enclosed p Open outer c (M.record b.id ty) := by
  refine h.see rfl (fun q hq n hn hseen => ?_) fun q hq b' hb' param hparam hseen =>
    .inl (hseen.imp fun x hx => Module.sees_of_record_block hx hb ?_)
  · by_cases hqs : q = s
    · rw [hqs]
      exact .inr hopened
    · refine .inl (hseen.imp fun x hx => Module.sees_of_record_block hx hb ?_)
      exact Program.notMem_subjects hids hs hq hqs hn
  · exact Program.param_notMem_subjects hids hq hs (Form.mem_params_of_block hb' hparam)

/-- The body of a method lies where the method is defined, and the block of the call where the call
is. -/
theorem enter {args : List Expr} {m : Method} {signature : Signature} {block : Option (Block Expr)}
    {q : Site} (h : Enclosed p Open outer c M) (hcall : Calling p s args m signature block M)
    (houter : outer = s.outer) (hq : q ∈ p.sites) (hform : q.expr.form = .define m.definition) :
    Enclosed p Open (.method m.definition :: q.outer) (c.inside m signature block)
      (M.enter m signature block) := by
  obtain ⟨nameSpan, hcallForm⟩ := hcall.form
  have hopened := h.methods m (Module.mem_of_method? hcall.found) q hq hform
  -- A block that comes into force is that of the call, and the call lies in open blocks.
  have hinside : Enclosed p Open (.method m.definition :: q.outer) (c.inside m signature block) M := by
    refine { h with here := fun b hb => ?_, blocks := fun r hr b hb hc => ?_ }
    · exact hopened b ((List.mem_cons.1 hb).resolve_left nofun)
    · cases block with
      | none => exact absurd hc List.not_mem_nil
      | some b' =>
        rcases List.mem_cons.1 hc with rfl | hc
        · obtain rfl := Program.site_of_block hids hr hcall.site hb (by rw [hcallForm]; rfl)
          rw [← houter]
          exact h.here
        · exact h.blocks r hr b hb hc
  have hparams (param : Ident × Ty) : param ∈ m.definition.params.zip signature →
      param.1 ∈ q.expr.form.params := Expr.mem_params_of_zip hform
  have hblock (b : Block Expr) (hb : q.expr.form.block? = some b) : Open b.id := by
    rw [hform] at hb
    exact nomatch hb
  cases block with
  | none =>
    have hstore : Enclosed p Open (.method m.definition :: q.outer) (c.inside m signature none)
        (M.updateMethod m.name (·.store signature .nil)) := hinside.updateMethod fun _ => rfl
    exact hstore.recordParams hids hq hparams hopened hblock
  | some b => exact hinside.recordParams hids hq hparams hopened hblock

end Enclosed

/-- A block has been seen, or its body is being evaluated. -/
def Ledger.Open (L : Ledger) (M : Module) (n : NodeId) : Prop := M.Seen n ∨ n ∈ L.running

/-- A run stays in open blocks. -/
def Account.enclosed {p : Program} (hids : p.ids.Nodup) : Account p where
  Holds L c M := Enclosed p (L.Open M) L.outer c M
  initial := by
    have hnot (n : NodeId) : ¬ Module.initial.Seen n := fun ⟨_, hx⟩ => Module.not_sees_initial hx
    refine ⟨?_, ?_, ?_, ?_, ?_⟩
    · exact fun b hb => absurd hb List.not_mem_nil
    · exact fun s hs b hb hc => absurd hc List.not_mem_nil
    · exact fun m hm => absurd hm List.not_mem_nil
    · exact fun s hs n hn hseen => absurd hseen (hnot n)
    · exact fun s hs b hb param hparam hseen => absurd hseen (hnot param.id)
  forget _ _ h := h
  settle := by
    intro L c M s D ty hs houter _ _ h
    refine (Enclosed.settle hids h hs houter).mono fun n hn => hn.imp_left ?_
    exact (Module.Grows.settle M s.expr ty).seen
  define := by
    intro L c M s d hs houter hform _ _ h
    refine ((h.define hids hs houter hform).settle hids hs houter).mono fun n hn => hn.imp_left ?_
    exact (Module.Grows.settle (M.define d) s.expr .nil).seen
  answer _ _ h := h
  enter := by
    intro L c M s args m signature block q hcall _ houter hq hform _ h
    exact (h.enter hids hcall houter hq hform).mono fun n hn =>
      hn.imp_left (Module.Grows.enter M m signature block).seen
  leave := by
    intro L c M N s args m signature block q ty _ _ hq hform hg hM _ hN
    have hto (n : NodeId) (hn : (L.owe (dues args signature)).Open M n) : L.Open N n :=
      hn.imp_left hg.seen
    refine Enclosed.updateMethod ?_ fun m => m.definition_keep signature ty block
    exact { (hM.mono hto : Enclosed p (L.Open N) L.outer c M) with
      methods := hN.methods, nodes := hN.nodes, params := hN.params }
  run := by
    intro L c M s b method? outer name nameSpan args hs hform hblocks h
    have hopened : Opened (L.Open M) s.outer :=
      h.blocks s hs b (by rw [hform]; rfl) (by rw [hblocks]; exact List.mem_cons_self)
    have hto (n : NodeId) (hn : L.Open M n) : (L.run b s.outer).Open M n :=
      hn.imp_right (List.mem_cons_of_mem b.id)
    refine { (h.mono hto) with here := fun b' hb' => ?_, blocks := fun q hq b' hb' hc => ?_ }
    · rcases List.mem_cons.1 hb' with heq | hb'
      · cases heq
        exact .inr List.mem_cons_self
      · exact hto _ (hopened b' hb')
    · refine (h.blocks q hq b' hb' ?_).mono hto
      rw [hblocks]
      exact List.mem_cons_of_mem b hc
  bindParams := by
    intro L c M s b name nameSpan args signature hs hform houter h
    refine Enclosed.mono (h.recordParams hids hs (fun param hparam => ?_) (fun b' hb' => h.here b' ?_)
      fun b' hb' => h.here b' ?_) fun n hn => hn.imp_left (Module.Grows.recordParams M _).seen
    · rw [hform]
      exact Infer.mem_of_paramTypes hparam
    · rw [houter]
      exact List.mem_cons_of_mem _ hb'
    · rw [hform] at hb'
      cases hb'
      rw [houter]
      exact List.mem_cons_self
  collect := by
    intro L c M N s b method? outer name nameSpan args tys hs hform hblocks _ _ hg hM _ hN
    have hb : s.expr.form.block? = some b := by rw [hform]; rfl
    have hrecord : N.Grows (N.record b.id (Ty.unionOf tys)) := .record N b.id _
    have hbefore : Enclosed p (L.Open (N.record b.id (Ty.unionOf tys))) L.outer c M :=
      hM.mono fun n hn => hn.imp_left (hg.trans hrecord).seen
    have hbehind : Enclosed p (L.Open (N.record b.id (Ty.unionOf tys))) (.block b :: s.outer)
        { c with blocks := outer, method? } N := hN.mono fun n hn => by
      rcases hn with hseen | hrunning
      · exact .inl (hrecord.seen hseen)
      · rcases List.mem_cons.1 hrunning with rfl | hrunning
        · obtain ⟨x, hx⟩ := (Ty.unionOf tys).exists_mem
          exact .inl ⟨x, Module.sees_record.2 (.inr ⟨rfl, hx⟩)⟩
        · exact .inr hrunning
    have hclosed : Enclosed p (L.Open (N.record b.id (Ty.unionOf tys))) L.outer c N :=
      { hbefore with methods := hbehind.methods, nodes := hbehind.nodes, params := hbehind.params }
    refine hclosed.record_block hids hs hb (hbefore.blocks s hs b hb ?_)
    rw [hblocks]
    exact List.mem_cons_self

/-! ### The table of a program -/

namespace Program
variable {p : Program} {limit : Nat} {M : Module}

theorem flows_of_infer (hids : p.ids.Nodup) (h : p.infer limit = .ok M) :
    ∃ tys : List Ty, p.stmts.length = tys.length ∧ M.result = tys.getLast?.getD .nil ∧
      Flows p ⟨[], dues p.stmts tys, []⟩ M ∧ ∀ due ∈ dues p.stmts tys, M.SeesAll due.1 due.2 := by
  obtain ⟨N, tys, rfl, hlen, hkept⟩ := (Account.flow hids).of_infer h
  exact ⟨tys, hlen, rfl, ⟨hkept.holds.covers, hkept.holds.backs⟩, hkept.owed⟩

theorem enclosed_of_infer (hids : p.ids.Nodup) (h : p.infer limit = .ok M) :
    Enclosed p M.Seen [] .top M := by
  obtain ⟨N, tys, rfl, -, hkept⟩ := (Account.enclosed hids).of_infer h
  have hall : Enclosed p N.Seen [] .top N :=
    hkept.holds.mono fun n hn => hn.resolve_right List.not_mem_nil
  exact ⟨hall.here, hall.blocks, hall.methods, hall.nodes, hall.params⟩

end Program

section
variable {p : Program} {M : Module} {tys : List Ty} (hids : p.ids.Nodup)
  (h : Flows p ⟨[], dues p.stmts tys, []⟩ M)
include hids h

/-- What goes into the type of a node has got there. -/
theorem Flows.sees_of_bodySees {outer : List Enclosure} {n : NodeId} {stmts : List Expr}
    (hstmts : ∀ q ∈ Site.body outer (.node n) stmts, q ∈ p.sites) (hne : stmts ≠ []) {x : String}
    (hx : M.BodySees stmts x) : M.Sees n x := by
  unfold Module.BodySees at hx
  split at hx
  · next hlast => exact absurd (List.getLast?_eq_none_iff.1 hlast) hne
  · next e hlast =>
    exact h.covers.arrived hids (s := ⟨outer, .node n, e⟩) (hstmts _ (Site.last_mem_body hlast)) nofun hx

end

theorem Ty.eq_prim {ty : Ty} {name : String} (h : ∀ x ∈ ty, x ∈ prim name) : ty = prim name := by
  refine ext_mem fun x => ⟨h x, fun hx => ?_⟩
  obtain ⟨y, hy⟩ := ty.exists_mem
  rw [mem_prim.1 hx, ← mem_prim.1 (h y hy)]
  exact hy

theorem Literal.exists_prim (v : Literal) : ∃ name, v.type = .prim name := by
  cases v <;> exact ⟨_, rfl⟩

theorem Module.exists_bodyType? {M : Module} {stmts : List Expr} {x : String}
    (h : M.BodySees stmts x) : ∃ ty, M.bodyType? stmts = some ty := by
  unfold bodyType?
  unfold BodySees at h
  split at h
  · exact ⟨.nil, rfl⟩
  · exact seen_iff.1 ⟨x, h⟩

namespace Program
variable {p : Program} {limit : Nat} {M : Module}

section
variable {tys : List Ty} {s : Site} (hids : p.ids.Nodup)
  (h : Flows p ⟨[], dues p.stmts tys, []⟩ M) (hs : s ∈ p.sites)
include hids h hs

theorem agreesAt_branch {cond : Expr} {thenBody : List Expr} {elseBody : Option (List Expr)}
    (hform : s.expr.form = .branch cond thenBody elseBody) : M.AgreesAt s.expr := by
  have hback := h.backs s hs
  unfold Module.Backs at hback
  unfold Module.AgreesAt
  rw [hform] at hback ⊢
  intro ty hty
  have hseen : M.Seen s.expr.id := Module.seen_iff.2 ⟨ty, hty⟩
  rw [Module.typeOf?_eq_some_iff] at hty
  obtain ⟨⟨x, hx⟩, hthenNil⟩ := hback.2 thenBody List.mem_cons_self hseen
  obtain ⟨⟨y, hy⟩, helseNil⟩ := hback.2 (elseBody.getD [])
    (List.mem_cons_of_mem _ (List.mem_singleton_self _)) hseen
  obtain ⟨thenType, hthen⟩ := Module.exists_bodyType? hx
  obtain ⟨elseType, helse⟩ := Module.exists_bodyType? hy
  refine ⟨thenType, elseType, hthen, helse, Ty.ext_mem fun z => ?_⟩
  rw [Module.bodyType?_eq_some_iff] at hthen helse
  rw [Ty.mem_join, ← hty, ← hthen, ← helse]
  -- A branch without statements goes into the node as `Nil`, the others by their last statements.
  have hpart {stmts : List Expr} (hnil : stmts = [] → M.SeesAll s.expr.id .nil)
      (hstmts : ∀ q ∈ Site.body s.outer (.node s.expr.id) stmts, q ∈ s.parts)
      (hz : M.BodySees stmts z) : M.Sees s.expr.id z := by
    by_cases hempty : stmts = []
    · rw [Module.BodySees, hempty] at hz
      exact hnil hempty z hz
    · exact h.sees_of_bodySees hids (fun q hq => part_mem_sites hs (hstmts q hq)) hempty hz
  refine ⟨hback.1 z, fun hz => hz.elim (hpart hthenNil fun q hq => ?_)
    (hpart helseNil fun q hq => ?_)⟩
  · rw [Site.parts, hform]
    exact List.mem_cons_of_mem _ (List.mem_append_left _ hq)
  · rw [Site.parts, hform]
    exact List.mem_cons_of_mem _ (List.mem_append_right _ hq)

theorem agreesAt_assign {target : Ident} {value : Expr}
    (hform : s.expr.form = .assign target value) : M.AgreesAt s.expr := by
  have hback := h.backs s hs
  unfold Module.Backs at hback
  unfold Module.AgreesAt
  rw [hform] at hback ⊢
  refine ⟨Module.typeOf?_congr fun x => (hback x).1, Module.typeOf?_congr fun x => ⟨(hback x).2, ?_⟩⟩
  have hvalue : (⟨s.outer, .node s.expr.id, value⟩ : Site) ∈ s.parts := by
    rw [Site.parts, hform]
    exact List.mem_singleton_self _
  exact h.covers.arrived hids (part_mem_sites hs hvalue) (Site.sink_ne_statement hvalue)

theorem bodyType?_of_block {b : Block Expr} (hb : s.expr.form.block? = some b) {ty : Ty}
    (hty : M.typeOf? b.id = some ty) : M.bodyType? b.body = some ty := by
  obtain ⟨name, nameSpan, args, hform⟩ := Form.eq_call_of_block hb
  have hback : ∀ x, M.Sees b.id x → M.BodySees b.body x := by
    have := h.backs s hs
    unfold Module.Backs at this
    rwa [hform] at this
  rw [Module.typeOf?_eq_some_iff] at hty
  rw [Module.bodyType?_eq_some_iff]
  refine fun x => ⟨fun hx => (hty x).1 ?_, fun hx => hback x ((hty x).2 hx)⟩
  by_cases hempty : b.body = []
  -- Nothing but `Nil` was seen of the block, and it was seen to be something.
  · obtain ⟨y, hy⟩ := ty.exists_mem
    have hyNil := hback y ((hty y).2 hy)
    rw [Module.BodySees, hempty] at hx hyNil
    rw [Ty.mem_prim.1 hx, ← Ty.mem_prim.1 hyNil]
    exact (hty y).2 hy
  · have hstmts (q : Site) (hq : q ∈ Site.body (.block b :: s.outer) (.node b.id) b.body) :
        q ∈ p.sites := by
      refine part_mem_sites hs ?_
      rw [Site.parts, hform]
      exact List.mem_append_right _ hq
    exact h.sees_of_bodySees hids hstmts hempty hx

end

/-- Each statement is looked at once. -/
theorem bodyType?_stmts {tys : List Ty} (hids : p.ids.Nodup) (hlen : p.stmts.length = tys.length)
    (h : Flows p ⟨[], dues p.stmts tys, []⟩ M)
    (hstmts : ∀ due ∈ dues p.stmts tys, M.SeesAll due.1 due.2) :
    M.bodyType? p.stmts = some (tys.getLast?.getD .nil) := by
  rw [Module.bodyType?_eq_some_iff]
  rcases List.eq_nil_or_concat' p.stmts with hp | ⟨init, e, hp⟩
  · rw [hp] at hlen ⊢
    rw [List.length_eq_zero_iff.1 hlen.symm]
    exact fun x => Iff.rfl
  rcases List.eq_nil_or_concat' tys with rfl | ⟨tys, ty, rfl⟩
  · rw [hp] at hlen
    simp at hlen
  have hinit : init.length = tys.length := by rw [hp] at hlen; simpa using hlen
  have hdue : (e.id, ty) ∈ dues p.stmts (tys ++ [ty]) := by rw [hp]; exact mem_dues_of_append hinit
  have he : e ∈ p.stmts := by rw [hp]; exact List.mem_append_right _ (List.mem_singleton_self e)
  intro x
  rw [Module.BodySees, hp, List.getLast?_concat, List.getLast?_concat]
  refine ⟨fun hx => ?_, hstmts _ hdue x⟩
  obtain ⟨due, hmem, hid, hxdue⟩ := (h.covers _ (stmt_mem_sites he) x hx).resolve_left id
  have hty : due.2 = ty :=
    dues_unique (nodup_stmts hids) hlen (n := e.id) (by rw [← hid]; exact hmem) hdue
  exact hty ▸ hxdue

/-- What is seen in a block is seen in a block that has a type. -/
theorem seen_block (h : Enclosed p M.Seen [] .top M) {s : Site}
    (hs : s ∈ p.sites) {b : Block Expr} (hb : s.expr.form.block? = some b) {n : NodeId}
    (hn : n ∈ b.params.map Ident.id ++ b.body.flatMap Expr.ids) (hseen : M.Seen n) :
    M.Seen b.id := by
  obtain ⟨name, nameSpan, args, hform⟩ := Form.eq_call_of_block hb
  rcases List.mem_append.1 hn with hn | hn
  · obtain ⟨param, hparam, rfl⟩ := List.mem_map.1 hn
    exact h.params s hs b hb param hparam hseen
  · obtain ⟨q, hq, r, hr, hn⟩ :=
      Site.exists_of_mem_ids_body (.block b :: s.outer) (.node b.id) hn
    have hpart : q ∈ s.parts := by
      rw [Site.parts, hform]
      exact List.mem_append_right _ hq
    have hopened := h.nodes r (within_mem_sites (part_mem_sites hs hpart) hr) n hn hseen
    have hsuffix := Site.outer_suffix_of_within hr
    rw [(Site.mem_body hq).1] at hsuffix
    exact hopened b (hsuffix.mem List.mem_cons_self)

/-- In a program with distinct identities, the types of the nodes in the end come from the types of
their parts. -/
theorem agreesAt_of_infer (hids : p.ids.Nodup) (h : p.infer limit = .ok M) :
    (∀ e, p.Has e → M.AgreesAt e) ∧ M.bodyType? p.stmts = some M.result := by
  obtain ⟨tys, hlen, hresult, hflows, hstmts⟩ := flows_of_infer hids h
  have henclosed := enclosed_of_infer hids h
  refine ⟨fun e he => ?_, ?_⟩
  · obtain ⟨s, hs, rfl⟩ := he.site
    have hback := hflows.backs s hs
    have hprim {ty : Ty} {name : String} (hall : ∀ x, M.Sees s.expr.id x → x ∈ Ty.prim name)
        (hty : M.typeOf? s.expr.id = some ty) : ty = .prim name :=
      Ty.eq_prim fun x hx => hall x ((Module.typeOf?_eq_some_iff.1 hty x).2 hx)
    cases hform : s.expr.form with
    | assign target value => exact agreesAt_assign hids hflows hs hform
    | branch cond thenBody elseBody => exact agreesAt_branch hids hflows hs hform
    | call name nameSpan args block =>
      unfold Module.AgreesAt
      rw [hform]
      cases block with
      | none => trivial
      | some b =>
        have hb : s.expr.form.block? = some b := by rw [hform]; rfl
        refine ⟨fun ty hty => bodyType?_of_block hids hflows hs hb hty, fun n hn hsome => ?_⟩
        have hseen : M.Seen n := Module.seen_iff.2 (Option.isSome_iff_exists.1 hsome)
        exact Option.isSome_iff_exists.2 (Module.seen_iff.1 (seen_block henclosed hs hb hn hseen))
    | literal v =>
      obtain ⟨name, hname⟩ := v.exists_prim
      have hall (x : String) (hx : M.Sees s.expr.id x) : x ∈ Ty.prim name := by
        unfold Module.Backs at hback
        rw [hform] at hback
        exact hname ▸ hback x hx
      unfold Module.AgreesAt
      rw [hform]
      exact fun ty hty => (hprim hall hty).trans hname.symm
    | loop cond stmts =>
      unfold Module.Backs at hback
      unfold Module.AgreesAt
      rw [hform] at hback ⊢
      exact fun ty hty => hprim hback hty
    | define d =>
      unfold Module.Backs at hback
      unfold Module.AgreesAt
      rw [hform] at hback ⊢
      exact fun ty hty => hprim hback hty
    | _ => unfold Module.AgreesAt; rw [hform]; trivial
  · rw [hresult]
    exact bodyType?_stmts hids hlen hflows hstmts

/-- A choice that may yield nothing, and a block that assigns what it is given. -/
def choiceAndBlock : Program where
  stmts :=
    [.node 0 ⟨0, 0⟩ (.define ⟨⟨1, "each", ⟨0, 0⟩⟩, [⟨2, "a", ⟨0, 0⟩⟩],
        [.node 3 ⟨0, 0⟩ (.yield [.node 4 ⟨0, 0⟩ (.var "a")])]⟩),
      .node 5 ⟨0, 0⟩ (.assign ⟨6, "x", ⟨0, 0⟩⟩
        (.node 7 ⟨0, 0⟩ (.branch (.node 8 ⟨0, 0⟩ (.literal (.bool true)))
          [.node 9 ⟨0, 0⟩ (.literal (.int 1))] none))),
      .node 10 ⟨0, 0⟩ (.call "each" ⟨0, 0⟩ [.node 11 ⟨0, 0⟩ (.var "x")]
        (some ⟨12, ⟨0, 0⟩, [⟨13, "b", ⟨0, 0⟩⟩],
          [.node 14 ⟨0, 0⟩ (.assign ⟨15, "y", ⟨0, 0⟩⟩ (.node 16 ⟨0, 0⟩ (.var "b")))]⟩))]

theorem agreesAt_choiceAndBlock :
    choiceAndBlock.ids.Nodup ∧ ∃ M, choiceAndBlock.infer 64 = .ok M ∧
      (∀ e, choiceAndBlock.Has e → M.AgreesAt e) ∧
      M.bodyType? choiceAndBlock.stmts = some M.result := by
  have hids : choiceAndBlock.ids.Nodup := by decide +kernel
  have hends : (choiceAndBlock.infer 64).toBool = true := by decide +kernel
  obtain ⟨M, hM⟩ := exists_infer hends
  exact ⟨hids, M, hM, agreesAt_of_infer hids hM⟩

end Program
end FlowTyping
