import FlowTyping.Proofs.CallCache
import FlowTyping.Proofs.Placement

/-!
# Types on their way

The type of an expression is recorded before it gets where it goes: a statement in the body of a method
has been seen to be of a type before the method is known to return it, and many bodies are under
inference at once.  A `Ledger` lists the types that are still on their way.  In view of it, everything
that an expression was seen to be has got where it goes (`Ledger.Covers`).
-/

namespace FlowTyping

/-- Where a run is. -/
structure Ledger where
  /-- The bodies around the expression at hand, the innermost one first. -/
  outer : List Enclosure
  /-- What nodes were seen to be that has not got yet where it goes. -/
  owed : List (NodeId × Ty)
  /-- The blocks whose bodies are being evaluated. -/
  running : List NodeId

namespace Ledger
variable {L : Ledger}

def owe (L : Ledger) (dues : List (NodeId × Ty)) : Ledger := { L with owed := L.owed ++ dues }

/-- In the body of a definition that is written inside `outer`. -/
def inside (L : Ledger) (d : Definition Expr) (outer : List Enclosure) : Ledger :=
  { L with outer := .method d :: outer }

/-- In the body of a block that is written inside `outer`. -/
def run (L : Ledger) (b : Block Expr) (outer : List Enclosure) : Ledger :=
  ⟨.block b :: outer, L.owed, b.id :: L.running⟩

@[simp] theorem owe_nil : L.owe [] = L := by unfold owe; rw [List.append_nil]

theorem owe_owe (D E : List (NodeId × Ty)) : (L.owe D).owe E = L.owe (D ++ E) := by
  unfold owe; rw [List.append_assoc]

theorem mem_owe {D : List (NodeId × Ty)} {due : NodeId × Ty} :
    due ∈ (L.owe D).owed ↔ due ∈ L.owed ∨ due ∈ D := List.mem_append

end Ledger

/-- What expressions were seen to be. -/
def dues (es : List Expr) (tys : List Ty) : List (NodeId × Ty) := (es.map Expr.id).zip tys

/-- What the last one of some statements was seen to be. -/
def lastDue (stmts : List Expr) (ty : Ty) : List (NodeId × Ty) :=
  stmts.getLast?.toList.map fun e => (e.id, ty)

theorem dues_append {es fs : List Expr} {tys : List Ty} (h : es.length = tys.length) (us : List Ty) :
    dues (es ++ fs) (tys ++ us) = dues es tys ++ dues fs us := by
  unfold dues
  rw [List.map_append, List.zip_append (by rw [List.length_map, h])]

theorem mem_dues_of_append {es fs : List Expr} {tys us : List Ty} {e : Expr} {ty : Ty}
    (hlen : es.length = tys.length) : (e.id, ty) ∈ dues (es ++ e :: fs) (tys ++ ty :: us) := by
  rw [dues_append hlen]
  exact List.mem_append_right _ List.mem_cons_self

theorem exists_of_dues {es : List Expr} {tys : List Ty} {due : NodeId × Ty} (h : due ∈ dues es tys) :
    ∃ e ∈ es, e.id = due.1 := List.mem_map.1 (List.of_mem_zip h).1

theorem dues_unique {es : List Expr} {tys : List Ty} {n : NodeId} {ty ty' : Ty}
    (hnodup : (es.map Expr.id).Nodup) (hlen : es.length = tys.length) (h : (n, ty) ∈ dues es tys)
    (h' : (n, ty') ∈ dues es tys) : ty = ty' := by
  have hfst : (dues es tys).map Prod.fst = es.map Expr.id :=
    List.map_fst_zip (by rw [List.length_map, hlen])
  rw [← hfst] at hnodup
  exact congrArg Prod.snd (List.inj_on_of_nodup_map hnodup h h' rfl)

theorem seen_of_dues {M : Module} {es : List Expr} {tys : List Ty} (hlen : es.length = tys.length)
    (h : ∀ due ∈ dues es tys, M.SeesAll due.1 due.2) {e : Expr} (he : e ∈ es) : M.Seen e.id := by
  obtain ⟨i, hi, rfl⟩ := List.mem_iff_getElem.1 he
  have hdue : (es[i].id, tys[i]) ∈ dues es tys := by
    refine List.mem_iff_getElem.2 ⟨i, ?_, ?_⟩
    · unfold dues
      rw [List.length_zip, List.length_map]
      omega
    · simp [dues]
  exact (h _ hdue).seen

/-- The statement is the next one, and the types of the ones before are on their way. -/
def Ledger.Next (p : Program) (e : Expr) (L : Ledger) : Prop :=
  ∃ done rest tys, p.stmts = done ++ e :: rest ∧ done.length = tys.length ∧ L.owed = dues done tys

/-! ### Nodes -/

/-- The places that have the type of the node. -/
def Form.targets : Form α → List Ident
  | assign target _ => [target]
  | _ => []

theorem Expr.target_mem_own {e : Expr} {t : Ident} (h : t ∈ e.form.targets) : t.id ∈ e.own := by
  unfold own
  cases hform : e.form with
  | assign target value =>
    rw [hform] at h
    rw [List.mem_singleton.1 h]
    exact List.mem_cons_of_mem _ List.mem_cons_self
  | _ => rw [hform] at h; exact absurd h List.not_mem_nil

/-- A node is seen to have a type. -/
def Module.settle (M : Module) (e : Expr) (ty : Ty) : Module :=
  (M.recordParams (e.form.targets.map (·, ty))).record e.id ty

theorem Module.methods_settle (M : Module) (e : Expr) (ty : Ty) : (M.settle e ty).methods = M.methods :=
  methods_recordParams _ M

theorem Module.sees_settle {M : Module} {e : Expr} {ty : Ty} {k : NodeId} {x : String} :
    (M.settle e ty).Sees k x ↔
      M.Sees k x ∨ (k = e.id ∨ ∃ t ∈ e.form.targets, k = t.id) ∧ x ∈ ty := by
  unfold settle
  rw [sees_record, sees_recordParams, or_assoc]
  refine or_congr_right ?_
  simp only [List.mem_map]
  constructor
  · rintro (⟨_, ⟨t, ht, rfl⟩, hk, hx⟩ | ⟨hk, hx⟩)
    · exact ⟨.inr ⟨t, ht, hk⟩, hx⟩
    · exact ⟨.inl hk, hx⟩
  · rintro ⟨hk | ⟨t, ht, hk⟩, hx⟩
    · exact .inr ⟨hk, hx⟩
    · exact .inl ⟨_, ⟨t, ht, rfl⟩, hk, hx⟩

theorem Module.Grows.settle (M : Module) (e : Expr) (ty : Ty) : M.Grows (M.settle e ty) :=
  fun _ _ h => sees_settle.2 (.inl h)

theorem Module.seesAll_settle (M : Module) (e : Expr) (ty : Ty) : (M.settle e ty).SeesAll e.id ty :=
  fun _ hx => sees_settle.2 (.inr ⟨.inl rfl, hx⟩)

/-- The type that a node has, given what its parts were seen to be. -/
inductive Form.Typed (M : Module) : Form Expr → List (NodeId × Ty) → Ty → Prop
  | literal (v : Literal) : Typed M (.literal v) [] v.type
  | var (name : String) (ty : Ty) : Typed M (.var name) [] ty
  | assign (target : Ident) (value : Expr) (ty : Ty) :
    Typed M (.assign target value) [(value.id, ty)] ty
  | call {name : String} {nameSpan : Span} {args : List Expr} {block : Option (Block Expr)} {ty : Ty} :
    (∀ arg ∈ args, M.Seen arg.id) → Typed M (.call name nameSpan args block) [] ty
  | yield (args : List Expr) (ty : Ty) : Typed M (.yield args) [] ty
  | branch {cond : Expr} {thenBody : List Expr} {elseBody : Option (List Expr)} {thenType elseType : Ty} :
    (thenBody = [] → thenType = .nil) → (elseBody.getD [] = [] → elseType = .nil) →
    Typed M (.branch cond thenBody elseBody)
      (lastDue thenBody thenType ++ lastDue (elseBody.getD []) elseType) (thenType.join elseType)
  | loop (cond : Expr) (stmts : List Expr) : Typed M (.loop cond stmts) [] .nil
  | define (d : Definition Expr) : Typed M (.define d) [] .nil

/-! ### Calls -/

namespace Method

/-- Nothing is evaluated for the call. -/
def Answers (m : Method) (c : Standing) (signature : Signature) : Option (Block Expr) → Prop
  | none => (m.returns? signature).isSome
  | some b => ⟨m.name, signature, b.id⟩ ∈ c.active

/-- The method with what a call has returned. -/
def keep (m : Method) (signature : Signature) (ty : Ty) : Option (Block Expr) → Method
  | none => m.store signature ty
  | some _ => m.observe signature ty

theorem definition_keep (m : Method) (signature : Signature) (ty : Ty) (block : Option (Block Expr)) :
    (m.keep signature ty block).definition = m.definition := by cases block <;> rfl

end Method

namespace Module

/-- The module with which the body of a method is entered. -/
def enter (M : Module) (m : Method) (signature : Signature) : Option (Block Expr) → Module
  | none => (M.updateMethod m.name (·.store signature .nil)).recordParams
      (m.definition.params.zip signature)
  | some _ => M.recordParams (m.definition.params.zip signature)

/-- The module behind the body of a method. -/
def leave (M : Module) (m : Method) (signature : Signature) (ty : Ty) (block : Option (Block Expr)) :
    Module :=
  M.updateMethod m.name (·.keep signature ty block)

theorem Placed.enter {p : Program} {M : Module} (h : M.Placed p) (m : Method) (signature : Signature)
    (block : Option (Block Expr)) : (M.enter m signature block).Placed p := by
  cases block with
  | none =>
    have hstore : (M.updateMethod m.name (·.store signature .nil)).Placed p :=
      h.updateMethod (f := (·.store signature .nil)) fun _ => rfl
    exact hstore.congr (methods_recordParams _ _)
  | some b => exact h.congr (methods_recordParams _ _)

theorem Grows.enter (M : Module) (m : Method) (signature : Signature) (block : Option (Block Expr)) :
    M.Grows (M.enter m signature block) := by
  cases block with
  | none => exact Grows.recordParams (M.updateMethod m.name _) _
  | some b => exact .recordParams M _

end Module

/-- A call whose arguments are evaluated and that has found its method. -/
structure Calling (p : Program) (s : Site) (args : List Expr) (m : Method) (signature : Signature)
    (block : Option (Block Expr)) (M : Module) : Prop where
  site : s ∈ p.sites
  form : ∃ nameSpan, s.expr.form = .call m.name nameSpan args block
  length : args.length = signature.length
  found : M.method? m.name = some m
  arity : m.arity = signature.length

/-! ### Moments -/

/-- What holds at each moment of a run. -/
structure Moment (p : Program) (L : Ledger) (c : Standing) (M : Module) : Prop where
  placed : c.Placed p L.outer
  methods : M.Placed p
  owed : ∀ due ∈ L.owed, M.SeesAll due.1 due.2

namespace Moment
variable {p : Program} {L : Ledger} {c : Standing} {M N : Module} {D : List (NodeId × Ty)}

theorem of_owe (h : Moment p (L.owe D) c M) : Moment p L c M :=
  ⟨h.placed, h.methods, fun due hdue => h.owed due (Ledger.mem_owe.2 (.inl hdue))⟩

theorem dues (h : Moment p (L.owe D) c M) : ∀ due ∈ D, M.SeesAll due.1 due.2 :=
  fun due hdue => h.owed due (Ledger.mem_owe.2 (.inr hdue))

theorem grow (h : Moment p L c M) (hN : N.Placed p) (hg : M.Grows N) : Moment p L c N :=
  ⟨h.placed, hN, fun due hdue => hg.seesAll (h.owed due hdue)⟩

theorem settle {e : Expr} {ty : Ty} (h : Moment p (L.owe D) c M) :
    Moment p (L.owe [(e.id, ty)]) c (M.settle e ty) := by
  refine ⟨h.placed, h.methods.congr ?_, fun due hdue => ?_⟩
  · exact M.methods_settle e ty
  · rcases Ledger.mem_owe.1 hdue with hdue | hdue
    · exact (Module.Grows.settle M e ty).seesAll (h.of_owe.owed due hdue)
    · rw [List.mem_singleton.1 hdue]
      exact M.seesAll_settle e ty

end Moment

/-! ### Arrivals -/

/-- Everything that an expression was seen to be has got where it goes, or is on its way. -/
def Ledger.Covers (p : Program) (Arrived : Sink → String → Prop) (L : Ledger) (M : Module) : Prop :=
  ∀ s ∈ p.sites, ∀ x, M.Sees s.expr.id x →
    Arrived s.sink x ∨ ∃ due ∈ L.owed, due.1 = s.expr.id ∧ x ∈ due.2

/-- What was on its way from expressions has arrived. -/
def Paid (p : Program) (Arrived : Sink → String → Prop) (D : List (NodeId × Ty)) : Prop :=
  ∀ due ∈ D, ∃ s ∈ p.sites, s.expr.id = due.1 ∧ ∀ x ∈ due.2, Arrived s.sink x

namespace Ledger.Covers
variable {p : Program} {Arrived Arrived' : Sink → String → Prop} {L : Ledger} {M N : Module}
  {s : Site} {ty : Ty} {D : List (NodeId × Ty)}

theorem mono (h : L.Covers p Arrived M) (hto : ∀ k x, Arrived k x → Arrived' k x) :
    L.Covers p Arrived' M := fun s hs x hx => (h s hs x hx).imp_left (hto s.sink x)

/-- Where nothing new is seen of expressions. -/
theorem of_sees (h : L.Covers p Arrived M)
    (hN : ∀ s ∈ p.sites, ∀ x, N.Sees s.expr.id x → M.Sees s.expr.id x) : L.Covers p Arrived N :=
  fun s hs x hx => h s hs x (hN s hs x hx)

variable (hids : p.ids.Nodup)
include hids

theorem pay (h : (L.owe D).Covers p Arrived M) (hD : Paid p Arrived D) : L.Covers p Arrived M := by
  intro s hs x hx
  rcases h s hs x hx with harrived | ⟨due, hdue, hid, hmem⟩
  · exact .inl harrived
  · rcases mem_owe.1 hdue with hdue | hdue
    · exact .inr ⟨due, hdue, hid, hmem⟩
    · obtain ⟨q, hq, hqid, harrived⟩ := hD due hdue
      obtain rfl : q = s := Program.site_unique hids hq hs (n := due.1)
        (by rw [← hqid]; exact List.mem_cons_self) (by rw [hid]; exact List.mem_cons_self)
      exact .inl (harrived x hmem)

theorem settle (h : L.Covers p Arrived M) (hs : s ∈ p.sites) :
    (L.owe [(s.expr.id, ty)]).Covers p Arrived (M.settle s.expr ty) := by
  intro q hq x hx
  have hnew (hown : q.expr.id ∈ s.expr.own) (hxty : x ∈ ty) :
      Arrived q.sink x ∨ ∃ due ∈ (L.owe [(s.expr.id, ty)]).owed, due.1 = q.expr.id ∧ x ∈ due.2 := by
    obtain rfl := Program.site_unique hids hq hs List.mem_cons_self hown
    exact .inr ⟨_, mem_owe.2 (.inr (List.mem_singleton_self _)), rfl, hxty⟩
  rcases Module.sees_settle.1 hx with hold | ⟨hid | ⟨t, ht, hid⟩, hxty⟩
  · refine (h q hq x hold).imp_right fun ⟨due, hdue, hid, hmem⟩ => ?_
    exact ⟨due, mem_owe.2 (.inl hdue), hid, hmem⟩
  · exact hnew (hid ▸ List.mem_cons_self) hxty
  · refine hnew ?_ hxty
    rw [hid]
    exact Expr.target_mem_own ht

end Ledger.Covers

/-! ### Where types are due -/

section
variable {s q : Site} {stmts : List Expr} {ty : Ty} {due : NodeId × Ty} {k : Sink}
  {outer : List Enclosure}

theorem exists_of_lastDue (h : due ∈ lastDue stmts ty) :
    ∃ q ∈ Site.body outer k stmts, q.expr.id = due.1 ∧ q.sink = k ∧ due.2 = ty := by
  obtain ⟨e, he, rfl⟩ := List.mem_map.1 h
  exact ⟨_, Site.last_mem_body (Option.mem_toList.1 he), rfl, rfl, rfl⟩

/-- What a node gets its type from is due there. -/
theorem Form.Typed.exists_part {M : Module} {D : List (NodeId × Ty)}
    (h : s.expr.form.Typed M D ty) (hdue : due ∈ D) :
    ∃ q ∈ s.parts, q.expr.id = due.1 ∧ q.sink = .node s.expr.id ∧ ∀ x ∈ due.2, x ∈ ty := by
  generalize hform : s.expr.form = form at h
  cases h with
  | assign target value _ =>
    rw [List.mem_singleton.1 hdue]
    refine ⟨⟨s.outer, .node s.expr.id, value⟩, ?_, rfl, rfl, fun x hx => hx⟩
    rw [Site.parts, hform]
    exact List.mem_singleton_self _
  | @branch cond thenBody elseBody thenType elseType _ _ =>
    have hparts : s.parts = ⟨s.outer, .nothing, cond⟩ ::
        (Site.body s.outer (.node s.expr.id) thenBody ++
          Site.body s.outer (.node s.expr.id) (elseBody.getD [])) := by rw [Site.parts, hform]
    rw [hparts]
    rcases List.mem_append.1 hdue with hdue | hdue
    · obtain ⟨q, hq, hid, hsink, hty⟩ := exists_of_lastDue hdue
      refine ⟨q, List.mem_cons_of_mem _ (List.mem_append_left _ hq), hid, hsink, fun x hx => ?_⟩
      exact Ty.mem_join.2 (.inl (hty ▸ hx))
    · obtain ⟨q, hq, hid, hsink, hty⟩ := exists_of_lastDue hdue
      refine ⟨q, List.mem_cons_of_mem _ (List.mem_append_right _ hq), hid, hsink, fun x hx => ?_⟩
      exact Ty.mem_join.2 (.inr (hty ▸ hx))
  | _ => exact absurd hdue List.not_mem_nil

theorem Calling.exists_part {p : Program} {args : List Expr} {m : Method} {signature : Signature}
    {block : Option (Block Expr)} {M : Module} (h : Calling p s args m signature block M)
    (hdue : due ∈ dues args signature) :
    ∃ q ∈ s.parts, ∃ i, q.expr.id = due.1 ∧ q.sink = .argument m.name i ∧
      signature[i]? = some due.2 := by
  obtain ⟨nameSpan, hform⟩ := h.form
  obtain ⟨i, hi⟩ := List.mem_iff_getElem?.1 hdue
  obtain ⟨hid, hty⟩ := List.getElem?_zip_eq_some.1 hi
  rw [List.getElem?_map, Option.map_eq_some_iff] at hid
  obtain ⟨arg, harg, hid⟩ := hid
  refine ⟨⟨s.outer, .argument m.name i, arg⟩, ?_, i, hid, rfl, hty⟩
  rw [Site.parts, hform]
  cases block with
  | none => exact Site.argument_mem harg
  | some b => exact List.mem_append_left _ (Site.argument_mem harg)

theorem exists_part_of_define {d : Definition Expr} (hform : s.expr.form = .define d)
    (hdue : due ∈ lastDue d.body ty) :
    ∃ q ∈ s.parts, q.expr.id = due.1 ∧ q.sink = .returns d.name.name ∧ due.2 = ty := by
  rw [Site.parts, hform]
  exact exists_of_lastDue hdue

theorem exists_part_of_block {name : String} {nameSpan : Span} {args : List Expr} {b : Block Expr}
    (hform : s.expr.form = .call name nameSpan args (some b)) (hdue : due ∈ lastDue b.body ty) :
    ∃ q ∈ s.parts, q.expr.id = due.1 ∧ q.sink = .node b.id ∧ due.2 = ty := by
  obtain ⟨q, hq, h⟩ := exists_of_lastDue hdue
  rw [Site.parts, hform]
  exact ⟨q, List.mem_append_right _ hq, h⟩

end

namespace Ledger.Covers
variable {p : Program} {Arrived Arrived' : Sink → String → Prop} {L : Ledger} {M : Module}
  {s : Site} {ty : Ty} {D : List (NodeId × Ty)} (hids : p.ids.Nodup)
include hids

/-- A type that goes nowhere. -/
theorem forget (h : (L.owe [(s.expr.id, ty)]).Covers p Arrived M) (hs : s ∈ p.sites)
    (hsink : ∀ x, Arrived s.sink x) : L.Covers p Arrived M := by
  refine h.pay hids fun due hdue => ⟨s, hs, ?_, fun x _ => hsink x⟩
  rw [List.mem_singleton.1 hdue]

/-- The types of the parts have got into the type of the node, which is on its way then. -/
theorem settle_parts (h : (L.owe D).Covers p Arrived M) (hs : s ∈ p.sites)
    (hty : s.expr.form.Typed M D ty) (hto : ∀ k x, Arrived k x → Arrived' k x)
    (hnode : ∀ x ∈ ty, Arrived' (.node s.expr.id) x) :
    (L.owe [(s.expr.id, ty)]).Covers p Arrived' (M.settle s.expr ty) := by
  refine ((h.mono hto).pay hids fun due hdue => ?_).settle hids hs
  obtain ⟨q, hq, hid, hsink, hle⟩ := hty.exists_part hdue
  refine ⟨q, Program.part_mem_sites hs hq, hid, fun x hx => ?_⟩
  rw [hsink]
  exact hnode x (hle x hx)

/-- The types of the arguments of a call have got to the parameters. -/
theorem pay_args {args : List Expr} {m : Method} {signature : Signature}
    {block : Option (Block Expr)} {K : Module} (h : (L.owe (dues args signature)).Covers p Arrived M)
    (hcall : Calling p s args m signature block K)
    (hargs : ∀ i ty, signature[i]? = some ty → ∀ x ∈ ty, Arrived (.argument m.name i) x) :
    L.Covers p Arrived M := by
  refine h.pay hids fun due hdue => ?_
  obtain ⟨q, hq, i, hid, hsink, hty⟩ := hcall.exists_part hdue
  refine ⟨q, Program.part_mem_sites hcall.site hq, hid, fun x hx => ?_⟩
  rw [hsink]
  exact hargs i due.2 hty x hx

/-- What the body of a definition had has got where the definition returns it. -/
theorem pay_last {d : Definition Expr} (h : (L.owe (lastDue d.body ty)).Covers p Arrived M)
    (hs : s ∈ p.sites) (hform : s.expr.form = .define d)
    (hreturns : ∀ x ∈ ty, Arrived (.returns d.name.name) x) : L.Covers p Arrived M := by
  refine h.pay hids fun due hdue => ?_
  obtain ⟨q, hq, hid, hsink, hty⟩ := exists_part_of_define hform hdue
  refine ⟨q, Program.part_mem_sites hs hq, hid, fun x hx => ?_⟩
  rw [hsink]
  exact hreturns x (hty ▸ hx)

/-- What the passes over the body of a block had has got into the type of the block. -/
theorem pay_passes {b : Block Expr} {name : String} {nameSpan : Span} {args : List Expr}
    {tys : List Ty} (h : (L.owe (tys.flatMap (lastDue b.body))).Covers p Arrived M)
    (hs : s ∈ p.sites) (hform : s.expr.form = .call name nameSpan args (some b))
    (hblock : ∀ ty ∈ tys, ∀ x ∈ ty, Arrived (.node b.id) x) : L.Covers p Arrived M := by
  refine h.pay hids fun due hdue => ?_
  obtain ⟨ty, hty, hdue⟩ := List.mem_flatMap.1 hdue
  obtain ⟨q, hq, hid, hsink, hdueType⟩ := exists_part_of_block hform hdue
  refine ⟨q, Program.part_mem_sites hs hq, hid, fun x hx => ?_⟩
  rw [hsink]
  exact hblock ty hty x (hdueType ▸ hx)

/-- Once the program has ended, only statements are left on their way. -/
theorem arrived {tys : List Ty} (h : Covers p Arrived ⟨[], dues p.stmts tys, []⟩ M)
    (hs : s ∈ p.sites) (hsink : s.sink ≠ .statement) {x : String} (hx : M.Sees s.expr.id x) :
    Arrived s.sink x := by
  refine (h s hs x hx).resolve_right ?_
  rintro ⟨due, hdue, hid, -⟩
  obtain ⟨e, he, heq⟩ := exists_of_dues hdue
  have hself : s.expr.id ∈ e.own := by rw [← hid, ← heq]; exact List.mem_cons_self
  rw [Program.site_unique hids hs (Program.stmt_mem_sites he) List.mem_cons_self hself] at hsink
  exact hsink rfl

end Ledger.Covers

end FlowTyping
