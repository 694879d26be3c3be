import FlowTyping.Proofs.Annotations
import FlowTyping.Proofs.Entries

/-!
# The methods agree with the table

Where each name is defined once, by a statement, what is kept of the calls of a method agrees with the
types of its parameters and of the last statement of its body, and the types of the arguments of calls
with those of the parameters: `Program.agreesOn_of_infer`.  While calls are under inference, the
parameters have been seen already, and what the last statement was seen to be is on its way
(`Account.tallies`).
-/

namespace FlowTyping

/-! ### Definitions -/

namespace Program
variable {p : Program}

/-- The names that are defined by statements. -/
def definedNames (p : Program) : List String :=
  p.stmts.filterMap fun e => match e.form with
    | .define d => some d.name.name
    | _ => none

theorem definition_unique (htop : p.defsAtTop) (hnames : p.definedNames.Nodup) {s q : Site}
    (hs : s ∈ p.sites) (hq : q ∈ p.sites) {d d' : Definition Expr} (hsform : s.expr.form = .define d)
    (hqform : q.expr.form = .define d') (hname : d.name.name = d'.name.name) : d = d' := by
  have hsmem := (sink_eq_statement hs (statement_of_define htop hs hsform)).2
  have hqmem := (sink_eq_statement hq (statement_of_define htop hq hqform)).2
  by_cases heq : s.expr = q.expr
  · rw [heq, hqform] at hsform
    cases hsform
    rfl
  · rw [definedNames, List.Nodup, List.pairwise_filterMap] at hnames
    have hsymm : Std.Symm fun e e' : Expr =>
        ∀ x, (match e.form with | .define d => some d.name.name | _ => none) = some x →
          ∀ y, (match e'.form with | .define d => some d.name.name | _ => none) = some y → x ≠ y :=
      ⟨fun _ _ h y hy x hx => (h x hx y hy).symm⟩
    exact absurd hname (hnames.forall hsmem hqmem heq _ (by rw [hsform]) _ (by rw [hqform]))

end Program

/-! ### Calls that have begun, and what they return -/

namespace Instance

theorem mem_returns_upsert {signature : Signature} {ty : Ty} {is : List Instance} {x : String} :
    (∃ i ∈ upsert Ty.join signature ty is, x ∈ i.returns) ↔ (∃ i ∈ is, x ∈ i.returns) ∨ x ∈ ty := by
  induction is with
  | nil => simp [upsert]
  | cons i is ih =>
    rw [upsert]
    split
    · simp only [List.exists_mem_cons_iff, Ty.mem_join]
      exact or_right_comm
    · simp only [List.exists_mem_cons_iff, ih, or_assoc]

end Instance

theorem Method.mem_signatures_of_returns? {m : Method} {signature : Signature}
    (h : (m.returns? signature).isSome) : signature ∈ m.signatures := by
  obtain ⟨ty, hty⟩ := Option.isSome_iff_exists.1 h
  obtain ⟨i, hi, -⟩ := Option.map_eq_some_iff.1 hty
  obtain rfl : i.signature = signature := by simpa using List.find?_some hi
  exact List.mem_map_of_mem (List.mem_append_left _ (List.mem_of_find?_eq_some hi))

namespace Module
variable {M N : Module} {active : List BlockCall} {name other : String} {signature sig : Signature}
  {ty : Ty} {x : String} {P : List (String × Signature)} {block : Option (Block Expr)} {m : Method}

/-- A call of the method was inferred or is under inference. -/
def Begun (M : Module) (active : List BlockCall) (name : String) (signature : Signature) : Prop :=
  (∃ m, M.method? name = some m ∧ signature ∈ m.signatures) ∨ ∃ b, ⟨name, signature, b⟩ ∈ active

/-- Calls of the method that are not among `P` were found to return it. -/
def Returns (M : Module) (P : List (String × Signature)) (name : String) (x : String) : Prop :=
  (∃ signature ty, M.settled P (name, signature) = some ty ∧ x ∈ ty) ∨
    ∃ m, M.method? name = some m ∧ ∃ i ∈ m.blockInstances, x ∈ i.returns

theorem begun_congr (h : N.methods = M.methods) :
    N.Begun active name signature ↔ M.Begun active name signature := by
  unfold Begun; rw [method?_congr h]

theorem returns_congr (h : N.methods = M.methods) : N.Returns P name x ↔ M.Returns P name x := by
  unfold Returns; rw [method?_congr h, settled_congr h]

/-- A call with a block is begun. -/
theorem begun_cons {id : NodeId} :
    M.Begun (⟨name, signature, id⟩ :: active) other sig ↔
      M.Begun active other sig ∨ other = name ∧ sig = signature := by
  unfold Begun
  rw [or_assoc]
  refine or_congr_right ?_
  simp only [List.mem_cons, BlockCall.mk.injEq]
  constructor
  · rintro ⟨b, ⟨hother, hsig, -⟩ | hmem⟩
    · exact .inr ⟨hother, hsig⟩
    · exact .inl ⟨b, hmem⟩
  · rintro (⟨b, hmem⟩ | ⟨hother, hsig⟩)
    · exact ⟨b, .inr hmem⟩
    · exact ⟨id, .inl ⟨hother, hsig, rfl⟩⟩

theorem mem_keep {new : Method} (h : new ∈ (M.updateMethod name (·.keep signature ty block)).methods) :
    ∃ m ∈ M.methods, new.definition = m.definition := by
  obtain ⟨m, hm, hdefinition, -⟩ := mem_updateMethod (f := (·.keep signature ty block))
    (fun m => m.definition_keep signature ty block) h
  exact ⟨m, hm, hdefinition⟩

theorem definition?_keep (M : Module) (name : String) (signature : Signature) (ty : Ty)
    (block : Option (Block Expr)) :
    (M.updateMethod name (·.keep signature ty block)).definition? = M.definition? :=
  definition?_updateMethod (f := (·.keep signature ty block))
    (fun m => m.definition_keep signature ty block) M name

theorem Distinct.congr (hN : N.methods = M.methods) (h : M.Distinct) : N.Distinct := by
  unfold Distinct
  rw [hN]
  exact h

theorem Distinct.keep (h : M.Distinct) :
    (M.updateMethod name (·.keep signature ty block)).Distinct := by
  cases block with
  | none => exact h.store
  | some b => exact h.observe

theorem isSome_known_keep (hm : (M.definition? name).isSome) {q : String × Signature}
    (h : (M.known q).isSome) : ((M.updateMethod name (·.keep signature ty block)).known q).isSome := by
  cases block with
  | none =>
    refine (congrArg Option.isSome (known_store hm)).trans ?_
    split
    · rfl
    · exact h
  | some b => exact (congrArg Option.isSome (congrFun known_observe q)).trans h

/-- What a change of a method adds to what holds of the method that has a name. -/
theorem exists_method?_updateMethod {f : Method → Method} (hf : ∀ m, (f m).name = m.name)
    (hm : (M.definition? name).isSome) {Q : Method → Prop} {R : Prop} (hQ : ∀ m, Q (f m) ↔ Q m ∨ R) :
    (∃ m, (M.updateMethod name f).method? other = some m ∧ Q m) ↔
      (∃ m, M.method? other = some m ∧ Q m) ∨ other = name ∧ R := by
  obtain ⟨d, hd⟩ := Option.isSome_iff_exists.1 hm
  obtain ⟨m, hm, -⟩ := exists_of_definition? hd
  rw [method?_updateMethod hf]
  by_cases hother : other = name
  · subst hother
    rw [if_pos rfl, hm]
    simp only [Option.map_some, Option.some.injEq, exists_eq_left', hQ, true_and]
  · rw [if_neg hother]
    simp only [hother, false_and, or_false]

/-- Keeping what a call has returned adds the call. -/
theorem begun_keep (hm : (M.definition? name).isSome) :
    (M.updateMethod name (·.keep signature ty block)).Begun active other sig ↔
      M.Begun active other sig ∨ other = name ∧ sig = signature := by
  have hname (m : Method) : (m.keep signature ty block).name = m.name :=
    congrArg (fun d => d.name.name) (m.definition_keep signature ty block)
  unfold Begun
  rw [exists_method?_updateMethod hname hm fun _ => Method.mem_signatures_keep]
  exact or_right_comm

theorem returns_observe (hm : (M.definition? name).isSome) :
    (M.updateMethod name (·.observe signature ty)).Returns P other x ↔
      M.Returns P other x ∨ other = name ∧ x ∈ ty := by
  unfold Returns
  rw [settled_observe, exists_method?_updateMethod (f := (·.observe signature ty)) (fun _ => rfl) hm
    fun _ => Instance.mem_returns_upsert, or_assoc]

/-- What calls with a block return is kept apart from what the others do. -/
theorem blockReturns_store (hm : (M.definition? name).isSome) :
    (∃ m, (M.updateMethod name (·.store signature ty)).method? other = some m ∧
      ∃ i ∈ m.blockInstances, x ∈ i.returns) ↔
        ∃ m, M.method? other = some m ∧ ∃ i ∈ m.blockInstances, x ∈ i.returns := by
  rw [exists_method?_updateMethod (f := (·.store signature ty)) (R := False) (fun _ => rfl) hm
    fun _ => (or_iff_left id).symm]
  exact or_iff_left And.right

theorem returns_store_nil (hm : (M.definition? name).isSome)
    (hnew : M.known (name, signature) = none) :
    (M.updateMethod name (·.store signature .nil)).Returns ((name, signature) :: P) other x ↔
      M.Returns P other x := by
  unfold Returns
  rw [settled_start hm hnew, blockReturns_store hm]

theorem settledReturns_store (hm : (M.definition? name).isSome) (hP : (name, signature) ∉ P) :
    (∃ sig ty', (M.updateMethod name (·.store signature ty)).settled P (other, sig) = some ty' ∧
      x ∈ ty') ↔
        (∃ sig ty', M.settled ((name, signature) :: P) (other, sig) = some ty' ∧ x ∈ ty') ∨
          other = name ∧ x ∈ ty := by
  rw [settled_finish hm hP]
  constructor
  · rintro ⟨sig, ty', hty, hx⟩
    by_cases heq : (other, sig) = (name, signature)
    · rw [heq, Function.update_self] at hty
      cases hty
      exact .inr ⟨congrArg Prod.fst heq, hx⟩
    · rw [Function.update_of_ne heq] at hty
      exact .inl ⟨sig, ty', hty, hx⟩
  · rintro (⟨sig, ty', hty, hx⟩ | ⟨rfl, hx⟩)
    -- Before, the call itself was not among those that something is known of.
    · refine ⟨sig, ty', ?_, hx⟩
      rw [Function.update_of_ne, hty]
      intro heq
      exact (settled_eq_some_iff.1 hty).1 (heq ▸ List.mem_cons_self)
    · exact ⟨signature, ty, Function.update_self .., hx⟩

theorem returns_store (hm : (M.definition? name).isSome) (hP : (name, signature) ∉ P) :
    (M.updateMethod name (·.store signature ty)).Returns P other x ↔
      M.Returns ((name, signature) :: P) other x ∨ other = name ∧ x ∈ ty := by
  unfold Returns
  rw [blockReturns_store hm, settledReturns_store hm hP]
  exact or_right_comm

/-! #### Where calls begin and end -/

section
variable {c : Standing}

/-- The parameters were seen to be what a call gives for them. -/
def Binds (M : Module) (d : Definition Expr) (signature : Signature) : Prop :=
  signature.length = d.params.length ∧ ∀ (j : Nat) param ty, d.params[j]? = some param →
    signature[j]? = some ty → M.SeesAll param.id ty

theorem Binds.grow {d : Definition Expr} (hg : M.Grows N) (h : M.Binds d signature) :
    N.Binds d signature :=
  ⟨h.1, fun j param ty hparam hty => hg.seesAll (h.2 j param ty hparam hty)⟩

theorem sees_enter {n : NodeId} : (M.enter m signature block).Sees n x ↔ M.Sees n x ∨
    ∃ (j : Nat) (param : Ident) (ty : Ty), m.definition.params[j]? = some param ∧
      signature[j]? = some ty ∧ n = param.id ∧ x ∈ ty := by
  have hzip : (∃ param ∈ m.definition.params.zip signature, n = param.1.id ∧ x ∈ param.2) ↔
      ∃ (j : Nat) (param : Ident) (ty : Ty), m.definition.params[j]? = some param ∧
        signature[j]? = some ty ∧ n = param.id ∧ x ∈ ty := by
    constructor
    · rintro ⟨⟨param, ty⟩, hmem, hn, hx⟩
      obtain ⟨j, hj⟩ := List.mem_iff_getElem?.1 hmem
      obtain ⟨hparam, hty⟩ := List.getElem?_zip_eq_some.1 hj
      exact ⟨j, param, ty, hparam, hty, hn, hx⟩
    · rintro ⟨j, param, ty, hparam, hty, hn, hx⟩
      have hmem : (param, ty) ∈ m.definition.params.zip signature :=
        List.mem_iff_getElem?.2 ⟨j, List.getElem?_zip_eq_some.2 ⟨hparam, hty⟩⟩
      exact ⟨(param, ty), hmem, hn, hx⟩
  rw [← hzip]
  cases block with
  | none => exact sees_recordParams (M := M.updateMethod m.name _)
  | some b => exact sees_recordParams

theorem mem_enter {new : Method} (h : new ∈ (M.enter m signature block).methods) :
    ∃ old ∈ M.methods, new.definition = old.definition := by
  cases block with
  | none =>
    have hstore : new ∈ (M.updateMethod m.name (·.keep signature .nil none)).methods :=
      methods_recordParams _ (M.updateMethod m.name _) ▸ h
    exact mem_keep hstore
  | some b => exact ⟨new, methods_recordParams _ M ▸ h, rfl⟩

theorem definition?_enter : (M.enter m signature block).definition? = M.definition? := by
  cases block with
  | none => exact (definition?_congr (methods_recordParams _ _)).trans (definition?_store M ..)
  | some b => exact definition?_congr (methods_recordParams _ M)

theorem Distinct.enter (h : M.Distinct) : (M.enter m signature block).Distinct := by
  cases block with
  | none => exact Distinct.congr (methods_recordParams _ _) h.store
  | some b => exact h.congr (methods_recordParams _ M)

theorem isSome_known_enter (hm : M.method? m.name = some m) {q : String × Signature}
    (h : (M.known q).isSome ∨ block = none ∧ q = (m.name, signature)) :
    ((M.enter m signature block).known q).isSome := by
  cases block with
  | none =>
    refine (congrArg Option.isSome (congrFun (known_congr (methods_recordParams _ _)) q)).trans ?_
    rw [known_store (isSome_definition? hm)]
    split
    · rfl
    · next hq => exact h.resolve_right fun ⟨_, heq⟩ => hq heq
  | some b =>
    refine (congrArg Option.isSome (congrFun (known_congr (methods_recordParams _ M)) q)).trans ?_
    exact h.resolve_right nofun

theorem begun_enter (hm : M.method? m.name = some m) :
    (M.enter m signature block).Begun (c.inside m signature block).active other sig ↔
      M.Begun c.active other sig ∨ other = m.name ∧ sig = signature := by
  cases block with
  | none =>
    have hkeep : (M.updateMethod m.name (·.keep signature .nil none)).Begun c.active other sig ↔
        M.Begun c.active other sig ∨ other = m.name ∧ sig = signature :=
      begun_keep (isSome_definition? hm)
    exact (begun_congr (methods_recordParams _ _)).trans hkeep
  | some b =>
    exact (begun_congr (methods_recordParams _ M)).trans begun_cons

theorem returns_enter (hm : M.method? m.name = some m) (hnew : ¬ m.Answers c signature block) :
    (M.enter m signature block).Returns (pending (c.inside m signature block).under) other x ↔
      M.Returns (pending c.under) other x := by
  cases block with
  | none =>
    have hnone : M.known (m.name, signature) = none :=
      (known_of_method? hm).trans (Option.not_isSome_iff_eq_none.1 hnew)
    exact (returns_congr (methods_recordParams _ _)).trans
      (returns_store_nil (isSome_definition? hm) hnone)
  | some b => exact returns_congr (methods_recordParams _ M)

theorem begun_leave (hm : (M.definition? m.name).isSome)
    (hpending : block = none → (M.known (m.name, signature)).isSome) :
    (M.leave m signature ty block).Begun c.active other sig ↔
      M.Begun (c.inside m signature block).active other sig := by
  rw [leave, begun_keep hm]
  cases block with
  | none =>
    refine or_iff_left_of_imp ?_
    rintro ⟨rfl, rfl⟩
    obtain ⟨returned, hknown⟩ := Option.isSome_iff_exists.1 (hpending rfl)
    obtain ⟨method, hmethod, hreturns⟩ := Option.bind_eq_some_iff.1 hknown
    refine .inl ⟨method, hmethod, ?_⟩
    exact Method.mem_signatures_of_returns? (Option.isSome_iff_exists.2 ⟨returned, hreturns⟩)
  | some b =>
    exact begun_cons.symm

/-- What the body has is what the call returns. -/
theorem returns_leave (hm : (M.definition? m.name).isSome)
    (hnew : block = none → (m.name, signature) ∉ pending c.under) :
    (M.leave m signature ty block).Returns (pending c.under) other x ↔
      M.Returns (pending (c.inside m signature block).under) other x ∨ other = m.name ∧ x ∈ ty := by
  cases block with
  | none => exact returns_store hm (hnew rfl)
  | some b => exact returns_observe hm

end

/-! #### New names -/

section
variable {d : Definition Expr} (hnew : M.method? d.name.name = none)
include hnew

theorem known_define : (M.define d).known = M.known := by
  funext q
  unfold known
  rw [method?_define]
  split
  · next hq => rw [hq, hnew]; rfl
  · rfl

theorem exists_method?_define {Q : Method → Prop} (hQ : ¬ Q { definition := d }) :
    (∃ m, (M.define d).method? name = some m ∧ Q m) ↔ ∃ m, M.method? name = some m ∧ Q m := by
  rw [method?_define]
  split
  · next hname =>
    refine iff_of_false ?_ ?_
    · rintro ⟨m, heq, hm⟩
      exact hQ (Option.some.inj heq ▸ hm)
    · rintro ⟨m, heq, -⟩
      rw [hname, hnew] at heq
      exact nomatch heq
  · rfl

theorem begun_define : (M.define d).Begun active name signature ↔ M.Begun active name signature :=
  or_congr_left (exists_method?_define hnew List.not_mem_nil)

theorem returns_define : (M.define d).Returns P name x ↔ M.Returns P name x := by
  have hsettled : (M.define d).settled P = M.settled P := by unfold settled; rw [known_define hnew]
  unfold Returns
  rw [hsettled]
  exact or_congr_right (exists_method?_define hnew fun ⟨_, hi, _⟩ => List.not_mem_nil hi)

end

end Module

/-! ### The table and the calls along a run -/

namespace Program
variable {p : Program} {s q : Site} (hids : p.ids.Nodup)
include hids

/-- A parameter is one of one definition. -/
theorem param_unique (hs : s ∈ p.sites) (hq : q ∈ p.sites) {d d' : Definition Expr}
    (hsform : s.expr.form = .define d) (hqform : q.expr.form = .define d') {i j : Nat}
    {param other : Ident} (hparam : d.params[i]? = some param) (hother : d'.params[j]? = some other)
    (hid : param.id = other.id) : d = d' ∧ i = j := by
  have hmem {s : Site} {d : Definition Expr} {i : Nat} {param : Ident} (hform : s.expr.form = .define d)
      (hparam : d.params[i]? = some param) : param.id ∈ s.expr.own := by
    refine Expr.param_mem_own ?_
    rw [hform]
    exact List.mem_of_getElem? hparam
  obtain rfl := site_unique hids hs hq (hmem hsform hparam) (hid ▸ hmem hqform hother)
  rw [hsform] at hqform
  cases hqform
  have hnodup := ((nodup_own hids hs).sublist (Expr.sublist_own _)).of_append_right
  rw [hsform] at hnodup
  obtain ⟨hi, rfl⟩ := List.getElem?_eq_some_iff.1 hparam
  refine ⟨rfl, (List.getElem?_inj (by rwa [Form.params, List.length_map]) hnodup).1 ?_⟩
  rw [Form.params, List.getElem?_map, List.getElem?_map, hparam, hother, Option.map_some,
    Option.map_some, hid]

end Program

/-- What has got into the types of parameters and into what methods return. -/
def Module.Reported (p : Program) (P : List (String × Signature)) (M : Module) : Sink → String → Prop
  | .argument name i, x => ∃ s ∈ p.sites, ∃ d param, s.expr.form = .define d ∧ d.name.name = name ∧
      d.params[i]? = some param ∧ M.Sees param.id x
  | .returns name, x => M.Returns P name x
  | .statement, _ => False
  | _, _ => True

theorem Module.Reported.mono {p : Program} {P Q : List (String × Signature)} {M N : Module}
    (hg : M.Grows N) (hreturns : ∀ name x, M.Returns P name x → N.Returns Q name x) {k : Sink}
    {x : String} (h : M.Reported p P k x) : N.Reported p Q k x := by
  cases k with
  | argument name i =>
    obtain ⟨s, hs, d, param, hform, hname, hparam, hx⟩ := h
    exact ⟨s, hs, d, param, hform, hname, hparam, hg _ x hx⟩
  | returns name => exact hreturns name x h
  | statement => exact h
  | _ => trivial

theorem Module.Reported.see {p : Program} {P : List (String × Signature)} {M N : Module}
    (hmethods : N.methods = M.methods) (hg : M.Grows N) {k : Sink} {x : String}
    (h : M.Reported p P k x) : N.Reported p P k x :=
  h.mono hg fun _ _ => (returns_congr hmethods).2

theorem Ledger.Covers.settle_reported {p : Program} {P : List (String × Signature)} {L : Ledger}
    {M : Module} {s : Site} {D : List (NodeId × Ty)} {ty : Ty} (hids : p.ids.Nodup)
    (h : (L.owe D).Covers p (M.Reported p P) M) (hs : s ∈ p.sites) (hty : s.expr.form.Typed M D ty) :
    (L.owe [(s.expr.id, ty)]).Covers p ((M.settle s.expr ty).Reported p P) (M.settle s.expr ty) :=
  h.settle_parts hids hs hty (fun _ _ => .see (M.methods_settle s.expr ty) (.settle M s.expr ty))
    fun _ _ => trivial

/-- The parameters were seen to be what the calls give that have begun, and the last statements at least
what is returned. -/
structure Tallies (p : Program) (active : List BlockCall)
    (under : List (Definition Expr × Option Signature)) (M : Module) : Prop where
  begun : ∀ s ∈ p.sites, ∀ d, s.expr.form = .define d → ∀ signature,
    M.Begun active d.name.name signature → M.Binds d signature
  params : ∀ s ∈ p.sites, ∀ d, s.expr.form = .define d → ∀ (j : Nat) param,
    d.params[j]? = some param → ∀ x, M.Sees param.id x →
      ∃ signature ty, M.Begun active d.name.name signature ∧ signature[j]? = some ty ∧ x ∈ ty
  last : ∀ s ∈ p.sites, ∀ d, s.expr.form = .define d → ∀ e, d.body.getLast? = some e → ∀ x,
    M.Returns (pending under) d.name.name x → M.Sees e.id x
  args : ∀ s ∈ p.sites, ∀ name nameSpan args block, s.expr.form = .call name nameSpan args block →
    M.Seen s.expr.id → ∀ arg ∈ args, M.Seen arg.id
  defined : ∀ m ∈ M.methods, ∃ s ∈ p.sites, s.expr.form = .define m.definition ∧ M.Seen s.expr.id
  distinct : M.Distinct
  known : ∀ entry ∈ under, (M.definition? entry.1.name.name).isSome
  supposed : ∀ q ∈ pending under, (M.known q).isSome

namespace Tallies
variable {p : Program} {active : List BlockCall} {under : List (Definition Expr × Option Signature)}
  {c : Standing} {M N : Module} {s q : Site} {L : Ledger} {D : List (NodeId × Ty)} {ty : Ty}
  {d : Definition Expr} {args : List Expr} {m : Method} {signature : Signature}
  {block : Option (Block Expr)}

/-- Where other nodes are seen, but nothing new of parameters. -/
theorem see (h : Tallies p active under M) (hmethods : N.methods = M.methods) (hg : M.Grows N)
    (hparams : ∀ s ∈ p.sites, ∀ param ∈ s.expr.form.params, s.expr.form.block? = none → ∀ x,
      N.Sees param.id x → M.Sees param.id x)
    (hargs : ∀ s ∈ p.sites, ∀ name nameSpan args block, s.expr.form = .call name nameSpan args block →
      N.Seen s.expr.id → M.Seen s.expr.id ∨ ∀ arg ∈ args, M.Seen arg.id) :
    Tallies p active under N where
  begun s hs d hform signature hbegun :=
    (h.begun s hs d hform signature ((Module.begun_congr hmethods).1 hbegun)).grow hg
  params := by
    intro s hs d hform j param hparam x hx
    obtain ⟨signature, ty, hbegun, hty, hmem⟩ := h.params s hs d hform j param hparam x <|
      hparams s hs param (by rw [hform]; exact List.mem_of_getElem? hparam) (by rw [hform]; rfl) x hx
    exact ⟨signature, ty, (Module.begun_congr hmethods).2 hbegun, hty, hmem⟩
  last s hs d hform e he x hx :=
    hg _ x (h.last s hs d hform e he x ((Module.returns_congr hmethods).1 hx))
  args s hs name nameSpan args block hform hseen arg harg := hg.seen <|
    (hargs s hs name nameSpan args block hform hseen).elim
      (fun hseen => h.args s hs name nameSpan args block hform hseen arg harg) fun hall => hall arg harg
  defined := by
    rw [hmethods]
    intro m hm
    obtain ⟨s, hs, hform, hseen⟩ := h.defined m hm
    exact ⟨s, hs, hform, hg.seen hseen⟩
  distinct := h.distinct.congr hmethods
  known := by rw [Module.definition?_congr hmethods]; exact h.known
  supposed := by rw [Module.known_congr hmethods]; exact h.supposed

/-- A name is new where the statement that defines it is next. -/
theorem method?_eq_none (h : Tallies p active under M) (hids : p.ids.Nodup) (htop : p.defsAtTop)
    (hnames : p.definedNames.Nodup) (hcovers : L.Covers p (M.Reported p (pending under)) M)
    (hs : s ∈ p.sites) (hform : s.expr.form = .define d) (hnext : L.Next p s.expr) :
    M.method? d.name.name = none := by
  by_contra hsome
  obtain ⟨m, hm⟩ := Option.ne_none_iff_exists'.1 hsome
  obtain ⟨q, hq, hqform, x, hx⟩ := h.defined m (Module.mem_of_method? hm)
  have hsame : d = m.definition :=
    Program.definition_unique htop hnames hs hq hform hqform (Module.name_of_method? hm).symm
  obtain rfl := Program.site_of_define hids hs hq hform (hsame ▸ hqform)
  -- What was seen of the statement would be on its way, but only earlier ones are.
  have hcovered := hcovers s hs x hx
  rw [Program.statement_of_define htop hs hform] at hcovered
  obtain ⟨due, hdue, hid, -⟩ := hcovered.resolve_left id
  obtain ⟨done, rest, tys, hstmts, -, howed⟩ := hnext
  rw [howed] at hdue
  obtain ⟨e, he, heid⟩ := exists_of_dues hdue
  have hnodup := Program.nodup_stmts hids
  rw [hstmts, List.map_append] at hnodup
  exact (List.nodup_append.1 hnodup).2.2 _ (List.mem_map_of_mem he) _ List.mem_cons_self
    (heid.trans hid)

theorem define (h : Tallies p active under M) (hs : s ∈ p.sites) (hform : s.expr.form = .define d)
    (hseen : M.Seen s.expr.id) (hnew : M.method? d.name.name = none) :
    Tallies p active under (M.define d) where
  begun s hs d hform signature hbegun :=
    h.begun s hs d hform signature ((Module.begun_define hnew).1 hbegun)
  params := by
    intro s hs d hform j param hparam x hx
    obtain ⟨signature, ty, hbegun, hty⟩ := h.params s hs d hform j param hparam x hx
    exact ⟨signature, ty, (Module.begun_define hnew).2 hbegun, hty⟩
  last s hs d hform e he x hx := h.last s hs d hform e he x ((Module.returns_define hnew).1 hx)
  args := h.args
  defined m hm := by
    rcases Module.mem_putMethod hm with rfl | hm
    · exact ⟨s, hs, hform, hseen⟩
    · exact h.defined m hm
  distinct m hm := by
    rcases Module.mem_putMethod hm with rfl | hm
    · exact List.nodup_nil
    · exact h.distinct m hm
  known entry hentry := by
    rw [Module.definition?_define]
    split
    · rfl
    · exact h.known entry hentry
  supposed := by rw [Module.known_define hnew]; exact h.supposed

section
variable (hids : p.ids.Nodup)
include hids

theorem settle (h : Tallies p active under M) (hs : s ∈ p.sites) (hty : s.expr.form.Typed M D ty) :
    Tallies p active under (M.settle s.expr ty) := by
  refine h.see (M.methods_settle s.expr ty) (.settle M s.expr ty)
    (fun q hq param hparam _ x hx => Module.sees_of_settle hx ?_)
    fun q hq name nameSpan args block hform hseen => ?_
  · exact Program.param_notMem_subjects hids hq hs hparam
  · by_cases hqs : q = s
    · subst hqs
      rw [hform] at hty
      cases hty with
      | call hargs => exact .inr hargs
    · refine .inl (hseen.imp fun x hx => Module.sees_of_settle hx ?_)
      exact Program.notMem_subjects hids hs hq hqs List.mem_cons_self

/-- Parameters of a block. -/
theorem recordParams {params : List (Ident × Ty)} (h : Tallies p active under M) (hs : s ∈ p.sites)
    {b : Block Expr} (hb : s.expr.form.block? = some b)
    (hparams : ∀ param ∈ params, param.1 ∈ b.params) :
    Tallies p active under (M.recordParams params) := by
  have hmem (param : Ident × Ty) (hparam : param ∈ params) : param.1 ∈ s.expr.form.params :=
    Form.mem_params_of_block hb (hparams param hparam)
  refine h.see (Module.methods_recordParams _ M) (.recordParams M params)
    (fun q hq param hparam hnone x hx => ?_) fun q hq name nameSpan args block hform hseen =>
      .inl (hseen.imp fun x => Program.sees_of_recordParams hids hs hq hmem List.mem_cons_self)
  refine (Module.sees_recordParams.1 hx).resolve_right ?_
  rintro ⟨other, hother, hid, -⟩
  have hown : param.id ∈ s.expr.own := hid ▸ Expr.param_mem_own (hmem other hother)
  rw [Program.site_unique hids hq hs (Expr.param_mem_own hparam) hown, hb] at hnone
  exact nomatch hnone

theorem record_block (h : Tallies p active under M) (hs : s ∈ p.sites) {b : Block Expr}
    (hb : s.expr.form.block? = some b) : Tallies p active under (M.record b.id ty) := by
  have hmem : b.id ∈ s.expr.subjects := Expr.block_mem_subjects hb
  refine h.see rfl (.record M b.id ty) (fun q hq param hparam _ x hx => ?_)
    fun q hq name nameSpan args block hform hseen => .inl (hseen.imp fun x hx => ?_)
  · refine (Module.sees_record.1 hx).resolve_right fun ⟨heq, _⟩ => ?_
    exact Program.param_notMem_subjects hids hq hs hparam (heq ▸ hmem)
  · exact Program.sees_of_record_block hids hs hb hq hx

section
variable (htop : p.defsAtTop) (hnames : p.definedNames.Nodup)
  (hcall : Calling p s args m signature block M) (hnew : ¬ m.Answers c signature block)
  (hq : q ∈ p.sites) (hform : q.expr.form = .define m.definition)
include hids htop hnames hcall hnew hq hform

theorem enter (h : Tallies p c.active c.under M) :
    Tallies p (c.inside m signature block).active (c.inside m signature block).under
      (M.enter m signature block) where
  begun := by
    intro r hr d hdefine other hbegun
    rcases (Module.begun_enter hcall.found).1 hbegun with hbegun | ⟨hname, rfl⟩
    · exact (h.begun r hr d hdefine other hbegun).grow (.enter M m signature block)
    · rw [Program.definition_unique htop hnames hr hq hdefine hform hname]
      refine ⟨hcall.arity.symm, fun j param ty hparam hty x hx => ?_⟩
      exact Module.sees_enter.2 (.inr ⟨j, param, ty, hparam, hty, rfl, hx⟩)
  params := by
    intro r hr d hdefine j param hparam x hx
    rcases Module.sees_enter.1 hx with hx | ⟨i, other, ty, hother, hty, hid, hx⟩
    · obtain ⟨old, ty, hbegun, hty⟩ := h.params r hr d hdefine j param hparam x hx
      exact ⟨old, ty, (Module.begun_enter hcall.found).2 (.inl hbegun), hty⟩
    · obtain ⟨rfl, rfl⟩ := Program.param_unique hids hr hq hdefine hform hparam hother hid
      exact ⟨signature, ty, (Module.begun_enter hcall.found).2 (.inr ⟨rfl, rfl⟩), hty, hx⟩
  last r hr d hdefine e he x hx := Module.Grows.enter M m signature block _ x <|
    h.last r hr d hdefine e he x ((Module.returns_enter hcall.found hnew).1 hx)
  args := by
    intro r hr name nameSpan rargs rblock hrform hseen arg harg
    refine (Module.Grows.enter M m signature block).seen ?_
    refine h.args r hr name nameSpan rargs rblock hrform (hseen.imp fun x hx => ?_) arg harg
    exact Program.sees_of_enter hids hq hform hr List.mem_cons_self hx
  defined new hmem := by
    obtain ⟨old, hold, hdefinition⟩ := Module.mem_enter hmem
    obtain ⟨r, hr, hrform, hseen⟩ := h.defined old hold
    rw [hdefinition]
    exact ⟨r, hr, hrform, (Module.Grows.enter M m signature block).seen hseen⟩
  distinct := h.distinct.enter
  known entry hentry := by
    rw [Module.definition?_enter]
    have hentry : entry.1 = m.definition ∨ entry ∈ c.under := by
      cases block <;> exact (List.mem_cons.1 hentry).imp_left fun heq => congrArg Prod.fst heq
    rcases hentry with heq | hentry
    · rw [heq]; exact Module.isSome_definition? hcall.found
    · exact h.known entry hentry
  supposed r hr := by
    refine Module.isSome_known_enter hcall.found ?_
    cases block with
    | none => exact (List.mem_cons.1 hr).symm.imp (h.supposed r) fun heq => ⟨rfl, heq⟩
    | some b => exact .inl (h.supposed r hr)

end

end

theorem isSome_definition?
    (h : Tallies p (c.inside m signature block).active (c.inside m signature block).under N) :
    (N.definition? m.name).isSome := by
  cases block <;> exact h.known _ List.mem_cons_self

/-- Of calls under inference something is known, so a call that is not answered is not one of them. -/
theorem notMem_pending (h : Tallies p active under M) (hm : M.method? m.name = some m)
    (hnew : m.returns? signature = none) : (m.name, signature) ∉ pending under := by
  intro hmem
  have hknown := h.supposed _ hmem
  rw [Module.known_of_method? hm, hnew] at hknown
  exact Bool.false_ne_true hknown

section
variable (htop : p.defsAtTop) (hnames : p.definedNames.Nodup) (hq : q ∈ p.sites)
  (hform : q.expr.form = .define m.definition)
  (hnew : block = none → (m.name, signature) ∉ pending c.under)
  (hdue : ∀ due ∈ lastDue m.definition.body ty, N.SeesAll due.1 due.2)
include htop hnames hq hform hnew hdue

theorem leave (h : Tallies p (c.inside m signature block).active (c.inside m signature block).under N) :
    Tallies p c.active c.under (N.leave m signature ty block) := by
  have hdefinition := h.isSome_definition?
  have hsupposed (hnone : block = none) : (N.known (m.name, signature)).isSome := by
    subst hnone
    exact h.supposed _ List.mem_cons_self
  have hbegun {other : String} {sig : Signature} :
      (N.leave m signature ty block).Begun c.active other sig ↔
        N.Begun (c.inside m signature block).active other sig :=
    Module.begun_leave hdefinition hsupposed
  constructor
  case begun => exact fun r hr d hrform other hother => h.begun r hr d hrform other (hbegun.1 hother)
  case params =>
    intro r hr d hrform j param hparam x hx
    obtain ⟨other, ty, hother, hty⟩ := h.params r hr d hrform j param hparam x hx
    exact ⟨other, ty, hbegun.2 hother, hty⟩
  case last =>
    intro r hr d hrform e he x hx
    rcases (Module.returns_leave hdefinition hnew).1 hx with hx | ⟨hname, hx⟩
    · exact h.last r hr d hrform e he x hx
    · rw [Program.definition_unique htop hnames hr hq hrform hform hname] at he
      refine hdue (e.id, ty) ?_ x hx
      rw [lastDue, he]
      exact List.mem_singleton_self _
  case args => exact h.args
  case defined =>
    intro new hmem
    obtain ⟨old, hold, hsame⟩ := Module.mem_keep hmem
    rw [hsame]
    exact h.defined old hold
  case distinct => exact h.distinct.keep
  case known =>
    intro entry hentry
    rw [Module.leave, Module.definition?_keep]
    cases block <;> exact h.known entry (List.mem_cons_of_mem _ hentry)
  case supposed =>
    intro r hr
    refine Module.isSome_known_keep hdefinition (h.supposed r ?_)
    cases block with
    | none => exact List.mem_cons_of_mem _ hr
    | some b => exact hr

end

end Tallies

/-! ### What gets into parameters and into what methods return -/

section
variable {p : Program} {P : List (String × Signature)} {active : List BlockCall} {c : Standing}
  {M : Module} {q : Site} {m : Method} {signature : Signature}

theorem Method.Answers.begun {block : Option (Block Expr)} (h : m.Answers c signature block)
    (hm : M.method? m.name = some m) : M.Begun c.active m.name signature := by
  cases block with
  | none => exact .inl ⟨m, hm, Method.mem_signatures_of_returns? h⟩
  | some b => exact .inr ⟨b.id, h⟩

theorem Module.Binds.reported (h : M.Binds m.definition signature) (hq : q ∈ p.sites)
    (hform : q.expr.form = .define m.definition) (i : Nat) (ty : Ty) (hty : signature[i]? = some ty)
    (x : String) (hx : x ∈ ty) : M.Reported p P (.argument m.name i) x := by
  obtain ⟨hi, -⟩ := List.getElem?_eq_some_iff.1 hty
  obtain ⟨param, hparam⟩ : ∃ param, m.definition.params[i]? = some param :=
    ⟨_, List.getElem?_eq_getElem (h.1 ▸ hi)⟩
  exact ⟨q, hq, m.definition, param, hform, rfl, hparam, h.2 i param ty hparam hty x hx⟩

end

/-- The table tallies with the calls along a run, and what is seen of arguments and of last statements
gets into parameters and into what methods return. -/
def Account.tallies {p : Program} (hids : p.ids.Nodup) (htop : p.defsAtTop)
    (hnames : p.definedNames.Nodup) : Account p where
  Holds L c M := Tallies p c.active c.under M ∧ L.Covers p (M.Reported p (pending c.under)) M
  initial := by
    refine ⟨⟨?_, ?_, ?_, ?_, ?_, ?_, ?_, ?_⟩, fun _ _ _ hx => absurd hx Module.not_sees_initial⟩
    · rintro s hs d hform signature (⟨m, hm, -⟩ | ⟨b, hb⟩)
      · exact nomatch hm
      · exact absurd hb List.not_mem_nil
    · exact fun s hs d hform j param hparam x hx => absurd hx Module.not_sees_initial
    · rintro s hs d hform e he x (⟨signature, ty, hty, -⟩ | ⟨m, hm, -⟩)
      · exact nomatch hty
      · exact nomatch hm
    · exact fun s hs name nameSpan args block hform ⟨x, hx⟩ => absurd hx Module.not_sees_initial
    · exact fun m hm => absurd hm List.not_mem_nil
    · exact fun m hm => absurd hm List.not_mem_nil
    · exact fun entry hentry => absurd hentry List.not_mem_nil
    · exact fun q hq => absurd hq List.not_mem_nil
  forget hs hsink h := ⟨h.1, h.2.forget hids hs fun _ => by rw [hsink]; trivial⟩
  settle := by
    intro L c M s D ty hs _ hty _ ⟨h, hcovers⟩
    exact ⟨h.settle hids hs hty, hcovers.settle_reported hids hs hty⟩
  define := by
    intro L c M s d hs _ hform hnext _ ⟨h, hcovers⟩
    have hnew : M.method? d.name.name = none :=
      h.method?_eq_none hids htop hnames hcovers hs hform
        (hnext (Program.statement_of_define htop hs hform))
    -- The statement has to be seen before its method is there.
    have hcomm : (M.define d).settle s.expr .nil = (M.settle s.expr .nil).define d := by
      unfold Module.settle
      rw [hform]
      rfl
    have htyped : s.expr.form.Typed M [] .nil := by rw [hform]; exact .define d
    have hnewSettled : (M.settle s.expr .nil).method? d.name.name = none :=
      (Module.method?_congr (M.methods_settle s.expr .nil)).trans hnew
    rw [← L.owe_nil] at hcovers
    rw [hcomm]
    have hseen : (M.settle s.expr .nil).Seen s.expr.id := (M.seesAll_settle s.expr .nil).seen
    refine ⟨(h.settle hids hs htyped).define hs hform hseen hnewSettled, ?_⟩
    exact (hcovers.settle_reported hids hs htyped).mono fun k x hx =>
      hx.mono (.define _ d) fun _ _ => (Module.returns_define hnewSettled).2
  answer := by
    intro L c M s args m signature block hcall hanswers ⟨h, hcovers⟩
    obtain ⟨q, hq, hform, -⟩ := h.defined m (Module.mem_of_method? hcall.found)
    have hbinds := h.begun q hq m.definition hform signature (hanswers.begun hcall.found)
    exact ⟨h, hcovers.pay_args hids hcall (hbinds.reported hq hform)⟩
  enter := by
    intro L c M s args m signature block q hcall hnew _ hq hform _ ⟨h, hcovers⟩
    have henter := h.enter hids htop hnames hcall hnew hq hform
    have hbinds := henter.begun q hq m.definition hform signature
      ((Module.begun_enter hcall.found).2 (.inr ⟨rfl, rfl⟩))
    have hcovers := (hcovers.of_sees (N := M.enter m signature block) ?_).mono fun k x hx =>
      hx.mono (.enter M m signature block) fun _ _ => (Module.returns_enter hcall.found hnew).2
    · exact ⟨henter, hcovers.pay_args hids hcall (hbinds.reported hq hform)⟩
    · exact fun r hr x => Program.sees_of_enter hids hq hform hr List.mem_cons_self
  leave := by
    intro L c M N s args m signature block q ty hcall hnew hq hform _ ⟨h, _⟩ hmoment ⟨hN, hcovers⟩
    have hpending (hnone : block = none) : (m.name, signature) ∉ pending c.under := by
      subst hnone
      exact h.notMem_pending hcall.found (Option.not_isSome_iff_eq_none.1 hnew)
    have hreturns {name : String} {x : String} :
        (N.leave m signature ty block).Returns (pending c.under) name x ↔
          N.Returns (pending (c.inside m signature block).under) name x ∨ name = m.name ∧ x ∈ ty :=
      Module.returns_leave hN.isSome_definition? hpending
    refine ⟨hN.leave htop hnames hq hform hpending hmoment.dues, ?_⟩
    refine (hcovers.mono fun k x hx => ?_).pay_last hids hq hform fun x hx => ?_
    · exact hx.mono (.updateMethod N _ _) fun _ _ hx => hreturns.2 (.inl hx)
    · exact hreturns.2 (.inr ⟨rfl, hx⟩)
  run _ _ _ h := h
  bindParams := by
    intro L c M s b name nameSpan args signature hs hform _ ⟨h, hcovers⟩
    have hb : s.expr.form.block? = some b := by rw [hform]; rfl
    refine ⟨h.recordParams hids hs hb fun _ => Infer.mem_of_paramTypes, (hcovers.of_sees ?_).mono
      fun _ _ => .see (Module.methods_recordParams _ M) (.recordParams M _)⟩
    exact fun q hq x => Program.sees_of_recordParams hids hs hq
      (fun _ hparam => Form.mem_params_of_block hb (Infer.mem_of_paramTypes hparam)) List.mem_cons_self
  collect := by
    intro L c M N s b method? outer name nameSpan args tys hs hform _ _ _ _ _ _ ⟨h, hcovers⟩
    have hb : s.expr.form.block? = some b := by rw [hform]; rfl
    have hpaid := hcovers.pay_passes hids hs hform fun _ _ _ _ => trivial
    have hrecord : N.Grows (N.record b.id (Ty.unionOf tys)) := .record N b.id _
    refine ⟨h.record_block hids hs hb, Ledger.Covers.of_sees (M := N) ?_ fun q hq x hx => ?_⟩
    · exact hpaid.mono fun k x hx => hx.mono hrecord fun _ _ => (Module.returns_congr rfl).2
    exact Program.sees_of_record_block hids hs hb hq hx

/-! ### The methods of a program -/

/-- What is kept of the calls of a method agrees with the table. -/
structure Module.AgreesOn (M : Module) (p : Program) (m : Method) : Prop where
  arity : ∀ i ∈ m.calls, i.signature.length = m.arity
  params : ∀ (j : Nat) param, m.definition.params[j]? = some param →
    M.typeOf? param.id = Ty.union? (m.calls.filterMap (·.signature[j]?)) ∧
      (M.typeOf? param.id = none ↔ m.calls = [])
  last : ∀ e, m.definition.body.getLast? = some e →
    M.typeOf? e.id = Ty.union? (m.calls.map Instance.returns)
  /-- The types of arguments of calls that have a type are covered by those of the parameters. -/
  args : ∀ e, p.Has e → (M.typeOf? e.id).isSome → ∀ nameSpan args block,
    e.form = .call m.name nameSpan args block → ∀ (j : Nat) arg, args[j]? = some arg →
      ∃ param argType paramType, m.definition.params[j]? = some param ∧
        M.typeOf? arg.id = some argType ∧ M.typeOf? param.id = some paramType ∧
        argType.CoveredBy paramType

namespace Module
variable {M : Module} {m : Method} {signature : Signature} {x : String}

theorem begun_nil_iff (hm : M.method? m.name = some m) :
    M.Begun [] m.name signature ↔ signature ∈ m.signatures := by
  simp [Begun, hm]

theorem returns_nil_iff (hm : M.method? m.name = some m)
    (hdistinct : (m.instances.map Instance.signature).Nodup) :
    M.Returns [] m.name x ↔ ∃ i ∈ m.calls, x ∈ i.returns := by
  have hinstances : (∃ signature ty, M.settled [] (m.name, signature) = some ty ∧ x ∈ ty) ↔
      ∃ i ∈ m.instances, x ∈ i.returns := by
    simp only [settled_eq_some_iff, List.not_mem_nil, not_false_eq_true, true_and,
      known_of_method? hm]
    constructor
    · rintro ⟨signature, ty, hty, hx⟩
      obtain ⟨i, hi, rfl⟩ := Option.map_eq_some_iff.1 hty
      exact ⟨i, List.mem_of_find?_eq_some hi, hx⟩
    · rintro ⟨i, hi, hx⟩
      exact ⟨i.signature, i.returns, (Method.returns?_eq_some_iff hdistinct).2 hi, hx⟩
  unfold Returns
  rw [hinstances, hm]
  simp only [Option.some.injEq, exists_eq_left', Method.calls, List.mem_append, or_and_right,
    exists_or]

end Module

namespace Tallies
variable {p : Program} {M : Module} {m : Method} {s : Site} {tys : List Ty}
  (h : Tallies p [] [] M) (hs : s ∈ p.sites) (hform : s.expr.form = .define m.definition)
  (hm : M.method? m.name = some m)
include h hs hform hm

theorem binds_of_calls {i : Instance} (hi : i ∈ m.calls) : M.Binds m.definition i.signature :=
  h.begun s hs m.definition hform i.signature
    ((Module.begun_nil_iff hm).2 (List.mem_map_of_mem hi))

theorem typeOf?_param {j : Nat} {param : Ident} (hparam : m.definition.params[j]? = some param) :
    M.typeOf? param.id = Ty.union? (m.calls.filterMap (·.signature[j]?)) := by
  refine Module.typeOf?_eq_union? fun x => ⟨fun hx => ?_, ?_⟩
  · obtain ⟨signature, ty, hbegun, hty, hxty⟩ := h.params s hs m.definition hform j param hparam x hx
    obtain ⟨i, hi, rfl⟩ := List.mem_map.1 ((Module.begun_nil_iff hm).1 hbegun)
    exact ⟨ty, List.mem_filterMap.2 ⟨i, hi, hty⟩, hxty⟩
  · rintro ⟨ty, hmem, hx⟩
    obtain ⟨i, hi, hty⟩ := List.mem_filterMap.1 hmem
    exact (h.binds_of_calls hs hform hm hi).2 j param ty hparam hty x hx

theorem typeOf?_param_eq_none_iff {j : Nat} {param : Ident}
    (hparam : m.definition.params[j]? = some param) : M.typeOf? param.id = none ↔ m.calls = [] := by
  rw [h.typeOf?_param hs hform hm hparam, Ty.union?_eq_none_iff, List.filterMap_eq_nil_iff]
  constructor
  -- A call that is kept gives something for each parameter.
  · intro hnone
    refine List.eq_nil_iff_forall_not_mem.2 fun i hi => ?_
    have hlen := (h.binds_of_calls hs hform hm hi).1
    have hle := List.getElem?_eq_none_iff.1 (hnone i hi)
    rw [hlen, ← List.getElem?_eq_none_iff, hparam] at hle
    exact nomatch hle
  · rintro hnil i hi
    rw [hnil] at hi
    exact absurd hi List.not_mem_nil

variable (hids : p.ids.Nodup)
  (hcovers : Ledger.Covers p (M.Reported p []) ⟨[], dues p.stmts tys, []⟩ M)
include hids hcovers

theorem typeOf?_last {e : Expr} (he : m.definition.body.getLast? = some e) :
    M.typeOf? e.id = Ty.union? (m.calls.map Instance.returns) := by
  have hdistinct := h.distinct m (Module.mem_of_method? hm)
  refine Module.typeOf?_eq_union? fun x => ?_
  have hreturns : M.Sees e.id x ↔ M.Returns [] m.name x := by
    refine ⟨fun hx => ?_, h.last s hs m.definition hform e he x⟩
    have hpart : (⟨.method m.definition :: s.outer, .returns m.name, e⟩ : Site) ∈ s.parts := by
      rw [Site.parts, hform]
      exact Site.last_mem_body he
    exact hcovers.arrived hids (Program.part_mem_sites hs hpart) (Site.sink_ne_statement hpart) hx
  rw [hreturns, Module.returns_nil_iff hm hdistinct]
  simp only [List.mem_map, exists_exists_and_eq_and]

omit hm in
theorem coveredBy_param (hnames : p.definedNames.Nodup) (htop : p.defsAtTop) {q : Site}
    (hq : q ∈ p.sites) (hseen : M.Seen q.expr.id) {nameSpan : Span} {args : List Expr}
    {block : Option (Block Expr)} (hqform : q.expr.form = .call m.name nameSpan args block) {j : Nat}
    {arg : Expr} (harg : args[j]? = some arg) :
    ∃ param argType paramType, m.definition.params[j]? = some param ∧
      M.typeOf? arg.id = some argType ∧ M.typeOf? param.id = some paramType ∧
      argType.CoveredBy paramType := by
  have hpart : (⟨q.outer, .argument m.name j, arg⟩ : Site) ∈ q.parts := by
    rw [Site.parts, hqform]
    cases block with
    | none => exact Site.argument_mem harg
    | some b => exact List.mem_append_left _ (Site.argument_mem harg)
  -- What is seen of the argument has got into the parameter, whatever its place.
  have hgot (x : String) (hx : M.Sees arg.id x) :
      ∃ param, m.definition.params[j]? = some param ∧ M.Sees param.id x := by
    obtain ⟨r, hr, d, param, hrform, hname, hparam, hseen⟩ :=
      hcovers.arrived hids (Program.part_mem_sites hq hpart) (Site.sink_ne_statement hpart) hx
    obtain rfl := Program.definition_unique htop hnames hr hs hrform hform hname
    exact ⟨param, hparam, hseen⟩
  obtain ⟨x, hx⟩ := h.args q hq m.name nameSpan args block hqform hseen arg (List.mem_of_getElem? harg)
  obtain ⟨param, hparam, hparamSeen⟩ := hgot x hx
  obtain ⟨argType, hargType⟩ := Module.seen_iff.1 ⟨x, hx⟩
  obtain ⟨paramType, hparamType⟩ := Module.seen_iff.1 ⟨x, hparamSeen⟩
  refine ⟨param, argType, paramType, hparam, hargType, hparamType, fun y hy => ?_⟩
  obtain ⟨other, hother, hy⟩ := hgot y ((Module.typeOf?_eq_some_iff.1 hargType y).2 hy)
  rw [hparam] at hother
  cases hother
  exact (Module.typeOf?_eq_some_iff.1 hparamType y).1 hy

end Tallies

namespace Program
variable {p : Program} {limit : Nat} {M : Module}

/-- Where each name is defined once, by a statement, what is kept of calls in the end agrees with the
table. -/
theorem agreesOn_of_infer (hids : p.ids.Nodup) (htop : p.defsAtTop) (hnames : p.definedNames.Nodup)
    (h : p.infer limit = .ok M) : ∀ m ∈ M.methods, M.AgreesOn p m := by
  intro m hmem
  obtain ⟨N, tys, rfl, -, hkept⟩ := (Account.tallies hids htop hnames).of_infer h
  obtain ⟨htallies, hcovers⟩ := hkept.holds
  obtain ⟨s, hs, hform, -⟩ := htallies.defined m hmem
  have hm : N.method? m.name = some m := hkept.methods.method?_of_mem hmem
  exact {
    arity := fun i hi => (htallies.binds_of_calls hs hform hm hi).1
    params := fun j param hparam => ⟨htallies.typeOf?_param hs hform hm hparam,
      htallies.typeOf?_param_eq_none_iff hs hform hm hparam⟩
    last := fun e he => htallies.typeOf?_last hs hform hm hids hcovers he
    args := by
      intro e he hsome nameSpan args block heform j arg harg
      obtain ⟨q, hq, rfl⟩ := he.site
      have hseen : N.Seen q.expr.id := Module.seen_iff.2 (Option.isSome_iff_exists.1 hsome)
      exact htallies.coveredBy_param hs hform hids hcovers hnames htop hq hseen heform harg }

/-- A method that calls itself and one that yields to a block, each called for more than one type. -/
def recursionAndBlock : Program where
  stmts :=
    [.node 0 ⟨0, 0⟩ (.define ⟨⟨1, "repeat", ⟨0, 0⟩⟩, [⟨2, "a", ⟨0, 0⟩⟩],
        [.node 3 ⟨0, 0⟩ (.branch (.node 4 ⟨0, 0⟩ (.literal (.bool true)))
          [.node 5 ⟨0, 0⟩ (.call "repeat" ⟨0, 0⟩ [.node 6 ⟨0, 0⟩ (.var "a")] none)]
          (some [.node 7 ⟨0, 0⟩ (.var "a")]))]⟩),
      .node 8 ⟨0, 0⟩ (.define ⟨⟨9, "each", ⟨0, 0⟩⟩, [⟨10, "b", ⟨0, 0⟩⟩],
        [.node 11 ⟨0, 0⟩ (.yield [.node 12 ⟨0, 0⟩ (.var "b")])]⟩),
      .node 13 ⟨0, 0⟩ (.call "repeat" ⟨0, 0⟩ [.node 14 ⟨0, 0⟩ (.literal (.int 1))] none),
      .node 15 ⟨0, 0⟩ (.call "each" ⟨0, 0⟩ [.node 16 ⟨0, 0⟩ (.literal (.bool true))]
        (some ⟨17, ⟨0, 0⟩, [⟨18, "c", ⟨0, 0⟩⟩],
          [.node 19 ⟨0, 0⟩ (.call "repeat" ⟨0, 0⟩ [.node 20 ⟨0, 0⟩ (.var "c")] none)]⟩))]

theorem agreesOn_recursionAndBlock :
    recursionAndBlock.ids.Nodup ∧ recursionAndBlock.defsAtTop = true ∧
      recursionAndBlock.definedNames.Nodup ∧
      ∃ M, recursionAndBlock.infer 64 = .ok M ∧ ∀ m ∈ M.methods, M.AgreesOn recursionAndBlock m := by
  have hids : recursionAndBlock.ids.Nodup := by decide +kernel
  have htop : recursionAndBlock.defsAtTop = true := by decide +kernel
  have hnames : recursionAndBlock.definedNames.Nodup := by decide +kernel
  have hends : (recursionAndBlock.infer 64).toBool = true := by decide +kernel
  obtain ⟨M, hM⟩ := exists_infer hends
  exact ⟨hids, htop, hnames, M, hM, agreesOn_of_infer hids htop hnames hM⟩

end Program
end FlowTyping
