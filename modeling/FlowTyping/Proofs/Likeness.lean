import FlowTyping.Proofs.Occurrences
import FlowTyping.Proofs.Sight
import Mathlib.Data.List.Forall2
import Mathlib.Logic.Relator

/-!
# Programs of one structure

Two programs are alike if they differ in the identities of their nodes, in their spans and in the values
of their literals only (`Program.Like`).  A `Likeness` says which nodes and spans correspond; that a node
corresponds to one node only is what keeps the annotations of two nodes apart on both sides.  Modules are
alike if they say the same of corresponding nodes, and what inference does to a module goes through that
relation (`Module.Like.record`, `Module.Like.updateMethod`, `Module.Like.define`).
-/

namespace FlowTyping

/-- Which nodes and which spans of two programs correspond. -/
structure Likeness where
  node : NodeId → NodeId → Prop
  span : Span → Span → Prop
  node_unique : Relator.BiUnique node

namespace Likeness

/-- Nodes and spans correspond to themselves. -/
def same : Likeness where
  node := Eq
  span := Eq
  node_unique := ⟨fun _ _ _ h h' => h.trans h'.symm, fun _ _ _ h h' => h.symm.trans h'⟩

theorem node_eq_iff (L : Likeness) {a b a' b' : NodeId} (h : L.node a b) (h' : L.node a' b') :
    a = a' ↔ b = b' :=
  Relator.rel_eq L.node_unique h h'

end Likeness

/-! ### Programs -/

section
variable (L : Likeness) (R : α → β → Prop)

structure Ident.Like (i j : Ident) : Prop where
  id : L.node i.id j.id
  name : i.name = j.name
  span : L.span i.span j.span

structure Block.Like (b : Block α) (c : Block β) : Prop where
  id : L.node b.id c.id
  span : L.span b.span c.span
  params : List.Forall₂ (Ident.Like L) b.params c.params
  body : List.Forall₂ R b.body c.body

structure Definition.Like (d : Definition α) (e : Definition β) : Prop where
  name : d.name.Like L e.name
  params : List.Forall₂ (Ident.Like L) d.params e.params
  body : List.Forall₂ R d.body e.body

/-- Layers of one form at corresponding places.  Their parts are related, and literals are of one kind. -/
inductive Form.Like : Form α → Form β → Prop
  | literal {v w} : v.type = w.type → Like (.literal v) (.literal w)
  | var (name) : Like (.var name) (.var name)
  | assign {target target' value value'} : target.Like L target' → R value value' →
    Like (.assign target value) (.assign target' value')
  | call (name) {span span' args args' block block'} : L.span span span' →
    List.Forall₂ R args args' → Option.Rel (Block.Like L R) block block' →
    Like (.call name span args block) (.call name span' args' block')
  | yield {args args'} : List.Forall₂ R args args' → Like (.yield args) (.yield args')
  | branch {cond cond' thenBody thenBody' elseBody elseBody'} : R cond cond' →
    List.Forall₂ R thenBody thenBody' → Option.Rel (List.Forall₂ R) elseBody elseBody' →
    Like (.branch cond thenBody elseBody) (.branch cond' thenBody' elseBody')
  | loop {cond cond' body body'} : R cond cond' → List.Forall₂ R body body' →
    Like (.loop cond body) (.loop cond' body')
  | define {d d'} : d.Like L R d' → Like (.define d) (.define d')

end

section
variable {L : Likeness} {R : γ → β → Prop} {f : α → γ}

theorem rel_map_left_iff {o : Option α} {p : Option β} :
    Option.Rel R (o.map f) p ↔ Option.Rel (fun a => R (f a)) o p := by
  cases o <;> cases p <;> simp

theorem Block.like_map {b : Block α} {c : Block β} :
    (b.map f).Like L R c ↔ b.Like L (fun a => R (f a)) c :=
  ⟨fun h => ⟨h.id, h.span, h.params, List.forall₂_map_left_iff.1 h.body⟩,
    fun h => ⟨h.id, h.span, h.params, List.forall₂_map_left_iff.2 h.body⟩⟩

theorem Definition.like_map {d : Definition α} {e : Definition β} :
    (d.map f).Like L R e ↔ d.Like L (fun a => R (f a)) e :=
  ⟨fun h => ⟨h.name, h.params, List.forall₂_map_left_iff.1 h.body⟩,
    fun h => ⟨h.name, h.params, List.forall₂_map_left_iff.2 h.body⟩⟩

theorem Form.like_map {form : Form α} {form' : Form β} :
    (form.map f).Like L R form' ↔ form.Like L (fun a => R (f a)) form' := by
  have hblock : (fun b : Block α => (b.map f).Like L R) = Block.Like L fun a => R (f a) :=
    funext₂ fun _ _ => propext Block.like_map
  have hlist : (fun as : List α => List.Forall₂ R (as.map f)) = List.Forall₂ fun a => R (f a) :=
    funext₂ fun _ _ => propext List.forall₂_map_left_iff
  cases form <;> constructor <;> intro h <;> cases h <;> constructor <;>
    simp_all [rel_map_left_iff, Definition.like_map]

theorem Form.Like.parts {form : Form γ} {form' : Form β} (h : form.Like L R form') :
    List.Forall₂ R form.parts form'.parts := by
  cases h with
  | literal _ => exact .nil
  | var _ => exact .nil
  | assign _ hvalue => exact .cons hvalue .nil
  | call _ _ hargs hblock =>
    cases hblock with
    | none => exact hargs
    | some hblock => exact List.rel_append hargs hblock.body
  | yield hargs => exact hargs
  | branch hcond hthen helse =>
    cases helse with
    | none => exact .cons hcond hthen
    | some helse => exact .cons hcond (List.rel_append hthen helse)
  | loop hcond hbody => exact .cons hcond hbody
  | define hd => exact hd.body

theorem Form.Like.length_places {form : Form γ} {form' : Form β} (h : form.Like L R form') :
    form.places.length = form'.places.length := by
  cases h with
  | call _ _ _ hblock =>
    cases hblock with
    | none => rfl
    | some hblock => simp [places, hblock.params.length_eq]
  | define hd => simp [places, hd.params.length_eq]
  | _ => rfl

end

section
variable (L : Likeness)

/-- Expressions of one structure, at corresponding nodes. -/
def Expr.Like : Expr → Expr → Prop :=
  fold fun id span form e =>
    L.node id e.id ∧ L.span span e.span ∧ form.Like L (fun like part => like part) e.form

/-- Programs of one structure, at corresponding nodes. -/
def Program.Like (p q : Program) : Prop := List.Forall₂ (Expr.Like L) p.stmts q.stmts

end

/-- Lists of related entries have the same values. -/
theorem map_eq_of_forall₂ {R : α → β → Prop} {f : α → γ} {g : β → γ} {as : List α} {bs : List β}
    (h : List.Forall₂ R as bs) (hfg : ∀ a ∈ as, ∀ b, R a b → f a = g b) : as.map f = bs.map g := by
  induction h with
  | nil => rfl
  | cons hab _ ih =>
    rw [List.forall_mem_cons] at hfg
    rw [List.map_cons, List.map_cons, hfg.1 _ hab, ih hfg.2]

section
variable {L : Likeness} {e e' : Expr}

theorem Expr.like_iff : e.Like L e' ↔
    L.node e.id e'.id ∧ L.span e.span e'.span ∧ e.form.Like L (Expr.Like L) e'.form := by
  conv => lhs; rw [eta e, Like, fold_node]
  exact and_congr_right fun _ => and_congr_right fun _ => Form.like_map

theorem Expr.Like.size_eq (h : e.Like L e') : e.size = e'.size := by
  induction e using induction generalizing e' with
  | step id span form ih =>
    obtain ⟨-, -, hform⟩ := like_iff.1 h
    have hparts : form.parts.map size = e'.form.parts.map size :=
      map_eq_of_forall₂ hform.parts fun part hpart _ hlike => ih part hpart hlike
    rw [Expr.size_eq, Expr.size_eq e', form_node, hparts, ← hform.length_places, form_node]

theorem Program.Like.size_eq {p q : Program} (h : p.Like L q) : p.size = q.size :=
  congrArg (List.foldr (· + ·) 0) (map_eq_of_forall₂ h fun _ _ _ hlike => hlike.size_eq)

end

/-! ### Modules -/

section
variable (L : Likeness)

structure Method.Like (m n : Method) : Prop where
  definition : m.definition.Like L (Expr.Like L) n.definition
  instances : m.instances = n.instances
  blockInstances : m.blockInstances = n.blockInstances

/-- Modules that say the same of corresponding nodes, and nothing of other ones. -/
structure Module.Like (M N : Module) : Prop where
  methods : List.Forall₂ (Method.Like L) M.methods N.methods
  typeOf? : ∀ {a b}, L.node a b → M.typeOf? a = N.typeOf? b
  left : ∀ {a ty}, M.typeOf? a = some ty → ∃ b, L.node a b
  right : ∀ {b ty}, N.typeOf? b = some ty → ∃ a, L.node a b
  result : M.result = N.result

/-- Parameters that correspond, with the same types. -/
def ParamLike (x y : Ident × Ty) : Prop := x.1.Like L y.1 ∧ x.2 = y.2

end

variable {L : Likeness}

namespace Method.Like
variable {m n : Method} (h : m.Like L n)
include h

theorem name : m.name = n.name := h.definition.name.name

theorem params : m.params = n.params :=
  map_eq_of_forall₂ h.definition.params fun _ _ _ hlike => hlike.name

theorem arity : m.arity = n.arity := h.definition.params.length_eq

theorem returns? (signature : Signature) : m.returns? signature = n.returns? signature := by
  rw [Method.returns?, Method.returns?, h.instances]

theorem store (signature : Signature) (ty : Ty) : (m.store signature ty).Like L (n.store signature ty) :=
  ⟨h.definition, congrArg (Instance.upsert _ signature ty) h.instances, h.blockInstances⟩

theorem observe (signature : Signature) (ty : Ty) :
    (m.observe signature ty).Like L (n.observe signature ty) :=
  ⟨h.definition, h.instances, congrArg (Instance.upsert _ signature ty) h.blockInstances⟩

end Method.Like

section
variable {is js : List Ident} (h : List.Forall₂ (Ident.Like L) is js)
include h

theorem paramLike_zip (tys : List Ty) : List.Forall₂ (ParamLike L) (is.zip tys) (js.zip tys) := by
  induction h generalizing tys with
  | nil => exact .nil
  | cons hi _ ih =>
    cases tys with
    | nil => exact .nil
    | cons ty tys => exact .cons ⟨hi, rfl⟩ (ih tys)

theorem paramLike_paramTypes (args : Signature) :
    List.Forall₂ (ParamLike L) (Infer.paramTypes is args) (Infer.paramTypes js args) := by
  unfold Infer.paramTypes
  generalize 0 = k
  induction h generalizing k with
  | nil => exact .nil
  | cons hi _ ih => exact .cons ⟨hi, rfl⟩ (ih (k + 1))

end

section
variable {xs ys : List (Ident × Ty)} (h : List.Forall₂ (ParamLike L) xs ys)
include h

theorem Bindings.ofParams_eq_of_like : ofParams xs = ofParams ys := by
  unfold ofParams
  generalize (Table.empty : Bindings) = t
  induction h generalizing t with
  | nil => rfl
  | cons hx _ ih => rw [List.foldl_cons, List.foldl_cons, hx.1.name, hx.2, ih]

end

namespace Module

theorem typeOf?_record (M : Module) (a b : NodeId) (ty : Ty) :
    (M.record a ty).typeOf? b =
      if b = a then some (((M.typeOf? a).map (·.join ty)).getD ty) else M.typeOf? b := by
  show (M.types.insert a _).get? b = _
  rw [Table.get?_insert]
  cases h : M.typeOf? a <;> rfl

namespace Like
variable {M N : Module} (h : M.Like L N)
include h

theorem record {a b : NodeId} (hnode : L.node a b) (ty : Ty) : (M.record a ty).Like L (N.record b ty) where
  methods := h.methods
  typeOf? := by
    intro a' b' hnode'
    rw [typeOf?_record, typeOf?_record, h.typeOf? hnode, h.typeOf? hnode']
    exact if_congr (L.node_eq_iff hnode' hnode) rfl rfl
  left := by
    intro a' ty' hty
    rw [typeOf?_record] at hty
    split at hty
    · next heq => exact ⟨b, heq ▸ hnode⟩
    · exact h.left hty
  right := by
    intro b' ty' hty
    rw [typeOf?_record] at hty
    split at hty
    · next heq => exact ⟨a, heq ▸ hnode⟩
    · exact h.right hty
  result := h.result

theorem recordParams {xs ys : List (Ident × Ty)} (hparams : List.Forall₂ (ParamLike L) xs ys) :
    (M.recordParams xs).Like L (N.recordParams ys) := by
  unfold Module.recordParams
  induction hparams generalizing M N with
  | nil => exact h
  | @cons x y _ _ hx _ ih =>
    have hrecord : (M.record x.1.id x.2).Like L (N.record y.1.id y.2) := by
      rw [← hx.2]
      exact h.record hx.1.id x.2
    exact ih hrecord

theorem method? (name : String) : Option.Rel (Method.Like L) (M.method? name) (N.method? name) := by
  unfold Module.method?
  have hmethods := h.methods
  generalize M.methods = ms, N.methods = ns at hmethods
  induction hmethods with
  | nil => exact .none
  | cons hm _ ih =>
    rw [List.find?_cons, List.find?_cons, hm.name]
    split
    · exact .some hm
    · exact ih

theorem updateMethod (name : String) {f g : Method → Method}
    (hfg : ∀ {m n}, m.Like L n → (f m).Like L (g n)) :
    (M.updateMethod name f).Like L (N.updateMethod name g) where
  methods := by
    refine List.rel_map (fun m n hm => ?_) h.methods
    rw [hm.name]
    split
    · exact hfg hm
    · exact hm
  typeOf? := h.typeOf?
  left := h.left
  right := h.right
  result := h.result

theorem define {d e : Definition Expr} (hd : d.Like L (Expr.Like L) e) :
    (M.define d).Like L (N.define e) where
  methods := by
    have hnew : Method.Like L { definition := d } { definition := e } := ⟨hd, rfl, rfl⟩
    have hmethods := h.methods
    show List.Forall₂ _ (putMethod _ M.methods) (putMethod _ N.methods)
    generalize M.methods = ms, N.methods = ns at hmethods
    induction hmethods with
    | nil => exact .cons hnew .nil
    | cons hm hms ih =>
      rw [putMethod, putMethod, hm.name, hnew.name]
      split
      · exact .cons hnew hms
      · exact .cons hm ih
  typeOf? := h.typeOf?
  left := h.left
  right := h.right
  result := h.result

end Like

theorem like_initial : Module.initial.Like L .initial :=
  ⟨.nil, fun _ => rfl, nofun, nofun, rfl⟩

end Module

end FlowTyping
