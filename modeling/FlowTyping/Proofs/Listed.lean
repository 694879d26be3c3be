import FlowTyping.Listing
import FlowTyping.Proofs.Annotations
import FlowTyping.Proofs.LineLookup
import FlowTyping.Proofs.Numbering

/-!
# What is listed

`Program.lists_exactly`: the listing of a program that was parsed and has types shows each node that has a
type, once, at a piece of the text, and in preorder.

That nothing is missing is an account of the inference: a node that was seen is among the places that the
listing goes through (`Account.listable`).  The order of the listing comes from sorting spans, and the spans
of a tree are in the order of its preorder (`Fills`), so sorting gives the preorder
(`Program.typedPlaces_eq_preorder`).
-/

namespace FlowTyping

/-! ### Preorder -/

/-- The order of pieces of the text: `a` holds `b` and more, or lies before it. -/
def Span.Before (a b : Span) : Prop := a.Covers b ∧ a ≠ b ∨ a.stop ≤ b.start

namespace Form

/-- The places below a node that may have a type, in source order, given those of its parts. -/
def preorder : Form (List Place) → List Place
  | literal _ => []
  | var _ => []
  | assign target value => target.place :: value
  | call _ _ args block => args.flatten ++ block.toList.flatMap fun b =>
    ⟨b.id, b.span⟩ :: (b.params.map Ident.place ++ b.body.flatten)
  | yield args => args.flatten
  | branch cond thenBody elseBody => cond ++ (thenBody.flatten ++ (elseBody.getD []).flatten)
  | loop cond body => cond ++ body.flatten
  | define d => d.params.map Ident.place ++ d.body.flatten

/-- What is below a part stands together. -/
theorem infix_preorder {form : Form (List Place)} {places : List Place} (h : places ∈ form.parts) :
    places <:+: form.preorder := by
  have hflat {ls : List (List Place)} (h : places ∈ ls) : places <:+: ls.flatten :=
    List.infix_of_mem_flatten h
  cases form with
  | literal value => exact absurd h List.not_mem_nil
  | var name => exact absurd h List.not_mem_nil
  | assign target value =>
    rw [List.mem_singleton.1 h]
    exact (List.suffix_cons _ _).isInfix
  | call name nameSpan args block =>
    cases block with
    | none => exact (hflat h).trans (List.prefix_append _ _).isInfix
    | some b =>
      rcases List.mem_append.1 h with h | h
      · exact (hflat h).trans (List.prefix_append _ _).isInfix
      · rw [preorder, Option.toList_some, List.flatMap_singleton]
        exact (hflat h).trans ((List.suffix_append _ _).trans
          ((List.suffix_cons _ _).trans (List.suffix_append _ _))).isInfix
  | yield args => exact hflat h
  | branch cond thenBody elseBody =>
    have hparts : places = cond ∨ places ∈ thenBody ∨ places ∈ elseBody.getD [] := by
      cases elseBody <;> simpa [parts] using h
    rcases hparts with rfl | h | h
    · exact (List.prefix_append _ _).isInfix
    · exact (hflat h).trans ((List.prefix_append _ _).isInfix.trans (List.suffix_append _ _).isInfix)
    · exact (hflat h).trans ((List.suffix_append _ _).trans (List.suffix_append _ _)).isInfix
  | loop cond body =>
    rcases List.mem_cons.1 h with rfl | h
    · exact (List.prefix_append _ _).isInfix
    · exact (hflat h).trans (List.suffix_append _ _).isInfix
  | define d => exact (hflat h).trans (List.suffix_append _ _).isInfix

end Form

/-- The places of an expression that may have a type in preorder: the node itself and then, in source
order, what is below it. -/
def Expr.preorder : Expr → List Place := fold fun id span form => ⟨id, span⟩ :: form.preorder

/-- The places of a program that may have a type in preorder. -/
def Program.preorder (p : Program) : List Place := p.stmts.flatMap Expr.preorder

namespace Expr
variable {source : List Char} {e : Expr}

theorem preorder_eq (e : Expr) : e.preorder = ⟨e.id, e.span⟩ :: (e.form.map preorder).preorder := by
  conv => lhs; rw [eta e, preorder, fold_node]
  rfl

theorem preorder_infix_of_part {part : Expr} (h : part ∈ e.form.parts) : part.preorder <:+: e.preorder := by
  have hpart : part.preorder ∈ (e.form.map preorder).parts := by
    rw [Form.parts_map]
    exact List.mem_map_of_mem h
  rw [preorder_eq e]
  exact (Form.infix_preorder hpart).trans (List.suffix_cons _ _).isInfix

theorem typedPlaces_eq (e : Expr) :
    e.typedPlaces = ⟨e.id, e.span⟩ :: (e.form.typedPlaces ++ e.form.parts.flatMap typedPlaces) := by
  have hplaces : (e.form.map typedPlaces).typedPlaces = e.form.typedPlaces := by
    rcases e.form with _ | _ | _ | ⟨_, _, _, _ | _⟩ | _ | _ | _ | _ <;> rfl
  conv => lhs; rw [eta e, typedPlaces, fold_node]
  show _ :: ((e.form.map typedPlaces).typedPlaces ++ _) = _
  rw [hplaces, Form.parts_map, ← List.flatMap_def]
  rfl

/-- A layer in source order has its own places and its parts. -/
theorem preorder_map_perm (form : Form Expr) :
    (form.map preorder).preorder.Perm (form.typedPlaces ++ form.parts.flatMap preorder) := by
  cases form with
  | call name nameSpan args block =>
    cases block with
    | none => simp [Form.map, Form.preorder, Form.typedPlaces, Form.places, Form.parts, List.flatMap_def]
    | some b =>
      simp only [Form.map, Block.map, Form.preorder, Form.typedPlaces, Form.places, Form.parts,
        Option.map_some, Option.toList_some, List.flatMap_singleton, List.flatMap_append, ← List.flatMap_def]
      -- the arguments come before the block in the text
      rw [← List.cons_append, ← List.append_assoc, ← List.append_assoc]
      exact List.perm_append_comm.append_right _
  | branch cond thenBody elseBody =>
    cases elseBody <;>
      simp [Form.map, Form.preorder, Form.typedPlaces, Form.places, Form.parts, List.flatMap_def]
  | define d =>
    simp [Form.map, Definition.map, Form.preorder, Form.typedPlaces, Form.parts, List.flatMap_def]
  | _ => simp [Form.map, Form.preorder, Form.typedPlaces, Form.places, Form.parts, List.flatMap_def]

theorem preorder_perm_typedPlaces (e : Expr) : e.preorder.Perm e.typedPlaces := by
  induction e using induction with
  | step id span form ih =>
    rw [preorder_eq, typedPlaces_eq]
    refine ((preorder_map_perm form).trans ?_).cons _
    exact (List.Perm.refl _).append (List.Perm.flatMap_left _ ih)

end Expr

theorem Program.preorder_perm (p : Program) : p.preorder.Perm (p.stmts.flatMap Expr.typedPlaces) :=
  List.Perm.flatMap_left _ fun e _ => e.preorder_perm_typedPlaces

/-- Each node of a program heads a stretch of the preorder, and what is nested in it is the rest of that
stretch. -/
theorem Program.Has.preorder_infix {p : Program} {e : Expr} (he : p.Has e) : e.preorder <:+: p.preorder := by
  induction he with
  | @stmt e he => exact List.infix_of_mem_flatten (List.mem_map_of_mem he)
  | part _ hpart ih => exact (Expr.preorder_infix_of_part hpart).trans ih

/-! ### Places in the text -/

/-- The places mark pieces of the text inside of the spans, and they are in the order of the text. -/
structure Fills (source : List Char) (spans : List Span) (places : List Place) : Prop where
  marks : ∀ place ∈ places, place.span.Marks source
  inside : ∀ place ∈ places, ∃ s ∈ spans, s.Covers place.span
  ordered : (places.map Place.span).Pairwise Span.Before

namespace Fills
variable {source : List Char} {spans spans' : List Span} {places places' : List Place} {s : Span}

theorem nil : Fills source spans [] :=
  ⟨fun _ h => absurd h List.not_mem_nil, fun _ h => absurd h List.not_mem_nil, .nil⟩

theorem mono (h : Fills source spans places) (hsub : spans ⊆ spans') : Fills source spans' places :=
  ⟨h.marks, fun place hplace => (h.inside place hplace).imp fun _ hs => ⟨hsub hs.1, hs.2⟩, h.ordered⟩

theorem append (h : Fills source spans places) (h' : Fills source spans' places')
    (hrow : ∀ s ∈ spans, ∀ s' ∈ spans', s.stop ≤ s'.start) :
    Fills source (spans ++ spans') (places ++ places') where
  marks := List.forall_mem_append.2 ⟨h.marks, h'.marks⟩
  inside := List.forall_mem_append.2 ⟨(h.mono (List.subset_append_left _ _)).inside,
    (h'.mono (List.subset_append_right _ _)).inside⟩
  ordered := by
    rw [List.map_append, List.pairwise_append]
    refine ⟨h.ordered, h'.ordered, ?_⟩
    refine List.forall_mem_map.2 fun a ha => List.forall_mem_map.2 fun b hb => ?_
    obtain ⟨s, hs, hsa⟩ := h.inside a ha
    obtain ⟨s', hs', hsb⟩ := h'.inside b hb
    exact .inr (hsa.2.trans ((hrow s hs s' hs').trans hsb.1))

/-- What fills spans that lie one behind the other. -/
theorem flatMap {xs : List α} {span : α → Span} {list : α → List Place}
    (hrow : (xs.map span).Pairwise fun a b => a.stop ≤ b.start)
    (h : ∀ x ∈ xs, Fills source [span x] (list x)) : Fills source (xs.map span) (xs.flatMap list) := by
  induction xs with
  | nil => exact nil
  | cons x xs ih =>
    rw [List.map_cons, List.pairwise_cons] at hrow
    have hrest := ih hrow.2 fun y hy => h y (List.mem_cons_of_mem _ hy)
    exact (h x List.mem_cons_self).append hrest fun s hs => by
      rw [List.mem_singleton.1 hs]
      exact hrow.1

/-- A node comes before what is below it. -/
theorem node (place : Place) (hmarks : place.span.Marks source) (hholds : place.span.Holds source spans)
    (h : Fills source spans places) : Fills source [place.span] (place :: places) where
  marks := List.forall_mem_cons.2 ⟨hmarks, h.marks⟩
  inside := by
    refine List.forall_mem_cons.2 ⟨⟨_, List.mem_singleton_self _, Span.covers_refl _⟩, fun q hq => ?_⟩
    obtain ⟨s, hs, hsq⟩ := h.inside q hq
    exact ⟨_, List.mem_singleton_self _, (hholds.covers s hs).1.trans hsq⟩
  ordered := by
    refine List.pairwise_cons.2 ⟨List.forall_mem_map.2 fun q hq => ?_, h.ordered⟩
    obtain ⟨s, hs, hsq⟩ := h.inside q hq
    obtain ⟨hcovers, hne⟩ := hholds.covers s hs
    refine .inl ⟨hcovers.trans hsq, fun heq => hne ?_⟩
    -- a child that holds all of the node would be as wide as the node
    obtain ⟨start, stop⟩ := s
    obtain ⟨hstart, hstop⟩ := hcovers
    obtain ⟨hstart', hstop'⟩ := hsq
    rw [← heq] at hstart' hstop'
    exact Span.mk.injEq .. |>.mpr ⟨Nat.le_antisymm hstart' hstart, Nat.le_antisymm hstop hstop'⟩

/-- A place that nothing is below of. -/
theorem single (place : Place) (hmarks : place.span.Marks source) : Fills source [place.span] [place] :=
  ⟨List.forall_mem_singleton.2 hmarks,
    List.forall_mem_singleton.2 ⟨_, List.mem_singleton_self _, Span.covers_refl _⟩,
    List.pairwise_singleton _ _⟩

theorem idents {params : List Ident} (hmarks : ∀ s ∈ params.map Ident.span, s.Marks source)
    (hrow : (params.map Ident.span).Pairwise fun a b => a.stop ≤ b.start) :
    Fills source (params.map Ident.span) (params.map Ident.place) := by
  rw [List.map_eq_flatMap (f := Ident.place)]
  exact flatMap hrow fun param hparam => single param.place (hmarks _ (List.mem_map_of_mem hparam))

end Fills

namespace Expr
variable {source : List Char} {e : Expr}

theorem fills_block {b : Block Expr} (hmarks : b.span.Marks source) (hholds : b.span.Holds source b.spans)
    (hbody : ∀ stmt ∈ b.body, Fills source [stmt.span] stmt.preorder) :
    Fills source [b.span] (⟨b.id, b.span⟩ :: (b.params.map Ident.place ++ b.body.flatMap preorder)) := by
  obtain ⟨hparams, hstmts, hacross⟩ := List.pairwise_append.1 hholds.ordered
  have hnames := Fills.idents (fun s hs => hholds.marks s (List.mem_append_left _ hs)) hparams
  exact Fills.node ⟨b.id, b.span⟩ hmarks hholds (hnames.append (.flatMap hstmts hbody) hacross)

/-- The places below a node lie in its children, in order. -/
theorem fills_children (h : e.WellSpanned source)
    (ih : ∀ part ∈ e.form.parts, Fills source [part.span] part.preorder) :
    Fills source e.form.spans (e.form.map preorder).preorder := by
  obtain ⟨-, ⟨hmarks, -, hrow⟩, -, hblock⟩ := h
  cases hform : e.form with
  | literal value => exact .nil
  | var name => exact .nil
  | assign target value =>
    rw [hform] at hmarks hrow ih
    have htarget := Fills.single target.place (hmarks target.span List.mem_cons_self)
    have hvalue := ih value (List.mem_singleton_self _)
    exact htarget.append hvalue fun s hs s' hs' => by
      rw [List.mem_singleton.1 hs]
      exact (List.pairwise_cons.1 hrow).1 s' hs'
  | call name nameSpan args block =>
    rw [hform] at hmarks hrow ih
    obtain ⟨hargs, -, hacross⟩ := List.pairwise_append.1 hrow
    cases block with
    | none =>
      have hfills := Fills.flatMap hargs ih
      simpa [Form.map, Form.preorder, Form.spans, ← List.flatMap_def] using hfills
    | some b =>
      have hfills := Fills.flatMap hargs fun arg harg => ih arg (List.mem_append_left _ harg)
      have hin := fills_block (hmarks b.span (List.mem_append_right _ (List.mem_singleton_self _)))
        (hblock _ _ _ _ hform) fun stmt hstmt => ih stmt (List.mem_append_right _ hstmt)
      have hboth := hfills.append hin hacross
      simpa [Form.map, Block.map, Form.preorder, Form.spans, ← List.flatMap_def] using hboth
  | yield args =>
    rw [hform] at hrow ih
    exact Fills.flatMap hrow ih
  | branch cond thenBody elseBody =>
    rw [hform] at hrow ih
    rw [Form.parts_branch] at ih
    have hfills := Fills.flatMap hrow ih
    cases elseBody <;> simpa [Form.map, Form.preorder, Form.spans, ← List.flatMap_def] using hfills
  | loop cond body =>
    rw [hform] at hrow ih
    have hfills := Fills.flatMap hrow ih
    simpa [Form.map, Form.preorder, Form.spans, ← List.flatMap_def] using hfills
  | define d =>
    rw [hform] at hmarks hrow ih
    obtain ⟨hparams, hstmts, hacross⟩ := List.pairwise_append.1 (List.pairwise_cons.1 hrow).2
    have hnames := Fills.idents
      (fun s hs => hmarks s (List.mem_cons_of_mem _ (List.mem_append_left _ hs))) hparams
    exact (hnames.append (.flatMap hstmts ih) hacross).mono (List.subset_cons_self _ _)

/-- The preorder of a tree is in the order of the text. -/
theorem Nested.fills (h : e.Nested source) : Fills source [e.span] e.preorder := by
  induction h with
  | @node e framed parts ih =>
    have hspanned := framed.wellSpanned
    rw [preorder_eq]
    exact Fills.node ⟨e.id, e.span⟩ hspanned.marks hspanned.children (fills_children hspanned ih)

end Expr

/-! ### Sorting -/

namespace Place

theorem le_iff {a b : Place} : Place.le a b = true ↔ a.span.start < b.span.start ∨
    a.span.start = b.span.start ∧ (b.span.stop < a.span.stop ∨
      a.span.stop = b.span.stop ∧ a.id ≤ b.id) := by
  simp [Place.le]

theorem le_trans {a b c : Place} (hab : Place.le a b = true) (hbc : Place.le b c = true) :
    Place.le a c = true := by
  rw [le_iff] at *
  unfold NodeId at *
  omega

theorem le_total (a b : Place) : (Place.le a b || Place.le b a) = true := by
  rw [Bool.or_eq_true, le_iff, le_iff]
  unfold NodeId
  omega

theorem le_antisymm {a b : Place} (hab : Place.le a b = true) (hba : Place.le b a = true) : a = b := by
  rw [le_iff] at hab hba
  obtain ⟨id, start, stop⟩ := a
  obtain ⟨id', start', stop'⟩ := b
  simp only [Place.mk.injEq, Span.mk.injEq]
  unfold NodeId at *
  dsimp only at hab hba
  omega

theorem le_of_before {source : List Char} {a b : Place} (ha : a.span.Marks source)
    (h : a.span.Before b.span) : Place.le a b = true := by
  rw [le_iff]
  rcases h with ⟨⟨hstart, hstop⟩, hne⟩ | hbehind
  · have hends : ¬ (a.span.start = b.span.start ∧ a.span.stop = b.span.stop) := fun ⟨hs, ht⟩ =>
      hne (Span.mk.injEq .. |>.mpr ⟨hs, ht⟩)
    omega
  · have := ha.lt
    omega

end Place

/-- The statements of a text fill it in preorder. -/
theorem Program.fills_parse (source : String) : Fills source.toList
    ((parse source).program.stmts.map Expr.span) (parse source).program.preorder :=
  Fills.flatMap (sit_parse source).1.ordered fun e he => ((sit_parse source).2 e he).fills

/-- Of a text the places are sorted into preorder. -/
theorem Program.typedPlaces_eq_preorder (source : String) :
    (parse source).program.typedPlaces = (parse source).program.preorder := by
  obtain ⟨hmarks, -, hordered⟩ := fills_parse source
  have hsorted : (parse source).program.preorder.Pairwise fun a b => Place.le a b = true :=
    (List.pairwise_map.1 hordered).imp_of_mem fun ha _ => Place.le_of_before (hmarks _ ha)
  have hplaces : (parse source).program.typedPlaces.Pairwise fun a b => Place.le a b = true :=
    List.pairwise_mergeSort (fun a b c => Place.le_trans (a := a) (b := b) (c := c)) Place.le_total _
  exact List.Perm.eq_of_pairwise (fun _ _ _ _ => Place.le_antisymm) hplaces hsorted
    ((List.mergeSort_perm _ _).trans (preorder_perm _).symm)

/-! ### Nodes with types -/

/-- The identities of a node that may have types. -/
def Expr.listable (e : Expr) : List NodeId := e.id :: e.form.typedPlaces.map Place.id

namespace Expr
variable {e : Expr} {n : NodeId}

theorem target_mem_listable {t : Ident} (h : t ∈ e.form.targets) : t.id ∈ e.listable := by
  unfold listable
  cases hform : e.form with
  | assign target value =>
    rw [hform] at h
    rw [List.mem_singleton.1 h]
    exact List.mem_cons_of_mem _ (List.mem_singleton_self _)
  | _ => rw [hform] at h; exact absurd h List.not_mem_nil

theorem block_mem_listable {b : Block Expr} (h : e.form.block? = some b) : b.id ∈ e.listable := by
  obtain ⟨name, nameSpan, args, hform⟩ := Form.eq_call_of_block h
  rw [listable, hform]
  exact List.mem_cons_of_mem _ List.mem_cons_self

theorem param_mem_listable {param : Ident} (h : param ∈ e.form.params) : param.id ∈ e.listable := by
  have hplace : param.place ∈ e.form.typedPlaces := by
    rcases hform : e.form with _ | _ | _ | ⟨_, _, _, _ | b⟩ | _ | _ | _ | d <;> rw [hform] at h
    case call.some => exact List.mem_cons_of_mem _ (List.mem_map_of_mem h)
    case define => exact List.mem_map_of_mem h
    all_goals exact absurd h List.not_mem_nil
  exact List.mem_cons_of_mem _ (List.mem_map_of_mem (f := Place.id) hplace)

theorem typedPlaces_sublist_ids (e : Expr) : (e.typedPlaces.map Place.id).Sublist e.ids := by
  induction e using induction with
  | step id span form ih =>
    have hplaces : (form.typedPlaces.map Place.id).Sublist (form.places.map Place.id) := by
      cases form with
      | define d => exact List.sublist_cons_self _ _
      | _ => exact List.Sublist.refl _
    rw [typedPlaces_eq, ids_eq, own, List.map_cons, List.map_append, List.cons_append, List.map_flatMap]
    refine List.Sublist.cons_cons _ (hplaces.append ?_)
    exact List.Sublist.flatMap_right _ ih

end Expr

/-- The nodes that have types by a module are places of the program where types can be. -/
def Module.Listable (M : Module) (p : Program) : Prop :=
  ∀ n, M.Seen n → ∃ s ∈ p.sites, n ∈ s.expr.listable

namespace Module
variable {M : Module} {p : Program} {s : Site} {n : NodeId} {ty : Ty}

/-- Where more of a node is seen. -/
theorem Listable.see {N : Module} (h : M.Listable p) (hs : s ∈ p.sites)
    (hnew : ∀ n, N.Seen n → M.Seen n ∨ n ∈ s.expr.listable) : N.Listable p :=
  fun n hn => (hnew n hn).elim (h n) fun hmem => ⟨s, hs, hmem⟩

theorem Listable.settle (h : M.Listable p) (hs : s ∈ p.sites) : (M.settle s.expr ty).Listable p := by
  refine h.see hs fun n ⟨x, hx⟩ => (sees_settle.1 hx).imp (fun hx => ⟨x, hx⟩) ?_
  rintro ⟨rfl | ⟨t, ht, rfl⟩, -⟩
  · exact List.mem_cons_self
  · exact Expr.target_mem_listable ht

theorem Listable.recordParams {params : List (Ident × Ty)} (h : M.Listable p) (hs : s ∈ p.sites)
    (hparams : ∀ param ∈ params, param.1 ∈ s.expr.form.params) : (M.recordParams params).Listable p := by
  refine h.see hs fun n hn => (seen_recordParams hn).imp_right ?_
  rintro ⟨param, hparam, rfl⟩
  exact Expr.param_mem_listable (hparams param hparam)

theorem Listable.enter {m : Method} {signature : Signature} {block : Option (Block Expr)}
    (h : M.Listable p) (hs : s ∈ p.sites) (hform : s.expr.form = .define m.definition) :
    (M.enter m signature block).Listable p := by
  have hparams (param : Ident × Ty) : param ∈ m.definition.params.zip signature →
      param.1 ∈ s.expr.form.params := Expr.mem_params_of_zip hform
  cases block with
  | none => exact Listable.recordParams (M := M.updateMethod m.name _) h hs hparams
  | some b => exact h.recordParams hs hparams

end Module

/-- A run sees no other nodes than those that can be listed. -/
def Account.listable (p : Program) : Account p where
  Holds _ _ M := M.Listable p
  initial := fun _ ⟨_, hx⟩ => absurd hx Module.not_sees_initial
  forget _ _ h := h
  settle hs _ _ _ h := h.settle hs
  define := by
    intro L c M s d hs _ _ _ _ h
    exact Module.Listable.settle (M := M.define d) h hs
  answer _ _ h := h
  enter _ _ _ hq hform _ h := h.enter hq hform
  leave _ _ _ _ _ _ _ h := h
  run _ _ _ h := h
  bindParams := by
    intro L c M s b name nameSpan args signature hs hform _ h
    refine h.recordParams hs fun param hparam => ?_
    rw [hform]
    exact Infer.mem_of_paramTypes hparam
  collect := by
    intro L c M N s b method? outer name nameSpan args tys hs hform _ _ _ _ _ _ h
    refine h.see hs fun n ⟨x, hx⟩ => (Module.sees_record.1 hx).imp (fun hx => ⟨x, hx⟩) ?_
    rintro ⟨rfl, -⟩
    exact Expr.block_mem_listable (by rw [hform]; rfl)

namespace Program
variable {p : Program} {limit : Nat} {M : Module} {n : NodeId} {s : Site}

theorem typedPlaces_subset_of_site (hs : s ∈ p.sites) :
    s.expr.typedPlaces ⊆ p.stmts.flatMap Expr.typedPlaces := by
  refine site_induction (motive := fun s => s.expr.typedPlaces ⊆ p.stmts.flatMap Expr.typedPlaces)
    (fun e he place hplace => List.mem_flatMap.2 ⟨e, he, hplace⟩) (fun s _ ih q hq => ?_) hs
  rw [Expr.typedPlaces_eq] at ih
  have hparts : s.expr.form.parts.flatMap Expr.typedPlaces ⊆ p.stmts.flatMap Expr.typedPlaces :=
    fun place hplace => ih (List.mem_cons_of_mem _ (List.mem_append_right _ hplace))
  exact fun place hplace => hparts (List.mem_flatMap.2 ⟨q.expr, Site.expr_mem_parts hq, hplace⟩)

/-- Each node that has a type is among the places that the listing goes through. -/
theorem exists_typedPlace_of_infer (h : p.infer limit = .ok M) (hn : M.Seen n) :
    ∃ place ∈ p.typedPlaces, place.id = n := by
  obtain ⟨N, tys, rfl, -, hkept⟩ := (Account.listable p).of_infer h
  obtain ⟨s, hs, hmem⟩ := hkept.holds n hn
  have hplace : ∃ place ∈ s.expr.typedPlaces, place.id = n := by
    rw [Expr.typedPlaces_eq]
    rcases List.mem_cons.1 hmem with rfl | hmem
    · exact ⟨_, List.mem_cons_self, rfl⟩
    · obtain ⟨place, hplace, hid⟩ := List.mem_map.1 hmem
      exact ⟨place, List.mem_cons_of_mem _ (List.mem_append_left _ hplace), hid⟩
  obtain ⟨place, hplace, hid⟩ := hplace
  exact ⟨place, List.mem_mergeSort.2 (typedPlaces_subset_of_site hs hplace), hid⟩

theorem nodup_typedPlaces (hids : p.ids.Nodup) : (p.typedPlaces.map Place.id).Nodup := by
  have hsublist : ((p.stmts.flatMap Expr.typedPlaces).map Place.id).Sublist p.ids := by
    rw [List.map_flatMap]
    exact List.Sublist.flatMap_right _ fun e _ => e.typedPlaces_sublist_ids
  exact ((List.mergeSort_perm _ _).map Place.id).nodup_iff.2 (hids.sublist hsublist)

end Program

/-! ### The listing -/

theorem Span.Marks.stop_le {source : List Char} {s : Span} (h : s.Marks source) :
    s.stop ≤ byteLength source := by
  obtain ⟨front, back, rfl, hfront⟩ := (marks_iff.1 h).2.1
  rw [byteLength_append]
  omega

/-- The line and the column of an offset of a text of fewer than 2 ^ 32 bytes, as numbers. -/
theorem LineIndex.position_ofText {cs : List Char} (hcs : byteLength cs < 2 ^ 32) (offset : Nat)
    (hoffset : offset < 2 ^ 32 - 1) : ∃ start,
      (ofText cs).position offset = (((utf8 cs).take offset).count lineFeed + 1, offset - start + 1) ∧
      LineStart (utf8 cs) (((utf8 cs).take offset).count lineFeed + 1) start ∧ start ≤ offset := by
  have hword : (UInt32.ofNat offset).toNat = offset := by
    rw [UInt32.toNat_ofNat', Nat.mod_eq_of_lt (by omega)]
  have hshort : (UInt32.ofNat offset).toNat < 2 ^ 32 - 1 := by rw [hword]; exact hoffset
  obtain ⟨line, column, start, heq, hstart, hle, hline, hcolumn⟩ := lineAndColumn_ofText hcs hshort
  rw [hword] at hle hline hcolumn
  refine ⟨start, ?_, hline ▸ hstart, hle⟩
  rw [position, heq, ← hline, ← hcolumn]

namespace Module
variable {M : Module} {p : Program} {source : List Char}

theorem nodup_annotations (M : Module) : M.annotations.Nodup :=
  M.types.increasing.imp fun hlt heq => by
    subst heq
    simp at hlt

/-- A place that has a type, as it is listed. -/
def listed (source : List Char) (place : Place) (ty : Ty) : Listed :=
  let (line, column) := (LineIndex.ofText source).position place.span.start
  ⟨place, line, column, snippet ((place.span.slice? source).getD []), ty⟩

theorem listing_eq (M : Module) (p : Program) (source : List Char) : M.listing p source =
    p.typedPlaces.filterMap fun place => (M.typeOf? place.id).map (listed source place) := rfl

theorem mem_listing {l : Listed} : l ∈ M.listing p source ↔
    ∃ place ∈ p.typedPlaces, ∃ ty, M.typeOf? place.id = some ty ∧ listed source place ty = l := by
  simp [listing_eq, List.mem_filterMap, Option.map_eq_some_iff]

theorem places_listing (M : Module) (p : Program) (source : List Char) :
    (M.listing p source).map Listed.place = p.typedPlaces.filter fun place => (M.typeOf? place.id).isSome := by
  rw [listing_eq, List.map_filterMap, ← List.filterMap_eq_filter]
  refine List.filterMap_congr fun place _ => ?_
  cases hty : M.typeOf? place.id <;> simp [Option.guard, listed, hty]

end Module

/-- The listing of a module for a program and its text. -/
structure Module.ListsExactly (M : Module) (p : Program) (source : List Char) : Prop where
  /-- Each node that has a type is listed with it once, and nothing else is. -/
  entries : ((M.listing p source).map fun l => (l.place.id, l.ty)).Perm M.annotations
  /-- What is shown is taken from the text at the node's span. -/
  shown : ∀ l ∈ M.listing p source, ∃ text, text ≠ [] ∧ l.place.span.slice? source = some text ∧
    l.snippet = snippet text
  /-- The line counts the line feeds before the span, and the column the bytes from where the line starts. -/
  position : byteLength source < 2 ^ 32 → ∀ l ∈ M.listing p source,
    l.line = ((utf8 source).take l.place.span.start).count lineFeed + 1 ∧
    ∃ start, LineStart (utf8 source) l.line start ∧ l.place.span.start + 1 = start + l.column
  /-- The entries are in preorder. -/
  preorder : (M.listing p source).map Listed.place =
    p.preorder.filter fun place => (M.typeOf? place.id).isSome
  /-- The entry of a node stands right before those of the nodes nested in it. -/
  nested : ∀ e, p.Has e → (e.preorder.filter fun place => (M.typeOf? place.id).isSome) <:+:
    (M.listing p source).map Listed.place
  /-- An entry comes before another one if its piece of the text holds the other one's and more, or else
  lies before it. -/
  ordered : ((M.listing p source).map fun l => l.place.span).Pairwise Span.Before

namespace Program

section
variable {limit : Nat} {M : Module} {source : String}

/-- Which nodes are listed. -/
theorem entries_perm {p : Program} (hids : p.ids.Nodup) (hinfer : p.infer limit = .ok M) (text : List Char) :
    ((M.listing p text).map fun l => (l.place.id, l.ty)).Perm M.annotations := by
  have hnodup : ((M.listing p text).map fun l => (l.place.id, l.ty)).Nodup := by
    refine List.Nodup.of_map Prod.fst ?_
    have hplaces : ((M.listing p text).map fun l => (l.place.id, l.ty)).map Prod.fst =
        ((M.listing p text).map Listed.place).map Place.id := by
      rw [List.map_map, List.map_map]
      rfl
    rw [hplaces, Module.places_listing]
    exact (nodup_typedPlaces hids).sublist (List.filter_sublist.map _)
  refine (List.perm_ext_iff_of_nodup hnodup M.nodup_annotations).2 ?_
  rintro ⟨n, ty⟩
  rw [Module.mem_annotations, List.mem_map]
  constructor
  · rintro ⟨l, hl, heq⟩
    obtain ⟨place, -, ty', hty, rfl⟩ := Module.mem_listing.1 hl
    cases heq
    exact hty
  · intro hty
    obtain ⟨place, hplace, rfl⟩ := exists_typedPlace_of_infer hinfer (Module.seen_iff.2 ⟨ty, hty⟩)
    exact ⟨_, Module.mem_listing.2 ⟨place, hplace, ty, hty, rfl⟩, rfl⟩

/-- The listing of a program that was parsed and has types. -/
theorem lists_exactly {p : Program} (hparse : (parse source).program? = some p)
    (hinfer : p.infer limit = .ok M) : M.ListsExactly p source.toList := by
  obtain ⟨-, heq⟩ := Option.ite_none_right_eq_some.1 hparse
  obtain rfl : (parse source).program = p := Option.some.inj heq
  obtain ⟨n, -, hperm, -⟩ := ids_perm_range source
  obtain ⟨hmarks, -, hordered⟩ := fills_parse source
  have hplaces := M.places_listing (parse source).program source.toList
  rw [typedPlaces_eq_preorder] at hplaces
  have hplace (l : Listed) (hl : l ∈ M.listing (parse source).program source.toList) :
      l.place.span.Marks source.toList := by
    have hmem : l.place ∈ (M.listing (parse source).program source.toList).map Listed.place :=
      List.mem_map_of_mem hl
    rw [hplaces] at hmem
    exact hmarks _ (List.mem_of_mem_filter hmem)
  constructor
  case entries => exact entries_perm (hperm.nodup_iff.2 List.nodup_range) hinfer _
  case shown =>
    intro l hl
    obtain ⟨text, hne, hslice⟩ := hplace l hl
    obtain ⟨place, -, ty, -, rfl⟩ := Module.mem_listing.1 hl
    have hsnippet : (Module.listed source.toList place ty).snippet = snippet ((some text).getD []) :=
      congrArg (fun found : Option (List Char) => snippet (found.getD [])) hslice
    exact ⟨text, hne, hslice, hsnippet⟩
  case position =>
    intro hlength l hl
    have hstop := (hplace l hl).stop_le
    have hlt := (hplace l hl).lt
    obtain ⟨start, hposition, hstart, hle⟩ :=
      LineIndex.position_ofText hlength l.place.span.start (by omega)
    obtain ⟨place, -, ty, -, rfl⟩ := Module.mem_listing.1 hl
    have hline : (Module.listed source.toList place ty).line = _ := congrArg Prod.fst hposition
    have hcolumn : (Module.listed source.toList place ty).column = _ := congrArg Prod.snd hposition
    exact ⟨hline, start, hline ▸ hstart, by omega⟩
  case preorder => exact hplaces
  case nested =>
    intro e he
    rw [hplaces]
    exact he.preorder_infix.filter _
  case ordered =>
    have hspans : (M.listing (parse source).program source.toList).map (fun l => l.place.span) =
        ((M.listing (parse source).program source.toList).map Listed.place).map Place.span := by
      rw [List.map_map]
      rfl
    rw [hspans, hplaces]
    exact hordered.sublist (List.filter_sublist.map _)

/-- A method with a parameter, and a call with a block inside of a choice and an assignment. -/
def callInChoice : Program where
  stmts := [
    .node 4 ⟨0, 21⟩ (.define ⟨⟨0, "f", ⟨4, 5⟩⟩, [⟨1, "a", ⟨6, 7⟩⟩],
      [.node 3 ⟨9, 17⟩ (.yield [.node 2 ⟨15, 16⟩ (.var "a")])]⟩),
    .node 13 ⟨22, 53⟩ (.assign ⟨5, "x", ⟨22, 23⟩⟩
      (.node 12 ⟨26, 53⟩ (.branch (.node 6 ⟨29, 33⟩ (.literal (.bool true)))
        [.node 11 ⟨35, 49⟩ (.call "f" ⟨35, 36⟩ [.node 7 ⟨37, 38⟩ (.literal (.int 1))]
          (some ⟨10, ⟨40, 49⟩, [⟨8, "b", ⟨43, 44⟩⟩], [.node 9 ⟨46, 47⟩ (.var "b")]⟩))]
        none)))]

theorem parse_callInChoice :
    (parse "def f(a) yield(a) end\nx = if true; f(1) { |b| b } end").program? = some callInChoice := by cbv

theorem lists_exactly_callInChoice :
    (parse "def f(a) yield(a) end\nx = if true; f(1) { |b| b } end").program? = some callInChoice ∧
    ∃ M, callInChoice.infer 64 = .ok M ∧
      M.ListsExactly callInChoice "def f(a) yield(a) end\nx = if true; f(1) { |b| b } end".toList := by
  have hends : (callInChoice.infer 64).toBool = true := by decide +kernel
  obtain ⟨M, hM⟩ := exists_infer hends
  exact ⟨parse_callInChoice, M, hM, lists_exactly parse_callInChoice hM⟩

end

end Program

end FlowTyping
