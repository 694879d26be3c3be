import FlowTyping.Expr.Json
import FlowTyping.Proofs.Rendering

/-!
# Programs through JSON

`Program.toJson_loses_nothing`: the JSON form of a program is read as this program.  One layer is read back if
its parts are (`Form.ofJson?_toJson`), and the parts of a value nest less deep than the value itself, so
the depth that reading is given is enough (`Program.Has.ofJsonWithin?_toJson`).
-/

namespace FlowTyping

/-! ### Numbers of 32 bits -/

/-- Both ends of the span fit into 32 bits. -/
def Span.InWords (s : Span) : Prop := s.start < 0x100000000 ∧ s.stop < 0x100000000

instance (s : Span) : Decidable s.InWords := inferInstanceAs (Decidable (_ ∧ _))

/-- The identity and the span of the place fit into 32 bits. -/
def Place.InWords (p : Place) : Prop := p.id < 0x100000000 ∧ p.span.InWords

instance (p : Place) : Decidable p.InWords := inferInstanceAs (Decidable (_ ∧ _))

/-- The span of the name of a call. -/
def Form.nameSpan? : Form α → Option Span
  | call _ nameSpan _ _ => some nameSpan
  | _ => none

/-- The identities and spans of a layer, those of its parts apart, fit into 32 bits. -/
def Form.InWords (form : Form α) : Prop :=
  (∀ place ∈ form.places, place.InWords) ∧ ∀ span ∈ form.nameSpan?, span.InWords

instance (form : Form α) : Decidable form.InWords := inferInstanceAs (Decidable (_ ∧ _))

/-- Whether all identities and spans of an expression fit into 32 bits. -/
def Expr.inWords : Expr → Bool :=
  fold fun id span form => decide (Place.InWords ⟨id, span⟩ ∧ form.InWords) && form.parts.all (·)

/-- Whether all identities and spans of a program fit into 32 bits. -/
def Program.inWords (p : Program) : Bool := p.stmts.all Expr.inWords

theorem Form.inWords_map (f : α → β) (form : Form α) : (form.map f).InWords ↔ form.InWords := by
  have hname : (form.map f).nameSpan? = form.nameSpan? := by cases form <;> rfl
  rw [InWords, InWords, places_map, hname]

theorem Expr.inWords_eq (e : Expr) : e.inWords =
    (decide (Place.InWords ⟨e.id, e.span⟩ ∧ e.form.InWords) && e.form.parts.all inWords) := by
  conv => lhs; rw [eta e, inWords, fold_node]
  rw [Form.parts_map, List.all_map]
  exact congrArg (· && _) (decide_eq_decide.2 (and_congr_right fun _ => Form.inWords_map _ _))

/-- In a program whose identities and spans fit into 32 bits, those of every node do. -/
theorem Program.Has.inWords {p : Program} {e : Expr} (h : p.inWords) (he : p.Has e) :
    Place.InWords ⟨e.id, e.span⟩ ∧ e.form.InWords := by
  have hexpr : e.inWords := by
    induction he with
    | stmt he => exact List.all_eq_true.1 h _ he
    | part _ hpart ih =>
      rw [Expr.inWords_eq, Bool.and_eq_true] at ih
      exact List.all_eq_true.1 ih.2 _ hpart
  rw [Expr.inWords_eq, Bool.and_eq_true] at hexpr
  exact of_decide_eq_true hexpr.1

/-! ### Heights -/

/-- What a layer is made of nests less deep than the layer, by more than one level. -/
theorem Form.height_lt_toJson {literal : Literal → Json} {form : Form Json} {j : Json}
    (h : j ∈ form.parts) : j.height < (form.toJson literal).height := by
  have hitems {items : List Json} (h : j ∈ items) : j.height ≤ Json.itemsHeight items :=
    Json.height_le_itemsHeight h
  rcases form with _ | _ | _ | ⟨_, _, _, _ | _⟩ | _ | ⟨_, _, _ | _⟩ | _ | _ <;>
    simp only [parts, List.not_mem_nil, List.mem_cons, List.mem_append, or_false] at h <;>
    simp only [toJson, Block.toJson, Json.ofOption, Json.height, Json.membersHeight]
  · subst h
    omega
  · have := hitems h
    omega
  · rcases h with h | h
    · have := hitems h
      omega
    · have := hitems h
      omega
  · have := hitems h
    omega
  · rcases h with rfl | h
    · omega
    · have := hitems h
      omega
  · rcases h with rfl | h | h
    · omega
    · have := hitems h
      omega
    · have := hitems h
      omega
  · rcases h with rfl | h
    · omega
    · have := hitems h
      omega
  · have := hitems h
    omega

/-! ### Reading back -/

/-- A list is read if its items are. -/
theorem mapM_map_eq_some {f : α → γ} {g : α → β} {read : γ → Option β} {as : List α}
    (h : ∀ a ∈ as, read (f a) = some (g a)) : (as.map f).mapM read = some (as.map g) := by
  induction as with
  | nil => rfl
  | cons a as ih =>
    rw [List.forall_mem_cons] at h
    simp [h.1, ih h.2]

namespace Json

theorem member?_of_mem {name : String} {j : Json} {ms : List (String × Json)}
    (h : (ms.map Prod.fst).Nodup) (hmem : (name, j) ∈ ms) : member? name ms = some j := by
  induction ms with
  | nil => exact absurd hmem List.not_mem_nil
  | cons m ms ih =>
    rw [List.map_cons, List.nodup_cons] at h
    rcases List.mem_cons.1 hmem with rfl | hmem
    · simp [member?]
    · have hne : name ≠ m.1 := fun heq => h.1 (heq ▸ List.mem_map_of_mem (f := Prod.fst) hmem)
      have hlookup : List.lookup name (m :: ms) = List.lookup name ms := by
        rw [show m = (m.1, m.2) from rfl, List.lookup_cons, beq_false_of_ne hne]
      exact hlookup.trans (ih h.2 hmem)

/-- A record is read as the values of its fields, the optional ones at the end. -/
theorem record?_obj (required optional : List (String × Json))
    (h : ((required ++ optional).map Prod.fst).Nodup) :
    record? (required.map Prod.fst) (optional.map Prod.fst) (obj (required ++ optional)) =
      some (required.map Prod.snd ++ optional.map Prod.snd) := by
  have hrequired : (required.map Prod.fst).mapM (member? · (required ++ optional)) =
      some (required.map Prod.snd) :=
    mapM_map_eq_some fun m hm => member?_of_mem h (List.mem_append_left _ hm)
  have hoptional (m : String × Json) (hm : m ∈ optional) :
      (member? m.1 (required ++ optional)).getD null = m.2 := by
    rw [member?_of_mem h (List.mem_append_right _ hm), Option.getD_some]
  simp only [record?, hrequired, List.map_map, Option.map_some]
  exact congrArg (fun js => some (required.map Prod.snd ++ js)) (List.map_congr_left hoptional)

theorem word?_int {n : Nat} (h : n < 0x100000000) : (int n).word? = some n := by
  simp only [word?, Int.toNat_natCast]
  exact if_pos (by omega)

end Json

theorem bind_of_some {o : Option α} {f : α → Option β} {a : α} {b : β} (h : o = some a)
    (hf : f a = some b) : (o >>= f) = some b := by
  rw [h]
  exact hf

theorem Span.ofJson?_toJson {s : Span} (h : s.InWords) : ofJson? s.toJson = some s := by
  have hrecord : Json.record? ["start", "end"] [] s.toJson = some [.int s.start, .int s.stop] :=
    Json.record?_obj [_, _] [] (by simp)
  exact bind_of_some hrecord <| bind_of_some (Json.word?_int h.1) <| bind_of_some (Json.word?_int h.2) rfl

theorem Ident.ofJson?_toJson {i : Ident} (h : i.place.InWords) : ofJson? i.toJson = some i := by
  have hrecord : Json.record? ["id", "name", "span"] [] i.toJson =
      some [.int i.id, .str i.name, i.span.toJson] :=
    Json.record?_obj [_, _, _] [] (by simp)
  have hid : (Json.int i.id).word? = some i.id := Json.word?_int h.1
  have hspan : Span.ofJson? i.span.toJson = some i.span := Span.ofJson?_toJson h.2
  exact bind_of_some hrecord <| bind_of_some hid <| bind_of_some rfl <| bind_of_some hspan rfl

theorem idents?_toJson {params : List Ident} (h : ∀ place ∈ params.map Ident.place, place.InWords) :
    idents? (.arr (params.map Ident.toJson)) = some params := by
  have hread := mapM_map_eq_some (g := fun i => i)
    fun i hi => Ident.ofJson?_toJson (h _ (List.mem_map_of_mem (f := Ident.place) hi))
  rw [List.map_id'] at hread
  exact hread

theorem Literal.ofJson?_toJson {v : Literal} (h : ∀ x, v ≠ .float x) : ofJson? v.toJson = some v := by
  cases v with
  | int i =>
    have := i.le_toInt
    have := i.toInt_lt
    simp only [ofJson?, toJson, Int64.ofInt_toInt]
    exact if_pos (by omega)
  | float x => exact absurd rfl (h x)
  | char c => simp [ofJson?, toJson]
  | str s => rfl
  | bool b => rfl
  | nil => rfl

section
variable {literal : Literal → Json} {write : Expr → Json} {read : Json → Option Expr}

theorem exprs?_map {es : List Expr} (h : ∀ e ∈ es, read (write e) = some e) :
    exprs? read (.arr (es.map write)) = some es := by
  have hread := mapM_map_eq_some (g := fun e => e) h
  rw [List.map_id'] at hread
  exact hread

/-- The block of a call, or that there is none. -/
theorem Block.option?_toJson {block : Option (Block Expr)}
    (hplace : ∀ b ∈ block, Place.InWords ⟨b.id, b.span⟩)
    (hparams : ∀ b ∈ block, ∀ place ∈ b.params.map Ident.place, place.InWords)
    (hbody : ∀ b ∈ block, ∀ e ∈ b.body, read (write e) = some e) :
    (Json.ofOption Block.toJson (block.map (Block.map write))).option? (Block.ofJson? read) =
      some block := by
  cases block with
  | none => rfl
  | some b =>
    have hrecord : Json.record? ["id", "span", "params", "body"] [] (b.map write).toJson =
        some [.int b.id, b.span.toJson, .arr (b.params.map Ident.toJson), .arr (b.body.map write)] :=
      Json.record?_obj [_, _, _, _] [] (by simp)
    have hid : (Json.int b.id).word? = some b.id := Json.word?_int (hplace b rfl).1
    have hspan : Span.ofJson? b.span.toJson = some b.span := Span.ofJson?_toJson (hplace b rfl).2
    have hblock : Block.ofJson? read (b.map write).toJson = some b :=
      bind_of_some hrecord <| bind_of_some hid <| bind_of_some hspan <|
        bind_of_some (idents?_toJson (hparams b rfl)) <| bind_of_some (exprs?_map (hbody b rfl)) rfl
    show (Block.ofJson? read (b.map write).toJson).map some = some (some b)
    rw [hblock, Option.map_some]

/-- The else part of a choice, or that there is none. -/
theorem exprs?_option? {elseBody : Option (List Expr)}
    (h : ∀ e ∈ elseBody.getD [], read (write e) = some e) :
    (Json.ofOption .arr (elseBody.map (List.map write))).option? (exprs? read) = some elseBody := by
  cases elseBody with
  | none => rfl
  | some es => exact congrArg (Option.map some) (exprs?_map h)

/-- A layer is read back if its literal and its parts are. -/
theorem Form.ofJson?_toJson {form : Form Expr}
    (hliteral : ∀ v, form = .literal v → Literal.ofJson? (literal v) = some v)
    (hwords : form.InWords) (hparts : ∀ e ∈ form.parts, read (write e) = some e) :
    Form.ofJson? read ((form.map write).toJson literal) = some form := by
  obtain ⟨hplaces, hname⟩ := hwords
  cases form with
  | literal v => exact congrArg (Option.map Form.literal) (hliteral v rfl)
  | var name => rfl
  | assign target value =>
    have hrecord : Json.record? ["target", "value"] [] (.obj [("target", target.toJson),
        ("value", write value)]) = some [target.toJson, write value] :=
      Json.record?_obj [_, _] [] (by simp)
    have htarget := Ident.ofJson?_toJson (hplaces target.place (List.mem_singleton_self _))
    have hvalue := hparts value (List.mem_singleton_self _)
    exact bind_of_some hrecord <| bind_of_some htarget <| bind_of_some hvalue rfl
  | call name nameSpan args block =>
    have hrecord : Json.record? ["name", "name_span", "args"] ["block"] (.obj [("name", .str name),
        ("name_span", nameSpan.toJson), ("args", .arr (args.map write)),
        ("block", Json.ofOption Block.toJson (block.map (Block.map write)))]) =
        some [.str name, nameSpan.toJson, .arr (args.map write),
          Json.ofOption Block.toJson (block.map (Block.map write))] :=
      Json.record?_obj [_, _, _] [_] (by simp)
    have hspan := Span.ofJson?_toJson (hname nameSpan rfl)
    have hargs : exprs? read (.arr (args.map write)) = some args := exprs?_map fun e he => hparts e <| by
      cases block with
      | none => exact he
      | some b => exact List.mem_append_left _ he
    have hblock : (Json.ofOption Block.toJson (block.map (Block.map write))).option? (Block.ofJson? read) =
        some block := Block.option?_toJson
      (by rintro b ⟨⟩; exact hplaces _ List.mem_cons_self)
      (by rintro b ⟨⟩ place h; exact hplaces place (List.mem_cons_of_mem _ h))
      (by rintro b ⟨⟩ e h; exact hparts e (List.mem_append_right _ h))
    exact bind_of_some hrecord <| bind_of_some rfl <| bind_of_some hspan <| bind_of_some hargs <|
      bind_of_some hblock rfl
  | yield args =>
    have hrecord : Json.record? ["args"] [] (.obj [("args", .arr (args.map write))]) =
        some [.arr (args.map write)] := Json.record?_obj [_] [] (by simp)
    exact bind_of_some hrecord <| bind_of_some (exprs?_map hparts) rfl
  | branch cond thenBody elseBody =>
    rw [parts_branch] at hparts
    have hrecord : Json.record? ["cond", "then_body"] ["else_body"] (.obj [("cond", write cond),
        ("then_body", .arr (thenBody.map write)),
        ("else_body", Json.ofOption .arr (elseBody.map (List.map write)))]) =
        some [write cond, .arr (thenBody.map write),
          Json.ofOption .arr (elseBody.map (List.map write))] :=
      Json.record?_obj [_, _] [_] (by simp)
    have hcond := hparts cond List.mem_cons_self
    have hthen := exprs?_map fun e he => hparts e (List.mem_cons_of_mem _ (List.mem_append_left _ he))
    have helse := exprs?_option? fun e he =>
      hparts e (List.mem_cons_of_mem _ (List.mem_append_right _ he))
    exact bind_of_some hrecord <| bind_of_some hcond <| bind_of_some hthen <| bind_of_some helse rfl
  | loop cond body =>
    have hrecord : Json.record? ["cond", "body"] [] (.obj [("cond", write cond),
        ("body", .arr (body.map write))]) = some [write cond, .arr (body.map write)] :=
      Json.record?_obj [_, _] [] (by simp)
    have hbody := exprs?_map fun e he => hparts e (List.mem_cons_of_mem _ he)
    exact bind_of_some hrecord <| bind_of_some (hparts cond List.mem_cons_self) <| bind_of_some hbody rfl
  | define d =>
    have hrecord : Json.record? ["name", "params", "body"] [] (.obj [("name", d.name.toJson),
        ("params", .arr (d.params.map Ident.toJson)), ("body", .arr (d.body.map write))]) =
        some [d.name.toJson, .arr (d.params.map Ident.toJson), .arr (d.body.map write)] :=
      Json.record?_obj [_, _, _] [] (by simp)
    have hname := Ident.ofJson?_toJson (hplaces _ List.mem_cons_self)
    have hparams := idents?_toJson fun place h => hplaces place (List.mem_cons_of_mem _ h)
    have hdefinition : Definition.ofJson? read (.obj [("name", d.name.toJson),
        ("params", .arr (d.params.map Ident.toJson)), ("body", .arr (d.body.map write))]) = some d :=
      bind_of_some hrecord <| bind_of_some hname <| bind_of_some hparams <|
        bind_of_some (exprs?_map hparts) rfl
    simp only [map, toJson, Definition.map, ofJson?, hdefinition, Option.map_some]

end

theorem Expr.toJsonWith_eq (literal : Literal → Json) (e : Expr) : e.toJsonWith literal =
    .obj [("id", .int e.id), ("span", e.span.toJson),
      ("kind", (e.form.map (toJsonWith literal)).toJson literal)] := by
  conv => lhs; rw [eta e, toJsonWith, fold_node]
  rfl

theorem Expr.height_part_lt {literal : Literal → Json} {e part : Expr} (h : part ∈ e.form.parts) :
    (part.toJsonWith literal).height < (e.toJsonWith literal).height := by
  have hpart : part.toJsonWith literal ∈ (e.form.map (toJsonWith literal)).parts := by
    rw [Form.parts_map]
    exact List.mem_map_of_mem h
  have hform : _ < ((e.form.map (toJsonWith literal)).toJson literal).height := Form.height_lt_toJson hpart
  rw [toJsonWith_eq literal e]
  simp only [Json.height, Json.membersHeight]
  omega

namespace Program
variable {p : Program} {literal : Literal → Json}

/-- An expression is read back where its literals are, at as many levels as its JSON form has. -/
theorem Has.ofJsonWithin?_toJson {e : Expr} (hwords : p.inWords)
    (hliteral : ∀ e v, p.Has e → e.form = .literal v → Literal.ofJson? (literal v) = some v)
    (he : p.Has e) {fuel : Nat} (hfuel : (e.toJsonWith literal).height ≤ fuel) :
    Expr.ofJsonWithin? fuel (e.toJsonWith literal) = some e := by
  induction fuel generalizing e with
  | zero =>
    rw [Expr.toJsonWith_eq] at hfuel
    exact absurd hfuel (Nat.not_succ_le_zero _)
  | succ fuel ih =>
    obtain ⟨hplace, hform⟩ := he.inWords hwords
    have hrecord : Json.record? ["id", "span", "kind"] [] (e.toJsonWith literal) =
        some [.int e.id, e.span.toJson, (e.form.map (Expr.toJsonWith literal)).toJson literal] := by
      rw [Expr.toJsonWith_eq]
      exact Json.record?_obj [_, _, _] [] (by simp)
    have hkind : Form.ofJson? (Expr.ofJsonWithin? fuel)
        ((e.form.map (Expr.toJsonWith literal)).toJson literal) = some e.form :=
      Form.ofJson?_toJson (fun v => hliteral e v he) hform fun part hpart => by
        have hlt : (part.toJsonWith literal).height < (e.toJsonWith literal).height :=
          Expr.height_part_lt hpart
        exact ih (he.part hpart) (by omega)
    have hid : (Json.int e.id).word? = some e.id := Json.word?_int hplace.1
    have hspan : Span.ofJson? e.span.toJson = some e.span := Span.ofJson?_toJson hplace.2
    have hnode : some (Expr.node e.id e.span e.form) = some e := congrArg some (Expr.eta e).symm
    exact bind_of_some hrecord <| bind_of_some hid <| bind_of_some hspan <| bind_of_some hkind hnode

/-- A program is read back if its literals are. -/
theorem ofJson?_toJsonWith (hwords : p.inWords)
    (hliteral : ∀ e v, p.Has e → e.form = .literal v → Literal.ofJson? (literal v) = some v) :
    ofJson? (p.toJsonWith literal) = some p := by
  have hrecord : Json.record? ["stmts"] [] (p.toJsonWith literal) =
      some [.arr (p.stmts.map (Expr.toJsonWith literal))] := Json.record?_obj [_] [] (by simp)
  have hstmts : exprs? Expr.ofJson? (.arr (p.stmts.map (Expr.toJsonWith literal))) = some p.stmts :=
    exprs?_map fun e he => (Has.stmt he).ofJsonWithin?_toJson hwords hliteral (Nat.le_refl _)
  exact bind_of_some hrecord <| bind_of_some hstmts rfl

/-- The JSON form of a program without floats is read as this program. -/
theorem toJson_loses_nothing (hwords : p.inWords) (hfloat : p.hasFloat = false) : ofJson? p.toJson = some p :=
  ofJson?_toJsonWith hwords fun _ _ he hform =>
    Literal.ofJson?_toJson fun x hx => he.not_float hfloat x (hform.trans (congrArg Form.literal hx))

/-- A program that no text gives: its nodes share an identity, and spans end before they start. -/
def foreign : Program where
  stmts := [
    .node 0xffffffff ⟨9, 2⟩ (.define ⟨⟨7, "\"", ⟨1, 0⟩⟩, [⟨7, "", ⟨0, 0xffffffff⟩⟩], [
      .node 7 ⟨5, 5⟩ (.branch (.node 7 ⟨0, 0⟩ (.yield [])) [] (some []))]⟩),
    .node 7 ⟨0, 0⟩ (.call "\n" ⟨3, 1⟩ [.node 7 ⟨0, 0⟩ (.literal (.int Int64.minValue))]
      (some ⟨7, ⟨4, 2⟩, [⟨7, "p", ⟨0, 0⟩⟩], [
        .node 7 ⟨0, 0⟩ (.assign ⟨7, "p", ⟨0, 0⟩⟩ (.node 7 ⟨0, 0⟩ (.literal (.char 'é')))),
        .node 7 ⟨0, 0⟩ (.loop (.node 7 ⟨0, 0⟩ (.literal .nil)) [.node 7 ⟨0, 0⟩ (.var "p")]),
        .node 7 ⟨0, 0⟩ (.branch (.node 7 ⟨0, 0⟩ (.literal (.bool true))) [
          .node 7 ⟨0, 0⟩ (.call "f" ⟨0, 0⟩ [] none)] none)]⟩))]

theorem toJson_loses_nothing_foreign :
    foreign.inWords = true ∧ foreign.hasFloat = false ∧ ofJson? foreign.toJson = some foreign :=
  ⟨by cbv, by cbv, toJson_loses_nothing (by cbv) (by cbv)⟩

end Program

end FlowTyping
