import FlowTyping.Proofs.JsonForm
import FlowTyping.Proofs.JsonText

/-!
# Programs through JSON text

What becomes of a program whose JSON form is written and read: `Program.ofJson?_reread`.  Layer by layer
the form is unchanged but for its literals (`Program.reread_toJsonWith`), so that only these decide whether
the program is read back.  For the other direction, each literal of a program that was read was read itself
(`Program.Has.isSome_literal`).
-/

namespace FlowTyping

/-! ### Reading layers -/

namespace Json

theorem keepLast_of_nodup {ms : List (String × Json)} (h : (ms.map Prod.fst).Nodup) : keepLast ms = ms := by
  induction ms with
  | nil => rfl
  | cons m ms ih =>
    obtain ⟨name, j⟩ := m
    rw [List.map_cons, List.nodup_cons] at h
    have hnone : ms.any (·.1 == name) = false :=
      List.any_eq_false.2 fun m hm heq => h.1 (List.mem_map.2 ⟨m, hm, beq_iff_eq.1 heq⟩)
    rw [keepLast, hnone, ih h.2]
    rfl

/-- A record is read back field by field. -/
theorem reread_obj {ms : List (String × Json)} (h : (ms.map Prod.fst).Nodup) :
    (obj ms).reread = obj (ms.map fun m => (m.1, m.2.reread)) := by
  have hkeys : (ms.map fun m => (m.1, m.2.reread)).map Prod.fst = ms.map Prod.fst := by
    rw [List.map_map]
    rfl
  rw [reread, rereadMembers_eq_map, keepLast_of_nodup (hkeys ▸ h)]

theorem reread_arr (items : List Json) : (arr items).reread = arr (items.map reread) := by
  rw [reread, rereadItems_eq_map]

@[simp] theorem reread_str (s : String) : (str s).reread = str s := rfl

/-- Within 64 bits a number is read back as it is. -/
theorem reread_nat {n : Nat} (h : n < 0x10000000000000000) : (int n).reread = int n := by
  have hlow : -0x8000000000000000 ≤ (n : Int) := by omega
  have hhigh : (n : Int) < 0x10000000000000000 := by omega
  rw [reread]
  exact value_intNumeral hlow hhigh

theorem reread_word {n : Nat} (h : n < 0x100000000) : (int n).reread = int n :=
  reread_nat (by omega)

theorem reread_ofOption_str (s? : Option String) : (ofOption str s?).reread = ofOption str s? := by
  cases s? <;> rfl

end Json

theorem Span.reread_toJson {s : Span} (h : s.InWords) : s.toJson.reread = s.toJson := by
  simp [toJson, Json.reread_obj, Json.reread_word h.1, Json.reread_word h.2]

theorem Ident.reread_toJson {i : Ident} (h : i.place.InWords) : i.toJson.reread = i.toJson := by
  have hid : (Json.int i.id).reread = .int i.id := Json.reread_word h.1
  have hspan : i.span.toJson.reread = i.span.toJson := Span.reread_toJson h.2
  simp [toJson, Json.reread_obj, hid, hspan]

theorem Ident.reread_map_toJson {params : List Ident} (h : ∀ place ∈ params.map Ident.place, place.InWords) :
    (params.map Ident.toJson).map Json.reread = params.map Ident.toJson := by
  rw [List.map_map]
  exact List.map_congr_left fun i hi => reread_toJson (h _ (List.mem_map_of_mem hi))

theorem Block.reread_toJson {b : Block Json} (hplace : Place.InWords ⟨b.id, b.span⟩)
    (hparams : ∀ place ∈ b.params.map Ident.place, place.InWords) :
    b.toJson.reread = (b.map Json.reread).toJson := by
  have hid : (Json.int b.id).reread = .int b.id := Json.reread_word hplace.1
  have hspan : b.span.toJson.reread = b.span.toJson := Span.reread_toJson hplace.2
  have hnames := Ident.reread_map_toJson hparams
  simp only [List.map_map] at hnames
  simp [toJson, map, Json.reread_obj, Json.reread_arr, hid, hspan, hnames]

/-- A layer is read back part by part. -/
theorem Form.reread_toJson {form : Form Json} (literal : Literal → Json) (h : form.InWords) :
    (form.toJson literal).reread = (form.map Json.reread).toJson fun v => (literal v).reread := by
  obtain ⟨hplaces, hname⟩ := h
  cases form with
  | literal v => simp [toJson, map, Json.reread_obj]
  | var name => simp [toJson, map, Json.reread_obj]
  | assign target value =>
    have htarget := Ident.reread_toJson (hplaces target.place (List.mem_singleton_self _))
    simp [toJson, map, Json.reread_obj, htarget]
  | call name nameSpan args block =>
    have hspan := Span.reread_toJson (hname nameSpan rfl)
    have hblock : (Json.ofOption Block.toJson block).reread =
        Json.ofOption Block.toJson (block.map (Block.map Json.reread)) := by
      cases block with
      | none => rfl
      | some b =>
        exact Block.reread_toJson (hplaces _ List.mem_cons_self) fun place hp =>
          hplaces place (List.mem_cons_of_mem _ hp)
    simp [toJson, map, Json.reread_obj, Json.reread_arr, hspan, hblock]
  | yield args => simp [toJson, map, Json.reread_obj, Json.reread_arr]
  | branch cond thenBody elseBody =>
    have helse : (Json.ofOption .arr elseBody).reread =
        Json.ofOption .arr (elseBody.map (List.map Json.reread)) := by
      cases elseBody with
      | none => rfl
      | some es => exact Json.reread_arr es
    simp [toJson, map, Json.reread_obj, Json.reread_arr, helse]
  | loop cond body => simp [toJson, map, Json.reread_obj, Json.reread_arr]
  | define d =>
    have hname := Ident.reread_toJson (hplaces _ List.mem_cons_self)
    have hparams := Ident.reread_map_toJson fun place hp => hplaces place (List.mem_cons_of_mem _ hp)
    simp only [List.map_map] at hparams
    simp [toJson, map, Definition.map, Json.reread_obj, Json.reread_arr, hname, hparams]

/-- An expression is read back as it is, but for its literals. -/
theorem Expr.reread_toJsonWith {literal : Literal → Json} {e : Expr} (h : e.inWords = true) :
    (e.toJsonWith literal).reread = e.toJsonWith fun v => (literal v).reread := by
  induction e using induction with
  | step id span form ih =>
    rw [inWords_eq, Bool.and_eq_true] at h
    obtain ⟨hplace, hform⟩ := of_decide_eq_true h.1
    have hid : (Json.int id).reread = .int id := Json.reread_word hplace.1
    have hspan : span.toJson.reread = span.toJson := Span.reread_toJson hplace.2
    have hkind := Form.reread_toJson literal ((Form.inWords_map (toJsonWith literal) form).2 hform)
    have hparts : (form.map (toJsonWith literal)).map Json.reread =
        form.map (toJsonWith fun v => (literal v).reread) := by
      rw [Form.map_map]
      exact Form.map_congr fun e he => ih e he (List.all_eq_true.1 h.2 e he)
    rw [toJsonWith_eq, toJsonWith_eq, Json.reread_obj (by simp)]
    simp [hid, hspan, hkind, hparts]

theorem Program.reread_toJsonWith {literal : Literal → Json} {p : Program} (h : p.inWords = true) :
    (p.toJsonWith literal).reread = p.toJsonWith fun v => (literal v).reread := by
  have hstmts : (p.stmts.map (Expr.toJsonWith literal)).map Json.reread =
      p.stmts.map (Expr.toJsonWith fun v => (literal v).reread) := by
    rw [List.map_map]
    exact List.map_congr_left fun e he => Expr.reread_toJsonWith (List.all_eq_true.1 h e he)
  rw [toJsonWith, Json.reread_obj (by simp)]
  simp only [List.map_cons, List.map_nil, Json.reread_arr, hstmts]
  rfl

/-! ### What is rejected -/

section
variable {literal : Literal → Json} {write : Expr → Json} {read : Json → Option Expr}

theorem isSome_of_exprs? {es es' : List Expr} (h : exprs? read (.arr (es.map write)) = some es') :
    ∀ e ∈ es, (read (write e)).isSome := by
  have hread : (es.map write).mapM read = some es' := h
  clear h
  induction es generalizing es' with
  | nil => exact nofun
  | cons e es ih =>
    rw [List.map_cons, List.mapM_cons] at hread
    obtain ⟨_, he, hread⟩ := Option.bind_eq_some_iff.1 hread
    obtain ⟨_, hes, -⟩ := Option.bind_eq_some_iff.1 hread
    exact List.forall_mem_cons.2 ⟨he ▸ rfl, ih hes⟩

/-- What is made of a record is made of its fields. -/
theorem Json.of_bind_record? (required optional : List (String × Json))
    (hkeys : ((required ++ optional).map Prod.fst).Nodup) {f : List Json → Option β} {b : β}
    (h : (record? (required.map Prod.fst) (optional.map Prod.fst) (obj (required ++ optional)) >>= f) = some b) :
    f (required.map Prod.snd ++ optional.map Prod.snd) = some b := by
  rw [record?_obj required optional hkeys] at h
  exact h

theorem Block.isSome_of_ofJson? {b b' : Block Expr} (h : ofJson? read (b.map write).toJson = some b') :
    ∀ e ∈ b.body, (read (write e)).isSome := by
  have hfields := Json.of_bind_record? [_, _, _, _] [] (by simp) h
  obtain ⟨_, -, hrest⟩ := Option.bind_eq_some_iff.1 hfields
  obtain ⟨_, -, hrest⟩ := Option.bind_eq_some_iff.1 hrest
  obtain ⟨_, -, hrest⟩ := Option.bind_eq_some_iff.1 hrest
  obtain ⟨_, hbody, -⟩ := Option.bind_eq_some_iff.1 hrest
  exact isSome_of_exprs? hbody

theorem Block.isSome_of_option? {block : Option (Block Expr)} {block' : Option (Block Expr)}
    (h : (Json.ofOption Block.toJson (block.map (Block.map write))).option? (Block.ofJson? read) =
      some block') : ∀ b ∈ block, ∀ e ∈ b.body, (read (write e)).isSome := by
  rintro b ⟨⟩
  have hread : (Block.ofJson? read (b.map write).toJson).map some = some block' := h
  obtain ⟨_, hb, -⟩ := Option.map_eq_some_iff.1 hread
  exact isSome_of_ofJson? hb

theorem isSome_of_option? {elseBody : Option (List Expr)} {elseBody' : Option (List Expr)}
    (h : (Json.ofOption .arr (elseBody.map (List.map write))).option? (exprs? read) = some elseBody') :
    ∀ es ∈ elseBody, ∀ e ∈ es, (read (write e)).isSome := by
  rintro es ⟨⟩
  have hread : (exprs? read (.arr (es.map write))).map some = some elseBody' := h
  obtain ⟨_, hes, -⟩ := Option.map_eq_some_iff.1 hread
  exact isSome_of_exprs? hes

/-- If a layer is read then so are its parts. -/
theorem Form.isSome_parts {form form' : Form Expr}
    (h : ofJson? read ((form.map write).toJson literal) = some form') :
    ∀ e ∈ form.parts, (read (write e)).isSome := by
  cases form with
  | literal v => exact nofun
  | var name => exact nofun
  | assign target value =>
    have hfields := Json.of_bind_record? [_, _] [] (by simp) h
    obtain ⟨_, -, hrest⟩ := Option.bind_eq_some_iff.1 hfields
    obtain ⟨_, hvalue, -⟩ := Option.bind_eq_some_iff.1 hrest
    have hvalue : read (write value) = some _ := hvalue
    exact List.forall_mem_singleton.2 (hvalue ▸ rfl)
  | call name nameSpan args block =>
    have hfields := Json.of_bind_record? [_, _, _] [_] (by simp) h
    obtain ⟨_, -, hrest⟩ := Option.bind_eq_some_iff.1 hfields
    obtain ⟨_, -, hrest⟩ := Option.bind_eq_some_iff.1 hrest
    obtain ⟨_, hargs, hrest⟩ := Option.bind_eq_some_iff.1 hrest
    obtain ⟨_, hblock, -⟩ := Option.bind_eq_some_iff.1 hrest
    have hargs := isSome_of_exprs? hargs
    have hblock := Block.isSome_of_option? hblock
    cases block with
    | none => exact hargs
    | some b => exact List.forall_mem_append.2 ⟨hargs, hblock b rfl⟩
  | yield args =>
    have hfields := Json.of_bind_record? [_] [] (by simp) h
    obtain ⟨_, hargs, -⟩ := Option.bind_eq_some_iff.1 hfields
    exact isSome_of_exprs? hargs
  | branch cond thenBody elseBody =>
    have hfields := Json.of_bind_record? [_, _] [_] (by simp) h
    obtain ⟨_, hcond, hrest⟩ := Option.bind_eq_some_iff.1 hfields
    obtain ⟨_, hthen, hrest⟩ := Option.bind_eq_some_iff.1 hrest
    obtain ⟨_, helse, -⟩ := Option.bind_eq_some_iff.1 hrest
    have hcond : read (write cond) = some _ := hcond
    have hthen := isSome_of_exprs? hthen
    have helse := isSome_of_option? helse
    cases elseBody with
    | none => exact List.forall_mem_cons.2 ⟨hcond ▸ rfl, hthen⟩
    | some es => exact List.forall_mem_cons.2 ⟨hcond ▸ rfl, List.forall_mem_append.2 ⟨hthen, helse es rfl⟩⟩
  | loop cond body =>
    have hfields := Json.of_bind_record? [_, _] [] (by simp) h
    obtain ⟨_, hcond, hrest⟩ := Option.bind_eq_some_iff.1 hfields
    obtain ⟨_, hbody, -⟩ := Option.bind_eq_some_iff.1 hrest
    have hcond : read (write cond) = some _ := hcond
    exact List.forall_mem_cons.2 ⟨hcond ▸ rfl, isSome_of_exprs? hbody⟩
  | define d =>
    have hread : (Definition.ofJson? read (.obj [("name", d.name.toJson),
        ("params", .arr (d.params.map Ident.toJson)), ("body", .arr (d.body.map write))])).map define =
        some form' := h
    obtain ⟨_, hd, -⟩ := Option.map_eq_some_iff.1 hread
    have hfields := Json.of_bind_record? [_, _, _] [] (by simp) hd
    obtain ⟨_, -, hrest⟩ := Option.bind_eq_some_iff.1 hfields
    obtain ⟨_, -, hrest⟩ := Option.bind_eq_some_iff.1 hrest
    obtain ⟨_, hbody, -⟩ := Option.bind_eq_some_iff.1 hrest
    exact isSome_of_exprs? hbody

end

section
variable {literal : Literal → Json} {fuel : Nat}

/-- If an expression is read then so are its literal and its parts. -/
theorem Expr.isSome_inside {e : Expr} (h : (ofJsonWithin? fuel (e.toJsonWith literal)).isSome) :
    (∀ v, e.form = .literal v → (Literal.ofJson? (literal v)).isSome) ∧
      ∀ part ∈ e.form.parts, (ofJsonWithin? (fuel - 1) (part.toJsonWith literal)).isSome := by
  cases fuel with
  | zero => exact nomatch h
  | succ fuel =>
    obtain ⟨e', h⟩ := Option.isSome_iff_exists.1 h
    rw [toJsonWith_eq] at h
    have hfields := Json.of_bind_record? [_, _, _] [] (by simp) h
    obtain ⟨_, -, hrest⟩ := Option.bind_eq_some_iff.1 hfields
    obtain ⟨_, -, hrest⟩ := Option.bind_eq_some_iff.1 hrest
    obtain ⟨form', hform, -⟩ := Option.bind_eq_some_iff.1 hrest
    refine ⟨fun v hv => ?_, Form.isSome_parts hform⟩
    rw [hv] at hform
    have hliteral : (Literal.ofJson? (literal v)).map Form.literal = some form' := hform
    rw [← Option.isSome_map (f := Form.literal (α := Expr)), hliteral]
    rfl

/-- In a program that is read every literal is. -/
theorem Program.Has.isSome_literal {p : Program} {e : Expr} (he : p.Has e)
    (h : (ofJson? (p.toJsonWith literal)).isSome) {v : Literal} (hv : e.form = .literal v) :
    (Literal.ofJson? (literal v)).isSome := by
  have hread : ∃ fuel, (Expr.ofJsonWithin? fuel (e.toJsonWith literal)).isSome := by
    clear hv
    induction he with
    | stmt hstmt =>
      obtain ⟨q, hq⟩ := Option.isSome_iff_exists.1 h
      have hfields := Json.of_bind_record? [_] [] (by simp) hq
      obtain ⟨_, hstmts, -⟩ := Option.bind_eq_some_iff.1 hfields
      exact ⟨_, isSome_of_exprs? hstmts _ hstmt⟩
    | part _ hpart ih =>
      obtain ⟨fuel, hfuel⟩ := ih
      exact ⟨fuel - 1, (Expr.isSome_inside hfuel).2 _ hpart⟩
  obtain ⟨fuel, hfuel⟩ := hread
  exact (Expr.isSome_inside hfuel).1 v hv

end

/-! ### Literals -/

namespace Literal

/-- Whether JSON has a number for a literal, if it is one: not for a float that is not finite. -/
def isFinite : Literal → Bool
  | float x => x.isFinite
  | _ => true

/-- What a literal is read back as.  A float may be rounded. -/
def reread : Literal → Literal
  | float x => float (Json.floatNumeral x).rounded
  | v => v

theorem type_reread (v : Literal) : v.reread.type = v.type := by
  cases v <;> rfl

theorem toJson_reread {v : Literal} (h : v.isFinite = true) : v.toJson.reread = v.reread.toJson := by
  cases v with
  | int i =>
    have hlow := i.le_toInt
    have hhigh := i.toInt_lt
    have hint : (Json.int i.toInt).reread = .int i.toInt := by
      rw [Json.reread]
      exact Json.value_intNumeral (by omega) (by omega)
    simp [toJson, reread, Json.reread_obj, hint]
  | float x =>
    have hfloat : (Json.float x).reread = .float (Json.floatNumeral x).rounded := by
      rw [Json.reread]
      exact if_pos h
    simp [toJson, reread, Json.reread_obj, hfloat]
  | char c => simp [toJson, reread, Json.reread_obj]
  | str s => simp [toJson, reread, Json.reread_obj]
  | bool b => simp [toJson, reread, Json.reread_obj, Json.reread]
  | nil => rfl

/-- A float that is not finite is written as `null`, and that is no literal. -/
theorem ofJson?_reread_of_not {v : Literal} (h : ¬ v.isFinite = true) : ofJson? v.toJson.reread = none := by
  cases v with
  | float x =>
    have hfloat : (Json.float x).reread = .null := by
      rw [Json.reread]
      exact if_neg h
    simp [toJson, Json.reread_obj, hfloat, ofJson?]
  | _ => exact absurd rfl h

end Literal

/-! ### Other literals -/

/-- The layer with another literal, if it is one. -/
def Form.mapLiteral (f : Literal → Literal) : Form α → Form α
  | .literal v => .literal (f v)
  | form => form

/-- The expression with other literals. -/
def Expr.mapLiterals (f : Literal → Literal) : Expr → Expr :=
  fold fun id span form => node id span (form.mapLiteral f)

/-- The program with other literals. -/
def Program.mapLiterals (f : Literal → Literal) (p : Program) : Program := ⟨p.stmts.map (Expr.mapLiterals f)⟩

section
variable {f : Literal → Literal} {literal : Literal → Json} {e : Expr} {p : Program}

theorem Expr.mapLiterals_eq (e : Expr) :
    e.mapLiterals f = node e.id e.span ((e.form.map (mapLiterals f)).mapLiteral f) := by
  conv => lhs; rw [eta e, mapLiterals, fold_node]
  rfl

theorem Form.toJson_mapLiteral (form : Form Json) :
    (form.mapLiteral f).toJson literal = form.toJson (literal ∘ f) := by
  cases form <;> rfl

theorem Form.map_mapLiteral (g : α → β) (form : Form α) :
    (form.mapLiteral f).map g = (form.map g).mapLiteral f := by
  cases form <;> rfl

theorem Expr.toJsonWith_mapLiterals (e : Expr) :
    (e.mapLiterals f).toJsonWith literal = e.toJsonWith (literal ∘ f) := by
  induction e using induction with
  | step id span form ih =>
    have hform : (((form.map (mapLiterals f)).mapLiteral f).map (toJsonWith literal)).toJson literal =
        (form.map (toJsonWith (literal ∘ f))).toJson (literal ∘ f) := by
      rw [Form.map_mapLiteral, Form.toJson_mapLiteral, Form.map_map]
      exact congrArg _ (Form.map_congr ih)
    rw [mapLiterals_eq, toJsonWith_eq, toJsonWith_eq]
    simp only [id_node, span_node, form_node, hform]

theorem Program.toJsonWith_mapLiterals (p : Program) :
    (p.mapLiterals f).toJsonWith literal = p.toJsonWith (literal ∘ f) := by
  have hstmts : (p.stmts.map (Expr.mapLiterals f)).map (Expr.toJsonWith literal) =
      p.stmts.map (Expr.toJsonWith (literal ∘ f)) := by
    rw [List.map_map]
    exact List.map_congr_left fun e _ => e.toJsonWith_mapLiterals
  rw [toJsonWith, toJsonWith, mapLiterals, hstmts]

theorem Expr.inWords_mapLiterals (e : Expr) : (e.mapLiterals f).inWords = e.inWords := by
  induction e using induction with
  | step id span form ih =>
    have hform (g : Form Expr) : (g.mapLiteral f).InWords ↔ g.InWords := by cases g <;> exact Iff.rfl
    have hparts (g : Form Expr) : (g.mapLiteral f).parts = g.parts := by cases g <;> rfl
    rw [mapLiterals_eq, inWords_eq, inWords_eq]
    simp only [id_node, span_node, form_node, hform, hparts, Form.inWords_map, Form.parts_map, List.all_map]
    refine congrArg (_ && ·) (Bool.eq_iff_iff.2 ?_)
    rw [List.all_eq_true, List.all_eq_true]
    exact forall₂_congr fun part hpart => Bool.eq_iff_iff.1 (ih part hpart)

theorem Program.inWords_mapLiterals (p : Program) : (p.mapLiterals f).inWords = p.inWords := by
  rw [inWords, mapLiterals, List.all_map]
  exact congrArg p.stmts.all (funext fun e => e.inWords_mapLiterals)

theorem Form.toJson_congr {literal' : Literal → Json} {form : Form Json}
    (h : ∀ v, form = .literal v → literal v = literal' v) : form.toJson literal = form.toJson literal' := by
  cases form with
  | literal v => rw [toJson, toJson, h v rfl]
  | _ => rfl

/-- How the literals are written is all that how to write literals matters to. -/
theorem Program.toJsonWith_congr {literal' : Literal → Json}
    (h : ∀ e v, p.Has e → e.form = .literal v → literal v = literal' v) :
    p.toJsonWith literal = p.toJsonWith literal' := by
  have hexpr (e : Expr) (he : p.Has e) : e.toJsonWith literal = e.toJsonWith literal' := by
    induction e using Expr.induction with
    | step id span form ih =>
      have hparts : form.map (Expr.toJsonWith literal) = form.map (Expr.toJsonWith literal') :=
        Form.map_congr fun part hpart => ih part hpart (he.part hpart)
      have hliteral (v : Literal) (hv : form.map (Expr.toJsonWith literal') = .literal v) :
          literal v = literal' v := by
        refine h _ v he ?_
        cases form <;> cases hv
        rfl
      rw [Expr.toJsonWith_eq, Expr.toJsonWith_eq]
      simp only [Expr.id_node, Expr.span_node, Expr.form_node, hparts, Form.toJson_congr hliteral]
  rw [toJsonWith, toJsonWith, List.map_congr_left fun e he => hexpr e (.stmt he)]

end

/-! ### All literals -/

/-- The layer is no literal, or one with a property. -/
def Form.allLiterals (P : Literal → Bool) : Form α → Bool
  | .literal v => P v
  | _ => true

/-- Whether all literals of an expression have a property. -/
def Expr.allLiterals (P : Literal → Bool) : Expr → Bool :=
  fold fun _ _ form => form.allLiterals P && form.parts.all (·)

/-- Whether all literals of a program have a property. -/
def Program.allLiterals (P : Literal → Bool) (p : Program) : Bool := p.stmts.all (Expr.allLiterals P)

section
variable {P : Literal → Bool} {p : Program}

theorem Form.allLiterals_iff {form : Form α} :
    form.allLiterals P = true ↔ ∀ v, form = .literal v → P v = true := by
  cases form <;> simp [allLiterals]

theorem Expr.allLiterals_eq (e : Expr) :
    e.allLiterals P = (e.form.allLiterals P && e.form.parts.all (allLiterals P)) := by
  have hmap : (e.form.map (allLiterals P)).allLiterals P = e.form.allLiterals P := by
    cases e.form <;> rfl
  conv => lhs; rw [eta e, allLiterals, fold_node]
  rw [Form.parts_map, List.all_map]
  exact congrArg (· && _) hmap

theorem Program.allLiterals_iff :
    p.allLiterals P = true ↔ ∀ e v, p.Has e → e.form = .literal v → P v = true := by
  constructor
  · intro h e v he
    have hexpr : e.allLiterals P = true := by
      induction he with
      | stmt he => exact List.all_eq_true.1 h _ he
      | part _ hpart ih =>
        rw [Expr.allLiterals_eq, Bool.and_eq_true] at ih
        exact List.all_eq_true.1 ih.2 _ hpart
    rw [Expr.allLiterals_eq, Bool.and_eq_true] at hexpr
    exact Form.allLiterals_iff.1 hexpr.1 v
  · intro h
    have hexpr (e : Expr) (he : p.Has e) : e.allLiterals P = true := by
      induction e using Expr.induction with
      | step id span form ih =>
        rw [Expr.allLiterals_eq, Bool.and_eq_true]
        exact ⟨Form.allLiterals_iff.2 fun v hv => h _ v he hv,
          List.all_eq_true.2 fun part hpart => ih part hpart (he.part hpart)⟩
    exact List.all_eq_true.2 fun e he => hexpr e (.stmt he)

/-- From its text a program is read back if its floats are finite, up to rounding of the floats, and else
it is not read at all. -/
theorem Program.ofJson?_reread (h : p.inWords = true) : ofJson? p.toJson.reread =
    if p.allLiterals Literal.isFinite then some (p.mapLiterals Literal.reread) else none := by
  have htext : p.toJson.reread = p.toJsonWith fun v => v.toJson.reread := reread_toJsonWith h
  by_cases hfinite : p.allLiterals Literal.isFinite = true
  · have hread (v : Literal) : Literal.ofJson? v.toJson = some v := by
      cases v with
      | float x => rfl
      | _ => exact Literal.ofJson?_toJson nofun
    have hwrite : p.toJson.reread = (p.mapLiterals Literal.reread).toJsonWith Literal.toJson := by
      rw [htext, toJsonWith_mapLiterals]
      exact toJsonWith_congr fun e v he hv => Literal.toJson_reread (allLiterals_iff.1 hfinite e v he hv)
    rw [if_pos hfinite, hwrite]
    exact ofJson?_toJsonWith ((p.inWords_mapLiterals).trans h) fun _ v _ _ => hread v
  · rw [if_neg hfinite, htext, Option.eq_none_iff_forall_not_mem]
    intro q hq
    refine hfinite (allLiterals_iff.2 fun e v he hv => ?_)
    by_contra hnot
    have hsome := he.isSome_literal (Option.isSome_iff_exists.2 ⟨q, hq⟩) hv
    rw [Literal.ofJson?_reread_of_not hnot] at hsome
    exact nomatch hsome

end

end FlowTyping
