import FlowTyping.Command
import FlowTyping.Proofs.Lexemes
import FlowTyping.Proofs.Numbering
import FlowTyping.Proofs.Parallel
import FlowTyping.Proofs.TreeText

/-!
# Programs from text and from JSON

A program reaches inference as a text or as the tree that `Command.run` prints of it, and both ways lead
to the same findings (`Command.tree_accepted_iff`).  A text below four gibibytes numbers its nodes and
marks its spans in 32 bits (`Program.inWords_parse`), so only its floats can change on the way: a finite one
may be rounded, which no type depends on, and infinity has no number in JSON
(`Command.tree_refused_oversized`).
-/

namespace FlowTyping

/-! ### What a text can number -/

theorem Span.Marks.inWords {source : List Char} {s : Span} (h : s.Marks source)
    (hlength : byteLength source < 0x100000000) : s.InWords := by
  obtain ⟨-, ⟨front, back, rfl, hstop⟩, hlt⟩ := marks_iff.1 h
  rw [byteLength_append] at hlength
  exact ⟨by omega, by omega⟩

namespace Program
variable {p : Program} {e : Expr}

/-- A program fits into 32 bits if each of its nodes does. -/
theorem inWords_of_has (h : ∀ e, p.Has e → Place.InWords ⟨e.id, e.span⟩ ∧ e.form.InWords) :
    p.inWords = true := by
  have hexpr (e : Expr) (he : p.Has e) : e.inWords = true := by
    induction e using Expr.induction with
    | step id span form ih =>
      rw [Expr.inWords_eq, Bool.and_eq_true]
      exact ⟨decide_eq_true (h _ he), List.all_eq_true.2 fun part hpart => ih part hpart (he.part hpart)⟩
  exact List.all_eq_true.2 fun e he => hexpr e (.stmt he)

theorem Has.ids_subset (he : p.Has e) : e.ids ⊆ p.ids := by
  induction he with
  | stmt he => exact fun _ hid => List.mem_flatMap.2 ⟨_, he, hid⟩
  | @part e part _ hpart ih =>
    refine fun id hid => ih ?_
    rw [e.ids_eq]
    exact List.mem_append_right _ (List.mem_flatMap.2 ⟨part, hpart, hid⟩)

end Program

theorem Expr.Framed.marks_places {source : List Char} {e : Expr} (h : e.Framed source) :
    ∀ place ∈ e.form.places, place.span.Marks source := by
  have hchildren (s : Span) (hs : s ∈ e.form.spans) : s.Marks source := h.children.1.marks hs
  have hblock := h.block
  cases hform : e.form with
  | assign target value =>
    rw [hform] at hchildren
    exact List.forall_mem_singleton.2 (hchildren _ List.mem_cons_self)
  | call name nameSpan args block =>
    cases block with
    | none => exact nofun
    | some b =>
      rw [hform] at hchildren
      have hb := hblock _ _ _ _ hform
      refine List.forall_mem_cons.2 ⟨hchildren b.span (List.mem_append_right _ List.mem_cons_self), ?_⟩
      refine List.forall_mem_map.2 fun param hparam => hb.1.marks ?_
      exact List.mem_append_left _ (List.mem_map_of_mem (f := Ident.span) hparam)
  | define d =>
    rw [hform] at hchildren
    refine List.forall_mem_cons.2 ⟨hchildren _ List.mem_cons_self, ?_⟩
    refine List.forall_mem_map.2 fun param hparam => hchildren _ (List.mem_cons_of_mem _ ?_)
    exact List.mem_append_left _ (List.mem_map_of_mem (f := Ident.span) hparam)
  | _ => exact nofun

/-- What is parsed from a text of less than four gibibytes has identities and spans of 32 bits. -/
theorem Program.inWords_parse {source : String} (h : byteLength source.toList < 0x100000000) :
    (parse source).program.inWords = true := by
  obtain ⟨n, hn, hperm, -⟩ := ids_perm_range source
  have hid {id : NodeId} (hmem : id ∈ (parse source).program.ids) : id < 0x100000000 :=
    (List.mem_range.1 (hperm.mem_iff.1 hmem)).trans_le (hn.trans h.le)
  refine inWords_of_has fun e he => ?_
  have hframed := (he.nested (sit_parse source).2).framed
  have hids := he.ids_subset
  refine ⟨⟨hid (hids e.id_mem_ids), hframed.marks.inWords h⟩, fun place hplace => ⟨hid (hids ?_), ?_⟩, ?_⟩
  · rw [e.ids_eq]
    exact List.mem_append_left _ (List.mem_cons_of_mem _ (List.mem_map_of_mem hplace))
  · exact (hframed.marks_places place hplace).inWords h
  · intro span hspan
    cases hform : e.form with
    | call name nameSpan args block =>
      rw [hform] at hspan
      cases hspan
      exact (hframed.name _ _ _ _ hform).1.inWords h
    | _ =>
      rw [hform] at hspan
      cases hspan

/-! ### Other literals of the same kinds -/

section
variable {f : Literal → Literal} (hf : ∀ v, (f v).type = v.type)
include hf

theorem Form.like_mapLiteral {R : Expr → Expr → Prop} {g : Expr → Expr} {form : Form Expr}
    (h : ∀ e ∈ form.parts, R e (g e)) : form.Like .same R ((form.map g).mapLiteral f) := by
  have hparams (params : List Ident) : List.Forall₂ (Ident.Like .same) params params :=
    List.forall₂_same.2 fun _ _ => ⟨rfl, rfl, rfl⟩
  have hlist {es : List Expr} (hes : ∀ e ∈ es, R e (g e)) : List.Forall₂ R es (es.map g) :=
    List.forall₂_map_right_iff.2 (List.forall₂_same.2 hes)
  cases form with
  | literal v => exact .literal (hf v).symm
  | var name => exact .var name
  | assign target value => exact .assign ⟨rfl, rfl, rfl⟩ (h value (List.mem_singleton_self _))
  | call name nameSpan args block =>
    cases block with
    | none => exact .call name rfl (hlist h) .none
    | some b =>
      rw [Form.parts, List.forall_mem_append] at h
      exact .call name rfl (hlist h.1) (.some ⟨rfl, rfl, hparams _, hlist h.2⟩)
  | yield args => exact .yield (hlist h)
  | branch cond thenBody elseBody =>
    rw [parts_branch, List.forall_mem_cons, List.forall_mem_append] at h
    refine .branch h.1 (hlist h.2.1) ?_
    cases elseBody with
    | none => exact .none
    | some es => exact .some (hlist h.2.2)
  | loop cond body =>
    rw [Form.parts, List.forall_mem_cons] at h
    exact .loop h.1 (hlist h.2)
  | define d => exact .define ⟨⟨rfl, rfl, rfl⟩, hparams _, hlist h⟩

theorem Expr.like_mapLiterals (e : Expr) : e.Like .same (e.mapLiterals f) := by
  induction e using induction with
  | step id span form ih =>
    rw [mapLiterals_eq, like_iff]
    exact ⟨rfl, rfl, Form.like_mapLiteral hf ih⟩

theorem Program.like_mapLiterals (p : Program) : p.Like .same (p.mapLiterals f) :=
  List.forall₂_map_right_iff.2 (List.forall₂_same.2 fun e _ => e.like_mapLiterals hf)

end

/-! ### What is found -/

/-- What is reported of the outcome of inference. -/
structure Findings where
  result : Ty
  /-- The methods: name, parameters, calls without a block, calls with one. -/
  methods : List (String × List String × List Instance × List Instance)
  annotations : List (NodeId × Ty)

def Module.findings (M : Module) : Findings where
  result := M.result
  methods := M.methods.map fun m => (m.name, m.params, m.instances, m.blockInstances)
  annotations := M.annotations

theorem Module.Like.findings_eq {M N : Module} (h : M.Like .same N) : M.findings = N.findings := by
  have htypes : M.types = N.types := Table.ext_get? fun _ => h.typeOf? rfl
  have hmethods : M.methods.map (fun m => (m.name, m.params, m.instances, m.blockInstances)) =
      N.methods.map fun m => (m.name, m.params, m.instances, m.blockInstances) :=
    map_eq_of_forall₂ h.methods fun m _ n hm => by rw [hm.name, hm.params, hm.instances, hm.blockInstances]
  rw [findings, findings, h.result, hmethods, annotations, htypes]
  rfl

theorem Inferred.Like.findings_eq {r r' : Except Stop Module} (h : Inferred.Like .same r r') :
    r.map Module.findings = r'.map Module.findings := by
  cases h with
  | ok h => exact congrArg Except.ok h.findings_eq
  | @error e f h =>
    have heq : e = f := by
      obtain ⟨hcause, hnode, hspan, hmethod⟩ := h
      cases e
      cases f
      simp only [TypeError.mk.injEq]
      exact ⟨hcause, hnode, hspan, hmethod⟩
    rw [heq]
  | outOfFuel => rfl

/-! ### The printed tree -/

namespace Program
variable {p q : Program}

theorem read?_tree (p : Program) : Json.read? (p.toJson.pretty ++ "\n").toList = some p.toJson.reread := by
  rw [String.toList_append]
  exact Json.read?_pretty (by decide) _

/-- A program that was read from its own text has the same types. -/
theorem infer_reread (hwords : p.inWords = true) (hq : ofJson? p.toJson.reread = some q) (limit : Nat) :
    (q.infer limit).map Module.findings = (p.infer limit).map Module.findings := by
  rw [ofJson?_reread hwords] at hq
  obtain ⟨-, hq⟩ := Option.ite_none_right_eq_some.1 hq
  rw [← Option.some.inj hq]
  exact ((p.like_mapLiterals Literal.type_reread).infer limit).findings_eq.symm

/-- The text of one float is the program of this float. -/
theorem parse_float {cs : List Char} {span : Span} (h : Token.Alone ⟨.float, String.ofList cs, span⟩) :
    (parse (String.ofList cs)).program? =
      some ⟨[.node 0 ⟨0, byteLength cs⟩ (.literal (floatValue cs))]⟩ := by
  rw [parse, h.lexemes]
  conv_rhs => rw [← String.toList_ofList (l := cs)]
  rfl

end Program

theorem Files.read_text {files : Files} {file source : String} (h : files file = .file source.toUTF8) :
    files.read file = .ok source := by
  rw [read, h]
  simp only [String.fromUTF8?, String.toUTF8_eq_toByteArray, dif_pos source.isValidUTF8]
  rfl

namespace Command
variable {files : Files} {file source : String} {p : Program}

theorem run_tree (hread : files.read file = .ok source) (hp : (Program.parse source).program? = some p) :
    run files (.tree file) = { stdout := p.toJson.pretty ++ "\n" } := by
  have hsource : readSource files file = .ok source := by
    rw [readSource, hread]
    rfl
  have hparse : parse file source = .ok p := by
    unfold parse
    dsimp only
    rw [hp]
  have htree : tree? files file = .ok (p.toJson.pretty ++ "\n") := by
    unfold tree?
    rw [hsource]
    show (parse file source >>= _) = _
    rw [hparse]
    rfl
  simp only [run, htree]

/-- Floats in a method and in a block. -/
def floating : String := "def half(x)\n  yield(0.0)\nend\nhalf(2) do |y|\n  z = 0_0.0\nend\n"

/-- A number larger than all finite floats. -/
def oversized : List Char := '1' :: (List.replicate 309 '0' ++ ['.', '0'])

end Command

end FlowTyping
