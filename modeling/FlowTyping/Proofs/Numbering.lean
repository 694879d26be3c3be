import FlowTyping.Proofs.Readings
import FlowTyping.Proofs.Tiling

/-!
# How many identities

`Program.ids_numbered`: the identities in a program that was parsed are the numbers from 0 on, each once,
and the text has a byte for each of them.  Statements get theirs in one go (`Program.laid_parse`), and
what a fault leaves unfinished comes after all of them.  For the bytes it is enough to look at the tree:
a node has more room than its children together (`Span.Frames`), so one more identity fits in
(`Expr.Nested.length_ids_le`).
-/

namespace FlowTyping

namespace Expr
variable {source : List Char} {e : Expr}

/-- The identities of some trees, each of which has no more of them than bytes. -/
theorem length_flatMap_ids_le {es : List Expr} (h : ∀ e ∈ es, e.ids.length ≤ e.span.length) :
    (es.flatMap ids).length ≤ ((es.map span).map Span.length).sum := by
  rw [List.length_flatMap, List.map_map]
  exact List.sum_le_sum h

theorem length_params_le {params : List Ident} (h : ∀ s ∈ params.map Ident.span, s.Marks source) :
    params.length ≤ ((params.map Ident.span).map Span.length).sum := by
  have hpos (n : Nat) (hn : n ∈ (params.map Ident.span).map Span.length) : 1 ≤ n := by
    obtain ⟨s, hs, rfl⟩ := List.mem_map.1 hn
    exact Nat.sub_pos_of_lt (h s hs).lt
  simpa using List.card_nsmul_le_sum _ 1 hpos

/-- The identities below a node find room in the spans of its children. -/
theorem length_children_le {form : Form Expr} (hparts : ∀ e ∈ form.parts, e.ids.length ≤ e.span.length)
    (hmarks : ∀ s ∈ form.spans, s.Marks source)
    (hblock : ∀ name nameSpan args b, form = .call name nameSpan args (some b) →
      b.span.Frames source b.spans) :
    form.places.length + (form.parts.flatMap ids).length ≤ (form.spans.map Span.length).sum := by
  cases form with
  | literal value => exact Nat.le_refl _
  | var name => exact Nat.le_refl _
  | assign target value =>
    have htarget : 1 ≤ target.span.length := Nat.sub_pos_of_lt (hmarks _ List.mem_cons_self).lt
    have hvalue := hparts value (List.mem_singleton_self _)
    simp only [Form.places, Form.parts, Form.spans, List.length_singleton, List.flatMap_singleton,
      List.map_cons, List.map_nil, List.sum_cons, List.sum_nil]
    omega
  | call name nameSpan args block =>
    cases block with
    | none =>
      have hargs : (args.flatMap ids).length ≤ _ := length_flatMap_ids_le hparts
      simpa only [Form.places, Form.parts, Form.spans, Option.toList_none, List.map_nil, List.append_nil,
        List.length_nil, Nat.zero_add] using hargs
    | some b =>
      have hframes := hblock _ _ _ _ rfl
      have hparams := length_params_le fun s hs => hframes.1.marks (List.mem_append_left _ hs)
      have hargs := length_flatMap_ids_le fun e he => hparts e (List.mem_append_left _ he)
      have hbody := length_flatMap_ids_le fun e he => hparts e (List.mem_append_right _ he)
      have hsum := hframes.2
      simp only [Block.spans, List.map_append, List.sum_append] at hsum
      simp only [Form.places, Form.parts, Form.spans, Option.toList_some, List.length_cons, List.length_map,
        List.flatMap_append, List.length_append, List.map_append, List.map_cons, List.map_nil,
        List.sum_append, List.sum_cons, List.sum_nil]
      omega
  | yield args =>
    have hargs : (args.flatMap ids).length ≤ _ := length_flatMap_ids_le hparts
    simpa only [Form.places, Form.parts, Form.spans, List.length_nil, Nat.zero_add] using hargs
  | branch cond thenBody elseBody =>
    have hes := length_flatMap_ids_le hparts
    rw [Form.parts_branch] at hes ⊢
    simpa only [Form.places, Form.spans, List.length_nil, Nat.zero_add] using hes
  | loop cond body =>
    have hes : ((cond :: body).flatMap ids).length ≤ _ := length_flatMap_ids_le hparts
    simpa only [Form.places, Form.parts, Form.spans, List.length_nil, Nat.zero_add] using hes
  | define d =>
    have hname : 1 ≤ d.name.span.length := Nat.sub_pos_of_lt (hmarks _ List.mem_cons_self).lt
    have hparams := length_params_le fun s hs =>
      hmarks s (List.mem_cons_of_mem _ (List.mem_append_left _ hs))
    have hbody : (d.body.flatMap ids).length ≤ _ := length_flatMap_ids_le hparts
    simp only [Form.places, Form.parts, Form.spans, List.length_cons, List.length_map, List.map_cons,
      List.map_append, List.sum_cons, List.sum_append]
    omega

/-- A tree has no more identities than its text has bytes. -/
theorem Nested.length_ids_le (h : e.Nested source) : e.ids.length ≤ e.span.length := by
  induction h with
  | @node e framed parts ih =>
    have hchildren := length_children_le ih (fun s hs => framed.children.1.marks hs) framed.block
    have hsum := framed.children.2
    rw [ids_eq, own, List.length_append, List.length_cons, List.length_map]
    omega

end Expr

namespace Program

/-- A text has a byte for each identity. -/
theorem length_ids_parse_le (source : String) :
    (parse source).program.ids.length ≤ byteLength source.toList := by
  obtain ⟨hrow, hnested⟩ := sit_parse source
  calc (parse source).program.ids.length
      ≤ (((parse source).program.stmts.map Expr.span).map Span.length).sum :=
        Expr.length_flatMap_ids_le fun e he => (hnested e he).length_ids_le
    _ = 0 + (((parse source).program.stmts.map Expr.span).map Span.length).sum := (Nat.zero_add _).symm
    _ ≤ byteLength source.toList := hrow.sum_length_le

/-- The identities in what was parsed, all of it or the part before a fault, are a numbering; behind a
whole text the counter stands at its end. -/
theorem ids_perm_range (source : String) : ∃ n ≤ byteLength source.toList,
    (parse source).program.ids.Perm (List.range n) ∧
      ((parse source).setback? = none → (parse source).cursor.nextId = n) := by
  obtain ⟨τ, hlaid, hend⟩ := laid_parse source
  obtain ⟨n, hτ, hperm⟩ := numbers_of_laid hlaid
  rw [← List.range_eq_range'] at hperm
  refine ⟨n, ?_, hperm, fun hnone => ?_⟩
  · calc n = (parse source).program.ids.length := by rw [hperm.length_eq, List.length_range]
      _ ≤ byteLength source.toList := length_ids_parse_le source
  · calc (parse source).cursor.nextId = τ.nextId := congrArg Naming.nextId (hend hnone)
      _ = n := hτ.trans (Nat.zero_add n)

/-- The identities in a program that parses are the numbers from 0 up to the next free one, each once, and
no more than the text has bytes.  Also before a fault none is there twice. -/
theorem ids_numbered (source : String) :
    (∀ p, (parse source).program? = some p → ∃ n ≤ byteLength source.toList,
      p.ids.Perm (List.range n) ∧ (parse source).cursor.nextId = n) ∧
    (parse source).program.ids.Nodup := by
  obtain ⟨n, hn, hperm, hend⟩ := ids_perm_range source
  refine ⟨fun p hp => ⟨n, hn, ?_⟩, hperm.nodup_iff.2 List.nodup_range⟩
  obtain ⟨hnone, hp⟩ := Option.ite_none_right_eq_some.1 hp
  exact ⟨Option.some.inj hp ▸ hperm, hend (Option.isNone_iff_eq_none.1 hnone)⟩

/-- A method with a parameter, an assignment in parentheses and a call with a block. -/
def eleven : Program where
  stmts := [.node 10 ⟨0, 36⟩ (.define ⟨⟨0, "f", ⟨4, 5⟩⟩, [⟨1, "a", ⟨6, 7⟩⟩], [
    .node 4 ⟨9, 16⟩ (.assign ⟨2, "b", ⟨10, 11⟩⟩ (.node 3 ⟨14, 15⟩ (.var "a"))),
    .node 9 ⟨18, 32⟩ (.call "g" ⟨18, 19⟩ [.node 5 ⟨20, 21⟩ (.var "b")]
      (some ⟨8, ⟨23, 32⟩, [⟨6, "c", ⟨26, 27⟩⟩], [.node 7 ⟨29, 30⟩ (.var "c")]⟩))]⟩)]

theorem parse_eleven : (parse "def f(a) (b = a); g(b) { |c| c } end").program? = some eleven := by cbv

/-- Eleven identities, of which the method has the first and the last. -/
theorem eleven_numbered : ∃ n ≤ byteLength "def f(a) (b = a); g(b) { |c| c } end".toList,
    eleven.ids.Perm (List.range n) ∧ (parse "def f(a) (b = a); g(b) { |c| c } end").cursor.nextId = n :=
  (ids_numbered "def f(a) (b = a); g(b) { |c| c } end").1 eleven parse_eleven

end Program

end FlowTyping
