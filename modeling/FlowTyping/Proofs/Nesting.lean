import FlowTyping.Proofs.Declarations
import FlowTyping.Source.Slice

/-!
# Spans of a tree

What it is for the spans of a tree to nest: each marks a piece of the text, and the spans of the
children of a node follow one another inside the node's span (`Expr.WellSpanned`).

A parser that goes forward lays spans in rows (`Span.Row`).  A node frames the row of its children
(`Span.Frames`): besides them it has a token of its own, so it is longer than all of them together, and
none of them is as wide as the node.
-/

namespace FlowTyping

/-! ### Pieces of a text -/

/-- A character of the text ends at byte `n`, or the text begins there. -/
def Boundary (source : List Char) (n : Nat) : Prop :=
  ∃ front back, source = front ++ back ∧ byteLength front = n

namespace Span

/-- A span marks a piece of the text: it is inside the text, on character boundaries, and not empty. -/
def Marks (source : List Char) (s : Span) : Prop :=
  ∃ text, text ≠ [] ∧ s.slice? source = some text

theorem marks_iff {source : List Char} {s : Span} :
    s.Marks source ↔ Boundary source s.start ∧ Boundary source s.stop ∧ s.start < s.stop := by
  constructor
  · rintro ⟨text, hne, hslice⟩
    obtain ⟨before, after, rfl, hbefore, htext, hle⟩ := slice?_eq_some_iff.1 hslice
    have hpos : 0 < byteLength text := by
      obtain ⟨c, cs, rfl⟩ := List.exists_cons_of_ne_nil hne
      have := c.utf8Size_pos
      rw [byteLength_cons]
      omega
    rw [length] at htext
    refine ⟨⟨before, text ++ after, by simp, hbefore⟩, ⟨before ++ text, after, rfl, ?_⟩, by omega⟩
    rw [byteLength_append]
    omega
  · rintro ⟨⟨before, rest, hsource, hbefore⟩, ⟨front, after, hsource', hfront⟩, hlt⟩
    have hsplit : before ++ rest = front ++ after := hsource.symm.trans hsource'
    rcases List.append_eq_append_iff.1 hsplit with ⟨text, hfronts, -⟩ | ⟨text, hbefores, -⟩
    · rw [hfronts, byteLength_append] at hfront
      refine ⟨text, ?_, slice?_eq_some_iff.2 ⟨before, after, by rw [hsource', hfronts], hbefore, ?_, hlt.le⟩⟩
      · rintro rfl
        simp at hfront
        omega
      · rw [length]
        omega
    · rw [hbefores, byteLength_append] at hbefore
      omega

variable {source : List Char} {a b c s outer : Span} {p q r : Nat} {spans spans' : List Span}

theorem Marks.lt (h : s.Marks source) : s.start < s.stop := (marks_iff.1 h).2.2

/-! ### Rows -/

/-- Pieces of the text one behind the other, between the bytes `p` and `q`. -/
def Row (source : List Char) : Nat → List Span → Nat → Prop
  | p, [], q => p ≤ q
  | p, s :: spans, q => p ≤ s.start ∧ s.Marks source ∧ Row source s.stop spans q

namespace Row

theorem le (h : Row source p spans q) : p ≤ q := by
  induction spans generalizing p with
  | nil => exact h
  | cons s spans ih => exact h.1.trans (h.2.1.lt.le.trans (ih h.2.2))

theorem mono {p' q' : Nat} (h : Row source p spans q) (hp : p' ≤ p) (hq : q ≤ q') :
    Row source p' spans q' := by
  induction spans generalizing p p' with
  | nil => exact hp.trans (Nat.le_trans h hq)
  | cons s spans ih => exact ⟨hp.trans h.1, h.2.1, ih h.2.2 le_rfl⟩

theorem append (h : Row source p spans q) (h' : Row source q spans' r) :
    Row source p (spans ++ spans') r := by
  induction spans generalizing p with
  | nil => exact h'.mono h le_rfl
  | cons s spans ih => exact ⟨h.1, h.2.1, ih h.2.2⟩

theorem le_stop (h : Row source p [s] q) : p ≤ s.stop := h.1.trans h.2.1.lt.le

/-- What `merge` gives for a piece and a later one. -/
theorem merge_eq (ha : Row source p [a] q) (hb : Row source q [b] r) : a.merge b = ⟨a.start, b.stop⟩ := by
  have hbehind := ha.2.2.trans hb.1
  rw [Span.merge, Nat.min_eq_left (ha.2.1.lt.le.trans hbehind), Nat.max_eq_right (hbehind.trans hb.2.1.lt.le)]

/-- From one piece to a later one. -/
theorem merge (ha : Row source p [a] q) (hb : Row source q [b] r) : Row source p [a.merge b] r := by
  have hlt := ha.2.1.lt.trans_le (ha.2.2.trans (hb.1.trans hb.2.1.lt.le))
  rw [ha.merge_eq hb]
  exact ⟨ha.1, marks_iff.2 ⟨(marks_iff.1 ha.2.1).1, (marks_iff.1 hb.2.1).2.1, hlt⟩, hb.2.2⟩

/-- A row that is not empty ends where its last piece ends. -/
theorem upto_last (h : Row source p (spans ++ [s]) q) : Row source p (spans ++ [s]) s.stop := by
  induction spans generalizing p with
  | nil => exact ⟨h.1, h.2.1, le_rfl⟩
  | cons s spans ih => exact ⟨h.1, h.2.1, ih h.2.2⟩

theorem marks (h : Row source p spans q) (hs : s ∈ spans) : s.Marks source := by
  induction spans generalizing p with
  | nil => exact absurd hs List.not_mem_nil
  | cons t spans ih =>
    rcases List.mem_cons.1 hs with rfl | hs
    · exact h.2.1
    · exact ih h.2.2 hs

theorem within (h : Row source p spans q) (hs : s ∈ spans) : p ≤ s.start ∧ s.stop ≤ q := by
  induction spans generalizing p with
  | nil => exact absurd hs List.not_mem_nil
  | cons t spans ih =>
    rcases List.mem_cons.1 hs with rfl | hs
    · exact ⟨h.1, le h.2.2⟩
    · obtain ⟨hstart, hstop⟩ := ih h.2.2 hs
      exact ⟨h.1.trans (h.2.1.lt.le.trans hstart), hstop⟩

theorem sublist (h : Row source p spans q) (hsub : spans'.Sublist spans) : Row source p spans' q := by
  induction hsub generalizing p with
  | slnil => exact h
  | cons s _ ih => exact ih (h.2.2.mono (h.1.trans h.2.1.lt.le) le_rfl)
  | cons_cons s _ ih => exact ⟨h.1, h.2.1, ih h.2.2⟩

theorem ordered (h : Row source p spans q) : spans.Pairwise fun a b => a.stop ≤ b.start := by
  induction spans generalizing p with
  | nil => exact .nil
  | cons s spans ih => exact .cons (fun t ht => (within h.2.2 ht).1) (ih h.2.2)

/-- Pieces in a row have room. -/
theorem sum_length_le (h : Row source p spans q) : p + (spans.map length).sum ≤ q := by
  induction spans generalizing p with
  | nil => exact h
  | cons s spans ih =>
    have := ih h.2.2
    have := h.1
    have := h.2.1.lt
    rw [List.map_cons, List.sum_cons, length]
    omega

end Row

/-! ### Children -/

/-- How the children of a node lie in its span: each is a piece of the text inside that span and not all
of it, and they follow one another without an overlap. -/
structure Holds (source : List Char) (outer : Span) (inner : List Span) : Prop where
  marks : ∀ s ∈ inner, s.Marks source
  covers : ∀ s ∈ inner, outer.Covers s ∧ s ≠ outer
  ordered : inner.Pairwise fun a b => a.stop ≤ b.start

/-- The children stand in a row and leave a part of the outer span free. -/
def Frames (source : List Char) (outer : Span) (inner : List Span) : Prop :=
  Row source outer.start inner outer.stop ∧ (inner.map length).sum < outer.length

theorem Frames.holds (h : outer.Frames source spans) : outer.Holds source spans := by
  refine ⟨fun s hs => h.1.marks hs, fun s hs => ⟨h.1.within hs, ?_⟩, h.1.ordered⟩
  rintro rfl
  exact absurd h.2 (Nat.not_lt.2 (List.le_sum_of_mem (List.mem_map_of_mem hs)))

theorem Frames.mono (h : outer.Frames source spans) (hs : s.Covers outer) : s.Frames source spans := by
  refine ⟨h.1.mono hs.1 hs.2, Nat.lt_of_lt_of_le h.2 ?_⟩
  have := hs.1
  have := hs.2
  rw [length, length]
  omega

/-- A row without one of its pieces, such as a keyword or an operator. -/
theorem Row.frames (h : Row source s.start (spans ++ a :: spans') s.stop) :
    s.Frames source (spans ++ spans') := by
  refine ⟨h.sublist (List.Sublist.append_left (List.sublist_cons_self a spans') spans), ?_⟩
  have ha : 0 < a.length := Nat.sub_pos_of_lt (h.marks (List.mem_append_right _ List.mem_cons_self)).lt
  have hroom := h.sum_length_le
  rw [List.map_append, List.sum_append, List.map_cons, List.sum_cons] at hroom
  rw [List.map_append, List.sum_append, length]
  omega

/-- A row behind an opening token. -/
theorem Row.frames_behind (ha : a.Marks source) (hs : s.start = a.start)
    (h : Row source a.stop spans s.stop) : s.Frames source spans :=
  frames (show Row source s.start ([] ++ a :: spans) s.stop from ⟨hs.le, ha, h⟩)

end Span

/-! ### Trees -/

/-- The spans of the children of a block literal, in source order. -/
def Block.spans (b : Block Expr) : List Span := b.params.map Ident.span ++ b.body.map Expr.span

/-- The spans of the children of a node, in source order: its parts, the names that it binds, and the
block literal of a call, which has children of its own. -/
def Form.spans : Form Expr → List Span
  | literal _ => []
  | var _ => []
  | assign target value => [target.span, value.span]
  | call _ _ args block => args.map Expr.span ++ block.toList.map Block.span
  | yield args => args.map Expr.span
  | branch cond thenBody elseBody => (cond :: (thenBody ++ elseBody.getD [])).map Expr.span
  | loop cond body => (cond :: body).map Expr.span
  | define d => d.name.span :: (d.params.map Ident.span ++ d.body.map Expr.span)

/-- The spans of a node nest: its span and those of its children mark pieces of the text, and the
children lie inside it one behind the other.  Of a call, the span of the name is inside as well, and the
block literal holds its parameters and its body in the same way. -/
structure Expr.WellSpanned (source : List Char) (e : Expr) : Prop where
  marks : e.span.Marks source
  children : e.span.Holds source e.form.spans
  name : ∀ name nameSpan args block, e.form = .call name nameSpan args block →
    nameSpan.Marks source ∧ e.span.Covers nameSpan
  block : ∀ name nameSpan args b, e.form = .call name nameSpan args (some b) →
    b.span.Holds source b.spans

/-- What the parser sees to at a node. -/
structure Expr.Framed (source : List Char) (e : Expr) : Prop where
  marks : e.span.Marks source
  children : e.span.Frames source e.form.spans
  name : ∀ name nameSpan args block, e.form = .call name nameSpan args block →
    nameSpan.Marks source ∧ e.span.Covers nameSpan
  block : ∀ name nameSpan args b, e.form = .call name nameSpan args (some b) →
    b.span.Frames source b.spans

/-- All nodes of a tree frame their children. -/
inductive Expr.Nested (source : List Char) : Expr → Prop where
  | node {e : Expr} (framed : e.Framed source) (parts : ∀ part ∈ e.form.parts, Nested source part) :
    Nested source e

namespace Expr
variable {source : List Char} {e : Expr}

theorem Framed.wellSpanned (h : e.Framed source) : e.WellSpanned source :=
  ⟨h.marks, h.children.holds, h.name, fun name nameSpan args b hform =>
    (h.block name nameSpan args b hform).holds⟩

theorem Nested.framed (h : e.Nested source) : e.Framed source := by
  cases h
  assumption

theorem Nested.part {part : Expr} (h : e.Nested source) (hpart : part ∈ e.form.parts) :
    part.Nested source := by
  cases h with
  | node _ parts => exact parts part hpart

/-- In a wider span the children have room as before. -/
theorem Nested.withSpan {s : Span} (h : e.Nested source) (hs : s.Marks source) (hcovers : s.Covers e.span) :
    (e.withSpan s).Nested source := by
  refine .node ⟨hs, h.framed.children.mono hcovers, fun name nameSpan args block hform => ?_, h.framed.block⟩
    fun part hpart => h.part hpart
  obtain ⟨hname, hin⟩ := h.framed.name name nameSpan args block hform
  exact ⟨hname, hcovers.trans hin⟩

end Expr

end FlowTyping
