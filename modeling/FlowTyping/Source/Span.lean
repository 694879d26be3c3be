/-!
# Spans

A span is a half-open range of byte offsets into a source text.  Lines and columns are worked out
from offsets only when something is shown (`FlowTyping.Source.Lines`).
-/

namespace FlowTyping

/-- The bytes from `start` up to, and without, `stop`. -/
structure Span where
  start : Nat
  stop : Nat
deriving DecidableEq, Repr, Inhabited

namespace Span

/-- How many bytes a span covers. -/
def length (s : Span) : Nat := s.stop - s.start

/-- An empty span starts where it stops. -/
def isEmpty (s : Span) : Bool := s.start == s.stop

/-- The least span that reaches over both. -/
def merge (a b : Span) : Span := ⟨min a.start b.start, max a.stop b.stop⟩

/-- `outer.Covers inner`: no byte of `inner` lies outside `outer`. -/
def Covers (outer inner : Span) : Prop := outer.start ≤ inner.start ∧ inner.stop ≤ outer.stop

instance (a b : Span) : Decidable (a.Covers b) := inferInstanceAs (Decidable (_ ∧ _))

theorem covers_refl (a : Span) : a.Covers a := ⟨Nat.le_refl _, Nat.le_refl _⟩

theorem Covers.trans {a b c : Span} (hab : a.Covers b) (hbc : b.Covers c) : a.Covers c :=
  ⟨Nat.le_trans hab.1 hbc.1, Nat.le_trans hbc.2 hab.2⟩

theorem merge_covers_left (a b : Span) : (a.merge b).Covers a :=
  ⟨Nat.min_le_left _ _, Nat.le_max_left _ _⟩

theorem merge_covers_right (a b : Span) : (a.merge b).Covers b :=
  ⟨Nat.min_le_right _ _, Nat.le_max_right _ _⟩

end Span

end FlowTyping
