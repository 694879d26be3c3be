import FlowTyping.Source.Lines

/-!
# Slices of a text

The characters between two byte offsets of a text.  There is such a slice exactly if both offsets
lie between characters of the text, in order (`Span.slice?_eq_some_iff`).
-/

namespace FlowTyping

/-- Cuts a text in two behind its first `n` bytes, if a character ends there. -/
def splitAtByte? : Nat → List Char → Option (List Char × List Char)
  | 0, cs => some ([], cs)
  | _ + 1, [] => none
  | n + 1, c :: cs =>
    if c.utf8Size ≤ n + 1 then
      (splitAtByte? (n + 1 - c.utf8Size) cs).map fun (front, back) => (c :: front, back)
    else none

theorem splitAtByte?_eq_some_iff {n : Nat} {cs front back : List Char} :
    splitAtByte? n cs = some (front, back) ↔ cs = front ++ back ∧ byteLength front = n := by
  fun_induction splitAtByte? n cs generalizing front back with
  | case1 cs =>
    constructor
    · rintro h
      obtain ⟨rfl, rfl⟩ : [] = front ∧ cs = back := by simpa using h
      simp
    · rintro ⟨rfl, h⟩
      cases front with
      | nil => rfl
      | cons c front =>
        have := c.utf8Size_pos
        simp at h
        omega
  | case2 n =>
    constructor
    · simp
    · rintro ⟨h, hn⟩
      obtain ⟨rfl, -⟩ := List.nil_eq_append_iff.mp h
      simp at hn
  | case3 n c cs hc ih =>
    simp only [Option.map_eq_some_iff, Prod.exists, Prod.mk.injEq, ih]
    constructor
    · rintro ⟨front, _, ⟨rfl, h⟩, rfl, rfl⟩
      simp
      omega
    · rintro ⟨h, hn⟩
      cases front with
      | nil => simp at hn
      | cons d front =>
        obtain ⟨rfl, rfl⟩ : c = d ∧ cs = front ++ back := by simpa using h
        refine ⟨front, back, ⟨rfl, ?_⟩, rfl, rfl⟩
        simp at hn
        omega
  | case4 n c cs hc =>
    constructor
    · simp
    · rintro ⟨h, hn⟩
      cases front with
      | nil => simp at hn
      | cons d front =>
        obtain ⟨rfl, rfl⟩ : c = d ∧ cs = front ++ back := by simpa using h
        simp at hn
        omega

/-- The characters of a text that a span covers. -/
def Span.slice? (s : Span) (source : List Char) : Option (List Char) := do
  let (_, rest) ← splitAtByte? s.start source
  if s.start ≤ s.stop then
    let (inside, _) ← splitAtByte? (s.stop - s.start) rest
    return inside
  else none

theorem Span.slice?_eq_some_iff {s : Span} {source inside : List Char} :
    s.slice? source = some inside ↔
      ∃ before after, source = before ++ inside ++ after ∧ byteLength before = s.start ∧
        byteLength inside = s.length ∧ s.start ≤ s.stop := by
  constructor
  · intro h
    simp only [slice?, Option.bind_eq_bind, Option.bind_eq_some_iff, Prod.exists] at h
    obtain ⟨before, rest, h₁, h₂⟩ := h
    split at h₂
    next hs =>
      simp only [Option.bind_eq_some_iff, Prod.exists, Option.pure_def, Option.some.injEq] at h₂
      obtain ⟨_, after, h₃, rfl⟩ := h₂
      obtain ⟨rfl, hb⟩ := splitAtByte?_eq_some_iff.mp h₁
      obtain ⟨rfl, hi⟩ := splitAtByte?_eq_some_iff.mp h₃
      exact ⟨before, after, by simp, hb, hi, hs⟩
    next => simp at h₂
  · rintro ⟨before, after, rfl, hb, hi, hs⟩
    have h₁ : splitAtByte? s.start (before ++ inside ++ after) = some (before, inside ++ after) :=
      splitAtByte?_eq_some_iff.mpr ⟨List.append_assoc before inside after, hb⟩
    have h₂ : splitAtByte? (s.stop - s.start) (inside ++ after) = some (inside, after) :=
      splitAtByte?_eq_some_iff.mpr ⟨rfl, hi⟩
    simp only [slice?, h₁, Option.bind_eq_bind, Option.bind_some, if_pos hs, h₂, Option.pure_def]

end FlowTyping
