import FlowTyping.Json.Print
import FlowTyping.Json.Read

/-!
# Numbers in JSON text

A number that was written is read back piece by piece (`Json.number?_text`): the digits before the point,
those behind it, the exponent.  What a piece is read as is stated with any text behind it that does not
continue it (`Json.Ends`).  An integer of 64 bits is read as itself (`Json.value_intNumeral`), and a finite
floating point number as some floating point number (`Json.value_floatNumeral`), since it is written with
a point or an exponent.
-/

namespace FlowTyping

namespace Decimal

theorem digits_of_lt {n : Nat} (h : n < 10) : digits n = [digit n] := by
  rw [digits, if_pos h]

theorem head?_digits_ne {n : Nat} (h : n ≠ 0) : (digits n).head? ≠ some '0' := by
  fun_induction digits n with
  | case1 n hlt =>
    have all : ∀ n, n < 10 → n ≠ 0 → [digit n].head? ≠ some '0' := by decide
    exact all n hlt h
  | case2 n hlt ih =>
    obtain ⟨d, ds, hds⟩ := List.exists_cons_of_ne_nil (digits_ne_nil (n / 10))
    rw [hds] at ih ⊢
    exact ih (by omega)

end Decimal

namespace Json

/-! ### Numbers -/

/-- Nothing that would continue a number. -/
def Ends (rest : List Char) : Prop := ∀ c ∈ rest.head?, c.isDigit = false ∧ c ≠ '.' ∧ c ≠ 'e' ∧ c ≠ 'E'

section
variable {ds rest : List Char}

theorem digits?_append (hds : ∀ c ∈ ds, c.isDigit = true) (hne : ds ≠ [])
    (hrest : ∀ c ∈ rest.head?, c.isDigit = false) : digits? (ds ++ rest) = some (ds, rest) := by
  have hstop : rest.takeWhile Char.isDigit = [] ∧ rest.dropWhile Char.isDigit = rest := by
    cases rest with
    | nil => exact ⟨rfl, rfl⟩
    | cons c rest => simp [hrest c rfl]
  have htake : (ds ++ rest).takeWhile Char.isDigit = ds := by
    rw [List.takeWhile_append_of_pos hds, hstop.1, List.append_nil]
  have hdrop : (ds ++ rest).dropWhile Char.isDigit = rest := by
    rw [List.dropWhile_append_of_pos hds, hstop.2]
  obtain ⟨d, ds, rfl⟩ := List.exists_cons_of_ne_nil hne
  rw [digits?, htake, hdrop]

/-- What may stand before the point. -/
def IsWhole (ds : List Char) : Prop :=
  ds = ['0'] ∨ ds ≠ [] ∧ (∀ c ∈ ds, c.isDigit = true) ∧ ds.head? ≠ some '0'

theorem IsWhole.head (h : IsWhole ds) : ∃ d tail, ds = d :: tail ∧ d.isDigit = true := by
  rcases h with rfl | ⟨hne, hds, -⟩
  · exact ⟨'0', [], rfl, by decide⟩
  · obtain ⟨d, tail, rfl⟩ := List.exists_cons_of_ne_nil hne
    exact ⟨d, tail, rfl, hds d List.mem_cons_self⟩

theorem whole?_append (hds : IsWhole ds) (hrest : ∀ c ∈ rest.head?, c.isDigit = false) :
    whole? (ds ++ rest) = some (ds, rest) := by
  rcases hds with rfl | ⟨hne, hds, hhead⟩
  · rfl
  · have hdigits := digits?_append hds hne hrest
    obtain ⟨d, ds, rfl⟩ := List.exists_cons_of_ne_nil hne
    unfold whole?
    split
    · next heq =>
      rw [List.cons_append] at heq
      exact absurd (congrArg some (List.cons.inj heq).1) hhead
    · exact hdigits

theorem isWhole_digits (n : Nat) : IsWhole (Decimal.digits n) := by
  by_cases h : n = 0
  · subst h
    exact .inl (by rw [Decimal.digits_of_lt (by omega)]; rfl)
  · exact .inr ⟨Decimal.digits_ne_nil n, fun _ => Decimal.isDigit_of_mem_digits, Decimal.head?_digits_ne h⟩

end

namespace Numeral

/-- The digits behind the point, with the point. -/
def fractionText : Option (List Char) → List Char
  | none => []
  | some ds => '.' :: ds

def exponentText : Option Int → List Char
  | none => []
  | some e => 'e' :: (if e < 0 then '-' else '+') :: Decimal.digits e.natAbs

/-- How a number is written. -/
def text (n : Numeral) : List Char :=
  (if n.negative then ['-'] else []) ++
    (n.whole ++ (fractionText n.fraction? ++ exponentText n.exponent?))

/-- The pieces are digits where digits belong. -/
structure Regular (n : Numeral) : Prop where
  whole : IsWhole n.whole
  fraction : ∀ ds ∈ n.fraction?, ds ≠ [] ∧ ∀ c ∈ ds, c.isDigit = true

end Numeral

section
variable {rest : List Char}

theorem exponent?_append {e : Option Int} (hrest : Ends rest) :
    exponent? (Numeral.exponentText e ++ rest) = some (e, rest) := by
  cases e with
  | none =>
    show exponent? rest = _
    unfold exponent?
    split
    · exact absurd rfl (hrest _ rfl).2.2.1
    · exact absurd rfl (hrest _ rfl).2.2.2
    · rfl
  | some e =>
    have hdigits : digits? (Decimal.digits e.natAbs ++ rest) = some (Decimal.digits e.natAbs, rest) :=
      digits?_append (fun _ => Decimal.isDigit_of_mem_digits) (Decimal.digits_ne_nil e.natAbs)
        fun c hc => (hrest c hc).1
    by_cases h : e < 0
    · have he : -(Decimal.ofDigits (Decimal.digits e.natAbs) : Int) = e := by
        rw [Decimal.ofDigits_digits]
        omega
      simp [Numeral.exponentText, h, exponent?, hdigits, he]
    · have he : (Decimal.ofDigits (Decimal.digits e.natAbs) : Int) = e := by
        rw [Decimal.ofDigits_digits]
        omega
      simp [Numeral.exponentText, h, exponent?, hdigits, he]

theorem head?_exponentText {e : Option Int} (hrest : Ends rest) :
    ∀ c ∈ (Numeral.exponentText e ++ rest).head?, c.isDigit = false ∧ c ≠ '.' := by
  cases e with
  | none => exact fun c hc => ⟨(hrest c hc).1, (hrest c hc).2.1⟩
  | some e => rintro c ⟨⟩; decide

theorem fraction?_append {fraction : Option (List Char)}
    (h : ∀ ds ∈ fraction, ds ≠ [] ∧ ∀ c ∈ ds, c.isDigit = true)
    (hrest : ∀ c ∈ rest.head?, c.isDigit = false ∧ c ≠ '.') :
    fraction? (Numeral.fractionText fraction ++ rest) = some (fraction, rest) := by
  cases fraction with
  | none =>
    show fraction? rest = _
    unfold fraction?
    split
    · exact absurd rfl (hrest _ rfl).2
    · rfl
  | some ds =>
    obtain ⟨hne, hds⟩ := h ds rfl
    have hdigits := digits?_append hds hne fun c hc => (hrest c hc).1
    simp [Numeral.fractionText, fraction?, hdigits]

/-- What stands behind the digits before the point does not continue them. -/
theorem head?_fractionText {fraction : Option (List Char)} {exponent : Option Int} (hrest : Ends rest) :
    ∀ c ∈ (Numeral.fractionText fraction ++ (Numeral.exponentText exponent ++ rest)).head?,
      c.isDigit = false := by
  cases fraction with
  | none => exact fun c hc => (head?_exponentText hrest c hc).1
  | some ds => rintro c ⟨⟩; decide

/-- A number is read as the value of its pieces. -/
theorem number?_text {n : Numeral} (h : n.Regular) (hrest : Ends rest) :
    number? (n.text ++ rest) = some (n.value, rest) := by
  obtain ⟨negative, whole, fraction, exponent⟩ := n
  have hwhole : whole? (whole ++ (Numeral.fractionText fraction ++ (Numeral.exponentText exponent ++ rest))) =
      some (whole, _) := whole?_append h.whole (head?_fractionText hrest)
  have hfraction := fraction?_append h.fraction (head?_exponentText (e := exponent) hrest)
  have hexponent := exponent?_append (e := exponent) hrest
  have hhead : ∃ d tail, whole = d :: tail ∧ d.isDigit = true := IsWhole.head h.whole
  simp only [Numeral.text, List.append_assoc]
  generalize hbody : whole ++ (Numeral.fractionText fraction ++ (Numeral.exponentText exponent ++ rest)) = body
    at hwhole ⊢
  cases negative with
  | true => simp [number?, hwhole, hfraction, hexponent]
  | false =>
    have hsign (cs : List Char) : body ≠ '-' :: cs := by
      obtain ⟨d, tail, rfl, hd⟩ := hhead
      rw [← hbody]
      rintro ⟨⟩
      exact absurd hd (by decide)
    rw [if_neg Bool.false_ne_true, List.nil_append, number?]
    · simp [hwhole, hfraction, hexponent]
    · exact hsign

end

/-- The pieces of an integer. -/
def intNumeral (i : Int) : Numeral := ⟨decide (i < 0), Decimal.digits i.natAbs, none, none⟩

theorem text_intNumeral (i : Int) : (intNumeral i).text = Decimal.intDigits i := by
  unfold Decimal.intDigits
  split
  · next h => simp [Numeral.text, intNumeral, h, Numeral.fractionText, Numeral.exponentText]
  · next h => simp [Numeral.text, intNumeral, h, Numeral.fractionText, Numeral.exponentText]

theorem regular_intNumeral (i : Int) : (intNumeral i).Regular := ⟨isWhole_digits _, nofun⟩

/-- Within 64 bits an integer is read back as it is. -/
theorem value_intNumeral {i : Int} (hlow : -0x8000000000000000 ≤ i) (hhigh : i < 0x10000000000000000) :
    (intNumeral i).value = int i := by
  have hmagnitude : Decimal.ofDigits (Decimal.digits i.natAbs) = i.natAbs := Decimal.ofDigits_digits _
  have hsigned : (if i < 0 then -(i.natAbs : Int) else i.natAbs) = i := by
    split <;> omega
  have hzero : (decide (i < 0) && i.natAbs == 0) = false := Bool.eq_false_iff.2 fun h => by
    rw [Bool.and_eq_true, decide_eq_true_eq, beq_iff_eq] at h
    omega
  simp only [Numeral.value, intNumeral, Option.getD_none, List.append_nil, hmagnitude, decide_eq_true_eq,
    hsigned, hzero]
  exact if_pos ⟨rfl, hlow, hhigh⟩

/-- The decimal digits of a number without the zeros at their end. -/
def significant (n : Nat) : List Char :=
  (Decimal.digits n).take
    ((Decimal.digits n).length - ((Decimal.digits n).reverse.takeWhile (· == '0')).length)

theorem isDigit_of_mem_significant {n : Nat} {c : Char} (h : c ∈ significant n) : c.isDigit = true :=
  Decimal.isDigit_of_mem_digits (List.mem_of_mem_take h)

theorem significant_ne_nil {n : Nat} (h : n ≠ 0) : significant n ≠ [] := by
  obtain ⟨d, ds, hds⟩ := List.exists_cons_of_ne_nil (Decimal.digits_ne_nil n)
  have hd : d ≠ '0' := fun heq => Decimal.head?_digits_ne h (by rw [hds, heq]; rfl)
  -- the first digit is no zero, so the zeros at the end are not all the digits
  have hlt : (((d :: ds).reverse).takeWhile (· == '0')).length < (d :: ds).length := by
    refine Nat.lt_of_le_of_ne ?_ fun heq => hd ?_
    · have hreverse : (d :: ds).reverse.length = (d :: ds).length := List.length_reverse
      rw [← hreverse]
      exact (List.takeWhile_sublist _).length_le
    · have hall : ((d :: ds).reverse).takeWhile (· == '0') = (d :: ds).reverse :=
        (List.takeWhile_prefix _).eq_of_length (by rw [heq, List.length_reverse])
      have hmem : d ∈ ((d :: ds).reverse).takeWhile (· == '0') := by
        rw [hall]
        simp
      exact beq_iff_eq.1 (List.all_eq_true.1 List.all_takeWhile d hmem)
  rw [significant, hds]
  simp only [ne_eq, List.take_eq_nil_iff, List.cons_ne_nil, or_false]
  omega

theorem head?_significant_ne {n : Nat} (h : n ≠ 0) : (significant n).head? ≠ some '0' := by
  rw [significant, List.head?_take]
  split
  · exact nofun
  · exact Decimal.head?_digits_ne h

/-- The pieces of a decimal number. -/
def decimalNumeral (negative : Bool) (d : ShortDecimal) : Numeral :=
  let digits := significant d.digits
  let exponent := d.exponent + ((Decimal.digits d.digits).reverse.takeWhile (· == '0')).length
  let point : Int := digits.length + exponent
  if 0 ≤ exponent ∧ point ≤ 16 then
    ⟨negative, digits ++ List.replicate exponent.toNat '0', some ['0'], none⟩
  else if 0 < point ∧ point ≤ 16 then
    ⟨negative, digits.take point.toNat, some (digits.drop point.toNat), none⟩
  else if -5 < point ∧ point ≤ 0 then
    ⟨negative, ['0'], some (List.replicate (-point).toNat '0' ++ digits), none⟩
  else
    ⟨negative, digits.take 1, if digits.length = 1 then none else some (digits.drop 1), some (point - 1)⟩

theorem exponentText_sub_one (point : Int) : Numeral.exponentText (some (point - 1)) =
    'e' :: (if 0 < point then ['+'] else []) ++ Decimal.intDigits (point - 1) := by
  by_cases h : 0 < point
  · have hnot : ¬ point - 1 < 0 := by omega
    simp [Numeral.exponentText, Decimal.intDigits, h, hnot]
  · have hlt : point - 1 < 0 := by omega
    simp [Numeral.exponentText, Decimal.intDigits, h, hlt]

theorem text_decimalNumeral (negative : Bool) (d : ShortDecimal) :
    (decimalNumeral negative d).text = (if negative then ['-'] else []) ++ decimalText d := by
  have hsignificant : (Decimal.digits d.digits).take ((Decimal.digits d.digits).length -
      ((Decimal.digits d.digits).reverse.takeWhile (· == '0')).length) = significant d.digits := rfl
  unfold decimalNumeral decimalText
  dsimp only
  rw [hsignificant]
  generalize significant d.digits = digits
  split
  · simp [Numeral.text, Numeral.fractionText, Numeral.exponentText]
  split
  · simp [Numeral.text, Numeral.fractionText, Numeral.exponentText]
  split
  · simp [Numeral.text, Numeral.fractionText, Numeral.exponentText]
  · simp only [Numeral.text, exponentText_sub_one]
    by_cases hone : digits.length = 1 <;> simp [hone, Numeral.fractionText]

theorem regular_decimalNumeral (negative : Bool) {d : ShortDecimal} (h : d.digits ≠ 0) :
    (decimalNumeral negative d).Regular := by
  have hne := significant_ne_nil h
  have hhead := head?_significant_ne h
  have hdigit := fun c => isDigit_of_mem_significant (n := d.digits) (c := c)
  have hzero (n : Nat) : ∀ c ∈ List.replicate n '0', c.isDigit = true := fun c hc => by
    rw [(List.mem_replicate.1 hc).2]
    decide
  unfold decimalNumeral
  generalize significant d.digits = digits at *
  dsimp only
  split
  · refine ⟨.inr ⟨by simp [hne], fun c hc => ?_, ?_⟩, ?_⟩
    · exact (List.mem_append.1 hc).elim (hdigit c) (hzero _ c)
    · obtain ⟨d, ds, rfl⟩ := List.exists_cons_of_ne_nil hne
      exact hhead
    · rintro ds ⟨⟩
      exact ⟨List.cons_ne_nil _ _, List.forall_mem_singleton.2 rfl⟩
  have hpos : 0 < digits.length := List.length_pos_iff.2 hne
  split
  · next hwhole hpoint =>
    refine ⟨.inr ⟨?_, fun c hc => hdigit c (List.mem_of_mem_take hc), ?_⟩, ?_⟩
    · simp only [ne_eq, List.take_eq_nil_iff, hne, or_false]
      omega
    · rw [List.head?_take]
      split
      · exact nofun
      · exact hhead
    · rintro ds ⟨⟩
      refine ⟨?_, fun c hc => hdigit c (List.mem_of_mem_drop hc)⟩
      simp only [ne_eq, List.drop_eq_nil_iff]
      omega
  split
  · refine ⟨.inl rfl, ?_⟩
    rintro ds ⟨⟩
    exact ⟨by simp [hne], fun c hc => (List.mem_append.1 hc).elim (hzero _ c) (hdigit c)⟩
  · refine ⟨.inr ⟨?_, fun c hc => hdigit c (List.mem_of_mem_take hc), ?_⟩, ?_⟩
    · simp [hne]
    · rw [List.head?_take]
      exact hhead
    · intro ds hds
      split at hds
      · exact nomatch hds
      · cases hds
        refine ⟨?_, fun c hc => hdigit c (List.mem_of_mem_drop hc)⟩
        simp only [ne_eq, List.drop_eq_nil_iff]
        omega

/-! ### Floating point numbers -/

/-- The shortest decimal number of a positive number is positive. -/
theorem digits_shortest_ne_zero {x : Binary64} (hne : x.bits.toNat ≠ 0) (hlt : x.bits.toNat < Nat.pow 2 63) :
    x.shortest.digits ≠ 0 := by
  have hchoice {m n : Nat} {k : Int} {P Q : Prop} [Decidable P] [Decidable Q] {d : ShortDecimal}
      (h : (if 0 < m ∧ P then some ⟨m, k⟩ else if 0 < n ∧ Q then some ⟨n, k⟩ else none) = some d) :
      d.digits ≠ 0 := by
    split at h
    · next hm => cases h; exact Nat.ne_of_gt hm.1
    split at h
    · next hn => cases h; exact Nat.ne_of_gt hn.1
    · exact nomatch h
  have hparts : x.parts.1 ≠ 0 := by
    unfold Binary64.parts
    simp only [Nat.pow_eq] at hlt ⊢
    split <;> dsimp only <;> omega
  unfold Binary64.shortest
  dsimp only
  cases hfound : (List.range 18).findSome? fun (n : Nat) => x.rounding.pointOn (x.rounding.magnitude - n) with
  | none => exact hparts
  | some d =>
    obtain ⟨_, n, _, -, hd, -⟩ := List.findSome?_eq_some_iff.1 hfound
    exact hchoice hd

/-- The pieces of a floating point number. -/
def floatNumeral (x : Binary64) : Numeral :=
  let magnitude : Binary64 := ⟨x.bits &&& 0x7fffffffffffffff⟩
  if magnitude.bits = 0 then ⟨x.isNegative, ['0'], some ['0'], none⟩
  else decimalNumeral x.isNegative magnitude.shortest

theorem floatText_of_isFinite {x : Binary64} (h : x.isFinite = true) : floatText x = (floatNumeral x).text := by
  unfold floatText floatNumeral
  rw [h]
  dsimp only
  by_cases hzero : x.bits &&& 0x7fffffffffffffff = 0
  · simp [hzero, Numeral.text, Numeral.fractionText, Numeral.exponentText]
  · simp [hzero, text_decimalNumeral]

theorem regular_floatNumeral (x : Binary64) : (floatNumeral x).Regular := by
  unfold floatNumeral
  dsimp only
  split
  · refine ⟨.inl rfl, ?_⟩
    rintro ds ⟨⟩
    exact ⟨List.cons_ne_nil _ _, List.forall_mem_singleton.2 rfl⟩
  · next hzero =>
    refine regular_decimalNumeral _ (digits_shortest_ne_zero ?_ ?_)
    · exact fun h => hzero (UInt64.toNat_inj.1 h)
    · rw [UInt64.toNat_and]
      exact Nat.lt_of_le_of_lt Nat.and_le_right (by decide)

/-- What a number with a point or an exponent is rounded to. -/
def Numeral.rounded (n : Numeral) : Binary64 :=
  let digits := n.whole ++ n.fraction?.getD []
  let x := Binary64.ofDecimal (Decimal.ofDigits digits)
    (n.exponent?.getD 0 - (n.fraction?.getD []).length)
  if n.negative then x.neg else x

theorem Numeral.value_eq_rounded {n : Numeral} (h : n.fraction?.isSome ∨ n.exponent?.isSome) :
    n.value = float n.rounded := by
  have hint : (n.fraction?.isNone && n.exponent?.isNone) = false := by
    rcases h with h | h <;> obtain ⟨_, h⟩ := Option.isSome_iff_exists.1 h <;> simp [h]
  unfold Numeral.value
  simp only [hint, Bool.false_and, Bool.false_eq_true, false_and, if_false]
  rfl

theorem value_floatNumeral (x : Binary64) : (floatNumeral x).value = float (floatNumeral x).rounded := by
  refine Numeral.value_eq_rounded ?_
  unfold floatNumeral decimalNumeral
  dsimp only
  repeat' split
  all_goals simp

end Json
end FlowTyping
