/-!
# Decimal digits

Natural numbers as rows of decimal digits.  `ofDigits_digits` says that reading gives back what was
written.
-/

namespace FlowTyping.Decimal

/-- The digit of a number below ten. -/
def digit (n : Nat) : Char := Char.ofNat ('0'.toNat + n)

/-- The number that a digit stands for. -/
def digitValue (c : Char) : Nat := c.toNat - '0'.toNat

/-- The decimal digits of a number, without leading zeros. -/
def digits (n : Nat) : List Char :=
  if n < 10 then [digit n] else digits (n / 10) ++ [digit (n % 10)]
termination_by n
decreasing_by omega

/-- The number that a row of decimal digits stands for. -/
def ofDigits (ds : List Char) : Nat := ds.foldl (fun n d => 10 * n + digitValue d) 0

theorem digitValue_digit {n : Nat} (h : n < 10) : digitValue (digit n) = n := by
  have all : ∀ n, n < 10 → digitValue (digit n) = n := by decide
  exact all n h

theorem isDigit_digit {n : Nat} (h : n < 10) : (digit n).isDigit = true := by
  have all : ∀ n, n < 10 → (digit n).isDigit = true := by decide
  exact all n h

theorem ofDigits_append_singleton (ds : List Char) (d : Char) :
    ofDigits (ds ++ [d]) = 10 * ofDigits ds + digitValue d := by
  simp [ofDigits]

/-- Reading the digits of a number gives back the number. -/
theorem ofDigits_digits (n : Nat) : ofDigits (digits n) = n := by
  fun_induction digits n with
  | case1 n h => simp [ofDigits, digitValue_digit h]
  | case2 n h ih =>
    rw [ofDigits_append_singleton, ih, digitValue_digit (Nat.mod_lt _ (by omega))]
    omega

theorem isDigit_of_mem_digits {n : Nat} {c : Char} (h : c ∈ digits n) : c.isDigit = true := by
  fun_induction digits n with
  | case1 n hn =>
    rw [List.mem_singleton] at h
    rw [h, isDigit_digit hn]
  | case2 n hn ih =>
    rcases List.mem_append.1 h with h | h
    · exact ih h
    · rw [List.mem_singleton] at h
      rw [h, isDigit_digit (Nat.mod_lt _ (by omega))]

theorem digits_ne_nil (n : Nat) : digits n ≠ [] := by
  fun_induction digits n <;> simp

/-- The decimal digits of an integer, behind a minus sign if it is negative. -/
def intDigits (i : Int) : List Char :=
  if i < 0 then '-' :: digits i.natAbs else digits i.natAbs

end FlowTyping.Decimal
