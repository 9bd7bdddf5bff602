import MonkeyLang.Text.Decimal

/-! The integers of the language, which have 64 bits, and their decimal text. -/

namespace MonkeyLang

/-- An integer in 64 bits, if it fits. -/
def toInt64? (n : Int) : Option Int64 :=
  if Int64.minValue.toInt ≤ n ∧ n ≤ Int64.maxValue.toInt then some (Int64.ofInt n) else none

/-- Only an integer below `-2 ^ 63` or from `2 ^ 63` on has no form in 64 bits. -/
theorem toInt64?_eq_none_iff :
    toInt64? n = none ↔ ¬(-9223372036854775808 ≤ n ∧ n < 9223372036854775808) := by
  have hmin : Int64.minValue.toInt = -2 ^ 63 := by decide
  have hmax : Int64.maxValue.toInt = 2 ^ 63 - 1 := by decide
  rw [toInt64?, hmin, hmax]
  split <;> simp <;> omega

theorem toInt64?_eq_some_iff : toInt64? n = some m ↔ m.toInt = n := by
  have hmin : Int64.minValue.toInt = -2 ^ 63 := by decide
  have hmax : Int64.maxValue.toInt = 2 ^ 63 - 1 := by decide
  rw [toInt64?, hmin, hmax]
  constructor
  · intro h
    split at h
    · next hn =>
      cases h
      exact Int64.toInt_ofInt_of_le (by omega) (by omega)
    · cases h
  · rintro rfl
    have hle := m.le_toInt
    have hlt := m.toInt_lt
    rw [if_pos (by omega), Int64.ofInt_toInt]

/-- The integer that a literal of decimal digits denotes, if it fits. -/
def integer? (literal : String) : Option Int64 :=
  toInt64? (Text.decimalValue literal.toList)

/-- The decimal text of an integer. -/
def int64Text (n : Int64) : String := toString n.toInt

end MonkeyLang
