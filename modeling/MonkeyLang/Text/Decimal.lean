/-! Decimal numbers. -/

namespace MonkeyLang.Text

def isDecimalDigit (c : Char) : Bool := '0' ≤ c && c ≤ '9'

/-- The number that a run of decimal digits denotes, leading zeros or not. -/
def decimalValue (digits : List Char) : Nat :=
  digits.foldl (fun n c => 10 * n + (c.toNat - '0'.toNat)) 0

theorem decimalValue_toDigits (n : Nat) : decimalValue (Nat.toDigits 10 n) = n :=
  Nat.ofDigitChars_eq_foldl.symm.trans Nat.ofDigitChars_ten_toDigits

theorem isDecimalDigit_of_mem_toDigits (h : c ∈ Nat.toDigits 10 n) : isDecimalDigit c := by
  have hdigit : c.isDigit := Nat.isDigit_of_mem_toDigits (by decide) (by decide) h
  simpa [isDecimalDigit, Char.isDigit, Char.le_def] using hdigit

end MonkeyLang.Text
