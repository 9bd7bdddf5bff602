import MonkeyLang.Text.Utf8

/-! Lines of bytes. -/

namespace MonkeyLang.Text

/-- The bytes up to the first line feed, and those after it. -/
def cutLine (bytes : List UInt8) : List UInt8 × List UInt8 :=
  (bytes.takeWhile (· != 10), (bytes.dropWhile (· != 10)).drop 1)

/-- At most `n` lines, each without its line feed; `true` marks a line that has one. -/
def linesWithin : Nat → List UInt8 → List (List UInt8 × Bool)
  | 0, _ => []
  | _, [] => []
  | n + 1, bytes =>
    ((cutLine bytes).1, bytes.contains 10) :: linesWithin n (cutLine bytes).2

/-- A line without its end: a line feed, or a carriage return and a line feed. -/
def trimLine (line : List UInt8) (ended : Bool) : List UInt8 :=
  if ended && line.getLast? == some 13 then line.dropLast else line

/-- The lines of some bytes. What follows the last line feed is a line if it is not empty. -/
def lines (bytes : List UInt8) : List (List UInt8) :=
  (linesWithin bytes.length bytes).map fun (line, ended) => trimLine line ended

end MonkeyLang.Text
