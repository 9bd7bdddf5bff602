import MonkeyLang.Json
import MonkeyLang.Text.Decimal

/-! Reading JSON texts. Blanks may stand around every token, a string may escape any character, and
numbers have no fraction or exponent. -/

namespace MonkeyLang.Json.Read

def isBlank (c : Char) : Bool := c == ' ' || c == '\t' || c == '\n' || c == '\r'

def skipBlanks (cs : List Char) : List Char := cs.dropWhile isBlank

/-- The character that a one-letter escape stands for. -/
def unescape? : Char → Option Char
  | '"' => some '"'
  | '\\' => some '\\'
  | '/' => some '/'
  | 'b' => some '\x08'
  | 'f' => some '\x0c'
  | 'n' => some '\n'
  | 'r' => some '\r'
  | 't' => some '\t'
  | _ => none

/-- The number that four hexadecimal digits denote. -/
def hex4? (a b c d : Char) : Option Nat := do
  let a ← Text.hexValue? a
  let b ← Text.hexValue? b
  let c ← Text.hexValue? c
  let d ← Text.hexValue? d
  pure (((a * 16 + b) * 16 + c) * 16 + d)

/-- The character that two surrogates stand for together. -/
def joinSurrogates? (high low : Nat) : Option Char :=
  if 0xD800 ≤ high ∧ high < 0xDC00 ∧ 0xDC00 ≤ low ∧ low < 0xE000 then
    some (Char.ofNat (0x10000 + (high - 0xD800) * 0x400 + (low - 0xDC00)))
  else none

/-- The rest of a string, up to the closing quotation mark, after the characters `acc` in reverse
order. -/
def stringTail (acc : List Char) : List Char → Option (String × List Char)
  | '"' :: cs => some (String.ofList acc.reverse, cs)
  | '\\' :: 'u' :: a :: b :: c :: d :: cs =>
    match hex4? a b c d with
    | none => none
    | some n =>
      if n.isValidChar then stringTail (Char.ofNat n :: acc) cs
      else
        match cs with
        | '\\' :: 'u' :: a' :: b' :: c' :: d' :: cs =>
          match (hex4? a' b' c' d').bind (joinSurrogates? n) with
          | some x => stringTail (x :: acc) cs
          | none => none
        | _ => none
  | '\\' :: c :: cs =>
    match unescape? c with
    | some x => stringTail (x :: acc) cs
    | none => none
  | c :: cs => if c.toNat < 32 then none else stringTail (c :: acc) cs
  | [] => none

/-- A number without a sign, and what follows it. -/
def nat (cs : List Char) : Option (Nat × List Char) :=
  let digits := cs.takeWhile Text.isDecimalDigit
  if digits.isEmpty then none
  else some (Text.decimalValue digits, cs.dropWhile Text.isDecimalDigit)

mutual

/-- A value and what follows it; the budget bounds the nesting and the number of items. -/
def value : Nat → List Char → Option (Json × List Char)
  | 0, _ => none
  | n + 1, cs =>
    match skipBlanks cs with
    | 'n' :: 'u' :: 'l' :: 'l' :: cs => some (.null, cs)
    | 't' :: 'r' :: 'u' :: 'e' :: cs => some (.bool true, cs)
    | 'f' :: 'a' :: 'l' :: 's' :: 'e' :: cs => some (.bool false, cs)
    | '"' :: cs => (stringTail [] cs).map fun (s, cs) => (.string s, cs)
    | '[' :: cs =>
      match skipBlanks cs with
      | ']' :: cs => some (.array [], cs)
      | cs => (items n cs).map fun (xs, cs) => (.array xs, cs)
    | '\x7b' :: cs =>
      match skipBlanks cs with
      | '\x7d' :: cs => some (.object [], cs)
      | cs => (fields n cs).map fun (fs, cs) => (.object fs, cs)
    | '-' :: cs => (nat cs).map fun (n, cs) => (.int (-n), cs)
    | cs => (nat cs).map fun (n, cs) => (.int n, cs)

/-- The items of an array that has some, and its closing bracket. -/
def items : Nat → List Char → Option (List Json × List Char)
  | 0, _ => none
  | n + 1, cs =>
    match value n cs with
    | none => none
    | some (x, cs) =>
      match skipBlanks cs with
      | ']' :: cs => some ([x], cs)
      | ',' :: cs => (items n cs).map fun (xs, cs) => (x :: xs, cs)
      | _ => none

/-- The fields of an object that has some, and its closing brace. -/
def fields : Nat → List Char → Option (List (String × Json) × List Char)
  | 0, _ => none
  | n + 1, cs =>
    match skipBlanks cs with
    | '"' :: cs =>
      match stringTail [] cs with
      | none => none
      | some (key, cs) =>
        match skipBlanks cs with
        | ':' :: cs =>
          match value n cs with
          | none => none
          | some (x, cs) =>
            match skipBlanks cs with
            | '\x7d' :: cs => some ([(key, x)], cs)
            | ',' :: cs => (fields n cs).map fun (fs, cs) => ((key, x) :: fs, cs)
            | _ => none
        | _ => none
    | _ => none

end

end Read

/-- The value that a text holds. -/
def read? (text : String) : Option Json :=
  match Read.value (text.length + 1) text.toList with
  | some (j, cs) => if (Read.skipBlanks cs).isEmpty then some j else none
  | none => none

end MonkeyLang.Json
