import MonkeyLang.Text.Hex
import MonkeyLang.Text.Unprintable

/-! Quoted text, as messages show names and values: between quotation marks, with escapes for
quotation marks, backslashes and whatever has no printed form. -/

namespace MonkeyLang.Text

/-- A character inside a quoted text. -/
def escapeQuoted (c : Char) : List Char :=
  match c with
  | '\x00' => ['\\', '0']
  | '\t' => ['\\', 't']
  | '\r' => ['\\', 'r']
  | '\n' => ['\\', 'n']
  | '"' => ['\\', '"']
  | '\\' => ['\\', '\\']
  | c =>
    if isUnprintable c then '\\' :: 'u' :: '\x7b' :: (hexNat c.toNat ++ ['\x7d']) else [c]

def quoted (s : String) : String := "\"" ++ String.ofList (s.toList.flatMap escapeQuoted) ++ "\""

end MonkeyLang.Text
