import MonkeyLang.Log
import MonkeyLang.Text.Hex
import MonkeyLang.Token

/-! Lexemes: the pieces that a text, given as UTF-8 bytes, is cut into.

A lexeme is the longest word or run of digits, an operator of one or two bytes, a punctuation mark,
or a single byte that starts none of these. -/

namespace MonkeyLang

namespace Byte

def isBlank (b : UInt8) : Bool := b == 32 || b == 9 || b == 13 || b == 10

def isDigit (b : UInt8) : Bool := 48 ≤ b && b ≤ 57

/-- A letter of a word: ASCII letters and the underscore. -/
def isLetter (b : UInt8) : Bool := 97 ≤ b && b ≤ 122 || 65 ≤ b && b ≤ 90 || b == 95

/-- The kind of a byte that is a lexeme by itself. `=` and `!` are not listed: the byte after them
matters. -/
def kind? (b : UInt8) : Option Kind :=
  [(43, .plus), (45, .minus), (42, .asterisk), (47, .slash), (60, .lt), (62, .gt), (44, .comma),
    (59, .semicolon), (40, .lparen), (41, .rparen), (123, .lbrace), (125, .rbrace)].lookup b

/-- ASCII stands for itself; any other byte is spelled `\x` and two hexadecimal digits. -/
def spell (b : UInt8) : List Char :=
  if b < 128 then [Char.ofNat b.toNat] else '\\' :: 'x' :: Text.hexByte b

end Byte

/-- The text of some bytes, each spelled on its own. -/
def spell (bytes : List UInt8) : String := String.ofList (bytes.flatMap Byte.spell)

/-- A lexeme: the bytes of a token and where they start. -/
structure Lexeme where
  offset : Nat
  kind : Kind
  bytes : List UInt8
deriving DecidableEq, Repr, Inhabited

namespace Lexeme

def token (l : Lexeme) : Token := ⟨l.kind, spell l.bytes⟩

/-- The kind and the bytes of the lexeme that starts with `b` and goes on into `rest`. -/
def cut (b : UInt8) (rest : List UInt8) : Kind × List UInt8 :=
  if Byte.isLetter b then
    let word := b :: rest.takeWhile Byte.isLetter
    (.ofWord (spell word), word)
  else if Byte.isDigit b then (.int, b :: rest.takeWhile Byte.isDigit)
  else if b == 61 then if rest.head? == some 61 then (.eq, [61, 61]) else (.assign, [61])
  else if b == 33 then if rest.head? == some 61 then (.notEq, [33, 61]) else (.bang, [33])
  else ((Byte.kind? b).getD .illegal, [b])

/-- What reading a lexeme adds to the log. -/
def record (l : Lexeme) (log : Log) : Log :=
  let log :=
    if l.bytes.head?.any Byte.isLetter then
      log.record .trace .token fun _ =>
        "Looked up identifier '" ++ l.token.literal ++ "' as " ++ l.kind.name
    else if l.kind = .illegal then
      log.record .debug .lexer fun _ =>
        "Illegal byte 0x" ++ String.ofList (l.bytes.flatMap Text.hexByte) ++ " at offset "
          ++ toString l.offset
    else log
  log.record .trace .lexer fun _ => "Scanned token " ++ l.token.display

end Lexeme

end MonkeyLang
