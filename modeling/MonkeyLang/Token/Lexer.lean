import MonkeyLang.Token.Lexeme

/-! Reading a text lexeme by lexeme. Blanks separate lexemes and belong to none. `Lexer.next` reads
one token, `Lexer.tokens` gives all that are left. -/

namespace MonkeyLang

/-- A reader of a text: the bytes not read yet, how many were read, and whether `next?` has given
the end of the text. -/
structure Lexer where
  unread : List UInt8
  offset : Nat := 0
  ended : Bool := false
deriving DecidableEq, Repr, Inhabited

namespace Lexer

def ofString (source : String) : Lexer := { unread := source.toUTF8.data.toList }

/-- The next lexeme and the reader after it. At the end of the text there is none, and the reader
has passed the blanks that were left. -/
def lexeme? (l : Lexer) : Option Lexeme × Lexer :=
  let offset := l.offset + (l.unread.takeWhile Byte.isBlank).length
  match l.unread.dropWhile Byte.isBlank with
  | [] => (none, { l with unread := [], offset })
  | b :: rest =>
    let (kind, bytes) := Lexeme.cut b rest
    (some ⟨offset, kind, bytes⟩,
      { l with unread := (b :: rest).drop bytes.length, offset := offset + bytes.length })

/-- The next token; at the end of the text it is `Token.eof`, however often it is asked for. -/
def next (l : Lexer) : Token × Lexer :=
  match l.lexeme? with
  | (some x, l) => (x.token, l)
  | (none, l) => (.eof, l)

/-- Like `next`, but gives the end of the text once and nothing after it. -/
def next? (l : Lexer) : Option Token × Lexer :=
  if l.ended then (none, l)
  else
    match l.lexeme? with
    | (some x, l) => (some x.token, l)
    | (none, l) => (some .eof, { l with ended := true })

/-- Reads up to `n` lexemes. -/
def lexemesWithin : Nat → Lexer → List Lexeme
  | 0, _ => []
  | n + 1, l =>
    match l.lexeme? with
    | (some x, l) => x :: lexemesWithin n l
    | (none, _) => []

/-- The lexemes that are left. There are at most as many as bytes. -/
def lexemes (l : Lexer) : List Lexeme := l.lexemesWithin l.unread.length

/-- The tokens that are left, without the end of the text. -/
def tokens (l : Lexer) : List Token := l.lexemes.map (·.token)

/-- What `next?` still gives. -/
def rest (l : Lexer) : List Token := if l.ended then [] else l.tokens ++ [.eof]

/-- The length of the whole text. -/
def size (l : Lexer) : Nat := l.offset + l.unread.length

/-- The reader after everything that `next?` still gives. -/
def toEnd (l : Lexer) : Lexer := { unread := [], offset := l.size, ended := true }

/-! ## The log -/

/-- Reports a new reader. -/
def recordStart (l : Lexer) (log : Log) : Log :=
  log.record .info .lexer fun _ => "Lexer created over " ++ toString l.size ++ " bytes"

/-- Reports that the end of a text of the given length was read. -/
def recordEnd (size : Nat) (log : Log) : Log :=
  log.record .trace .lexer fun _ => "End of input reached at byte " ++ toString size

end Lexer

end MonkeyLang
