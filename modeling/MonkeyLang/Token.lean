/-! Tokens: the kinds of the language's lexical elements, the text each was written with, and the
reserved words. -/

namespace MonkeyLang

/-- The kind of a token. `illegal` is any byte that starts no other token, `eof` the end of the
text. -/
inductive Kind where
  | illegal | eof | ident | int
  | assign | plus | minus | bang | asterisk | slash
  | lt | gt | eq | notEq
  | comma | semicolon | lparen | rparen | lbrace | rbrace
  | fnWord | letWord | trueWord | falseWord | ifWord | elseWord | returnWord
deriving DecidableEq, Repr, Inhabited

namespace Kind

/-- The name that messages and listings use. -/
def name : Kind → String
  | illegal => "ILLEGAL" | eof => "EOF" | ident => "IDENT" | int => "INT"
  | assign => "ASSIGN" | plus => "PLUS" | minus => "MINUS" | bang => "BANG"
  | asterisk => "ASTERISK" | slash => "SLASH" | lt => "LT" | gt => "GT"
  | eq => "EQ" | notEq => "NOT_EQ" | comma => "COMMA" | semicolon => "SEMICOLON"
  | lparen => "LPAREN" | rparen => "RPAREN" | lbrace => "LBRACE" | rbrace => "RBRACE"
  | fnWord => "FUNCTION" | letWord => "LET" | trueWord => "TRUE" | falseWord => "FALSE"
  | ifWord => "IF" | elseWord => "ELSE" | returnWord => "RETURN"

/-- Every kind, in the order of declaration. -/
def all : List Kind :=
  [illegal, eof, ident, int, assign, plus, minus, bang, asterisk, slash, lt, gt, eq, notEq,
    comma, semicolon, lparen, rparen, lbrace, rbrace,
    fnWord, letWord, trueWord, falseWord, ifWord, elseWord, returnWord]

/-- The kind with a given name. -/
def ofName? (s : String) : Option Kind := all.find? (·.name == s)

theorem ofName?_name (k : Kind) : ofName? k.name = some k := by cases k <;> decide

/-- The reserved words. -/
def keywords : List (String × Kind) :=
  [("fn", fnWord), ("let", letWord), ("true", trueWord), ("false", falseWord),
    ("if", ifWord), ("else", elseWord), ("return", returnWord)]

/-- The kind of a word: its own if it is reserved, and `ident` otherwise. -/
def ofWord (word : String) : Kind := (keywords.lookup word).getD ident

end Kind

/-- A token: its kind, and the text it was written with (empty at the end of the text). -/
structure Token where
  kind : Kind
  literal : String
deriving DecidableEq, Repr, Inhabited

namespace Token

/-- The end of the text. -/
def eof : Token := ⟨.eof, ""⟩

/-- The kind's name, followed by the literal if there is one. -/
def display (t : Token) : String :=
  if t.literal.isEmpty then t.kind.name else t.kind.name ++ " " ++ t.literal

end Token

end MonkeyLang
