import MonkeyLang.Integer
import MonkeyLang.Syntax
import MonkeyLang.Token.Lexer

/-! The state of a parse, its errors, and the productions that the others are made of.

A production either gives a value, or records an error and fails. It may also run out of its
budget, which bounds how deep productions nest. -/

namespace MonkeyLang

/-- What can be wrong with a text. -/
inductive ParseError where
  /-- The next token has another kind than the construct needs. -/
  | unexpected (wanted found : Kind)
  /-- No expression starts with a token of this kind. -/
  | noOperand (kind : Kind)
  /-- The number is too large. -/
  | integerRange (literal : String)
deriving DecidableEq, Repr, Inhabited

def ParseError.message : ParseError → String
  | unexpected wanted found =>
    "expected next token to be " ++ wanted.name ++ ", got " ++ found.name ++ " instead"
  | noOperand kind => "no prefix parse function for " ++ kind.name ++ " found"
  | integerRange literal => "could not parse \"" ++ literal ++ "\" as integer"

/-- The state of a parse. `tokens` are the tokens from the current one on, without the end of the
text. `unread` are the lexemes beyond the lookahead and `size` is the length of the text; both only
matter to the log. -/
structure Parser where
  tokens : List Token
  errors : Array ParseError := #[]
  unread : List Lexeme := []
  size : Nat := 0
  log : Log := {}
deriving Inhabited

/-- How a production ends: with a value, without one, or because the budget ran out. -/
inductive Parser.Outcome (α : Type) where
  | done (a : α) (p : Parser)
  | failed (p : Parser)
  | exhausted

abbrev Production (α : Type) := Parser → Parser.Outcome α

namespace Parser

@[always_inline, inline] def Outcome.andThen {α β : Type} :
    Outcome α → (α → Production β) → Outcome β
  | .done a p, f => f a p
  | .failed p, _ => .failed p
  | .exhausted, _ => .exhausted

@[always_inline] instance : Monad Production where
  pure a := fun p => .done a p
  bind x f := fun p => (x p).andThen f

theorem bind_apply {α β : Type} (x : Production α) (f : α → Production β) (p : Parser) :
    (x >>= f) p = (x p).andThen f := rfl

/-! ## The tokens in view -/

/-- The current token. -/
def current (p : Parser) : Token := p.tokens.head?.getD .eof

/-- The token after the current one. -/
def peek (p : Parser) : Token := p.tokens.tail.head?.getD .eof

/-- Reports that the lexer was asked for one more token. -/
def scan (p : Parser) : Parser :=
  match p.unread with
  | [] => { p with log := Lexer.recordEnd p.size p.log }
  | l :: ls => { p with unread := ls, log := l.record p.log }

/-- Makes the next token the current one. At the end of the text nothing changes. -/
def advance (p : Parser) : Parser := { p.scan with tokens := p.tokens.tail }

@[simp] theorem tokens_scan (p : Parser) : p.scan.tokens = p.tokens := by
  unfold scan; split <;> rfl

@[simp] theorem errors_scan (p : Parser) : p.scan.errors = p.errors := by
  unfold scan; split <;> rfl

@[simp] theorem tokens_advance (p : Parser) : p.advance.tokens = p.tokens.tail := rfl

@[simp] theorem errors_advance (p : Parser) : p.advance.errors = p.errors := p.errors_scan

/-! ## Small productions -/

/-- The budget ran out. -/
def outOfBudget {α : Type} : Production α := fun _ => .exhausted

@[inline] def note (level : Log.Level) (message : Unit → String) : Production Unit := fun p =>
  .done () { p with log := p.log.record level .parser message }

/-- Records an error and fails. -/
def fail {α : Type} (e : ParseError) : Production α := fun p =>
  .failed { p with
    errors := p.errors.push e
    log := p.log.record .debug .parser fun _ => "Parse error: " ++ e.message }

@[inline] def currentToken : Production Token := fun p => .done p.current p

@[inline] def nextKind : Production Kind := fun p => .done p.peek.kind p

@[inline] def skip : Production Unit := fun p => .done () p.advance

/-- Moves on to the next token, which must have the given kind. -/
def expect (kind : Kind) : Production Unit := fun p =>
  if p.peek.kind = kind then .done () p.advance
  else fail (.unexpected kind p.peek.kind) p

/-- Moves on to the next token if it has the given kind. -/
def skipIf (kind : Kind) : Production Bool := fun p =>
  if p.peek.kind = kind then .done true p.advance else .done false p

/-- Runs a production whose failure only drops its own construct. -/
@[inline] def attempt {α : Type} (x : Production α) : Production (Option α) := fun p =>
  match x p with
  | .done a p => .done (some a) p
  | .failed p => .done none p
  | .exhausted => .exhausted

/-- The current token as an integer. -/
def integer : Production Expr := do
  let t ← currentToken
  match integer? t.literal with
  | some n => pure (.int t n)
  | none => fail (.integerRange t.literal)

end Parser

end MonkeyLang
