import MonkeyLang.Parser.Basic
import MonkeyLang.Stack
import MonkeyLang.Syntax.Precedence
import MonkeyLang.Syntax.Render

/-! The productions: recursive descent for statements, precedence climbing for expressions, one
token of lookahead.

A production starts with the first token of its construct as the current one, and ends on the last.
A list of statements goes on after a failed statement from the token that is current then, so one
text can have several errors; see `blockStatements`. -/

namespace MonkeyLang

namespace Parser

/-- Parameters after a comma, and the closing parenthesis. -/
def moreParameters : Nat → Production (List Identifier)
  | 0 => outOfBudget
  | n + 1 => do
    if ← skipIf .comma then
      expect .ident
      let id := Identifier.ofToken (← currentToken)
      let ids ← moreParameters n
      pure (id :: ids)
    else
      expect .rparen
      pure []

/-- The parameters of a function literal; the current token is the opening parenthesis. -/
def parameters (n : Nat) : Production (List Identifier) := do
  if ← skipIf .rparen then pure []
  else
    expect .ident
    let id := Identifier.ofToken (← currentToken)
    let ids ← moreParameters n
    pure (id :: ids)

mutual

/-- An expression whose operators all bind tighter than `power`. -/
def expression (n : Nat) (power : Precedence) : Production Expr :=
  match n with
  | 0 => outOfBudget
  | n + 1 => fun p => atLevel 4096 n fun _ =>
    (do
      let left ← operand n
      operators n power left : Production Expr) p

/-- The operators after an operand, as long as they bind tighter than `power`. -/
def operators (n : Nat) (power : Precedence) (left : Expr) : Production Expr :=
  match n with
  | 0 => outOfBudget
  | n + 1 => do
    let kind ← nextKind
    if power < .ofKind kind then
      skip
      let left ← if kind = .lparen then callOf n left else binary n left
      operators n power left
    else pure left

/-- The start of an expression: an atom, an operator before its operand, a parenthesis, `if` or
`fn`. -/
def operand (n : Nat) : Production Expr :=
  match n with
  | 0 => outOfBudget
  | n + 1 => do
    let t ← currentToken
    note .trace fun _ => "Prefix dispatch on " ++ t.kind.name
    match t.kind with
    | .ident => pure (.ident (.ofToken t))
    | .int => integer
    | .trueWord => pure (.bool t true)
    | .falseWord => pure (.bool t false)
    | .bang | .minus => unary n
    | .lparen => group n
    | .ifWord => conditional n
    | .fnWord => functionLiteral n
    | kind => fail (.noOperand kind)

def unary (n : Nat) : Production Expr :=
  match n with
  | 0 => outOfBudget
  | n + 1 => do
    let t ← currentToken
    skip
    let right ← expression n .unary
    pure (.unary t t.literal right)

/-- The current token is the operator. -/
def binary (n : Nat) (left : Expr) : Production Expr :=
  match n with
  | 0 => outOfBudget
  | n + 1 => do
    let t ← currentToken
    skip
    let right ← expression n (.ofKind t.kind)
    pure (.binary t left t.literal right)

def group (n : Nat) : Production Expr :=
  match n with
  | 0 => outOfBudget
  | n + 1 => do
    skip
    let e ← expression n .lowest
    expect .rparen
    pure e

def conditional (n : Nat) : Production Expr :=
  match n with
  | 0 => outOfBudget
  | n + 1 => do
    note .debug fun _ => "Entering if expression"
    let t ← currentToken
    expect .lparen
    skip
    let condition ← expression n .lowest
    expect .rparen
    expect .lbrace
    let consequence ← block n
    if ← skipIf .elseWord then
      expect .lbrace
      let alternative ← block n
      pure (.cond t condition consequence (some alternative))
    else pure (.cond t condition consequence none)

def functionLiteral (n : Nat) : Production Expr :=
  match n with
  | 0 => outOfBudget
  | n + 1 => do
    note .debug fun _ => "Entering function literal"
    let t ← currentToken
    expect .lparen
    let ids ← parameters n
    expect .lbrace
    let body ← block n
    pure (.function t ids body)

/-- The current token is the opening parenthesis of the arguments. -/
def callOf (n : Nat) (callee : Expr) : Production Expr :=
  match n with
  | 0 => outOfBudget
  | n + 1 => do
    let t ← currentToken
    if ← skipIf .rparen then pure (.call t callee [])
    else
      skip
      let e ← expression n .lowest
      let es ← moreArguments n
      pure (.call t callee (e :: es))

/-- Arguments after a comma, and the closing parenthesis. -/
def moreArguments (n : Nat) : Production (List Expr) :=
  match n with
  | 0 => outOfBudget
  | n + 1 => do
    if ← skipIf .comma then
      skip
      let e ← expression n .lowest
      let es ← moreArguments n
      pure (e :: es)
    else
      expect .rparen
      pure []

/-- The current token is the opening brace. The end of the text closes every open block. -/
def block (n : Nat) : Production Block :=
  match n with
  | 0 => outOfBudget
  | n + 1 => do
    note .debug fun _ => "Entering block"
    let t ← currentToken
    skip
    let ss ← blockStatements n
    pure ⟨t, ss⟩

/-- The statements up to the closing brace, which is the current token afterwards. -/
def blockStatements (n : Nat) : Production (List Stmt) :=
  match n with
  | 0 => outOfBudget
  | n + 1 => fun p => atLevel 4096 n fun _ =>
    (do
      let t ← currentToken
      if t.kind = .rbrace ∨ t.kind = .eof then pure []
      else
        let s ← attempt (statement n)
        skip
        let ss ← blockStatements n
        pure (s.toList ++ ss) : Production (List Stmt)) p

def statement (n : Nat) : Production Stmt :=
  match n with
  | 0 => outOfBudget
  | n + 1 => do
    let t ← currentToken
    match t.kind with
    | .letWord => letStatement n
    | .returnWord => returnStatement n
    | .lbrace =>
      let b ← block n
      pure (.block b)
    | _ =>
      let e ← expression n .lowest
      let _ ← skipIf .semicolon
      pure (.expr t e)

def letStatement (n : Nat) : Production Stmt :=
  match n with
  | 0 => outOfBudget
  | n + 1 => do
    note .debug fun _ => "Entering let statement"
    let t ← currentToken
    expect .ident
    let id := Identifier.ofToken (← currentToken)
    expect .assign
    skip
    let e ← expression n .lowest
    let _ ← skipIf .semicolon
    pure (.letStmt t id e)

def returnStatement (n : Nat) : Production Stmt :=
  match n with
  | 0 => outOfBudget
  | n + 1 => do
    note .debug fun _ => "Entering return statement"
    let t ← currentToken
    skip
    let e ← expression n .lowest
    let _ ← skipIf .semicolon
    pure (.returnStmt t e)

end

/-- The statements up to the end of the text. -/
def programStatements (n : Nat) : Production (List Stmt) :=
  match n with
  | 0 => outOfBudget
  | n + 1 => fun p => atLevel 4096 n fun _ =>
    (do
      let t ← currentToken
      if t.kind = .eof then pure []
      else
        let s ← attempt (statement n)
        if let some s := s then note .debug fun _ => "Parsed statement: " ++ s.render
        skip
        let ss ← programStatements n
        pure (s.toList ++ ss) : Production (List Stmt)) p

end Parser

end MonkeyLang
