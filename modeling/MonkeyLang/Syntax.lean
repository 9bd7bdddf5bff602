import MonkeyLang.Token

/-! The syntax tree.

Every node keeps a token of the text it was read from. Evaluation reads the operators, names and
values of a tree, never its tokens. -/

namespace MonkeyLang

/-- A name, bound or read. -/
structure Identifier where
  token : Token
  name : String
deriving DecidableEq, Repr, Inhabited

/-- The identifier that a token spells. -/
def Identifier.ofToken (t : Token) : Identifier := ⟨t, t.literal⟩

mutual

inductive Expr where
  | ident (id : Identifier)
  | int (token : Token) (value : Int64)
  | bool (token : Token) (value : Bool)
  | unary (token : Token) (operator : String) (operand : Expr)
  | binary (token : Token) (left : Expr) (operator : String) (right : Expr)
  /-- The token is the word `if`. -/
  | cond (token : Token) (condition : Expr) (consequence : Block) (alternative : Option Block)
  /-- The token is the word `fn`. -/
  | function (token : Token) (parameters : List Identifier) (body : Block)
  /-- The token is the opening parenthesis. -/
  | call (token : Token) (callee : Expr) (arguments : List Expr)

inductive Stmt where
  | letStmt (token : Token) (id : Identifier) (value : Expr)
  | returnStmt (token : Token) (value : Expr)
  /-- The token is the first of the expression. -/
  | expr (token : Token) (value : Expr)
  | block (body : Block)

/-- Statements in braces; the token is the opening brace. -/
structure Block where
  token : Token
  statements : List Stmt

end

/-- The statements of a text. -/
structure Program where
  statements : List Stmt

/-- The literal of the token that an expression keeps. -/
def Expr.literal : Expr → String
  | .ident id => id.token.literal
  | .int t _ | .bool t _ | .unary t .. | .binary t .. | .cond t .. | .function t .. | .call t .. =>
    t.literal

/-- The literal of the token that a statement keeps. -/
def Stmt.literal : Stmt → String
  | .letStmt t .. | .returnStmt t _ | .expr t _ => t.literal
  | .block b => b.token.literal

/-- The expression that a statement holds; a block holds none. -/
def Stmt.expr? : Stmt → Option Expr
  | .letStmt _ _ e | .returnStmt _ e | .expr _ e => some e
  | .block _ => none

/-- The literal of the first statement. -/
def Program.literal (p : Program) : String := (p.statements.head?.map (·.literal)).getD ""

end MonkeyLang
