import MonkeyLang.Syntax

/-! The text of a tree. Operators are written with parentheses around them and their operands, so
the text shows how the tree nests: `-a * b` is written `((-a) * b)`. -/

namespace MonkeyLang

/-- A text in braces. -/
def braced (s : String) : String := "\x7b " ++ s ++ " \x7d"

/-- The names of some parameters, as between parentheses. -/
def renderNames (ids : List Identifier) : String := ", ".intercalate (ids.map (·.name))

mutual

def Expr.render : Expr → String
  | .ident id => id.name
  | .int t _ | .bool t _ => t.literal
  | .unary _ op e => "(" ++ op ++ e.render ++ ")"
  | .binary _ l op r => "(" ++ l.render ++ " " ++ op ++ " " ++ r.render ++ ")"
  | .cond _ c b none => "if " ++ c.render ++ " " ++ braced b.render
  | .cond _ c b (some a) =>
    "if " ++ c.render ++ " " ++ braced b.render ++ " else " ++ braced a.render
  | .function t ids b => t.literal ++ "(" ++ renderNames ids ++ ") " ++ braced b.render
  | .call _ f es => f.render ++ "(" ++ ", ".intercalate (Expr.renderEach es) ++ ")"

def Expr.renderEach : List Expr → List String
  | [] => []
  | e :: es => e.render :: Expr.renderEach es

def Stmt.render : Stmt → String
  | .letStmt t id e => t.literal ++ " " ++ id.name ++ " = " ++ e.render ++ ";"
  | .returnStmt t e => t.literal ++ " " ++ e.render ++ ";"
  | .expr _ e => e.render
  | .block b => braced b.render

/-- The statements alone: whoever writes a block adds the braces. -/
def Block.render : Block → String
  | ⟨_, ss⟩ => Stmt.renderAll ss

def Stmt.renderAll : List Stmt → String
  | [] => ""
  | s :: ss => s.render ++ Stmt.renderAll ss

end

/-- One statement after the other, with nothing between them. -/
def Program.render (p : Program) : String := Stmt.renderAll p.statements

end MonkeyLang
