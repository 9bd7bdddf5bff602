import MonkeyLang.Integer
import MonkeyLang.Json
import MonkeyLang.Syntax

/-! Tokens and trees as JSON.

A structure is an object with its parts as fields. A statement or an expression is an object with
one field, named for its form, that holds the parts. -/

namespace MonkeyLang

open Json

/-! ## Encoding -/

def Token.toJson (t : Token) : Json :=
  .object [("token_type", .string t.kind.name), ("literal", .string t.literal)]

def Identifier.toJson (id : Identifier) : Json :=
  .object [("token", id.token.toJson), ("value", .string id.name)]

/-- An object with one field, for a form of statement or expression. -/
def Json.tagged (form : String) (parts : List (String × Json)) : Json :=
  .object [(form, .object parts)]

mutual

def Expr.toJson : Expr → Json
  | .ident id => .object [("Identifier", id.toJson)]
  | .int t n => .tagged "IntegerLiteral" [("token", t.toJson), ("value", .int n.toInt)]
  | .bool t b => .tagged "Boolean" [("token", t.toJson), ("value", .bool b)]
  | .unary t op e =>
    .tagged "Prefix" [("token", t.toJson), ("operator", .string op), ("right", e.toJson)]
  | .binary t l op r =>
    .tagged "Infix"
      [("token", t.toJson), ("left", l.toJson), ("operator", .string op), ("right", r.toJson)]
  | .cond t c b a =>
    .tagged "If"
      [("token", t.toJson), ("condition", c.toJson), ("consequence", b.toJson),
        ("alternative", Block.toJson? a)]
  | .function t ids b =>
    .tagged "Function"
      [("token", t.toJson), ("parameters", .array (ids.map (·.toJson))), ("body", b.toJson)]
  | .call t f es =>
    .tagged "Call"
      [("token", t.toJson), ("function", f.toJson), ("arguments", .array (Expr.eachToJson es))]

def Expr.eachToJson : List Expr → List Json
  | [] => []
  | e :: es => e.toJson :: Expr.eachToJson es

def Stmt.toJson : Stmt → Json
  | .letStmt t id e =>
    .tagged "Let" [("token", t.toJson), ("name", id.toJson), ("value", e.toJson)]
  | .returnStmt t e => .tagged "Return" [("token", t.toJson), ("value", e.toJson)]
  | .expr t e => .tagged "Expression" [("token", t.toJson), ("expression", e.toJson)]
  | .block b => .object [("Block", b.toJson)]

def Stmt.eachToJson : List Stmt → List Json
  | [] => []
  | s :: ss => s.toJson :: Stmt.eachToJson ss

def Block.toJson : Block → Json
  | ⟨t, ss⟩ => .object [("token", t.toJson), ("statements", .array (Stmt.eachToJson ss))]

def Block.toJson? : Option Block → Json
  | none => .null
  | some b => b.toJson

end

def Program.toJson (p : Program) : Json :=
  .object [("statements", .array (Stmt.eachToJson p.statements))]

/-! ## Decoding -/

def Token.ofJson? (j : Json) : Option Token := do
  let kind ← (← (← j.field? "token_type").string?) |> Kind.ofName?
  let literal ← (← j.field? "literal").string?
  pure ⟨kind, literal⟩

def Identifier.ofJson? (j : Json) : Option Identifier := do
  let token ← Token.ofJson? (← j.field? "token")
  let name ← (← j.field? "value").string?
  pure ⟨token, name⟩

/-- The integer of 64 bits that a JSON number is. -/
def Json.int64? (j : Json) : Option Int64 := j.int?.bind toInt64?

/-- The form of a statement or an expression, and its parts. -/
def Json.form? : Json → Option (String × Json)
  | .object [(form, parts)] => some (form, parts)
  | _ => none

mutual

/-- Reads an expression from a value that nests at most `n` deep. -/
def Expr.ofJsonWithin (n : Nat) (j : Json) : Option Expr :=
  match n with
  | 0 => none
  | n + 1 => do
    let (form, parts) ← j.form?
    if form = "Identifier" then pure (.ident (← Identifier.ofJson? parts))
    else
      let t ← Token.ofJson? (← parts.field? "token")
      match form with
      | "IntegerLiteral" => pure (.int t (← (← parts.field? "value").int64?))
      | "Boolean" => pure (.bool t (← (← parts.field? "value").bool?))
      | "Prefix" =>
        let op ← (← parts.field? "operator").string?
        let e ← Expr.ofJsonWithin n (← parts.field? "right")
        pure (.unary t op e)
      | "Infix" =>
        let l ← Expr.ofJsonWithin n (← parts.field? "left")
        let op ← (← parts.field? "operator").string?
        let r ← Expr.ofJsonWithin n (← parts.field? "right")
        pure (.binary t l op r)
      | "If" =>
        let c ← Expr.ofJsonWithin n (← parts.field? "condition")
        let b ← Block.ofJsonWithin n (← parts.field? "consequence")
        match parts.field? "alternative" with
        | none | some .null => pure (.cond t c b none)
        | some a =>
          let a ← Block.ofJsonWithin n a
          pure (.cond t c b (some a))
      | "Function" =>
        let ids ← (← (← parts.field? "parameters").array?).mapM Identifier.ofJson?
        let b ← Block.ofJsonWithin n (← parts.field? "body")
        pure (.function t ids b)
      | "Call" =>
        let f ← Expr.ofJsonWithin n (← parts.field? "function")
        let es ← (← (← parts.field? "arguments").array?).mapM (Expr.ofJsonWithin n)
        pure (.call t f es)
      | _ => none

def Stmt.ofJsonWithin (n : Nat) (j : Json) : Option Stmt :=
  match n with
  | 0 => none
  | n + 1 => do
    let (form, parts) ← j.form?
    match form with
    | "Block" => pure (.block (← Block.ofJsonWithin n parts))
    | "Let" =>
      let t ← Token.ofJson? (← parts.field? "token")
      let id ← Identifier.ofJson? (← parts.field? "name")
      let e ← Expr.ofJsonWithin n (← parts.field? "value")
      pure (.letStmt t id e)
    | "Return" =>
      let t ← Token.ofJson? (← parts.field? "token")
      let e ← Expr.ofJsonWithin n (← parts.field? "value")
      pure (.returnStmt t e)
    | "Expression" =>
      let t ← Token.ofJson? (← parts.field? "token")
      let e ← Expr.ofJsonWithin n (← parts.field? "expression")
      pure (.expr t e)
    | _ => none

def Block.ofJsonWithin (n : Nat) (j : Json) : Option Block :=
  match n with
  | 0 => none
  | n + 1 => do
    let t ← Token.ofJson? (← j.field? "token")
    let ss ← (← (← j.field? "statements").array?).mapM (Stmt.ofJsonWithin n)
    pure ⟨t, ss⟩

end

def Program.ofJson? (j : Json) : Option Program := do
  let ss ← (← (← j.field? "statements").array?).mapM (Stmt.ofJsonWithin j.depth)
  pure ⟨ss⟩

end MonkeyLang
