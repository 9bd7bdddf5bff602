import MonkeyLang.Value

/-! What operators do to values. A tree holds the text of an operator, which need not be one of the
language. Integers have 64 bits, and an operation whose exact result does not fit is an error. -/

namespace MonkeyLang

inductive BinaryOp where
  | add | sub | mul | div | lt | gt | eq | ne
deriving DecidableEq, Repr, Inhabited

namespace BinaryOp

def symbol : BinaryOp → String
  | add => "+" | sub => "-" | mul => "*" | div => "/"
  | lt => "<" | gt => ">" | eq => "==" | ne => "!="

def all : List BinaryOp := [add, sub, mul, div, lt, gt, eq, ne]

/-- The operator with a given symbol. -/
def ofSymbol? (s : String) : Option BinaryOp := all.find? (·.symbol == s)

theorem ofSymbol?_symbol (op : BinaryOp) : ofSymbol? op.symbol = some op := by cases op <;> decide

end BinaryOp

/-- The exact result of an operation if it fits, and an error otherwise. -/
def exactly (n : Int) (e : EvalError) : Value :=
  match toInt64? n with
  | some n => .int n
  | none => .error e

/-- An operator between integers. Division truncates toward zero. -/
def BinaryOp.onInts (op : BinaryOp) (l r : Int64) : Value :=
  match op with
  | add => exactly (l.toInt + r.toInt) (.overflow l op.symbol r)
  | sub => exactly (l.toInt - r.toInt) (.overflow l op.symbol r)
  | mul => exactly (l.toInt * r.toInt) (.overflow l op.symbol r)
  | div =>
    if r = 0 then .error (.divisionByZero l)
    else exactly (l.toInt.tdiv r.toInt) (.overflow l op.symbol r)
  | lt => .bool (l < r)
  | gt => .bool (l > r)
  | eq => .bool (l == r)
  | ne => .bool (l != r)

/-- What an operator makes of two values that are no signals. Apart from integers, only two
booleans or two nulls can be compared. -/
def applyBinary (symbol : String) (l r : Value) : Value :=
  let unknown : Value := .error (.unknownBinary l.type symbol r.type)
  match l, r, BinaryOp.ofSymbol? symbol with
  | .int m, .int n, some op => op.onInts m n
  | .bool a, .bool b, some .eq => .bool (a == b)
  | .bool a, .bool b, some .ne => .bool (a != b)
  | .null, .null, some .eq => .bool true
  | .null, .null, some .ne => .bool false
  | _, _, _ =>
    if l.type = r.type then unknown else .error (.typeMismatch l.type symbol r.type)

/-- What an operator makes of one value that is no signal. -/
def applyUnary (symbol : String) (v : Value) : Value :=
  match symbol, v with
  | "!", v => .bool (!v.isTruthy)
  | "-", .int n => exactly (-n.toInt) (.negationOverflow n)
  | symbol, v => .error (.unknownUnary symbol v.type)

end MonkeyLang
