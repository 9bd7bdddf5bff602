import MonkeyLang.Integer
import MonkeyLang.Syntax.Render

/-! Values, and the errors that evaluation ends in.

Two kinds of value are signals: an error, and the value of a `return` on its way to the call or the
program that it ends. A signal stops whatever it turns up in. -/

namespace MonkeyLang

/-- Names a scope of a heap. -/
abbrev ScopeId := Nat

/-- A place in the texts read so far: the number of the text, and the way from the root of its tree
to a node as child positions, the last step first. -/
structure Site where
  text : Nat
  path : List Nat := []
deriving DecidableEq, Repr, Inhabited

/-- The site of a child. -/
def Site.child (s : Site) (i : Nat) : Site := { s with path := i :: s.path }

/-- The type of a value, as error messages name it. -/
inductive ValueType where
  | integer | boolean | null | returned | error | function
deriving DecidableEq, Repr, Inhabited

def ValueType.name : ValueType → String
  | integer => "INTEGER" | boolean => "BOOLEAN" | null => "NULL"
  | returned => "RETURN_VALUE" | error => "ERROR" | function => "FUNCTION"

/-- Why an evaluation failed. -/
inductive EvalError where
  | typeMismatch (left : ValueType) (operator : String) (right : ValueType)
  | unknownBinary (left : ValueType) (operator : String) (right : ValueType)
  | unknownUnary (operator : String) (operand : ValueType)
  | identifierNotFound (name : String)
  | notAFunction (callee : ValueType)
  | argumentCount (wanted found : Nat)
  | overflow (left : Int64) (operator : String) (right : Int64)
  | negationOverflow (operand : Int64)
  | divisionByZero (dividend : Int64)
  /-- An error that a host made, with its text. -/
  | custom (message : String)
deriving DecidableEq, Repr, Inhabited

def EvalError.message : EvalError → String
  | typeMismatch l op r => "type mismatch: " ++ l.name ++ " " ++ op ++ " " ++ r.name
  | unknownBinary l op r => "unknown operator: " ++ l.name ++ " " ++ op ++ " " ++ r.name
  | unknownUnary op t => "unknown operator: " ++ op ++ t.name
  | identifierNotFound name => "identifier not found: " ++ name
  | notAFunction t => "not a function: " ++ t.name
  | argumentCount wanted found =>
    "wrong number of arguments: want=" ++ toString wanted ++ ", got=" ++ toString found
  | overflow l op r => "integer overflow: " ++ int64Text l ++ " " ++ op ++ " " ++ int64Text r
  | negationOverflow n => "integer overflow: -(" ++ int64Text n ++ ")"
  | divisionByZero n => "division by zero: " ++ int64Text n ++ " / 0"
  | custom message => message

/-- A function with the scope it was made in. `site` is the place of the literal it came from. -/
structure Closure where
  parameters : List Identifier
  body : Block
  scope : ScopeId
  site : Site

/-- The text of a function. -/
def Closure.render (c : Closure) : String :=
  "fn(" ++ renderNames c.parameters ++ ") \x7b\n" ++ c.body.render ++ "\n\x7d"

inductive Value where
  | int (n : Int64)
  | bool (b : Bool)
  | null
  /-- The value of a `return` on its way out. -/
  | returned (v : Value)
  | error (e : EvalError)
  | closure (c : Closure)

namespace Value

instance : Inhabited Value := ⟨null⟩

def type : Value → ValueType
  | int _ => .integer
  | bool _ => .boolean
  | null => .null
  | returned _ => .returned
  | error _ => .error
  | closure _ => .function

/-- Only `false` and `null` count as false. -/
def isTruthy : Value → Bool
  | bool b => b
  | null => false
  | _ => true

def isError : Value → Bool
  | error _ => true
  | _ => false

def isSignal : Value → Bool
  | error _ | returned _ => true
  | _ => false

/-- The value that a call or a program ends with: a `return` ends there. -/
def landed : Value → Value
  | returned v => v
  | v => v

/-- The text of a value. -/
def render : Value → String
  | int n => int64Text n
  | bool b => if b then "true" else "false"
  | null => "null"
  | returned v => v.render
  | error e => "ERROR: " ++ e.message
  | closure c => c.render

/-- Whether two values are the same: errors by their text, functions if they came from one literal
and one scope, all others by what they hold. -/
def same : Value → Value → Bool
  | int m, int n => m == n
  | bool a, bool b => a == b
  | null, null => true
  | returned v, returned w => same v w
  | error e, error f => e.message == f.message
  | closure c, closure d => c.site == d.site && c.scope == d.scope
  | _, _ => false

end Value

end MonkeyLang
