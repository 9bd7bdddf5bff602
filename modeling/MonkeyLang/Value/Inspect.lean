import MonkeyLang.Text.Quoted
import MonkeyLang.Value

/-! The form of a value that shows how it is built. -/

namespace MonkeyLang

def Token.inspect (t : Token) : String :=
  "Token \x7b token_type: " ++ t.kind.name ++ ", literal: " ++ Text.quoted t.literal ++ " \x7d"

def Identifier.inspect (id : Identifier) : String :=
  "Identifier \x7b token: " ++ id.token.inspect ++ ", value: " ++ Text.quoted id.name ++ " \x7d"

/-- The scope of a function is left out: it can hold the function itself. -/
def Closure.inspect (c : Closure) : String :=
  "Function \x7b parameters: [" ++ ", ".intercalate (c.parameters.map (·.inspect)) ++ "], body: "
    ++ Text.quoted c.body.render ++ ", .. \x7d"

def Value.inspect : Value → String
  | int n => "Integer(" ++ int64Text n ++ ")"
  | bool b => "Boolean(" ++ (if b then "true" else "false") ++ ")"
  | null => "Null"
  | returned v => "ReturnValue(" ++ v.inspect ++ ")"
  | error e => "Error(" ++ Text.quoted e.message ++ ")"
  | closure c => "Function(" ++ c.inspect ++ ")"

end MonkeyLang
