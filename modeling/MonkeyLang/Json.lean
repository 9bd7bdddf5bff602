import MonkeyLang.Text.Hex

/-! JSON values whose numbers are integers, and their two written forms: compact, and pretty with
two spaces of indentation. -/

namespace MonkeyLang

/-- A JSON value. An object keeps its fields in the order of writing. -/
inductive Json where
  | null
  | bool (b : Bool)
  | int (n : Int)
  | string (s : String)
  | array (items : List Json)
  | object (fields : List (String × Json))
deriving Repr, Inhabited

namespace Json

/-- The escape that stands for a character, if it needs one: quotation marks, backslashes and
control characters do. -/
def escape? (c : Char) : Option (List Char) :=
  match c with
  | '"' => some ['\\', '"']
  | '\\' => some ['\\', '\\']
  | '\x08' => some ['\\', 'b']
  | '\x0c' => some ['\\', 'f']
  | '\n' => some ['\\', 'n']
  | '\r' => some ['\\', 'r']
  | '\t' => some ['\\', 't']
  | c =>
    if c.toNat < 32 then some ('\\' :: 'u' :: '0' :: '0' :: Text.hexByte c.toNat.toUInt8)
    else none

def escape (c : Char) : List Char := (escape? c).getD [c]

/-- A string between quotation marks. -/
def quote (s : String) : String := "\"" ++ String.ofList (s.toList.flatMap escape) ++ "\""

mutual

/-- The form without spaces or line breaks. -/
def compact : Json → String
  | .null => "null"
  | .bool b => if b then "true" else "false"
  | .int n => toString n
  | .string s => quote s
  | .array xs => "[" ++ ",".intercalate (compactItems xs) ++ "]"
  | .object fs => "\x7b" ++ ",".intercalate (compactFields fs) ++ "\x7d"

def compactItems : List Json → List String
  | [] => []
  | x :: xs => x.compact :: compactItems xs

def compactFields : List (String × Json) → List String
  | [] => []
  | (key, x) :: fs => (quote key ++ ":" ++ x.compact) :: compactFields fs

end

/-- Items on lines of their own, between an opening and a closing bracket. -/
def onLines (indent opening closing : String) (items : List String) : String :=
  if items.isEmpty then opening ++ closing
  else
    let lineStart := "\n" ++ indent ++ "  "
    opening ++ lineStart ++ ("," ++ lineStart).intercalate items ++ "\n" ++ indent ++ closing

mutual

/-- The form with every item and field on a line of its own, `indent` being the indentation of the
line that the value starts on. -/
def prettyAt (indent : String) : Json → String
  | .array xs => onLines indent "[" "]" (prettyItems (indent ++ "  ") xs)
  | .object fs => onLines indent "\x7b" "\x7d" (prettyFields (indent ++ "  ") fs)
  | j => j.compact

def prettyItems (indent : String) : List Json → List String
  | [] => []
  | x :: xs => x.prettyAt indent :: prettyItems indent xs

def prettyFields (indent : String) : List (String × Json) → List String
  | [] => []
  | (key, x) :: fs => (quote key ++ ": " ++ x.prettyAt indent) :: prettyFields indent fs

end

def pretty (j : Json) : String := j.prettyAt ""

mutual

/-- How deep a value nests. -/
def depth : Json → Nat
  | .array xs => depthOfItems xs + 1
  | .object fs => depthOfFields fs + 1
  | _ => 1

def depthOfItems : List Json → Nat
  | [] => 0
  | x :: xs => max x.depth (depthOfItems xs)

def depthOfFields : List (String × Json) → Nat
  | [] => 0
  | (_, x) :: fs => max x.depth (depthOfFields fs)

end

/-! ## Access -/

/-- The value of a field. -/
def field? (j : Json) (key : String) : Option Json :=
  match j with
  | .object fs => fs.lookup key
  | _ => none

def string? : Json → Option String
  | .string s => some s
  | _ => none

def int? : Json → Option Int
  | .int n => some n
  | _ => none

def bool? : Json → Option Bool
  | .bool b => some b
  | _ => none

def array? : Json → Option (List Json)
  | .array xs => some xs
  | _ => none

end Json

end MonkeyLang
