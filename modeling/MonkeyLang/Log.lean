/-! The log: what the library reports about its own work, in order, up to a level of detail. A
message is only made if it is kept. -/

namespace MonkeyLang

namespace Log

/-- How much detail: each level includes those before it. -/
inductive Level where
  | off | warn | info | debug | trace
deriving DecidableEq, Repr, Inhabited

namespace Level

def rank : Level → Nat
  | off => 0 | warn => 1 | info => 2 | debug => 3 | trace => 4

def name : Level → String
  | off => "OFF" | warn => "WARN" | info => "INFO" | debug => "DEBUG" | trace => "TRACE"

/-- The level with a given name in lower case. -/
def ofName? (s : String) : Option Level :=
  [("off", off), ("warn", warn), ("info", info), ("debug", debug), ("trace", trace)].lookup s

end Level

/-- The part of the library that an entry comes from. -/
inductive Component where
  | token | lexer | parser | evaluator | environment | error | repl
deriving DecidableEq, Repr, Inhabited

def Component.name : Component → String
  | token => "token" | lexer => "lexer" | parser => "parser" | evaluator => "evaluator"
  | environment => "environment" | error => "error" | repl => "repl"

structure Entry where
  level : Level
  component : Component
  message : String
deriving DecidableEq, Repr, Inhabited

end Log

/-- The entries so far, oldest first, and the most detailed level that is kept. -/
structure Log where
  level : Log.Level := .off
  entries : Array Log.Entry := #[]
deriving Repr, Inhabited

namespace Log

@[inline] def record (log : Log) (level : Level) (component : Component)
    (message : Unit → String) : Log :=
  if level.rank ≤ log.level.rank then
    { log with entries := log.entries.push ⟨level, component, message ()⟩ }
  else log

end Log

end MonkeyLang
