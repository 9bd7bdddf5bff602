import MonkeyLang.Eval
import MonkeyLang.Parser
import MonkeyLang.Text.Utf8

/-! Sessions: texts that are run one after the other, in scopes that last. -/

namespace MonkeyLang

/-- Why a text was not run. -/
inductive Failure where
  /-- The text did not parse. -/
  | parse (messages : List String)
  | io (message : String)
  /-- The text is not UTF-8. -/
  | utf8 (e : Text.Utf8Error)
deriving DecidableEq, Repr, Inhabited

def Failure.message : Failure → String
  | parse messages => "\n".intercalate messages
  | io message => message
  | utf8 e => e.message

/-- What came of running a text. An evaluation that ended in an error has that error as its
value. -/
abbrev Outcome := Except Failure Value

/-- The exit status of a process that ran one text. -/
def Outcome.exitCode : Outcome → Nat
  | .ok (.error _) => 70
  | .ok _ => 0
  | .error (.parse _) => 65
  | .error _ => 1

/-- The store, and the number of texts read so far. -/
structure Session where
  store : Store := {}
  texts : Nat := 0
deriving Inhabited

namespace Session

/-- A session without scopes that logs up to a level. -/
def ofLevel (level : Log.Level) : Session := { store := { log := { level } } }

/-- Makes a scope, within another one or at the top. -/
def newScope (s : Session) (outer : Option ScopeId := none) : ScopeId × Session :=
  (s.store.heap.size,
    { s with store := { s.store with heap := s.store.heap.push { outer } } })

/-- Runs a computation on the store. -/
def eval {α : Type} (s : Session) (x : Eval α) : Option (α × Session) :=
  let ⟨store, texts⟩ := s
  (x store).map fun (a, store) => (a, ⟨store, texts⟩)

/-- Counts a text and gives the site of its root. -/
def newText (s : Session) : Site × Session := ({ text := s.texts }, { s with texts := s.texts + 1 })

/-- Parses a text. -/
def parse (s : Session) (source : String) : Except Failure Program × Session :=
  let (program, p) := (Parser.ofLexer (.ofString source) s.store.log).program
  if p.errors.isEmpty then (.ok program, { s with store := { s.store with log := p.log } })
  else
    let messages := p.errors.toList.map (·.message)
    let log := p.log.record .info .error fun _ =>
      "Creating Parse error with " ++ toString messages.length ++ " message(s)"
    (.error (.parse messages), { s with store := { s.store with log } })

/-- Runs a text in a scope, with calls nested at most `n` deep. -/
def run (n : Nat) (scope : ScopeId) (source : String) (s : Session) : Option (Outcome × Session) :=
  match s.parse source with
  | (.error e, s) => some (.error e, s)
  | (.ok program, s) =>
    let (site, s) := s.newText
    (s.eval (program.eval n ⟨scope, site⟩)).map fun (v, s) => (.ok v, s)

end Session

/-- A nesting of calls that no machine has room for. -/
def callLimit : Nat := 1000000000000

end MonkeyLang
