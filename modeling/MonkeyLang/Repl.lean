import MonkeyLang.Session
import MonkeyLang.Text.Lines

/-! The interactive loop: a prompt, a line, what came of it; until the input ends. -/

namespace MonkeyLang

/-- A session with the scope that its lines run in. -/
structure Repl where
  session : Session
  scope : ScopeId
deriving Inhabited

namespace Repl

def prompt : String := ">> "

/-- What a host prints before the loop. -/
def banner : String := "Monkey interpreter; type expressions, Ctrl-D to exit.\n"

def note (level : Log.Level) (message : Unit → String) (s : Session) : Session :=
  { s with store := { s.store with log := s.store.log.record level .repl message } }

/-- A loop in a new scope of a session. -/
def start (s : Session) : Repl :=
  let (scope, s) := (note .info (fun _ => "REPL started") s).newScope
  ⟨s, scope⟩

/-- What is printed for the outcome of a line: the value, or the parse errors. -/
def report : Outcome → String
  | .ok v => v.render ++ "\n"
  | .error (.parse messages) => String.join (messages.map fun m => "\t" ++ m ++ "\n")
  | .error f => f.message ++ "\n"

/-- Runs one line, with calls nested at most `n` deep. -/
def line (n : Nat) (source : String) (r : Repl) : Option (String × Repl) := do
  let s := note .debug (fun _ => "REPL line: " ++ source) r.session
  let (outcome, s) ← s.run n r.scope source
  pure (report outcome, { r with session := s })

/-- The fault of a line that is not UTF-8. -/
def notText : Failure := .io "stream did not contain valid UTF-8"

/-- Runs lines until one is not UTF-8. Gives what is printed after the output `out`, and the fault
that ended the loop. -/
def lines (n : Nat) (out : String) :
    List (List UInt8) → Repl → Option (String × Option Failure × Repl)
  | [], r =>
    let session := note .info (fun _ => "REPL finished") r.session
    some (out ++ prompt, none, { r with session })
  | l :: ls, r =>
    match String.fromUTF8? ⟨l.toArray⟩ with
    | none => some (out ++ prompt, some notText, r)
    | some source =>
      match line n source r with
      | none => none
      | some (printed, r) => lines n (out ++ prompt ++ printed) ls r

/-- Runs a whole input in a session. -/
def run (n : Nat) (input : ByteArray) (s : Session) :
    Option (String × Option Failure × Session) :=
  (lines n "" (Text.lines input.data.toList) (start s)).map fun (out, fault, r) =>
    (out, fault, r.session)

end Repl

end MonkeyLang
