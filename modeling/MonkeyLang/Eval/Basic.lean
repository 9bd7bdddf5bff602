import MonkeyLang.Heap
import MonkeyLang.Log

/-! Computations on a store: the heap of scopes and the log. -/

namespace MonkeyLang

/-- What evaluation changes. -/
structure Store where
  heap : Heap := {}
  log : Log := {}
deriving Inhabited

/-- A computation that may change the store. It has no result if its calls nest too deep. -/
abbrev Eval := StateT Store Option

/-- Where code runs: the current scope, and the site of the code. -/
structure Place where
  scope : ScopeId
  site : Site
deriving DecidableEq, Repr, Inhabited

/-- The place of a child of the code, in the same scope. -/
def Place.child (here : Place) (i : Nat) : Place := { here with site := here.site.child i }

namespace Eval

@[inline] def note (component : Log.Component) (level : Log.Level) (message : Unit → String) :
    Eval Unit :=
  modify fun s => { s with log := s.log.record level component message }

/-- A value that evaluation itself came to; an error is reported. -/
def report (v : Value) : Eval Value := do
  if let .error e := v then note .evaluator .debug fun _ => "Evaluation error: " ++ e.message
  pure v

/-- Goes on with the value of a computation, unless it is a signal. -/
@[inline] def andThen (x : Eval Value) (f : Value → Eval Value) : Eval Value := do
  let v ← x
  if v.isSignal then pure v else f v

/-- Reports the scopes that a lookup leaves. -/
def noteHops (scope : ScopeId) (name : String) : Eval Unit :=
  modify fun s =>
    if s.log.level = .trace then
      { s with
        log := (s.heap.hops scope name).repeat
          (·.record .trace .environment fun _ =>
            "'" ++ name ++ "' not local, searching enclosing scope")
          s.log }
    else s

/-- The value of a name, looked up from a scope outward. -/
def lookup (scope : ScopeId) (name : String) : Eval Value := do
  noteHops scope name
  match (← get).heap.lookup scope name with
  | some v => pure v
  | none => report (.error (.identifierNotFound name))

def bind (scope : ScopeId) (name : String) (v : Value) : Eval Unit :=
  modify fun s => { s with heap := s.heap.set scope name v }

/-- Makes a scope. -/
def newScope (outer : Option ScopeId) : Eval ScopeId :=
  modifyGet fun s => (s.heap.size, { s with heap := s.heap.push { outer } })

end Eval

end MonkeyLang
