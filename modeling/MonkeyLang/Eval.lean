import MonkeyLang.Eval.Basic
import MonkeyLang.Stack
import MonkeyLang.Value.Operator

/-! Evaluation.

The meaning of expressions and statements is defined by recursion on the tree, given a way `call`
to run functions. `Closure.callWithin` ties the knot, within a budget of nested calls: a run whose
calls nest deeper has no result.

A signal is handed back by whatever it turns up in; see `Eval.andThen`. -/

namespace MonkeyLang

/-- Calls a value that is no signal: it has to be a function of as many parameters. -/
def Value.apply (call : Closure → List Value → Eval Value) (callee : Value) (args : List Value) :
    Eval Value :=
  match callee with
  | .closure c =>
    if args.length = c.parameters.length then call c args
    else Eval.report (.error (.argumentCount c.parameters.length args.length))
  | v => Eval.report (.error (.notAFunction v.type))

section
variable (call : Closure → List Value → Eval Value)

mutual

def Expr.eval (e : Expr) (here : Place) : Eval Value := do
  Eval.note .evaluator .trace fun _ => "Evaluating expression: " ++ e.render
  match e with
  | .ident id => Eval.lookup here.scope id.name
  | .int _ n => pure (.int n)
  | .bool _ b => pure (.bool b)
  | .unary _ op e => Eval.andThen (e.eval (here.child 0)) fun v => Eval.report (applyUnary op v)
  | .binary _ l op r =>
    Eval.andThen (l.eval (here.child 0)) fun l =>
      Eval.andThen (r.eval (here.child 1)) fun r => Eval.report (applyBinary op l r)
  | .cond _ c b none =>
    Eval.andThen (c.eval (here.child 0)) fun v =>
      if v.isTruthy then b.eval (here.child 1) else pure .null
  | .cond _ c b (some a) =>
    Eval.andThen (c.eval (here.child 0)) fun v =>
      if v.isTruthy then b.eval (here.child 1) else a.eval (here.child 2)
  | .function _ ids b => pure (.closure ⟨ids, b, here.scope, here.site⟩)
  | .call _ f es =>
    Eval.andThen (f.eval (here.child 0)) fun f => do
      match ← Expr.evalEach es here 1 with
      | .ok vs => f.apply call vs
      | .error signal => pure signal

/-- The values of some expressions from left to right, or the first signal. `i` is the position of
the first of them. -/
def Expr.evalEach (es : List Expr) (here : Place) (i : Nat) : Eval (Except Value (List Value)) :=
  match es with
  | [] => pure (.ok [])
  | e :: es => do
    let v ← e.eval (here.child i)
    if v.isSignal then pure (.error v)
    else
      match ← Expr.evalEach es here (i + 1) with
      | .ok vs => pure (.ok (v :: vs))
      | .error signal => pure (.error signal)

def Stmt.eval (s : Stmt) (here : Place) : Eval Value :=
  match s with
  | .letStmt _ id e =>
    Eval.andThen (e.eval here) fun v => do
      Eval.note .evaluator .debug fun _ => "Binding '" ++ id.name ++ "' to " ++ v.render
      Eval.bind here.scope id.name v
      pure .null
  | .returnStmt _ e => Eval.andThen (e.eval here) fun v => pure (.returned v)
  | .expr _ e => e.eval here
  | .block b => b.eval here

def Block.eval (b : Block) (here : Place) : Eval Value :=
  match b with
  | ⟨_, ss⟩ => Stmt.evalAll ss here 0 .null

/-- The value of the last of some statements, or the first signal; `last` if there are none. `i` is
the position of the first of them. -/
def Stmt.evalAll (ss : List Stmt) (here : Place) (i : Nat) (last : Value) : Eval Value :=
  match ss with
  | [] => pure last
  | s :: ss => Eval.andThen (s.eval (here.child i)) (Stmt.evalAll ss here (i + 1))

end

end

/-! ## Calls -/

/-- When the bindings of a finished call are dropped. -/
inductive Release where
  /-- Never. -/
  | never
  /-- As soon as the result does not lead to the scope of the call. -/
  | whenUnreachable
deriving DecidableEq, Repr, Inhabited

/-- Drops the bindings of a call's scope, or keeps them. -/
def Closure.release (policy : Release) (c : Closure) (scope : ScopeId) (result : Value) :
    Eval Unit := do
  let heap := (← get).heap
  if policy = .whenUnreachable ∧ heap.bindingCount scope ≠ 0 ∧ !heap.reaches result scope then
    Eval.note .evaluator .trace fun _ => "Releasing call scope of " ++ c.render
    modify fun s => { s with heap := s.heap.clear scope }

/-- Binds parameters to arguments, in order. -/
def Closure.bindParameters (scope : ScopeId) : List (Identifier × Value) → Eval Unit
  | [] => pure ()
  | (id, v) :: rest => do
    Eval.note .evaluator .trace fun _ => "Binding parameter '" ++ id.name ++ "' to " ++ v.render
    Eval.bind scope id.name v
    Closure.bindParameters scope rest

/-- Runs the body of a function in a new scope within the one it was made in. Calls may nest `n`
deep. -/
def Closure.callWithin (policy : Release) : Nat → Closure → List Value → Eval Value
  | 0, _, _ => fun _ => none
  | n + 1, c, args => fun s => atLevel 256 n fun _ =>
    (do
      Eval.note .evaluator .debug fun _ => "Calling " ++ c.render
      let scope ← Eval.newScope (some c.scope)
      Closure.bindParameters scope (c.parameters.zip args)
      let result ← c.body.eval (Closure.callWithin policy n) ⟨scope, c.site⟩
      Closure.release policy c scope result.landed
      pure result.landed : Eval Value) s

/-- Evaluates the statements of a program, given a way to run functions. A `return` ends the program
with its value. -/
def Program.evalWith (call : Closure → List Value → Eval Value) (p : Program) (here : Place) :
    Eval Value := do
  Eval.note .evaluator .debug fun _ =>
    "Evaluating " ++ toString p.statements.length ++ " statement(s)"
  let v ← Stmt.evalAll call p.statements here 0 .null
  if !v.isSignal then
    Eval.note .evaluator .info fun _ => "Program evaluated to: " ++ v.render
  pure v.landed

/-- Evaluates a program whose calls nest at most `n` deep. -/
def Program.eval (n : Nat) (p : Program) (here : Place) : Eval Value :=
  p.evalWith (Closure.callWithin .whenUnreachable n) here

end MonkeyLang
