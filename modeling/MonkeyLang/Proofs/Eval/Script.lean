import Mathlib.Logic.Relation
import MonkeyLang.Proofs.Eval.Call

/-!
# What code runs, step by step

A `Script` is a computation that shows which code it runs and which functions it calls. `Code.script`
is the script of some code, one level deep, and `Code.eval_script` says that it is what the evaluator
does. `Script.Goes` is the way that a script takes from one step to a later one. There is one way
only (`Script.Goes.linear`), and whatever is met on it ends if the script does (`Script.Goes.eval`).
-/

namespace MonkeyLang

/-- A computation in steps. -/
inductive Script where
  | done (x : Eval Value)
  | note (component : Log.Component) (level : Log.Level) (message : Unit → String) (k : Script)
  | run (c : Code) (here : Place) (k : Value → Script)
  | call (c : Closure) (args : List Value) (k : Value → Script)

namespace Script

def eval (call : Closure → List Value → Eval Value) : Script → Eval Value
  | done x => x
  | note component level message k => do
    Eval.note component level message
    k.eval call
  | run c here k => do
    let v ← c.eval call here
    (k v).eval call
  | .call c args k => do
    let v ← call c args
    (k v).eval call

/-- Ends with a signal and goes on with any other value. -/
def unlessSignal (f : Value → Script) (v : Value) : Script :=
  if v.isSignal then done (pure v) else f v

/-- Runs some expressions from left to right. `i` is the position of the first of them. -/
def runEach (here : Place) : List Expr → Nat → (List Value → Script) → Script
  | [], _, k => k []
  | e :: es, i, k => run (.expr e) (here.child i) <| unlessSignal fun v =>
    runEach here es (i + 1) fun vs => k (v :: vs)

/-- Runs some statements until one of them comes to a signal. -/
def runAll (here : Place) : List Stmt → Nat → Value → (Value → Script) → Script
  | [], _, last, k => k last
  | s :: ss, i, _, k => run (.stmt s) (here.child i) fun v =>
    if v.isSignal then k v else runAll here ss (i + 1) v k

/-- Calls a value that is no signal. -/
def apply (callee : Value) (args : List Value) : Script :=
  match callee with
  | .closure c =>
    if args.length = c.parameters.length then .call c args fun v => done (pure v)
    else done (Eval.report (.error (.argumentCount c.parameters.length args.length)))
  | v => done (Eval.report (.error (.notAFunction v.type)))

end Script

open Script in
def Expr.script (e : Expr) (here : Place) : Script :=
  .note .evaluator .trace (fun _ => "Evaluating expression: " ++ e.render) <|
  match e with
  | .ident x => done (Eval.lookup here.scope x.name)
  | .int _ n => done (pure (.int n))
  | .bool _ b => done (pure (.bool b))
  | .unary _ op e =>
    run (.expr e) (here.child 0) <| unlessSignal fun v => done (Eval.report (applyUnary op v))
  | .binary _ l op r =>
    run (.expr l) (here.child 0) <| unlessSignal fun v =>
      run (.expr r) (here.child 1) <| unlessSignal fun w =>
        done (Eval.report (applyBinary op v w))
  | .cond _ c b none =>
    run (.expr c) (here.child 0) <| unlessSignal fun v =>
      if v.isTruthy then run (.block b) (here.child 1) fun v => done (pure v) else done (pure .null)
  | .cond _ c b (some a) =>
    run (.expr c) (here.child 0) <| unlessSignal fun v =>
      if v.isTruthy then run (.block b) (here.child 1) fun v => done (pure v)
      else run (.block a) (here.child 2) fun v => done (pure v)
  | .function _ xs b => done (pure (.closure ⟨xs, b, here.scope, here.site⟩))
  | .call _ f es =>
    run (.expr f) (here.child 0) <| unlessSignal fun f => runEach here es 1 (Script.apply f)

open Script in
def Stmt.script (s : Stmt) (here : Place) : Script :=
  match s with
  | .letStmt _ x e => run (.expr e) here <| unlessSignal fun v => done do
    Eval.note .evaluator .debug fun _ => "Binding '" ++ x.name ++ "' to " ++ v.render
    Eval.bind here.scope x.name v
    pure .null
  | .returnStmt _ e => run (.expr e) here <| unlessSignal fun v => done (pure (.returned v))
  | .expr _ e => run (.expr e) here fun v => done (pure v)
  | .block b => run (.block b) here fun v => done (pure v)

open Script in
/-- The steps of some code. -/
def Code.script (c : Code) (here : Place) : Script :=
  match c with
  | .expr e => e.script here
  | .stmt s => s.script here
  | .block b => runAll here b.statements 0 .null fun v => done (pure v)
  | .program p =>
    .note .evaluator .debug
      (fun _ => "Evaluating " ++ toString p.statements.length ++ " statement(s)") <|
    runAll here p.statements 0 .null fun v => done do
      if !v.isSignal then
        Eval.note .evaluator .info fun _ => "Program evaluated to: " ++ v.render
      pure v.landed

section
variable (call : Closure → List Value → Eval Value)

@[simp] theorem Script.eval_unlessSignal (f : Value → Script) (v : Value) :
    (unlessSignal f v).eval call = if v.isSignal then pure v else (f v).eval call := by
  unfold unlessSignal
  split <;> rfl

theorem Script.eval_apply (f : Value) (vs : List Value) :
    (Script.apply f vs).eval call = f.apply call vs := by
  cases f with
  | closure c =>
    rw [Script.apply, Value.apply]
    split
    · exact bind_pure _
    · rfl
  | _ => rfl

theorem Script.eval_runEach (es : List Expr) (here : Place) (i : Nat) (k : List Value → Script) :
    (runEach here es i k).eval call = Expr.evalEach call es here i >>= fun
      | .ok vs => (k vs).eval call
      | .error signal => pure signal := by
  induction es generalizing i k with
  | nil => rw [runEach, Expr.evalEach, pure_bind]
  | cons e es ih =>
    rw [runEach, Expr.evalEach]
    simp only [eval, Code.eval, bind_assoc, eval_unlessSignal, ih]
    congr 1; funext v
    split
    · rw [pure_bind]
    · rw [bind_assoc]
      congr 1; funext r
      cases r <;> rfl

theorem Script.eval_runAll (ss : List Stmt) (here : Place) (i : Nat) (last : Value)
    (k : Value → Script) :
    (runAll here ss i last k).eval call =
      Stmt.evalAll call ss here i last >>= fun v => (k v).eval call := by
  induction ss generalizing i last with
  | nil => rw [runAll, Stmt.evalAll, pure_bind]
  | cons s ss ih =>
    rw [runAll, Stmt.evalAll]
    simp only [eval, Code.eval, Eval.andThen, bind_assoc]
    congr 1; funext v
    split
    · rw [pure_bind]
    · exact ih ..

theorem Script.eval_run_done (c : Code) (here : Place) :
    (run c here fun v => done (pure v)).eval call = c.eval call here :=
  bind_pure _

theorem Expr.eval_script (e : Expr) (here : Place) :
    (e.script here).eval call = e.eval call here := by
  rw [Expr.eval.eq_def, Expr.script.eq_def]
  simp only [Script.eval]
  congr 1; funext _
  cases e with
  | ident | int | bool | function => rfl
  | unary | binary => simp only [Script.eval, Script.eval_unlessSignal]; rfl
  | cond t c b alt =>
    cases alt with
    | none | some =>
      simp only [Script.eval, Script.eval_unlessSignal, Eval.andThen]
      congr 1; funext v
      split
      · rfl
      · split <;> first | exact bind_pure _ | rfl
  | call =>
    simp only [Script.eval, Script.eval_unlessSignal, Script.eval_runEach, Script.eval_apply]; rfl

theorem Stmt.eval_script (s : Stmt) (here : Place) :
    (s.script here).eval call = s.eval call here := by
  cases s with
  | letStmt | returnStmt =>
    rw [Stmt.script, Stmt.eval]
    simp only [Script.eval, Script.eval_unlessSignal]; rfl
  | expr | block => rw [Stmt.script, Stmt.eval, Script.eval_run_done]; rfl

/-- The steps of some code are what the evaluator does. -/
theorem Code.eval_script (c : Code) (here : Place) :
    (c.script here).eval call = c.eval call here := by
  cases c with
  | expr e => exact e.eval_script call here
  | stmt s => exact s.eval_script call here
  | block b =>
    obtain ⟨t, ss⟩ := b
    rw [Code.script, Code.eval, Block.eval, Script.eval_runAll]
    exact bind_pure _
  | program p =>
    rw [Code.script, Code.eval, Script.eval, Script.eval_runAll]
    rfl

end

/-! ## What a script runs -/

namespace Script

/-- Whatever the script runs is of a kind, and so is whatever it ends with. -/
def All (P : Code → Place → Prop) (Q : Eval Value → Prop) : Script → Prop
  | done x => Q x
  | note _ _ _ k => k.All P Q
  | run c here k => P c here ∧ ∀ v, (k v).All P Q
  | .call _ _ k => ∀ v, (k v).All P Q

variable {P : Code → Place → Prop} {Q : Eval Value → Prop}

theorem All.unlessSignal {f : Value → Script} (hp : ∀ v, Q (pure v))
    (hf : ∀ v, (f v).All P Q) (v : Value) : (unlessSignal f v).All P Q := by
  unfold Script.unlessSignal
  split
  · exact hp v
  · exact hf v

theorem All.runEach {k : List Value → Script} (hp : ∀ v, Q (pure v))
    (hk : ∀ vs, (k vs).All P Q)
    (hes : ∀ j e, es[j]? = some e → P (.expr e) (here.child (i + j))) :
    (runEach here es i k).All P Q := by
  induction es generalizing i k with
  | nil => exact hk []
  | cons e es ih =>
    refine ⟨hes 0 e rfl, All.unlessSignal hp fun v => ih (fun vs => hk (v :: vs)) fun j e he => ?_⟩
    rw [Nat.add_right_comm]
    exact hes (j + 1) e he

theorem All.runAll {k : Value → Script} (hk : ∀ v, (k v).All P Q)
    (hss : ∀ j s, ss[j]? = some s → P (.stmt s) (here.child (i + j))) (last : Value) :
    (runAll here ss i last k).All P Q := by
  induction ss generalizing i last with
  | nil => exact hk last
  | cons s ss ih =>
    refine ⟨hss 0 s rfl, fun v => ?_⟩
    dsimp only
    split
    · exact hk v
    · refine ih (fun j s hs => ?_) v
      rw [Nat.add_right_comm]
      exact hss (j + 1) s hs

end Script

/-- A computation that removes no scope. -/
def Eval.Grows (x : Eval α) : Prop := ∀ s a t, x s = some (a, t) → s.heap.size ≤ t.heap.size

theorem Eval.Quiet.grows {x : Eval α} (h : Quiet x f) : Grows x := by
  intro s a t ht
  obtain ⟨u, hu, hh⟩ := h s
  cases ht.symm.trans hu
  exact Nat.le_of_eq (congrArg Heap.size hh).symm

/-- Code runs its children, and what it does after them removes no scope. -/
theorem Code.script_all (c : Code) (here : Place) :
    (c.script here).All (fun d p => ∃ i, c.Child i d ∧ p = ⟨here.scope, here.site.descend i⟩)
      Eval.Grows := by
  have hpure : ∀ v : Value, Eval.Grows (pure v : Eval Value) := fun v => (Eval.quiet_pure v).grows
  cases c with
  | expr e =>
    cases e with
    | ident => exact (Eval.quiet_lookup _ _).grows
    | int | bool | function => exact hpure _
    | unary =>
      exact ⟨⟨_, .unary, rfl⟩, .unlessSignal hpure fun v => (Eval.quiet_report _).grows⟩
    | binary =>
      exact ⟨⟨_, .left, rfl⟩, .unlessSignal hpure fun v => ⟨⟨_, .right, rfl⟩,
        .unlessSignal hpure fun w => (Eval.quiet_report _).grows⟩⟩
    | cond t e b alt =>
      cases alt with
      | none =>
        refine ⟨⟨_, .condition, rfl⟩, .unlessSignal hpure fun v => ?_⟩
        split
        · exact ⟨⟨_, .consequence, rfl⟩, hpure⟩
        · exact hpure _
      | some a =>
        refine ⟨⟨_, .condition, rfl⟩, .unlessSignal hpure fun v => ?_⟩
        split
        · exact ⟨⟨_, .consequence, rfl⟩, hpure⟩
        · exact ⟨⟨_, .alternative, rfl⟩, hpure⟩
    | call t f es =>
      refine ⟨⟨_, .callee, rfl⟩, .unlessSignal hpure fun f => .runEach hpure (fun vs => ?_) ?_⟩
      · unfold Script.apply
        split
        · split
          · exact hpure
          · exact (Eval.quiet_report _).grows
        · exact (Eval.quiet_report _).grows
      · intro j e he
        refine ⟨_, .argument he, ?_⟩
        rw [Nat.add_comm]
        rfl
  | stmt s =>
    cases s with
    | letStmt t x e =>
      refine ⟨⟨_, .letValue, rfl⟩, .unlessSignal hpure fun v s w t ht => ?_⟩
      cases ht
      exact Nat.le_of_eq (Heap.size_set ..).symm
    | returnStmt => exact ⟨⟨_, .returnValue, rfl⟩, .unlessSignal hpure fun v => hpure _⟩
    | expr => exact ⟨⟨_, .exprValue, rfl⟩, hpure⟩
    | block => exact ⟨⟨_, .blockBody, rfl⟩, hpure⟩
  | block b =>
    obtain ⟨t, ss⟩ := b
    refine .runAll (fun v => ?_) (fun j s hs => ⟨_, .statement hs, ?_⟩) _
    · exact hpure v
    · rw [Nat.zero_add]
      rfl
  | program p =>
    refine .runAll (fun v => ?_) (fun j s hs => ⟨_, .programStatement hs, ?_⟩) _
    · split
      · exact (Eval.Quiet.bind (Eval.quiet_note _ _ _) fun _ => Eval.quiet_pure _).grows
      · exact (Eval.Quiet.bind (Eval.quiet_pure ()) fun _ => Eval.quiet_pure _).grows
    · rw [Nat.zero_add]
      rfl

/-! ## The way of a script -/

namespace Script

/-- A step of a script. -/
inductive Step (call : Closure → List Value → Eval Value) : Script × Store → Script × Store → Prop
  | note : Eval.note component level message s = some ((), t) →
    Step call (.note component level message k, s) (k, t)
  | run : c.eval call here s = some (v, t) → Step call (.run c here k, s) (k v, t)
  | call : call c args s = some (v, t) → Step call (.call c args k, s) (k v, t)

/-- Any number of steps. -/
abbrev Goes (call : Closure → List Value → Eval Value) : Script × Store → Script × Store → Prop :=
  Relation.ReflTransGen (Step call)

variable {call : Closure → List Value → Eval Value}

theorem Step.unique (h : Step call a b) (h' : Step call a c) : b = c := by
  cases h <;> cases h' <;> simp_all

/-- Of two points on the way of a script one comes first. -/
theorem Goes.linear (h : Goes call a b) (h' : Goes call a c) : Goes call b c ∨ Goes call c b :=
  h.total_of_right_unique (fun _ _ _ => Step.unique) h'

theorem Step.eval (h : Step call a b) : a.1.eval call a.2 = b.1.eval call b.2 := by
  cases h with
  | note h | run h | call h => rw [Script.eval, Eval.bind_apply, h, Option.bind_some]

/-- The rest of the way comes to what the whole comes to. -/
theorem Goes.eval (h : Goes call a b) : a.1.eval call a.2 = b.1.eval call b.2 := by
  induction h with
  | refl => rfl
  | tail _ h ih => exact ih.trans h.eval

/-- The way of some statements leads through the end of each. -/
theorem Goes.runAll {t : Store} (h : Stmt.evalAll call (ss.take i) here j last s = some (v, t)) :
    ∃ k', Goes call (Script.runAll here ss j last k, s) (k', t) := by
  induction ss generalizing i j last s with
  | nil =>
    rw [List.take_nil, Stmt.evalAll] at h
    cases h
    exact ⟨_, .refl⟩
  | cons st ss ih =>
    cases i with
    | zero =>
      rw [List.take_zero, Stmt.evalAll] at h
      cases h
      exact ⟨_, .refl⟩
    | succ i =>
      rw [List.take_succ_cons, Stmt.evalAll] at h
      obtain ⟨⟨w, u⟩, hw, h⟩ := Option.bind_eq_some_iff.mp h
      have hstep : Step call (Script.runAll here (st :: ss) j last k, s) _ := .run hw
      dsimp only at h hstep
      split at h
      · next hs =>
        cases h
        exact ⟨_, .single hstep⟩
      · next hs =>
        rw [if_neg hs] at hstep
        obtain ⟨k', hk⟩ := ih h
        exact ⟨k', .head hstep hk⟩

theorem Step.all (h : Step call a b) (ha : a.1.All P Q) : b.1.All P Q := by
  cases h with
  | note => exact ha
  | run => exact ha.2 _
  | call => exact ha _

theorem Goes.all (h : Goes call a b) (ha : a.1.All P Q) : b.1.All P Q := by
  induction h with
  | refl => exact ha
  | tail _ h ih => exact h.all ih

end Script

end MonkeyLang
