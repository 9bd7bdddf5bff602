import MonkeyLang.Parser
import MonkeyLang.Proofs.Eval.Frame

/-!
# An interpreter with a current scope

The evaluator is told for each piece of code in which scope to run it. An `Interpreter` keeps the
current scope beside the store instead: a call switches to the scope that it makes, and switches back
when the body has come to a value, whatever that is. The two do the same (`Interpreter.tracks_code`),
so the switching is never seen from outside: whenever code ends, the scope that was current before is
current again.

`Interpreter.frame_law` puts this together with what `frame` says of the heap.
-/

namespace MonkeyLang

/-- The scope that code runs in now, and the store. -/
structure Interpreter where
  current : ScopeId
  store : Store

namespace Interpreter

/-- A computation that may switch the current scope. -/
abbrev Run := StateT Interpreter Option

/-- A computation on the store, in the current scope. -/
def here (x : ScopeId → Eval α) : Run α := fun i =>
  (x i.current i.store).map fun (a, store) => (a, { i with store })

/-- Makes a scope the current one, and gives the one before. -/
def switch (scope : ScopeId) : Run ScopeId := fun i => some (i.current, { i with current := scope })

/-- Runs a computation in another scope, and switches back. -/
def within (scope : ScopeId) (x : Run α) : Run α := do
  let saved ← switch scope
  let a ← x
  let _ ← switch saved
  pure a

/-- Goes on with the value of a computation, unless it is a signal. -/
def andThen (x : Run Value) (f : Value → Run Value) : Run Value := do
  let v ← x
  if v.isSignal then pure v else f v

section
variable (call : Closure → List Value → Run Value)

/-- Calls a value that is no signal. -/
def apply (callee : Value) (args : List Value) : Run Value :=
  match callee with
  | .closure c =>
    if args.length = c.parameters.length then call c args
    else here fun _ => Eval.report (.error (.argumentCount c.parameters.length args.length))
  | v => here fun _ => Eval.report (.error (.notAFunction v.type))

mutual

def expr (e : Expr) (σ : Site) : Run Value := do
  here fun _ => Eval.note .evaluator .trace fun _ => "Evaluating expression: " ++ e.render
  match e with
  | .ident id => here fun scope => Eval.lookup scope id.name
  | .int _ n => pure (.int n)
  | .bool _ b => pure (.bool b)
  | .unary _ op e => andThen (expr e (σ.child 0)) fun v => here fun _ => Eval.report (applyUnary op v)
  | .binary _ l op r =>
    andThen (expr l (σ.child 0)) fun l =>
      andThen (expr r (σ.child 1)) fun r => here fun _ => Eval.report (applyBinary op l r)
  | .cond _ c b none =>
    andThen (expr c (σ.child 0)) fun v =>
      if v.isTruthy then block b (σ.child 1) else pure .null
  | .cond _ c b (some a) =>
    andThen (expr c (σ.child 0)) fun v =>
      if v.isTruthy then block b (σ.child 1) else block a (σ.child 2)
  | .function _ ids b => here fun scope => pure (.closure ⟨ids, b, scope, σ⟩)
  | .call _ f es =>
    andThen (expr f (σ.child 0)) fun f => do
      match ← arguments es σ 1 with
      | .ok vs => apply call f vs
      | .error signal => pure signal

def arguments (es : List Expr) (σ : Site) (i : Nat) : Run (Except Value (List Value)) :=
  match es with
  | [] => pure (.ok [])
  | e :: es => do
    let v ← expr e (σ.child i)
    if v.isSignal then pure (.error v)
    else
      match ← arguments es σ (i + 1) with
      | .ok vs => pure (.ok (v :: vs))
      | .error signal => pure (.error signal)

def stmt (s : Stmt) (σ : Site) : Run Value :=
  match s with
  | .letStmt _ id e =>
    andThen (expr e σ) fun v => here fun scope => do
      Eval.note .evaluator .debug fun _ => "Binding '" ++ id.name ++ "' to " ++ v.render
      Eval.bind scope id.name v
      pure .null
  | .returnStmt _ e => andThen (expr e σ) fun v => pure (.returned v)
  | .expr _ e => expr e σ
  | .block b => block b σ

def block (b : Block) (σ : Site) : Run Value :=
  match b with
  | ⟨_, ss⟩ => statements ss σ 0 .null

def statements (ss : List Stmt) (σ : Site) (i : Nat) (last : Value) : Run Value :=
  match ss with
  | [] => pure last
  | s :: ss => andThen (stmt s (σ.child i)) (statements ss σ (i + 1))

end

def program (p : Program) (σ : Site) : Run Value := do
  here fun _ => Eval.note .evaluator .debug fun _ =>
    "Evaluating " ++ toString p.statements.length ++ " statement(s)"
  let v ← statements call p.statements σ 0 .null
  here fun _ => do
    if !v.isSignal then
      Eval.note .evaluator .info fun _ => "Program evaluated to: " ++ v.render
    pure v.landed

/-- Evaluates some code in the current scope. -/
def code : Code → Site → Run Value
  | .expr e, σ => expr call e σ
  | .stmt s, σ => stmt call s σ
  | .block b, σ => block call b σ
  | .program p, σ => program call p σ

end

/-- Runs the body of a function in a scope of its own. Calls may nest `n` deep. -/
def callWithin (policy : Release) : Nat → Closure → List Value → Run Value
  | 0, _, _ => fun _ => none
  | n + 1, c, args => do
    let scope ← here fun _ => c.entry args
    let result ← within scope (block (callWithin policy n) c.body c.site)
    here fun _ => do
      Closure.release policy c scope result.landed
      pure result.landed

/-! ## The scope is restored -/

/-- The computation does what the other does in the current scope, which is current again after it. -/
def Tracks (x : Run α) (y : ScopeId → Eval α) : Prop :=
  ∀ i, x i = (y i.current i.store).map fun (a, store) => (a, { i with store })

theorem tracks_here (y : ScopeId → Eval α) : Tracks (here y) y := fun _ => rfl

theorem tracks_pure (a : α) : Tracks (pure a) fun _ => pure a := fun _ => rfl

theorem Tracks.bind {x : Run α} {f : α → Run β} {g : α → ScopeId → Eval β} (hx : Tracks x y)
    (hf : ∀ a, Tracks (f a) (g a)) : Tracks (x >>= f) fun scope => y scope >>= fun a => g a scope := by
  intro i
  show (x i).bind _ = ((y i.current i.store).bind _).map _
  rw [hx]
  cases y i.current i.store with
  | none => rfl
  | some r => exact hf r.1 { i with store := r.2 }

theorem Tracks.ite [Decidable p] {x x' : Run α} (hx : Tracks x y) (hx' : Tracks x' y') :
    Tracks (if p then x else x') fun scope => if p then y scope else y' scope := by
  split
  · exact hx
  · exact hx'

theorem Tracks.within {x : Run α} (hx : Tracks x y) (scope : ScopeId) :
    Tracks (Interpreter.within scope x) fun _ => y scope := by
  intro i
  show (x { i with current := scope }).bind _ = (y scope i.store).map _
  rw [hx]
  dsimp only
  cases y scope i.store <;> rfl

theorem Tracks.andThen {x : Run Value} {f : Value → Run Value} {g : Value → ScopeId → Eval Value}
    (hx : Tracks x y) (hf : ∀ v, Tracks (f v) (g v)) :
    Tracks (Interpreter.andThen x f) fun scope => Eval.andThen (y scope) fun v => g v scope :=
  hx.bind fun v => (tracks_pure v).ite (hf v)

section
variable {call : Closure → List Value → Run Value} {call' : Closure → List Value → Eval Value}

theorem tracks_apply (hcall : ∀ c args, Tracks (call c args) fun _ => call' c args) (f : Value)
    (vs : List Value) :
    Tracks (apply call f vs) fun _ => f.apply call' vs := by
  cases f with
  | closure c => exact (hcall c vs).ite (tracks_here _)
  | _ => exact tracks_here fun _ => Eval.report _

mutual

theorem tracks_expr (hcall : ∀ c args, Tracks (call c args) fun _ => call' c args) (e : Expr)
    (σ : Site) :
    Tracks (expr call e σ) fun scope => e.eval call' ⟨scope, σ⟩ := by
  rw [expr.eq_def]
  rw [show (fun scope => e.eval call' ⟨scope, σ⟩) = _ from
    funext fun scope => Expr.eval.eq_def call' e ⟨scope, σ⟩]
  refine (tracks_here _).bind fun _ => ?_
  match e with
  | .ident x => exact tracks_here _
  | .int .. | .bool .. => exact tracks_pure _
  | .unary _ op e => exact (tracks_expr hcall e _).andThen fun v => tracks_here _
  | .binary _ l op r =>
    exact (tracks_expr hcall l _).andThen fun v => (tracks_expr hcall r _).andThen fun w => tracks_here _
  | .cond _ c b none =>
    exact (tracks_expr hcall c _).andThen fun v => (tracks_block hcall b _).ite (tracks_pure _)
  | .cond _ c b (some a) =>
    exact (tracks_expr hcall c _).andThen fun v => (tracks_block hcall b _).ite (tracks_block hcall a _)
  | .function _ xs b => exact tracks_here _
  | .call _ f es =>
    refine (tracks_expr hcall f _).andThen fun f => (tracks_arguments hcall es σ 1).bind fun r => ?_
    cases r with
    | ok vs => exact tracks_apply hcall f vs
    | error v => exact tracks_pure v

theorem tracks_arguments (hcall : ∀ c args, Tracks (call c args) fun _ => call' c args)
    (es : List Expr) (σ : Site) (i : Nat) :
    Tracks (arguments call es σ i) fun scope => Expr.evalEach call' es ⟨scope, σ⟩ i := by
  match es with
  | [] => simp only [arguments, Expr.evalEach]; exact tracks_pure _
  | e :: es =>
    simp only [arguments, Expr.evalEach]
    refine (tracks_expr hcall e _).bind fun v => (tracks_pure _).ite ?_
    refine (tracks_arguments hcall es σ (i + 1)).bind fun r => ?_
    cases r <;> exact tracks_pure _

theorem tracks_stmt (hcall : ∀ c args, Tracks (call c args) fun _ => call' c args) (s : Stmt)
    (σ : Site) :
    Tracks (stmt call s σ) fun scope => s.eval call' ⟨scope, σ⟩ := by
  match s with
  | .letStmt _ x e =>
    simp only [stmt, Stmt.eval]
    exact (tracks_expr hcall e σ).andThen fun v => tracks_here _
  | .returnStmt _ e =>
    simp only [stmt, Stmt.eval]
    exact (tracks_expr hcall e σ).andThen fun v => tracks_pure _
  | .expr _ e => simp only [stmt, Stmt.eval]; exact tracks_expr hcall e σ
  | .block b => simp only [stmt, Stmt.eval]; exact tracks_block hcall b σ

theorem tracks_block (hcall : ∀ c args, Tracks (call c args) fun _ => call' c args) (b : Block)
    (σ : Site) :
    Tracks (block call b σ) fun scope => b.eval call' ⟨scope, σ⟩ := by
  match b with
  | ⟨_, ss⟩ => simp only [block, Block.eval]; exact tracks_statements hcall ss σ 0 .null

theorem tracks_statements (hcall : ∀ c args, Tracks (call c args) fun _ => call' c args)
    (ss : List Stmt) (σ : Site) (i : Nat) (last : Value) :
    Tracks (statements call ss σ i last) fun scope => Stmt.evalAll call' ss ⟨scope, σ⟩ i last := by
  match ss with
  | [] => simp only [statements, Stmt.evalAll]; exact tracks_pure _
  | s :: ss =>
    simp only [statements, Stmt.evalAll]
    exact (tracks_stmt hcall s _).andThen fun v => tracks_statements hcall ss σ (i + 1) v

end

/-- Interpreting code is evaluating it in the current scope. -/
theorem tracks_code (hcall : ∀ c args, Tracks (call c args) fun _ => call' c args) (c : Code)
    (σ : Site) :
    Tracks (code call c σ) fun scope => c.eval call' ⟨scope, σ⟩ := by
  cases c with
  | expr e => exact tracks_expr hcall e σ
  | stmt s => exact tracks_stmt hcall s σ
  | block b => exact tracks_block hcall b σ
  | program p =>
    exact (tracks_here _).bind fun _ =>
      (tracks_statements hcall p.statements σ 0 .null).bind fun v => tracks_here _

end

theorem tracks_callWithin (policy : Release) (n : Nat) (c : Closure) (args : List Value) :
    Tracks (callWithin policy n c args) fun _ => Closure.callWithin policy n c args := by
  induction n generalizing c args with
  | zero => exact fun _ => rfl
  | succ n ih =>
    rw [Closure.callWithin_eq]
    exact (tracks_here _).bind fun scope =>
      ((tracks_block ih c.body c.site).within scope).bind fun v => tracks_here _

end Interpreter

/-! ## The frame law -/

/-- The scopes of a heap are all as they were; there may be new ones. -/
structure Heap.Extends (h h' : Heap) : Prop where
  size_le : h.size ≤ h'.size
  scope? : ∀ a < h.size, h'.scope? a = h.scope? a

theorem Heap.Extends.refl (h : Heap) : h.Extends h := ⟨Nat.le_refl _, fun _ _ => rfl⟩

theorem Heap.Extends.trans {h h' h'' : Heap} (hext : h.Extends h') (hext' : h'.Extends h'') :
    h.Extends h'' :=
  ⟨Nat.le_trans hext.size_le hext'.size_le, fun a ha =>
    (hext'.scope? a (Nat.lt_of_lt_of_le ha hext.size_le)).trans (hext.scope? a ha)⟩

/-- What evaluation keeps if the code binds nothing: all scopes. -/
def still (E : ScopeId) (b : ScopeId) : Invariant E :=
  { frame E (fun _ => False) b with
    Later := Heap.Extends
    refl := Heap.Extends.refl
    trans := Heap.Extends.trans
    mono := fun h hv => ⟨fun c hc => Nat.lt_of_lt_of_le (hv.1 c hc) h.size_le, hv.2⟩
    bind := fun hc _ _ _ => (hc _ ⟨_, _, _, .refl, rfl⟩).elim }

theorem still_calls (policy : Release) (n : Nat) :
    (still E b).Calls (Closure.callWithin policy n) := by
  intro c args s hh hc hargs _ v t ht
  obtain ⟨hsize, hold, hres⟩ :=
    callWithin_frame (X := fun _ => False) policy n hh hc hargs ht
  exact ⟨⟨hsize, hold⟩, hres⟩

/-- Code that binds nothing changes no scope. -/
theorem Code.extends_of_not_binds (policy : Release) (n : Nat) {c : Code} {s t : Store}
    (hs : s.heap.Closed) (hE : E < s.heap.size) (hnone : ∀ x, ¬c.Binds x)
    (h : c.eval (Closure.callWithin policy n) ⟨E, σ⟩ s = some (v, t)) : s.heap.Extends t.heap :=
  (Invariant.keeps (Closure.logFree_callWithin policy n) (still_calls policy n)
    ⟨hE, hs, hs.sealedBelow⟩ hnone (fun _ _ => frame_landed (E := E) (X := fun _ => False)) v t h).1

/-- Applying a value to others changes no scope, whether or not it can be called. -/
theorem Value.extends_of_apply {f : Value} {s t : Store} (hf : (frame E X b).value s.heap f)
    (hargs : ∀ v ∈ args, (frame E X b).value s.heap v ∧ v.isSignal = false)
    (hs : (frame E X b).heap s.heap)
    (h : f.apply (Closure.callWithin policy n) args s = some (v, t)) : s.heap.Extends t.heap := by
  rcases Value.apply_elim h with ⟨c, rfl, -, hcall⟩ | ⟨e, -, hheap⟩
  · obtain ⟨hsize, hold, -⟩ := callWithin_frame policy n hs hf hargs hcall
    exact ⟨hsize, hold⟩
  · exact ⟨Nat.le_of_eq (congrArg Heap.size hheap.symm), fun a _ => congrArg (·.scope? a) hheap⟩

/-- Evaluation in the scope `E` changes the bindings of no other scope that existed before, and no
outer link; in `E` it keeps every name and binds only those of the code's own `let` statements. If
there are none, and also if a function is applied, every scope stays as it was. Whatever the outcome,
the current scope is `E` again. -/
theorem Interpreter.frame_law (policy : Release) (n : Nat) {s : Store} (hs : s.heap.Closed)
    (hE : E < s.heap.size) :
    (∀ c σ v t, Code.eval (Closure.callWithin policy n) c ⟨E, σ⟩ s = some (v, t) →
      code (callWithin policy n) c σ ⟨E, s⟩ = some (v, ⟨E, t⟩) ∧
        s.heap.Grows E c.Binds t.heap ∧ ((∀ x, ¬c.Binds x) → s.heap.Extends t.heap)) ∧
    ∀ f args v t, (∀ w ∈ f :: args, ∀ a, w.scope? = some a → a < s.heap.size) →
      (∀ w ∈ f :: args, w.isSignal = false) →
      Value.apply (Closure.callWithin policy n) f args s = some (v, t) →
      apply (callWithin policy n) f args ⟨E, s⟩ = some (v, ⟨E, t⟩) ∧ s.heap.Extends t.heap := by
  have htracks := tracks_callWithin policy n
  have hlog := Closure.logFree_callWithin policy n
  refine ⟨fun c σ v t h => ⟨?_, ?_, fun hnone => ?_⟩, fun f args v t hlt hsig h => ⟨?_, ?_⟩⟩
  · exact (tracks_code htracks c σ ⟨E, s⟩).trans (congrArg _ h)
  · exact (Invariant.keeps hlog (frame_calls policy n) ⟨hE, hs, hs.sealedBelow⟩ (fun _ hx => hx)
      (fun _ _ => frame_landed) v t h).1
  · exact c.extends_of_not_binds policy n hs hE hnone h
  · exact (tracks_apply htracks f args ⟨E, s⟩).trans (congrArg _ h)
  · have hval : ∀ w ∈ f :: args, (frame E (fun _ => True) s.heap.size).value s.heap w := by
      refine fun w hw => ⟨hlt w hw, ?_⟩
      rintro _ _ rfl
      cases hsig _ hw
    exact Value.extends_of_apply (hval f List.mem_cons_self)
      (fun w hw => ⟨hval w (List.mem_cons_of_mem f hw), hsig w (List.mem_cons_of_mem f hw)⟩)
      ⟨hE, hs, hs.sealedBelow⟩ h

/-- A call that fails after it has bound `b` and `c` in its own scope. -/
def failingCall : Code := .program (parse "let a = 2; fn(b) \x7b let c = b; c + true \x7d(a)").1

/-- The function that it calls. -/
def failingFunction : Value :=
  match failingCall with
  | .program ⟨[_, .expr _ (.call _ (.function _ xs b) _)]⟩ => .closure ⟨xs, b, 0, ⟨0, []⟩⟩
  | _ => .null

theorem Interpreter.frame_law_failingCall :
    (∃ e t, failingCall.eval (Closure.callWithin .whenUnreachable 1) ⟨0, ⟨0, []⟩⟩
        ⟨Heap.push {} {}, {}⟩ = some (.error e, t) ∧
      code (callWithin .whenUnreachable 1) failingCall ⟨0, []⟩ ⟨0, ⟨Heap.push {} {}, {}⟩⟩ =
        some (.error e, ⟨0, t⟩) ∧
      (Heap.push {} {}).Grows 0 failingCall.Binds t.heap) ∧
    ∃ e t, failingFunction.apply (Closure.callWithin .whenUnreachable 1) [.int 2]
        ⟨Heap.push {} {}, {}⟩ = some (.error e, t) ∧
      apply (callWithin .whenUnreachable 1) failingFunction [.int 2] ⟨0, ⟨Heap.push {} {}, {}⟩⟩ =
        some (.error e, ⟨0, t⟩) ∧
      (Heap.push {} {}).Extends t.heap := by
  have hlaw := frame_law (E := 0) .whenUnreachable 1 (s := ⟨Heap.push {} {}, {}⟩)
    Heap.closed_empty.push (by decide)
  constructor
  · have hrun : (failingCall.eval (Closure.callWithin .whenUnreachable 1) ⟨0, ⟨0, []⟩⟩
        ⟨Heap.push {} {}, {}⟩).map (·.1.isError) = some true := by decide +kernel
    obtain ⟨⟨v, t⟩, h, hv⟩ := Option.map_eq_some_iff.mp hrun
    cases v with
    | error e => exact ⟨e, t, h, (hlaw.1 _ _ _ _ h).1, (hlaw.1 _ _ _ _ h).2.1⟩
    | _ => cases hv
  · have hrun : (failingFunction.apply (Closure.callWithin .whenUnreachable 1) [.int 2]
        ⟨Heap.push {} {}, {}⟩).map (·.1.isError) = some true := by decide +kernel
    have hscope : failingFunction.scope? = some 0 ∧ failingFunction.isSignal = false := by
      decide +kernel
    obtain ⟨⟨v, t⟩, h, hv⟩ := Option.map_eq_some_iff.mp hrun
    cases v with
    | error e =>
      refine ⟨e, t, h, hlaw.2 _ _ _ _ ?_ ?_ h⟩
      · refine List.forall_mem_cons.mpr ⟨fun a ha => ?_, List.forall_mem_singleton.mpr nofun⟩
        cases hscope.1.symm.trans ha
        decide
      · exact List.forall_mem_cons.mpr ⟨hscope.2, List.forall_mem_singleton.mpr rfl⟩
    | _ => cases hv

end MonkeyLang
