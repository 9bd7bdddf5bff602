import Mathlib.Data.Option.Basic
import Mathlib.Data.List.Forall2
import MonkeyLang.Proofs.Eval.Code

/-!
# Two runs in step

`Simulation E₁ E₂` is what two runs of one piece of code, in the scopes `E₁` and `E₂`, have to keep
in common: worlds that grow, and for each world a relation of heaps and one of values. What it asks
for is about the few places where the evaluator touches a heap. `Simulation.runs` is the one
induction over code: if the two ways to run functions keep the relations, so does evaluation, and
one run ends exactly if the other does.

Logs are not compared.
-/

namespace MonkeyLang

/-- Values of one shape: apart from the scopes and sites of functions they are equal. -/
inductive Value.Alike : Value → Value → Prop where
  | int : Alike (.int n) (.int n)
  | bool : Alike (.bool b) (.bool b)
  | null : Alike .null .null
  | error : Alike (.error e) (.error e)
  | returned : Alike v w → Alike (.returned v) (.returned w)
  | closure : Alike (.closure ⟨xs, b, a₁, σ₁⟩) (.closure ⟨xs, b, a₂, σ₂⟩)

namespace Value

/-- A value that leads to no scope. -/
def IsData : Value → Prop
  | int _ | bool _ | null | error _ => True
  | returned _ | closure _ => False

theorem Alike.isSignal (h : Alike v w) : v.isSignal = w.isSignal := by cases h <;> rfl

theorem Alike.isTruthy (h : Alike v w) : v.isTruthy = w.isTruthy := by cases h <;> rfl

theorem Alike.type (h : Alike v w) : v.type = w.type := by cases h <;> rfl

theorem Alike.render (h : Alike v w) : v.render = w.render := by
  induction h with
  | returned _ ih => exact ih
  | _ => rfl

theorem landed_eq_self (v : Value) (h : v.isSignal = false) : v.landed = v := by
  cases v with
  | returned => cases h
  | _ => rfl

theorem isData_exactly (n : Int) (e : EvalError) : (exactly n e).IsData := by
  unfold exactly; split <;> trivial

theorem isData_applyUnary (op : String) (v : Value) : (applyUnary op v).IsData := by
  unfold applyUnary
  split
  · trivial
  · exact isData_exactly ..
  · trivial

theorem isData_onInts (op : BinaryOp) (m n : Int64) : (op.onInts m n).IsData := by
  cases op <;> simp only [BinaryOp.onInts]
  case div => split; exacts [trivial, isData_exactly ..]
  all_goals first | exact isData_exactly .. | trivial

theorem isData_applyBinary (op : String) (v w : Value) : (applyBinary op v w).IsData := by
  unfold applyBinary
  split
  · exact isData_onInts ..
  iterate 4 trivial
  · dsimp only; split <;> trivial

theorem Alike.applyUnary (h : Alike v w) (op : String) : applyUnary op v = applyUnary op w := by
  cases h with
  | returned | closure =>
    by_cases hop : op = "!"
    · subst hop; rfl
    · simp [MonkeyLang.applyUnary, Value.type]
  | _ => rfl

theorem Alike.applyBinary (h : Alike v v') (k : Alike w w') (op : String) :
    applyBinary op v w = applyBinary op v' w' := by
  cases h <;> cases k <;> rfl

end Value

namespace Eval

theorem bind_apply (x : Eval α) (f : α → Eval β) (s : Store) :
    (x >>= f) s = (x s).bind fun r => f r.1 r.2 := rfl

/-- A computation that gives a value and changes at most the log. -/
def Quiet (x : Eval α) (f : Heap → α) : Prop := ∀ s, ∃ t, x s = some (f s.heap, t) ∧ t.heap = s.heap

theorem quiet_note (component : Log.Component) (level : Log.Level) (message : Unit → String) :
    Quiet (note component level message) fun _ => () := fun _ => ⟨_, rfl, rfl⟩

theorem quiet_pure (a : α) : Quiet (pure a) fun _ => a := fun s => ⟨s, rfl, rfl⟩

theorem Quiet.bind {x : Eval α} {y : α → Eval β} {g : α → Heap → β} (hx : Quiet x f)
    (hy : ∀ a, Quiet (y a) (g a)) : Quiet (x >>= y) fun h => g (f h) h := by
  intro s
  obtain ⟨t, ht, hh⟩ := hx s
  obtain ⟨u, hu, hh'⟩ := hy (f s.heap) t
  refine ⟨u, ?_, hh'.trans hh⟩
  rw [bind_apply, ht, Option.bind_some, hu, hh]

theorem quiet_report (v : Value) : Quiet (report v) fun _ => v := by
  unfold report
  split
  · exact Quiet.bind (quiet_note _ _ _) fun _ => quiet_pure _
  · exact Quiet.bind (quiet_pure ()) fun _ => quiet_pure _

theorem quiet_noteHops (scope : ScopeId) (name : String) :
    Quiet (noteHops scope name) fun _ => () := by
  intro s
  refine ⟨_, rfl, ?_⟩
  dsimp only
  split <;> rfl

/-- The value of a name, or the error that it has none. -/
theorem quiet_lookup (scope : ScopeId) (name : String) :
    Quiet (lookup scope name) fun h =>
      (h.lookup scope name).getD (.error (.identifierNotFound name)) := by
  intro s
  obtain ⟨t, ht, hh⟩ := quiet_noteHops scope name s
  rw [lookup, bind_apply, ht, Option.bind_some, bind_apply]
  simp only [get, getThe, MonadStateOf.get, StateT.get, pure, Option.bind_some, hh]
  cases s.heap.lookup scope name with
  | some v => exact ⟨t, rfl, hh⟩
  | none =>
    obtain ⟨u, hu, hh'⟩ := quiet_report (.error (.identifierNotFound name)) t
    exact ⟨u, hu, hh'.trans hh⟩

end Eval

/-- What two runs in the scopes `E₁` and `E₂` have in common. `Later` orders the worlds; `code` says
which code the runs evaluate, and at which sites. -/
structure Simulation (E₁ E₂ : ScopeId) where
  World : Type
  Later : World → World → Prop
  heaps : World → Heap → Heap → Prop
  values : World → Value → Value → Prop
  code : Code → Site → Site → Prop
  refl : ∀ w, Later w w
  trans : Later w w' → Later w' w'' → Later w w''
  child : code c σ₁ σ₂ → Code.Child c i d → code d (σ₁.descend i) (σ₂.descend i)
  mono : Later w w' → values w v₁ v₂ → values w' v₁ v₂
  alike : values w v₁ v₂ → v₁.Alike v₂
  data : v.IsData → values w v v
  returned : values w v₁ v₂ → v₁.isSignal = false → values w (.returned v₁) (.returned v₂)
  /-- A function literal captures the current scopes. -/
  closure : code (.expr (.function t xs b)) σ₁ σ₂ → heaps w h₁ h₂ →
    values w (.closure ⟨xs, b, E₁, σ₁⟩) (.closure ⟨xs, b, E₂, σ₂⟩)
  lookup : code (.expr (.ident x)) σ₁ σ₂ → heaps w h₁ h₂ →
    Option.Rel (values w) (h₁.lookup E₁ x.name) (h₂.lookup E₂ x.name)
  bind : code (.stmt (.letStmt t x e)) σ₁ σ₂ → heaps w h₁ h₂ → values w v₁ v₂ →
    v₁.isSignal = false → ∃ w', Later w w' ∧ heaps w' (h₁.set E₁ x.name v₁) (h₂.set E₂ x.name v₂)

namespace Simulation

variable {E₁ E₂ : ScopeId} (R : Simulation E₁ E₂)

/-- From related heaps the two computations both end or neither does, with related heaps and
results in a later world. -/
def Runs (w : R.World) (rel : R.World → α → β → Prop) (x : Eval α) (y : Eval β) : Prop :=
  ∀ s t, R.heaps w s.heap t.heap → Option.Rel (fun a b => ∃ w', R.Later w w' ∧
    R.heaps w' a.2.heap b.2.heap ∧ rel w' a.1 b.1) (x s) (y t)

/-- The two ways to run functions keep the relations. -/
def Calls (call₁ call₂ : Closure → List Value → Eval Value) : Prop :=
  ∀ w c d as bs, R.values w (.closure c) (.closure d) → List.Forall₂ (R.values w) as bs →
    (∀ v ∈ as, v.isSignal = false) → as.length = c.parameters.length →
    R.Runs w R.values (call₁ c as) (call₂ d bs)

variable {R} {w : R.World}

theorem Runs.done {rel : R.World → α → β → Prop} (h : rel w a b) :
    R.Runs w rel (pure a) (pure b) :=
  fun _ _ hh => .some ⟨w, R.refl w, hh, h⟩

theorem Runs.bind {rel : R.World → α → β → Prop} {rel' : R.World → α' → β' → Prop}
    {x : Eval α} {y : Eval β} {f : α → Eval α'} {g : β → Eval β'} (hx : R.Runs w rel x y)
    (hf : ∀ w' a b, R.Later w w' → rel w' a b → R.Runs w' rel' (f a) (g b)) :
    R.Runs w rel' (x >>= f) (y >>= g) := by
  intro s t hh
  have hxy := hx s t hh
  rw [Eval.bind_apply, Eval.bind_apply]
  generalize x s = p, y t = q at hxy
  cases hxy with
  | none => exact .none
  | some h =>
    obtain ⟨w', hw, hh', hr⟩ := h
    have hfg := hf w' _ _ hw hr _ _ hh'
    rw [Option.bind_some, Option.bind_some]
    generalize f _ _ = p, g _ _ = q at hfg
    cases hfg with
    | none => exact .none
    | some h =>
      obtain ⟨w'', hw', h⟩ := h
      exact .some ⟨w'', R.trans hw hw', h⟩

/-- Computations that change at most the log. -/
theorem Runs.quiet {rel : R.World → α → β → Prop} {x : Eval α} {y : Eval β}
    (hx : Eval.Quiet x f) (hy : Eval.Quiet y g)
    (h : ∀ h₁ h₂, R.heaps w h₁ h₂ → rel w (f h₁) (g h₂)) : R.Runs w rel x y := by
  intro s t hh
  obtain ⟨s', hs, hsh⟩ := hx s
  obtain ⟨t', ht, hth⟩ := hy t
  rw [hs, ht]
  refine .some ⟨w, R.refl w, ?_, h _ _ hh⟩
  rw [hsh, hth]
  exact hh

theorem Runs.note {rel : R.World → α → β → Prop} {x : Eval α} {y : Eval β}
    {c₁ c₂ : Log.Component} {l₁ l₂ : Log.Level} {m₁ m₂ : Unit → String}
    (h : ∀ w', R.Later w w' → R.Runs w' rel x y) :
    R.Runs w rel (Eval.note c₁ l₁ m₁ >>= fun _ => x) (Eval.note c₂ l₂ m₂ >>= fun _ => y) :=
  have hnote : R.Runs w (fun _ _ _ => True) (Eval.note c₁ l₁ m₁) (Eval.note c₂ l₂ m₂) :=
    .quiet (Eval.quiet_note _ _ _) (Eval.quiet_note _ _ _) fun _ _ _ => trivial
  hnote.bind fun w' _ _ hw _ => h w' hw

theorem Runs.andThen {x y : Eval Value} {f g : Value → Eval Value} (hx : R.Runs w R.values x y)
    (hf : ∀ w' v₁ v₂, R.Later w w' → R.values w' v₁ v₂ → v₁.isSignal = false →
      R.Runs w' R.values (f v₁) (g v₂)) :
    R.Runs w R.values (Eval.andThen x f) (Eval.andThen y g) := by
  refine Runs.bind hx fun w' v₁ v₂ hw hv => ?_
  rw [← (R.alike hv).isSignal]
  cases hs : v₁.isSignal with
  | true => exact .done hv
  | false => exact hf w' v₁ v₂ hw hv hs

/-- A value that leads nowhere is reported alike in both runs. -/
theorem Runs.report {v : Value} (hv : v.IsData) :
    R.Runs w R.values (Eval.report v) (Eval.report v) :=
  .quiet (Eval.quiet_report v) (Eval.quiet_report v) fun _ _ _ => R.data hv

theorem Runs.lookup (hc : R.code (.expr (.ident x)) σ₁ σ₂) :
    R.Runs w R.values (Eval.lookup E₁ x.name) (Eval.lookup E₂ x.name) := by
  refine .quiet (Eval.quiet_lookup E₁ x.name) (Eval.quiet_lookup E₂ x.name) fun h₁ h₂ hh => ?_
  have hl := R.lookup hc hh
  generalize h₁.lookup E₁ x.name = p, h₂.lookup E₂ x.name = q at hl
  cases hl with
  | none => exact R.data trivial
  | some hv => exact hv

theorem Runs.bindLet (hc : R.code (.stmt (.letStmt t x e)) σ₁ σ₂) (hv : R.values w v₁ v₂)
    (hs : v₁.isSignal = false) :
    R.Runs w R.values (do Eval.bind E₁ x.name v₁; pure .null)
      (do Eval.bind E₂ x.name v₂; pure .null) := by
  intro s t hh
  obtain ⟨w', hw, hh'⟩ := R.bind hc hh hv hs
  exact .some ⟨w', hw, hh', R.data trivial⟩

theorem Runs.apply {call₁ call₂ : Closure → List Value → Eval Value} (hcall : R.Calls call₁ call₂)
    (hf : R.values w f₁ f₂) (hvs : List.Forall₂ (R.values w) vs₁ vs₂)
    (hs : ∀ v ∈ vs₁, v.isSignal = false) :
    R.Runs w R.values (f₁.apply call₁ vs₁) (f₂.apply call₂ vs₂) := by
  cases R.alike hf with
  | closure =>
    simp only [Value.apply, hvs.length_eq]
    split
    · next hlen => exact hcall w _ _ _ _ hf hvs hs (hvs.length_eq.trans hlen)
    · exact Runs.report (v := .error _) trivial
  | _ => exact Runs.report (v := .error _) trivial

variable {call₁ call₂ : Closure → List Value → Eval Value}

/-- The arguments of a call: related values that are no signals, or related signals. -/
def Arguments (R : Simulation E₁ E₂) (w : R.World) :
    Except Value (List Value) → Except Value (List Value) → Prop
  | .ok vs, .ok ws => List.Forall₂ (R.values w) vs ws ∧ ∀ v ∈ vs, v.isSignal = false
  | .error v, .error v' => R.values w v v'
  | _, _ => False

mutual

theorem runs_expr (hcall : R.Calls call₁ call₂) (e : Expr) (hc : R.code (.expr e) σ₁ σ₂)
    (w : R.World) : R.Runs w R.values (e.eval call₁ ⟨E₁, σ₁⟩) (e.eval call₂ ⟨E₂, σ₂⟩) := by
  rw [Expr.eval.eq_def, Expr.eval.eq_def call₂]
  refine .note fun w _ => ?_
  match e with
  | .ident x => exact .lookup hc
  | .int _ n => exact .done (R.data trivial)
  | .bool _ b => exact .done (R.data trivial)
  | .unary _ op e =>
    refine .andThen (runs_expr hcall e (R.child hc .unary) w) fun w v₁ v₂ _ hv _ => ?_
    rw [← (R.alike hv).applyUnary op]
    exact .report (Value.isData_applyUnary op v₁)
  | .binary _ l op r =>
    refine .andThen (runs_expr hcall l (R.child hc .left) w) fun w v₁ v₂ _ hv _ =>
      .andThen (runs_expr hcall r (R.child hc .right) w) fun w' u₁ u₂ hw hu _ => ?_
    rw [← (R.alike (R.mono hw hv)).applyBinary (R.alike hu) op]
    exact .report (Value.isData_applyBinary op v₁ u₁)
  | .cond _ c b none =>
    refine .andThen (runs_expr hcall c (R.child hc .condition) w) fun w v₁ v₂ _ hv _ => ?_
    rw [← (R.alike hv).isTruthy]
    split
    · exact runs_block hcall b (R.child hc .consequence) w
    · exact .done (R.data trivial)
  | .cond _ c b (some a) =>
    refine .andThen (runs_expr hcall c (R.child hc .condition) w) fun w v₁ v₂ _ hv _ => ?_
    rw [← (R.alike hv).isTruthy]
    split
    · exact runs_block hcall b (R.child hc .consequence) w
    · exact runs_block hcall a (R.child hc .alternative) w
  | .function _ xs b => exact fun s t hh => .some ⟨w, R.refl w, hh, R.closure hc hh⟩
  | .call _ f es =>
    refine .andThen (runs_expr hcall f (R.child hc .callee) w) fun w f₁ f₂ _ hf _ => ?_
    refine .bind (runs_exprs hcall es (i := 1) (fun j e he => ?_) w) fun w' a b hw hab => ?_
    · rw [Nat.add_comm]
      exact R.child hc (.argument he)
    · match a, b, hab with
      | .ok vs, .ok ws, ⟨hvs, hs⟩ => exact .apply hcall (R.mono hw hf) hvs hs
      | .error v, .error v', hv => exact .done hv

theorem runs_exprs (hcall : R.Calls call₁ call₂) (es : List Expr)
    (hc : ∀ j e, es[j]? = some e → R.code (.expr e) (σ₁.child (i + j)) (σ₂.child (i + j)))
    (w : R.World) : R.Runs w R.Arguments (Expr.evalEach call₁ es ⟨E₁, σ₁⟩ i)
      (Expr.evalEach call₂ es ⟨E₂, σ₂⟩ i) := by
  match es with
  | [] => rw [Expr.evalEach, Expr.evalEach]; exact .done ⟨.nil, by simp⟩
  | e :: es =>
    rw [Expr.evalEach, Expr.evalEach]
    refine .bind (runs_expr hcall e (hc 0 e rfl) w) fun w v₁ v₂ _ hv => ?_
    rw [← (R.alike hv).isSignal]
    cases hs : v₁.isSignal with
    | true => exact .done hv
    | false =>
      refine .bind (runs_exprs hcall es (i := i + 1) (fun j e he => ?_) w) fun w' a b hw hab => ?_
      · rw [Nat.add_right_comm]
        exact hc (j + 1) e he
      · match a, b, hab with
        | .ok vs, .ok ws, ⟨hvs, hss⟩ =>
          exact .done ⟨.cons (R.mono hw hv) hvs, List.forall_mem_cons.mpr ⟨hs, hss⟩⟩
        | .error v, .error v', hv => exact .done hv

theorem runs_stmt (hcall : R.Calls call₁ call₂) (s : Stmt) (hc : R.code (.stmt s) σ₁ σ₂)
    (w : R.World) : R.Runs w R.values (s.eval call₁ ⟨E₁, σ₁⟩) (s.eval call₂ ⟨E₂, σ₂⟩) := by
  match s with
  | .letStmt _ x e =>
    rw [Stmt.eval, Stmt.eval]
    exact .andThen (runs_expr hcall e (R.child hc .letValue) w) fun w v₁ v₂ _ hv hs =>
      .note fun w' hw => .bindLet hc (R.mono hw hv) hs
  | .returnStmt _ e =>
    rw [Stmt.eval, Stmt.eval]
    exact .andThen (runs_expr hcall e (R.child hc .returnValue) w) fun w v₁ v₂ _ hv hs =>
      .done (R.returned hv hs)
  | .expr _ e => rw [Stmt.eval, Stmt.eval]; exact runs_expr hcall e (R.child hc .exprValue) w
  | .block b => rw [Stmt.eval, Stmt.eval]; exact runs_block hcall b (R.child hc .blockBody) w

theorem runs_block (hcall : R.Calls call₁ call₂) (b : Block) (hc : R.code (.block b) σ₁ σ₂)
    (w : R.World) : R.Runs w R.values (b.eval call₁ ⟨E₁, σ₁⟩) (b.eval call₂ ⟨E₂, σ₂⟩) := by
  match b with
  | ⟨_, ss⟩ =>
    rw [Block.eval, Block.eval]
    refine runs_stmts hcall ss (i := 0) (j := 0) (fun k s hs => ?_) w (R.data trivial)
    rw [Nat.zero_add]
    exact R.child hc (.statement hs)

theorem runs_stmts (hcall : R.Calls call₁ call₂) (ss : List Stmt)
    (hc : ∀ k s, ss[k]? = some s → R.code (.stmt s) (σ₁.child (i + k)) (σ₂.child (j + k)))
    (w : R.World) (hv : R.values w v₁ v₂) : R.Runs w R.values
      (Stmt.evalAll call₁ ss ⟨E₁, σ₁⟩ i v₁) (Stmt.evalAll call₂ ss ⟨E₂, σ₂⟩ j v₂) := by
  match ss with
  | [] => rw [Stmt.evalAll, Stmt.evalAll]; exact .done hv
  | s :: ss =>
    rw [Stmt.evalAll, Stmt.evalAll]
    refine .andThen (runs_stmt hcall s (hc 0 s rfl) w) fun w v₁ v₂ _ hv _ =>
      runs_stmts hcall ss (i := i + 1) (j := j + 1) (fun k s hs => ?_) w hv
    rw [Nat.add_right_comm, Nat.add_right_comm j]
    exact hc (k + 1) s hs

end

theorem runs_program (hcall : R.Calls call₁ call₂) (p : Program)
    (hc : R.code (.program p) σ₁ σ₂) (hlanded : ∀ w v₁ v₂, R.values w v₁ v₂ →
      R.values w v₁.landed v₂.landed) (w : R.World) :
    R.Runs w R.values (p.evalWith call₁ ⟨E₁, σ₁⟩) (p.evalWith call₂ ⟨E₂, σ₂⟩) := by
  refine .note fun w _ => .bind (runs_stmts hcall p.statements (i := 0) (j := 0) (fun k s hs => ?_) w
    (R.data trivial)) fun w v₁ v₂ _ hv => ?_
  · rw [Nat.zero_add]
    exact R.child hc (.programStatement hs)
  · rw [← (R.alike hv).isSignal]
    cases v₁.isSignal with
    | true => exact .done (hlanded _ _ _ hv)
    | false => exact .note fun w' hw => .done (hlanded _ _ _ (R.mono hw hv))

/-- If the two ways to run functions keep the relations, so does the evaluation of any code. -/
theorem runs (hcall : R.Calls call₁ call₂) (hlanded : ∀ w v₁ v₂, R.values w v₁ v₂ →
    R.values w v₁.landed v₂.landed) (hc : R.code c σ₁ σ₂) (w : R.World) :
    R.Runs w R.values (c.eval call₁ ⟨E₁, σ₁⟩) (c.eval call₂ ⟨E₂, σ₂⟩) := by
  cases c with
  | expr e => exact runs_expr hcall e hc w
  | stmt s => exact runs_stmt hcall s hc w
  | block b => exact runs_block hcall b hc w
  | program p => exact runs_program hcall p hc hlanded w

end Simulation

end MonkeyLang
