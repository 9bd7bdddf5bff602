import MonkeyLang.Proofs.Eval.Signals
import MonkeyLang.Proofs.Eval.Steps

/-!
# Where signals come from and where they go

Code that runs other code, or calls a function, hands on a signal that comes of it: it does nothing
more, and a program ends with what the signal lands as (`Moment.outcome_of_part`,
`Moment.outcome_of_call`). So every error that a run ends in was raised at one of its moments, by an
operator, a name or a call, from values that are no signals (`Moment.exists_raises`).

Both are read off the steps of code: `Script.HandsOn` says of a script what `Code.script_handsOn`
proves of all code.
-/

namespace MonkeyLang

open Relation (ReflTransGen)

/-- The errors that code comes to by itself, from values that are no signals. -/
inductive Code.Raises : Code → EvalError → Prop
  | name : Raises (.expr (.ident x)) (.identifierNotFound x.name)
  | unary {v : Value} : v.isSignal = false → applyUnary op v = .error e →
    Raises (.expr (.unary t op x)) e
  | binary {v w : Value} : v.isSignal = false → w.isSignal = false → applyBinary op v w = .error e →
    Raises (.expr (.binary t l op r)) e
  | notAFunction {v : Value} : v.isSignal = false → v.type ≠ .function →
    Raises (.expr (.call t f es)) (.notAFunction v.type)
  | argumentCount : wanted ≠ found → Raises (.expr (.call t f es)) (.argumentCount wanted found)

/-- What code does with the value of the last thing that it runs. -/
def Code.finish : Code → Value → Eval Value
  | .program _, v => do
    if !v.isSignal then
      Eval.note .evaluator .info fun _ => "Program evaluated to: " ++ v.render
    pure v.landed
  | _, v => pure v

/-- If the computation ends in an error, then in one that is raised, unless the heap binds one. -/
def Eval.OnlyRaises (raises : EvalError → Prop) (x : Eval Value) : Prop :=
  ∀ s e t, s.heap.SignalFree → x s = some (.error e, t) → raises e

namespace Script

/-- A signal that comes of what the script runs ends it, by way of `finish`, and whatever comes of a
call does as it is; what the script ends with otherwise is `Q`. -/
def HandsOn (finish : Value → Eval Value) (Q : Eval Value → Prop) : Script → Prop
  | done x => Q x
  | note _ _ _ k => k.HandsOn finish Q
  | run _ _ k => ∀ v, (v.isSignal = true → k v = done (finish v)) ∧
    (v.isSignal = false → (k v).HandsOn finish Q)
  | .call _ _ k => ∀ v, k v = done (pure v)

variable {finish : Value → Eval Value} {Q : Eval Value → Prop}

theorem unlessSignal_of_signal (f : Value → Script) (hv : v.isSignal = true) :
    unlessSignal f v = done (pure v) := if_pos hv

theorem unlessSignal_of_value (f : Value → Script) (hv : v.isSignal = false) :
    unlessSignal f v = f v := if_neg (Bool.eq_false_iff.mp hv)

/-- What comes after a step that may come to a signal. -/
theorem HandsOn.unlessSignal {f : Value → Script}
    (hf : ∀ v, v.isSignal = false → (f v).HandsOn pure Q) (v : Value) :
    (v.isSignal = true → Script.unlessSignal f v = done (pure v)) ∧
      (v.isSignal = false → (Script.unlessSignal f v).HandsOn pure Q) :=
  ⟨unlessSignal_of_signal f, fun hv => (unlessSignal_of_value f hv).symm ▸ hf v hv⟩

/-- What comes after the last step. -/
theorem HandsOn.runLast (hQ : ∀ v, v.isSignal = false → Q (pure v)) (v : Value) :
    (v.isSignal = true → done (pure v) = done (pure v)) ∧
      (v.isSignal = false → (done (pure v)).HandsOn pure Q) :=
  ⟨fun _ => rfl, hQ v⟩

theorem HandsOn.runEach {k : List Value → Script} (hk : ∀ vs, (k vs).HandsOn pure Q) :
    (Script.runEach here es i k).HandsOn pure Q := by
  induction es generalizing i k with
  | nil => exact hk []
  | cons e es ih => exact .unlessSignal fun v _ => ih fun vs => hk (v :: vs)

theorem HandsOn.runAll {k : Value → Script} (hk : ∀ v, v.isSignal = true → k v = done (finish v))
    (hend : ∀ v, v.isSignal = false → (k v).HandsOn finish Q) {last : Value}
    (hlast : last.isSignal = false) : (Script.runAll here ss i last k).HandsOn finish Q := by
  induction ss generalizing i last with
  | nil => exact hend last hlast
  | cons s ss ih =>
    refine fun v => ⟨fun hv => (if_pos hv).trans (hk v hv), fun hv => ?_⟩
    dsimp only
    rw [if_neg (Bool.eq_false_iff.mp hv)]
    exact ih hv

end Script

/-! ## All code hands on signals -/

section
variable {raises : EvalError → Prop}

theorem Eval.OnlyRaises.pure (hv : v.isError = false) : OnlyRaises raises (pure v) := by
  rintro s e t - h
  cases h
  cases hv

theorem Eval.OnlyRaises.report (hv : ∀ e, v = .error e → raises e) :
    OnlyRaises raises (report v) := by
  intro s e t _ h
  obtain ⟨t', ht', -⟩ := quiet_report v s
  cases h.symm.trans ht'
  exact hv e rfl

theorem Value.isError_of_isSignal {v : Value} (hv : v.isSignal = false) : v.isError = false := by
  cases v with
  | error => cases hv
  | _ => rfl

theorem Eval.onlyRaises_value (v : Value) (hv : v.isSignal = false) :
    OnlyRaises raises (Pure.pure v) := .pure (Value.isError_of_isSignal hv)

theorem Eval.onlyRaises_lookup (here : Place) (x : Identifier) :
    OnlyRaises (Code.expr (.ident x)).Raises (lookup here.scope x.name) := by
  intro s e t hs h
  obtain ⟨t', ht', -⟩ := quiet_lookup here.scope x.name s
  have hv : .error e = (s.heap.lookup here.scope x.name).getD (.error (.identifierNotFound x.name)) :=
    congrArg Prod.fst (Option.some_inj.mp (h.symm.trans ht'))
  cases hl : s.heap.lookup here.scope x.name with
  | none =>
    rw [hl] at hv
    cases hv
    exact .name
  | some v =>
    rw [hl] at hv
    cases hv
    exact (hs.lookup hl).elim

end

theorem Expr.script_handsOn (e : Expr) (here : Place) :
    (e.script here).HandsOn pure (Eval.OnlyRaises (Code.expr e).Raises) := by
  cases e with
  | ident x => exact Eval.onlyRaises_lookup here x
  | int | bool | function => exact .pure rfl
  | unary =>
    refine .unlessSignal fun v hv => ?_
    exact .report fun _ => .unary hv
  | binary =>
    refine .unlessSignal fun v hv => .unlessSignal fun w hw => ?_
    exact .report fun _ => .binary hv hw
  | cond t c b alt =>
    cases alt with
    | none =>
      refine .unlessSignal fun v _ => ?_
      split
      · exact .runLast Eval.onlyRaises_value
      · exact .pure rfl
    | some a =>
      refine .unlessSignal fun v _ => ?_
      split <;> exact .runLast Eval.onlyRaises_value
  | call t f es =>
    refine .unlessSignal fun f hf => .runEach fun vs => ?_
    unfold Script.apply
    split
    · split
      · exact fun v => rfl
      · next hlen =>
        refine .report fun e he => ?_
        cases he
        exact .argumentCount (Ne.symm hlen)
    · next hne =>
      refine .report fun e he => ?_
      cases he
      refine .notAFunction hf fun htype => ?_
      cases f with
      | closure c => exact hne c rfl
      | _ => cases htype

theorem Stmt.script_handsOn (s : Stmt) (here : Place) :
    (s.script here).HandsOn pure (Eval.OnlyRaises (Code.stmt s).Raises) := by
  cases s with
  | letStmt =>
    refine .unlessSignal fun v _ => ?_
    exact fun s e t _ h => nomatch h
  | returnStmt =>
    refine .unlessSignal fun v _ => ?_
    exact .pure rfl
  | expr | block => exact .runLast Eval.onlyRaises_value

/-- All code hands on signals, and comes to no errors but those that it raises or that are handed on
to it. -/
theorem Code.script_handsOn (c : Code) (here : Place) :
    (c.script here).HandsOn c.finish (Eval.OnlyRaises c.Raises) := by
  cases c with
  | expr e => exact e.script_handsOn here
  | stmt s => exact s.script_handsOn here
  | block b =>
    refine Script.HandsOn.runAll (fun _ _ => rfl) (fun v hv => ?_) rfl
    exact Eval.onlyRaises_value v hv
  | program p =>
    refine Script.HandsOn.runAll (fun _ _ => rfl) (fun v hv => ?_) rfl
    intro s e t _ h
    rw [Code.finish, hv, v.landed_eq_self hv] at h
    cases h
    cases hv

/-! ## Where they go -/

/-- A script hands on signals all along its way, until one has ended it. -/
theorem Script.Goes.handsOn {call : Closure → List Value → Eval Value} {k : Script}
    (h : Goes call (k, s) a) (hk : k.HandsOn finish Q) :
    a.1.HandsOn finish Q ∨ ∃ x, a.1 = .done x := by
  induction h with
  | refl => exact .inl hk
  | tail _ hstep ih =>
    rcases ih with hk | ⟨x, hx⟩
    · cases hstep with
      | note => exact .inl hk
      | @run v t c here k s h =>
        cases hs : v.isSignal with
        | true => exact .inr ⟨_, (hk v).1 hs⟩
        | false => exact .inl ((hk v).2 hs)
      | @call c args s v t k h => exact .inr ⟨_, hk v⟩
    · cases hstep <;> cases hx

theorem Code.finish_error (c : Code) (e : EvalError) (s : Store) :
    c.finish (.error e) s = some (.error e, s) := by
  cases c <;> rfl

theorem Code.finish_of_ne_program {c : Code} (hc : ∀ p, c ≠ .program p) (v : Value) (s : Store) :
    c.finish v s = some (v, s) := by
  cases c with
  | program p => exact absurd rfl (hc p)
  | _ => rfl

theorem Code.finish_program (p : Program) (hv : v.isSignal = true) (s : Store) :
    (Code.program p).finish v s = some (v.landed, s) := by
  rw [finish, hv]
  rfl

namespace Moment

variable {m : Moment}

/-- A signal that comes of a part is what the whole ends with. -/
theorem outcome_of_part (hg : m.Goes (.run c p k, s))
    (hv : outcome ⟨m.budget, c, p, s⟩ = some (v, t)) (hs : v.isSignal = true) :
    m.outcome = m.code.finish v t := by
  have hk : k v = .done (m.code.finish v) := by
    rcases Script.Goes.handsOn hg (m.code.script_handsOn m.here) with hk | ⟨_, hk⟩
    · exact (hk v).1 hs
    · cases hk
  rw [outcome] at hv
  rw [outcome, ← Code.eval_script, Script.Goes.eval hg, Script.eval, Eval.bind_apply, hv,
    Option.bind_some, hk, Script.eval]

/-- What comes of a call is what the code comes to that makes it. -/
theorem outcome_of_call (hg : m.Goes (.call c args k, s))
    (hv : Closure.callWithin .whenUnreachable m.budget c args s = some (v, t)) :
    m.outcome = some (v, t) := by
  have hk : k v = .done (pure v) := by
    rcases Script.Goes.handsOn hg (m.code.script_handsOn m.here) with hk | ⟨_, hk⟩
    · exact hk v
    · cases hk
  rw [outcome, ← Code.eval_script, Script.Goes.eval hg, Script.eval, Eval.bind_apply, hv,
    Option.bind_some, hk]
  rfl

end Moment

/-! ## Where errors come from -/

/-- A script that ends in a value has it from what it has run last, or from a call, or comes to it by
itself. -/
theorem Script.HandsOn.origin {call : Closure → List Value → Eval Value} {k : Script}
    (hk : k.HandsOn finish Q) (h : k.eval call s = some r) :
    (∃ c p k' s' v u, Goes call (k, s) (.run c p k', s') ∧ c.eval call p s' = some (v, u) ∧
      finish v u = some r) ∨
    (∃ c args k' s', Goes call (k, s) (.call c args k', s') ∧ call c args s' = some r) ∨
    ∃ x s', Goes call (k, s) (.done x, s') ∧ x s' = some r ∧ Q x := by
  induction k generalizing s with
  | done x => exact .inr (.inr ⟨x, s, .refl, h, hk⟩)
  | note component level message k ih =>
    obtain ⟨t, ht, -⟩ := Eval.quiet_note component level message s
    rw [eval, Eval.bind_apply, ht, Option.bind_some] at h
    rcases ih hk h with ⟨c, p, k', s', v, u, hg, h⟩ | ⟨c, args, k', s', hg, h⟩ | ⟨x, s', hg, h⟩
    · exact .inl ⟨c, p, k', s', v, u, .head (.note ht) hg, h⟩
    · exact .inr (.inl ⟨c, args, k', s', .head (.note ht) hg, h⟩)
    · exact .inr (.inr ⟨x, s', .head (.note ht) hg, h⟩)
  | run c p k ih =>
    obtain ⟨⟨v, t⟩, hv, h⟩ := Option.bind_eq_some_iff.mp h
    cases hs : v.isSignal with
    | true =>
      dsimp only at h
      rw [(hk v).1 hs] at h
      exact .inl ⟨c, p, k, s, v, t, .refl, hv, h⟩
    | false =>
      rcases ih v ((hk v).2 hs) h with ⟨c', p', k', s', w, u, hg, h⟩ |
        ⟨c', args, k', s', hg, h⟩ | ⟨x, s', hg, h⟩
      · exact .inl ⟨c', p', k', s', w, u, .head (.run hv) hg, h⟩
      · exact .inr (.inl ⟨c', args, k', s', .head (.run hv) hg, h⟩)
      · exact .inr (.inr ⟨x, s', .head (.run hv) hg, h⟩)
  | call c args k ih =>
    obtain ⟨⟨v, t⟩, hv, h⟩ := Option.bind_eq_some_iff.mp h
    dsimp only at h
    rw [hk v] at h
    cases h
    exact .inr (.inl ⟨c, args, k, s, .refl, hv⟩)

theorem Value.IsResult.eq_error {v : Value} (h : v.IsResult) (hv : v.landed = .error e) :
    v = .error e := by
  cases h with
  | plain hp =>
    rwa [v.landed_eq_self (isPlain_iff.mp hp)] at hv
  | error => exact hv
  | returned hp =>
    cases (hv : _ = Value.error e)
    exact hp.elim

theorem Code.eq_error_of_finish {c : Code} (hv : v.IsResult)
    (h : c.finish v s = some (.error e, t)) : v = .error e := by
  cases c with
  | program p =>
    refine hv.eq_error ?_
    rw [finish] at h
    split at h <;> exact congrArg Prod.fst (Option.some_inj.mp h)
  | _ =>
    cases h
    rfl

namespace Moment

variable {m : Moment}

/-- On the way of an evaluation no scope comes to bind a signal, and functions are called with
arguments that are none. -/
theorem Goes.signalFree (hg : m.Goes a) (hs : m.store.heap.SignalFree) :
    a.2.heap.SignalFree ∧ (confined m.here.scope).Safe a.1 a.2.heap :=
  (Invariant.safe_script (I := confined m.here.scope) (c := m.code) (σ := m.here.site) trivial
    m.store.heap).goes (Closure.logFree_callWithin .whenUnreachable m.budget)
    (confined_calls .whenUnreachable m.budget m.here.scope) (fun _ _ hv => hv.landed.1) hs hg

theorem exists_raises_of_body
    (ihn : ∀ n' c p s t, n = n' + 1 → s.heap.SignalFree →
      outcome ⟨n', c, p, s⟩ = some (.error e, t) →
      ∃ m', Runs ⟨n', c, p, s⟩ m' ∧ m'.code.Raises e)
    (hs : s.heap.SignalFree) (h : outcome ⟨n, c, p, s⟩ = some (.error e, t)) :
    ∃ m', Runs ⟨n, c, p, s⟩ m' ∧ m'.code.Raises e := by
  induction c using Code.induction generalizing p s t with
  | h c ih =>
    rw [outcome, ← Code.eval_script] at h
    -- the error comes of a part, of a call or of the code itself
    rcases (c.script_handsOn p).origin h with ⟨d, q, k, s', v, u, hg, hv, hf⟩ |
      ⟨d, args, k, s', hg, hv⟩ | ⟨x, s', hg, hx, hraises⟩
    · obtain ⟨hfree, -⟩ := Goes.signalFree (m := ⟨n, c, p, s⟩) hg hs
      obtain rfl := Code.eq_error_of_finish
        (Code.confined_eval (confined_calls .whenUnreachable _) hfree hv).2 hf
      obtain ⟨⟨i, hd, -⟩, -⟩ := Script.Goes.all hg (c.script_all p)
      obtain ⟨m', hrun, hm'⟩ := ih i d hd hfree hv
      exact ⟨m', .head (.part hg) hrun, hm'⟩
    · obtain ⟨hfree, -, hargs, -⟩ := Goes.signalFree (m := ⟨n, c, p, s⟩) hg hs
      cases n with
      | zero => cases hv
      | succ n =>
        obtain ⟨s₁, f, he, hs₁, -, heq⟩ := Closure.callWithin_succ .whenUnreachable n d args s'
        rw [heq] at hv
        obtain ⟨⟨w, u'⟩, hw, hr⟩ := Option.map_eq_some_iff.mp hv
        have henter : s₁.heap.SignalFree :=
          hs₁ ▸ hfree.enter fun v hv => Value.isPlain_iff.mpr (hargs v hv).2
        have hresult := (Code.confined_eval (c := .block d.body)
          (confined_calls .whenUnreachable _) henter hw).2
        obtain rfl := hresult.eq_error (congrArg Prod.fst hr)
        obtain ⟨m', hrun, hm'⟩ := ihn n (.block d.body) ⟨s'.heap.size, d.site⟩ s₁ u' rfl henter hw
        exact ⟨m', .head (.body ⟨k, hg⟩ rfl he) hrun, hm'⟩
    · exact ⟨_, .refl, hraises s' e t (Goes.signalFree (m := ⟨n, c, p, s⟩) hg hs).1 hx⟩

/-- If no scope binds a signal, every error that an evaluation ends in was raised at a moment of it. -/
theorem exists_raises (hs : m.store.heap.SignalFree) (h : m.outcome = some (.error e, t)) :
    ∃ m', m.Runs m' ∧ m'.code.Raises e := by
  obtain ⟨n, c, p, s⟩ := m
  -- a call uses up some of the budget, and what runs within one call are smaller pieces of code
  induction n generalizing c p s t with
  | zero => exact exists_raises_of_body (fun _ _ _ _ _ hn => nomatch hn) hs h
  | succ n ihn =>
    refine exists_raises_of_body (fun n' c p s t hn => ?_) hs h
    cases hn
    exact ihn c p s

end Moment

end MonkeyLang
