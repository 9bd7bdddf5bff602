import MonkeyLang.Proofs.Eval.Unwind

/-!
# Signals cut through every context

Code stands in the contexts that its parts stand in: statements before and after, operands, branches,
a callee and arguments. `Moment.Turn` says when the turn of a part comes, in terms of what is evaluated
before it, and `Moment.ComesTo` follows this down to a part of parts, never into a function literal. A
signal that a part comes to is what everything around it comes to, in the same store
(`Moment.signals_cut_through`). So a `return` ends the innermost call, and an error the whole run.
-/

namespace MonkeyLang

open Relation (ReflTransGen TransGen)

/-- The code that is evaluated before a part, from left to right. -/
def Code.before : Code → Option Nat → List Code
  | .expr (.binary _ l _ _), some 1 => [.expr l]
  | .expr (.cond _ c _ _), some (_ + 1) => [.expr c]
  | .expr (.call _ f es), some (i + 1) => .expr f :: (es.take i).map .expr
  | .block b, some i => (b.statements.take i).map .stmt
  | .program p, some i => (p.statements.take i).map .stmt
  | _, _ => []

/-- Whether a part is evaluated after these values: a condition tells which branch is. -/
def Code.Takes : Code → Option Nat → List Value → Prop
  | .expr (.cond _ _ _ _), some 1, vs => ∀ v ∈ vs, v.isTruthy = true
  | .expr (.cond _ _ _ _), some 2, vs => ∀ v ∈ vs, v.isTruthy = false
  | _, _, _ => True

/-- What code writes to the log before it starts. -/
def Code.announce : Code → Eval Unit
  | .expr e => Eval.note .evaluator .trace fun _ => "Evaluating expression: " ++ e.render
  | .program p => Eval.note .evaluator .debug fun _ =>
    "Evaluating " ++ toString p.statements.length ++ " statement(s)"
  | _ => pure ()

namespace Moment

/-- Pieces of code at the positions from `i` on are evaluated one after the other, each to a value
that is no signal. -/
inductive Passes (n : Nat) (p : Place) : Nat → List Code → Store → List Value → Store → Prop
  | nil : Passes n p i [] s [] s
  | cons : outcome ⟨n, c, p.child i, s⟩ = some (v, t) → v.isSignal = false →
    Passes n p (i + 1) cs t vs u → Passes n p i (c :: cs) s (v :: vs) u

/-- The turn of a part comes: nothing before it yields a signal, and no condition leads elsewhere. -/
inductive Turn (m : Moment) : Moment → Prop
  | part : m.code.Child i d → m.code.announce m.store = some ((), s) →
    Passes m.budget m.here 0 (m.code.before i) s vs t → m.code.Takes i vs →
    m.Turn ⟨m.budget, d, ⟨m.here.scope, m.here.site.descend i⟩, t⟩

/-- The evaluation comes to a part of a part, however deep: all between the two moments is a context
of the later one. -/
abbrev ComesTo : Moment → Moment → Prop := ReflTransGen Turn

/-! ## The way to a part -/

section
variable {n : Nat} {p : Place}

theorem goesWithin_run (hv : outcome ⟨n, c, p, s⟩ = some (v, t)) (hs : v.isSignal = false)
    {f : Value → Script} (hk : f v = k) :
    Script.GoesWithin n (.run c p (.unlessSignal f), s) (k, t) := by
  rw [← hk, ← Script.unlessSignal_of_value f hs]
  exact .single (.run hv)

theorem Passes.runEach {k : List Value → Script} (he : es[j]? = some e)
    (h : Passes n p i ((es.take j).map .expr) s vs t) :
    ∃ k', Script.GoesWithin n (.runEach p es i k, s) (.run (.expr e) (p.child (i + j)) k', t) := by
  induction es generalizing i j s vs k with
  | nil => cases he
  | cons e₀ es ih =>
    cases j with
    | zero =>
      cases he
      cases h
      exact ⟨_, .refl⟩
    | succ j =>
      cases h with
      | cons hv hs h =>
        obtain ⟨k', hk⟩ := ih he h
        rw [Nat.add_right_comm] at hk
        exact ⟨k', (goesWithin_run hv hs rfl).trans hk⟩

theorem Passes.runAll {k : Value → Script} (hst : ss[j]? = some st)
    (h : Passes n p i ((ss.take j).map .stmt) s vs t) (last : Value) :
    ∃ k', Script.GoesWithin n (.runAll p ss i last k, s)
      (.run (.stmt st) (p.child (i + j)) k', t) := by
  induction ss generalizing i j s vs last with
  | nil => cases hst
  | cons st₀ ss ih =>
    cases j with
    | zero =>
      cases hst
      cases h
      exact ⟨_, .refl⟩
    | succ j =>
      cases h with
      | @cons _ _ _ v _ _ _ _ hv hs h =>
        obtain ⟨k', hk⟩ := ih hst h v
        have hstep : Script.GoesWithin n (.runAll p (st₀ :: ss) i last k, s) _ := .single (.run hv)
        rw [if_neg (Bool.eq_false_iff.mp hs)] at hstep
        rw [Nat.add_right_comm] at hk
        exact ⟨k', hstep.trans hk⟩

end

variable {m m' : Moment}

/-- A part whose turn comes is what the script of the code runs next. -/
theorem Turn.goes (h : m.Turn m') :
    m'.budget = m.budget ∧ ∃ k, m.Goes (.run m'.code m'.here k, m'.store) := by
  obtain ⟨n, c, p, s₀⟩ := m
  cases h with
  | @part i d s vs t hc ha hp ht =>
    refine ⟨rfl, ?_⟩
    dsimp only at hc ha hp ht ⊢
    cases hc with
    | unary | left | callee =>
      cases hp
      exact ⟨_, .single (.note ha)⟩
    | @condition _ _ _ alt =>
      cases hp
      cases alt <;> exact ⟨_, .single (.note ha)⟩
    | right =>
      cases hp with
      | cons hv hs hp =>
        cases hp
        exact ⟨_, .head (.note ha) (goesWithin_run hv hs rfl)⟩
    | @consequence _ _ _ alt =>
      cases hp with
      | @cons _ _ _ v _ _ _ _ hv hs hp =>
        cases hp
        have htrue : v.isTruthy = true := ht v List.mem_cons_self
        cases alt <;> exact ⟨_, .head (.note ha) (goesWithin_run hv hs (if_pos htrue))⟩
    | alternative =>
      cases hp with
      | @cons _ _ _ v _ _ _ _ hv hs hp =>
        cases hp
        have hfalse : ¬v.isTruthy = true := Bool.eq_false_iff.mp (ht v List.mem_cons_self)
        exact ⟨_, .head (.note ha) (goesWithin_run hv hs (if_neg hfalse))⟩
    | @argument _ i _ _ _ he =>
      cases hp with
      | cons hv hs hp =>
        obtain ⟨k, hk⟩ := hp.runEach he
        rw [Nat.add_comm 1 i] at hk
        exact ⟨k, .head (.note ha) ((goesWithin_run hv hs rfl).trans hk)⟩
    | letValue | returnValue | exprValue | blockBody =>
      cases hp
      cases ha
      exact ⟨_, .refl⟩
    | statement hst =>
      cases ha
      obtain ⟨k, hk⟩ := hp.runAll hst .null
      rw [Nat.zero_add] at hk
      exact ⟨k, hk⟩
    | programStatement hst =>
      obtain ⟨k, hk⟩ := hp.runAll hst .null
      rw [Nat.zero_add] at hk
      exact ⟨k, .head (.note ha) hk⟩

theorem Turn.next (h : m.Turn m') : m.Next m' := by
  obtain ⟨hb, k, hg⟩ := h.goes
  obtain ⟨n, c, p, s⟩ := m'
  cases hb
  exact .part hg

theorem Turn.ne_program (h : m.Turn m') (p : Program) : m'.code ≠ .program p := by
  obtain ⟨n, c, p, s⟩ := m
  cases h with
  | part hc =>
    dsimp only at hc
    cases hc <;> exact nofun

/-! ## What comes of a signal -/

/-- A signal of a part is what the code ends with. -/
theorem Turn.outcome_eq (h : m.Turn m') (ho : m'.outcome = some (v, t)) (hv : v.isSignal = true) :
    m.outcome = m.code.finish v t := by
  obtain ⟨hb, k, hg⟩ := h.goes
  exact outcome_of_part hg (hb ▸ ho) hv

theorem ComesTo.outcome_eq (h : m.ComesTo m') (hm : ∀ p, m.code ≠ .program p)
    (ho : m'.outcome = some (v, t)) (hv : v.isSignal = true) : m.outcome = some (v, t) := by
  induction h using ReflTransGen.head_induction_on with
  | refl => exact ho
  | head hturn _ ih =>
    rw [hturn.outcome_eq (ih hturn.ne_program) hv, Code.finish_of_ne_program hm]

theorem outcome_eq_of_program (h : TransGen Turn m m') (hm : m.code = .program p)
    (ho : m'.outcome = some (v, t)) (hv : v.isSignal = true) : m.outcome = some (v.landed, t) := by
  obtain ⟨m₁, hturn, h⟩ := TransGen.head'_iff.mp h
  rw [hturn.outcome_eq (ComesTo.outcome_eq h hturn.ne_program ho hv) hv, hm,
    Code.finish_program p hv]

theorem outcome_returnStmt (ho : outcome ⟨n, .expr e, p, s⟩ = some (v, t))
    (hv : v.isSignal = false) :
    outcome ⟨n, .stmt (.returnStmt tok e), p, s⟩ = some (.returned v, t) := by
  rw [outcome, Code.eval, Stmt.eval, Eval.andThen, Eval.bind_apply]
  exact (congrArg (Option.bind · _) ho).trans (by rw [Option.bind_some, hv]; rfl)

theorem ComesTo.budget_eq (h : m.ComesTo m') : m'.budget = m.budget := by
  induction h with
  | refl => rfl
  | tail _ hturn ih => exact hturn.goes.1.trans ih

/-- What the body of a function comes to lands as what its call comes to. -/
theorem callWithin_of_body {c : Closure} (he : c.entry args s = some (a, s'))
    (hb : outcome ⟨n, .block c.body, ⟨a, c.site⟩, s'⟩ = some (v, t)) :
    ∃ u, u.heap = t.heap.leave .whenUnreachable a v.landed ∧
      Closure.callWithin .whenUnreachable (n + 1) c args s = some (v.landed, u) := by
  obtain ⟨s₁, f, he', -, hf, heq⟩ := Closure.callWithin_succ .whenUnreachable n c args s
  cases he.symm.trans he'
  exact ⟨f v.landed t, hf v.landed t, heq.trans (congrArg (Option.map _) hb)⟩

end Moment

/-- Each scope is as it was, or, unless it is one of the first `b`, has lost its bindings. -/
def Heap.Cleared (b : Nat) (h h' : Heap) : Prop :=
  ∀ a, h'.scope? a = h.scope? a ∨ b ≤ a ∧ h'.scope? a = (h.scope? a).map .clear

namespace Heap.Cleared

theorem refl (h : Heap) : Cleared b h h := fun _ => .inl rfl

theorem mono (h : Cleared b h₁ h₂) (hb : b' ≤ b) : Cleared b' h₁ h₂ := fun a =>
  (h a).imp_right (And.imp_left (Nat.le_trans hb))

theorem trans (h : Cleared b h₁ h₂) (h' : Cleared b h₂ h₃) : Cleared b h₁ h₃ := by
  intro a
  rcases h a with h | ⟨hb, h⟩ <;> rcases h' a with h' | ⟨hb', h'⟩ <;> rw [h] at h'
  · exact .inl h'
  · exact .inr ⟨hb', h'⟩
  · exact .inr ⟨hb, h'⟩
  · exact .inr ⟨hb, h'.trans (Option.map_map ..)⟩

theorem leave (h : Heap) (policy : Release) (v : Value) (hb : b ≤ a) :
    Cleared b h (h.leave policy a v) := by
  intro a'
  by_cases ha : a = a'
  · subst ha
    exact (h.scope?_leave_self policy a v).imp_right fun heq => ⟨hb, heq⟩
  · exact .inl (h.scope?_leave_of_ne policy v ha)

end Heap.Cleared

namespace Moment

variable {m m' : Moment}

/-- An error of a part, or of the body of a function that is called, is the error of the whole. -/
theorem Next.error (h : m.Next m') (ho : m'.outcome = some (.error e, t)) :
    ∃ u, m.outcome = some (.error e, u) ∧ t.heap.Cleared m.store.heap.size u.heap := by
  cases h with
  | part hg =>
    refine ⟨t, ?_, .refl _⟩
    rw [outcome_of_part hg ho rfl, Code.finish_error]
  | @body c args s n a s₁ hc hb he =>
    obtain ⟨u, hu, hcall⟩ := callWithin_of_body he ho
    have hsize : m.store.heap.size ≤ a := eq_size_of_entry he ▸ hc.size_le
    obtain ⟨k, hg⟩ := hc
    exact ⟨u, outcome_of_call hg (hb ▸ hcall), hu ▸ .leave t.heap .whenUnreachable _ hsize⟩

theorem Runs.error (h : m.Runs m') (ho : m'.outcome = some (.error e, t)) :
    ∃ u, m.outcome = some (.error e, u) ∧ t.heap.Cleared m.store.heap.size u.heap := by
  induction h using ReflTransGen.head_induction_on with
  | refl => exact ⟨t, ho, .refl _⟩
  | head hnext _ ih =>
    obtain ⟨u, hu, hc⟩ := ih
    obtain ⟨u', hu', hc'⟩ := hnext.error hu
    exact ⟨u', hu', (hc.mono hnext.size_le).trans hc'⟩

/-- Signals cut through every context. If the turn of a part comes and it yields a signal, then what
stands around it yields this very signal and leaves the store as it is, and a program yields what the
signal lands as. A `return` whose operand is no signal ends the innermost call, with the value of its
operand and no signal. An error at any moment of a run, however deep in calls, is what the run ends in;
after it, scopes of calls lose their bindings and nothing else changes in the heap. -/
theorem signals_cut_through (m : Moment) :
    (∀ m' v t, m.ComesTo m' → (∀ p, m.code ≠ .program p) → m'.outcome = some (v, t) →
      v.isSignal = true → m.outcome = some (v, t)) ∧
    (∀ p m' v t, TransGen Turn m m' → m.code = .program p → m'.outcome = some (v, t) →
      v.isSignal = true → m.outcome = some (v.landed, t)) ∧
    (∀ n c args s a s₁ m' tok e w t, m.Calls c args s → m.budget = n + 1 →
      c.entry args s = some (a, s₁) → ComesTo ⟨n, .block c.body, ⟨a, c.site⟩, s₁⟩ m' →
      m'.code = .stmt (.returnStmt tok e) → outcome ⟨n, .expr e, m'.here, m'.store⟩ = some (w, t) →
      w.isSignal = false →
      ∃ u, u.heap = t.heap.leave .whenUnreachable a w ∧
        Closure.callWithin .whenUnreachable (n + 1) c args s = some (w, u) ∧
        m.outcome = some (w, u)) ∧
    ∀ m' e t, m.Runs m' → m'.outcome = some (.error e, t) →
      ∃ u, m.outcome = some (.error e, u) ∧ t.heap.Cleared m.store.heap.size u.heap := by
  refine ⟨fun m' v t h hm ho hv => h.outcome_eq hm ho hv,
    fun p m' v t h hm ho hv => outcome_eq_of_program h hm ho hv, ?_, fun m' e t h ho => h.error ho⟩
  intro n c args s a s₁ m' tok e w t hc hb he h hcode ho hw
  have hbudget : m'.budget = n := h.budget_eq
  have hreturn : m'.outcome = some (.returned w, t) := by
    rw [← outcome_returnStmt ho hw, ← hcode, ← hbudget]
  obtain ⟨u, hu, hcall⟩ := callWithin_of_body he (h.outcome_eq nofun hreturn rfl)
  obtain ⟨k, hg⟩ := hc
  exact ⟨u, hu, hcall, outcome_of_call hg (hb ▸ hcall)⟩

/-- The block `{ return 5; }`. -/
def returningBranch : Block :=
  ⟨⟨.lbrace, "\x7b"⟩, [.returnStmt ⟨.returnWord, "return"⟩ (.int ⟨.int, "5"⟩ 5)]⟩

/-- The expression `if (b) { return 5; }`. -/
def returningIf : Expr :=
  .cond ⟨.ifWord, "if"⟩ (.ident ⟨⟨.ident, "b"⟩, "b"⟩) returningBranch none

/-- The sum `1 + if (b) { return 5; }`. -/
def returningSum : Expr := .binary ⟨.plus, "+"⟩ (.int ⟨.int, "1"⟩ 1) "+" returningIf

/-- The statement `let a = 1 + if (b) { return 5; };`. -/
def returningLet : Stmt := .letStmt ⟨.letWord, "let"⟩ ⟨⟨.ident, "a"⟩, "a"⟩ returningSum

/-- The function `fn(b) { let a = 1 + if (b) { return 5; }; a }`, made in the first scope. -/
def returning : Closure :=
  ⟨[⟨⟨.ident, "b"⟩, "b"⟩],
    ⟨⟨.lbrace, "\x7b"⟩, [returningLet, .expr ⟨.ident, "a"⟩ (.ident ⟨⟨.ident, "a"⟩, "a"⟩)]⟩,
    0, ⟨0, [0]⟩⟩

/-- A call of the function, in a heap of one scope. -/
def returningCall (b : Bool) : Moment :=
  ⟨1, .expr (.call ⟨.lparen, "("⟩ (.function ⟨.fnWord, "fn"⟩ returning.parameters returning.body)
    [.bool ⟨.trueWord, toString b⟩ b]), ⟨0, ⟨0, []⟩⟩, ⟨Heap.push {} {}, {}⟩⟩

/-- The `return` cuts through the sum and the `let`, and ends the call. Without it the sum comes to an
error, which ends the call as well. -/
theorem signals_cut_through_returningCall :
    (∃ u, (returningCall true).outcome = some (.int 5, u)) ∧
    ∃ u, (returningCall false).outcome = some (.error (.typeMismatch .integer "+" .null), u) := by
  let s : Store := ⟨Heap.push {} {}, {}⟩
  let s₁ (b : Bool) : Store := ⟨s.heap.enter returning [.bool b], {}⟩
  let body (b : Bool) : Moment := ⟨0, .block returning.body, ⟨1, ⟨0, [0]⟩⟩, s₁ b⟩
  have hcalls (b : Bool) : (returningCall b).Calls returning [.bool b] s := by
    have hf : outcome ⟨1, .expr (.function ⟨.fnWord, "fn"⟩ returning.parameters returning.body),
      ⟨0, ⟨0, [0]⟩⟩, s⟩ = some (.closure returning, s) := rfl
    have hb : outcome ⟨1, .expr (.bool ⟨.trueWord, toString b⟩ b), ⟨0, ⟨0, [1]⟩⟩, s⟩ =
      some (.bool b, s) := rfl
    exact ⟨_, .head (.note rfl) (.head (.run hf) (.single (.run hb)))⟩
  have hentry (b : Bool) : returning.entry [.bool b] s = some (1, s₁ b) := rfl
  have hbody (b : Bool) : (body b).Turn ⟨0, .stmt returningLet, ⟨1, ⟨0, [0, 0]⟩⟩, s₁ b⟩ :=
    .part (i := some 0) (.statement rfl) rfl .nil trivial
  have hlet (b : Bool) : Turn ⟨0, .stmt returningLet, ⟨1, ⟨0, [0, 0]⟩⟩, s₁ b⟩
      ⟨0, .expr returningSum, ⟨1, ⟨0, [0, 0]⟩⟩, s₁ b⟩ :=
    .part (i := none) .letValue rfl .nil trivial
  have hsum : Turn ⟨0, .expr returningSum, ⟨1, ⟨0, [0, 0]⟩⟩, s₁ true⟩
      ⟨0, .expr returningIf, ⟨1, ⟨0, [1, 0, 0]⟩⟩, s₁ true⟩ :=
    .part (i := some 1) .right rfl (.cons (v := .int 1) rfl rfl .nil) trivial
  have hif : Turn ⟨0, .expr returningIf, ⟨1, ⟨0, [1, 0, 0]⟩⟩, s₁ true⟩
      ⟨0, .block returningBranch, ⟨1, ⟨0, [1, 1, 0, 0]⟩⟩, s₁ true⟩ :=
    .part (i := some 1) .consequence rfl (.cons (v := .bool true) rfl rfl .nil)
      (List.forall_mem_singleton.mpr rfl)
  have hbranch : Turn ⟨0, .block returningBranch, ⟨1, ⟨0, [1, 1, 0, 0]⟩⟩, s₁ true⟩
      ⟨0, .stmt (.returnStmt ⟨.returnWord, "return"⟩ (.int ⟨.int, "5"⟩ 5)),
        ⟨1, ⟨0, [0, 1, 1, 0, 0]⟩⟩, s₁ true⟩ :=
    .part (i := some 0) (.statement rfl) rfl .nil trivial
  have hreturn : (body true).ComesTo _ :=
    .head (hbody true) (.head (hlet true) (.head hsum (.head hif (.single hbranch))))
  obtain ⟨-, -, hcall, -⟩ := signals_cut_through (returningCall true)
  obtain ⟨u, -, -, hu⟩ := hcall 0 _ _ _ _ _ _ _ _ _ (s₁ true) (hcalls true) rfl (hentry true)
    hreturn rfl rfl rfl
  have hrun : (returningCall false).Runs _ :=
    .head (.body (hcalls false) rfl (hentry false)) <|
      .head (hbody false).next (.single (hlet false).next)
  obtain ⟨-, -, -, herror⟩ := signals_cut_through (returningCall false)
  obtain ⟨u', hu', -⟩ := herror _ _ (s₁ false) hrun rfl
  exact ⟨⟨u, hu⟩, u', hu'⟩

end Moment

end MonkeyLang
