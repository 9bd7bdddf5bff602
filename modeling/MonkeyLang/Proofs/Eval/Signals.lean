import MonkeyLang.Parser
import MonkeyLang.Proofs.Eval.Frame

/-!
# Where signals turn up

Errors and early returns are values, and everything that uses a value has to test for them. No test is
missing: a signal is never bound to a name and never wrapped in another one, and the value of a
`return` gets no further than the call or the program that it ends (`signals_confined`).
-/

namespace MonkeyLang

/-- An integer, a boolean, null or a function. -/
def Value.IsPlain : Value → Prop
  | int _ | bool _ | null | closure _ => True
  | returned _ | error _ => False

/-- What evaluation can come to: a plain value, an error, or a plain value on its way out. -/
inductive Value.IsResult : Value → Prop where
  | plain : v.IsPlain → IsResult v
  | error : IsResult (.error e)
  | returned : v.IsPlain → IsResult (.returned v)

/-- No scope binds an error or the value of a `return`. -/
def Heap.SignalFree (h : Heap) : Prop :=
  ∀ a s x v, h.scope? a = some s → (x, v) ∈ s.bindings → v.IsPlain

/-- One evaluation: some code is run in some scope, or some value is applied to others that are no
signals. -/
inductive Store.Evaluates (policy : Release) : Store → Store → Prop where
  | code : Code.eval (Closure.callWithin policy n) c here s = some (v, t) → Evaluates policy s t
  | apply : (∀ w ∈ args, w.isSignal = false) →
    Value.apply (Closure.callWithin policy n) f args s = some (v, t) → Evaluates policy s t

namespace Value

theorem isPlain_iff {v : Value} : v.IsPlain ↔ v.isSignal = false := by
  cases v <;> simp [IsPlain, isSignal]

theorem IsResult.of_isData {v : Value} (h : v.IsData) : v.IsResult := by
  cases v with
  | error => exact .error
  | returned | closure => exact h.elim
  | _ => exact .plain trivial

/-- A result that lands is not the value of a `return` any more. -/
theorem IsResult.landed {v : Value} (h : v.IsResult) :
    v.landed.IsResult ∧ ∀ w, v.landed ≠ .returned w := by
  have hplain {v : Value} (hv : v.IsPlain) : v.IsResult ∧ ∀ w, v ≠ .returned w :=
    ⟨.plain hv, fun w hw => by cases hw; exact hv⟩
  cases h with
  | @plain v hv =>
    rw [v.landed_eq_self (isPlain_iff.mp hv)]
    exact hplain hv
  | error => exact ⟨.error, nofun⟩
  | returned hv => exact hplain hv

end Value

namespace Heap.SignalFree

theorem empty : SignalFree {} := fun _ _ _ _ hs => nomatch hs

theorem push {h : Heap} (hh : h.SignalFree) (hs : ∀ y ∈ s.bindings, y.2.IsPlain) :
    (h.push s).SignalFree := by
  intro a s' x v hs' hx
  rw [scope?_push] at hs'
  split at hs'
  · cases hs'
    exact hs _ hx
  · exact hh a s' x v hs' hx

theorem set {h : Heap} (hh : h.SignalFree) (hv : v.IsPlain) : (h.set E name v).SignalFree := by
  intro a s x w hs hx
  obtain ⟨s', hs', -, hb⟩ := scope?_set_elim hs
  rcases hb _ hx with heq | hx
  · cases heq
    exact hv
  · exact hh a s' x w hs' hx

theorem enter {h : Heap} (hh : h.SignalFree) (hargs : ∀ v ∈ args, v.IsPlain) :
    (h.enter c args).SignalFree := by
  intro a s x w hs hx
  rcases scope?_enter_elim hs with ⟨-, -, hb⟩ | hs
  · exact hargs _ (hb _ hx)
  · exact hh a s x w hs hx

theorem leave {h : Heap} (hh : h.SignalFree) : (h.leave policy E v).SignalFree := by
  intro a s x w hs hx
  obtain ⟨s', hs', -, hb⟩ := scope?_leave_elim hs
  exact hh a s' x w hs' (hb _ hx)

theorem lookup {h : Heap} (hh : h.SignalFree) (hl : h.lookup a name = some v) : v.IsPlain := by
  obtain ⟨c, s, -, hs, hx⟩ := mem_of_lookup hl
  exact hh c s name v hs hx

end Heap.SignalFree

/-! ## The invariant -/

/-- What evaluation keeps of heaps without signals. -/
def confined (E : ScopeId) : Invariant E where
  Later _ _ := True
  heap := Heap.SignalFree
  value _ v := v.IsResult
  code _ _ := True
  refl _ := trivial
  trans _ _ := trivial
  child _ _ := trivial
  mono _ h := h
  data := .of_isData
  returned _ hs := .returned (Value.isPlain_iff.mpr hs)
  closure _ _ := .plain trivial
  lookup hh hl := .plain (hh.lookup hl)
  bind _ hh _ hs := ⟨trivial, hh.set (Value.isPlain_iff.mpr hs)⟩

/-- Code whose calls are confined is confined. -/
theorem Code.confined_eval {s t : Store} (hcalls : ∀ E, (confined E).Calls (Closure.callWithin policy n))
    (hs : s.heap.SignalFree)
    (h : Code.eval (Closure.callWithin policy n) c here s = some (v, t)) :
    t.heap.SignalFree ∧ v.IsResult :=
  (Invariant.keeps (Closure.logFree_callWithin policy n) (hcalls here.scope) hs trivial
    (fun _ _ hv => hv.landed.1) v t h).2

/-- A call binds its arguments, which are plain, and the value of its body lands. -/
theorem Closure.confined_callWithin (policy : Release) (n : Nat) {s t : Store}
    (hs : s.heap.SignalFree) (hargs : ∀ v ∈ args, v.isSignal = false)
    (h : callWithin policy n c args s = some (v, t)) :
    t.heap.SignalFree ∧ v.IsResult ∧ ∀ w, v ≠ .returned w := by
  induction n generalizing c args s t v with
  | zero => cases h
  | succ n ih =>
    obtain ⟨u, f, -, hu, hf, heq⟩ := callWithin_succ policy n c args s
    rw [heq] at h
    obtain ⟨⟨w, u'⟩, hw, hr⟩ := Option.map_eq_some_iff.mp h
    cases hr
    have hcalls (E) : (confined E).Calls (callWithin policy n) := by
      intro c args s hs _ hargs _ v t ht
      obtain ⟨ht, hv, -⟩ := ih hs (fun v hv => (hargs v hv).2) ht
      exact ⟨trivial, ht, hv⟩
    have henter : u.heap.SignalFree := hu ▸ hs.enter fun v hv => Value.isPlain_iff.mpr (hargs v hv)
    obtain ⟨hfree, hresult⟩ := Code.confined_eval (c := .block c.body) hcalls henter hw
    dsimp only
    rw [hf]
    exact ⟨hfree.leave, hresult.landed⟩

theorem confined_calls (policy : Release) (n : Nat) (E : ScopeId) :
    (confined E).Calls (Closure.callWithin policy n) := by
  intro c args s hs _ hargs _ v t ht
  obtain ⟨ht, hv, -⟩ := Closure.confined_callWithin policy n hs (fun v hv => (hargs v hv).2) ht
  exact ⟨trivial, ht, hv⟩

theorem Value.confined_apply {s t : Store} (hs : s.heap.SignalFree)
    (hargs : ∀ v ∈ args, v.isSignal = false)
    (h : Value.apply (Closure.callWithin policy n) f args s = some (v, t)) :
    t.heap.SignalFree ∧ v.IsResult ∧ ∀ w, v ≠ .returned w := by
  rcases Value.apply_elim h with ⟨c, -, -, hcall⟩ | ⟨e, rfl, hheap⟩
  · exact Closure.confined_callWithin policy n hs hargs hcall
  · exact ⟨hheap ▸ hs, .error, nofun⟩

/-- The value of a program has landed. -/
theorem Program.landed_evalWith {s t : Store} (hs : s.heap.SignalFree)
    (h : Program.evalWith (Closure.callWithin policy n) p here s = some (v, t)) (w : Value) :
    v ≠ .returned w := by
  obtain ⟨u, f, hu, -, heq⟩ := Program.evalWith_apply (Closure.callWithin policy n) p here s
  rw [heq] at h
  obtain ⟨⟨v', u'⟩, hv', hr⟩ := Option.map_eq_some_iff.mp h
  cases hr
  -- the statements of a program come to what a block of them does
  have hblock : Code.eval (Closure.callWithin policy n) (.block ⟨.eof, p.statements⟩) here u =
      some (v', u') := by
    rw [Code.eval, Block.eval]
    exact hv'
  exact (Code.confined_eval (confined_calls policy n) (hu ▸ hs) hblock).2.landed.2 w

theorem Store.Evaluates.signalFree {s t : Store} (h : s.Evaluates policy t)
    (hs : s.heap.SignalFree) : t.heap.SignalFree := by
  cases h with
  | code h => exact (Code.confined_eval (confined_calls policy _) hs h).1
  | apply hargs h => exact (Value.confined_apply hs hargs h).1

/-- Signals stay where they belong. From a heap in which no scope binds a signal, any sequence of
evaluations leads to such a heap again. There, code comes to a plain value, an error, or a plain value
on its way out; and what a program or an application comes to is not on its way out. -/
theorem signals_confined {policy : Release} {s t : Store} (hs : s.heap.SignalFree)
    (ht : Relation.ReflTransGen (Store.Evaluates policy) s t) :
    t.heap.SignalFree ∧
      (∀ n c here v u, Code.eval (Closure.callWithin policy n) c here t = some (v, u) →
        v.IsResult ∧ ∀ p, c = .program p → ∀ w, v ≠ .returned w) ∧
      ∀ n f args v u, (∀ w ∈ args, w.isSignal = false) →
        Value.apply (Closure.callWithin policy n) f args t = some (v, u) →
        v.IsResult ∧ ∀ w, v ≠ .returned w := by
  have hfree : t.heap.SignalFree := by
    induction ht with
    | refl => exact hs
    | tail _ h ih => exact h.signalFree ih
  refine ⟨hfree, fun n c here v u h => ⟨?_, ?_⟩, fun n f args v u hargs h => ?_⟩
  · exact (Code.confined_eval (confined_calls policy n) hfree h).2
  · rintro p rfl
    exact Program.landed_evalWith hfree h
  · exact (Value.confined_apply hfree hargs h).2

/-- A function that returns early, and a `let` whose value comes to an error. -/
def failingLet : Code :=
  .program (parse "let f = fn(x) \x7b if (x) \x7b return 7; \x7d \x7d; let y = -f(true) + f(false);").1

/-- A call of that function. -/
def earlyReturn : Code := .program (parse "f(true)").1

theorem signals_confined_failingLet : ∃ e t v u,
    failingLet.eval (Closure.callWithin .whenUnreachable 1) ⟨0, ⟨0, []⟩⟩ ⟨Heap.push {} {}, {}⟩ =
      some (.error e, t) ∧
    t.heap.SignalFree ∧
    earlyReturn.eval (Closure.callWithin .whenUnreachable 1) ⟨0, ⟨1, []⟩⟩ t = some (v, u) ∧
    v.IsResult ∧ ∀ w, v ≠ .returned w := by
  have hrun : ((failingLet.eval (Closure.callWithin .whenUnreachable 1) ⟨0, ⟨0, []⟩⟩
      ⟨Heap.push {} {}, {}⟩).bind fun r => (earlyReturn.eval (Closure.callWithin .whenUnreachable 1)
        ⟨0, ⟨1, []⟩⟩ r.2).map fun q => (r.1.isError, q.1.type)) = some (true, .integer) := by
    decide +kernel
  obtain ⟨⟨v, t⟩, h, hrun⟩ := Option.bind_eq_some_iff.mp hrun
  obtain ⟨⟨w, u⟩, h', hw⟩ := Option.map_eq_some_iff.mp hrun
  cases v with
  | error e =>
    have hfree : (Heap.push {} {}).SignalFree := Heap.SignalFree.empty.push nofun
    obtain ⟨ht, hcode, -⟩ := signals_confined (s := ⟨Heap.push {} {}, {}⟩) hfree (.single (.code h))
    obtain ⟨hresult, hprogram⟩ := hcode _ _ _ _ _ h'
    exact ⟨e, t, w, u, h, ht, h', hresult, hprogram _ rfl⟩
  | _ => cases hw

end MonkeyLang
