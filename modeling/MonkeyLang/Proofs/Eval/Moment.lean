import MonkeyLang.Proofs.Eval.Invariant
import MonkeyLang.Proofs.Eval.Lexical
import MonkeyLang.Proofs.Eval.Script

/-!
# The moments of a run

A `Moment` is a piece of code about to be evaluated, and `Moment.Runs` leads from the start of a run
to all its moments, also to those of a run that never ends. Evaluation calls nothing but what the
moments call (`Moment.eval_eq_of_calls`). Each call makes one scope, and no two calls of a run make
the same (`Moment.Calls.unique`), for of two calls one comes first and the heap has grown before the
other.
-/

namespace MonkeyLang

open Relation (ReflTransGen)

/-! ## Heaps grow -/

theorem Script.grows {call : Closure → List Value → Eval Value} {k : Script}
    (hcall : ∀ c args, (call c args).Grows)
    (hk : k.All (fun c here => (c.eval call here).Grows) Eval.Grows) : (k.eval call).Grows := by
  induction k with
  | done x => exact hk
  | note component level message k ih =>
    intro s v t ht
    rw [eval, Eval.bind_apply] at ht
    obtain ⟨⟨_, u⟩, hu, ht⟩ := Option.bind_eq_some_iff.mp ht
    exact Nat.le_trans ((Eval.quiet_note _ _ _).grows _ _ _ hu) (ih hk _ _ _ ht)
  | run c here k ih =>
    intro s v t ht
    obtain ⟨⟨w, u⟩, hu, ht⟩ := Option.bind_eq_some_iff.mp ht
    exact Nat.le_trans (hk.1 _ _ _ hu) (ih w (hk.2 w) _ _ _ ht)
  | call c args k ih =>
    intro s v t ht
    obtain ⟨⟨w, u⟩, hu, ht⟩ := Option.bind_eq_some_iff.mp ht
    exact Nat.le_trans (hcall c args _ _ _ hu) (ih w (hk w) _ _ _ ht)

theorem Script.All.mono {P P' : Code → Place → Prop} {Q : Eval Value → Prop} {k : Script}
    (hk : k.All P Q) (h : ∀ c here, P c here → P' c here) : k.All P' Q := by
  induction k with
  | done x => exact hk
  | note component level message k ih => exact ih hk
  | run c here k ih => exact ⟨h _ _ hk.1, fun v => ih v (hk.2 v)⟩
  | call c args k ih => exact fun v => ih v (hk v)

theorem Code.grows_eval {call : Closure → List Value → Eval Value}
    (hcall : ∀ c args, (call c args).Grows) (c : Code) (here : Place) :
    (c.eval call here).Grows := by
  induction c using Code.induction generalizing here with
  | h c ih =>
    rw [← c.eval_script]
    exact Script.grows hcall <| (c.script_all here).mono fun d p ⟨_, hd, _⟩ => ih _ d hd p

theorem Closure.grows_callWithin (policy : Release) (n : Nat) (c : Closure) (args : List Value) :
    (callWithin policy n c args).Grows := by
  induction n generalizing c args with
  | zero => exact nofun
  | succ n ih =>
    intro s v u hu
    obtain ⟨t, f, -, ht, hf, heq⟩ := callWithin_succ policy n c args s
    rw [heq] at hu
    obtain ⟨⟨w, u'⟩, hw, hr⟩ := Option.map_eq_some_iff.mp hu
    cases hr
    have := (Code.block c.body).grows_eval ih _ _ _ _ hw
    dsimp only
    rw [hf, Heap.size_leave]
    rw [ht, Heap.size_enter] at this
    exact Nat.le_of_succ_le this

namespace Script

/-- The steps of code run with calls that nest at most `n` deep. -/
abbrev GoesWithin (n : Nat) : Script × Store → Script × Store → Prop :=
  Goes (Closure.callWithin .whenUnreachable n)

theorem Step.size_le (h : Step (Closure.callWithin .whenUnreachable n) a b) :
    a.2.heap.size ≤ b.2.heap.size := by
  cases h with
  | note h => exact (Eval.quiet_note _ _ _).grows _ _ _ h
  | run h => exact Code.grows_eval (Closure.grows_callWithin _ _) _ _ _ _ _ h
  | call h => exact Closure.grows_callWithin _ _ _ _ _ _ _ h

theorem GoesWithin.size_le (h : GoesWithin n a b) : a.2.heap.size ≤ b.2.heap.size := by
  induction h with
  | refl => exact Nat.le_refl _
  | tail _ h ih => exact Nat.le_trans ih h.size_le

/-! ## The calls of a script -/

/-- `Makes n a c s`: the step of a script at `a` comes to call `c` in the store `s`, itself or in the
code that it runs. -/
inductive Makes : Nat → Script × Store → Closure → Store → Prop
  | call : Makes n (.call c args k, s) c s
  | run : GoesWithin n (c.script here, s) a → Makes n a d u → Makes n (.run c here k, s) d u
  | body : c.entry args s = some (e, t) → GoesWithin n ((Code.block c.body).script ⟨e, c.site⟩, t) a →
    Makes n a d u → Makes (n + 1) (.call c args k, s) d u

theorem size_entry {c : Closure} (h : c.entry args s = some (e, t)) :
    t.heap.size = s.heap.size + 1 := by
  obtain ⟨t', ht', hheap⟩ := c.entry_apply args s
  cases h.symm.trans ht'
  rw [hheap, Heap.size_enter]

theorem Makes.size_le (h : Makes n a d u) : a.2.heap.size ≤ u.heap.size := by
  induction h with
  | call => exact Nat.le_refl _
  | run hg _ ih => exact Nat.le_trans hg.size_le ih
  | body he hg _ ih =>
    have := hg.size_le
    rw [size_entry he] at this
    exact Nat.le_trans (Nat.le_of_succ_le this) ih

theorem size_lt_of_body {c : Closure} (he : c.entry args s = some (e, t))
    (hg : GoesWithin n ((Code.block c.body).script ⟨e, c.site⟩, t) a) (h : Makes n a d u) :
    s.heap.size < u.heap.size := by
  have := Nat.le_trans hg.size_le h.size_le
  rw [size_entry he] at this
  exact this

/-- A call that ends has run its body to the end. -/
theorem body_of_call {c : Closure} (he : c.entry args s = some (e, t))
    (h : Closure.callWithin .whenUnreachable (n + 1) c args s = some (v, u)) :
    ∃ w t', ((Code.block c.body).script ⟨e, c.site⟩).eval
        (Closure.callWithin .whenUnreachable n) t = some (w, t') ∧
      t'.heap.size = u.heap.size := by
  obtain ⟨t', f, he', -, hf, heq⟩ := Closure.callWithin_succ .whenUnreachable n c args s
  cases he.symm.trans he'
  rw [heq] at h
  obtain ⟨⟨w, t''⟩, hw, hr⟩ := Option.map_eq_some_iff.mp h
  cases hr
  exact ⟨w, t'', by rw [Code.eval_script]; exact hw, by rw [hf, Heap.size_leave]⟩

theorem all_grows (n : Nat) (c : Code) (here : Place) : (c.script here).All
    (fun d p => (d.eval (Closure.callWithin .whenUnreachable n) p).Grows) Eval.Grows :=
  (c.script_all here).mono fun d p _ => d.grows_eval (Closure.grows_callWithin _ _) p

/-- What calls something at its next step gets there, if it ends. -/
theorem Makes.exists_step (h : Makes n a d u)
    (ht : a.1.eval (Closure.callWithin .whenUnreachable n) a.2 = some r) :
    ∃ b, Step (Closure.callWithin .whenUnreachable n) a b ∧
      b.1.eval (Closure.callWithin .whenUnreachable n) b.2 = some r := by
  cases h with
  | call | run | body =>
    obtain ⟨⟨v, t⟩, hv, hr⟩ := Option.bind_eq_some_iff.mp ht
    first | exact ⟨_, .call hv, hr⟩ | exact ⟨_, .run hv, hr⟩

/-- Code that ends has done the step that makes the call, and its heap grows after that. -/
theorem Makes.size_lt_of_eval {c : Code} {t : Store} (h : Makes n a d u)
    (hg : GoesWithin n (c.script here, s) a)
    (hlt : ∀ b, Step (Closure.callWithin .whenUnreachable n) a b → u.heap.size < b.2.heap.size)
    (ht : (c.script here).eval (Closure.callWithin .whenUnreachable n) s = some (v, t)) :
    u.heap.size < t.heap.size := by
  obtain ⟨b, hb, hr⟩ := h.exists_step (hg.eval.symm.trans ht)
  have hall := hb.all (hg.all (all_grows n c here))
  exact Nat.lt_of_lt_of_le (hlt b hb) (Script.grows (Closure.grows_callWithin _ _) hall _ _ _ hr)

/-- When a step is done, the heap has grown beyond the scope of each call in it. -/
theorem Makes.size_lt (h : Makes n a d u)
    (hstep : Step (Closure.callWithin .whenUnreachable n) a b) :
    u.heap.size < b.2.heap.size := by
  induction h generalizing b with
  | @call n c args k s =>
    cases hstep with
    | @call _ _ _ v t _ h =>
      cases n with
      | zero => cases h
      | succ n =>
        obtain ⟨t₀, he, -⟩ := c.entry_apply args s
        obtain ⟨w, t', hw, hsize⟩ := body_of_call he h
        have := Script.grows (Closure.grows_callWithin _ _) (all_grows n _ _) _ _ _ hw
        rw [size_entry he, hsize] at this
        exact this
  | run hg hm ih =>
    cases hstep with
    | run h =>
      rw [← Code.eval_script] at h
      exact hm.size_lt_of_eval hg (fun b => ih) h
  | body he hg hm ih =>
    cases hstep with
    | call h =>
      obtain ⟨w, t', hw, hsize⟩ := body_of_call he h
      rw [← hsize]
      exact hm.size_lt_of_eval hg (fun b => ih) hw

/-- Calls that make one scope belong to one step. -/
theorem Makes.eq_of_size_eq (h : Makes n a c s) (h' : Makes n b d t) (ha : GoesWithin n o a)
    (hb : GoesWithin n o b) (hsize : s.heap.size = t.heap.size) : a = b := by
  rcases Goes.linear ha hb with hr | hr
  · rcases hr.cases_head with heq | ⟨x, hx, hr⟩
    · exact heq
    · have hle := Nat.le_trans (GoesWithin.size_le hr) h'.size_le
      exact absurd hsize (Nat.ne_of_lt (Nat.lt_of_lt_of_le (h.size_lt hx) hle))
  · rcases hr.cases_head with heq | ⟨x, hx, hr⟩
    · exact heq.symm
    · have hle := Nat.le_trans (GoesWithin.size_le hr) h.size_le
      exact absurd hsize.symm (Nat.ne_of_lt (Nat.lt_of_lt_of_le (h'.size_lt hx) hle))

/-- No two calls make the same scope. -/
theorem Makes.unique (h : Makes n a c s) (h' : Makes n a d t)
    (hsize : s.heap.size = t.heap.size) : c = d := by
  induction h generalizing d t with
  | call =>
    cases h' with
    | call => rfl
    | body he hg hm => exact absurd hsize (Nat.ne_of_lt (size_lt_of_body he hg hm))
  | run hg hm ih =>
    cases h' with
    | run hg' hm' =>
      cases hm.eq_of_size_eq hm' hg hg' hsize
      exact ih hm' hsize
  | body he hg hm ih =>
    cases h' with
    | call => exact absurd hsize (Nat.ne_of_gt (size_lt_of_body he hg hm))
    | body he' hg' hm' =>
      cases he.symm.trans he'
      cases hm.eq_of_size_eq hm' hg hg' hsize
      exact ih hm' hsize

end Script

/-! ## Moments -/

/-- A piece of code about to be evaluated, where and in which store, with calls that may nest
`budget` deep. -/
structure Moment where
  budget : Nat
  code : Code
  here : Place
  store : Store

namespace Moment

/-- What the evaluation comes to. -/
def outcome (m : Moment) : Option (Value × Store) :=
  m.code.eval (Closure.callWithin .whenUnreachable m.budget) m.here m.store

/-- The evaluation comes to a step of its script. -/
def Goes (m : Moment) (a : Script × Store) : Prop :=
  Script.GoesWithin m.budget (m.code.script m.here, m.store) a

/-- The evaluation of a call comes to call `c` in the store `s`. -/
def Calls (m : Moment) (c : Closure) (args : List Value) (s : Store) : Prop :=
  ∃ k, m.Goes (.call c args k, s)

/-- The moments that the evaluation of some code leads to: its parts, each when its turn comes, and
the body of a function that it calls, in the scope made for the call. -/
inductive Next (m : Moment) : Moment → Prop
  | part : m.Goes (.run c p k, s) → m.Next ⟨m.budget, c, p, s⟩
  | body : m.Calls c args s → m.budget = n + 1 → c.entry args s = some (e, t) →
    m.Next ⟨n, .block c.body, ⟨e, c.site⟩, t⟩

/-- The moments of the run that starts with a moment. -/
abbrev Runs : Moment → Moment → Prop := ReflTransGen Next

theorem Runs.makes {m m' : Moment} (h : m.Runs m') (hc : m'.Calls c args s) :
    ∃ a, m.Goes a ∧ Script.Makes m.budget a c s := by
  induction h using ReflTransGen.head_induction_on with
  | refl =>
    obtain ⟨k, hk⟩ := hc
    exact ⟨_, hk, .call⟩
  | head hn _ ih =>
    obtain ⟨a, ha, hm⟩ := ih
    cases hn with
    | part hg => exact ⟨_, hg, .run ha hm⟩
    | body hd hb he =>
      obtain ⟨k, hk⟩ := hd
      exact ⟨_, hk, hb ▸ .body he ha hm⟩

/-- The calls of a run make different scopes: the scope tells the function. -/
theorem Calls.unique {m m₁ m₂ : Moment} (h₁ : m.Runs m₁) (h₂ : m.Runs m₂) (hc : m₁.Calls c vs s)
    (hd : m₂.Calls d ws t) (hsize : s.heap.size = t.heap.size) : c = d := by
  obtain ⟨a, ha, hm⟩ := h₁.makes hc
  obtain ⟨b, hb, hm'⟩ := h₂.makes hd
  cases hm.eq_of_size_eq hm' ha hb hsize
  exact hm.unique hm' hsize

theorem Next.size_le {m m' : Moment} (h : m.Next m') : m.store.heap.size ≤ m'.store.heap.size := by
  cases h with
  | part hg => exact Script.GoesWithin.size_le hg
  | body hc hb he =>
    obtain ⟨k, hk⟩ := hc
    have := Script.GoesWithin.size_le hk
    rw [Script.size_entry he]
    exact Nat.le_succ_of_le this

theorem Runs.size_le {m m' : Moment} (h : m.Runs m') :
    m.store.heap.size ≤ m'.store.heap.size := by
  induction h with
  | refl => exact Nat.le_refl _
  | tail _ h ih => exact Nat.le_trans ih h.size_le

theorem Calls.size_le {m : Moment} (h : m.Calls c args s) :
    m.store.heap.size ≤ s.heap.size := by
  obtain ⟨k, hk⟩ := h
  exact Script.GoesWithin.size_le hk

theorem eq_size_of_entry {c : Closure} (h : c.entry args s = some (a, t)) : a = s.heap.size := by
  obtain ⟨t', ht, -⟩ := c.entry_apply args s
  cases h.symm.trans ht
  rfl

/-! ## Evaluation calls what the moments call -/

end Moment

theorem Script.eval_congr {call call' : Closure → List Value → Eval Value} {k : Script}
    (hrun : ∀ d p k' t, Goes call (k, s) (.run d p k', t) → d.eval call' p t = d.eval call p t)
    (hcall : ∀ c args k' t, Goes call (k, s) (.call c args k', t) → call' c args t = call c args t) :
    k.eval call' s = k.eval call s := by
  induction k generalizing s with
  | done x => rfl
  | note component level message k ih =>
    obtain ⟨t, ht, -⟩ := Eval.quiet_note component level message s
    rw [eval, eval, Eval.bind_apply, Eval.bind_apply, ht]
    exact ih (fun _ _ _ _ h => hrun _ _ _ _ (.head (.note ht) h))
      fun _ _ _ _ h => hcall _ _ _ _ (.head (.note ht) h)
  | run c here k ih =>
    rw [eval, eval, Eval.bind_apply, Eval.bind_apply, hrun _ _ _ _ .refl]
    cases hr : c.eval call here s with
    | none => rfl
    | some r =>
      exact ih r.1 (fun _ _ _ _ h => hrun _ _ _ _ (.head (.run hr) h))
        fun _ _ _ _ h => hcall _ _ _ _ (.head (.run hr) h)
  | call c args k ih =>
    rw [eval, eval, Eval.bind_apply, Eval.bind_apply, hcall _ _ _ _ .refl]
    cases hr : call c args s with
    | none => rfl
    | some r =>
      exact ih r.1 (fun _ _ _ _ h => hrun _ _ _ _ (.head (.call hr) h))
        fun _ _ _ _ h => hcall _ _ _ _ (.head (.call hr) h)

/-- Evaluation makes no calls but those of its moments. -/
theorem Moment.eval_eq_of_calls {call : Closure → List Value → Eval Value} (m : Moment)
    (hcall : ∀ m', m.Runs m' → m'.budget = m.budget → ∀ c args s, m'.Calls c args s →
      call c args s = Closure.callWithin .whenUnreachable m.budget c args s) :
    m.code.eval call m.here m.store = m.outcome := by
  obtain ⟨n, c, here, s⟩ := m
  induction c using Code.induction generalizing here s with
  | h c ih =>
    rw [outcome, ← Code.eval_script, ← Code.eval_script]
    refine Script.eval_congr (fun d p k t hg => ?_) fun c args k t hg => ?_
    · obtain ⟨⟨i, hd, -⟩, -⟩ := Script.Goes.all hg (c.script_all here)
      exact ih i d hd p t fun m' hm => hcall m' (.head (.part hg) hm)
    · exact hcall _ .refl rfl c args t ⟨k, hg⟩

end MonkeyLang
