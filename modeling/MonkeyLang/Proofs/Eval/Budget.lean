import MonkeyLang.Proofs.Eval.Moment

/-!
# Budgets

Calls nest at most as deep as a budget allows, and a run that would go deeper has no result. A larger
budget changes no result there is (`Closure.callWithin_mono`), so what code comes to does not depend on
the budget: `Code.Yields` leaves it out, and has one result at most (`Code.Yields.unique`).
-/

namespace MonkeyLang

/-- The second computation does what the first does, wherever that has a result. -/
def Eval.Upto (x y : Eval α) : Prop := ∀ s r, x s = some r → y s = some r

namespace Eval.Upto

theorem refl (x : Eval α) : Upto x x := fun _ _ h => h

theorem bind {x y : Eval α} {f g : α → Eval β} (hx : Upto x y) (hf : ∀ a, Upto (f a) (g a)) :
    Upto (x >>= f) (y >>= g) := by
  intro s r h
  obtain ⟨⟨a, t⟩, ha, h⟩ := Option.bind_eq_some_iff.mp h
  exact Option.bind_eq_some_iff.mpr ⟨(a, t), hx _ _ ha, hf a t r h⟩

end Eval.Upto

section
variable {call call' : Closure → List Value → Eval Value}

theorem Script.upto {Q : Eval Value → Prop} (hcall : ∀ c args, (call c args).Upto (call' c args))
    {k : Script} (hk : k.All (fun c here => (c.eval call here).Upto (c.eval call' here)) Q) :
    (k.eval call).Upto (k.eval call') := by
  induction k with
  | done x => exact .refl x
  | note component level message k ih => exact .bind (.refl _) fun _ => ih hk
  | run c here k ih => exact .bind hk.1 fun v => ih v (hk.2 v)
  | call c args k ih => exact .bind (hcall c args) fun v => ih v (hk v)

/-- Calls with more results give evaluation more results. -/
theorem Code.upto_eval (hcall : ∀ c args, (call c args).Upto (call' c args)) (c : Code)
    (here : Place) : (c.eval call here).Upto (c.eval call' here) := by
  induction c using Code.induction generalizing here with
  | h c ih =>
    rw [← c.eval_script, ← c.eval_script]
    exact Script.upto hcall <| (c.script_all here).mono fun d p ⟨_, hd, _⟩ => ih _ d hd p

end

theorem Closure.callWithin_mono (policy : Release) (h : n ≤ m) (c : Closure) (args : List Value) :
    (callWithin policy n c args).Upto (callWithin policy m c args) := by
  induction n generalizing m c args with
  | zero => exact nofun
  | succ n ih =>
    obtain ⟨m, rfl⟩ := Nat.exists_eq_add_of_le' (Nat.one_le_of_lt h)
    rw [callWithin_eq, callWithin_eq]
    exact .bind (.refl _) fun scope =>
      .bind ((Code.block c.body).upto_eval (ih (Nat.le_of_succ_le_succ h)) _) fun v => .refl _

theorem Code.eval_mono (policy : Release) (h : n ≤ m) (c : Code) (here : Place) :
    (c.eval (Closure.callWithin policy n) here).Upto (c.eval (Closure.callWithin policy m) here) :=
  c.upto_eval (Closure.callWithin_mono policy h) here

/-- The code comes to a value and leaves a store, with some budget. -/
def Code.Yields (c : Code) (here : Place) (s : Store) (v : Value) (t : Store) : Prop :=
  ∃ n, c.eval (Closure.callWithin .whenUnreachable n) here s = some (v, t)

theorem Code.Yields.unique {c : Code} (h : c.Yields here s v t) (h' : c.Yields here s v' t') :
    v = v' ∧ t = t' := by
  obtain ⟨n, hn⟩ := h
  obtain ⟨m, hm⟩ := h'
  suffices heq : (v, t) = (v', t') from Prod.mk.inj heq
  rcases Nat.le_total n m with hle | hle
  · exact Option.some.inj ((c.eval_mono _ hle here s _ hn).symm.trans hm)
  · exact Option.some.inj (hn.symm.trans (c.eval_mono _ hle here s _ hm))

end MonkeyLang
