import MonkeyLang.Proofs.Eval.Moment

/-!
# Invariants at every step

An `Invariant` speaks of evaluations that end. Here it is followed to every step of a script, also
where the evaluation does not end (`Invariant.Safe.goes`): code is run in the scope of the invariant,
and functions are called that keep it, with as many arguments as they have parameters.
-/

namespace MonkeyLang

namespace Invariant

variable {E : ScopeId} (I : Invariant E)

/-- Whatever the script runs and calls, from the heap `h` on, is within the invariant. -/
def Safe : Script → Heap → Prop
  | .done _, _ => True
  | .note _ _ _ k, h => Safe k h
  | .run c here k, h => here.scope = E ∧ I.code c here.site ∧
    ∀ h' v, I.Later h h' → I.heap h' → I.value h' v → Safe (k v) h'
  | .call c args k, h => I.value h (.closure c) ∧ (∀ v ∈ args, I.value h v ∧ v.isSignal = false) ∧
    args.length = c.parameters.length ∧
    ∀ h' v, I.Later h h' → I.heap h' → I.value h' v → Safe (k v) h'

variable {I}

theorem Safe.unlessSignal {f : Value → Script} (hf : v.isSignal = false → I.Safe (f v) h) :
    I.Safe (Script.unlessSignal f v) h := by
  unfold Script.unlessSignal
  split
  · trivial
  · exact hf (Bool.eq_false_iff.mpr ‹_›)

theorem Safe.runEach {k : List Value → Script}
    (hes : ∀ j e, es[j]? = some e → I.code (.expr e) (σ.child (i + j)))
    (hk : ∀ h' vs, I.Later h h' → (∀ v ∈ vs, I.value h' v ∧ v.isSignal = false) →
      I.Safe (k vs) h') : I.Safe (Script.runEach ⟨E, σ⟩ es i k) h := by
  induction es generalizing i k h with
  | nil => exact hk h [] (I.refl h) (by simp)
  | cons e es ih =>
    refine ⟨rfl, hes 0 e rfl, fun h' v hl _ hv => .unlessSignal fun hs => ?_⟩
    refine ih (fun j e he => ?_) fun h'' vs hl' hvs => ?_
    · rw [Nat.add_right_comm]
      exact hes (j + 1) e he
    · exact hk h'' (v :: vs) (I.trans hl hl') (List.forall_mem_cons.mpr ⟨⟨I.mono hl' hv, hs⟩, hvs⟩)

theorem Safe.runAll {k : Value → Script}
    (hss : ∀ j s, ss[j]? = some s → I.code (.stmt s) (σ.child (i + j)))
    (hk : ∀ h v, I.Safe (k v) h) (last : Value) :
    I.Safe (Script.runAll ⟨E, σ⟩ ss i last k) h := by
  induction ss generalizing i last h with
  | nil => exact hk h last
  | cons s ss ih =>
    refine ⟨rfl, hss 0 s rfl, fun h' v _ _ _ => ?_⟩
    dsimp only
    split
    · exact hk h' v
    · refine ih (fun j s hs => ?_) v
      rw [Nat.add_right_comm]
      exact hss (j + 1) s hs

theorem Safe.apply (hf : I.value h f) (hvs : ∀ v ∈ vs, I.value h v ∧ v.isSignal = false) :
    I.Safe (Script.apply f vs) h := by
  unfold Script.apply
  split
  · split
    · next hlen => exact ⟨hf, hvs, hlen, fun _ _ _ _ _ => trivial⟩
    · trivial
  · trivial

/-- Code of the invariant is safe from every heap. -/
theorem safe_script (hc : I.code c σ) (h : Heap) : I.Safe (c.script ⟨E, σ⟩) h := by
  have hdone : ∀ h' v, I.Later h h' → I.heap h' → I.value h' v →
      I.Safe (.done (pure v)) h' := fun _ _ _ _ _ => trivial
  cases c with
  | expr e =>
    cases e with
    | ident | int | bool | function => trivial
    | unary => exact ⟨rfl, I.child hc .unary, fun _ _ _ _ _ => .unlessSignal fun _ => trivial⟩
    | binary =>
      exact ⟨rfl, I.child hc .left, fun _ _ _ _ _ => .unlessSignal fun _ =>
        ⟨rfl, I.child hc .right, fun _ _ _ _ _ => .unlessSignal fun _ => trivial⟩⟩
    | cond t e b alt =>
      cases alt with
      | none =>
        refine ⟨rfl, I.child hc .condition, fun h' v _ _ _ => .unlessSignal fun _ => ?_⟩
        split
        · exact ⟨rfl, I.child hc .consequence, fun _ _ _ _ _ => trivial⟩
        · trivial
      | some a =>
        refine ⟨rfl, I.child hc .condition, fun h' v _ _ _ => .unlessSignal fun _ => ?_⟩
        split
        · exact ⟨rfl, I.child hc .consequence, fun _ _ _ _ _ => trivial⟩
        · exact ⟨rfl, I.child hc .alternative, fun _ _ _ _ _ => trivial⟩
    | call t f es =>
      refine ⟨rfl, I.child hc .callee, fun h' f hl _ hf => .unlessSignal fun _ => ?_⟩
      refine .runEach (fun j e he => ?_) fun h'' vs hl' hvs => .apply (I.mono hl' hf) hvs
      rw [Nat.add_comm]
      exact I.child hc (.argument he)
  | stmt s =>
    cases s with
    | letStmt => exact ⟨rfl, I.child hc .letValue, fun _ _ _ _ _ => .unlessSignal fun _ => trivial⟩
    | returnStmt =>
      exact ⟨rfl, I.child hc .returnValue, fun _ _ _ _ _ => .unlessSignal fun _ => trivial⟩
    | expr => exact ⟨rfl, I.child hc .exprValue, hdone⟩
    | block => exact ⟨rfl, I.child hc .blockBody, hdone⟩
  | block b =>
    obtain ⟨t, ss⟩ := b
    refine .runAll (fun j s hs => ?_) (fun _ _ => ?_) _
    · rw [Nat.zero_add]
      exact I.child hc (.statement hs)
    · trivial
  | program p =>
    refine .runAll (fun j s hs => ?_) (fun _ _ => ?_) _
    · rw [Nat.zero_add]
      exact I.child hc (.programStatement hs)
    · trivial

variable {call : Closure → List Value → Eval Value} (hlog : LogFree call) (hcall : I.Calls call)
  (hlanded : ∀ h v, I.value h v → I.value h v.landed)
include hlog hcall hlanded

theorem Safe.step (hk : I.Safe k s.heap) (hi : I.heap s.heap)
    (hstep : Script.Step call (k, s) (k', t)) :
    I.Later s.heap t.heap ∧ I.heap t.heap ∧ I.Safe k' t.heap := by
  cases hstep with
  | note h =>
    cases h
    exact ⟨I.refl _, hi, hk⟩
  | run h =>
    obtain ⟨rfl, hc, hk⟩ := hk
    obtain ⟨hl, hi', hv⟩ := I.keeps hlog hcall hi hc hlanded _ t h
    exact ⟨hl, hi', hk _ _ hl hi' hv⟩
  | call h =>
    obtain ⟨hc, hargs, hlen, hk⟩ := hk
    obtain ⟨hl, hi', hv⟩ := hcall _ _ s hi hc hargs hlen _ t h
    exact ⟨hl, hi', hk _ _ hl hi' hv⟩

/-- The invariant holds at every step that the script comes to. -/
theorem Safe.goes (hk : I.Safe k s.heap) (hi : I.heap s.heap)
    (hgoes : Script.Goes call (k, s) a) : I.heap a.2.heap ∧ I.Safe a.1 a.2.heap := by
  induction hgoes with
  | refl => exact ⟨hi, hk⟩
  | tail _ h ih => exact (ih.2.step hlog hcall hlanded ih.1 h).2

end Invariant

end MonkeyLang
