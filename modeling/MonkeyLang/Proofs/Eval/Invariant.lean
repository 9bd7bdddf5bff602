import MonkeyLang.Proofs.Eval.Call

/-!
# Invariants of one run

Evaluation does not depend on the log (`Closure.logFree_callWithin`). Two runs from one heap are
therefore one run, and a `Simulation` of a run with itself is an `Invariant`: a property of heaps
and one of values that evaluation in the scope `E` keeps, and an order of heaps that it goes up.
-/

namespace MonkeyLang

theorem Value.Alike.rfl : ∀ {v : Value}, v.Alike v
  | .int _ => .int
  | .bool _ => .bool
  | .null => .null
  | .error _ => .error
  | .returned _ => .returned Alike.rfl
  | .closure _ => .closure

theorem rel_map {r : α → β → Prop} {r' : γ → δ → Prop} {x : Option α} {y : Option β} {f : α → γ}
    {g : β → δ} (h : Option.Rel r x y) (hr : ∀ a b, r a b → r' (f a) (g b)) :
    Option.Rel r' (x.map f) (y.map g) := by
  cases h with
  | none => exact .none
  | some h => exact .some (hr _ _ h)

theorem rel_mono {r r' : α → β → Prop} {x : Option α} {y : Option β} (h : Option.Rel r x y)
    (hr : ∀ a b, r a b → r' a b) : Option.Rel r' x y := by
  cases h with
  | none => exact .none
  | some h => exact .some (hr _ _ h)

theorem eq_of_forall₂ {p : α → Prop} {as bs : List α}
    (h : List.Forall₂ (fun a b => a = b ∧ p a) as bs) : as = bs ∧ ∀ a ∈ as, p a := by
  induction h with
  | nil => exact ⟨rfl, by simp⟩
  | cons h _ ih => exact ⟨by rw [h.1, ih.1], List.forall_mem_cons.mpr ⟨h.2, ih.2⟩⟩

/-! ## The log -/

/-- The two runs differ at most in their logs. -/
def logs (E : ScopeId) : Simulation E E where
  World := Unit
  Later _ _ := True
  heaps _ h₁ h₂ := h₁ = h₂
  values _ v₁ v₂ := v₁ = v₂
  code _ σ₁ σ₂ := σ₁ = σ₂
  refl _ := trivial
  trans _ _ := trivial
  child h _ := h ▸ rfl
  mono _ h := h
  alike h := h ▸ .rfl
  data _ := rfl
  returned h _ := h ▸ rfl
  closure h _ := h ▸ rfl
  lookup := @fun x _ _ _ h₁ _ _ hh => by
    subst hh
    cases h₁.lookup E x.name with
    | none => exact .none
    | some v => exact .some rfl
  bind _ hh hv _ := ⟨(), trivial, hh ▸ hv ▸ rfl⟩

/-- The results of a way to run functions, and the heaps it leaves, do not depend on the log. -/
def LogFree (call : Closure → List Value → Eval Value) : Prop :=
  ∀ c args s t, s.heap = t.heap →
    Option.Rel (fun a b => a.2.heap = b.2.heap ∧ a.1 = b.1) (call c args s) (call c args t)

theorem LogFree.calls {call : Closure → List Value → Eval Value} (h : LogFree call) (E : ScopeId) :
    (logs E).Calls call call := by
  intro w c d as bs hc has _ _ s t hh
  cases hc
  cases List.forall₂_eq_eq_eq ▸ has
  have := h c as s t hh
  generalize call c as s = p, call c as t = q at this
  cases this with
  | none => exact .none
  | some h => exact .some ⟨(), trivial, h⟩

theorem Closure.logFree_callWithin (policy : Release) (n : Nat) :
    LogFree (callWithin policy n) := by
  induction n with
  | zero => exact fun _ _ _ _ _ => .none
  | succ n ih =>
    intro c args s t hh
    obtain ⟨s₁, f, -, hs₁, hf, hs⟩ := callWithin_succ policy n c args s
    obtain ⟨t₁, g, -, ht₁, hg, ht⟩ := callWithin_succ policy n c args t
    rw [hs, ht, ← hh]
    have hcode : (logs s.heap.size).code (.block c.body) c.site c.site := rfl
    have hbody := Simulation.runs_block (ih.calls s.heap.size) c.body hcode () s₁ t₁
      (hs₁.trans (hh ▸ ht₁.symm))
    refine rel_map hbody ?_
    rintro ⟨v, s₂⟩ ⟨v', t₂⟩ ⟨_, -, hh', hv⟩
    cases hv
    exact ⟨by rw [hf, hg, ← hh, show s₂.heap = t₂.heap from hh'], rfl⟩

/-- Nor does what statements come to. -/
theorem LogFree.evalAll {call : Closure → List Value → Eval Value} (hcall : LogFree call)
    (ss : List Stmt) (here : Place) (i : Nat) (v : Value) {s t : Store} (h : s.heap = t.heap) :
    Option.Rel (fun a b => a.2.heap = b.2.heap ∧ a.1 = b.1) (Stmt.evalAll call ss here i v s)
      (Stmt.evalAll call ss here i v t) := by
  have hcode : ∀ k st, ss[k]? = some st →
      (logs here.scope).code (.stmt st) (here.site.child (i + k)) (here.site.child (i + k)) :=
    fun _ _ _ => rfl
  have hrun := (logs here.scope).runs_stmts (hcall.calls here.scope) ss hcode () (rfl : v = v) s t h
  exact rel_mono hrun fun _ _ ⟨_, _, hrel⟩ => hrel

/-! ## Invariants -/

/-- What evaluation in the scope `E` keeps. -/
structure Invariant (E : ScopeId) where
  Later : Heap → Heap → Prop
  heap : Heap → Prop
  value : Heap → Value → Prop
  code : Code → Site → Prop
  refl : ∀ h, Later h h
  trans : Later h h' → Later h' h'' → Later h h''
  child : code c σ → Code.Child c i d → code d (σ.descend i)
  mono : Later h h' → value h v → value h' v
  data : v.IsData → value h v
  returned : value h v → v.isSignal = false → value h (.returned v)
  closure : code (.expr (.function t xs b)) σ → heap h → value h (.closure ⟨xs, b, E, σ⟩)
  lookup : heap h → h.lookup E name = some v → value h v
  bind : code (.stmt (.letStmt t x e)) σ → heap h → value h v → v.isSignal = false →
    Later h (h.set E x.name v) ∧ heap (h.set E x.name v)

namespace Invariant

variable {E : ScopeId} (I : Invariant E)

/-- An invariant as a simulation of a run with itself; the worlds are the heaps. -/
def simulation : Simulation E E where
  World := Heap
  Later := I.Later
  heaps w h₁ h₂ := h₁ = w ∧ h₂ = w ∧ I.heap w
  values w v₁ v₂ := v₁ = v₂ ∧ I.value w v₁
  code c σ₁ σ₂ := σ₁ = σ₂ ∧ I.code c σ₁
  refl := I.refl
  trans := I.trans
  child h hc := ⟨h.1 ▸ rfl, I.child h.2 hc⟩
  mono hw h := ⟨h.1, I.mono hw h.2⟩
  alike h := h.1 ▸ .rfl
  data h := ⟨rfl, I.data h⟩
  returned h hs := ⟨h.1 ▸ rfl, I.returned h.2 hs⟩
  closure := by
    rintro t xs b σ _ w _ _ ⟨rfl, hc⟩ ⟨rfl, rfl, hw⟩
    exact ⟨rfl, I.closure hc hw⟩
  lookup := by
    rintro x σ _ h _ _ - ⟨rfl, rfl, hw⟩
    rename_i h
    cases hl : h.lookup E x.name with
    | none => exact .none
    | some v => exact .some ⟨rfl, I.lookup hw hl⟩
  bind := by
    rintro t x e σ _ w _ _ v _ ⟨rfl, hc⟩ ⟨rfl, rfl, hw⟩ ⟨rfl, hv⟩ hs
    obtain ⟨hl, hh⟩ := I.bind hc hw hv hs
    exact ⟨_, hl, rfl, rfl, hh⟩

/-- Whenever the computation ends, the heap and the value keep the invariant. -/
def Keeps (s : Store) (value : Heap → α → Prop) (x : Eval α) : Prop :=
  ∀ a t, x s = some (a, t) → I.Later s.heap t.heap ∧ I.heap t.heap ∧ value t.heap a

/-- The way to run functions keeps the invariant. -/
def Calls (call : Closure → List Value → Eval Value) : Prop :=
  ∀ c args s, I.heap s.heap → I.value s.heap (.closure c) →
    (∀ v ∈ args, I.value s.heap v ∧ v.isSignal = false) → args.length = c.parameters.length →
    I.Keeps s I.value (call c args)

variable {I} {call : Closure → List Value → Eval Value}

theorem Calls.simulation (hlog : LogFree call) (hcall : I.Calls call) :
    I.simulation.Calls call call := by
  rintro w c d as bs ⟨hcd, hc⟩ has hs hlen s t ⟨hw, hw', hi⟩
  cases hcd
  obtain ⟨rfl, hargs⟩ := eq_of_forall₂ has
  subst hw
  have hst := hlog c as s t hw'.symm
  have hkeeps := hcall c as s hi hc (fun v hv => ⟨hargs v hv, hs v hv⟩) hlen
  rw [Keeps] at hkeeps
  generalize call c as s = p, call c as t = q at hst hkeeps
  cases hst with
  | none => exact .none
  | some h =>
    obtain ⟨hl, hh, hv⟩ := hkeeps _ _ rfl
    exact .some ⟨_, hl, ⟨rfl, h.1.symm, hh⟩, h.2, hv⟩

/-- Two runs in step from one heap are one run. -/
theorem Keeps.of_runs {value : Heap → α → Prop} {x : Eval α} {s : Store} (hi : I.heap s.heap)
    (hx : I.simulation.Runs s.heap (fun w a b => a = b ∧ value w a) x x) : I.Keeps s value x := by
  intro a t ht
  have := hx s s ⟨rfl, rfl, hi⟩
  rw [ht] at this
  cases this with
  | some h =>
    obtain ⟨w, hl, ⟨rfl, -, hw⟩, -, hv⟩ := h
    exact ⟨hl, hw, hv⟩

section
variable (hlog : LogFree call) (hcall : I.Calls call)
include hlog hcall

theorem keeps {s : Store} (hi : I.heap s.heap) (hc : I.code c σ)
    (hlanded : ∀ h v, I.value h v → I.value h v.landed) :
    I.Keeps s I.value (c.eval call ⟨E, σ⟩) := by
  refine .of_runs hi <| Simulation.runs (hcall.simulation hlog) ?_ ⟨rfl, hc⟩ _
  rintro w v _ ⟨rfl, hv⟩
  exact ⟨rfl, hlanded w v hv⟩

end

end Invariant

end MonkeyLang
