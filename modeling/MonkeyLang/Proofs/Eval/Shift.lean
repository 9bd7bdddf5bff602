import MonkeyLang.Proofs.Eval.Pairing

/-!
# Runs from different heaps

A run that starts with a new scope at the top never leads to a scope from before it, so two such runs
differ in nothing but the names of scopes: those of the one are counted from `b₁` and those of the
other from `b₂` (`shifted`). The sites of code make no difference to evaluation, so the two runs may
also come to the code in different texts.

This is a pairing in which nothing corresponds but the new scopes (`Pairing.fresh`).
-/

namespace MonkeyLang

/-- The same value in both runs: functions have scopes of one number below `w`. -/
inductive Value.Shifted (b₁ b₂ w : Nat) : Value → Value → Prop where
  | data : v.IsData → Shifted b₁ b₂ w v v
  | returned : Shifted b₁ b₂ w v₁ v₂ → Shifted b₁ b₂ w (.returned v₁) (.returned v₂)
  | closure : k < w → Shifted b₁ b₂ w (.closure ⟨xs, b, b₁ + k, σ₁⟩) (.closure ⟨xs, b, b₂ + k, σ₂⟩)

/-- The same scope in both runs: the scope around it is one of those before, below `k`. -/
structure Scope.Shifted (b₁ b₂ w k : Nat) (s₁ s₂ : Scope) : Prop where
  outer : Option.Rel (fun a₁ a₂ => ∃ j < k, a₁ = b₁ + j ∧ a₂ = b₂ + j) s₁.outer s₂.outer
  bindings : List.Forall₂ (fun x y => x.1 = y.1 ∧ x.2.Shifted b₁ b₂ w y.2) s₁.bindings s₂.bindings

/-- The same `w` scopes in both runs, counted from `b₁` and from `b₂`. -/
structure Heap.Shifted (b₁ b₂ w : Nat) (h₁ h₂ : Heap) : Prop where
  size₁ : h₁.size = b₁ + w
  size₂ : h₂.size = b₂ + w
  scope : ∀ k < w, ∃ s₁ s₂, h₁.scope? (b₁ + k) = some s₁ ∧ h₂.scope? (b₂ + k) = some s₂ ∧
    s₁.Shifted b₁ b₂ w k s₂

/-- The new scopes correspond, and nothing else does. -/
def Pairing.fresh (b₁ b₂ : ScopeId) : Pairing := .ofNew b₁ b₂ none nofun

section
variable {b₁ b₂ w k : Nat}

theorem Value.shifted_iff {v₁ v₂ : Value} :
    v₁.Shifted b₁ b₂ w v₂ ↔ v₁.Paired (.fresh b₁ b₂) w v₂ := by
  constructor <;> intro h
  · induction h with
    | data hv => exact .data hv
    | returned _ ih => exact .returned ih
    | closure hk => exact .closure (Pairing.rel_new hk) trivial
  · induction h with
    | data hv => exact .data hv
    | returned _ ih => exact .returned ih
    | closure h =>
      obtain ⟨k, hk, rfl, rfl⟩ := h.resolve_left id
      exact .closure hk

theorem Value.Shifted.alike (h : Shifted b₁ b₂ w v₁ v₂) : v₁.Alike v₂ := (shifted_iff.mp h).alike

theorem Value.Shifted.landed (h : Shifted b₁ b₂ w v₁ v₂) : Shifted b₁ b₂ w v₁.landed v₂.landed :=
  shifted_iff.mpr (shifted_iff.mp h).landed

theorem Scope.Shifted.get? {s₁ s₂ : Scope} (h : s₁.Shifted b₁ b₂ w k s₂) (name : String) :
    Option.Rel (Value.Shifted b₁ b₂ w) (s₁.get? name) (s₂.get? name) :=
  rel_get? h.bindings name

theorem Scope.shifted_iff {s₁ s₂ : Scope} (hk : k ≤ w) :
    s₁.Shifted b₁ b₂ w k s₂ ↔ s₁.Paired (.fresh b₁ b₂) w (b₁ + k) (b₂ + k) s₂ := by
  constructor
  · rintro ⟨houter, hbindings⟩
    refine ⟨?_, hbindings.imp fun _ _ h => ⟨h.1, Value.shifted_iff.mp h.2⟩⟩
    generalize s₁.outer = o₁, s₂.outer = o₂ at houter
    cases houter with
    | none => exact .top
    | some h =>
      obtain ⟨j, hj, rfl, rfl⟩ := h
      exact .within (Pairing.rel_new (Nat.lt_of_lt_of_le hj hk)) (Nat.add_lt_add_left hj _)
        (Nat.add_lt_add_left hj _)
  · rintro ⟨houter, hbindings⟩
    refine ⟨?_, hbindings.imp fun _ _ h => ⟨h.1, Value.shifted_iff.mpr h.2⟩⟩
    generalize s₁.outer = o₁, s₂.outer = o₂ at houter
    cases houter with
    | top => exact .none
    | within h hc =>
      obtain ⟨j, -, rfl, rfl⟩ := h.resolve_left id
      exact .some ⟨j, Nat.lt_of_add_lt_add_left hc, rfl, rfl⟩
    | ground hg => cases hg

namespace Heap

variable {h₁ h₂ : Heap}

theorem shifted_iff : h₁.Shifted b₁ b₂ w h₂ ↔ h₁.Paired (.fresh b₁ b₂) w h₂ := by
  constructor
  · rintro ⟨hsize₁, hsize₂, hscope⟩
    refine ⟨hsize₁, hsize₂, fun a b hab => ?_, nofun⟩
    obtain ⟨k, hk, rfl, rfl⟩ := hab.resolve_left id
    obtain ⟨s₁, s₂, hs₁, hs₂, hs⟩ := hscope k hk
    exact ⟨s₁, s₂, hs₁, hs₂, (Scope.shifted_iff (Nat.le_of_lt hk)).mp hs⟩
  · rintro ⟨hsize₁, hsize₂, hscope, -⟩
    refine ⟨hsize₁, hsize₂, fun k hk => ?_⟩
    obtain ⟨s₁, s₂, hs₁, hs₂, hs⟩ := hscope _ _ (Pairing.rel_new hk)
    exact ⟨s₁, s₂, hs₁, hs₂, (Scope.shifted_iff (Nat.le_of_lt hk)).mpr hs⟩

/-- A new scope that is the same in both runs. -/
theorem Shifted.push (H : h₁.Shifted b₁ b₂ w h₂) (hs : s₁.Shifted b₁ b₂ w w s₂) :
    (h₁.push s₁).Shifted b₁ b₂ (w + 1) (h₂.push s₂) :=
  shifted_iff.mpr <| (shifted_iff.mp H).push <|
    ((Scope.shifted_iff (Nat.le_refl w)).mp hs).mono (Nat.le_succ w)

end Heap

end

/-! ## The two runs -/

/-- Runs in the scopes `b₁ + k` and `b₂ + k`. -/
def shifted (b₁ b₂ k : Nat) : Simulation (b₁ + k) (b₂ + k) where
  World := Nat
  Later w w' := w ≤ w'
  heaps w h₁ h₂ := k < w ∧ h₁.Shifted b₁ b₂ w h₂
  values w v₁ v₂ := v₁.Shifted b₁ b₂ w v₂
  code _ _ _ := True
  refl := Nat.le_refl
  trans := Nat.le_trans
  child _ _ := trivial
  mono hw hv := Value.shifted_iff.mpr ((Value.shifted_iff.mp hv).mono hw)
  alike hv := hv.alike
  data hv := .data hv
  returned hv _ := .returned hv
  closure _ h := .closure h.1
  lookup _ h := rel_mono ((Heap.shifted_iff.mp h.2).lookup (Pairing.rel_new h.1) _)
    fun _ _ => Value.shifted_iff.mpr
  bind _ h hv _ := ⟨_, Nat.le_refl _, h.1, Heap.shifted_iff.mpr <|
    (Heap.shifted_iff.mp h.2).set (Pairing.rel_new h.1) (Value.shifted_iff.mp hv) _⟩

theorem shifted_calls (policy : Release) (n : Nat) : (shifted b₁ b₂ k).Calls
    (Closure.callWithin policy n) (Closure.callWithin policy n) := by
  rintro w c d as bs hc has hs hlen s t ⟨hk, H⟩
  have hrun := paired_calls (.fresh b₁ b₂) policy n (a := b₁ + k) (b := b₂ + k) w c d as bs
    (Value.shifted_iff.mp hc) (has.imp fun _ _ => Value.shifted_iff.mp) hs hlen s t
    ⟨Pairing.rel_new hk, Heap.shifted_iff.mp H⟩
  refine rel_mono hrun ?_
  rintro x y ⟨w', hw, ⟨-, H'⟩, hv⟩
  exact ⟨w', hw, ⟨Nat.lt_of_lt_of_le hk hw, Heap.shifted_iff.mpr H'⟩, Value.shifted_iff.mpr hv⟩

end MonkeyLang
