import MonkeyLang.Proofs.Eval.Interpreter
import MonkeyLang.Proofs.Eval.Pairing
import MonkeyLang.Proofs.Eval.StaticScope

/-!
# Evaluating again

An expression that binds nothing has the same value when it is evaluated once more
(`Interpreter.expr_again`). The first evaluation changes no scope that was there, so the second starts
from the same old scopes; it makes new ones of its own, and those are paired with the new ones of the
first by their number.

That the two runs look at the same scopes relies on a heap that is built from the outside in
(`Heap.Sound`). An empty heap is, and new scopes and evaluation keep it so (`Heap.Sound.newScope`,
`Heap.Sound.eval`).
-/

namespace MonkeyLang

/-- Every step leads to a scope that exists, and outward to an older one. -/
structure Heap.Sound (h : Heap) : Prop where
  closed : h.Closed
  older : ∀ a s o, h.scope? a = some s → s.outer = some o → o < a

/-- Of the scopes below `N` each corresponds to itself. The first run makes its scopes from `N` on, and
the second from `M` on. -/
def Pairing.again {N M : ScopeId} (h : N ≤ M) : Pairing where
  base₁ := N
  base₂ := M
  old a b := a = b ∧ a < N
  ground _ := False
  sites := Eq
  old_lt := fun ⟨heq, hlt⟩ => ⟨hlt, heq ▸ Nat.lt_of_lt_of_le hlt h⟩
  old_unique := fun ⟨h, _⟩ ⟨h', _⟩ => by rw [h, h']
  ground_lt := False.elim
  ground_apart := False.elim
  sites_child := fun h => h ▸ rfl

namespace Pairing

theorem value_again {hle : N ≤ M} {v : Value} (hv : ∀ a, v.scope? = some a → a < N) :
    v.Paired (again hle) w v := by
  induction v with
  | returned v ih => exact .returned (ih hv)
  | closure c => exact .closure (.inl ⟨rfl, hv c.scope rfl⟩) rfl
  | _ => exact .data trivial

end Pairing

theorem Value.Paired.scope? (h : Value.Paired P w v₁ v₂) :
    Option.Rel (P.rel w) v₁.scope? v₂.scope? := by
  induction h with
  | data hv =>
    rw [hv.scope?]
    exact .none
  | returned _ ih => exact ih
  | closure h => exact .some h

namespace Heap

theorem Sound.empty : Sound {} := ⟨closed_empty, fun _ _ _ hs => nomatch hs⟩

/-- A new scope within one that exists, or at the top. -/
theorem Sound.newScope {h : Heap} (hs : h.Sound) (ho : ∀ o, outer = some o → o < h.size) :
    (h.push { outer }).Sound := by
  have hcases : ∀ a s, (h.push { outer }).scope? a = some s →
      (a = h.size ∧ s = { outer }) ∨ h.scope? a = some s := by
    intro a s hscope
    rw [scope?_push] at hscope
    split at hscope
    · next ha => exact .inl ⟨ha, (Option.some.inj hscope).symm⟩
    · exact .inr hscope
  constructor
  · rintro a b ⟨s, hscope, hb⟩
    rw [size_push]
    rcases hcases a s hscope with ⟨-, rfl⟩ | hscope
    · rcases hb with hb | ⟨x, hx, -⟩
      · exact Nat.lt_succ_of_lt (ho b hb)
      · cases hx
    · exact Nat.lt_succ_of_lt (hs.closed a b ⟨s, hscope, hb⟩)
  · intro a s o hscope hout
    rcases hcases a s hscope with ⟨rfl, rfl⟩ | hscope
    · exact ho o hout
    · exact hs.older a s o hscope hout

/-- A heap is paired with what it becomes, as long as nothing in it changes. -/
theorem Sound.paired {h h' : Heap} (hs : h.Sound) (hext : h.Extends h') :
    h.Paired (.again hext.size_le) 0 h' := by
  refine ⟨rfl, rfl, ?_, fun _ => False.elim⟩
  rintro a _ (⟨rfl, ha⟩ | ⟨_, hlt, -⟩)
  · have hscope : h.scope? a = some h.scopes[a] := Array.getElem?_eq_getElem ha
    generalize h.scopes[a] = s at hscope
    refine ⟨s, s, hscope, (hext.scope? a ha).trans hscope, ?_, List.forall₂_same.mpr fun x hx => ?_⟩
    · cases ho : s.outer with
      | none => exact .top
      | some o =>
        have holder := hs.older a s o hscope ho
        exact .within (.inl ⟨rfl, Nat.lt_trans holder ha⟩) holder holder
    · exact ⟨rfl, Pairing.value_again fun c hc => hs.closed a c ⟨s, hscope, .inr ⟨x, hx, hc⟩⟩⟩
  · cases hlt

/-- A heap that is paired with itself is sound. -/
theorem Paired.sound {h : Heap} {N : ScopeId} (H : h.Paired (.again (Nat.le_refl N)) w h) :
    h.Sound := by
  have hscope : ∀ a s, h.scope? a = some s → s.Paired (.again (Nat.le_refl N)) w a a s := by
    intro a s hs
    have hrel : (Pairing.again (Nat.le_refl N)).rel w a a := by
      have hlt : a < N + w := H.size₁ ▸ lt_size_of_scope? hs
      rcases Nat.lt_or_ge a N with hN | hN
      · exact .inl ⟨rfl, hN⟩
      · obtain ⟨k, rfl⟩ := Nat.exists_eq_add_of_le hN
        exact Pairing.rel_new (Nat.lt_of_add_lt_add_left hlt)
    obtain ⟨s₁, s₂, hs₁, hs₂, hpair⟩ := H.scope a a hrel
    cases hs.symm.trans hs₁
    cases hs.symm.trans hs₂
    exact hpair
  have holder : ∀ a s o, h.scope? a = some s → s.outer = some o → o < a := by
    intro a s o hs ho
    have houter := (hscope a s hs).outer
    rw [ho] at houter
    cases houter with
    | within _ hlt => exact hlt
  refine ⟨?_, holder⟩
  rintro a b ⟨s, hs, hb | ⟨x, hx, hb⟩⟩
  · exact Nat.lt_trans (holder a s b hs hb) (lt_size_of_scope? hs)
  · have hvalue := (List.forall₂_same.mp (hscope a s hs).bindings x hx).2.scope?
    rw [hb] at hvalue
    cases hvalue with
    | some hrel => exact H.size₁ ▸ (Pairing.rel_lt hrel).1

/-- Evaluation goes the same way again on a heap in which nothing has changed. -/
theorem Sound.runs {s t : Store} (hs : s.heap.Sound) (hext : s.heap.Extends t.heap)
    (hE : E < s.heap.size) (policy : Release) (n : Nat) (c : Code) (σ : Site) :
    Option.Rel (fun x y => ∃ w, x.2.heap.Paired (.again hext.size_le) w y.2.heap ∧
        x.1.Paired (.again hext.size_le) w y.1)
      (c.eval (Closure.callWithin policy n) ⟨E, σ⟩ s)
      (c.eval (Closure.callWithin policy n) ⟨E, σ⟩ t) := by
  have hcode : (MonkeyLang.paired (.again hext.size_le) E E).code c σ σ := rfl
  have hrun := Simulation.runs (paired_calls _ policy n) (fun _ _ _ hv => hv.landed) hcode (0 : Nat)
    s t ⟨.inl ⟨rfl, hE⟩, hs.paired hext⟩
  exact rel_mono hrun fun _ _ ⟨w, _, ⟨_, H⟩, hv⟩ => ⟨w, H, hv⟩

/-- Evaluation keeps a heap sound. -/
theorem Sound.eval {s t : Store} (hs : s.heap.Sound) (hE : E < s.heap.size) {c : Code}
    (h : c.eval (Closure.callWithin policy n) ⟨E, σ⟩ s = some (v, t)) : t.heap.Sound := by
  have hrun := hs.runs (.refl s.heap) hE policy n c σ
  rw [h] at hrun
  cases hrun with
  | some hr =>
    obtain ⟨w, H, -⟩ := hr
    exact H.sound

end Heap

/-! ## Pure expressions -/

namespace Value.Paired

/-- Without a function, the two values are one. -/
theorem same (h : Value.Paired P w v₁ v₂) (hv : v₁.closure? = none) : v₁.same v₂ = true := by
  induction h with
  | @data v hd =>
    cases v with
    | returned | closure => exact hd.elim
    | _ => simp [Value.same]
  | returned _ ih => exact ih hv
  | closure => cases hv

theorem closure? (h : Value.Paired P w v₁ v₂) :
    Option.Rel (fun c d => d.parameters = c.parameters ∧ d.body = c.body ∧ P.sites c.site d.site ∧
      P.rel w c.scope d.scope) v₁.closure? v₂.closure? := by
  induction h with
  | data hv =>
    rw [hv.closure?]
    exact .none
  | returned _ ih => exact ih
  | closure h hs => exact .some ⟨rfl, rfl, hs, h⟩

end Value.Paired

/-- An expression that binds nothing, evaluated again, comes to the same value. The second evaluation
ends if the first does. If there is no function in the two values they are the same; otherwise they
are of one shape with functions of one literal, made in one scope or in new scopes of the two
evaluations. -/
theorem Interpreter.expr_again (policy : Release) (n : Nat) {i i₁ : Interpreter} {e : Expr} {σ : Site}
    {v : Value} (hsound : i.store.heap.Sound) (hcurrent : i.current < i.store.heap.size)
    (hpure : ∀ x, ¬(Code.expr e).Binds x)
    (h : expr (callWithin policy n) e σ i = some (v, i₁)) :
    ∃ v' i₂, expr (callWithin policy n) e σ i₁ = some (v', i₂) ∧ v.Alike v' ∧
      (v.closure? = none → v.same v' = true) ∧
      ∀ c, v.closure? = some c → ∃ d, v'.closure? = some d ∧ d.parameters = c.parameters ∧
        d.body = c.body ∧ d.site = c.site ∧ (d.scope = c.scope ∨
          i.store.heap.size ≤ c.scope ∧ c.scope < i₁.store.heap.size ∧
          i₁.store.heap.size ≤ d.scope ∧ d.scope < i₂.store.heap.size) := by
  have htracks := tracks_code (tracks_callWithin policy n) (.expr e) σ
  obtain ⟨⟨_, s₁⟩, hfirst, hr⟩ := Option.map_eq_some_iff.mp ((htracks i).symm.trans h)
  cases hr
  have hext := Code.extends_of_not_binds policy n hsound.closed hcurrent hpure hfirst
  have hrun := hsound.runs hext hcurrent policy n (.expr e) σ
  dsimp only at hfirst
  rw [hfirst] at hrun
  generalize hsecond : Code.eval _ _ _ s₁ = o at hrun
  cases hrun with
  | @some _ r hr =>
    obtain ⟨w, H, hv⟩ := hr
    refine ⟨r.1, { i with store := r.2 }, (htracks _).trans (congrArg _ hsecond), hv.alike, hv.same,
      fun c hc => ?_⟩
    have hclosure := hv.closure?
    rw [hc] at hclosure
    generalize r.1.closure? = o at hclosure
    cases hclosure with
    | @some _ d hcd =>
      obtain ⟨hparameters, hbody, hsite, hscope⟩ := hcd
      refine ⟨d, rfl, hparameters, hbody, hsite.symm, ?_⟩
      rcases hscope with ⟨heq, -⟩ | ⟨k, hk, hc, hd⟩
      · exact .inl heq.symm
      · have hclt : c.scope < s₁.heap.size := by
          rw [H.size₁, hc]
          exact Nat.add_lt_add_left hk _
        have hdlt : d.scope < r.2.heap.size := by
          rw [H.size₂, hd]
          exact Nat.add_lt_add_left hk _
        exact .inr ⟨hc ▸ Nat.le_add_right _ _, hclt, hd ▸ Nat.le_add_right _ _, hdlt⟩

/-- A recursive function that makes another at the end. -/
def makerSource : String :=
  "let make = fn(n) \x7b if (n == 0) \x7b fn() \x7b n \x7d \x7d else \x7b make(n - 1) \x7d \x7d;"

def maker : Expr := .ident (.ofToken ⟨.ident, "make"⟩)

def makerArgument : Expr := .int ⟨.int, "2"⟩ 2

/-- A call of it. -/
def makerCall : Expr := .call ⟨.lparen, "("⟩ maker [makerArgument]

theorem not_binds_makerCall (x : String) : ¬(Code.expr makerCall).Binds x := by
  rintro ⟨t, y, e, hp, -⟩
  have hparts : ∀ d, (Code.expr makerCall).Part d →
      d = .expr makerCall ∨ d = .expr maker ∨ d = .expr makerArgument := by
    intro d hd
    induction hd with
    | refl => exact .inl rfl
    | step _ hc ih =>
      rcases ih with rfl | rfl | rfl
      · cases hc with
        | callee => exact .inr (.inl rfl)
        | argument he =>
          cases List.mem_singleton.mp (List.mem_of_getElem? he)
          exact .inr (.inr rfl)
      · cases hc
      · cases hc
  rcases hparts _ hp with h | h | h <;> cases h

/-- Two calls of the function make two functions of one literal. -/
theorem Interpreter.expr_again_makerCall :
    ∃ i v i₁ v' i₂ c d,
      expr (callWithin .whenUnreachable 3) makerCall ⟨1, []⟩ i = some (v, i₁) ∧
      expr (callWithin .whenUnreachable 3) makerCall ⟨1, []⟩ i₁ = some (v', i₂) ∧
      v.closure? = some c ∧ v'.closure? = some d ∧ d.site = c.site := by
  have hruns : ((Code.program (parse makerSource).1).eval (Closure.callWithin .whenUnreachable 0)
      ⟨0, ⟨0, []⟩⟩ ⟨Heap.push {} {}, {}⟩).any fun r => decide (0 < r.2.heap.size) &&
        (expr (callWithin .whenUnreachable 3) makerCall ⟨1, []⟩ ⟨0, r.2⟩).any
          (·.1.closure?.isSome) := by
    decide +kernel
  obtain ⟨⟨u, s⟩, hbound, hruns⟩ := (Option.any_eq_true ..).mp hruns
  obtain ⟨hsize, hcall⟩ := Bool.and_eq_true_iff.mp hruns
  obtain ⟨⟨v, i₁⟩, hfirst, hclosure⟩ := (Option.any_eq_true ..).mp hcall
  obtain ⟨c, hc⟩ := Option.isSome_iff_exists.mp hclosure
  have hstart : (Heap.push {} {}).Sound := Heap.Sound.empty.newScope nofun
  have hsound : s.heap.Sound := hstart.eval (by decide) hbound
  obtain ⟨v', i₂, hsecond, -, -, hfunction⟩ := expr_again .whenUnreachable 3 hsound
    (of_decide_eq_true hsize) not_binds_makerCall hfirst
  obtain ⟨d, hd, -, -, hsite, -⟩ := hfunction c hc
  exact ⟨⟨0, s⟩, v, i₁, v', i₂, c, d, hfirst, hsecond, hc, hd, hsite⟩

end MonkeyLang
