import Mathlib.Data.Fintype.Card
import Mathlib.Data.Fintype.EquivFin
import MonkeyLang.Proofs.Heap.Reachability

/-!
# Scopes that nothing holds

References to scopes are counted. When the last one to a scope goes, the scope is dropped with its
bindings, and so are the references that it held (`Heap.Dropped`). No more than that is dropped: a scope
also stays if nothing but a cycle of references leads to it (`Heap.not_dropped_iff`).
-/

namespace MonkeyLang

open Relation (ReflTransGen TransGen)

namespace Heap

/-- The last reference to a scope has gone: nothing outside of the heap holds it, and every scope that
leads to it has been dropped. -/
inductive Dropped (h : Heap) (held : ScopeId → Prop) : ScopeId → Prop
  | drop : ¬held a → (∀ b, h.Leads b a → h.Dropped held b) → h.Dropped held a

/-- The scope binds a function that leads back to it. -/
def BindsBack (h : Heap) (a : ScopeId) : Prop :=
  ∃ s x c, h.scope? a = some s ∧ (x, .closure c) ∈ s.bindings ∧ h.Reach c.scope a

variable {h : Heap} {held : ScopeId → Prop}

/-- What is held from outside is not dropped, nor is anything that it leads to. -/
theorem Dropped.not_reach (hd : h.Dropped held a) (hr : held r) : ¬h.Reach r a := by
  induction hd with
  | drop hheld _ ih =>
    intro hreach
    cases hreach with
    | refl => exact hheld hr
    | tail hreach hl => exact ih _ hl hreach

/-- Nor is a scope that a cycle leads to. -/
theorem Dropped.not_reach_of_cycle (hd : h.Dropped held a) (hc : TransGen h.Leads c c) :
    ¬h.Reach c a := by
  induction hd with
  | drop _ _ ih =>
    intro hreach
    obtain ⟨b, hb, hl⟩ := TransGen.tail'_iff.mp (hc.trans_left hreach)
    exact ih b hl hb

/-- If neither leads to a scope, then the last reference to it goes: those that lead to it can be dropped
one after the other. -/
theorem dropped_of_acyclic (hheld : ∀ r, held r → ¬h.Reach r a)
    (hacyclic : ∀ c, TransGen h.Leads c c → ¬h.Reach c a) : h.Dropped held a := by
  let before (b c : Fin h.size) : Prop := TransGen h.Leads b c ∧ h.Reach c a
  have : IsTrans (Fin h.size) before := ⟨fun _ _ _ hb hc => ⟨hb.1.trans hc.1, hc.2⟩⟩
  have : Std.Irrefl before := ⟨fun c hc => hacyclic c hc.1 hc.2⟩
  have hwf : WellFounded before := Finite.wellFounded_of_trans_of_irrefl before
  have hdropped : ∀ c : Fin h.size, h.Reach c a → h.Dropped held c := by
    intro c
    induction c using hwf.induction with
    | _ c ih =>
      intro hc
      refine .drop (fun hr => hheld c hr hc) fun b hb => ?_
      exact ih ⟨b, hb.lt_size⟩ ⟨.single hb, hc⟩ (.head hb hc)
  refine .drop (fun hr => hheld a hr .refl) fun b hb => ?_
  exact hdropped ⟨b, hb.lt_size⟩ (.single hb)

/-- A scope stays if something from outside leads to it, or a cycle. -/
theorem not_dropped_iff : ¬h.Dropped held a ↔
    (∃ r, held r ∧ h.Reach r a) ∨ ∃ c, TransGen h.Leads c c ∧ h.Reach c a := by
  constructor
  · intro hd
    by_contra hnone
    rw [not_or] at hnone
    exact hd (dropped_of_acyclic (fun r hr hreach => hnone.1 ⟨r, hr, hreach⟩)
      fun c hc hreach => hnone.2 ⟨c, hc, hreach⟩)
  · rintro (⟨r, hr, hreach⟩ | ⟨c, hc, hreach⟩) hd
    · exact hd.not_reach hr hreach
    · exact hd.not_reach_of_cycle hc hreach

/-- Outward steps alone lead to older scopes. On any other way a function leads on. -/
theorem lt_or_exists_bound (hp : TransGen h.Leads a b)
    (hout : ∀ c d, h.Reach c b → h.Outer c d → d < c) : b < a ∨
      ∃ c s x e, h.Reach a c ∧ h.scope? c = some s ∧ x ∈ s.bindings ∧ x.2.scope? = some e ∧
        h.Reach e b := by
  induction hp using TransGen.head_induction_on with
  | @single a hl =>
    obtain ⟨s, hs, ho | ⟨x, hx, hv⟩⟩ := hl
    · exact .inl (hout a b (.single ⟨s, hs, .inl ho⟩) ⟨s, hs, ho⟩)
    · exact .inr ⟨a, s, x, b, .refl, hs, hx, hv, .refl⟩
  | @head a d hl hp ih =>
    have hd := hp.to_reflTransGen
    rcases ih with hlt | ⟨c, s, x, e, hc, hrest⟩
    · obtain ⟨s, hs, ho | ⟨x, hx, hv⟩⟩ := hl
      · have hstep : d < a := hout a d (.head ⟨s, hs, .inl ho⟩ hd) ⟨s, hs, ho⟩
        exact .inl (Nat.lt_trans hlt hstep)
      · exact .inr ⟨a, s, x, d, .refl, hs, hx, hv, hd⟩
    · exact .inr ⟨c, s, x, e, .head hl hc, hrest⟩

end Heap

end MonkeyLang
