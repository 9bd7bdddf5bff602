import MonkeyLang.Parser
import MonkeyLang.Proofs.Eval.Frame

/-!
# Releasing call scopes is unobservable

A run that clears the scopes of finished calls and one that never does are in step: they agree on a
set of live scopes, which holds the current scope and which no step leaves (`released`). When a call
ends, the scopes that stay live are those that were live before it, none of which the call has
changed, and those that its result leads to. A scope that is cleared is not among them
(`Heap.reaches_of_reach`), for the search that decides about it finds every way to the scope, apart
from ways through bound `return` values; and these lead to scopes from before the run.
-/

namespace MonkeyLang

namespace Heap

/-- Two heaps agree on the scopes of `live`, which no step leaves. -/
structure Agree (live : ScopeId → Prop) (h₁ h₂ : Heap) : Prop where
  scope : ∀ a, live a → h₁.scope? a = h₂.scope? a
  closed : ∀ a, live a → ∀ b, h₁.Leads a b → live b

variable {live live' : ScopeId → Prop}

theorem Agree.closed_right {h₁ h₂ : Heap} (H : Agree live h₁ h₂) (ha : live a)
    (hl : h₂.Leads a b) : live b :=
  H.closed a ha b ((Leads.congr (H.scope a ha)).mpr hl)

theorem Agree.chainWithin_eq {h₁ h₂ : Heap} (H : Agree live h₁ h₂) (ha : live a) :
    h₁.chainWithin n a = h₂.chainWithin n a := by
  induction n generalizing a with
  | zero => rfl
  | succ n ih =>
    rw [chainWithin, chainWithin, ← H.scope a ha]
    cases hs : h₁.scope? a with
    | none => rfl
    | some s =>
      cases ho : s.outer with
      | none => simp [ho]
      | some b => simp [ho, ih (H.closed a ha b ⟨s, hs, .inl ho⟩)]

theorem Agree.lookup_eq {h₁ h₂ : Heap} (H : Agree live h₁ h₂) (ha : live a) :
    h₁.lookup a name = h₂.lookup a name := by
  rw [lookup, lookup, chain, chain, H.chainWithin_eq ha]

theorem Agree.set {h₁ h₂ : Heap} (H : Agree live h₁ h₂) (hv : ∀ c, v.scope? = some c → live c) :
    Agree live (h₁.set E name v) (h₂.set E name v) := by
  refine ⟨fun a ha => ?_, ?_⟩
  · rw [scope?_set, scope?_set, H.scope a ha]
  · rintro a ha b ⟨s, hs, hl⟩
    obtain ⟨s', hs', ho, hb⟩ := scope?_set_elim hs
    rcases hl with hl | ⟨y, hy, hy'⟩
    · exact H.closed a ha b ⟨s', hs', .inl (ho ▸ hl)⟩
    · rcases hb y hy with rfl | hy
      · exact hv b hy'
      · exact H.closed a ha b ⟨s', hs', .inr ⟨y, hy, hy'⟩⟩

theorem bindAll_scope?_congr {h₁ h₂ : Heap} (heq : h₁.scope? a = h₂.scope? a) :
    (h₁.bindAll E ps).scope? a = (h₂.bindAll E ps).scope? a := by
  induction ps generalizing h₁ h₂ with
  | nil => exact heq
  | cons p ps ih => exact ih (by rw [scope?_set, scope?_set, heq])

/-- The scope of a call becomes live when the call begins. -/
theorem Agree.enter {h₁ h₂ : Heap} (H : Agree live h₁ h₂) (hsize : h₂.size = h₁.size)
    (hc : live c.scope) (hargs : ∀ v ∈ args, ∀ b, v.scope? = some b → live b)
    (hlt : ∀ a, live a → a < h₁.size) :
    Agree (fun a => live a ∨ a = h₁.size) (h₁.enter c args) (h₂.enter c args) := by
  refine ⟨fun a ha => ?_, ?_⟩
  · rcases ha with ha | rfl
    · have hne := Nat.ne_of_lt (hlt a ha)
      rw [scope?_enter_of_ne _ _ _ hne, scope?_enter_of_ne _ _ _ (hsize ▸ hne), H.scope a ha]
    · unfold Heap.enter
      rw [hsize]
      apply bindAll_scope?_congr
      rw [scope?_push, scope?_push, hsize, if_pos rfl, if_pos rfl]
  · rintro a ha b ⟨s, hs, hl⟩
    left
    rcases scope?_enter_elim hs with ⟨-, ho, hb⟩ | hs
    · rcases hl with hl | ⟨y, hy, hy'⟩
      · cases ho.symm.trans hl
        exact hc
      · exact hargs _ (hb y hy) b hy'
    · rcases ha with ha | rfl
      · exact H.closed a ha b ⟨s, hs, hl⟩
      · exact absurd (lt_size_of_scope? hs) (Nat.lt_irrefl _)

/-- If what lies below `S` stays there, the search finds every way to `S` from a value that leads
there, except through `return` values from before the run. -/
theorem reaches_of_reach {h : Heap} (hbelow : ∀ a < S, ∀ c, h.Leads a c → c < S)
    (hseal : h.SealedBelow b) (hb : b ≤ S) (hv : ∀ w c, v = .returned w → w.scope? = some c → c < b)
    (hr : v.scope? = some r) (hreach : h.Reach r S) : h.reaches v S = true := by
  have hnot : ∀ c < S, ¬h.Reach c S := fun c hc hcS =>
    Nat.lt_irrefl _ (hcS.mem_of_closed (P := (· < S)) hbelow hc)
  have hpath : Relation.ReflTransGen (fun a b => b ∈ h.next a) r S := by
    clear hr
    induction hreach using Relation.ReflTransGen.head_induction_on with
    | refl => exact .refl
    | @head a c hl hcS ih =>
      obtain ⟨s, hs, ho | ⟨⟨x, u⟩, hx, hu⟩⟩ := hl
      · exact .head (mem_next.mpr ⟨s, hs, .inl ho⟩) ih
      · cases u with
        | closure d => exact .head (mem_next.mpr ⟨s, hs, .inr ⟨_, hx, hu⟩⟩) ih
        | returned w =>
          exact absurd hcS (hnot c (Nat.lt_of_lt_of_le (hseal a s x w c hs hx hu) hb))
        | _ => cases hu
  cases v with
  | closure c => exact reaches_of_path hr hpath
  | returned w => exact absurd hreach (hnot r (Nat.lt_of_lt_of_le (hv w r rfl hr) hb))
  | _ => cases hr

/-- After a call in the scope `S` the heaps agree on what was live before it and on what its result
leads to, even if the first run has cleared the scope. -/
theorem Agree.leave {h h₁ h₂ : Heap} (H : Agree live' h₁ h₂)
    (hlive : ∀ a, live a → live' a ∧ a < S) (hclosed : ∀ a, live a → ∀ c, h.Leads a c → live c)
    (hold : ∀ a < S, h₁.scope? a = h.scope? a) (hv : ∀ r, v.scope? = some r → live' r)
    (hreaches : ∀ r, v.scope? = some r → h₁.Reach r S → h₁.reaches v S = true) :
    Agree (fun a => live a ∨ ∃ r, v.scope? = some r ∧ h₁.Reach r a)
      (h₁.leave .whenUnreachable S v) (h₂.leave .never S v) := by
  have hnever : h₂.leave .never S v = h₂ := if_neg fun h => nomatch h.1
  have hlive' : ∀ a, (live a ∨ ∃ r, v.scope? = some r ∧ h₁.Reach r a) → live' a := by
    rintro a (ha | ⟨r, hr, hra⟩)
    · exact (hlive a ha).1
    · exact hra.mem_of_closed H.closed (hv r hr)
  refine ⟨fun a ha => ?_, fun a ha c hl => ?_⟩
  · rw [hnever, ← H.scope a (hlive' a ha)]
    by_cases haS : a = S
    · subst haS
      obtain ⟨r, hr, hra⟩ := ha.resolve_left fun h => Nat.lt_irrefl _ (hlive a h).2
      unfold Heap.leave
      rw [if_neg fun hrel => by simp [hreaches r hr hra] at hrel]
    · exact scope?_leave_of_ne _ _ _ (Ne.symm haS)
  · have hl := hl.of_leave
    rcases ha with ha | ⟨r, hr, hra⟩
    · exact .inl (hclosed a ha c ((Leads.congr (hold a (hlive a ha).2)).mp hl))
    · exact .inr ⟨r, hr, hra.tail hl⟩

end Heap

/-! ## The two runs -/

/-- The runs in step: the first may have cleared scopes that are no longer live. -/
def released (E b : ScopeId) : Simulation E E where
  World := ScopeId → Prop
  Later live live' := ∀ a, live a → live' a
  heaps live h₁ h₂ := (frame E (fun _ => True) b).heap h₁ ∧ b ≤ h₁.size ∧ h₂.size = h₁.size ∧
    live E ∧ (∀ a, live a → a < h₁.size) ∧ h₁.Agree live h₂
  values live v₁ v₂ := v₁ = v₂ ∧ (∀ c, v₁.scope? = some c → live c) ∧ v₁.SealedBelow b
  code _ σ₁ σ₂ := σ₁ = σ₂
  refl _ _ ha := ha
  trans h h' a ha := h' a (h a ha)
  child h hc := (logs E).child h hc
  mono hw hv := ⟨hv.1, fun c hc => hw c (hv.2.1 c hc), hv.2.2⟩
  alike hv := hv.1 ▸ .rfl
  data hv := ⟨rfl, fun c hc => (by rw [hv.scope?] at hc; cases hc), .of_isData hv⟩
  returned hv hs := by
    refine ⟨hv.1 ▸ rfl, hv.2.1, ?_⟩
    rintro w c heq
    cases heq
    cases hs
  closure := by
    rintro t xs e σ _ live h₁ h₂ rfl ⟨-, -, -, hE, -⟩
    refine ⟨rfl, fun c hc => ?_, fun _ _ heq => by cases heq⟩
    cases hc
    exact hE
  lookup := by
    rintro x σ _ live h₁ h₂ - ⟨⟨-, -, hseal⟩, -, -, hE, -, H⟩
    rw [← H.lookup_eq hE]
    cases hl : h₁.lookup E x.name with
    | none => exact .none
    | some v =>
      obtain ⟨a, s, hr, hs, hx⟩ := Heap.mem_of_lookup hl
      have ha := (Heap.reach_of_outer hr).mem_of_closed H.closed hE
      refine .some ⟨rfl, fun c hc => H.closed a ha c ⟨s, hs, .inr ⟨_, hx, hc⟩⟩, ?_⟩
      rintro w c rfl hw
      exact hseal a s _ _ c hs hx hw
  bind := by
    rintro t x e σ _ live h₁ h₂ v _ rfl ⟨hh, hb, hsize, hE, hlt, H⟩ ⟨rfl, hv, hseal⟩ hs
    have hval : (frame E (fun _ => True) b).value h₁ v := ⟨fun c hc => hlt c (hv c hc), hseal⟩
    refine ⟨live, fun _ ha => ha, ?_, ?_, ?_, hE, ?_, H.set hv⟩
    · exact ((frame E (fun _ => True) b).bind (σ := σ) (e := e) (t := t) (fun _ _ => trivial) hh
        hval hs).2
    · rwa [Heap.size_set]
    · rwa [Heap.size_set, Heap.size_set]
    · rwa [Heap.size_set]

theorem released_landed (live : (released E b).World) (v₁ v₂ : Value)
    (hv : (released E b).values live v₁ v₂) :
    (released E b).values live v₁.landed v₂.landed := by
  obtain ⟨rfl, hv, hseal⟩ := hv
  exact ⟨rfl, fun c hc => hv c (v₁.scope?_landed ▸ hc), hseal.landed⟩

theorem released_calls (n : Nat) : (released E b).Calls (Closure.callWithin .whenUnreachable n)
    (Closure.callWithin .never n) := by
  induction n generalizing E with
  | zero => exact fun _ _ _ _ _ _ _ _ _ _ _ _ => .none
  | succ n ih =>
    rintro live c _ as bs ⟨heq, hc, -⟩ has hs - s t ⟨hh, hb, hsize, hE, hlt, H⟩
    cases heq
    obtain ⟨rfl, hargs⟩ := eq_of_forall₂ has
    have hframe : ∀ v ∈ as, (frame E (fun _ => True) b).value s.heap v ∧ v.isSignal = false :=
      fun v hv => ⟨⟨fun c hc => hlt c ((hargs v hv).1 c hc), (hargs v hv).2⟩, hs v hv⟩
    have hclosure : (frame E (fun _ => True) b).value s.heap (.closure c) :=
      ⟨fun a ha => hlt a (hc a ha), fun _ _ heq => by cases heq⟩
    have hcall := fun v t => callWithin_frame (v := v) (t := t) .whenUnreachable (n + 1) hh
      hclosure hframe
    obtain ⟨s', f, -, hs', hf, hrun⟩ := Closure.callWithin_succ .whenUnreachable n c as s
    obtain ⟨t', g, -, ht', hg, hrun'⟩ := Closure.callWithin_succ .never n c as t
    rw [hsize] at hrun'
    have hstart : (released s.heap.size b).heaps (fun a => live a ∨ a = s.heap.size)
        s'.heap t'.heap := by
      rw [hs', ht']
      refine ⟨frame_enter hh hclosure hframe, ?_, by simp [hsize], .inr rfl, fun a ha => ?_,
        H.enter hsize (hc _ rfl) (fun v hv => (hargs v hv).1) hlt⟩
      · rw [Heap.size_enter]; exact Nat.le_succ_of_le hb
      · rw [Heap.size_enter]
        exact Nat.lt_succ_of_le (ha.elim (fun ha => Nat.le_of_lt (hlt a ha)) Nat.le_of_eq)
    have hcode : (released s.heap.size b).code (.block c.body) c.site c.site := rfl
    have hbody := Simulation.runs ih released_landed hcode _ s' t' hstart
    rw [hrun] at hcall ⊢
    rw [hrun']
    simp only [Code.eval] at hbody
    generalize c.body.eval (Closure.callWithin .whenUnreachable n) _ s' = p,
      c.body.eval (Closure.callWithin .never n) _ t' = q at hbody hcall
    cases hbody with
    | none => exact .none
    | @some a a' h =>
      obtain ⟨v, u⟩ := a
      obtain ⟨v', u'⟩ := a'
      obtain ⟨live', hlive, ⟨⟨-, -, hseal⟩, hb', hsize', -, hlt', H'⟩, heq, hv, hvs⟩ := h
      cases heq
      obtain ⟨hle, hold, hh', -⟩ := hcall _ _ rfl
      have hold : ∀ a < s.heap.size, u.heap.scope? a = s.heap.scope? a := fun a ha => by
        rw [← hold a ha, hf, Heap.scope?_leave_of_ne _ _ _ (Nat.ne_of_gt ha)]
      have hlanded : ∀ r, v.landed.scope? = some r → live' r :=
        fun r hr => hv r (v.scope?_landed ▸ hr)
      refine .some ⟨fun a => live a ∨ ∃ r, v.landed.scope? = some r ∧ u.heap.Reach r a,
        fun _ => .inl, ⟨hh', Nat.le_trans hb hle, ?_, .inl hE, ?_, ?_⟩, rfl,
        fun r hr => .inr ⟨r, hr, .refl⟩, hvs.landed⟩
      · dsimp only
        rw [hf, hg, Heap.size_leave, Heap.size_leave]
        exact hsize'
      · rintro a (ha | ⟨r, hr, hra⟩)
        · exact Nat.lt_of_lt_of_le (hlt a ha) hle
        · dsimp only
          rw [hf, Heap.size_leave]
          exact hlt' a (hra.mem_of_closed H'.closed (hlanded r hr))
      · dsimp only
        rw [hf, hg, hsize]
        refine H'.leave (fun a ha => ⟨hlive a (.inl ha), hlt a ha⟩) H.closed hold hlanded
          fun r hr hra => Heap.reaches_of_reach (fun a ha c hl => ?_) hseal hb hvs.of_landed hr hra
        exact hh.2.1 a c ((Heap.Leads.congr (hold a ha)).mp hl)

/-- Releasing call scopes is unobservable: without it a run that ends also ends, with the same
value, and the scopes from before the run and those that its value or the current scope leads to
hold the same bindings. -/
theorem eval_never_of_whenUnreachable {c : Code} (hclosed : s.heap.Closed)
    (hscope : here.scope < s.heap.size)
    (h : c.eval (Closure.callWithin .whenUnreachable n) here s = some (v, s₁)) :
    ∃ s₂, c.eval (Closure.callWithin .never n) here s = some (v, s₂) ∧
      ∀ a, (a < s.heap.size ∨ ∃ r, (v.scope? = some r ∨ r = here.scope) ∧
        (s₁.heap.Reach r a ∨ s₂.heap.Reach r a)) → s₁.heap.scope? a = s₂.heap.scope? a := by
  have hcode : (released here.scope s.heap.size).code c here.site here.site := rfl
  have hstart : (released here.scope s.heap.size).heaps (fun a => a < s.heap.size) s.heap s.heap :=
    ⟨⟨hscope, hclosed, hclosed.sealedBelow⟩, Nat.le_refl _, rfl, hscope, fun _ ha => ha,
      fun _ _ => rfl, fun a _ b => hclosed a b⟩
  have hrun := Simulation.runs (released_calls n) released_landed hcode _ s s hstart
  rw [show (⟨here.scope, here.site⟩ : Place) = here from rfl, h] at hrun
  generalize c.eval (Closure.callWithin .never n) here s = q at hrun
  cases hrun with
  | @some _ a h =>
    obtain ⟨v', s₂⟩ := a
    obtain ⟨live, hlive, ⟨-, -, -, -, -, H⟩, heq, hv, -⟩ := h
    cases heq
    refine ⟨s₂, rfl, ?_⟩
    rintro a (ha | ⟨r, hr, ha⟩)
    · exact H.scope a (hlive a ha)
    · have hr : live r := hr.elim (hv r) fun h => hlive r (h ▸ hscope)
      exact H.scope a (ha.elim (·.mem_of_closed H.closed hr)
        (·.mem_of_closed (fun _ ha _ hl => H.closed_right ha hl) hr))

/-- Two calls: the scope of the first is kept by the function it returns, and that of the second is
released although the same function is bound in it. -/
def keptAndReleased : Code :=
  .program (parse "let k = fn(x) \x7b fn() \x7b x \x7d \x7d(5); fn(y) \x7b y \x7d(k)").1

theorem eval_never_of_whenUnreachable_keptAndReleased :
    ∃ v s₁ s₂, keptAndReleased.eval (Closure.callWithin .whenUnreachable 2) ⟨0, ⟨0, []⟩⟩
        ⟨Heap.push {} {}, {}⟩ = some (v, s₁) ∧
      keptAndReleased.eval (Closure.callWithin .never 2) ⟨0, ⟨0, []⟩⟩
        ⟨Heap.push {} {}, {}⟩ = some (v, s₂) ∧
      s₁.heap.bindingCount 2 = 0 ∧ s₂.heap.bindingCount 2 = 1 ∧
      s₁.heap.bindingCount 1 = 1 ∧ s₁.heap.scope? 1 = s₂.heap.scope? 1 := by
  have hrun : ((keptAndReleased.eval (Closure.callWithin .whenUnreachable 2) ⟨0, ⟨0, []⟩⟩
      ⟨Heap.push {} {}, {}⟩).map fun r =>
        (r.1.scope?, r.2.heap.bindingCount 1, r.2.heap.bindingCount 2)) = some (some 1, 1, 0) := by
    decide +kernel
  have hnever : ((keptAndReleased.eval (Closure.callWithin .never 2) ⟨0, ⟨0, []⟩⟩
      ⟨Heap.push {} {}, {}⟩).map fun r => r.2.heap.bindingCount 2) = some 1 := by
    decide +kernel
  obtain ⟨⟨v, s₁⟩, h, hv⟩ := Option.map_eq_some_iff.mp hrun
  obtain ⟨s₂, h₂, heq⟩ := eval_never_of_whenUnreachable Heap.closed_empty.push (by decide) h
  obtain ⟨_, h₂', hcount⟩ := Option.map_eq_some_iff.mp hnever
  cases h₂.symm.trans h₂'
  simp only [Prod.mk.injEq] at hv
  exact ⟨v, s₁, s₂, h, h₂, hv.2.2, hcount, hv.2.1, heq 1 (.inr ⟨1, .inl hv.1, .inl .refl⟩)⟩

end MonkeyLang
