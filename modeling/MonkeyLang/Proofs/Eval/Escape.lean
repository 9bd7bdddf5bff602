import MonkeyLang.Parser
import MonkeyLang.Proofs.Eval.StaticScope
import MonkeyLang.Proofs.Heap.Counting

/-!
# Call scopes that stay bound

Whether a call releases its bindings is decided once, when it returns, by what its value leads to. A
call scope that binds anything has been left in this way: the value of its call led to it then, and it
still does (`Moment.escapes`), for the scopes on the way were made by the call or within it, and with
its end all of them are done with.

Such a scope goes when its last reference goes, also if no one has looked at its bindings again. What
stays is reached from the top level, or a cycle of references leads to it (`Heap.not_dropped_iff`). Some
scope of a cycle binds a function that leads back to it, since outward steps lead to older scopes; so
its own call came to a value that led to the cycle (`Moment.held_of_bound`). A function that is bound
in the scope it was made in is such a cycle by itself, and nothing ends it once the call has returned
(`Moment.threeFunctions_bound`).
-/

namespace MonkeyLang

open Relation (ReflTransGen TransGen)

namespace Heap

/-- A step from a scope that is not older than `a`. -/
def Inward (h : Heap) (a c d : ScopeId) : Prop := a ≤ c ∧ d ∈ h.next c

theorem lt_size_of_bindingCount {h : Heap} (hb : h.bindingCount a ≠ 0) : a < h.size := by
  unfold bindingCount at hb
  cases hs : h.scope? a with
  | none => rw [hs] at hb; exact absurd rfl hb
  | some s => exact lt_size_of_scope? hs

/-- If no step leads from below `a` to it, a path to `a` does not go below. -/
theorem Path.inward {h : Heap} (hp : h.Path r a) (hbelow : ∀ c < a, ∀ d, h.Leads c d → d < a) :
    ReflTransGen (h.Inward a) r a := by
  induction hp using ReflTransGen.head_induction_on with
  | refl => exact .refl
  | @head c d hd hp ih =>
    refine .head ⟨Nat.le_of_not_lt fun hc => ?_, hd⟩ ih
    have hreach : h.Reach d a := hp.lift (fun c => c) fun _ _ => Leads.of_mem_next
    have hd' := hbelow c hc d (.of_mem_next hd)
    exact Nat.lt_irrefl a (hreach.mem_of_closed (P := (· < a)) hbelow hd')

/-- A scope that is still bound when its call has ended is reached from the value. -/
theorem reaches_of_leave {h : Heap} (hb : (h.leave .whenUnreachable a v).bindingCount a ≠ 0) :
    h.leave .whenUnreachable a v = h ∧ h.reaches v a = true := by
  unfold leave at hb ⊢
  split at hb
  · refine absurd ?_ hb
    unfold bindingCount
    rw [scope?_clear, if_pos rfl]
    cases h.scope? a <;> rfl
  · next hstay =>
    rw [if_neg hstay]
    refine ⟨rfl, ?_⟩
    by_contra hr
    exact hstay ⟨rfl, hb, by simpa using hr⟩

/-! ## Scopes made since a run began -/

/-- A heap of a run whose first scope is `E₀`: older scopes lead to older ones only, and outward steps
from the others go to older scopes. -/
structure Since (E₀ : ScopeId) (h : Heap) : Prop where
  old : ∀ a < E₀, ∀ b, h.Leads a b → b < E₀
  younger : ∀ a b, E₀ ≤ a → h.Outer a b → b < a

namespace Since

variable {h : Heap} {E₀ : ScopeId}

theorem push (hh : h.Closed) : (h.push {}).Since h.size := by
  refine ⟨fun a ha b hl => hh a b (Leads.congr ?_ |>.mp hl), fun a b ha ⟨s, hs, ho⟩ => ?_⟩
  · rw [scope?_push, if_neg (Nat.ne_of_lt ha)]
  · rw [scope?_push] at hs
    split at hs
    · cases hs
      cases ho
    · exact absurd (lt_size_of_scope? hs) (Nat.not_lt_of_le ha)

theorem set (hh : h.Since E₀) (hE : E₀ ≤ E) : (h.set E name v).Since E₀ := by
  refine ⟨fun a ha b hl => hh.old a ha b (Leads.congr ?_ |>.mp hl), fun a b ha ⟨s, hs, ho⟩ => ?_⟩
  · rw [scope?_set, if_neg (Nat.ne_of_gt (Nat.lt_of_lt_of_le ha hE))]
  · obtain ⟨s', hs', hout, -⟩ := scope?_set_elim hs
    exact hh.younger a b ha ⟨s', hs', hout ▸ ho⟩

theorem enter (hh : h.Since E₀) (hE : E₀ ≤ h.size) (hc : c.scope < h.size) :
    (h.enter c args).Since E₀ := by
  refine ⟨fun a ha b hl => hh.old a ha b (Leads.congr ?_ |>.mp hl), fun a b ha ⟨s, hs, ho⟩ => ?_⟩
  · rw [scope?_enter_of_ne _ _ _ (Nat.ne_of_lt (Nat.lt_of_lt_of_le ha hE))]
  · rcases scope?_enter_elim hs with ⟨rfl, hout, -⟩ | hs
    · cases hout.symm.trans ho
      exact hc
    · exact hh.younger a b ha ⟨s, hs, ho⟩

theorem leave (hh : h.Since E₀) : (h.leave policy E v).Since E₀ := by
  refine ⟨fun a ha b hl => hh.old a ha b hl.of_leave, fun a b ha ⟨s, hs, ho⟩ => ?_⟩
  obtain ⟨s', hs', hout, -⟩ := scope?_leave_elim hs
  exact hh.younger a b ha ⟨s', hs', hout ▸ ho⟩

theorem le_of_reach (hh : h.Since E₀) (hr : h.Reach a b) (hb : E₀ ≤ b) : E₀ ≤ a := by
  by_contra ha
  have := hr.mem_of_closed (P := (· < E₀)) hh.old (Nat.lt_of_not_le ha)
  exact Nat.not_lt_of_le hb this

/-- A cycle passes through the first scope, or through a later one that binds a function that leads
back to it. -/
theorem bindsBack_of_cycle (hh : h.Since E₀) (hsealed : h.SealedBelow (E₀ + 1))
    (hc : TransGen h.Leads c c) (hca : h.Reach c a) (ha : E₀ ≤ a) :
    h.Reach E₀ a ∨ ∃ d, E₀ < d ∧ h.BindsBack d ∧ h.Reach d a := by
  have hcE := hh.le_of_reach hca ha
  have hout : ∀ d e, h.Reach d c → h.Outer d e → e < d := fun d e hd =>
    hh.younger d e (hh.le_of_reach hd hcE)
  rcases lt_or_exists_bound hc hout with hlt | ⟨d, s, ⟨x, v⟩, e, hcd, hs, hx, hv, hec⟩
  · exact absurd hlt (Nat.lt_irrefl c)
  have hda : h.Reach d a := .head ⟨s, hs, .inr ⟨_, hx, hv⟩⟩ (hec.trans hca)
  rcases Nat.eq_or_lt_of_le (hh.le_of_reach hda ha) with rfl | hd
  · exact .inl hda
  cases v with
  | closure f =>
    cases hv
    exact .inr ⟨d, hd, ⟨s, x, f, hs, hx, hec.trans hcd⟩, hda⟩
  | returned w =>
    -- such a value leads to what was there before the run, or to its first scope
    have he := hh.le_of_reach hec hcE
    have hlt := hsealed d s x w e hs hx hv
    obtain rfl : e = E₀ := Nat.le_antisymm (Nat.le_of_lt_succ hlt) he
    exact .inl (hec.trans hca)
  | _ => cases hv

end Since

/-- What each scope leads to: the scope around it, and those of what it binds. -/
def shape (h : Heap) : List (Option ScopeId × List (Option ScopeId)) :=
  h.scopes.toList.map fun s => (s.outer, s.bindings.map (·.2.scope?))

theorem getElem?_shape (h : Heap) (a : ScopeId) :
    h.shape[a]? = (h.scope? a).map fun s => (s.outer, s.bindings.map (·.2.scope?)) := by
  rw [shape, List.getElem?_map, Array.getElem?_toList]
  rfl

theorem leads_iff_shape {h : Heap} :
    h.Leads a b ↔ ∃ l, h.shape[a]? = some l ∧ (l.1 = some b ∨ some b ∈ l.2) := by
  simp [Leads, getElem?_shape]

theorem bindingCount_eq_shape (h : Heap) (a : ScopeId) :
    h.bindingCount a = (h.shape[a]?.map (·.2.length)).getD 0 := by
  rw [bindingCount, getElem?_shape]
  cases h.scope? a <;> simp [Scope.size]

theorem BindsBack.bindingCount_ne_zero {h : Heap} (hd : h.BindsBack a) : h.bindingCount a ≠ 0 := by
  obtain ⟨s, x, c, hs, hx, -⟩ := hd
  rw [bindingCount, hs]
  exact Nat.ne_of_gt (List.length_pos_of_mem hx)

end Heap

namespace Moment

/-- In the run from `m` the call that makes the scope `a` comes to the value `v`. -/
def Returns (m : Moment) (a : ScopeId) (v : Value) : Prop :=
  ∃ m' c args s t u, m.Runs m' ∧ m'.Calls c args s ∧ c.entry args s = some (a, t) ∧
    Closure.callWithin .whenUnreachable m'.budget c args s = some (v, u)

/-- The value of the call that has made `a` leads to it, through no older scope. -/
def Escaped (m : Moment) (h : Heap) (a : ScopeId) : Prop :=
  ∃ v r, m.Returns a v ∧ Heap.scopeOf? v = some r ∧ ReflTransGen (h.Inward a) r a

variable {m : Moment}

theorem Escaped.of_unchanged (he : m.Escaped h a)
    (heq : ∀ b, a ≤ b → b < h.size → h'.scope? b = h.scope? b) : m.Escaped h' a := by
  obtain ⟨v, r, hv, hr, hp⟩ := he
  refine ⟨v, r, hv, hr, hp.lift (fun c => c) ?_⟩
  rintro c d ⟨hc, hd⟩
  have hlt := (Heap.Leads.of_mem_next hd).lt_size
  exact ⟨hc, (Heap.next_congr (heq c hc hlt)).symm ▸ hd⟩

/-- What code that runs in the scope `E` keeps: all later scopes that bind anything have escaped. -/
def escapes (m : Moment) (E b : ScopeId) : Invariant E :=
  { frame E (fun _ => True) b with
    heap := fun h => (frame E (fun _ => True) b).heap h ∧
      (m.here.scope ≤ E ∧ h.Since m.here.scope) ∧ ∀ a, E < a → h.bindingCount a ≠ 0 → m.Escaped h a
    code := fun _ _ => True
    child := fun _ _ => trivial
    closure := fun _ hh => ⟨fun _ hc => Option.some_inj.mp hc ▸ hh.1.1, fun _ _ heq => by cases heq⟩
    lookup := fun hh hl => (frame E (fun _ => True) b).lookup hh.1 hl
    bind := by
      rintro t x e σ h v - ⟨hh, ⟨hE, hsince⟩, hesc⟩ hv hs
      have hne : ∀ c, E < c → (h.set E x.name v).scope? c = h.scope? c := fun c hc => by
        rw [Heap.scope?_set, if_neg (Nat.ne_of_lt hc)]
      obtain ⟨hg, hh'⟩ := (frame E (fun _ => True) b).bind (t := t) (e := e) (σ := σ)
        (fun _ _ => trivial) hh hv hs
      refine ⟨hg, hh', ⟨hE, hsince.set hE⟩, fun a ha hb => ?_⟩
      rw [Heap.bindingCount_congr (hne a ha)] at hb
      exact (hesc a ha hb).of_unchanged fun c hc _ => hne c (Nat.lt_of_lt_of_le ha hc) }

theorem escapes_landed (h : Heap) (v : Value) (hv : (escapes m E b).value h v) :
    (escapes m E b).value h v.landed :=
  frame_landed (E := E) (X := fun _ => True) hv

/-- The body of a function starts in the last scope. -/
theorem escapes_enter {h : Heap} (hh : (escapes m E b).heap h)
    (hc : (escapes m E b).value h (.closure c))
    (hargs : ∀ v ∈ args, (escapes m E b).value h v ∧ v.isSignal = false) :
    (escapes m h.size b).heap (h.enter c args) := by
  have hE : m.here.scope ≤ h.size := Nat.le_trans hh.2.1.1 (Nat.le_of_lt hh.1.1)
  refine ⟨frame_enter hh.1 hc hargs, ⟨hE, hh.2.1.2.enter hE (hc.1 _ rfl)⟩, fun a ha hb => ?_⟩
  have hlt := Heap.lt_size_of_bindingCount hb
  rw [Heap.size_enter] at hlt
  exact absurd ha (Nat.not_lt_of_le (Nat.le_of_lt_succ hlt))

theorem calls_escapes (n : Nat) : (escapes m E b).Calls (m.callWithin n) := by
  induction n generalizing E with
  | zero =>
    intro c args s _ _ _ _ v t ht
    unfold callWithin at ht
    split at ht <;> cases ht
  | succ n ih =>
    intro c args s hh hc hargs _ v t ht
    obtain ⟨m', s', t', u, w, u', hrun, hcall, hs', ht', hret, he, hu, hw, rfl, hleave⟩ :=
      callWithin_elim ht
    -- what the call does to older scopes is known from the frame
    obtain ⟨hsize, hold, hframe, hval⟩ := callWithin_frame .whenUnreachable m'.budget (hs' ▸ hh.1)
      (hs' ▸ hc) (hs' ▸ hargs) hret
    rw [hs', ht'] at hsize hold
    rw [ht'] at hframe hval
    obtain ⟨-, ⟨-, ⟨-, hsince⟩, hesc⟩, -⟩ := (escapes m s.heap.size b).keeps (c := .block c.body)
      (logFree_callWithin m n) ih (hu ▸ escapes_enter hh hc hargs) trivial escapes_landed w u' hw
    have hsince' : t.heap.Since m.here.scope := hleave ▸ hsince.leave
    refine ⟨.of_unchanged hsize hold, ⟨hframe, ⟨hh.2.1.1, hsince'⟩, fun a ha hb => ?_⟩, hval⟩
    rcases Nat.lt_trichotomy a s.heap.size with hlt | rfl | hlt
    · rw [Heap.bindingCount_congr (hold a hlt)] at hb
      exact (hh.2.2 a ha hb).of_unchanged fun c _ hc => hold c hc
    · rw [hleave] at hb hold ⊢
      obtain ⟨heq, hreaches⟩ := Heap.reaches_of_leave hb
      rw [heq] at hold ⊢
      obtain ⟨r, hr, hp⟩ := Heap.reaches_iff.mp hreaches
      refine ⟨w.landed, r, ⟨m', c, args, s', u, t', hrun, hcall, he, hret⟩, hr, hp.inward ?_⟩
      exact fun c hc d hd => hh.1.2.1 c d ((Heap.Leads.congr (hold c hc)).mp hd)
    · have hne : ∀ c, s.heap.size < c → t.heap.scope? c = u'.heap.scope? c := fun c hc => by
        rw [hleave, Heap.scope?_leave_of_ne _ _ _ (Nat.ne_of_lt hc)]
      rw [Heap.bindingCount_congr (hne a hlt)] at hb
      exact (hesc a hlt hb).of_unchanged fun c hc _ => hne c (Nat.lt_of_lt_of_le hlt hc)

/-! ## Between statements -/

/-- What holds scopes from outside of the heap between statements: the code at the top level, and the
value that it has come to. -/
def Holds (m : Moment) (v : Value) (r : ScopeId) : Prop := r = m.here.scope ∨ v.scope? = some r

/-- The call scopes of the run that bind anything have escaped. Each of them has been dropped, or it is
reached from the top level, or from an escaped scope that binds a function that leads back to it. -/
def OnlyHeld (m : Moment) (h : Heap) (v : Value) : Prop :=
  ∀ a, m.store.heap.size ≤ a → h.bindingCount a ≠ 0 → m.Escaped h a ∧
    (h.Dropped (m.Holds v) a ∨ (∃ r, m.Holds v r ∧ h.Reach r a) ∨
      ∃ d, m.store.heap.size ≤ d ∧ m.Escaped h d ∧ h.BindsBack d ∧ h.Reach d a)

section
variable {n : Nat} {p : Program} {σ : Site} {s : Store}

theorem onlyHeld_of_goes (hs : s.heap.Closed) (hg : (start n p σ s).Goes a) (v : Value) :
    (start n p σ s).OnlyHeld a.2.heap v := by
  have hstart : (escapes (start n p σ s) s.heap.size (s.heap.size + 1)).heap (s.heap.push {}) := by
    refine ⟨⟨by simp, hs.push, ?_⟩, ⟨Nat.le_refl _, .push hs⟩, fun a ha hb => ?_⟩
    · exact s.heap.size_push {} ▸ hs.push.sealedBelow
    · have hlt := Heap.lt_size_of_bindingCount hb
      rw [Heap.size_push] at hlt
      exact absurd ha (Nat.not_lt_of_le (Nat.le_of_lt_succ hlt))
  obtain ⟨⟨⟨-, -, hsealed⟩, ⟨-, hsince⟩, hesc⟩, -⟩ := (Invariant.safe_script trivial _).goes
    (logFree_callWithin _ _) (calls_escapes _) escapes_landed hstart (hg.callWithin .refl)
  have hsize : (start n p σ s).store.heap.size = s.heap.size + 1 := s.heap.size_push {}
  intro a ha hb
  rw [hsize] at ha ⊢
  refine ⟨hesc a ha hb, or_iff_not_imp_left.mpr fun hd => ?_⟩
  rcases Heap.not_dropped_iff.mp hd with htop | ⟨c, hc, hca⟩
  · exact .inl htop
  rcases hsince.bindsBack_of_cycle hsealed hc hca (Nat.le_of_lt ha) with hr | ⟨d, hd, hback, hda⟩
  · exact .inl ⟨_, .inl rfl, hr⟩
  · exact .inr ⟨d, hd, hesc d hd hback.bindingCount_ne_zero, hback, hda⟩

/-- The run comes through the end of each statement. -/
theorem goes_of_evalAll (hu : u.heap = s.heap.push {})
    (h : Stmt.evalAll (Closure.callWithin .whenUnreachable n) (p.statements.take i)
      ⟨s.heap.size, σ⟩ 0 .null u = some (v, t)) :
    ∃ a, (start n p σ s).Goes a ∧ a.2.heap = t.heap := by
  -- the run has made a note before its first statement
  obtain ⟨u', hu', hheap⟩ := Eval.quiet_note .evaluator .debug (fun _ =>
    "Evaluating " ++ toString p.statements.length ++ " statement(s)") (start n p σ s).store
  have hlog := (Closure.logFree_callWithin .whenUnreachable n).evalAll (p.statements.take i)
    ⟨s.heap.size, σ⟩ 0 .null (hu.trans hheap.symm)
  rw [h] at hlog
  generalize h' : Stmt.evalAll _ _ _ _ _ u' = q at hlog
  cases hlog with
  | some hr =>
    obtain ⟨hh, -⟩ := hr
    obtain ⟨k, hk⟩ := Script.Goes.runAll h'
    exact ⟨_, .head (.note hu') hk, hh.symm⟩

/-- Only live functions and cycles of references keep call scopes bound. In the run of a program from
a fresh scope, after each of its statements and at the end, every call scope that binds anything and
has not been dropped is reached from the first scope, from the current result, or from a cycle that
the value of a call led to. -/
theorem held_of_bound (hs : s.heap.Closed) :
    (∀ i v t, Stmt.evalAll (Closure.callWithin .whenUnreachable n) (p.statements.take i)
        ⟨s.heap.size, σ⟩ 0 .null { s with heap := s.heap.push {} } = some (v, t) →
      (start n p σ s).OnlyHeld t.heap v) ∧
    ∀ v t, p.eval n ⟨s.heap.size, σ⟩ { s with heap := s.heap.push {} } = some (v, t) →
      (start n p σ s).OnlyHeld t.heap v := by
  have hprefix : ∀ i u v w t, u.heap = s.heap.push {} →
      Stmt.evalAll (Closure.callWithin .whenUnreachable n) (p.statements.take i)
        ⟨s.heap.size, σ⟩ 0 .null u = some (w, t) → (start n p σ s).OnlyHeld t.heap v := by
    intro i u v w t hu h
    obtain ⟨a, ha, heq⟩ := goes_of_evalAll hu h
    exact heq ▸ onlyHeld_of_goes hs ha v
  refine ⟨fun i v t h => hprefix i _ v v t rfl h, fun v t h => ?_⟩
  obtain ⟨u, f, hu, hf, heq⟩ := p.evalWith_apply (Closure.callWithin .whenUnreachable n)
    ⟨s.heap.size, σ⟩ { s with heap := s.heap.push {} }
  obtain ⟨⟨w, t'⟩, hw, hr⟩ := Option.map_eq_some_iff.mp (heq.symm.trans h)
  cases hr
  rw [hf]
  exact hprefix p.statements.length u _ w t' hu (by rwa [List.take_length])

end

/-! ## Three functions -/

/-- The value of each call is a function. The first is bound in its own scope and dropped, the second is
dropped, and the third is bound at the top level. -/
def threeFunctions : Program :=
  (parse ("let mk = fn() \x7b let f = fn() \x7b 1 \x7d; f \x7d; " ++
    "let newAdder = fn(x) \x7b fn(y) \x7b x + y \x7d \x7d; " ++
    "mk(); newAdder(2); let add = newAdder(3); 5;")).1

/-- Only the first of the call scopes leads to itself, and only the third is led to from the first
scope. -/
theorem threeFunctions_shape :
    ∃ v t, threeFunctions.eval 1 ⟨0, ⟨0, []⟩⟩ ⟨Heap.push {} {}, {}⟩ = some (v, t) ∧
      v.scope? = none ∧ t.heap.shape = [(none, [some 3, some 0, some 0]), (some 0, [some 1]),
        (some 0, [none]), (some 0, [none])] := by
  have hrun : ((threeFunctions.eval 1 ⟨0, ⟨0, []⟩⟩ ⟨Heap.push {} {}, {}⟩).map fun r =>
      (r.1.scope?, r.2.heap.shape)) = some (none, [(none, [some 3, some 0, some 0]),
        (some 0, [some 1]), (some 0, [none]), (some 0, [none])]) := by
    decide +kernel
  obtain ⟨⟨v, t⟩, h, hv⟩ := Option.map_eq_some_iff.mp hrun
  obtain ⟨hnone, hshape⟩ := Prod.mk.inj hv
  exact ⟨v, t, h, hnone, hshape⟩

/-- The scope of the first call is bound and stays, though neither the first scope nor the result leads
to it. -/
theorem threeFunctions_bound :
    ∃ v t, threeFunctions.eval 1 ⟨0, ⟨0, []⟩⟩ ⟨Heap.push {} {}, {}⟩ = some (v, t) ∧
      t.heap.bindingCount 1 ≠ 0 ∧
      ¬t.heap.Dropped ((start 1 threeFunctions ⟨0, []⟩ {}).Holds v) 1 ∧
      ∀ r, (start 1 threeFunctions ⟨0, []⟩ {}).Holds v r → ¬t.heap.Reach r 1 := by
  obtain ⟨v, t, h, hv, hshape⟩ := threeFunctions_shape
  refine ⟨v, t, h, ?_, fun hd => ?_, fun r hr hreach => ?_⟩
  · rw [Heap.bindingCount_eq_shape, hshape]
    decide
  · have hself : t.heap.Leads 1 1 := Heap.leads_iff_shape.mpr ⟨_, by rw [hshape]; rfl, by decide⟩
    exact hd.not_reach_of_cycle (.single hself) .refl
  · have hclosed : ∀ a, a = 0 ∨ a = 3 → ∀ b, t.heap.Leads a b → b = 0 ∨ b = 3 := by
      rintro a ha b hl
      obtain ⟨l, hl, hb⟩ := Heap.leads_iff_shape.mp hl
      rw [hshape] at hl
      rcases ha with rfl | rfl <;> cases hl
      · have : b = 3 ∨ b = 0 := by simpa [eq_comm] using hb
        exact this.symm
      · have : b = 0 := by simpa [eq_comm] using hb
        exact .inl this
    rcases hr with rfl | hr
    · exact absurd (hreach.mem_of_closed hclosed (.inl rfl)) (by decide)
    · cases hv.symm.trans hr

/-- Each of the three ways for a scope to be bound: by a cycle, until it was dropped, and from the first
scope. -/
theorem held_of_bound_threeFunctions :
    ∃ v t, threeFunctions.eval 1 ⟨0, ⟨0, []⟩⟩ ⟨Heap.push {} {}, {}⟩ = some (v, t) ∧
      (∀ a ∈ [1, 2, 3], t.heap.bindingCount a ≠ 0) ∧ t.heap.Leads 1 1 ∧
      t.heap.Dropped ((start 1 threeFunctions ⟨0, []⟩ {}).Holds v) 2 ∧ t.heap.Leads 0 3 ∧
      (start 1 threeFunctions ⟨0, []⟩ {}).OnlyHeld t.heap v := by
  obtain ⟨v, t, h, hv, hshape⟩ := threeFunctions_shape
  refine ⟨v, t, h, fun a ha => ?_, ?_, .drop ?_ fun b hb => ?_, ?_,
    (held_of_bound (s := {}) Heap.closed_empty).2 v t h⟩
  · rw [Heap.bindingCount_eq_shape, hshape]
    revert a
    decide
  · exact Heap.leads_iff_shape.mpr ⟨_, by rw [hshape]; rfl, by decide⟩
  · rintro (hr | hr)
    · exact absurd hr (by decide)
    · cases hv.symm.trans hr
  · obtain ⟨l, hl, hb⟩ := Heap.leads_iff_shape.mp hb
    have hnone : ∀ l ∈ t.heap.shape, ¬(l.1 = some 2 ∨ some 2 ∈ l.2) := by
      rw [hshape]
      decide
    exact absurd hb (hnone l (List.mem_of_getElem? hl))
  · exact Heap.leads_iff_shape.mpr ⟨_, by rw [hshape]; rfl, by decide⟩

end Moment

end MonkeyLang
