import MonkeyLang.Proofs.Eval.Frame
import MonkeyLang.Proofs.Eval.Steps

/-!
# Static scoping

Code inside nested function literals runs in a call scope of the innermost one, around which there
are a call scope of the next, and so on to the scope that the program started in
(`Moment.static_scoping`). A call scope binds parameters of its literal and names of `let` statements
of its body only. Which literal a scope belongs to is read off the run: `Moment.CallScope` says that
a call of one of its functions has made the scope.

`statics` is the invariant behind this. It ties every function in the heap to the place of its literal:
the scope that the function was made in is nested as the literal is.
-/

namespace MonkeyLang

/-- The function in a value, also inside a `return`. -/
def Value.closure? : Value → Option Closure
  | .closure c => some c
  | .returned v => v.closure?
  | _ => none

theorem Value.IsData.closure? {v : Value} (h : v.IsData) : v.closure? = none := by
  cases v <;> first | rfl | exact h.elim

theorem Value.closure?_landed (v : Value) : v.landed.closure? = v.closure? := by cases v <;> rfl

namespace Heap

/-- Every scope is still there, in the same scope. -/
def Kept (h h' : Heap) : Prop :=
  ∀ a s, h.scope? a = some s → ∃ s', h'.scope? a = some s' ∧ s'.outer = s.outer

theorem Kept.refl (h : Heap) : h.Kept h := fun _ s hs => ⟨s, hs, rfl⟩

theorem Kept.trans {h h' h'' : Heap} (hk : h.Kept h') (hk' : h'.Kept h'') : h.Kept h'' := by
  intro a s hs
  obtain ⟨s', hs', ho⟩ := hk a s hs
  obtain ⟨s'', hs'', ho'⟩ := hk' a s' hs'
  exact ⟨s'', hs'', ho'.trans ho⟩

theorem kept_set (h : Heap) (E : ScopeId) (name : String) (v : Value) : h.Kept (h.set E name v) := by
  intro a s hs
  rw [scope?_set]
  split
  · exact ⟨s.set name v, by rw [hs, Option.map_some], rfl⟩
  · exact ⟨s, hs, rfl⟩

theorem kept_enter (h : Heap) (c : Closure) (args : List Value) : h.Kept (h.enter c args) :=
  fun _ s hs => ⟨s, (h.scope?_enter_of_ne c args (Nat.ne_of_lt (lt_size_of_scope? hs))).trans hs, rfl⟩

theorem kept_leave (h : Heap) (policy : Release) (E : ScopeId) (v : Value) :
    h.Kept (h.leave policy E v) := by
  intro a s hs
  by_cases ha : E = a
  · subst ha
    rcases h.scope?_leave_self policy E v with heq | heq
    · exact ⟨s, heq.trans hs, rfl⟩
    · exact ⟨s.clear, by rw [heq, hs, Option.map_some], rfl⟩
  · exact ⟨s, (h.scope?_leave_of_ne policy v ha).trans hs, rfl⟩

end Heap

namespace Moment

/-- The start of a program in a fresh scope. -/
def start (n : Nat) (p : Program) (σ : Site) (s : Store) : Moment :=
  ⟨n, .program p, ⟨s.heap.size, σ⟩, { s with heap := s.heap.push {} }⟩

/-- In the run from `m` the call of a function of the literal `L` makes the scope `a`. -/
def CallScope (m : Moment) (L : Literal) (a : ScopeId) : Prop :=
  ∃ m' c args s t, m.Runs m' ∧ m'.Calls c args s ∧ c.entry args s = some (a, t) ∧ c.literal = L

theorem CallScope.unique {m : Moment} (h : m.CallScope L a) (h' : m.CallScope L' a) : L = L' := by
  obtain ⟨m₁, c, vs, s, t, hm, hc, he, rfl⟩ := h
  obtain ⟨m₂, d, ws, s', t', hm', hd, he', rfl⟩ := h'
  rw [hc.unique hm hm' hd ((eq_size_of_entry he).symm.trans (eq_size_of_entry he'))]

theorem CallScope.size_le {m : Moment} (h : m.CallScope L a) : m.store.heap.size ≤ a := by
  obtain ⟨m', c, vs, s, t, hm, hc, he, -⟩ := h
  rw [eq_size_of_entry he]
  exact Nat.le_trans hm.size_le hc.size_le

section
variable (m : Moment)

/-- `Nested m h a nest`: the scope `a` and those around it are call scopes of the literals `nest` and
the scope that the run `m` starts in. -/
inductive Nested (h : Heap) : ScopeId → List Literal → Prop
  | top : h.scope? m.here.scope = some s → s.outer = none → Nested h m.here.scope []
  | call : m.CallScope L a → h.scope? a = some s → s.outer = some b → b < a → Nested h b nest →
    Nested h a (L :: nest)

/-- A function was made in a scope that is nested as its literal is. -/
def Static (p : Program) (σ₀ : Site) (h : Heap) (v : Value) : Prop :=
  ∀ c, v.closure? = some c → ∃ t nest,
    p.Lies σ₀ nest (.expr (.function t c.parameters c.body)) c.site ∧ m.Nested h c.scope nest

/-- All scopes of the run bind such functions only, and call scopes only names of their literals. -/
def Scoped (p : Program) (σ₀ : Site) (h : Heap) : Prop :=
  ∀ a s, m.here.scope ≤ a → h.scope? a = some s → (∀ y ∈ s.bindings, m.Static p σ₀ h y.2) ∧
    ∀ L, m.CallScope L a → ∀ y ∈ s.bindings, L.Names y.1

end

variable {m : Moment} {p : Program} {σ₀ : Site}

theorem Nested.kept (hn : m.Nested h a nest) (hk : h.Kept h') : m.Nested h' a nest := by
  induction hn with
  | top hs ho =>
    obtain ⟨s', hs', ho'⟩ := hk _ _ hs
    exact .top hs' (ho'.trans ho)
  | call hc hs ho hlt _ ih =>
    obtain ⟨s', hs', ho'⟩ := hk _ _ hs
    exact .call hc hs' (ho'.trans ho) hlt ih

theorem Nested.lt_size (hn : m.Nested h a nest) : a < h.size := by
  cases hn with
  | top hs | call _ hs => exact Heap.lt_size_of_scope? hs

theorem Nested.outer (hn : m.Nested h a nest) (hr : Relation.ReflTransGen h.Outer a b) :
    ∃ nest', m.Nested h b nest' := by
  induction hr with
  | refl => exact ⟨nest, hn⟩
  | tail _ hb ih =>
    obtain ⟨nest', hn⟩ := ih
    obtain ⟨s, hs, ho⟩ := hb
    cases hn with
    | top hs' ho' => cases hs.symm.trans hs'; cases ho.symm.trans ho'
    | call _ hs' ho' _ hn => cases hs.symm.trans hs'; cases ho.symm.trans ho'; exact ⟨_, hn⟩

theorem Static.kept (hv : m.Static p σ₀ h v) (hk : h.Kept h') : m.Static p σ₀ h' v := by
  intro c hc
  obtain ⟨t, nest, hl, hn⟩ := hv c hc
  exact ⟨t, nest, hl, hn.kept hk⟩

/-- The scopes of the run are not older than its first one. -/
theorem Nested.le (hm : m.here.scope < m.store.heap.size) (hn : m.Nested h a nest) :
    m.here.scope ≤ a := by
  cases hn with
  | top => exact Nat.le_refl _
  | call hc => exact Nat.le_trans (Nat.le_of_lt hm) hc.size_le

theorem Scoped.leave (hs : m.Scoped p σ₀ h) : m.Scoped p σ₀ (h.leave policy E v) := by
  intro a s ha hsc
  obtain ⟨s', hs', -, hb⟩ := Heap.scope?_leave_elim hsc
  obtain ⟨hv, hn⟩ := hs a s' ha hs'
  exact ⟨fun y hy => (hv y (hb y hy)).kept (h.kept_leave policy E v),
    fun L hL y hy => hn L hL y (hb y hy)⟩

theorem Scoped.enter (hs : m.Scoped p σ₀ h) (hL : m.CallScope c.literal h.size)
    (hargs : ∀ v ∈ args, m.Static p σ₀ h v) : m.Scoped p σ₀ (h.enter c args) := by
  have hk := h.kept_enter c args
  intro a s ha hsc
  by_cases hsize : a = h.size
  · subst hsize
    obtain ⟨s', hs', -, hb⟩ := h.scope?_enter_self c args
    cases hsc.symm.trans hs'
    refine ⟨fun y hy => ?_, fun L hL' y hy => ?_⟩ <;> obtain ⟨q, hq, rfl⟩ := hb y hy
    · exact (hargs _ (List.of_mem_zip hq).2).kept hk
    · rw [hL'.unique hL]
      exact .inl ⟨q.1, (List.of_mem_zip hq).1, rfl⟩
  · rw [h.scope?_enter_of_ne c args hsize] at hsc
    obtain ⟨hv, hn⟩ := hs a s ha hsc
    exact ⟨fun y hy => (hv y hy).kept hk, hn⟩

/-- A `let` binds a name of the literal that the current scope belongs to. -/
theorem Scoped.set (hs : m.Scoped p σ₀ h) (hv : m.Static p σ₀ h v)
    (hname : ∀ L, m.CallScope L E → L.Names name) : m.Scoped p σ₀ (h.set E name v) := by
  have hk := h.kept_set E name v
  intro a s ha hsc
  rw [Heap.scope?_set] at hsc
  split at hsc
  · next hEa =>
    subst hEa
    obtain ⟨s', hs', rfl⟩ := Option.map_eq_some_iff.mp hsc
    obtain ⟨hvs, hn⟩ := hs _ s' ha hs'
    refine ⟨fun y hy => ?_, fun L hL y hy => ?_⟩ <;> rcases Heap.mem_bindings_set hy with rfl | hy
    · exact hv.kept hk
    · exact (hvs y hy).kept hk
    · exact hname L hL
    · exact hn L hL y hy
  · obtain ⟨hvs, hn⟩ := hs a s ha hsc
    exact ⟨fun y hy => (hvs y hy).kept hk, hn⟩

/-- What runs inside the literals `nest` keeps, in a scope `E` of theirs. -/
def statics (m : Moment) (hm : m.here.scope < m.store.heap.size) (p : Program) (σ₀ : Site)
    (nest : List Literal) (E : ScopeId) : Invariant E where
  Later := Heap.Kept
  heap h := m.Nested h E nest ∧ m.Scoped p σ₀ h
  value := m.Static p σ₀
  code c σ := p.Lies σ₀ nest c σ
  refl := Heap.Kept.refl
  trans := Heap.Kept.trans
  child h hc := h.child hc
  mono hl hv := hv.kept hl
  data hv c hc := by rw [hv.closure?] at hc; cases hc
  returned hv _ := hv
  closure := by
    rintro t xs b σ h hl ⟨hn, -⟩ c hc
    cases hc
    exact ⟨t, nest, hl, hn⟩
  lookup := by
    rintro h name v ⟨hn, hs⟩ hl
    obtain ⟨a, s, hr, hsc, hx⟩ := Heap.mem_of_lookup hl
    obtain ⟨nest', hn'⟩ := hn.outer hr
    exact (hs a s (hn'.le hm) hsc).1 _ hx
  bind := by
    rintro t x e σ h v hl ⟨hn, hs⟩ hv -
    have hk := h.kept_set E x.name v
    refine ⟨hk, hn.kept hk, hs.set hv fun L hL => ?_⟩
    cases hn with
    | top => exact absurd hL.size_le (Nat.not_le.mpr hm)
    | call hL' =>
      rw [hL.unique hL']
      exact .inr ⟨t, x, e, hl.part, rfl⟩

theorem statics_landed {hm : m.here.scope < m.store.heap.size} (h : Heap) (v : Value)
    (hv : (statics m hm p σ₀ nest E).value h v) : (statics m hm p σ₀ nest E).value h v.landed :=
  fun c hc => hv c (v.closure?_landed ▸ hc)

/-! ## Calls of the run -/

/-- The run calls functions within `n` further calls as it does from the moments that have the
budget `n`, and calls nothing else. -/
noncomputable def callWithin (m : Moment) (n : Nat) : Closure → List Value → Eval Value :=
  open Classical in fun c args s =>
    if ∃ m' s', m.Runs m' ∧ m'.budget = n ∧ m'.Calls c args s' ∧ s'.heap = s.heap then
      Closure.callWithin .whenUnreachable n c args s
    else none

theorem callWithin_of_calls {m' : Moment} (hm : m.Runs m') (hb : m'.budget = n)
    (hc : m'.Calls c args s) :
    m.callWithin n c args s = Closure.callWithin .whenUnreachable n c args s :=
  if_pos ⟨m', s, hm, hb, hc, rfl⟩

theorem logFree_callWithin (m : Moment) (n : Nat) : LogFree (m.callWithin n) := by
  intro c args s t hst
  unfold callWithin
  rw [hst]
  split
  · exact Closure.logFree_callWithin .whenUnreachable n c args s t hst
  · exact .none

theorem outcome_eq {m' : Moment} (hm : m.Runs m') :
    m'.code.eval (m.callWithin m'.budget) m'.here m'.store = m'.outcome :=
  m'.eval_eq_of_calls fun _ hm' hb _ _ _ hc => callWithin_of_calls (hm.trans hm') hb hc

/-- The body of a function starts in a scope that is nested as its literal is. -/
theorem heap_enter {hm : m.here.scope < m.store.heap.size} {m' : Moment} (hrun : m.Runs m')
    (hcall : m'.Calls c args s) (he : c.entry args s = some (e, t))
    (hh : (statics m hm p σ₀ nest E).heap s.heap)
    (hc : (statics m hm p σ₀ nest E).value s.heap (.closure c))
    (hargs : ∀ v ∈ args, (statics m hm p σ₀ nest E).value s.heap v) :
    ∃ nest', p.Lies σ₀ (c.literal :: nest') (.block c.body) c.site ∧
      (statics m hm p σ₀ (c.literal :: nest') e).heap t.heap := by
  obtain ⟨-, hs⟩ := hh
  obtain ⟨u, nest', hl, hn⟩ := hc c rfl
  have hL : m.CallScope c.literal e := ⟨m', c, args, s, t, hrun, hcall, he, rfl⟩
  obtain rfl := eq_size_of_entry he
  obtain ⟨t', ht', hheap⟩ := c.entry_apply args s
  cases he.symm.trans ht'
  obtain ⟨sc, hsc, ho, -⟩ := s.heap.scope?_enter_self c args
  refine ⟨nest', hl.body, ?_, ?_⟩ <;> rw [hheap]
  · exact .call hL hsc ho hn.lt_size (hn.kept (s.heap.kept_enter c args))
  · exact hs.enter hL hargs

/-- A call of the run that ends has run the body of the function, and in it no calls but those of the
run. The store `s'` is the one of the run, which may hold another log. -/
theorem callWithin_elim (h : m.callWithin n c args s = some (v, t)) :
    ∃ m' s' t' u w u', m.Runs m' ∧ m'.Calls c args s' ∧ s'.heap = s.heap ∧ t'.heap = t.heap ∧
      Closure.callWithin .whenUnreachable m'.budget c args s' = some (v, t') ∧
      c.entry args s' = some (s.heap.size, u) ∧ u.heap = s.heap.enter c args ∧
      (Code.block c.body).eval (m.callWithin n.pred) ⟨s.heap.size, c.site⟩ u = some (w, u') ∧
      v = w.landed ∧ t.heap = u'.heap.leave .whenUnreachable s.heap.size w.landed := by
  unfold callWithin at h
  split at h
  · next hrun =>
    obtain ⟨m', s', hrun, rfl, hcall, hs'⟩ := hrun
    have hlog := Closure.logFree_callWithin .whenUnreachable m'.budget c args s s' hs'.symm
    rw [h] at hlog
    generalize ht' : Closure.callWithin .whenUnreachable m'.budget c args s' = r at hlog
    cases hlog with
    | @some _ r hlog =>
      obtain ⟨v', t'⟩ := r
      obtain ⟨htt', rfl⟩ : t.heap = t'.heap ∧ v = v' := hlog
      cases hb : m'.budget with
      | zero => rw [hb] at ht'; cases ht'
      | succ n =>
        obtain ⟨u, f, he, hu, hf, heq⟩ := Closure.callWithin_succ .whenUnreachable n c args s'
        rw [hs'] at he hu hf heq
        rw [hb, heq] at ht'
        obtain ⟨⟨w, u'⟩, hw, hr⟩ := Option.map_eq_some_iff.mp ht'
        cases hr
        have hout := outcome_eq (hrun.tail (.body hcall hb he))
        refine ⟨m', s', _, u, w, u', hrun, hcall, hs', htt'.symm, ?_, he, hu, hout.trans hw, rfl, ?_⟩
        · rw [hb, heq, hw, Option.map_some]
        · rw [htt', hf]
  · cases h

theorem calls_callWithin (hm : m.here.scope < m.store.heap.size) (n : Nat) :
    (statics m hm p σ₀ nest E).Calls (m.callWithin n) := by
  induction n generalizing nest E with
  | zero =>
    intro c args s _ _ _ _ v t ht
    unfold callWithin at ht
    split at ht <;> cases ht
  | succ n ih =>
    intro c args s hh hc hargs _ v t ht
    obtain ⟨m', s', t', u, w, u', hrun, hcall, hs', -, -, he, hu, hw, rfl, hleave⟩ :=
      callWithin_elim ht
    have hargs : ∀ v ∈ args, (statics m hm p σ₀ nest E).value s'.heap v :=
      hs' ▸ fun v hv => (hargs v hv).1
    obtain ⟨nest', hl, hh'⟩ := heap_enter hrun hcall he (hs' ▸ hh) (hs' ▸ hc) hargs
    obtain ⟨hk, ⟨-, hs⟩, hv⟩ := (statics m hm p σ₀ _ _).keeps (c := .block c.body)
      (logFree_callWithin m n) ih hh' hl statics_landed w u' hw
    have hleft := u'.heap.kept_leave .whenUnreachable s.heap.size w.landed
    have hkept : s.heap.Kept t.heap := by
      rw [hleave]
      exact ((s.heap.kept_enter c args).trans (hu ▸ hk)).trans hleft
    rw [hleave] at hkept ⊢
    have hland : m.Static p σ₀ u'.heap w.landed := fun c hc => hv c (w.closure?_landed ▸ hc)
    exact ⟨hkept, ⟨hh.1.kept hkept, hs.leave⟩, hland.kept hleft⟩

/-! ## Moments of the run -/

theorem Goes.callWithin {m' : Moment} (hm : m.Runs m') (hg : m'.Goes a) :
    Script.Goes (m.callWithin m'.budget) (m'.code.script m'.here, m'.store) a := by
  induction hg with
  | refl => exact .refl
  | @tail b c hb hs ih =>
    refine ih.tail ?_
    cases hs with
    | note h => exact .note h
    | run h => exact .run ((outcome_eq (hm.tail (.part hb))).trans h)
    | call h => exact .call ((callWithin_of_calls hm rfl ⟨_, hb⟩).trans h)

/-- What holds of a moment of the run. -/
theorem Runs.nested (hm : m.here.scope < m.store.heap.size) (hcode : m.code = .program p)
    (hstart : (statics m hm p m.here.site [] m.here.scope).heap m.store.heap) {m' : Moment}
    (hrun : m.Runs m') : ∃ nest, p.Lies m.here.site nest m'.code m'.here.site ∧
      (statics m hm p m.here.site nest m'.here.scope).heap m'.store.heap := by
  induction hrun with
  | refl => exact ⟨[], hcode ▸ .root, hstart⟩
  | @tail m₁ m₂ hrun hnext ih =>
    obtain ⟨nest, hl, hh⟩ := ih
    have hsafe : ∀ {a}, m₁.Goes a →
        (statics m hm p m.here.site nest m₁.here.scope).heap a.2.heap ∧
          (statics m hm p m.here.site nest m₁.here.scope).Safe a.1 a.2.heap := fun hg =>
      (Invariant.safe_script hl _).goes (logFree_callWithin m _) (calls_callWithin hm _)
        statics_landed hh (hg.callWithin hrun)
    cases hnext with
    | part hg =>
      obtain ⟨hh', hscope, hl', -⟩ := hsafe hg
      exact ⟨nest, hl', hscope ▸ hh'⟩
    | body hc hb he =>
      obtain ⟨k, hk⟩ := hc
      obtain ⟨hh', hv, hargs, -⟩ := hsafe hk
      obtain ⟨nest', hl', hh''⟩ := heap_enter hrun ⟨k, hk⟩ he hh' hv fun v hv => (hargs v hv).1
      exact ⟨_, hl', hh''⟩

/-- The call scopes of the literals, and the scope that the run starts in, are what lookup sees. -/
theorem Nested.outward (hn : m.Nested h a nest) : ∃ as, List.Forall₂ m.CallScope nest as ∧
    h.Outward a (as ++ [m.here.scope]) ∧
    ∀ n, a < n → (h.chainWithin n a).map some = (as ++ [m.here.scope]).map h.scope? := by
  obtain ⟨as, has, hout, hlen⟩ : ∃ as, List.Forall₂ m.CallScope nest as ∧
      h.Outward a (as ++ [m.here.scope]) ∧ as.length ≤ a := by
    induction hn with
    | top hs ho => exact ⟨[], .nil, .last hs ho, Nat.zero_le _⟩
    | @call L a s b nest hc hs ho hlt _ ih =>
      obtain ⟨as, has, hout, hlen⟩ := ih
      exact ⟨a :: as, .cons hc has, .link hs ho hout, Nat.lt_of_le_of_lt hlen hlt⟩
  refine ⟨as, has, hout, fun n hn => hout.chainWithin ?_⟩
  rw [List.length_append, List.length_singleton]
  exact Nat.lt_of_le_of_lt hlen hn

/-- In a fresh scope without one around it the invariant holds. -/
theorem heap_start (n : Nat) (p : Program) (σ₀ : Site) (s : Store)
    (hm : (start n p σ₀ s).here.scope < (start n p σ₀ s).store.heap.size) :
    (statics (start n p σ₀ s) hm p σ₀ [] s.heap.size).heap (s.heap.push {}) := by
  have hpush : (s.heap.push {}).scope? s.heap.size = some {} := by
    rw [Heap.scope?_push, if_pos rfl]
  refine ⟨.top hpush rfl, fun a sc ha hsc => ?_⟩
  have hlt := Heap.lt_size_of_scope? hsc
  rw [Heap.size_push] at hlt
  obtain rfl : a = s.heap.size := Nat.le_antisymm (Nat.le_of_lt_succ hlt) ha
  cases hpush.symm.trans hsc
  exact ⟨fun y hy => absurd hy List.not_mem_nil, fun _ _ y hy => absurd hy List.not_mem_nil⟩

/-- Static scoping. In the run of a program from a fresh scope each moment lies inside some function
literals. Before its evaluation and after it, the scopes around the current one are call scopes of
these literals, the innermost first, and the scope that the program started in; a lookup sees these
scopes and no other. Call scopes bind only names of their literals. -/
theorem static_scoping {n : Nat} {p : Program} {σ₀ : Site} {s : Store} {m : Moment}
    (hrun : (start n p σ₀ s).Runs m) :
    (∃ nest, p.Lies σ₀ nest m.code m.here.site) ∧
    ∀ nest, p.Lies σ₀ nest m.code m.here.site →
    ∀ h, (h = m.store.heap ∨ ∃ v t, m.outcome = some (v, t) ∧ h = t.heap) →
      (∃ as, List.Forall₂ (start n p σ₀ s).CallScope nest as ∧
        h.Outward m.here.scope (as ++ [s.heap.size]) ∧
        (h.chain m.here.scope).map some = (as ++ [s.heap.size]).map h.scope?) ∧
      (∀ name, h.hops m.here.scope name ≤ nest.length) ∧
      ∀ L a sc, (start n p σ₀ s).CallScope L a → h.scope? a = some sc →
        ∀ y ∈ sc.bindings, L.Names y.1 := by
  have hm : (start n p σ₀ s).here.scope < (start n p σ₀ s).store.heap.size := by
    simp [start]
  obtain ⟨nest, hl, hh⟩ := hrun.nested hm rfl (heap_start n p σ₀ s hm)
  refine ⟨⟨nest, hl⟩, fun nest' hl' h hheap => ?_⟩
  obtain rfl := hl.unique hl'
  have hh : (statics (start n p σ₀ s) hm p σ₀ nest m.here.scope).heap h := by
    rcases hheap with rfl | ⟨v, t, ht, rfl⟩
    · exact hh
    · rw [← outcome_eq hrun] at ht
      exact ((statics _ hm p σ₀ nest m.here.scope).keeps (logFree_callWithin _ _)
        (calls_callWithin hm _) hh hl statics_landed v t ht).2.1
  obtain ⟨hn, hscoped⟩ := hh
  obtain ⟨as, has, hout, hchain⟩ := hn.outward
  have hchain := hchain _ (Nat.lt_succ_self _)
  have hlen : (h.chain m.here.scope).length = nest.length + 1 := by
    have := congrArg List.length hchain
    simpa [Heap.chain, has.length_eq] using this
  refine ⟨⟨as, has, hout, hchain⟩, fun name => ?_, fun L a sc hL hsc => ?_⟩
  · refine Nat.le_trans (Nat.min_le_right ..) ?_
    rw [hlen]
    exact Nat.le_refl _
  · exact (hscoped a sc (Nat.le_trans (Nat.le_of_lt hm) hL.size_le) hsc).2 L hL

/-- The function `fn(x) { x }`, made in the first scope. -/
def identity : Closure :=
  let x : Identifier := ⟨⟨.ident, "x"⟩, "x"⟩
  ⟨[x], ⟨⟨.lbrace, "\x7b"⟩, [.expr x.token (.ident x)]⟩, 0, ⟨0, [0, 0]⟩⟩

/-- The expression `fn(x) { x }(5)`. -/
def callIdentity : Expr :=
  .call ⟨.lparen, "("⟩ (.function ⟨.fnWord, "fn"⟩ identity.parameters identity.body)
    [.int ⟨.int, "5"⟩ 5]

def identityCall : Program := ⟨[.expr ⟨.fnWord, "fn"⟩ callIdentity]⟩

/-- The body of the function runs in a scope of its own within the first. -/
theorem static_scoping_identityCall :
    ∃ m a, (start 1 identityCall ⟨0, []⟩ {}).Runs m ∧ m.here.scope = 1 ∧
      identityCall.Lies ⟨0, []⟩ [identity.literal] m.code m.here.site ∧
      (start 1 identityCall ⟨0, []⟩ {}).CallScope identity.literal a ∧
      m.store.heap.Outward 1 [a, 0] := by
  let s : Store := ⟨Heap.push {} {}, {}⟩
  let call := Closure.callWithin .whenUnreachable 1
  have hf : (Code.expr (.function ⟨.fnWord, "fn"⟩ identity.parameters identity.body)).eval call
      ⟨0, ⟨0, [0, 0]⟩⟩ s = some (.closure identity, s) := rfl
  have hv : (Code.expr (.int ⟨.int, "5"⟩ 5)).eval call ⟨0, ⟨0, [1, 0]⟩⟩ s = some (.int 5, s) := rfl
  have hcalls : Moment.Calls ⟨1, .expr callIdentity, ⟨0, ⟨0, [0]⟩⟩, s⟩ identity [.int 5] s :=
    ⟨_, .head (.note rfl) (.head (.run hf) (.single (.run hv)))⟩
  have hm : (start 1 identityCall ⟨0, []⟩ {}).Runs
      ⟨1, .expr callIdentity, ⟨0, ⟨0, [0]⟩⟩, s⟩ :=
    .head (.part (.single (.note rfl))) (.single (.part .refl))
  obtain ⟨t, he, -⟩ := identity.entry_apply [.int 5] s
  have hrun := hm.tail (.body hcalls rfl he)
  have hl : identityCall.Lies ⟨0, []⟩ [identity.literal] (.block identity.body) identity.site :=
    .body (.child (.child (.child .root (.programStatement rfl)) .exprValue) .callee)
  obtain ⟨as, has, hout, -⟩ := ((static_scoping hrun).2 _ hl _ (.inl rfl)).1
  cases has with
  | cons hL hnil =>
    cases hnil
    exact ⟨_, _, hrun, rfl, hl, hL, hout⟩

end Moment

end MonkeyLang
