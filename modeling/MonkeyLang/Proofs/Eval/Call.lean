import MonkeyLang.Proofs.Eval.Simulation

/-!
# What a call does to the heap

A call enters with `Heap.enter`, a new scope in which the parameters are bound, and leaves with
`Heap.leave`, which may clear that scope again (`Closure.callWithin_succ`). Clearing changes neither
the number of scopes nor the scope around any.
-/

namespace MonkeyLang

namespace Heap

/-- Binds names in a scope, in order. -/
def bindAll (h : Heap) (a : ScopeId) : List (Identifier × Value) → Heap
  | [] => h
  | (x, v) :: rest => (h.set a x.name v).bindAll a rest

/-- The heap in which the body of a function starts: the new scope is the last. -/
def enter (h : Heap) (c : Closure) (args : List Value) : Heap :=
  (h.push { outer := some c.scope }).bindAll h.size (c.parameters.zip args)

/-- The heap after a call in the scope `a`. -/
def leave (h : Heap) (policy : Release) (a : ScopeId) (result : Value) : Heap :=
  if policy = .whenUnreachable ∧ h.bindingCount a ≠ 0 ∧ !h.reaches result a then h.clear a else h

@[simp] theorem size_set (h : Heap) (a : ScopeId) (name : String) (v : Value) :
    (h.set a name v).size = h.size := size_modify ..

@[simp] theorem size_clear (h : Heap) (a : ScopeId) : (h.clear a).size = h.size := size_modify ..

theorem scope?_set (h : Heap) (a : ScopeId) (name : String) (v : Value) (b : ScopeId) :
    (h.set a name v).scope? b = if a = b then (h.scope? b).map (·.set name v) else h.scope? b :=
  scope?_modify ..

theorem scope?_clear (h : Heap) (a b : ScopeId) :
    (h.clear a).scope? b = if a = b then (h.scope? b).map .clear else h.scope? b :=
  scope?_modify ..

@[simp] theorem size_bindAll (h : Heap) (a : ScopeId) (ps : List (Identifier × Value)) :
    (h.bindAll a ps).size = h.size := by
  induction ps generalizing h with
  | nil => rfl
  | cons p ps ih => exact (ih _).trans (size_set ..)

@[simp] theorem size_enter (h : Heap) (c : Closure) (args : List Value) :
    (h.enter c args).size = h.size + 1 := by
  rw [enter, size_bindAll, size_push]

@[simp] theorem size_leave (h : Heap) (policy : Release) (a : ScopeId) (v : Value) :
    (h.leave policy a v).size = h.size := by
  unfold leave
  split
  · exact size_clear ..
  · rfl

theorem scope?_bindAll_of_ne (h : Heap) (ps : List (Identifier × Value)) (hab : a ≠ b) :
    (h.bindAll a ps).scope? b = h.scope? b := by
  induction ps generalizing h with
  | nil => rfl
  | cons p ps ih => rw [bindAll, ih, scope?_set, if_neg hab]

theorem scope?_enter_of_ne (h : Heap) (c : Closure) (args : List Value) (ha : a ≠ h.size) :
    (h.enter c args).scope? a = h.scope? a := by
  rw [enter, scope?_bindAll_of_ne _ _ ha.symm, scope?_push, if_neg ha]

theorem scope?_leave_of_ne (h : Heap) (policy : Release) (v : Value) (hab : a ≠ b) :
    (h.leave policy a v).scope? b = h.scope? b := by
  unfold leave
  split
  · rw [scope?_clear, if_neg hab]
  · rfl

/-- Leaving a call either keeps its scope as it is or drops the bindings. -/
theorem scope?_leave_self (h : Heap) (policy : Release) (a : ScopeId) (v : Value) :
    (h.leave policy a v).scope? a = h.scope? a ∨
      (h.leave policy a v).scope? a = (h.scope? a).map .clear := by
  unfold leave
  split
  · exact .inr (by rw [scope?_clear, if_pos rfl])
  · exact .inl rfl

/-- The scope of a call: its bindings are arguments under the names of their parameters. -/
theorem scope?_bindAll_self {h : Heap} (ps : List (Identifier × Value))
    (hs : h.scope? a = some s) :
    ∃ s', (h.bindAll a ps).scope? a = some s' ∧ s'.outer = s.outer ∧
      ∀ y ∈ s'.bindings, y ∈ s.bindings ∨ ∃ p ∈ ps, y = (p.1.name, p.2) := by
  induction ps generalizing h s with
  | nil => exact ⟨s, hs, rfl, fun y hy => .inl hy⟩
  | cons p ps ih =>
    have hset : (h.set a p.1.name p.2).scope? a = some (s.set p.1.name p.2) := by
      rw [scope?_set, if_pos rfl, hs, Option.map_some]
    obtain ⟨s', hs', hout, hb⟩ := ih hset
    refine ⟨s', hs', hout, fun y hy => ?_⟩
    rcases hb y hy with hy | ⟨q, hq, hy⟩
    · rcases List.mem_cons.mp hy with hy | hy
      · exact .inr ⟨p, List.mem_cons_self, hy⟩
      · exact .inl (List.mem_of_mem_filter hy)
    · exact .inr ⟨q, List.mem_cons_of_mem _ hq, hy⟩

theorem scope?_enter_self (h : Heap) (c : Closure) (args : List Value) :
    ∃ s, (h.enter c args).scope? h.size = some s ∧ s.outer = some c.scope ∧
      ∀ y ∈ s.bindings, ∃ p ∈ c.parameters.zip args, y = (p.1.name, p.2) := by
  have hpush : (h.push { outer := some c.scope }).scope? h.size = some { outer := some c.scope } :=
    by rw [scope?_push, if_pos rfl]
  obtain ⟨s, hs, hout, hb⟩ := scope?_bindAll_self (c.parameters.zip args) hpush
  exact ⟨s, hs, hout, fun y hy => (hb y hy).resolve_left List.not_mem_nil⟩

end Heap

/-! ## The call -/

theorem Closure.bindParameters_apply (a : ScopeId) (ps : List (Identifier × Value)) (s : Store) :
    ∃ t, bindParameters a ps s = some ((), t) ∧ t.heap = s.heap.bindAll a ps := by
  induction ps generalizing s with
  | nil => exact ⟨s, rfl, rfl⟩
  | cons p ps ih => exact ih _

theorem Closure.release_apply (policy : Release) (c : Closure) (a : ScopeId) (v : Value)
    (s : Store) :
    ∃ t, release policy c a v s = some ((), t) ∧ t.heap = s.heap.leave policy a v := by
  unfold release Heap.leave
  simp only [Eval.bind_apply, get, getThe, MonadStateOf.get, StateT.get, pure, Option.bind_some]
  split
  · exact ⟨_, rfl, rfl⟩
  · exact ⟨_, rfl, rfl⟩

/-- What a call does before the body: it makes a scope and binds the parameters there. -/
def Closure.entry (c : Closure) (args : List Value) : Eval ScopeId := do
  Eval.note .evaluator .debug fun _ => "Calling " ++ c.render
  let scope ← Eval.newScope (some c.scope)
  Closure.bindParameters scope (c.parameters.zip args)
  pure scope

theorem Closure.entry_apply (c : Closure) (args : List Value) (s : Store) :
    ∃ t, c.entry args s = some (s.heap.size, t) ∧ t.heap = s.heap.enter c args := by
  obtain ⟨t, ht, hheap⟩ := bindParameters_apply s.heap.size (c.parameters.zip args)
    { s with
      heap := s.heap.push { outer := some c.scope }
      log := s.log.record .debug .evaluator fun _ => "Calling " ++ c.render }
  refine ⟨t, ?_, hheap⟩
  show (bindParameters s.heap.size _ _).bind _ = _
  rw [ht]
  rfl

theorem Closure.callWithin_eq (policy : Release) (n : Nat) (c : Closure) (args : List Value) :
    callWithin policy (n + 1) c args = (do
      let scope ← c.entry args
      let result ← c.body.eval (callWithin policy n) ⟨scope, c.site⟩
      release policy c scope result.landed
      pure result.landed) := by
  funext s
  simp only [callWithin, atLevel_eq, entry, bind_assoc, pure_bind]

/-- A call runs the body in a new scope and gives what its value lands as. -/
theorem Closure.callWithin_succ (policy : Release) (n : Nat) (c : Closure) (args : List Value)
    (s : Store) :
    ∃ (t : Store) (f : Value → Store → Store), c.entry args s = some (s.heap.size, t) ∧
      t.heap = s.heap.enter c args ∧
      (∀ v u, (f v u).heap = u.heap.leave policy s.heap.size v) ∧
      callWithin policy (n + 1) c args s =
        (c.body.eval (callWithin policy n) ⟨s.heap.size, c.site⟩ t).map
          fun r => (r.1.landed, f r.1.landed r.2) := by
  obtain ⟨t, ht, hheap⟩ := c.entry_apply args s
  choose f hf hfheap using fun v u => release_apply policy c s.heap.size v u
  refine ⟨t, f, ht, hheap, hfheap, ?_⟩
  rw [callWithin_eq, Eval.bind_apply, ht, Option.bind_some, Eval.bind_apply]
  generalize c.body.eval _ _ t = r
  cases r with
  | none => rfl
  | some r =>
    show (release policy c s.heap.size r.1.landed r.2).bind _ = _
    rw [hf]
    rfl

/-- Applying a value runs the call, or ends in an error and leaves the heap as it is. -/
theorem Value.apply_elim {call : Closure → List Value → Eval Value} {s t : Store}
    (h : Value.apply call f args s = some (v, t)) :
    (∃ c, f = .closure c ∧ args.length = c.parameters.length ∧ call c args s = some (v, t)) ∨
      ∃ e, v = .error e ∧ t.heap = s.heap := by
  have herror : ∀ e, Eval.report (.error e) s = some (v, t) → ∃ e, v = .error e ∧ t.heap = s.heap := by
    intro e h
    obtain ⟨t', ht', hheap⟩ := Eval.quiet_report (.error e) s
    cases h.symm.trans ht'
    exact ⟨e, rfl, hheap⟩
  unfold Value.apply at h
  split at h
  · split at h
    · next hlen => exact .inl ⟨_, rfl, hlen, h⟩
    · exact .inr (herror _ h)
  · exact .inr (herror _ h)

/-- A program comes to what the value of its statements lands as. -/
theorem Program.evalWith_apply (call : Closure → List Value → Eval Value) (p : Program)
    (here : Place) (s : Store) :
    ∃ (t : Store) (f : Value → Store → Store), t.heap = s.heap ∧ (∀ v u, (f v u).heap = u.heap) ∧
      p.evalWith call here s =
        (Stmt.evalAll call p.statements here 0 .null t).map fun r => (r.1.landed, f r.1 r.2) := by
  obtain ⟨t, ht, hheap⟩ := Eval.quiet_note .evaluator .debug (fun _ =>
    "Evaluating " ++ toString p.statements.length ++ " statement(s)") s
  have hend : ∀ v : Value, Eval.Quiet (do
      if !v.isSignal then
        Eval.note .evaluator .info fun _ => "Program evaluated to: " ++ v.render
      pure v.landed) fun _ => v.landed := by
    intro v
    split
    · exact Eval.Quiet.bind (Eval.quiet_note _ _ _) fun _ => Eval.quiet_pure _
    · exact Eval.Quiet.bind (Eval.quiet_pure ()) fun _ => Eval.quiet_pure _
  choose f hf hfheap using hend
  refine ⟨t, f, hheap, hfheap, ?_⟩
  rw [Program.evalWith, Eval.bind_apply, ht, Option.bind_some, Eval.bind_apply]
  cases Stmt.evalAll call p.statements here 0 .null t with
  | none => rfl
  | some r => exact hf r.1 r.2

end MonkeyLang
