import MonkeyLang.Proofs.Eval.Invariant
import MonkeyLang.Proofs.Heap.Reachability

/-!
# The frame of evaluation

Code that runs in a scope changes the bindings of that scope and of scopes made meanwhile, and of no
other (`Heap.Grows`). It also keeps a heap closed (`Heap.Closed`). A `return` value that a host has
bound stays what it was: evaluation binds none itself (`Heap.SealedBelow`), so whatever such a value
hides is older than the run.

`frame` is all of this as an `Invariant`, and `frame_calls` says that calls keep it.
-/

namespace MonkeyLang

/-- A doubly wrapped value leads to a scope older than `b`. -/
def Value.SealedBelow (b : ScopeId) (v : Value) : Prop :=
  ∀ w c, v = .returned (.returned w) → w.scope? = some c → c < b

theorem Value.IsData.scope? {v : Value} (h : v.IsData) : v.scope? = none := by
  cases v <;> first | rfl | exact h.elim

theorem Value.SealedBelow.of_isData {v : Value} (h : v.IsData) : v.SealedBelow b := by
  rintro w c rfl
  exact h.elim

theorem Value.scope?_landed (v : Value) : v.landed.scope? = v.scope? := by cases v <;> rfl

theorem Value.SealedBelow.landed {v : Value} (h : v.SealedBelow b) : v.landed.SealedBelow b := by
  intro w c hw hc
  cases v with
  | returned v =>
    cases hw
    exact h (.returned w) c rfl hc
  | _ => cases hw

theorem Value.SealedBelow.of_landed {v : Value} (h : v.SealedBelow b) (w : Value) (c : ScopeId)
    (hw : v.landed = .returned w) (hc : w.scope? = some c) : c < b := by
  cases v with
  | returned v =>
    cases (hw : v = .returned w)
    exact h w c rfl hc
  | _ => cases hw

namespace Heap

/-- Every step leads to a scope that exists. -/
def Closed (h : Heap) : Prop := ∀ a b, h.Leads a b → b < h.size

/-- Every bound `return` value leads to a scope older than `b`. -/
def SealedBelow (b : ScopeId) (h : Heap) : Prop :=
  ∀ a s x v c, h.scope? a = some s → (x, .returned v) ∈ s.bindings → v.scope? = some c → c < b

/-- A later heap of a run in the scope `E`, which binds no names there but those of `X`. -/
structure Grows (E : ScopeId) (X : String → Prop) (h h' : Heap) : Prop where
  size_le : h.size ≤ h'.size
  other : ∀ a < h.size, a ≠ E → h'.scope? a = h.scope? a
  here : ∀ s, h.scope? E = some s → ∃ s', h'.scope? E = some s' ∧ s'.outer = s.outer ∧
    (∀ x, ¬X x → s'.get? x = s.get? x) ∧ ∀ x, s.get? x ≠ none → s'.get? x ≠ none

theorem Grows.refl (h : Heap) : h.Grows E X h :=
  ⟨Nat.le_refl _, fun _ _ _ => rfl, fun s hs => ⟨s, hs, rfl, fun _ _ => rfl, fun _ hx => hx⟩⟩

theorem Grows.trans {h h' h'' : Heap} (hg : h.Grows E X h') (hg' : h'.Grows E X h'') :
    h.Grows E X h'' := by
  refine ⟨Nat.le_trans hg.size_le hg'.size_le, fun a ha hne => ?_, fun s hs => ?_⟩
  · rw [hg'.other a (Nat.lt_of_lt_of_le ha hg.size_le) hne, hg.other a ha hne]
  · obtain ⟨s', hs', ho, hx, hn⟩ := hg.here s hs
    obtain ⟨s'', hs'', ho', hx', hn'⟩ := hg'.here s' hs'
    exact ⟨s'', hs'', ho'.trans ho, fun x h => (hx' x h).trans (hx x h), fun x h => hn' x (hn x h)⟩

/-- Nothing that existed before has changed. -/
theorem Grows.of_unchanged {h h' : Heap} (hsize : h.size ≤ h'.size)
    (heq : ∀ a < h.size, h'.scope? a = h.scope? a) : h.Grows E X h' :=
  ⟨hsize, fun a ha _ => heq a ha, fun s hs =>
    ⟨s, (heq E (lt_size_of_scope? hs)).trans hs, rfl, fun _ _ => rfl, fun _ hx => hx⟩⟩

theorem grows_set {X : String → Prop} (h : Heap) (hx : X name) (v : Value) :
    h.Grows E X (h.set E name v) := by
  refine ⟨by simp, fun a _ hne => ?_, fun s hs => ⟨s.set name v, ?_, rfl, fun x hX => ?_, ?_⟩⟩
  · rw [scope?_set, if_neg hne.symm]
  · rw [scope?_set, if_pos rfl, hs, Option.map_some]
  · rw [Scope.get?_set, if_neg (fun hxn : x = name => hX (hxn ▸ hx))]
  · intro x hn
    rw [Scope.get?_set]
    split
    · exact Option.some_ne_none v
    · exact hn

theorem outer_of_mem_chainWithin {h : Heap} (hs : s ∈ h.chainWithin n a) :
    ∃ c, Relation.ReflTransGen h.Outer a c ∧ h.scope? c = some s := by
  induction n generalizing a with
  | zero => cases hs
  | succ n ih =>
    rw [chainWithin] at hs
    split at hs
    · cases hs
    · next t ht =>
      rcases List.mem_cons.mp hs with rfl | hs
      · exact ⟨a, .refl, ht⟩
      · cases ho : t.outer with
        | none => rw [ho] at hs; cases hs
        | some b =>
          rw [ho] at hs
          obtain ⟨c, hr, hc⟩ := ih hs
          exact ⟨c, .head ⟨t, ht, ho⟩ hr, hc⟩

/-- A name that is found is bound in a scope further out. -/
theorem mem_of_lookup {h : Heap} (hl : h.lookup a name = some v) :
    ∃ c s, Relation.ReflTransGen h.Outer a c ∧ h.scope? c = some s ∧ (name, v) ∈ s.bindings := by
  obtain ⟨s, hs, hv⟩ := List.exists_of_findSome?_eq_some hl
  obtain ⟨c, hr, hc⟩ := outer_of_mem_chainWithin hs
  refine ⟨c, s, hr, hc, ?_⟩
  obtain ⟨l, r, hb, -⟩ := List.lookup_eq_some_iff.mp hv
  rw [hb]
  exact List.mem_append_right _ List.mem_cons_self

/-! ## Steps of heaps after each operation -/

theorem mem_bindings_set {s : Scope} (hy : y ∈ (s.set name v).bindings) :
    y = (name, v) ∨ y ∈ s.bindings :=
  (List.mem_cons.mp hy).imp_right List.mem_of_mem_filter

/-- What is bound in a scope after `set` is the new binding, or was bound there before. -/
theorem scope?_set_elim {h : Heap} (hs : (h.set E name v).scope? a = some s) :
    ∃ s', h.scope? a = some s' ∧ s.outer = s'.outer ∧
      ∀ y ∈ s.bindings, y = (name, v) ∨ y ∈ s'.bindings := by
  rw [scope?_set] at hs
  split at hs
  · obtain ⟨s', hs', rfl⟩ := Option.map_eq_some_iff.mp hs
    exact ⟨s', hs', rfl, fun y hy => mem_bindings_set hy⟩
  · exact ⟨s, hs, rfl, fun y hy => .inr hy⟩

theorem scope?_enter_elim {h : Heap} (hs : (h.enter c args).scope? a = some s) :
    (a = h.size ∧ s.outer = some c.scope ∧ ∀ y ∈ s.bindings, y.2 ∈ args) ∨
      h.scope? a = some s := by
  by_cases ha : a = h.size
  · subst ha
    obtain ⟨s', hs', ho, hb⟩ := h.scope?_enter_self c args
    cases hs.symm.trans hs'
    refine .inl ⟨rfl, ho, fun y hy => ?_⟩
    obtain ⟨p, hp, rfl⟩ := hb y hy
    exact (List.of_mem_zip hp).2
  · exact .inr ((h.scope?_enter_of_ne c args ha).symm.trans hs)

theorem scope?_leave_elim {h : Heap} (hs : (h.leave policy E v).scope? a = some s) :
    ∃ s', h.scope? a = some s' ∧ s.outer = s'.outer ∧ ∀ y ∈ s.bindings, y ∈ s'.bindings := by
  by_cases ha : E = a
  · subst ha
    rcases h.scope?_leave_self policy E v with heq | heq
    · exact ⟨s, heq.symm.trans hs, rfl, fun y hy => hy⟩
    · obtain ⟨s', hs', rfl⟩ := Option.map_eq_some_iff.mp (heq.symm.trans hs)
      exact ⟨s', hs', rfl, fun y hy => absurd hy List.not_mem_nil⟩
  · exact ⟨s, (h.scope?_leave_of_ne policy v ha).symm.trans hs, rfl, fun y hy => hy⟩

theorem Leads.of_leave {h : Heap} (hl : (h.leave policy E v).Leads a b) : h.Leads a b := by
  obtain ⟨s, hs, hl⟩ := hl
  obtain ⟨s', hs', ho, hb⟩ := scope?_leave_elim hs
  exact ⟨s', hs', hl.imp (fun h => ho ▸ h) fun ⟨y, hy, hv⟩ => ⟨y, hb y hy, hv⟩⟩

/-! ## Closed heaps -/

theorem Closed.set {h : Heap} (hc : h.Closed) (hv : ∀ b, v.scope? = some b → b < h.size) :
    (h.set E name v).Closed := by
  rintro a b ⟨s, hs, hl⟩
  rw [size_set]
  obtain ⟨s', hs', ho, hb⟩ := scope?_set_elim hs
  rcases hl with hl | ⟨y, hy, hy'⟩
  · exact hc a b ⟨s', hs', .inl (ho ▸ hl)⟩
  · rcases hb y hy with rfl | hy
    · exact hv b hy'
    · exact hc a b ⟨s', hs', .inr ⟨y, hy, hy'⟩⟩

theorem Closed.enter {h : Heap} (hh : h.Closed) (hc : c.scope < h.size)
    (hargs : ∀ v ∈ args, ∀ b, v.scope? = some b → b < h.size) : (h.enter c args).Closed := by
  rintro a b ⟨s, hs, hl⟩
  rw [size_enter]
  apply Nat.lt_succ_of_lt
  rcases scope?_enter_elim hs with ⟨-, ho, hb⟩ | hs
  · rcases hl with hl | ⟨y, hy, hy'⟩
    · rw [ho] at hl
      cases hl
      exact hc
    · exact hargs _ (hb y hy) b hy'
  · exact hh a b ⟨s, hs, hl⟩

theorem Closed.leave {h : Heap} (hh : h.Closed) : (h.leave policy E v).Closed := by
  intro a b hl
  rw [size_leave]
  exact hh a b hl.of_leave

/-- A fresh scope without one around it leads nowhere. -/
theorem Closed.push {h : Heap} (hh : h.Closed) : (h.push {}).Closed := by
  rintro a b ⟨s, hs, hl⟩
  rw [size_push]
  rw [scope?_push] at hs
  split at hs
  · cases hs
    rcases hl with hl | ⟨y, hy, -⟩
    · cases hl
    · cases hy
  · exact Nat.lt_succ_of_lt (hh a b ⟨s, hs, hl⟩)

theorem closed_empty : Closed {} := fun _ _ ⟨_, hs, _⟩ => nomatch hs

theorem SealedBelow.set {h : Heap} (hh : h.SealedBelow b) (hv : v.isSignal = false) :
    (h.set E name v).SealedBelow b := by
  intro a s x w c hs hx hw
  obtain ⟨s', hs', -, hb⟩ := scope?_set_elim hs
  rcases hb _ hx with heq | hx
  · cases heq
    cases hv
  · exact hh a s' x w c hs' hx hw

theorem SealedBelow.enter {h : Heap} (hh : h.SealedBelow b)
    (hargs : ∀ v ∈ args, v.isSignal = false) : (h.enter c args).SealedBelow b := by
  intro a s x w d hs hx hw
  rcases scope?_enter_elim hs with ⟨-, -, hb⟩ | hs
  · cases hargs _ (hb _ hx)
  · exact hh a s x w d hs hx hw

theorem SealedBelow.leave {h : Heap} (hh : h.SealedBelow b) :
    (h.leave policy E v).SealedBelow b := by
  intro a s x w c hs hx hw
  obtain ⟨s', hs', -, hb⟩ := scope?_leave_elim hs
  exact hh a s' x w c hs' (hb _ hx) hw

theorem Closed.sealedBelow {h : Heap} (hh : h.Closed) : h.SealedBelow h.size :=
  fun a s _ _ c hs hx hv => hh a c ⟨s, hs, .inr ⟨_, hx, hv⟩⟩

end Heap

/-! ## The invariant -/

/-- What evaluation in the scope `E` keeps of heaps and values, if the code binds only names of `X`
there. -/
def frame (E : ScopeId) (X : String → Prop) (b : ScopeId) : Invariant E where
  Later := Heap.Grows E X
  heap h := E < h.size ∧ h.Closed ∧ h.SealedBelow b
  value h v := (∀ c, v.scope? = some c → c < h.size) ∧ v.SealedBelow b
  code c _ := ∀ x, c.Binds x → X x
  refl := Heap.Grows.refl
  trans := Heap.Grows.trans
  child h hc x hx := h x (hx.of_child hc)
  mono hg h := ⟨fun c hc => Nat.lt_of_lt_of_le (h.1 c hc) hg.size_le, h.2⟩
  data hv := ⟨fun c hc => (by rw [hv.scope?] at hc; cases hc), .of_isData hv⟩
  returned h hs := by
    refine ⟨h.1, ?_⟩
    rintro w c heq
    cases heq
    cases hs
  closure _ hh := by
    refine ⟨fun c hc => ?_, fun _ _ heq => by cases heq⟩
    cases hc
    exact hh.1
  lookup := by
    rintro h name v ⟨-, hc, hb⟩ hl
    obtain ⟨a, s, -, hs, hx⟩ := Heap.mem_of_lookup hl
    refine ⟨fun c hv => hc a c ⟨s, hs, .inr ⟨_, hx, hv⟩⟩, ?_⟩
    rintro w c rfl hw
    exact hb a s name _ c hs hx hw
  bind := by
    rintro t x e σ h v hX ⟨hE, hc, hb⟩ ⟨hv, -⟩ hs
    have hx : X x.name := hX _ ⟨t, x, e, .refl, rfl⟩
    exact ⟨h.grows_set hx v, by rwa [Heap.size_set], hc.set hv, hb.set hs⟩

theorem frame_landed {h : Heap} (hv : (frame E X b).value h v) : (frame E X b).value h v.landed :=
  ⟨fun c hc => hv.1 c (v.scope?_landed ▸ hc), hv.2.landed⟩

/-- The body of a function starts within its own frame. -/
theorem frame_enter {h : Heap} (hh : (frame E X b).heap h)
    (hc : (frame E X b).value h (.closure c))
    (hargs : ∀ v ∈ args, (frame E X b).value h v ∧ v.isSignal = false) :
    (frame h.size Y b).heap (h.enter c args) := by
  refine ⟨by rw [Heap.size_enter]; exact Nat.lt_succ_self _, ?_, ?_⟩
  · exact hh.2.1.enter (hc.1 _ rfl) fun v hv => (hargs v hv).1.1
  · exact hh.2.2.enter fun v hv => (hargs v hv).2

/-- A call changes no scope that existed before it. -/
theorem callWithin_frame (policy : Release) (n : Nat) {s t : Store}
    (hh : (frame E X b).heap s.heap) (hc : (frame E X b).value s.heap (.closure c))
    (hargs : ∀ v ∈ args, (frame E X b).value s.heap v ∧ v.isSignal = false)
    (ht : Closure.callWithin policy n c args s = some (v, t)) :
    s.heap.size ≤ t.heap.size ∧ (∀ a < s.heap.size, t.heap.scope? a = s.heap.scope? a) ∧
      (frame E X b).heap t.heap ∧ (frame E X b).value t.heap v := by
  induction n generalizing E X c args s t v with
  | zero => cases ht
  | succ n ih =>
    obtain ⟨u, f, -, hu, hf, heq⟩ := Closure.callWithin_succ policy n c args s
    rw [heq] at ht
    obtain ⟨⟨w, u'⟩, hw, hr⟩ := Option.map_eq_some_iff.mp ht
    cases hr
    let I := frame s.heap.size (fun _ => True) b
    have hcalls : I.Calls (Closure.callWithin policy n) := by
      intro c args s hh hc hargs _ v t ht
      obtain ⟨hsize, hold, hres⟩ := ih hh hc hargs ht
      exact ⟨.of_unchanged hsize hold, hres⟩
    have hbody : I.Keeps u I.value
        ((Code.block c.body).eval (Closure.callWithin policy n) ⟨s.heap.size, c.site⟩) :=
      Invariant.keeps (Closure.logFree_callWithin policy n) hcalls (hu ▸ frame_enter hh hc hargs)
        (fun _ _ => trivial) fun _ _ => frame_landed
    obtain ⟨hg, ⟨-, hcl, hse⟩, hv⟩ := hbody w u' hw
    rw [hu] at hg
    have hle : s.heap.size ≤ u'.heap.size :=
      Nat.le_trans (by rw [Heap.size_enter]; exact Nat.le_succ _) hg.size_le
    dsimp only
    rw [hf, Heap.size_leave]
    refine ⟨hle, fun a ha => ?_, ⟨?_, hcl.leave, hse.leave⟩, ?_⟩
    · have hne : a ≠ s.heap.size := Nat.ne_of_lt ha
      rw [Heap.scope?_leave_of_ne _ _ _ hne.symm,
        hg.other a (by rw [Heap.size_enter]; exact Nat.lt_succ_of_lt ha) hne,
        Heap.scope?_enter_of_ne _ _ _ hne]
    · rw [Heap.size_leave]
      exact Nat.lt_of_lt_of_le hh.1 hle
    · have := frame_landed hv
      exact ⟨fun c hc => by rw [Heap.size_leave]; exact this.1 c hc, this.2⟩

theorem frame_calls (policy : Release) (n : Nat) :
    (frame E X b).Calls (Closure.callWithin policy n) := by
  intro c args s hh hc hargs _ v t ht
  obtain ⟨hsize, hold, hres⟩ := callWithin_frame policy n hh hc hargs ht
  exact ⟨.of_unchanged hsize hold, hres⟩

end MonkeyLang
