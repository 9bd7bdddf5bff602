import Mathlib.Order.Basic
import MonkeyLang.Proofs.Eval.Release
import MonkeyLang.Proofs.Eval.StaticScope

/-!
# A binding that nothing mentions

Code runs alike with and without a binding whose name occurs neither in it nor in a function that the
current scope leads to (`eval_set_of_not_mem_names`). The two heaps differ in the one scope by this
binding (`Heap.Extended`), and the live scopes bind no function with the name (`Heap.Spares`).

The binding may itself hold a function and so lead further than the heap without it. It does not lead to
the scope of a call any sooner: what is older than the run leads to such a scope by way of the scope of
the binding only, for all others were closed when the run began (`Heap.Extended.path`).
-/

namespace MonkeyLang

/-! ## The names in code -/

mutual

/-- The names that occur in an expression, also in function literals. -/
def Expr.names : Expr → List String
  | .ident x => [x.name]
  | .int .. | .bool .. => []
  | .unary _ _ e => e.names
  | .binary _ l _ r => l.names ++ r.names
  | .cond _ c b none => c.names ++ b.names
  | .cond _ c b (some a) => c.names ++ (b.names ++ a.names)
  | .function _ xs b => xs.map (·.name) ++ b.names
  | .call _ f es => f.names ++ Expr.namesEach es

def Expr.namesEach : List Expr → List String
  | [] => []
  | e :: es => e.names ++ Expr.namesEach es

def Stmt.names : Stmt → List String
  | .letStmt _ x e => x.name :: e.names
  | .returnStmt _ e | .expr _ e => e.names
  | .block b => b.names

def Block.names : Block → List String
  | ⟨_, ss⟩ => Stmt.namesAll ss

def Stmt.namesAll : List Stmt → List String
  | [] => []
  | s :: ss => s.names ++ Stmt.namesAll ss

end

def Code.names : Code → List String
  | .expr e => e.names
  | .stmt s => s.names
  | .block b => b.names
  | .program p => Stmt.namesAll p.statements

/-- The names of the parameters and those in the body. -/
def Closure.names (c : Closure) : List String := c.parameters.map (·.name) ++ c.body.names

theorem Expr.names_subset {i : Nat} (he : es[i]? = some e) : e.names ⊆ Expr.namesEach es := by
  induction es generalizing i with
  | nil => cases he
  | cons e' es ih =>
    cases i with
    | zero =>
      cases he
      exact List.subset_append_left ..
    | succ i => exact List.subset_append_of_subset_right _ (ih he)

theorem Stmt.names_subset {i : Nat} (hs : ss[i]? = some s) : s.names ⊆ Stmt.namesAll ss := by
  induction ss generalizing i with
  | nil => cases hs
  | cons s' ss ih =>
    cases i with
    | zero =>
      cases hs
      exact List.subset_append_left ..
    | succ i => exact List.subset_append_of_subset_right _ (ih hs)

theorem Code.Child.names_subset {c d : Code} (hc : c.Child i d) : d.names ⊆ c.names := by
  cases hc with
  | unary | returnValue | exprValue | blockBody => exact List.Subset.refl _
  | left | callee => exact List.subset_append_left ..
  | right => exact List.subset_append_right ..
  | @condition _ _ _ alt =>
    cases alt <;> exact List.subset_append_left ..
  | @consequence _ _ _ alt =>
    cases alt with
    | none => exact List.subset_append_right ..
    | some a => exact List.subset_append_of_subset_right _ (List.subset_append_left ..)
  | alternative => exact List.subset_append_of_subset_right _ (List.subset_append_right ..)
  | argument he => exact List.subset_append_of_subset_right _ (Expr.names_subset he)
  | letValue => exact List.subset_cons_self ..
  | statement hs | programStatement hs => exact Stmt.names_subset hs

/-! ## The scope with the binding -/

/-- The scope `s₂` binds `z` to `v` and is the same as `s₁` otherwise. -/
structure Scope.Extends (z : String) (v : Value) (s₁ s₂ : Scope) : Prop where
  outer : s₂.outer = s₁.outer
  bindings : s₂.bindings.filter (·.1 != z) = s₁.bindings
  eq_value : ∀ u, (z, u) ∈ s₂.bindings → u = v
  get?_self : s₂.get? z = some v

namespace Scope.Extends

variable {z : String} {v : Value} {s₁ s₂ : Scope}

theorem of_set {s : Scope} (hz : s.get? z = none) (v : Value) : s.Extends z v (s.set z v) := by
  have hne : ∀ y ∈ s.bindings, (y.1 != z) = true := fun y hy => by
    have := List.lookup_eq_none_iff.mp hz y hy
    rwa [bne_comm]
  have hfilter : s.bindings.filter (·.1 != z) = s.bindings := List.filter_eq_self.mpr hne
  refine ⟨rfl, ?_, fun u hu => ?_, ?_⟩
  · simp [Scope.set, hfilter]
  · rcases List.mem_cons.mp hu with heq | hu
    · cases heq
      rfl
    · exact absurd (List.mem_filter.mp hu).2 (by simp)
  · rw [Scope.get?_set, if_pos rfl]

theorem get?_of_ne (h : s₁.Extends z v s₂) (hx : x ≠ z) : s₂.get? x = s₁.get? x := by
  rw [Scope.get?, Scope.get?, ← h.bindings, Scope.lookup_filter_ne hx]

theorem get?_eq_none (h : s₁.Extends z v s₂) : s₁.get? z = none := by
  rw [Scope.get?, ← h.bindings, List.lookup_eq_none_iff]
  intro y hy
  have := (List.mem_filter.mp hy).2
  rwa [bne_comm] at this

theorem mem (h : s₁.Extends z v s₂) (hy : y ∈ s₂.bindings) : y = (z, v) ∨ y ∈ s₁.bindings := by
  obtain ⟨x, u⟩ := y
  by_cases hx : x = z
  · subst hx
    exact .inl (by rw [h.eq_value u hy])
  · exact .inr (h.bindings ▸ List.mem_filter.mpr ⟨hy, by simpa using hx⟩)

theorem set (h : s₁.Extends z v s₂) (hx : x ≠ z) (w : Value) :
    (s₁.set x w).Extends z v (s₂.set x w) := by
  refine ⟨h.outer, ?_, fun u hu => ?_, ?_⟩
  · simp only [Scope.set, List.filter_cons, bne_iff_ne.mpr hx, ↓reduceIte, ← h.bindings,
      List.filter_filter, Bool.and_comm]
  · rcases Heap.mem_bindings_set hu with heq | hu
    · cases heq
      exact absurd rfl hx
    · exact h.eq_value u hu
  · rw [Scope.get?_set, if_neg hx.symm, h.get?_self]

end Scope.Extends

/-! ## The heap with the binding -/

namespace Heap

/-- The heap `h₂` has the binding of `z` to `v` in the scope `H` besides all that `h₁` has. Scopes
before `b` lead to such scopes only, but for `H`. -/
structure Extended (z : String) (v : Value) (H b : ScopeId) (h₁ h₂ : Heap) : Prop where
  size : h₂.size = h₁.size
  other : ∀ a, a ≠ H → h₂.scope? a = h₁.scope? a
  here : ∃ s₁ s₂, h₁.scope? H = some s₁ ∧ h₂.scope? H = some s₂ ∧ s₁.Extends z v s₂
  old : ∀ a < b, a ≠ H → ∀ c ∈ h₁.next a, c < b
  value : ∀ c, scopeOf? v = some c → c < b

variable {z : String} {v : Value} {H b : ScopeId} {h₁ h₂ : Heap}

namespace Extended

/-- A step with the binding is one without it, or that of the binding. -/
theorem next (D : Extended z v H b h₁ h₂) (hc : c ∈ h₂.next a) :
    c ∈ h₁.next a ∨ a = H ∧ c < b := by
  by_cases ha : a = H
  · subst ha
    obtain ⟨s₁, s₂, hs₁, hs₂, hext⟩ := D.here
    obtain ⟨s, hs, hc⟩ := mem_next.mp hc
    cases hs₂.symm.trans hs
    rcases hc with ho | ⟨y, hy, hu⟩
    · exact .inl (mem_next.mpr ⟨s₁, hs₁, .inl (hext.outer ▸ ho)⟩)
    · rcases hext.mem hy with rfl | hy
      · exact .inr ⟨rfl, D.value c hu⟩
      · exact .inl (mem_next.mpr ⟨s₁, hs₁, .inr ⟨y, hy, hu⟩⟩)
  · exact .inl (next_congr (D.other a ha) ▸ hc)

theorem next_of_next (D : Extended z v H b h₁ h₂) (hc : c ∈ h₁.next a) : c ∈ h₂.next a := by
  by_cases ha : a = H
  · subst ha
    obtain ⟨s₁, s₂, hs₁, hs₂, hext⟩ := D.here
    obtain ⟨s, hs, hc⟩ := mem_next.mp hc
    cases hs₁.symm.trans hs
    refine mem_next.mpr ⟨s₂, hs₂, hc.imp (fun ho => hext.outer.trans ho) ?_⟩
    rintro ⟨y, hy, hu⟩
    rw [← hext.bindings] at hy
    exact ⟨y, List.mem_of_mem_filter hy, hu⟩
  · exact next_congr (D.other a ha) ▸ hc

/-- What is older than the run leads to a younger scope by way of `H` only. -/
theorem path_of_old (D : Extended z v H b h₁ h₂) (hc : c < b) (hS : b ≤ S) (hp : h₁.Path c S) :
    h₁.Path H S := by
  induction hp using Relation.ReflTransGen.head_induction_on with
  | refl => exact absurd hc (Nat.not_lt.mpr hS)
  | @head c d hd hp ih =>
    by_cases hcH : c = H
    · exact hcH ▸ .head hd hp
    · exact ih (D.old c hc hcH d hd)

/-- The binding leads to no younger scope that its scope does not lead to without it. -/
theorem path (D : Extended z v H b h₁ h₂) (hS : b ≤ S) : h₂.Path a S ↔ h₁.Path a S := by
  constructor
  · intro hp
    -- from the end, so that the path behind a step of the binding is already one without it
    induction hp using Relation.ReflTransGen.head_induction_on with
    | refl => exact .refl
    | head hc _ ih =>
      rcases D.next hc with hc | ⟨rfl, hlt⟩
      · exact .head hc ih
      · exact D.path_of_old hlt hS ih
  · intro hp
    exact hp.lift (fun c => c) fun _ _ hc => D.next_of_next hc

theorem reaches (D : Extended z v H b h₁ h₂) (hS : b ≤ S) (w : Value) :
    h₂.reaches w S = h₁.reaches w S := by
  rw [Bool.eq_iff_iff, reaches_iff, reaches_iff]
  exact exists_congr fun a => and_congr_right fun _ => D.path hS

/-- Each scope is around the same one and binds every name but `z` to the same value. -/
theorem scope (D : Extended z v H b h₁ h₂) (hx : x ≠ z) (a : ScopeId) :
    Option.Rel (fun s₂ s₁ : Scope => s₂.outer = s₁.outer ∧ s₂.get? x = s₁.get? x)
      (h₂.scope? a) (h₁.scope? a) := by
  by_cases ha : a = H
  · subst ha
    obtain ⟨s₁, s₂, hs₁, hs₂, hext⟩ := D.here
    rw [hs₁, hs₂]
    exact .some ⟨hext.outer, hext.get?_of_ne hx⟩
  · rw [D.other a ha]
    cases h₁.scope? a with
    | none => exact .none
    | some s => exact .some ⟨rfl, rfl⟩

theorem findSome?_chainWithin (D : Extended z v H b h₁ h₂) (hx : x ≠ z) (n : Nat) (a : ScopeId) :
    (h₂.chainWithin n a).findSome? (·.get? x) = (h₁.chainWithin n a).findSome? (·.get? x) := by
  induction n generalizing a with
  | zero => rfl
  | succ n ih =>
    have hscope := D.scope hx a
    rw [chainWithin, chainWithin]
    generalize h₂.scope? a = p, h₁.scope? a = q at hscope
    cases hscope with
    | none => rfl
    | @some s₂ s₁ hs =>
      dsimp only
      rw [List.findSome?_cons, List.findSome?_cons, hs.1, hs.2]
      cases s₁.outer with
      | none => rfl
      | some o => rw [Option.elim_some, Option.elim_some, ih o]

theorem lookup (D : Extended z v H b h₁ h₂) (hx : x ≠ z) : h₂.lookup a x = h₁.lookup a x :=
  D.findSome?_chainWithin hx ..

theorem lt_size (D : Extended z v H b h₁ h₂) : H < h₁.size := by
  obtain ⟨s₁, s₂, hs₁, -⟩ := D.here
  exact lt_size_of_scope? hs₁

theorem set (D : Extended z v H b h₁ h₂) (hE : E = H ∨ b ≤ E) (hx : x ≠ z) (w : Value) :
    Extended z v H b (h₁.set E x w) (h₂.set E x w) := by
  refine ⟨by rw [size_set, size_set, D.size], fun a ha => ?_, ?_, fun a ha haH => ?_, D.value⟩
  · rw [scope?_set, scope?_set, D.other a ha]
  · obtain ⟨s₁, s₂, hs₁, hs₂, hext⟩ := D.here
    rw [scope?_set, scope?_set, hs₁, hs₂]
    split
    · exact ⟨_, _, rfl, rfl, hext.set hx w⟩
    · exact ⟨_, _, rfl, rfl, hext⟩
  · have hne : E ≠ a := by
      rintro rfl
      exact hE.elim haH fun hle => absurd ha (Nat.not_lt.mpr hle)
    rw [next_congr (h := h₁) (by rw [scope?_set, if_neg hne])]
    exact D.old a ha haH

theorem enter (D : Extended z v H b h₁ h₂) (hb : b ≤ h₁.size) (c : Closure) (args : List Value) :
    Extended z v H b (h₁.enter c args) (h₂.enter c args) := by
  refine ⟨by rw [size_enter, size_enter, D.size], fun a ha => ?_, ?_, fun a ha haH => ?_, D.value⟩
  · unfold Heap.enter
    rw [D.size]
    apply bindAll_scope?_congr
    rw [scope?_push, scope?_push, D.size, D.other a ha]
  · have hH := Nat.ne_of_lt D.lt_size
    rw [scope?_enter_of_ne _ _ _ hH, scope?_enter_of_ne _ _ _ (D.size ▸ hH)]
    exact D.here
  · have hne := Nat.ne_of_lt (Nat.lt_of_lt_of_le ha hb)
    rw [next_congr (h := h₁) (scope?_enter_of_ne _ _ _ hne)]
    exact D.old a ha haH

/-- Both heaps keep the scope of a call or both drop its bindings. -/
theorem leave (D : Extended z v H b h₁ h₂) (hH : H < b) (hS : b ≤ S) (policy : Release)
    (w : Value) : Extended z v H b (h₁.leave policy S w) (h₂.leave policy S w) := by
  have hne : H ≠ S := Nat.ne_of_lt (Nat.lt_of_lt_of_le hH hS)
  refine ⟨by rw [size_leave, size_leave, D.size], fun a ha => ?_, ?_, fun a ha haH => ?_, D.value⟩
  · unfold Heap.leave
    rw [bindingCount_congr (D.other S hne.symm), D.reaches hS]
    split
    · rw [scope?_clear, scope?_clear, D.other a ha]
    · exact D.other a ha
  · rw [scope?_leave_of_ne _ _ _ hne.symm, scope?_leave_of_ne _ _ _ hne.symm]
    exact D.here
  · rw [next_congr (scope?_leave_of_ne _ _ _ (Nat.ne_of_gt (Nat.lt_of_lt_of_le ha hS)))]
    exact D.old a ha haH

end Extended

end Heap

/-! ## The live scopes -/

/-- A function in the value was made in a live scope and does not mention `z`. -/
def Value.Spares (z : String) (live : ScopeId → Prop) (v : Value) : Prop :=
  ∀ c, v.closure? = some c → live c.scope ∧ z ∉ c.names

theorem Value.Spares.mono {v : Value} (h : v.Spares z live) (hlive : ∀ a, live a → live' a) :
    v.Spares z live' := fun c hc => (h c hc).imp_left (hlive _)

theorem Value.Spares.landed {v : Value} (h : v.Spares z live) : v.landed.Spares z live :=
  fun c hc => h c (v.closure?_landed ▸ hc)

namespace Heap

/-- No step leaves the live scopes, and no function that is bound there mentions `z`. -/
structure Spares (z : String) (live : ScopeId → Prop) (h : Heap) : Prop where
  outer : ∀ a s o, live a → h.scope? a = some s → s.outer = some o → live o
  value : ∀ a s y, live a → h.scope? a = some s → y ∈ s.bindings → y.2.Spares z live

namespace Spares

variable {z : String} {live : ScopeId → Prop} {h : Heap}

theorem lookup (hh : h.Spares z live) (ha : live a) (hl : h.lookup a x = some v) :
    v.Spares z live := by
  obtain ⟨c, s, hr, hs, hx⟩ := mem_of_lookup hl
  have hc : live c := by
    clear hs
    induction hr with
    | refl => exact ha
    | tail _ ho ih =>
      obtain ⟨s', hs', ho⟩ := ho
      exact hh.outer _ s' _ ih hs' ho
  exact hh.value c s _ hc hs hx

theorem set (hh : h.Spares z live) (hv : v.Spares z live) : (h.set E x v).Spares z live := by
  refine ⟨fun a s o ha hs ho => ?_, fun a s y ha hs hy => ?_⟩ <;>
    obtain ⟨s', hs', ho', hb⟩ := scope?_set_elim hs
  · exact hh.outer a s' o ha hs' (ho' ▸ ho)
  · rcases hb y hy with rfl | hy
    · exact hv
    · exact hh.value a s' y ha hs' hy

theorem enter (hh : h.Spares z live) (hc : live c.scope) (hargs : ∀ v ∈ args, v.Spares z live) :
    (h.enter c args).Spares z fun a => live a ∨ a = h.size := by
  have hold : ∀ {a s}, (live a ∨ a = h.size) → h.scope? a = some s → live a := fun ha hs =>
    ha.resolve_right fun heq => Nat.lt_irrefl _ (heq ▸ lt_size_of_scope? hs)
  refine ⟨fun a s o ha hs ho => .inl ?_, fun a s y ha hs hy => ?_⟩
  · rcases scope?_enter_elim hs with ⟨-, ho', -⟩ | hs
    · cases ho'.symm.trans ho
      exact hc
    · exact hh.outer a s o (hold ha hs) hs ho
  · refine Value.Spares.mono ?_ fun _ => .inl
    rcases scope?_enter_elim hs with ⟨-, -, hb⟩ | hs
    · exact hargs _ (hb y hy)
    · exact hh.value a s y (hold ha hs) hs hy

theorem leave (hh : h.Spares z live) : (h.leave policy S v).Spares z live := by
  refine ⟨fun a s o ha hs ho => ?_, fun a s y ha hs hy => ?_⟩ <;>
    obtain ⟨s', hs', ho', hb⟩ := scope?_leave_elim hs
  · exact hh.outer a s' o ha hs' (ho' ▸ ho)
  · exact hh.value a s' y ha hs' (hb y hy)

end Spares

end Heap

/-! ## The two runs -/

/-- The runs in step, in the scope `E`: that of the binding, or one made since. -/
def spared (z : String) (v : Value) (H b E : ScopeId) : Simulation E E where
  World := ScopeId → Prop
  Later live live' := live ≤ live'
  heaps live h₁ h₂ := h₁.Extended z v H b h₂ ∧ h₁.Spares z live ∧ b ≤ h₁.size ∧ live E
  values live v₁ v₂ := v₁ = v₂ ∧ v₁.Spares z live
  code c σ₁ σ₂ := σ₁ = σ₂ ∧ (E = H ∨ b ≤ E) ∧ z ∉ c.names
  refl := le_refl
  trans := le_trans
  child h hc := ⟨h.1 ▸ rfl, h.2.1, fun hz => h.2.2 (hc.names_subset hz)⟩
  mono hw hv := ⟨hv.1, hv.2.mono hw⟩
  alike hv := hv.1 ▸ .rfl
  data hv := ⟨rfl, fun c hc => by rw [hv.closure?] at hc; cases hc⟩
  returned hv _ := ⟨hv.1 ▸ rfl, hv.2⟩
  closure := by
    rintro t xs e σ _ live h₁ h₂ ⟨rfl, -, hz⟩ ⟨-, -, -, hE⟩
    refine ⟨rfl, fun c hc => ?_⟩
    cases hc
    exact ⟨hE, hz⟩
  lookup := by
    rintro x σ _ live h₁ h₂ ⟨rfl, -, hz⟩ ⟨D, hh, -, hE⟩
    have hx : x.name ≠ z := fun heq => hz (heq ▸ List.mem_cons_self)
    rw [D.lookup hx]
    cases hl : h₁.lookup E x.name with
    | none => exact .none
    | some w => exact .some ⟨rfl, hh.lookup hE hl⟩
  bind := by
    rintro t x e σ _ live h₁ h₂ w _ ⟨rfl, hEH, hz⟩ ⟨D, hh, hb, hE⟩ ⟨rfl, hw⟩ -
    have hx : x.name ≠ z := fun heq => hz (heq ▸ List.mem_cons_self)
    exact ⟨live, le_refl live, D.set hEH hx w, hh.set hw, by rwa [Heap.size_set], hE⟩

theorem spared_landed (live : (spared z v H b E).World) (v₁ v₂ : Value)
    (hv : (spared z v H b E).values live v₁ v₂) :
    (spared z v H b E).values live v₁.landed v₂.landed :=
  ⟨hv.1 ▸ rfl, hv.2.landed⟩

theorem spared_calls (hH : H < b) (policy : Release) (n : Nat) : (spared z v H b E).Calls
    (Closure.callWithin policy n) (Closure.callWithin policy n) := by
  induction n generalizing E with
  | zero => exact fun _ _ _ _ _ _ _ _ _ _ _ _ => .none
  | succ n ih =>
    rintro live c _ as bs ⟨heq, hc⟩ has - - s t ⟨D, hh, hb, hE⟩
    cases heq
    obtain ⟨rfl, hargs⟩ := eq_of_forall₂ has
    obtain ⟨hscope, hz⟩ := hc c rfl
    obtain ⟨s', f, -, hs', hf, hrun⟩ := Closure.callWithin_succ policy n c as s
    obtain ⟨t', g, -, ht', hg, hrun'⟩ := Closure.callWithin_succ policy n c as t
    rw [hrun, hrun', D.size]
    -- the body runs in a scope made since, in which the binding is not
    have hstart : (spared z v H b s.heap.size).heaps (fun a => live a ∨ a = s.heap.size)
        s'.heap t'.heap := by
      rw [hs', ht']
      refine ⟨D.enter hb c as, hh.enter hscope hargs, ?_, .inr rfl⟩
      rw [Heap.size_enter]
      exact Nat.le_succ_of_le hb
    have hcode : (spared z v H b s.heap.size).code (.block c.body) c.site c.site :=
      ⟨rfl, .inr hb, fun hm => hz (List.mem_append_right _ hm)⟩
    refine rel_map (Simulation.runs ih spared_landed hcode _ s' t' hstart) ?_
    rintro ⟨w, u⟩ ⟨_, u'⟩ ⟨live', hlive, ⟨D', hh', hb', -⟩, rfl, hw⟩
    refine ⟨live', fun a ha => hlive a (.inl ha), ⟨?_, ?_, ?_, hlive E (.inl hE)⟩, rfl, hw.landed⟩
    · rw [hf, hg, D.size]
      exact D'.leave hH hb policy w.landed
    · rw [hf]
      exact hh'.leave
    · rw [hf, Heap.size_leave]
      exact hb'

theorem Value.scope?_of_closure? {v : Value} (h : v.closure? = some c) :
    v.scope? = some c.scope := by
  induction v with
  | closure =>
    cases h
    rfl
  | returned v ih => exact ih h
  | _ => cases h

/-- The scope `E` leads to a scope that binds the function, be it inside a `return`. -/
def Heap.Holds (h : Heap) (E : ScopeId) (f : Closure) : Prop :=
  ∃ a s y, h.Reach E a ∧ h.scope? a = some s ∧ y ∈ s.bindings ∧ y.2.closure? = some f

theorem Heap.spares_of_holds {h : Heap} (hz : ∀ f, h.Holds E f → z ∉ f.names) :
    h.Spares z (h.Reach E) := by
  refine ⟨fun a s o ha hs ho => ha.tail ⟨s, hs, .inl ho⟩, fun a s y ha hs hy f hf => ⟨?_, ?_⟩⟩
  · exact ha.tail ⟨s, hs, .inr ⟨y, hy, Value.scope?_of_closure? hf⟩⟩
  · exact hz f ⟨a, s, y, ha, hs, hy, hf⟩

/-- A binding that nothing mentions makes no difference. If a name is not bound in the current scope and
occurs neither in the code nor in any function that the scope leads to, then code that ends also ends,
with the same value, where the name is bound to any value. After it the heaps are the same, apart from
this binding. -/
theorem eval_set_of_not_mem_names {c : Code} {s s₁ : Store} {z : String} {v : Value}
    (hclosed : s.heap.Closed) (hscope : here.scope < s.heap.size)
    (hv : ∀ a, v.scope? = some a → a < s.heap.size)
    (hunbound : ∀ sc, s.heap.scope? here.scope = some sc → sc.get? z = none)
    (hc : z ∉ c.names) (hheld : ∀ f, s.heap.Holds here.scope f → z ∉ f.names)
    (h : c.eval (Closure.callWithin .whenUnreachable n) here s = some (w, s₁)) :
    ∃ s₂, c.eval (Closure.callWithin .whenUnreachable n) here
        { s with heap := s.heap.set here.scope z v } = some (w, s₂) ∧
      s₂.heap.size = s₁.heap.size ∧
      (∀ a, a ≠ here.scope → s₂.heap.scope? a = s₁.heap.scope? a) ∧
      ∃ sc₁ sc₂, s₁.heap.scope? here.scope = some sc₁ ∧ s₂.heap.scope? here.scope = some sc₂ ∧
        sc₂.outer = sc₁.outer ∧ sc₁.get? z = none ∧ sc₂.get? z = some v ∧
        ∀ x, x ≠ z → sc₂.get? x = sc₁.get? x := by
  obtain ⟨sc, hsc⟩ : ∃ sc, s.heap.scope? here.scope = some sc :=
    ⟨_, Array.getElem?_eq_getElem hscope⟩
  have hextended : s.heap.Extended z v here.scope s.heap.size (s.heap.set here.scope z v) := by
    refine ⟨Heap.size_set .., fun a ha => ?_, ?_, fun a _ _ b hb => ?_, fun a ha => ?_⟩
    · rw [Heap.scope?_set, if_neg ha.symm]
    · refine ⟨sc, sc.set z v, hsc, ?_, .of_set (hunbound sc hsc) v⟩
      rw [Heap.scope?_set, if_pos rfl, hsc, Option.map_some]
    · exact hclosed a b (.of_mem_next hb)
    · exact hv a (Value.scope?_of_scopeOf? ha)
  have hstart : (spared z v here.scope s.heap.size here.scope).heaps (s.heap.Reach here.scope)
      s.heap (s.heap.set here.scope z v) :=
    ⟨hextended, Heap.spares_of_holds hheld, Nat.le_refl _, .refl⟩
  have hcode : (spared z v here.scope s.heap.size here.scope).code c here.site here.site :=
    ⟨rfl, .inl rfl, hc⟩
  have hrun := Simulation.runs (spared_calls hscope .whenUnreachable n) spared_landed hcode _ s
    { s with heap := s.heap.set here.scope z v } hstart
  rw [show (⟨here.scope, here.site⟩ : Place) = here from rfl, h] at hrun
  generalize c.eval _ here { s with heap := s.heap.set here.scope z v } = q at hrun
  cases hrun with
  | @some _ r hr =>
    obtain ⟨_, s₂⟩ := r
    obtain ⟨live, -, ⟨D, -⟩, rfl, -⟩ := hr
    obtain ⟨sc₁, sc₂, hsc₁, hsc₂, hext⟩ := D.here
    exact ⟨s₂, rfl, D.size, D.other, sc₁, sc₂, hsc₁, hsc₂, hext.outer, hext.get?_eq_none,
      hext.get?_self, fun x hx => hext.get?_of_ne hx⟩

/-- A heap of one scope, which binds `f` to a function. -/
def holdingIdentity : Store := ⟨(Heap.push {} {}).set 0 "f" (.closure Moment.identity), {}⟩

/-- A call of the function, in a scope that binds `z` to a function as well. -/
theorem eval_set_of_not_mem_names_identity :
    let c : Code := .program (parse "let a = f(7); f(a)").1
    let call := Closure.callWithin .whenUnreachable 1
    ∃ w s₁ s₂, c.eval call ⟨0, ⟨1, []⟩⟩ holdingIdentity = some (w, s₁) ∧
      w.same (.int 7) = true ∧
      c.eval call ⟨0, ⟨1, []⟩⟩ { holdingIdentity with
        heap := holdingIdentity.heap.set 0 "z" (.closure Moment.identity) } = some (w, s₂) ∧
      ∀ a, a ≠ 0 → s₂.heap.scope? a = s₁.heap.scope? a := by
  intro c call
  have hrun : (c.eval call ⟨0, ⟨1, []⟩⟩ holdingIdentity).any (·.1.same (.int 7)) = true := by
    decide +kernel
  obtain ⟨⟨w, s₁⟩, h, hw⟩ := (Option.any_eq_true ..).mp hrun
  have hscope : holdingIdentity.heap.scope? 0 =
    some ⟨none, [("f", .closure Moment.identity)]⟩ := rfl
  have hclosed : holdingIdentity.heap.Closed :=
    (Heap.closed_empty.push).set fun b hb => by cases hb; decide
  have hunbound : ∀ sc, holdingIdentity.heap.scope? 0 = some sc → sc.get? "z" = none := by
    intro sc hsc
    cases hscope.symm.trans hsc
    rfl
  have hheld : ∀ f, holdingIdentity.heap.Holds 0 f → "z" ∉ f.names := by
    rintro f ⟨a, sc, y, -, hsc, hy, hf⟩
    obtain rfl : a = 0 := Nat.lt_one_iff.mp (Heap.lt_size_of_scope? hsc)
    cases hscope.symm.trans hsc
    obtain rfl := List.mem_singleton.mp hy
    cases hf
    decide
  obtain ⟨s₂, h₂, -, hother, -⟩ := eval_set_of_not_mem_names (z := "z")
    (v := .closure Moment.identity) hclosed (by decide) (fun a ha => by cases ha; decide) hunbound
    (by decide +kernel) hheld h
  exact ⟨w, s₁, s₂, h, hw, h₂, hother⟩

end MonkeyLang
