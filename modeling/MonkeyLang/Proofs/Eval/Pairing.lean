import MonkeyLang.Proofs.Eval.Invariant
import MonkeyLang.Proofs.Heap.Reachability

/-!
# Two runs on heaps of different shape

Two runs of one piece of code make their new scopes in one order, so these correspond by their number.
A `Pairing` says how the scopes from before correspond, and `Heap.Paired` that two heaps agree along
it. The second run may go on one level deeper: where a chain of scopes ends in the first, it may lead
to a scope that binds nothing in the second, which no lookup and no search tells apart from the end
(`Heap.Paired.lookup`, `Heap.Paired.reaches`).

`paired_calls` is the run: calls keep two heaps paired, their releases included.
-/

namespace MonkeyLang

/-- How the scopes of two runs correspond. -/
structure Pairing where
  /-- The first scope that the first run makes. -/
  base₁ : ScopeId
  /-- The first scope that the second run makes. -/
  base₂ : ScopeId
  /-- Scopes from before that correspond. -/
  old : ScopeId → ScopeId → Prop
  /-- Scopes of the second run that stand for the end of a chain in the first. -/
  ground : ScopeId → Prop
  /-- Sites of one piece of code in the two runs. -/
  sites : Site → Site → Prop
  old_lt : old a b → a < base₁ ∧ b < base₂
  old_unique : old a b → old c d → (a = c ↔ b = d)
  ground_lt : ground g → g < base₂
  ground_apart : ground g → ¬old a g
  sites_child : sites σ τ → sites (σ.child i) (τ.child i)

namespace Pairing

/-- The scopes that correspond when both runs have made `w`. -/
def rel (P : Pairing) (w : Nat) (a b : ScopeId) : Prop :=
  P.old a b ∨ ∃ k < w, a = P.base₁ + k ∧ b = P.base₂ + k

/-- What is around two scopes `a` and `b`: nothing, scopes that correspond, or a scope that stands for
nothing. Outer scopes are older. -/
inductive Around (P : Pairing) (w : Nat) (a b : ScopeId) : Option ScopeId → Option ScopeId → Prop
  | top : Around P w a b none none
  | within : P.rel w c d → c < a → d < b → Around P w a b (some c) (some d)
  | ground : P.ground g → g < b → Around P w a b none (some g)

variable {P : Pairing} {w : Nat} {a b c d : ScopeId}

theorem rel_mono (h : P.rel w a b) (hw : w ≤ w') : P.rel w' a b :=
  h.imp_right fun ⟨k, hk, h⟩ => ⟨k, Nat.lt_of_lt_of_le hk hw, h⟩

theorem rel_new (hk : k < w) : P.rel w (P.base₁ + k) (P.base₂ + k) := .inr ⟨k, hk, rfl, rfl⟩

theorem rel_lt (h : P.rel w a b) : a < P.base₁ + w ∧ b < P.base₂ + w := by
  rcases h with h | ⟨k, hk, rfl, rfl⟩
  · exact ⟨Nat.lt_add_right w (P.old_lt h).1, Nat.lt_add_right w (P.old_lt h).2⟩
  · exact ⟨Nat.add_lt_add_left hk _, Nat.add_lt_add_left hk _⟩

theorem rel_succ (h : P.rel (w + 1) a b) : P.rel w a b ∨ a = P.base₁ + w ∧ b = P.base₂ + w := by
  rcases h with h | ⟨k, hk, rfl, rfl⟩
  · exact .inl (.inl h)
  · rcases Nat.lt_succ_iff_lt_or_eq.mp hk with hk | rfl
    · exact .inl (rel_new hk)
    · exact .inr ⟨rfl, rfl⟩

/-- No scope has two partners. -/
theorem rel_unique (h : P.rel w a b) (h' : P.rel w c d) : a = c ↔ b = d := by
  rcases h with h | ⟨i, -, rfl, rfl⟩ <;> rcases h' with h' | ⟨j, -, rfl, rfl⟩
  · exact P.old_unique h h'
  · have hlt := P.old_lt h
    exact iff_of_false (Nat.ne_of_lt (Nat.lt_add_right j hlt.1))
      (Nat.ne_of_lt (Nat.lt_add_right j hlt.2))
  · have hlt := P.old_lt h'
    exact iff_of_false (Nat.ne_of_gt (Nat.lt_add_right i hlt.1))
      (Nat.ne_of_gt (Nat.lt_add_right i hlt.2))
  · rw [Nat.add_left_cancel_iff, Nat.add_left_cancel_iff]

theorem ground_ne (hg : P.ground g) (h : P.rel w a b) : b ≠ g := by
  rintro rfl
  rcases h with h | ⟨k, -, -, hb⟩
  · exact P.ground_apart hg h
  · exact Nat.not_le_of_lt (P.ground_lt hg) (hb ▸ Nat.le_add_right _ _)

theorem sites_descend (h : P.sites σ τ) : ∀ i, P.sites (σ.descend i) (τ.descend i)
  | none => h
  | some _ => P.sites_child h

theorem Around.mono (h : P.Around w a b o₁ o₂) (hw : w ≤ w') : P.Around w' a b o₁ o₂ := by
  cases h with
  | top => exact .top
  | within h hc hd => exact .within (rel_mono h hw) hc hd
  | ground hg hlt => exact .ground hg hlt

/-- Only new scopes correspond, and all sites do. There may be one ground scope. -/
def ofNew (base₁ base₂ : ScopeId) (ground : Option ScopeId) (hground : ∀ g ∈ ground, g < base₂) :
    Pairing where
  base₁ := base₁
  base₂ := base₂
  old _ _ := False
  ground g := g ∈ ground
  sites _ _ := True
  old_lt := False.elim
  old_unique := False.elim
  ground_lt := hground _
  ground_apart := fun _ h => h
  sites_child := fun _ => trivial

end Pairing

/-- The same value in both runs. -/
inductive Value.Paired (P : Pairing) (w : Nat) : Value → Value → Prop where
  | data : v.IsData → Paired P w v v
  | returned : Paired P w v₁ v₂ → Paired P w (.returned v₁) (.returned v₂)
  | closure : P.rel w a b → P.sites σ τ →
    Paired P w (.closure ⟨xs, body, a, σ⟩) (.closure ⟨xs, body, b, τ⟩)

/-- The same scope in both runs, which is `a` in the one and `b` in the other. -/
structure Scope.Paired (P : Pairing) (w : Nat) (a b : ScopeId) (s₁ s₂ : Scope) : Prop where
  outer : P.Around w a b s₁.outer s₂.outer
  bindings : List.Forall₂ (fun x y => x.1 = y.1 ∧ x.2.Paired P w y.2) s₁.bindings s₂.bindings

/-- The same scopes in both heaps, of which the runs have made `w`. -/
structure Heap.Paired (P : Pairing) (w : Nat) (h₁ h₂ : Heap) : Prop where
  size₁ : h₁.size = P.base₁ + w
  size₂ : h₂.size = P.base₂ + w
  scope : ∀ a b, P.rel w a b → ∃ s₁ s₂, h₁.scope? a = some s₁ ∧ h₂.scope? b = some s₂ ∧
    s₁.Paired P w a b s₂
  ground : ∀ g, P.ground g → h₂.scope? g = some {}

theorem exists_of_forall₂ {r : α → β → Prop} (h : List.Forall₂ r as bs) :
    (∀ a ∈ as, ∃ b ∈ bs, r a b) ∧ ∀ b ∈ bs, ∃ a ∈ as, r a b := by
  induction h with
  | nil => exact ⟨nofun, nofun⟩
  | @cons a b as bs h _ ih =>
    constructor
    · intro x hx
      rcases List.mem_cons.mp hx with rfl | hx
      · exact ⟨b, List.mem_cons_self, h⟩
      · obtain ⟨y, hy, hr⟩ := ih.1 x hx
        exact ⟨y, List.mem_cons_of_mem b hy, hr⟩
    · intro y hy
      rcases List.mem_cons.mp hy with rfl | hy
      · exact ⟨a, List.mem_cons_self, h⟩
      · obtain ⟨x, hx, hr⟩ := ih.2 y hy
        exact ⟨x, List.mem_cons_of_mem a hx, hr⟩

/-- Bindings of the same names to related values give related values. -/
theorem Scope.rel_get? {s₁ s₂ : Scope} {r : Value → Value → Prop}
    (h : List.Forall₂ (fun x y => x.1 = y.1 ∧ r x.2 y.2) s₁.bindings s₂.bindings) (name : String) :
    Option.Rel r (s₁.get? name) (s₂.get? name) := by
  unfold Scope.get?
  generalize s₁.bindings = xs, s₂.bindings = ys at h
  induction h with
  | nil => exact .none
  | @cons x y xs ys hxy _ ih =>
    obtain ⟨x, v⟩ := x
    obtain ⟨y, u⟩ := y
    obtain ⟨rfl, hv⟩ := hxy
    rw [List.lookup_cons, List.lookup_cons]
    cases name == x with
    | true => exact .some hv
    | false => exact ih

section
variable {P : Pairing} {w : Nat} {a b : ScopeId}

namespace Value.Paired

theorem mono (h : Paired P w v₁ v₂) (hw : w ≤ w') : Paired P w' v₁ v₂ := by
  induction h with
  | data hv => exact .data hv
  | returned _ ih => exact .returned ih
  | closure h hs => exact .closure (P.rel_mono h hw) hs

theorem alike (h : Paired P w v₁ v₂) : v₁.Alike v₂ := by
  induction h with
  | data => exact .rfl
  | returned _ ih => exact .returned ih
  | closure => exact .closure

theorem landed (h : Paired P w v₁ v₂) : Paired P w v₁.landed v₂.landed := by
  cases h with
  | data hv =>
    cases v₁ with
    | returned => exact hv.elim
    | _ => exact .data hv
  | returned h => exact h
  | closure h hs => exact .closure h hs

/-- Both values lead nowhere, or to scopes that correspond. -/
theorem scopeOf? (h : Paired P w v₁ v₂) :
    Option.Rel (P.rel w) (Heap.scopeOf? v₁) (Heap.scopeOf? v₂) := by
  cases h with
  | data hv =>
    cases v₁ with
    | closure => exact hv.elim
    | _ => exact .none
  | returned => exact .none
  | closure h => exact .some h

end Value.Paired

namespace Scope.Paired

variable {s₁ s₂ : Scope}

theorem mono (h : s₁.Paired P w a b s₂) (hw : w ≤ w') : s₁.Paired P w' a b s₂ :=
  ⟨h.outer.mono hw, h.bindings.imp fun _ _ h => ⟨h.1, h.2.mono hw⟩⟩

theorem set (h : s₁.Paired P w a b s₂) (hv : v₁.Paired P w v₂) (name : String) :
    (s₁.set name v₁).Paired P w a b (s₂.set name v₂) := by
  refine ⟨h.outer, .cons ⟨rfl, hv⟩ ?_⟩
  have hb := h.bindings
  generalize s₁.bindings = xs, s₂.bindings = ys at hb
  induction hb with
  | nil => exact .nil
  | @cons x y xs ys hxy _ ih =>
    rw [List.filter_cons, List.filter_cons, ← hxy.1]
    split
    · exact .cons hxy ih
    · exact ih

theorem clear (h : s₁.Paired P w a b s₂) : s₁.clear.Paired P w a b s₂.clear := ⟨h.outer, .nil⟩

theorem get? (h : s₁.Paired P w a b s₂) (name : String) :
    Option.Rel (Value.Paired P w) (s₁.get? name) (s₂.get? name) :=
  rel_get? h.bindings name

end Scope.Paired

namespace Heap.Paired

variable {h₁ h₂ : Heap}

/-- A new scope that is the same in both runs. -/
theorem push (H : h₁.Paired P w h₂)
    (hs : s₁.Paired P (w + 1) (P.base₁ + w) (P.base₂ + w) s₂) :
    (h₁.push s₁).Paired P (w + 1) (h₂.push s₂) := by
  refine ⟨by rw [size_push, H.size₁, Nat.add_assoc], by rw [size_push, H.size₂, Nat.add_assoc],
    fun a b hab => ?_, fun g hg => ?_⟩
  · rw [scope?_push, scope?_push, H.size₁, H.size₂]
    rcases P.rel_succ hab with hab | ⟨rfl, rfl⟩
    · obtain ⟨t₁, t₂, ht₁, ht₂, ht⟩ := H.scope a b hab
      have hlt := P.rel_lt hab
      exact ⟨t₁, t₂, by rwa [if_neg (Nat.ne_of_lt hlt.1)], by rwa [if_neg (Nat.ne_of_lt hlt.2)],
        ht.mono (Nat.le_succ w)⟩
    · exact ⟨s₁, s₂, if_pos rfl, if_pos rfl, hs⟩
  · have hlt : g < h₂.size := H.size₂ ▸ Nat.lt_add_right w (P.ground_lt hg)
    rw [scope?_push, if_neg (Nat.ne_of_lt hlt)]
    exact H.ground g hg

theorem modify (H : h₁.Paired P w h₂) (hab : P.rel w a b)
    (hf : ∀ s₁ s₂, s₁.Paired P w a b s₂ → (f₁ s₁).Paired P w a b (f₂ s₂)) :
    (h₁.modify a f₁).Paired P w (h₂.modify b f₂) := by
  refine ⟨by rw [size_modify, H.size₁], by rw [size_modify, H.size₂], fun c d hcd => ?_,
    fun g hg => ?_⟩
  · obtain ⟨s₁, s₂, hs₁, hs₂, hs⟩ := H.scope c d hcd
    have hiff := P.rel_unique hab hcd
    rw [scope?_modify, scope?_modify, hs₁, hs₂]
    by_cases hac : a = c
    · obtain rfl := hac
      obtain rfl := hiff.mp rfl
      exact ⟨f₁ s₁, f₂ s₂, if_pos rfl, if_pos rfl, hf s₁ s₂ hs⟩
    · exact ⟨s₁, s₂, if_neg hac, if_neg fun h => hac (hiff.mpr h), hs⟩
  · rw [scope?_modify, if_neg (P.ground_ne hg hab)]
    exact H.ground g hg

theorem set (H : h₁.Paired P w h₂) (hab : P.rel w a b) (hv : v₁.Paired P w v₂) (name : String) :
    (h₁.set a name v₁).Paired P w (h₂.set b name v₂) :=
  H.modify hab fun _ _ hs => hs.set hv name

theorem clear (H : h₁.Paired P w h₂) (hab : P.rel w a b) : (h₁.clear a).Paired P w (h₂.clear b) :=
  H.modify hab fun _ _ hs => hs.clear

/-! ## Lookup -/

/-- A chain that leads to the ground finds as much as one that ends. The induction is on the number of
scopes that are looked at, of which there are enough, for outer scopes are older. -/
theorem findSome?_chainWithin (H : h₁.Paired P w h₂) (hab : P.rel w a b) (hn : a < n) (hm : b < m)
    (name : String) : Option.Rel (Value.Paired P w)
      ((h₁.chainWithin n a).findSome? (·.get? name))
      ((h₂.chainWithin m b).findSome? (·.get? name)) := by
  induction n generalizing a b m with
  | zero => cases hn
  | succ n ih =>
    obtain ⟨m, rfl⟩ := Nat.exists_eq_add_of_le' (Nat.one_le_of_lt hm)
    obtain ⟨s₁, s₂, hs₁, hs₂, hs⟩ := H.scope a b hab
    rw [Heap.chainWithin, Heap.chainWithin, hs₁, hs₂]
    simp only [List.findSome?_cons]
    have hget := hs.get? name
    generalize s₁.get? name = o₁, s₂.get? name = o₂ at hget
    cases hget with
    | some hv => exact .some hv
    | none =>
      have houter := hs.outer
      generalize s₁.outer = o₁, s₂.outer = o₂ at houter
      cases houter with
      | top => exact .none
      | within hcd hc hd =>
        exact ih hcd (Nat.lt_of_lt_of_le hc (Nat.le_of_lt_succ hn))
          (Nat.lt_of_lt_of_le hd (Nat.le_of_lt_succ hm))
      | ground hg hlt =>
        have hm := Nat.lt_of_lt_of_le hlt (Nat.le_of_lt_succ hm)
        obtain ⟨m, rfl⟩ := Nat.exists_eq_add_of_le' (Nat.one_le_of_lt hm)
        rw [Option.elim_some, Heap.chainWithin, H.ground _ hg]
        exact .none

theorem lookup (H : h₁.Paired P w h₂) (hab : P.rel w a b) (name : String) :
    Option.Rel (Value.Paired P w) (h₁.lookup a name) (h₂.lookup b name) :=
  H.findSome?_chainWithin hab (Nat.lt_succ_self a) (Nat.lt_succ_self b) name

/-! ## Leaving calls -/

theorem bindingCount (H : h₁.Paired P w h₂) (hab : P.rel w a b) :
    h₁.bindingCount a = h₂.bindingCount b := by
  obtain ⟨s₁, s₂, hs₁, hs₂, hs⟩ := H.scope a b hab
  rw [Heap.bindingCount, Heap.bindingCount, hs₁, hs₂]
  exact hs.bindings.length_eq

/-- A step of the first run is one of the second. -/
theorem next (H : h₁.Paired P w h₂) (hab : P.rel w a b) (hc : c ∈ h₁.next a) :
    ∃ d ∈ h₂.next b, P.rel w c d := by
  obtain ⟨s₁, s₂, hs₁, hs₂, hs⟩ := H.scope a b hab
  simp only [mem_next, hs₁, hs₂, Option.some.injEq, exists_eq_left'] at hc ⊢
  rcases hc with hc | ⟨x, hx, hc⟩
  · have houter := hs.outer
    rw [hc] at houter
    generalize s₂.outer = o₂ at houter
    cases houter with
    | within hcd => exact ⟨_, .inl rfl, hcd⟩
  · obtain ⟨y, hy, -, hv⟩ := (exists_of_forall₂ hs.bindings).1 x hx
    have hrel := hv.scopeOf?
    rw [hc] at hrel
    generalize hd : Heap.scopeOf? y.2 = o at hrel
    cases hrel with
    | some hcd => exact ⟨_, .inr ⟨y, hy, hd⟩, hcd⟩

/-- A step of the second run is one of the first, or one to the ground. -/
theorem next_back (H : h₁.Paired P w h₂) (hab : P.rel w a b) (hd : d ∈ h₂.next b) :
    P.ground d ∨ ∃ c ∈ h₁.next a, P.rel w c d := by
  obtain ⟨s₁, s₂, hs₁, hs₂, hs⟩ := H.scope a b hab
  simp only [mem_next, hs₁, hs₂, Option.some.injEq, exists_eq_left'] at hd ⊢
  rcases hd with hd | ⟨y, hy, hd⟩
  · have houter := hs.outer
    rw [hd] at houter
    generalize s₁.outer = o₁ at houter
    cases houter with
    | within hcd => exact .inr ⟨_, .inl rfl, hcd⟩
    | ground hg => exact .inl hg
  · obtain ⟨x, hx, -, hv⟩ := (exists_of_forall₂ hs.bindings).2 y hy
    have hrel := hv.scopeOf?
    rw [hd] at hrel
    generalize hc : Heap.scopeOf? x.2 = o at hrel
    cases hrel with
    | some hcd => exact .inr ⟨_, .inr ⟨x, hx, hc⟩, hcd⟩

theorem path (H : h₁.Paired P w h₂) (hab : P.rel w a b) (hp : h₁.Path a c) :
    ∃ d, P.rel w c d ∧ h₂.Path b d := by
  induction hp with
  | refl => exact ⟨b, hab, .refl⟩
  | tail _ hc ih =>
    obtain ⟨d, hd, hp⟩ := ih
    obtain ⟨d', hd', hrel⟩ := H.next hd hc
    exact ⟨d', hrel, hp.tail hd'⟩

theorem path_back (H : h₁.Paired P w h₂) (hab : P.rel w a b) (hp : h₂.Path b d) :
    P.ground d ∨ ∃ c, P.rel w c d ∧ h₁.Path a c := by
  induction hp with
  | refl => exact .inr ⟨a, hab, .refl⟩
  | tail _ hd ih =>
    rcases ih with hg | ⟨c, hc, hp⟩
    · -- the ground leads nowhere
      obtain ⟨s, hs, hd⟩ := mem_next.mp hd
      cases (H.ground _ hg).symm.trans hs
      rcases hd with hd | ⟨_, hx, -⟩
      · cases hd
      · cases hx
    · exact (H.next_back hc hd).imp_right fun ⟨c', hc', hrel⟩ => ⟨c', hrel, hp.tail hc'⟩

/-- The searches that decide on a release agree. -/
theorem reaches (H : h₁.Paired P w h₂) (hv : v₁.Paired P w v₂) (hab : P.rel w a b) :
    h₁.reaches v₁ a = h₂.reaches v₂ b := by
  rw [Bool.eq_iff_iff, reaches_iff, reaches_iff]
  have hscope := hv.scopeOf?
  generalize Heap.scopeOf? v₁ = o₁, Heap.scopeOf? v₂ = o₂ at hscope
  cases hscope with
  | none => exact iff_of_false nofun nofun
  | some hcd =>
    simp only [Option.some.injEq, exists_eq_left']
    constructor
    · intro hp
      obtain ⟨b', hab', hp⟩ := H.path hcd hp
      obtain rfl := (P.rel_unique hab hab').mp rfl
      exact hp
    · intro hp
      rcases H.path_back hcd hp with hg | ⟨a', hab', hp⟩
      · exact absurd rfl (P.ground_ne hg hab)
      · obtain rfl := (P.rel_unique hab hab').mpr rfl
        exact hp

/-! ## Calls -/

theorem bindAll (H : h₁.Paired P w h₂) (hab : P.rel w a b)
    (hvs : List.Forall₂ (Value.Paired P w) vs₁ vs₂) (xs : List Identifier) :
    (h₁.bindAll a (xs.zip vs₁)).Paired P w (h₂.bindAll b (xs.zip vs₂)) := by
  induction xs generalizing h₁ h₂ vs₁ vs₂ with
  | nil => exact H
  | cons x xs ih =>
    cases hvs with
    | nil => exact H
    | cons hv hvs => exact ih (H.set hab hv x.name) hvs

theorem enter (H : h₁.Paired P w h₂) (hab : P.rel w a b)
    (hvs : List.Forall₂ (Value.Paired P w) vs₁ vs₂) :
    (h₁.enter ⟨xs, body, a, σ⟩ vs₁).Paired P (w + 1) (h₂.enter ⟨xs, body, b, τ⟩ vs₂) := by
  rw [Heap.enter, Heap.enter, H.size₁, H.size₂]
  have hle := Nat.le_succ w
  have hscope : Scope.Paired P (w + 1) (P.base₁ + w) (P.base₂ + w) { outer := some a }
      { outer := some b } :=
    ⟨.within (P.rel_mono hab hle) (P.rel_lt hab).1 (P.rel_lt hab).2, .nil⟩
  exact (H.push hscope).bindAll (P.rel_new (Nat.lt_succ_self w)) (hvs.imp fun _ _ hv => hv.mono hle) xs

theorem leave (H : h₁.Paired P w h₂) (hab : P.rel w a b) (hv : v₁.Paired P w v₂)
    (policy : Release) :
    (h₁.leave policy a v₁).Paired P w (h₂.leave policy b v₂) := by
  rw [Heap.leave, Heap.leave, H.bindingCount hab, H.reaches hv hab]
  split
  · exact H.clear hab
  · exact H

end Heap.Paired

end

/-! ## The two runs -/

/-- Runs in two scopes that correspond. -/
def paired (P : Pairing) (a b : ScopeId) : Simulation a b where
  World := Nat
  Later w w' := w ≤ w'
  heaps w h₁ h₂ := P.rel w a b ∧ h₁.Paired P w h₂
  values w v₁ v₂ := v₁.Paired P w v₂
  code _ σ τ := P.sites σ τ
  refl := Nat.le_refl
  trans := Nat.le_trans
  child h _ := P.sites_descend h _
  mono hw hv := hv.mono hw
  alike hv := hv.alike
  data hv := .data hv
  returned hv _ := .returned hv
  closure hs h := .closure h.1 hs
  lookup _ h := h.2.lookup h.1 _
  bind _ h hv _ := ⟨_, Nat.le_refl _, h.1, h.2.set h.1 hv _⟩

theorem paired_calls (P : Pairing) (policy : Release) (n : Nat) : (paired P a b).Calls
    (Closure.callWithin policy n) (Closure.callWithin policy n) := by
  induction n generalizing a b with
  | zero => exact fun _ _ _ _ _ _ _ _ _ _ _ _ => .none
  | succ n ih =>
    -- the bodies run in the new scopes, which correspond whatever the callers' scopes are
    rintro (w : Nat) c d as bs hc has - - s t ⟨hab, H⟩
    cases hc with
    | data hv => exact hv.elim
    | @closure c d σ τ xs body hcd hsites =>
      obtain ⟨s', f, -, hs', hf, hrun⟩ := Closure.callWithin_succ policy n ⟨xs, body, c, σ⟩ as s
      obtain ⟨t', g, -, ht', hg, hrun'⟩ := Closure.callWithin_succ policy n ⟨xs, body, d, τ⟩ bs t
      rw [hrun, hrun', H.size₁, H.size₂]
      have hnew : P.rel (w + 1) (P.base₁ + w) (P.base₂ + w) := P.rel_new (Nat.lt_succ_self w)
      have hstart : (paired P (P.base₁ + w) (P.base₂ + w)).heaps (w + 1) s'.heap t'.heap :=
        ⟨hnew, by rw [hs', ht']; exact H.enter hcd has⟩
      have hcode : (paired P (P.base₁ + w) (P.base₂ + w)).code (.block body) σ τ := hsites
      have hbody := Simulation.runs_block ih body hcode _ s' t' hstart
      refine rel_map hbody ?_
      rintro ⟨v, u⟩ ⟨v', u'⟩ ⟨w', hw, ⟨hnew, H'⟩, hv⟩
      have hw := Nat.le_of_succ_le hw
      refine ⟨w', hw, ⟨P.rel_mono hab hw, ?_⟩, hv.landed⟩
      rw [hf, hg, H.size₁, H.size₂]
      exact H'.leave hnew hv.landed policy

end MonkeyLang
