import Mathlib.Logic.Relation
import Mathlib.Tactic.ByContra
import Mathlib.Tactic.Tauto
import MonkeyLang.Heap

/-!
# Reachability of scopes

`Heap.Leads` is one step from a scope: to the scope around it, or to the scope of a function bound
in it. It also looks into bound `return` values, which `Heap.next` does not; `Heap.Reach` is any
number of such steps. The search `Heap.reaches` misses nothing that `Heap.next` leads to
(`Heap.reaches_of_path`): a search that stops without the target has seen a set of scopes that no
step leaves.
-/

namespace MonkeyLang

open Relation (ReflTransGen)

/-- The scope that a value leads to, also from inside a `return`. -/
def Value.scope? : Value → Option ScopeId
  | .closure c => some c.scope
  | .returned v => v.scope?
  | _ => none

theorem Value.scope?_of_scopeOf? {v : Value} (h : Heap.scopeOf? v = some a) :
    v.scope? = some a := by
  cases v <;> simp_all [Heap.scopeOf?, Value.scope?]

namespace Heap

/-- One step from a scope: to the one around it, or to that of a function bound in it. -/
def Leads (h : Heap) (a b : ScopeId) : Prop :=
  ∃ s, h.scope? a = some s ∧ (s.outer = some b ∨ ∃ x ∈ s.bindings, x.2.scope? = some b)

/-- A step outward. -/
def Outer (h : Heap) (a b : ScopeId) : Prop := ∃ s, h.scope? a = some s ∧ s.outer = some b

/-- The scope `a` and those around it. -/
inductive Outward (h : Heap) : ScopeId → List ScopeId → Prop
  | last : h.scope? a = some s → s.outer = none → h.Outward a [a]
  | link : h.scope? a = some s → s.outer = some b → h.Outward b as → h.Outward a (a :: as)

/-- Any number of steps. -/
abbrev Reach (h : Heap) : ScopeId → ScopeId → Prop := ReflTransGen h.Leads

theorem Leads.congr {h h' : Heap} (heq : h'.scope? a = h.scope? a) :
    h'.Leads a b ↔ h.Leads a b := by
  rw [Leads, Leads, heq]

theorem next_congr {h h' : Heap} (heq : h'.scope? a = h.scope? a) : h'.next a = h.next a := by
  rw [next, next, heq]

theorem bindingCount_congr {h h' : Heap} (heq : h'.scope? a = h.scope? a) :
    h'.bindingCount a = h.bindingCount a := by
  rw [bindingCount, bindingCount, heq]

theorem reach_of_outer {h : Heap} (hr : ReflTransGen h.Outer a b) : h.Reach a b :=
  hr.lift (fun c => c) fun _ _ ⟨s, hs, ho⟩ => ⟨s, hs, .inl ho⟩

theorem lt_size_of_scope? {h : Heap} (hs : h.scope? a = some s) : a < h.size := by
  obtain ⟨ha, -⟩ := Array.getElem?_eq_some_iff.mp hs
  exact ha

theorem Leads.lt_size {h : Heap} (hl : h.Leads a b) : a < h.size := by
  obtain ⟨s, hs, -⟩ := hl
  exact lt_size_of_scope? hs

theorem mem_next {h : Heap} : b ∈ h.next a ↔
    ∃ s, h.scope? a = some s ∧ (s.outer = some b ∨ ∃ x ∈ s.bindings, scopeOf? x.2 = some b) := by
  unfold next
  cases h.scope? a with
  | none => simp
  | some s => simp [List.mem_filterMap]

theorem Leads.of_mem_next {h : Heap} (hb : b ∈ h.next a) : h.Leads a b := by
  obtain ⟨s, hs, hb⟩ := mem_next.mp hb
  exact ⟨s, hs, hb.imp_right fun ⟨x, hx, hv⟩ => ⟨x, hx, Value.scope?_of_scopeOf? hv⟩⟩

/-- A set of scopes that no step leaves keeps what it reaches. -/
theorem Reach.mem_of_closed {h : Heap} {P : ScopeId → Prop}
    (hP : ∀ a, P a → ∀ b, h.Leads a b → P b) (hr : h.Reach a b) (ha : P a) : P b := by
  induction hr with
  | refl => exact ha
  | tail _ hl ih => exact hP _ ih _ hl

/-! ## The scopes around a scope -/

/-- A search within enough scopes sees them all. -/
theorem Outward.chainWithin {h : Heap} (ho : h.Outward a as) (hn : as.length ≤ n) :
    (h.chainWithin n a).map some = as.map h.scope? := by
  induction ho generalizing n with
  | last hs houter =>
    obtain ⟨n, rfl⟩ := Nat.exists_eq_add_of_le' hn
    simp [Heap.chainWithin, hs, houter]
  | @link a s b as hs houter _ ih =>
    obtain ⟨n, rfl⟩ := Nat.exists_eq_add_of_le' hn
    have hb := ih (n := n + as.length) (Nat.le_add_left _ _)
    simp [Heap.chainWithin, hs, houter, ← hb]

section
variable {h : Heap} (hyounger : ∀ a b, h.Outer a b → b < a)
include hyounger

theorem Outward.length_le (ho : h.Outward a as) : as.length ≤ a + 1 := by
  induction ho with
  | last => simp
  | @link a s b as hs houter _ ih =>
    exact Nat.succ_le_succ (Nat.le_trans ih (hyounger a b ⟨s, hs, houter⟩))

/-- The scopes are met from the youngest to the oldest. -/
theorem Outward.sorted (ho : h.Outward a as) : as.Pairwise (· > ·) ∧ ∀ b ∈ as, b ≤ a := by
  induction ho with
  | last => simp
  | @link a s b as hs houter _ ih =>
    have hb := hyounger a b ⟨s, hs, houter⟩
    have hlt : ∀ c ∈ as, c < a := fun c hc => Nat.lt_of_le_of_lt (ih.2 c hc) hb
    exact ⟨List.pairwise_cons.mpr ⟨hlt, ih.1⟩,
      List.forall_mem_cons.mpr ⟨Nat.le_refl a, fun c hc => Nat.le_of_lt (hlt c hc)⟩⟩

theorem exists_outward (ha : a < h.size) : ∃ as, h.Outward a as := by
  induction a using Nat.strongRecOn with
  | ind a ih =>
    have hs : h.scope? a = some h.scopes[a] := Array.getElem?_eq_getElem ha
    cases houter : h.scopes[a].outer with
    | none => exact ⟨[a], .last hs houter⟩
    | some b =>
      have hb := hyounger a b ⟨_, hs, houter⟩
      obtain ⟨as, has⟩ := ih b hb (Nat.lt_trans hb ha)
      exact ⟨a :: as, .link hs houter has⟩

/-- A lookup asks the scopes in turn. -/
theorem Outward.lookup (ho : h.Outward a as) (name : String) :
    h.lookup a name = (as.map h.scope?).findSome? (·.bind (·.get? name)) := by
  rw [Heap.lookup, chain, ← ho.chainWithin (ho.length_le hyounger), List.findSome?_map]
  rfl

end

/-! ## The search -/

section
variable {h : Heap} {target : ScopeId}

theorem mem_foldl_visit_seen {front : List ScopeId} {acc : List ScopeId × Std.TreeSet ScopeId} :
    a ∈ (front.foldl h.visit acc).2 ↔ a ∈ acc.2 ∨ a ∈ front := by
  induction front generalizing acc with
  | nil => simp
  | cons c front ih =>
    obtain ⟨next, seen⟩ := acc
    rw [List.foldl_cons, ih, visit]
    by_cases hc : seen.contains c
    · rw [if_pos hc, List.mem_cons]
      have : a = c → a ∈ seen := fun h => h ▸ Std.TreeSet.contains_iff_mem.mp hc
      tauto
    · rw [if_neg hc, Std.TreeSet.mem_insert, Std.compare_eq_iff_eq, List.mem_cons, eq_comm]
      tauto

/-- What a visit collects: what was there before, and what the scopes not seen before lead to. -/
theorem mem_foldl_visit_front {front : List ScopeId} {acc : List ScopeId × Std.TreeSet ScopeId} :
    b ∈ (front.foldl h.visit acc).1 ↔ b ∈ acc.1 ∨ ∃ a ∈ front, a ∉ acc.2 ∧ b ∈ h.next a := by
  induction front generalizing acc with
  | nil => simp
  | cons c front ih =>
    obtain ⟨next, seen⟩ := acc
    rw [List.foldl_cons, ih, visit]
    by_cases hc : seen.contains c
    · have hmem := Std.TreeSet.contains_iff_mem.mp hc
      simp only [if_pos hc, List.mem_cons, exists_eq_or_imp]
      tauto
    · have hmem : c ∉ seen := fun h => hc (Std.TreeSet.contains_iff_mem.mpr h)
      simp only [if_neg hc, List.mem_append, List.mem_cons, exists_eq_or_imp,
        Std.TreeSet.mem_insert, Std.compare_eq_iff_eq, not_or]
      constructor
      · rintro ((hb | hb) | ⟨a, ha, ⟨-, has⟩, hb⟩)
        · exact .inr (.inl ⟨hmem, hb⟩)
        · exact .inl hb
        · exact .inr (.inr ⟨a, ha, has, hb⟩)
      · rintro (hb | ⟨-, hb⟩ | ⟨a, ha, has, hb⟩)
        · exact .inl (.inr hb)
        · exact .inl (.inl hb)
        · by_cases hca : c = a
          · exact .inl (.inl (hca ▸ hb))
          · exact .inr ⟨a, ha, ⟨hca, has⟩, hb⟩

/-- The number of scopes of a heap that a search has not seen yet. -/
def unseen (h : Heap) (seen : Std.TreeSet ScopeId) : Nat :=
  (List.range h.size).countP fun a => !seen.contains a

theorem unseen_lt {seen seen' : Std.TreeSet ScopeId} (hle : ∀ a ∈ seen, a ∈ seen')
    (ha : a < h.size) (has : a ∉ seen) (has' : a ∈ seen') : h.unseen seen' < h.unseen seen := by
  have hsub : ∀ l : List ScopeId, l.countP (fun a => !seen'.contains a) ≤
      l.countP (fun a => !seen.contains a) := by
    intro l
    apply List.countP_mono_left
    intro c _ hc
    simp only [Bool.not_eq_true', ← Bool.not_eq_true, Std.TreeSet.contains_iff_mem] at hc ⊢
    exact fun h => hc (hle c h)
  obtain ⟨l, r, hrange⟩ := List.append_of_mem (List.mem_range.mpr ha)
  unfold unseen
  rw [hrange, List.countP_append, List.countP_append, List.countP_cons, List.countP_cons]
  have := hsub l
  have := hsub r
  simp only [Std.TreeSet.contains_iff_mem.mpr has', Bool.not_true, Bool.false_eq_true, if_false]
  have hna : seen.contains a = false := by
    rw [← Bool.not_eq_true, Std.TreeSet.contains_iff_mem]; exact has
  simp only [hna, Bool.not_false, if_true]
  omega

theorem not_path_of_closed {P : ScopeId → Prop} (hP : ∀ a, P a → ∀ b ∈ h.next a, P b)
    (ha : P a) (htarget : ¬P target) : ¬ReflTransGen (fun a b => b ∈ h.next a) a target := by
  intro hpath
  apply htarget
  clear htarget
  induction hpath with
  | refl => exact ha
  | tail _ hb ih => exact hP _ ih _ hb

/-- A search that stops without the target has seen a closed set of scopes. -/
theorem not_path_of_reachesWithin {n : Nat} {front : List ScopeId}
    {seen : Std.TreeSet ScopeId} (hstop : h.reachesWithin target n front seen = false)
    (hseen : ∀ a ∈ seen, ∀ b ∈ h.next a, b ∈ front ∨ b ∈ seen) (htarget : target ∉ seen)
    (hn : front = [] ∨ h.unseen seen ≤ n) (ha : a ∈ front ∨ a ∈ seen) :
    ¬ReflTransGen (fun a b => b ∈ h.next a) a target := by
  induction n generalizing front seen with
  | zero =>
    have hfront : target ∉ front := by simpa [reachesWithin] using hstop
    refine not_path_of_closed (P := fun c => c ∈ front ∨ c ∈ seen) (fun c hc b hb => ?_) ha
      (not_or.mpr ⟨hfront, htarget⟩)
    by_cases hcs : c ∈ seen
    · exact hseen c hcs b hb
    rcases hn with rfl | hn
    · exact hseen c (hc.resolve_left List.not_mem_nil) b hb
    have hzero := Nat.le_zero.mp hn
    rw [unseen, List.countP_eq_zero] at hzero
    have := hzero c (List.mem_range.mpr (Leads.of_mem_next hb).lt_size)
    rw [Bool.not_eq_true', Bool.not_eq_false, Std.TreeSet.contains_iff_mem] at this
    exact absurd this hcs
  | succ n ih =>
    simp only [reachesWithin, Bool.or_eq_false_iff, List.contains_eq_mem, decide_eq_false_iff_not]
      at hstop
    obtain ⟨hfront, hstop⟩ := hstop
    by_cases hempty : front = []
    · subst hempty
      exact not_path_of_closed (P := fun c => c ∈ [] ∨ c ∈ seen)
        (fun c hc => hseen c (hc.resolve_left List.not_mem_nil)) ha
        (not_or.mpr ⟨hfront, htarget⟩)
    have hne : front.isEmpty = false := by simpa using hempty
    simp only [hne, Bool.not_false, Bool.true_and] at hstop
    have hs' : ∀ c, c ∈ (front.foldl h.visit ([], seen)).2 ↔ c ∈ seen ∨ c ∈ front :=
      fun c => mem_foldl_visit_seen
    have hf' : ∀ b, b ∈ (front.foldl h.visit ([], seen)).1 ↔
        ∃ a ∈ front, a ∉ seen ∧ b ∈ h.next a := fun b => by
      rw [mem_foldl_visit_front]; simp
    generalize (front.foldl h.visit ([], seen)).1 = front' at hstop hf'
    generalize (front.foldl h.visit ([], seen)).2 = seen' at hstop hs'
    refine ih hstop (fun c hc b hb => ?_) (fun h => ((hs' _).mp h).elim htarget hfront) ?_
      (.inr ((hs' a).mpr ha.symm))
    · by_cases hcs : c ∈ seen
      · exact .inr ((hs' b).mpr (hseen c hcs b hb).symm)
      · exact .inl ((hf' b).mpr ⟨c, ((hs' c).mp hc).resolve_left hcs, hcs, hb⟩)
    · -- a scope to go on with comes from one that was not seen before
      cases front' with
      | nil => exact .inl rfl
      | cons b front' =>
        obtain ⟨c, hc, hcs, hb⟩ := (hf' b).mp List.mem_cons_self
        have hlt := unseen_lt (fun a ha => (hs' a).mpr (.inl ha)) (Leads.of_mem_next hb).lt_size
          hcs ((hs' c).mpr (.inr hc))
        have := hn.resolve_left hempty
        exact .inr (by omega)

end

/-- The search finds whatever a path of `Heap.next` leads to. -/
theorem reaches_of_path {h : Heap} {v : Value} (hv : scopeOf? v = some a)
    (hp : ReflTransGen (fun a b => b ∈ h.next a) a target) : h.reaches v target = true := by
  by_contra hstop
  rw [Bool.not_eq_true, reaches, hv] at hstop
  refine not_path_of_reachesWithin hstop (fun a ha => ?_) Std.TreeSet.not_mem_emptyc (.inr ?_)
    (.inl (by simp)) hp
  · exact absurd ha Std.TreeSet.not_mem_emptyc
  · exact Nat.le_trans List.countP_le_length (Nat.le_of_eq List.length_range)

/-- Any number of steps of `Heap.next`. -/
abbrev Path (h : Heap) : ScopeId → ScopeId → Prop := ReflTransGen fun a b => b ∈ h.next a

theorem path_of_reachesWithin {h : Heap} {n : Nat} {front : List ScopeId}
    {seen : Std.TreeSet ScopeId} (hfound : h.reachesWithin target n front seen = true) :
    ∃ a ∈ front, h.Path a target := by
  induction n generalizing front seen with
  | zero => exact ⟨target, by simpa [reachesWithin] using hfound, .refl⟩
  | succ n ih =>
    rw [reachesWithin, Bool.or_eq_true, List.contains_iff_mem] at hfound
    rcases hfound with hfront | hnext
    · exact ⟨target, hfront, .refl⟩
    · obtain ⟨b, hb, hpath⟩ := ih (Bool.and_eq_true_iff.mp hnext).2
      rcases mem_foldl_visit_front.mp hb with hb | ⟨a, ha, -, hab⟩
      · cases hb
      · exact ⟨a, ha, .head hab hpath⟩

/-- The search finds the target exactly if a path leads there. -/
theorem reaches_iff {h : Heap} {v : Value} :
    h.reaches v target = true ↔ ∃ a, scopeOf? v = some a ∧ h.Path a target := by
  constructor
  · intro hfound
    obtain ⟨a, ha, hpath⟩ := path_of_reachesWithin hfound
    exact ⟨a, Option.mem_toList.mp ha, hpath⟩
  · rintro ⟨a, ha, hpath⟩
    exact reaches_of_path ha hpath

end Heap

end MonkeyLang
