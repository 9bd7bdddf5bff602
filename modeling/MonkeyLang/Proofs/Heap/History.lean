import Mathlib.Data.List.Dedup
import MonkeyLang.Proofs.Heap.Reachability

/-!
# Scopes after any history

A history is what was done to a heap: scopes were made, names were set in scopes, and scopes were
cleared, in any order. `Heap.History.lexical` says what there is to see after any history, in terms of the
history alone.

What is done changes one scope. So what holds of single scopes is followed change by change
(`Recorded`); chains and lookups are then read off the scopes, since a scope is younger than the one
around it.
-/

namespace MonkeyLang

namespace Heap

/-- What can be done to a heap. -/
inductive Change where
  | create (outer : Option ScopeId)
  | set (scope : ScopeId) (name : String) (v : Value)
  | clear (scope : ScopeId)

namespace Change

/-- The heap after a change. -/
def apply (h : Heap) : Change → Heap
  | create outer => h.push { outer }
  | set a name v => h.set a name v
  | clear a => h.clear a

/-- The scope that is made, set or cleared. -/
def scope (h : Heap) : Change → ScopeId
  | create _ => h.size
  | set a .. | clear a => a

/-- The scopes that are named exist. -/
def Possible (h : Heap) : Change → Prop
  | create outer => ∀ b ∈ outer, b < h.size
  | set a .. | clear a => a < h.size

instance (c : Change) (h : Heap) : Decidable (c.Possible h) :=
  match c with
  | create outer => inferInstanceAs (Decidable (∀ b ∈ outer, b < h.size))
  | set a .. | clear a => inferInstanceAs (Decidable (a < h.size))

/-- The scope around the one that is made. -/
def created? : Change → Option (Option ScopeId)
  | create outer => some outer
  | _ => none

def clears (a : ScopeId) : Change → Bool
  | clear b => b == a
  | _ => false

/-- The name that is set in a scope, and its value. -/
def setting? (a : ScopeId) : Change → Option (String × Value)
  | set b name v => if b = a then some (name, v) else none
  | _ => none

end Change

/-- Changes, the latest first, and the heap that they lead to. -/
inductive History : List Change → Heap → Prop where
  | start : History [] {}
  | change : History past h → c.Possible h → History (c :: past) (c.apply h)

/-- What each scope was made within, in the order of their making. -/
def outers (past : List Change) : List (Option ScopeId) := (past.filterMap (·.created?)).reverse

/-- The names set in a scope since it was last cleared, with their values, the latest first. -/
def settings (a : ScopeId) (past : List Change) : List (String × Value) :=
  (past.takeWhile (!·.clears a)).filterMap (·.setting? a)

/-! ## Settings -/

@[simp] theorem settings_create (a : ScopeId) (o : Option ScopeId) (past : List Change) :
    settings a (.create o :: past) = settings a past := rfl

@[simp] theorem settings_set (a b : ScopeId) (name : String) (v : Value) (past : List Change) :
    settings a (.set b name v :: past) =
      if b = a then (name, v) :: settings a past else settings a past := by
  by_cases h : b = a <;> simp [settings, Change.clears, Change.setting?, h]

@[simp] theorem settings_clear (a b : ScopeId) (past : List Change) :
    settings a (.clear b :: past) = if b = a then [] else settings a past := by
  by_cases h : b = a <;> simp [settings, Change.clears, Change.setting?, h]

end Heap

/-! ## Single scopes -/

namespace Scope

/-- No name is bound twice. -/
def Distinct (s : Scope) : Prop := (s.bindings.map (·.1)).Nodup

theorem Distinct.set {s : Scope} (hs : s.Distinct) (name : String) (v : Value) :
    (s.set name v).Distinct := by
  refine List.nodup_cons.mpr ⟨?_, List.Nodup.sublist (List.filter_sublist.map _) hs⟩
  simp

/-- A scope binds what some settings say, the latest of which come first. -/
structure Binds (s : Scope) (settings : List (String × Value)) : Prop where
  distinct : s.Distinct
  get : ∀ name, s.get? name = settings.lookup name

namespace Binds

theorem empty {s : Scope} (hs : s.bindings = []) : s.Binds [] :=
  ⟨by simp [Distinct, hs], fun name => by simp [get?, hs]⟩

theorem set {s : Scope} (H : s.Binds settings) (name : String) (v : Value) :
    (s.set name v).Binds ((name, v) :: settings) := by
  refine ⟨H.distinct.set name v, fun other => ?_⟩
  rw [get?_set, List.lookup_cons, H.get]
  by_cases h : other = name <;> simp [h, beq_false_of_ne]

theorem size {s : Scope} (H : s.Binds settings) :
    s.size = (settings.map (·.1)).dedup.length := by
  have hmem : ∀ (l : List (String × Value)) name, name ∈ l.map (·.1) ↔ l.lookup name ≠ none := by
    intro l name
    simp [List.lookup_eq_none_iff]
  have hperm : (s.bindings.map (·.1)).Perm (settings.map (·.1)).dedup := by
    refine (List.perm_ext_iff_of_nodup H.distinct (List.nodup_dedup _)).mpr fun name => ?_
    rw [List.mem_dedup, hmem, hmem, ← H.get name]
    rfl
  rw [← hperm.length_eq, List.length_map, Scope.size]

end Binds

end Scope

namespace Heap

/-! ## What is recorded of each scope -/

/-- What the past says of a heap. -/
structure Recorded (past : List Change) (h : Heap) : Prop where
  outers : h.scopes.toList.map (·.outer) = outers past
  younger : ∀ a b, h.Outer a b → b < a
  binds : ∀ a s, h.scope? a = some s → s.Binds (settings a past)
  unmade : ∀ a, h.size ≤ a → settings a past = []

namespace Recorded

theorem start : Recorded [] {} := by
  refine ⟨rfl, fun a b ⟨s, hs, _⟩ => ?_, fun a s hs => ?_, fun a _ => rfl⟩
  all_goals simp [scope?] at hs

theorem create (H : Recorded past h) (ho : ∀ b ∈ outer, b < h.size) :
    Recorded (.create outer :: past) (h.push { outer }) := by
  refine ⟨?_, fun a b ⟨s, hs, hb⟩ => ?_, fun a s hs => ?_, fun a ha => ?_⟩
  · simp [push, Heap.outers, Change.created?, H.outers]
  · rw [scope?_push] at hs
    split at hs
    next ha =>
      cases hs
      exact ha ▸ ho b hb
    next => exact H.younger a b ⟨s, hs, hb⟩
  · rw [scope?_push] at hs
    rw [settings_create]
    split at hs
    next ha =>
      cases hs
      rw [H.unmade a (Nat.le_of_eq ha.symm)]
      exact .empty rfl
    next => exact H.binds a s hs
  · rw [size_push] at ha
    exact H.unmade a (Nat.le_of_succ_le ha)

/-- A change of one scope that keeps the scope around it. -/
theorem modify (H : Recorded past h) (ha : a < h.size) (hf : ∀ s, (f s).outer = s.outer)
    (houters : Heap.outers (c :: past) = Heap.outers past)
    (hother : ∀ b, a ≠ b → settings b (c :: past) = settings b past)
    (hbinds : ∀ s : Scope, s.Binds (settings a past) → (f s).Binds (settings a (c :: past))) :
    Recorded (c :: past) (h.modify a f) := by
  have hback : ∀ b s', (h.modify a f).scope? b = some s' →
      ∃ s, h.scope? b = some s ∧ s' = if a = b then f s else s := by
    intro b s' hs'
    rw [scope?_modify] at hs'
    by_cases hab : a = b
    · rw [if_pos hab] at hs'
      obtain ⟨s, hs, heq⟩ := Option.map_eq_some_iff.mp hs'
      exact ⟨s, hs, by rw [if_pos hab, heq]⟩
    · exact ⟨s', (if_neg hab).symm.trans hs', (if_neg hab).symm⟩
  refine ⟨?_, fun b d ⟨s', hs', hd⟩ => ?_, fun b s' hs' => ?_, fun b hb => ?_⟩
  · rw [houters, ← H.outers]
    refine List.ext_getElem? fun b => ?_
    have hb := congrArg (Option.map (·.outer)) (scope?_modify h a f b)
    simp only [scope?] at hb
    rw [List.getElem?_map, List.getElem?_map, Array.getElem?_toList, Array.getElem?_toList, hb]
    by_cases hab : a = b <;> simp [hab, Function.comp_def, hf]
  · obtain ⟨s, hs, rfl⟩ := hback b s' hs'
    refine H.younger b d ⟨s, hs, ?_⟩
    by_cases hab : a = b <;> simpa [hab, hf] using hd
  · obtain ⟨s, hs, rfl⟩ := hback b s' hs'
    by_cases hab : a = b
    · subst hab
      simpa using hbinds s (H.binds a s hs)
    · simpa [hab, hother b hab] using H.binds b s hs
  · rw [size_modify] at hb
    rw [hother b fun hab => Nat.not_lt.mpr hb (hab ▸ ha)]
    exact H.unmade b hb

theorem apply (H : Recorded past h) (hc : c.Possible h) : Recorded (c :: past) (c.apply h) := by
  cases c with
  | create outer => exact H.create hc
  | set a name v =>
    exact H.modify hc (fun s => s.outer_set name v) rfl (fun b hb => by simp [hb])
      fun s hs => by simpa using hs.set name v
  | clear a =>
    exact H.modify hc Scope.outer_clear rfl (fun b hb => by simp [hb])
      fun s _ => by simpa using Scope.Binds.empty rfl

end Recorded

theorem History.recorded (H : History past h) : Recorded past h := by
  induction H with
  | start => exact .start
  | change _ hc ih => exact ih.apply hc

/-! ## Lookups -/

namespace Recorded

theorem outer_eq (H : Recorded past h) (a : ScopeId) :
    (h.scope? a).map (·.outer) = (Heap.outers past)[a]? := by
  rw [← H.outers, List.getElem?_map, Array.getElem?_toList]
  rfl

theorem get_eq (H : Recorded past h) (a : ScopeId) (name : String) :
    (h.scope? a).bind (·.get? name) = (settings a past).lookup name := by
  cases hs : h.scope? a with
  | none => rw [H.unmade a (Array.getElem?_eq_none_iff.mp hs)]; rfl
  | some s => exact (H.binds a s hs).get name

theorem bindingCount_eq (H : Recorded past h) (a : ScopeId) :
    h.bindingCount a = ((settings a past).map (·.1)).dedup.length := by
  rw [bindingCount]
  cases hs : h.scope? a with
  | none => rw [H.unmade a (Array.getElem?_eq_none_iff.mp hs)]; rfl
  | some s => exact (H.binds a s hs).size

end Recorded

theorem Change.scope?_apply (c : Change) (h : Heap) (hb : c.scope h ≠ b) :
    (c.apply h).scope? b = h.scope? b := by
  cases c with
  | create outer => exact (scope?_push ..).trans (if_neg (Ne.symm hb))
  | set | clear => exact (scope?_modify ..).trans (if_neg hb)

/-- A chain depends on its scopes only. -/
theorem Outward.congr {h h' : Heap} (ho : h.Outward a as)
    (heq : ∀ b ∈ as, h'.scope? b = h.scope? b) : h'.Outward a as := by
  induction ho with
  | last hs houter => exact .last ((heq _ List.mem_cons_self).trans hs) houter
  | link hs houter _ ih =>
    exact .link ((heq _ List.mem_cons_self).trans hs) houter
      (ih fun b hb => heq b (List.mem_cons_of_mem _ hb))

/-- After any history a scope was made within an older one, so that the scopes around it are finitely
many and come once each; a lookup gives the value that was set last in the first of them that has one;
a scope counts the names set in it since it was cleared; and a change is seen only through the scope
that it is made to. -/
theorem History.lexical (H : History past h) :
    (∀ a, (h.scope? a).map (·.outer) = (outers past)[a]?) ∧
    (∀ a, a < h.size → ∃ as, h.Outward a as ∧ as.Nodup) ∧
    (∀ a as, h.Outward a as → ∀ name,
      h.lookup a name = as.findSome? fun b => (settings b past).lookup name) ∧
    (∀ a, h.bindingCount a = ((settings a past).map (·.1)).dedup.length) ∧
    ∀ c : Change, c.Possible h → ∀ a as, h.Outward a as → c.scope h ∉ as →
      (c.apply h).Outward a as ∧ ∀ name, (c.apply h).lookup a name = h.lookup a name := by
  have R := H.recorded
  refine ⟨R.outer_eq, fun a ha => ?_, fun a as ho name => ?_, R.bindingCount_eq, ?_⟩
  · obtain ⟨as, ho⟩ := exists_outward R.younger ha
    exact ⟨as, ho, (ho.sorted R.younger).1.imp Nat.ne_of_gt⟩
  · rw [ho.lookup R.younger, List.findSome?_map]
    simp only [Function.comp_def, R.get_eq]
  · intro c hc a as ho hnot
    have hsame : ∀ b ∈ as, (c.apply h).scope? b = h.scope? b :=
      fun b hb => c.scope?_apply h fun heq => hnot (heq ▸ hb)
    have ho' := ho.congr hsame
    refine ⟨ho', fun name => ?_⟩
    rw [ho.lookup R.younger, ho'.lookup (R.apply hc).younger, List.map_congr_left hsame]

/-- Three scopes, each within the one before, and one apart: a name is shadowed, the shadow is cleared,
and the name is set again outside. -/
theorem History.lexical_shadowed : ∃ h,
    History [.set 0 "x" (.int 3), .clear 1, .set 2 "y" (.int 5), .set 1 "z" .null,
      .set 1 "x" (.int 2), .set 0 "x" (.int 1), .create none, .create (some 1),
      .create (some 0), .create none] h ∧
    h.lookup 2 "x" = some (.int 3) ∧ h.lookup 2 "y" = some (.int 5) ∧
    h.lookup 2 "z" = none ∧ h.bindingCount 0 = 1 ∧ h.bindingCount 1 = 0 ∧
    ((Change.set 3 "x" .null).apply h).lookup 2 "x" = some (.int 3) := by
  have H := History.start.change (c := .create none) (by decide)
    |>.change (c := .create (some 0)) (by decide)
    |>.change (c := .create (some 1)) (by decide)
    |>.change (c := .create none) (by decide)
    |>.change (c := .set 0 "x" (.int 1)) (by decide)
    |>.change (c := .set 1 "x" (.int 2)) (by decide)
    |>.change (c := .set 1 "z" .null) (by decide)
    |>.change (c := .set 2 "y" (.int 5)) (by decide)
    |>.change (c := .clear 1) (by decide)
    |>.change (c := .set 0 "x" (.int 3)) (by decide)
  obtain ⟨-, -, hlookup, hcount, hframe⟩ := H.lexical
  have hx := hlookup 2 [2, 1, 0] (.link rfl rfl (.link rfl rfl (.last rfl rfl)))
  have hsame := hframe (.set 3 "x" .null) (by decide) 2 [2, 1, 0]
    (.link rfl rfl (.link rfl rfl (.last rfl rfl))) (by decide)
  exact ⟨_, H, hx "x", hx "y", hx "z", hcount 0, hcount 1, (hsame.2 "x").trans (hx "x")⟩

end Heap

end MonkeyLang
