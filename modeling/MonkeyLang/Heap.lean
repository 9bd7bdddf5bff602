import MonkeyLang.Value
import Std.Data.TreeSet

/-! Scopes. A scope binds names to values and may be enclosed by another one; a heap holds every
scope that was ever made. -/

namespace MonkeyLang

open Std (TreeSet)

/-- One scope: the scope around it, and its own bindings with the latest first. No name is bound
twice. -/
structure Scope where
  outer : Option ScopeId := none
  bindings : List (String × Value) := []
deriving Inhabited

namespace Scope

/-- The value that a name is bound to in this scope alone. -/
def get? (s : Scope) (name : String) : Option Value := s.bindings.lookup name

/-- Binds a name, whether or not it was bound before. -/
def set (s : Scope) (name : String) (v : Value) : Scope :=
  { s with bindings := (name, v) :: s.bindings.filter (·.1 != name) }

/-- Drops every binding and keeps the scope around. -/
def clear (s : Scope) : Scope := { s with bindings := [] }

/-- The number of bindings. -/
def size (s : Scope) : Nat := s.bindings.length

theorem lookup_filter_ne {name other : String} (h : other ≠ name) (bs : List (String × Value)) :
    (bs.filter (·.1 != name)).lookup other = bs.lookup other := by
  induction bs with
  | nil => rfl
  | cons b bs ih =>
    obtain ⟨k, v⟩ := b
    by_cases hk : k = name
    · subst hk
      simp [List.lookup_cons, ih, beq_false_of_ne h]
    · simp [List.lookup_cons, ih, hk]

theorem get?_set (s : Scope) (name : String) (v : Value) (other : String) :
    (s.set name v).get? other = if other = name then some v else s.get? other := by
  by_cases h : other = name
  · simp [get?, set, h]
  · simp [get?, set, List.lookup_cons, h, beq_false_of_ne h, lookup_filter_ne h]

@[simp] theorem get?_clear (s : Scope) (name : String) : s.clear.get? name = none := rfl

@[simp] theorem outer_set (s : Scope) (name : String) (v : Value) :
    (s.set name v).outer = s.outer := rfl

@[simp] theorem outer_clear (s : Scope) : s.clear.outer = s.outer := rfl

@[simp] theorem size_clear (s : Scope) : s.clear.size = 0 := rfl

end Scope

structure Heap where
  scopes : Array Scope := #[]
deriving Inhabited

namespace Heap

/-- The number of scopes, and the name of the next. -/
def size (h : Heap) : Nat := h.scopes.size

def scope? (h : Heap) (id : ScopeId) : Option Scope := h.scopes[id]?

/-- Adds a scope, which is named by the size of the heap before. -/
def push (h : Heap) (s : Scope) : Heap := ⟨h.scopes.push s⟩

/-- Changes one scope. -/
def modify (h : Heap) (id : ScopeId) (f : Scope → Scope) : Heap := ⟨h.scopes.modify id f⟩

def set (h : Heap) (id : ScopeId) (name : String) (v : Value) : Heap := h.modify id (·.set name v)

def clear (h : Heap) (id : ScopeId) : Heap := h.modify id .clear

@[simp] theorem size_push (h : Heap) (s : Scope) : (h.push s).size = h.size + 1 := by
  simp [size, push]

@[simp] theorem size_modify (h : Heap) (id : ScopeId) (f : Scope → Scope) :
    (h.modify id f).size = h.size := by
  simp [size, modify]

theorem scope?_push (h : Heap) (s : Scope) (id : ScopeId) :
    (h.push s).scope? id = if id = h.size then some s else h.scope? id := by
  exact Array.getElem?_push

theorem scope?_modify (h : Heap) (id : ScopeId) (f : Scope → Scope) (other : ScopeId) :
    (h.modify id f).scope? other =
      if id = other then (h.scope? other).map f else h.scope? other := by
  simp [scope?, modify, Array.getElem?_modify]

/-- The number of bindings of a scope. -/
def bindingCount (h : Heap) (id : ScopeId) : Nat := ((h.scope? id).map (·.size)).getD 0

/-! ## Lookup -/

/-- At most `n` scopes: the given one, the one around it, and so on. -/
def chainWithin (h : Heap) : Nat → ScopeId → List Scope
  | 0, _ => []
  | n + 1, id =>
    match h.scope? id with
    | none => []
    | some s => s :: (s.outer.elim [] (h.chainWithin n))

/-- A scope and those around it, innermost first. A scope is younger than the one around it, so
there are at most as many as names up to its own. -/
def chain (h : Heap) (id : ScopeId) : List Scope := h.chainWithin (id + 1) id

/-- The value of a name in the innermost scope that binds it. -/
def lookup (h : Heap) (id : ScopeId) (name : String) : Option Value :=
  (h.chain id).findSome? (·.get? name)

/-- The number of scopes that a lookup leaves outward. -/
def hops (h : Heap) (id : ScopeId) (name : String) : Nat :=
  let chain := h.chain id
  min (chain.takeWhile (·.get? name |>.isNone)).length (chain.length - 1)

/-! ## Reachability -/

/-- The scope that a value leads to: only a function leads anywhere. -/
def scopeOf? : Value → Option ScopeId
  | .closure c => some c.scope
  | _ => none

/-- The scopes that a scope leads to: the one around it, and those of the functions it binds. -/
def next (h : Heap) (id : ScopeId) : List ScopeId :=
  match h.scope? id with
  | none => []
  | some s => s.outer.toList ++ s.bindings.filterMap fun (_, v) => scopeOf? v

/-- Visits a scope, unless it was seen before: what it leads to is added to the scopes to go on
with. -/
def visit (h : Heap) : List ScopeId × TreeSet ScopeId → ScopeId → List ScopeId × TreeSet ScopeId
  | (front, seen), id =>
    if seen.contains id then (front, seen) else (h.next id ++ front, seen.insert id)

/-- Whether `target` is at most `n` steps away from the scopes `front`, on a way that avoids the
scopes in `seen`. -/
def reachesWithin (h : Heap) (target : ScopeId) :
    Nat → (front : List ScopeId) → (seen : TreeSet ScopeId) → Bool
  | 0, front, _ => front.contains target
  | n + 1, front, seen =>
    front.contains target || !front.isEmpty &&
      let (front, seen) := front.foldl h.visit ([], seen)
      h.reachesWithin target n front seen

/-- Whether a value leads to a scope in any number of steps. No way has to be longer than the heap
is large. -/
def reaches (h : Heap) (v : Value) (target : ScopeId) : Bool :=
  h.reachesWithin target h.size (scopeOf? v).toList {}

end Heap

end MonkeyLang
