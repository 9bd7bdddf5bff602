/-! Deep recursion. A recursion that follows the nesting of a text or of calls can outgrow the stack
it started on; every so many levels it goes on with a fresh one. -/

namespace MonkeyLang

/-- The value of a computation, found on a stack of its own. -/
def onFreshStack {α : Type} (f : Unit → α) : α := (Task.spawn f .dedicated).get

@[simp] theorem onFreshStack_eq {α : Type} (f : Unit → α) : onFreshStack f = f () := rfl

/-- The value of a computation at a level of a recursion: one level in `stride` starts a stack. -/
@[inline] def atLevel {α : Type} (stride level : Nat) (f : Unit → α) : α :=
  if level % stride = 0 then onFreshStack f else f ()

@[simp] theorem atLevel_eq {α : Type} (stride level : Nat) (f : Unit → α) :
    atLevel stride level f = f () := by
  simp [atLevel]

end MonkeyLang
