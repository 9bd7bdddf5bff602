import MonkeyLang.Token

/-! Binding powers: how tightly an operator holds on to its operands. -/

namespace MonkeyLang

inductive Precedence where
  | lowest
  /-- `==` and `!=` -/
  | equals
  /-- `<` and `>` -/
  | order
  /-- `+` and `-` between operands -/
  | sum
  /-- `*` and `/` -/
  | product
  /-- `!` and `-` before an operand -/
  | unary
  /-- The parenthesis of a call -/
  | call
deriving DecidableEq, Repr, Inhabited

namespace Precedence

def rank : Precedence → Nat
  | lowest => 0 | equals => 1 | order => 2 | sum => 3 | product => 4 | unary => 5 | call => 6

instance : LT Precedence := ⟨fun a b => a.rank < b.rank⟩

instance (a b : Precedence) : Decidable (a < b) := inferInstanceAs (Decidable (a.rank < b.rank))

instance : Ord Precedence := ⟨fun a b => compare a.rank b.rank⟩

theorem lt_def {a b : Precedence} : a < b ↔ a.rank < b.rank := .rfl

/-- The power of a token that stands after an operand. A token that can not go on with an
expression has the lowest. -/
def ofKind : Kind → Precedence
  | .eq | .notEq => equals
  | .lt | .gt => order
  | .plus | .minus => sum
  | .asterisk | .slash => product
  | .lparen => call
  | _ => lowest

end Precedence

end MonkeyLang
