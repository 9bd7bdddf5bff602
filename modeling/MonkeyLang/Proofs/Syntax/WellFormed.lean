import MonkeyLang.Proofs.Token.Spelled
import MonkeyLang.Integer
import MonkeyLang.Syntax
import MonkeyLang.Syntax.Precedence

/-!
# Well-formed trees

A tree is well-formed if its tokens, operators, names and values agree the way they do in trees of
texts. Nothing is asked of the token of an expression statement: it depends on how the expression is
written, and `unmarked` leaves it out.
-/

namespace MonkeyLang

/-- The operators between operands. -/
def binaryOperators : List Kind := [.eq, .notEq, .lt, .gt, .plus, .minus, .asterisk, .slash]

section

variable {k : Kind}

/-- An operator is a mark: it has one literal. -/
theorem mark_of_mem_binaryOperators (h : k ∈ binaryOperators) :
    k ∉ [Kind.illegal, .eof, .ident, .int] := by
  revert k
  decide

theorem ne_lparen_of_mem_binaryOperators (h : k ∈ binaryOperators) : k ≠ .lparen := by
  rintro rfl
  exact absurd h (by decide)

theorem ne_elseWord_of_mem_binaryOperators (h : k ∈ binaryOperators) : k ≠ .elseWord := by
  rintro rfl
  exact absurd h (by decide)

/-- An operator between operands goes on with any expression that no operator holds yet. -/
theorem lowest_lt_of_mem_binaryOperators (h : k ∈ binaryOperators) :
    .lowest < Precedence.ofKind k := by
  revert k
  decide

/-- No operator between operands holds on tighter than one before its operand. -/
theorem lt_unary_of_mem_binaryOperators (h : k ∈ binaryOperators) :
    Precedence.ofKind k < .unary := by
  revert k
  decide

theorem Token.spelled_of_mem_binaryOperators {t : Token} (h : t.kind ∈ binaryOperators)
    (ht : t = t.kind.token) : t.Spelled :=
  ht ▸ spelled_token (mark_of_mem_binaryOperators h)

end

def Identifier.WellFormed (id : Identifier) : Prop :=
  id = .ofToken id.token ∧ id.token.kind = .ident ∧ IsName id.token.literal

theorem Identifier.WellFormed.spelled {x : Identifier} (h : x.WellFormed) : x.token.Spelled := by
  unfold Token.Spelled
  rw [h.2.1]
  exact h.2.2

mutual

def Expr.WellFormed : Expr → Prop
  | .ident id => id.WellFormed
  | .int t n => t.kind = .int ∧ IsNumber t.literal ∧ integer? t.literal = some n
  | .bool t b => t = if b then Kind.trueWord.token else Kind.falseWord.token
  | .unary t op e => (t = Kind.bang.token ∨ t = Kind.minus.token) ∧ op = t.literal ∧ e.WellFormed
  | .binary t l op r =>
    t.kind ∈ binaryOperators ∧ t = t.kind.token ∧ op = t.literal ∧ l.WellFormed ∧ r.WellFormed
  | .cond t c b none => t = Kind.ifWord.token ∧ c.WellFormed ∧ b.WellFormed
  | .cond t c b (some a) => t = Kind.ifWord.token ∧ c.WellFormed ∧ b.WellFormed ∧ a.WellFormed
  | .function t ids b => t = Kind.fnWord.token ∧ (∀ id ∈ ids, id.WellFormed) ∧ b.WellFormed
  | .call t f es => t = Kind.lparen.token ∧ f.WellFormed ∧ Expr.EachWellFormed es

def Expr.EachWellFormed : List Expr → Prop
  | [] => True
  | e :: es => e.WellFormed ∧ Expr.EachWellFormed es

def Stmt.WellFormed : Stmt → Prop
  | .letStmt t id e => t = Kind.letWord.token ∧ id.WellFormed ∧ e.WellFormed
  | .returnStmt t e => t = Kind.returnWord.token ∧ e.WellFormed
  | .expr _ e => e.WellFormed
  | .block b => b.WellFormed

def Block.WellFormed : Block → Prop
  | ⟨t, ss⟩ => t = Kind.lbrace.token ∧ Stmt.EachWellFormed ss

def Stmt.EachWellFormed : List Stmt → Prop
  | [] => True
  | s :: ss => s.WellFormed ∧ Stmt.EachWellFormed ss

end

def Program.WellFormed (p : Program) : Prop := Stmt.EachWellFormed p.statements

mutual

/-- The tree without the tokens of its expression statements. -/
def Expr.unmarked : Expr → Expr
  | .ident id => .ident id
  | .int t n => .int t n
  | .bool t b => .bool t b
  | .unary t op e => .unary t op e.unmarked
  | .binary t l op r => .binary t l.unmarked op r.unmarked
  | .cond t c b none => .cond t c.unmarked b.unmarked none
  | .cond t c b (some a) => .cond t c.unmarked b.unmarked (some a.unmarked)
  | .function t ids b => .function t ids b.unmarked
  | .call t f es => .call t f.unmarked (Expr.eachUnmarked es)

def Expr.eachUnmarked : List Expr → List Expr
  | [] => []
  | e :: es => e.unmarked :: Expr.eachUnmarked es

def Stmt.unmarked : Stmt → Stmt
  | .letStmt t id e => .letStmt t id e.unmarked
  | .returnStmt t e => .returnStmt t e.unmarked
  | .expr _ e => .expr .eof e.unmarked
  | .block b => .block b.unmarked

def Block.unmarked : Block → Block
  | ⟨t, ss⟩ => ⟨t, Stmt.eachUnmarked ss⟩

def Stmt.eachUnmarked : List Stmt → List Stmt
  | [] => []
  | s :: ss => s.unmarked :: Stmt.eachUnmarked ss

end

def Program.unmarked (p : Program) : Program := ⟨Stmt.eachUnmarked p.statements⟩

mutual

theorem Expr.wellFormed_unmarked : ∀ e : Expr, e.unmarked.WellFormed ↔ e.WellFormed
  | .ident _ | .int .. | .bool .. => .rfl
  | .unary _ _ e => by simp [Expr.unmarked, Expr.WellFormed, e.wellFormed_unmarked]
  | .binary _ l _ r => by
    simp [Expr.unmarked, Expr.WellFormed, l.wellFormed_unmarked, r.wellFormed_unmarked]
  | .cond _ c b none => by
    simp [Expr.unmarked, Expr.WellFormed, c.wellFormed_unmarked, b.wellFormed_unmarked]
  | .cond _ c b (some a) => by
    simp [Expr.unmarked, Expr.WellFormed, c.wellFormed_unmarked, b.wellFormed_unmarked,
      a.wellFormed_unmarked]
  | .function _ _ b => by simp [Expr.unmarked, Expr.WellFormed, b.wellFormed_unmarked]
  | .call _ f es => by
    simp [Expr.unmarked, Expr.WellFormed, f.wellFormed_unmarked, Expr.eachWellFormed_unmarked es]

theorem Expr.eachWellFormed_unmarked :
    ∀ es, Expr.EachWellFormed (Expr.eachUnmarked es) ↔ Expr.EachWellFormed es
  | [] => .rfl
  | e :: es => by
    simp [Expr.eachUnmarked, Expr.EachWellFormed, e.wellFormed_unmarked,
      Expr.eachWellFormed_unmarked es]

theorem Stmt.wellFormed_unmarked : ∀ s : Stmt, s.unmarked.WellFormed ↔ s.WellFormed
  | .letStmt _ _ e | .returnStmt _ e | .expr _ e => by
    simp [Stmt.unmarked, Stmt.WellFormed, e.wellFormed_unmarked]
  | .block b => by simp [Stmt.unmarked, Stmt.WellFormed, b.wellFormed_unmarked]

theorem Block.wellFormed_unmarked : ∀ b : Block, b.unmarked.WellFormed ↔ b.WellFormed
  | ⟨_, ss⟩ => by simp [Block.unmarked, Block.WellFormed, Stmt.eachWellFormed_unmarked ss]

theorem Stmt.eachWellFormed_unmarked :
    ∀ ss, Stmt.EachWellFormed (Stmt.eachUnmarked ss) ↔ Stmt.EachWellFormed ss
  | [] => .rfl
  | s :: ss => by
    simp [Stmt.eachUnmarked, Stmt.EachWellFormed, s.wellFormed_unmarked,
      Stmt.eachWellFormed_unmarked ss]

end

end MonkeyLang
