import MonkeyLang.Proofs.Parser.Walk

/-!
# The nodes of a tree

`Program.Contains` reaches every node of a tree, at any depth and also inside of function literals.
Each agrees with the token that it keeps (`Node.Consistent`), also in the tree of a text with errors
(`parse_consistent`). This is `parse_wellFormed` node by node: a well-formed node is consistent, and so
are its parts.
-/

namespace MonkeyLang

/-- A node of a tree. -/
inductive Node where
  | identifier (x : Identifier)
  | expr (e : Expr)
  | stmt (s : Stmt)
  | block (b : Block)

namespace Node

/-- The second node stands directly below the first. -/
inductive Child : Node → Node → Prop where
  | name : Child (expr (.ident x)) (identifier x)
  | unary : Child (expr (.unary t op e)) (expr e)
  | left : Child (expr (.binary t l op r)) (expr l)
  | right : Child (expr (.binary t l op r)) (expr r)
  | condition : Child (expr (.cond t c b alt)) (expr c)
  | consequence : Child (expr (.cond t c b alt)) (block b)
  | alternative : Child (expr (.cond t c b (some a))) (block a)
  | parameter : x ∈ xs → Child (expr (.function t xs b)) (identifier x)
  | body : Child (expr (.function t xs b)) (block b)
  | callee : Child (expr (.call t f es)) (expr f)
  | argument : e ∈ es → Child (expr (.call t f es)) (expr e)
  | letName : Child (stmt (.letStmt t x e)) (identifier x)
  | letValue : Child (stmt (.letStmt t x e)) (expr e)
  | returnValue : Child (stmt (.returnStmt t e)) (expr e)
  | exprValue : Child (stmt (.expr t e)) (expr e)
  | blockBody : Child (stmt (.block b)) (block b)
  | statement : s ∈ ss → Child (block ⟨t, ss⟩) (stmt s)

/-- The fields of a node agree with its token. A name that is read, the token of an expression
statement and a block that is a statement say nothing of their own: the identifier, the expression and
the block are nodes themselves. -/
def Consistent : Node → Prop
  | identifier x => x.token.kind = .ident ∧ x.name = x.token.literal ∧ x.name ≠ "" ∧
      (∀ c ∈ x.name.toList, c.isAlpha ∨ c = '_') ∧ x.name ∉ Kind.keywords.map (·.1)
  | expr (.ident _) => True
  | expr (.int t n) => t.kind = .int ∧ t.literal ≠ "" ∧ (∀ c ∈ t.literal.toList, c.isDigit) ∧
      n.toInt = Text.decimalValue t.literal.toList
  | expr (.bool t b) => t = if b then ⟨.trueWord, "true"⟩ else ⟨.falseWord, "false"⟩
  | expr (.unary t op _) => t ∈ [⟨.bang, "!"⟩, ⟨.minus, "-"⟩] ∧ op = t.literal
  | expr (.binary t _ op _) =>
      t ∈ [⟨.eq, "=="⟩, ⟨.notEq, "!="⟩, ⟨.lt, "<"⟩, ⟨.gt, ">"⟩, ⟨.plus, "+"⟩, ⟨.minus, "-"⟩,
        ⟨.asterisk, "*"⟩, ⟨.slash, "/"⟩] ∧ op = t.literal
  | expr (.cond t ..) => t = ⟨.ifWord, "if"⟩
  | expr (.function t ..) => t = ⟨.fnWord, "fn"⟩
  | expr (.call t ..) => t = ⟨.lparen, "("⟩
  | stmt (.letStmt t ..) => t = ⟨.letWord, "let"⟩
  | stmt (.returnStmt t _) => t = ⟨.returnWord, "return"⟩
  | stmt (.expr ..) | stmt (.block _) => True
  | block b => b.token = ⟨.lbrace, "\x7b"⟩

/-- The node as it is the root of a well-formed tree. -/
def WellFormed : Node → Prop
  | identifier x => x.WellFormed
  | expr e => e.WellFormed
  | stmt s => s.WellFormed
  | block b => b.WellFormed

end Node

/-- The node stands somewhere in the tree. -/
inductive Program.Contains (p : Program) : Node → Prop where
  | statement : s ∈ p.statements → Contains p (.stmt s)
  | child : Contains p m → m.Child m' → Contains p m'

/-! ## Well-formed nodes -/

/-- A reserved word is of its own kind. -/
theorem not_mem_keywords (h : Kind.ofWord s = .ident) : s ∉ Kind.keywords.map (·.1) := by
  intro hs
  have hall : ∀ w ∈ Kind.keywords.map (·.1), Kind.ofWord w ≠ .ident := by decide
  exact hall s hs h

theorem toInt_of_integer? {literal : String} (h : integer? literal = some n) :
    n.toInt = Text.decimalValue literal.toList :=
  toInt64?_eq_some_iff.mp h

theorem Expr.EachWellFormed.mem (h : Expr.EachWellFormed es) (he : e ∈ es) : e.WellFormed := by
  induction es with
  | nil => cases he
  | cons e' es ih =>
    cases he with
    | head => exact h.1
    | tail _ he => exact ih h.2 he

theorem Stmt.EachWellFormed.mem (h : Stmt.EachWellFormed ss) (hs : s ∈ ss) : s.WellFormed := by
  induction ss with
  | nil => cases hs
  | cons s' ss ih =>
    cases hs with
    | head => exact h.1
    | tail _ hs => exact ih h.2 hs

namespace Node

theorem WellFormed.child {m m' : Node} (h : m.WellFormed) (hc : m.Child m') : m'.WellFormed := by
  cases hc with
  | name | exprValue | blockBody => exact h
  | unary => exact h.2.2
  | left => exact h.2.2.2.1
  | right => exact h.2.2.2.2
  | @condition _ _ _ alt => cases alt <;> exact h.2.1
  | @consequence _ _ _ alt =>
    cases alt with
    | none => exact h.2.2
    | some a => exact h.2.2.1
  | alternative => exact h.2.2.2
  | parameter hx => exact h.2.1 _ hx
  | body => exact h.2.2
  | callee => exact h.2.1
  | argument he => exact Expr.EachWellFormed.mem h.2.2 he
  | letName => exact h.2.1
  | letValue => exact h.2.2
  | returnValue => exact h.2
  | statement hs => exact Stmt.EachWellFormed.mem h.2 hs

theorem WellFormed.consistent {m : Node} (h : m.WellFormed) : m.Consistent := by
  cases m with
  | identifier x =>
    obtain ⟨hx, hk, hne, hletters, hword⟩ := h
    have hname : x.name = x.token.literal := by rw [hx]; rfl
    rw [← hname] at hne hletters hword
    refine ⟨hk, hname, fun heq => hne (heq ▸ rfl), fun c hc => ?_, not_mem_keywords hword⟩
    simpa [isWordLetter] using List.all_eq_true.mp hletters c hc
  | expr e =>
    cases e with
    | ident => trivial
    | int t n =>
      obtain ⟨hk, ⟨hne, hdigits⟩, hn⟩ := h
      exact ⟨hk, fun heq => hne (heq ▸ rfl), List.all_eq_true.mp hdigits, toInt_of_integer? hn⟩
    | bool t b => cases b <;> exact h
    | unary t op e =>
      obtain ⟨rfl | rfl, hop, -⟩ := h
      · exact ⟨.head _, hop⟩
      · exact ⟨.tail _ (.head _), hop⟩
    | binary t l op r =>
      obtain ⟨hk, ht, hop, -⟩ := h
      exact ⟨ht ▸ List.mem_map_of_mem (f := Kind.token) hk, hop⟩
    | cond t c b alt => cases alt <;> exact h.1
    | function | call => exact h.1
  | stmt s =>
    cases s with
    | letStmt | returnStmt => exact h.1
    | expr | block => trivial
  | block b =>
    obtain ⟨t, ss⟩ := b
    exact h.1

end Node

/-- Every node of a tree, at any depth, is consistent with its token, also where the text has
errors. -/
theorem parse_consistent (source : String) {m : Node} (h : (parse source).1.Contains m) :
    m.Consistent := by
  suffices hw : m.WellFormed from hw.consistent
  induction h with
  | statement hs => exact Stmt.EachWellFormed.mem (parse_wellFormed source) hs
  | child _ hc ih => exact ih.child hc

/-- Whether some statements start with a function that is bound and whose body negates its last
operand. -/
def startNegating : List Stmt → Bool
  | .letStmt _ _ (.function _ _ ⟨_, [.expr _ (.binary _ _ _ (.unary ..))]⟩) :: _ => true
  | _ => false

/-- Such a function, and then a statement that does not parse. -/
def negationThenError : String := "let f = fn(y) \x7b y == -1 \x7d; let = 3"

theorem parse_consistent_negationThenError :
    (parse negationThenError).2 ≠ [] ∧ ∃ t op e,
      (parse negationThenError).1.Contains (.expr (.unary t op e)) ∧
      (Node.expr (.unary t op e)).Consistent := by
  have hshape : startNegating (parse negationThenError).1.statements = true := by decide +kernel
  refine ⟨by decide +kernel, ?_⟩
  unfold startNegating at hshape
  split at hshape
  · next t x t₁ xs t₂ t₃ t₄ l op t₅ op' e ss heq =>
    have hlet := Program.Contains.statement (p := (parse negationThenError).1)
      (heq ▸ List.mem_cons_self)
    have hunary := hlet.child .letValue |>.child .body |>.child (.statement List.mem_cons_self)
      |>.child .exprValue |>.child .right
    exact ⟨t₅, op', e, hunary, parse_consistent _ hunary⟩
  · cases hshape

end MonkeyLang
