import MonkeyLang.Proofs.Parser.Outcome

/-!
# Error-free parses

`Reads g ts a ts'` is a parse without errors as a relation, free of budgets and of the state of the
parser: the goal `g` turns the tokens `ts` into `a` and leaves `ts'`. There is a rule for each way
through a production that records no error. `Reads.run` says that the productions follow the rules.
-/

namespace MonkeyLang

/-- What is to be parsed. -/
inductive Goal where
  | parameters | moreParameters
  | expression (power : Precedence)
  | operators (power : Precedence) (left : Expr)
  | operand | moreArguments | statements | statement | program

namespace Goal

abbrev Result : Goal → Type
  | parameters | moreParameters => List Identifier
  | expression _ | operators .. | operand => Expr
  | moreArguments => List Expr
  | statements | program => List Stmt
  | statement => Stmt

end Goal

/-- A parse without errors. -/
inductive Reads : (g : Goal) → List Token → g.Result → List Token → Prop where
  | noParameters : t.kind = .rparen → Reads .parameters (t :: ts) [] ts
  | parameters : t.kind = .ident → Reads .moreParameters ts xs ts' →
    Reads .parameters (t :: ts) (.ofToken t :: xs) ts'
  | lastParameter : t.kind = .rparen → Reads .moreParameters (t :: ts) [] ts
  | nextParameter : t.kind = .comma → u.kind = .ident → Reads .moreParameters ts xs ts' →
    Reads .moreParameters (t :: u :: ts) (.ofToken u :: xs) ts'
  | expression : Reads .operand ts l ts₁ → Reads (.operators power l) ts₁ e ts' →
    Reads (.expression power) ts e ts'
  | stop : ¬power < .ofKind (kindOf ts) → Reads (.operators power l) ts l ts
  | binary : power < .ofKind t.kind → t.kind ≠ .lparen →
    Reads (.expression (.ofKind t.kind)) ts r ts₁ →
    Reads (.operators power (.binary t l t.literal r)) ts₁ e ts' →
    Reads (.operators power l) (t :: ts) e ts'
  | callEmpty : power < .call → t.kind = .lparen → u.kind = .rparen →
    Reads (.operators power (.call t l [])) ts e ts' →
    Reads (.operators power l) (t :: u :: ts) e ts'
  | call : power < .call → t.kind = .lparen → kindOf ts ≠ .rparen →
    Reads (.expression .lowest) ts a ts₁ → Reads .moreArguments ts₁ as ts₂ →
    Reads (.operators power (.call t l (a :: as))) ts₂ e ts' →
    Reads (.operators power l) (t :: ts) e ts'
  | ident : t.kind = .ident → Reads .operand (t :: ts) (.ident (.ofToken t)) ts
  | int : t.kind = .int → integer? t.literal = some n → Reads .operand (t :: ts) (.int t n) ts
  | true : t.kind = .trueWord → Reads .operand (t :: ts) (.bool t true) ts
  | false : t.kind = .falseWord → Reads .operand (t :: ts) (.bool t false) ts
  | unary : t.kind = .bang ∨ t.kind = .minus → Reads (.expression .unary) ts e ts' →
    Reads .operand (t :: ts) (.unary t t.literal e) ts'
  | group : t.kind = .lparen → Reads (.expression .lowest) ts e (u :: ts') → u.kind = .rparen →
    Reads .operand (t :: ts) e ts'
  | cond : t.kind = .ifWord → u.kind = .lparen →
    Reads (.expression .lowest) ts c (v :: w :: ts₁) → v.kind = .rparen → w.kind = .lbrace →
    Reads .statements ts₁ ss ts' → kindOf ts' ≠ .elseWord →
    Reads .operand (t :: u :: ts) (.cond t c ⟨w, ss⟩ none) ts'
  | condElse : t.kind = .ifWord → u.kind = .lparen →
    Reads (.expression .lowest) ts c (v :: w :: ts₁) → v.kind = .rparen → w.kind = .lbrace →
    Reads .statements ts₁ ss (x :: y :: ts₂) → x.kind = .elseWord → y.kind = .lbrace →
    Reads .statements ts₂ ss' ts' →
    Reads .operand (t :: u :: ts) (.cond t c ⟨w, ss⟩ (some ⟨y, ss'⟩)) ts'
  | function : t.kind = .fnWord → u.kind = .lparen → Reads .parameters ts xs (w :: ts₁) →
    w.kind = .lbrace → Reads .statements ts₁ ss ts' →
    Reads .operand (t :: u :: ts) (.function t xs ⟨w, ss⟩) ts'
  | lastArgument : t.kind = .rparen → Reads .moreArguments (t :: ts) [] ts
  | nextArgument : t.kind = .comma → Reads (.expression .lowest) ts e ts₁ →
    Reads .moreArguments ts₁ es ts' → Reads .moreArguments (t :: ts) (e :: es) ts'
  | endOfStatements : kindOf ts = .rbrace ∨ kindOf ts = .eof → Reads .statements ts [] ts.tail
  | statements : t.kind ≠ .rbrace → t.kind ≠ .eof → Reads .statement (t :: ts) s ts₁ →
    Reads .statements ts₁ ss ts' → Reads .statements (t :: ts) (s :: ss) ts'
  | letStmt : t.kind = .letWord → u.kind = .ident → v.kind = .assign →
    Reads (.expression .lowest) ts e ts' →
    Reads .statement (t :: u :: v :: ts) (.letStmt t (.ofToken u) e) (dropSemicolon ts')
  | returnStmt : t.kind = .returnWord → Reads (.expression .lowest) ts e ts' →
    Reads .statement (t :: ts) (.returnStmt t e) (dropSemicolon ts')
  | blockStmt : t.kind = .lbrace → Reads .statements ts ss ts' →
    Reads .statement (t :: ts) (.block ⟨t, ss⟩) ts'
  | exprStmt : t.kind ≠ .letWord → t.kind ≠ .returnWord → t.kind ≠ .lbrace →
    Reads (.expression .lowest) (t :: ts) e ts' →
    Reads .statement (t :: ts) (.expr t e) (dropSemicolon ts')
  | endOfProgram : kindOf ts = .eof → Reads .program ts [] ts.tail
  | program : t.kind ≠ .eof → Reads .statement (t :: ts) s ts₁ → Reads .program ts₁ ss ts' →
    Reads .program (t :: ts) (s :: ss) ts'

namespace Goal

open MonkeyLang.Parser in
/-- The production of a goal. -/
@[simp] def run : (g : Goal) → Nat → Production g.Result
  | parameters, n => Parser.parameters n
  | moreParameters, n => Parser.moreParameters n
  | expression power, n => Parser.expression n power
  | operators power left, n => Parser.operators n power left
  | operand, n => Parser.operand n
  | moreArguments, n => Parser.moreArguments n
  | statements, n => blockStatements n
  | statement, n => Parser.statement n
  | program, n => programStatements n

/-- The tokens that a goal starts with. What goes on with a construct looks beyond the last token of
what is there. -/
@[simp] def input (g : Goal) (p : Parser) : List Token :=
  match g with
  | parameters | moreParameters | operators .. | moreArguments => p.tokens.tail
  | _ => p.tokens

/-- What a goal needs beyond three times the number of tokens. -/
@[simp] def cost : Goal → Nat
  | parameters | moreParameters | operators .. | operand | moreArguments => 1
  | expression _ => 2
  | statement => 3
  | statements | program => 4

end Goal

end MonkeyLang
