import Mathlib.Logic.Basic
import MonkeyLang.Proofs.Syntax.WellFormed

/-!
# Printing trees as tokens

`Prints` relates a tree to the tokens it can be written with: parentheses where the binding powers
need them, and as many more as one likes around any expression. There are also rules for trees that
have the token of each expression statement right, which is the first one it is written with: every
way to write a tree is a way to write such a tree (`Prints.exists_marked`).
-/

namespace MonkeyLang

/-- The binding power of the outermost operator of an expression; the highest if there is none. -/
def Expr.level : Expr → Precedence
  | .unary .. => .unary
  | .binary t .. => .ofKind t.kind
  | _ => .call

/-- What is printed. -/
inductive Phrase where
  /-- An expression in a place where it needs parentheses if its level is below a rank. -/
  | expression (least : Nat)
  /-- An expression without parentheses around it. -/
  | bare
  | arguments | moreArguments | statements | statement

namespace Phrase

abbrev Tree : Phrase → Type
  | expression _ | bare => Expr
  | arguments | moreArguments => List Expr
  | statements => List Stmt
  | statement => Stmt

/-- The tree without the tokens of its expression statements. -/
def unmarked : (g : Phrase) → g.Tree → g.Tree
  | expression _, e | bare, e => e.unmarked
  | arguments, es | moreArguments, es => Expr.eachUnmarked es
  | statements, ss => Stmt.eachUnmarked ss
  | statement, s => s.unmarked

def WellFormed : (g : Phrase) → g.Tree → Prop
  | expression _, e | bare, e => e.WellFormed
  | arguments, es | moreArguments, es => Expr.EachWellFormed es
  | statements, ss => Stmt.EachWellFormed ss
  | statement, s => s.WellFormed

end Phrase

/-- Parameters with commas between them. -/
def parameterTokens : List Identifier → List Token
  | [] => []
  | x :: xs => x.token :: xs.flatMap fun y => [Kind.comma.token, y.token]

/-- The tokens that a tree can be written with. If `marked` holds then the token of an expression
statement is the first that it is written with. -/
inductive Prints (marked : Prop) : (g : Phrase) → g.Tree → List Token → Prop where
  | bare : least ≤ e.level.rank → Prints marked .bare e ts → Prints marked (.expression least) e ts
  | parens : Prints marked (.expression 0) e ts →
    Prints marked (.expression least) e (Kind.lparen.token :: (ts ++ [Kind.rparen.token]))
  | ident : Prints marked .bare (.ident x) [x.token]
  | int : Prints marked .bare (.int t n) [t]
  | bool : Prints marked .bare (.bool t b) [t]
  /-- An operator between operands needs parentheses under one before its operand. -/
  | unary : Prints marked (.expression Precedence.unary.rank) e ts →
    Prints marked .bare (.unary t op e) (t :: ts)
  /-- On the left a lower operator needs parentheses, on the right also one of the same power. -/
  | binary : Prints marked (.expression (Precedence.ofKind t.kind).rank) l ts →
    Prints marked (.expression ((Precedence.ofKind t.kind).rank + 1)) r ts' →
    Prints marked .bare (.binary t l op r) (ts ++ t :: ts')
  | cond : Prints marked (.expression 0) c ts → Prints marked .statements ss ts₁ →
    Prints marked .bare (.cond t c ⟨w, ss⟩ none)
      (t :: Kind.lparen.token :: (ts ++ Kind.rparen.token :: w :: (ts₁ ++ [Kind.rbrace.token])))
  | condElse : Prints marked (.expression 0) c ts → Prints marked .statements ss ts₁ →
    Prints marked .statements ss' ts₂ →
    Prints marked .bare (.cond t c ⟨w, ss⟩ (some ⟨y, ss'⟩))
      (t :: Kind.lparen.token :: (ts ++ Kind.rparen.token :: w :: (ts₁ ++ Kind.rbrace.token ::
        Kind.elseWord.token :: y :: (ts₂ ++ [Kind.rbrace.token]))))
  | function : Prints marked .statements ss ts →
    Prints marked .bare (.function t xs ⟨w, ss⟩)
      (t :: Kind.lparen.token :: (parameterTokens xs ++ Kind.rparen.token :: w ::
        (ts ++ [Kind.rbrace.token])))
  /-- Any operator needs parentheses where a function is called. -/
  | call : Prints marked (.expression Precedence.call.rank) f ts → Prints marked .arguments es ts' →
    Prints marked .bare (.call t f es) (ts ++ t :: (ts' ++ [Kind.rparen.token]))
  | noArguments : Prints marked .arguments [] []
  | arguments : Prints marked (.expression 0) e ts → Prints marked .moreArguments es ts' →
    Prints marked .arguments (e :: es) (ts ++ ts')
  | lastArgument : Prints marked .moreArguments [] []
  | nextArgument : Prints marked (.expression 0) e ts → Prints marked .moreArguments es ts' →
    Prints marked .moreArguments (e :: es) (Kind.comma.token :: (ts ++ ts'))
  | noStatements : Prints marked .statements [] []
  | statements : Prints marked .statement s ts → Prints marked .statements ss ts' →
    Prints marked .statements (s :: ss) (ts ++ ts')
  | letStmt : Prints marked (.expression 0) e ts →
    Prints marked .statement (.letStmt t x e)
      (t :: x.token :: Kind.assign.token :: (ts ++ [Kind.semicolon.token]))
  | returnStmt : Prints marked (.expression 0) e ts →
    Prints marked .statement (.returnStmt t e) (t :: (ts ++ [Kind.semicolon.token]))
  | exprStmt : (marked → ts.head? = some t) → Prints marked (.expression 0) e ts →
    Prints marked .statement (.expr t e) (ts ++ [Kind.semicolon.token])
  | block : Prints marked .statements ss ts →
    Prints marked .statement (.block ⟨w, ss⟩) (w :: (ts ++ [Kind.rbrace.token]))

/-- The tokens that a program can be written with. -/
def Program.Prints (marked : Prop) (p : Program) (ts : List Token) : Prop :=
  MonkeyLang.Prints marked .statements p.statements ts

theorem Prints.parens_bare (h : Prints marked .bare e ts) :
    Prints marked (.expression least) e (Kind.lparen.token :: (ts ++ [Kind.rparen.token])) :=
  .parens (.bare (Nat.zero_le _) h)

mutual

/-- Every expression can be written. -/
theorem Expr.exists_prints : ∀ e : Expr, ∃ ts, Prints False .bare e ts
  | .ident _ => ⟨_, .ident⟩
  | .int .. => ⟨_, .int⟩
  | .bool .. => ⟨_, .bool⟩
  | .unary _ _ e => by
    obtain ⟨ts, h⟩ := e.exists_prints
    exact ⟨_, .unary h.parens_bare⟩
  | .binary _ l _ r => by
    obtain ⟨ts, h⟩ := l.exists_prints
    obtain ⟨ts', h'⟩ := r.exists_prints
    exact ⟨_, .binary h.parens_bare h'.parens_bare⟩
  | .cond _ c ⟨_, ss⟩ none => by
    obtain ⟨ts, h⟩ := c.exists_prints
    obtain ⟨ts₁, h₁⟩ := Stmt.exists_prints_statements ss
    exact ⟨_, .cond h.parens_bare h₁⟩
  | .cond _ c ⟨_, ss⟩ (some ⟨_, ss'⟩) => by
    obtain ⟨ts, h⟩ := c.exists_prints
    obtain ⟨ts₁, h₁⟩ := Stmt.exists_prints_statements ss
    obtain ⟨ts₂, h₂⟩ := Stmt.exists_prints_statements ss'
    exact ⟨_, .condElse h.parens_bare h₁ h₂⟩
  | .function _ _ ⟨_, ss⟩ => by
    obtain ⟨ts, h⟩ := Stmt.exists_prints_statements ss
    exact ⟨_, .function h⟩
  | .call _ f es => by
    obtain ⟨ts, h⟩ := f.exists_prints
    obtain ⟨ts', h'⟩ := Expr.exists_prints_arguments es
    exact ⟨_, .call h.parens_bare h'⟩

theorem Expr.exists_prints_arguments : ∀ es : List Expr, ∃ ts, Prints False .arguments es ts
  | [] => ⟨_, .noArguments⟩
  | e :: es => by
    obtain ⟨ts, h⟩ := e.exists_prints
    obtain ⟨ts', h'⟩ := Expr.exists_prints_moreArguments es
    exact ⟨_, .arguments h.parens_bare h'⟩

theorem Expr.exists_prints_moreArguments : ∀ es : List Expr, ∃ ts, Prints False .moreArguments es ts
  | [] => ⟨_, .lastArgument⟩
  | e :: es => by
    obtain ⟨ts, h⟩ := e.exists_prints
    obtain ⟨ts', h'⟩ := Expr.exists_prints_moreArguments es
    exact ⟨_, .nextArgument h.parens_bare h'⟩

theorem Stmt.exists_prints : ∀ s : Stmt, ∃ ts, Prints False .statement s ts
  | .letStmt _ _ e => by
    obtain ⟨ts, h⟩ := e.exists_prints
    exact ⟨_, .letStmt h.parens_bare⟩
  | .returnStmt _ e => by
    obtain ⟨ts, h⟩ := e.exists_prints
    exact ⟨_, .returnStmt h.parens_bare⟩
  | .expr _ e => by
    obtain ⟨ts, h⟩ := e.exists_prints
    exact ⟨_, .exprStmt False.elim h.parens_bare⟩
  | .block ⟨_, ss⟩ => by
    obtain ⟨ts, h⟩ := Stmt.exists_prints_statements ss
    exact ⟨_, .block h⟩

theorem Stmt.exists_prints_statements : ∀ ss : List Stmt, ∃ ts, Prints False .statements ss ts
  | [] => ⟨_, .noStatements⟩
  | s :: ss => by
    obtain ⟨ts, h⟩ := s.exists_prints
    obtain ⟨ts', h'⟩ := Stmt.exists_prints_statements ss
    exact ⟨_, .statements h h'⟩

end

/-- Every program can be written. -/
theorem Program.exists_prints (p : Program) : ∃ ts, p.Prints False ts :=
  Stmt.exists_prints_statements p.statements

theorem Expr.level_unmarked (e : Expr) : e.unmarked.level = e.level := by
  cases e with
  | cond _ _ _ a => cases a <;> rfl
  | _ => rfl

theorem Prints.ne_nil {e : Expr} (h : Prints marked (.expression least) e ts) : ts ≠ [] := by
  cases h with
  | bare _ h => cases h <;> simp
  | parens => simp

/-- Every way to write a tree is one to write a tree with the right tokens in its expression
statements. -/
theorem Prints.exists_marked (h : Prints False g a ts) :
    ∃ a', g.unmarked a' = g.unmarked a ∧ Prints True g a' ts := by
  induction h with
  | @bare least e ts hl _ ih =>
    obtain ⟨e', he, h⟩ := ih
    have hlevel : e'.unmarked.level = e.unmarked.level := congrArg Expr.level he
    rw [Expr.level_unmarked, Expr.level_unmarked] at hlevel
    exact ⟨e', he, .bare (hlevel ▸ hl) h⟩
  | parens _ ih =>
    obtain ⟨e', he, h⟩ := ih
    exact ⟨e', he, .parens h⟩
  | ident => exact ⟨_, rfl, .ident⟩
  | int => exact ⟨_, rfl, .int⟩
  | bool => exact ⟨_, rfl, .bool⟩
  | unary _ ih =>
    obtain ⟨e', he, h⟩ := ih
    exact ⟨.unary _ _ e', congrArg (Expr.unary _ _) he, .unary h⟩
  | binary _ _ ih ih' =>
    obtain ⟨l', hl, h⟩ := ih
    obtain ⟨r', hr, h'⟩ := ih'
    exact ⟨.binary _ l' _ r', congrArg₂ (Expr.binary _ · _ ·) hl hr, .binary h h'⟩
  | cond _ _ ih ih' =>
    obtain ⟨c', hc, h⟩ := ih
    obtain ⟨ss₁, hss, h'⟩ := ih'
    exact ⟨.cond _ c' ⟨_, ss₁⟩ none, congrArg₂ (fun c ss => Expr.cond _ c ⟨_, ss⟩ none) hc hss,
      .cond h h'⟩
  | @condElse _ _ _ _ _ _ t w y _ _ _ ih ih' ih'' =>
    obtain ⟨c', hc, h⟩ := ih
    obtain ⟨ss₁, hss, h'⟩ := ih'
    obtain ⟨ss₂, hss', h''⟩ := ih''
    refine ⟨.cond t c' ⟨w, ss₁⟩ (some ⟨y, ss₂⟩), ?_, .condElse h h' h''⟩
    simp only [Phrase.unmarked, Expr.unmarked, Block.unmarked] at hc hss hss' ⊢
    rw [hc, hss, hss']
  | function _ ih =>
    obtain ⟨ss₁, hss, h⟩ := ih
    exact ⟨.function _ _ ⟨_, ss₁⟩, congrArg (fun ss => Expr.function _ _ ⟨_, ss⟩) hss, .function h⟩
  | call _ _ ih ih' =>
    obtain ⟨f', hf, h⟩ := ih
    obtain ⟨es', hes, h'⟩ := ih'
    exact ⟨.call _ f' es', congrArg₂ (Expr.call _ · ·) hf hes, .call h h'⟩
  | noArguments => exact ⟨[], rfl, .noArguments⟩
  | arguments _ _ ih ih' =>
    obtain ⟨e', he, h⟩ := ih
    obtain ⟨es', hes, h'⟩ := ih'
    exact ⟨e' :: es', congrArg₂ List.cons he hes, .arguments h h'⟩
  | lastArgument => exact ⟨[], rfl, .lastArgument⟩
  | nextArgument _ _ ih ih' =>
    obtain ⟨e', he, h⟩ := ih
    obtain ⟨es', hes, h'⟩ := ih'
    exact ⟨e' :: es', congrArg₂ List.cons he hes, .nextArgument h h'⟩
  | noStatements => exact ⟨[], rfl, .noStatements⟩
  | statements _ _ ih ih' =>
    obtain ⟨s', hs, h⟩ := ih
    obtain ⟨ss', hss, h'⟩ := ih'
    exact ⟨s' :: ss', congrArg₂ List.cons hs hss, .statements h h'⟩
  | letStmt _ ih =>
    obtain ⟨e', he, h⟩ := ih
    exact ⟨.letStmt _ _ e', congrArg (Stmt.letStmt _ _) he, .letStmt h⟩
  | returnStmt _ ih =>
    obtain ⟨e', he, h⟩ := ih
    exact ⟨.returnStmt _ e', congrArg (Stmt.returnStmt _) he, .returnStmt h⟩
  | exprStmt _ _ ih =>
    obtain ⟨e', he, h⟩ := ih
    obtain ⟨t, ts, hts⟩ := List.exists_cons_of_ne_nil h.ne_nil
    exact ⟨.expr t e', congrArg (Stmt.expr _) he, .exprStmt (fun _ => by rw [hts]; rfl) h⟩
  | block _ ih =>
    obtain ⟨ss', hss, h⟩ := ih
    exact ⟨.block ⟨_, ss'⟩, congrArg (fun ss => Stmt.block ⟨_, ss⟩) hss, .block h⟩

end MonkeyLang
