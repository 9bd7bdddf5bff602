import MonkeyLang.Proofs.Parser.Seam

/-!
# The attempts at statements, recorded

A statement that cannot be read is dropped by the list that it stands in, and nothing in the outcome of
a parse tells that it was tried. Here are the productions once more, with a record: a `Recording` also
gives the attempts that it makes, and only the two lists of statements make any (`Recording.attempt`).
Without the record they are the productions of the parser (`Recording.plain_programStatements`), so that
the record is that of a parse (`attempts`).
-/

namespace MonkeyLang

namespace Parser

/-- An attempt at a statement: the states before and after it, the statement that came of it unless it
was dropped, and the attempts in its blocks, which were made in the meantime. -/
structure Attempt where
  before : Parser
  after : Parser
  statement? : Option Stmt
  inside : List Attempt

/-- A production that gives a record of the attempts that it makes, one after the other. -/
def Recording (α : Type) := Parser → List Attempt × Outcome α

namespace Recording

instance : Monad Recording where
  pure a := fun p => ([], .done a p)
  bind x f := fun p =>
    match x p with
    | (as, .done b q) => (as ++ (f b q).1, (f b q).2)
    | (as, .failed q) => (as, .failed q)
    | (as, .exhausted) => (as, .exhausted)

theorem bind_apply (x : Recording α) (f : α → Recording β) (p : Parser) :
    (x >>= f) p =
      match x p with
      | (as, .done b q) => (as ++ (f b q).1, (f b q).2)
      | (as, .failed q) => (as, .failed q)
      | (as, .exhausted) => (as, .exhausted) := rfl

/-- A production that makes no attempts. -/
def lift (x : Production α) : Recording α := fun p => ([], x p)

theorem lift_pure (a : α) : lift (pure a) = pure a := rfl

theorem lift_bind (x : Production α) (f : α → Production β) :
    lift (x >>= f) = lift x >>= fun a => lift (f a) := by
  funext p
  simp only [bind_apply, lift, Parser.bind_apply]
  cases x p <;> rfl

theorem lift_ite [Decidable c] (x y : Production α) :
    lift (if c then x else y) = if c then lift x else lift y := by
  split <;> rfl

/-- Runs a production whose failure only drops its own statement. What was recorded in the meantime
becomes part of the attempt. -/
def attempt (x : Recording Stmt) : Recording (Option Stmt) := fun p =>
  match x p with
  | (as, .done s q) => ([⟨p, q, some s, as⟩], .done (some s) q)
  | (as, .failed q) => ([⟨p, q, none, as⟩], .done none q)
  | (as, .exhausted) => (as, .exhausted)

mutual

def expression (n : Nat) (power : Precedence) : Recording Expr :=
  match n with
  | 0 => lift outOfBudget
  | n + 1 => do
    let left ← operand n
    operators n power left

def operators (n : Nat) (power : Precedence) (left : Expr) : Recording Expr :=
  match n with
  | 0 => lift outOfBudget
  | n + 1 => do
    let kind ← lift nextKind
    if power < .ofKind kind then
      lift skip
      let left ← if kind = .lparen then callOf n left else binary n left
      operators n power left
    else pure left

def operand (n : Nat) : Recording Expr :=
  match n with
  | 0 => lift outOfBudget
  | n + 1 => do
    let t ← lift currentToken
    lift (note .trace fun _ => "Prefix dispatch on " ++ t.kind.name)
    match t.kind with
    | .ident => pure (.ident (.ofToken t))
    | .int => lift integer
    | .trueWord => pure (.bool t true)
    | .falseWord => pure (.bool t false)
    | .bang | .minus => unary n
    | .lparen => group n
    | .ifWord => conditional n
    | .fnWord => functionLiteral n
    | kind => lift (fail (.noOperand kind))

def unary (n : Nat) : Recording Expr :=
  match n with
  | 0 => lift outOfBudget
  | n + 1 => do
    let t ← lift currentToken
    lift skip
    let right ← expression n .unary
    pure (.unary t t.literal right)

def binary (n : Nat) (left : Expr) : Recording Expr :=
  match n with
  | 0 => lift outOfBudget
  | n + 1 => do
    let t ← lift currentToken
    lift skip
    let right ← expression n (.ofKind t.kind)
    pure (.binary t left t.literal right)

def group (n : Nat) : Recording Expr :=
  match n with
  | 0 => lift outOfBudget
  | n + 1 => do
    lift skip
    let e ← expression n .lowest
    lift (expect .rparen)
    pure e

def conditional (n : Nat) : Recording Expr :=
  match n with
  | 0 => lift outOfBudget
  | n + 1 => do
    lift (note .debug fun _ => "Entering if expression")
    let t ← lift currentToken
    lift (expect .lparen)
    lift skip
    let condition ← expression n .lowest
    lift (expect .rparen)
    lift (expect .lbrace)
    let consequence ← block n
    if ← lift (skipIf .elseWord) then
      lift (expect .lbrace)
      let alternative ← block n
      pure (.cond t condition consequence (some alternative))
    else pure (.cond t condition consequence none)

def functionLiteral (n : Nat) : Recording Expr :=
  match n with
  | 0 => lift outOfBudget
  | n + 1 => do
    lift (note .debug fun _ => "Entering function literal")
    let t ← lift currentToken
    lift (expect .lparen)
    let ids ← lift (parameters n)
    lift (expect .lbrace)
    let body ← block n
    pure (.function t ids body)

def callOf (n : Nat) (callee : Expr) : Recording Expr :=
  match n with
  | 0 => lift outOfBudget
  | n + 1 => do
    let t ← lift currentToken
    if ← lift (skipIf .rparen) then pure (.call t callee [])
    else
      lift skip
      let e ← expression n .lowest
      let es ← moreArguments n
      pure (.call t callee (e :: es))

def moreArguments (n : Nat) : Recording (List Expr) :=
  match n with
  | 0 => lift outOfBudget
  | n + 1 => do
    if ← lift (skipIf .comma) then
      lift skip
      let e ← expression n .lowest
      let es ← moreArguments n
      pure (e :: es)
    else
      lift (expect .rparen)
      pure []

def block (n : Nat) : Recording Block :=
  match n with
  | 0 => lift outOfBudget
  | n + 1 => do
    lift (note .debug fun _ => "Entering block")
    let t ← lift currentToken
    lift skip
    let ss ← blockStatements n
    pure ⟨t, ss⟩

def blockStatements (n : Nat) : Recording (List Stmt) :=
  match n with
  | 0 => lift outOfBudget
  | n + 1 => do
    let t ← lift currentToken
    if t.kind = .rbrace ∨ t.kind = .eof then pure []
    else
      let s ← attempt (statement n)
      lift skip
      let ss ← blockStatements n
      pure (s.toList ++ ss)

def statement (n : Nat) : Recording Stmt :=
  match n with
  | 0 => lift outOfBudget
  | n + 1 => do
    let t ← lift currentToken
    match t.kind with
    | .letWord => letStatement n
    | .returnWord => returnStatement n
    | .lbrace =>
      let b ← block n
      pure (.block b)
    | _ =>
      let e ← expression n .lowest
      let _ ← lift (skipIf .semicolon)
      pure (.expr t e)

def letStatement (n : Nat) : Recording Stmt :=
  match n with
  | 0 => lift outOfBudget
  | n + 1 => do
    lift (note .debug fun _ => "Entering let statement")
    let t ← lift currentToken
    lift (expect .ident)
    let id := Identifier.ofToken (← lift currentToken)
    lift (expect .assign)
    lift skip
    let e ← expression n .lowest
    let _ ← lift (skipIf .semicolon)
    pure (.letStmt t id e)

def returnStatement (n : Nat) : Recording Stmt :=
  match n with
  | 0 => lift outOfBudget
  | n + 1 => do
    lift (note .debug fun _ => "Entering return statement")
    let t ← lift currentToken
    lift skip
    let e ← expression n .lowest
    let _ ← lift (skipIf .semicolon)
    pure (.returnStmt t e)

end

def programStatements (n : Nat) : Recording (List Stmt) :=
  match n with
  | 0 => lift outOfBudget
  | n + 1 => do
    let t ← lift currentToken
    if t.kind = .eof then pure []
    else
      let s ← attempt (statement n)
      if let some s := s then lift (note .debug fun _ => "Parsed statement: " ++ s.render)
      lift skip
      let ss ← programStatements n
      pure (s.toList ++ ss)

/-! ## Without the record -/

/-- The production without the record. -/
def plain (x : Recording α) : Production α := fun p => (x p).2

@[simp] theorem plain_pure (a : α) : plain (pure a : Recording α) = pure a := rfl

@[simp] theorem plain_lift (x : Production α) : plain (lift x) = x := rfl

@[simp] theorem plain_bind (x : Recording α) (f : α → Recording β) :
    plain (x >>= f) = plain x >>= fun a => plain (f a) := by
  funext p
  simp only [plain, bind_apply, Parser.bind_apply]
  rcases x p with ⟨as, _ | _ | _⟩ <;> rfl

@[simp] theorem plain_ite [Decidable c] (x y : Recording α) :
    plain (if c then x else y) = if c then plain x else plain y := by
  split <;> rfl

@[simp] theorem plain_attempt (x : Recording Stmt) :
    plain (attempt x) = Parser.attempt (plain x) := by
  funext p
  simp only [plain, attempt, Parser.attempt]
  rcases x p with ⟨as, _ | _ | _⟩ <;> rfl

mutual

theorem plain_expression (power : Precedence) :
    ∀ n, plain (expression n power) = Parser.expression n power
  | 0 => rfl
  | n + 1 => by
    simp only [expression, Parser.expression, atLevel_eq, plain_bind, plain_operand n,
      plain_operators power _ n]
termination_by structural n => n

theorem plain_operators (power : Precedence) (l : Expr) :
    ∀ n, plain (operators n power l) = Parser.operators n power l
  | 0 => rfl
  | n + 1 => by
    simp only [operators, Parser.operators, plain_bind, plain_lift, plain_pure, plain_ite,
      plain_callOf _ n, plain_binary _ n, plain_operators power _ n]
termination_by structural n => n

theorem plain_operand : ∀ n, plain (operand n) = Parser.operand n
  | 0 => rfl
  | n + 1 => by
    simp only [operand, Parser.operand, plain_bind, plain_lift]
    congr
    funext t
    congr
    funext _
    cases t.kind with
    | bang | minus => exact plain_unary n
    | lparen => exact plain_group n
    | ifWord => exact plain_conditional n
    | fnWord => exact plain_functionLiteral n
    | _ => rfl
termination_by structural n => n

theorem plain_unary : ∀ n, plain (unary n) = Parser.unary n
  | 0 => rfl
  | n + 1 => by
    simp only [unary, Parser.unary, plain_bind, plain_lift, plain_pure, plain_expression _ n]
termination_by structural n => n

theorem plain_binary (l : Expr) : ∀ n, plain (binary n l) = Parser.binary n l
  | 0 => rfl
  | n + 1 => by
    simp only [binary, Parser.binary, plain_bind, plain_lift, plain_pure, plain_expression _ n]
termination_by structural n => n

theorem plain_group : ∀ n, plain (group n) = Parser.group n
  | 0 => rfl
  | n + 1 => by
    simp only [group, Parser.group, plain_bind, plain_lift, plain_pure, plain_expression _ n]
termination_by structural n => n

theorem plain_conditional : ∀ n, plain (conditional n) = Parser.conditional n
  | 0 => rfl
  | n + 1 => by
    simp only [conditional, Parser.conditional, plain_bind, plain_lift, plain_pure, plain_ite,
      plain_expression _ n, plain_block n]
termination_by structural n => n

theorem plain_functionLiteral : ∀ n, plain (functionLiteral n) = Parser.functionLiteral n
  | 0 => rfl
  | n + 1 => by
    simp only [functionLiteral, Parser.functionLiteral, plain_bind, plain_lift, plain_pure,
      plain_block n]
termination_by structural n => n

theorem plain_callOf (f : Expr) : ∀ n, plain (callOf n f) = Parser.callOf n f
  | 0 => rfl
  | n + 1 => by
    simp only [callOf, Parser.callOf, plain_bind, plain_lift, plain_pure, plain_ite,
      plain_expression _ n, plain_moreArguments n]
termination_by structural n => n

theorem plain_moreArguments : ∀ n, plain (moreArguments n) = Parser.moreArguments n
  | 0 => rfl
  | n + 1 => by
    simp only [moreArguments, Parser.moreArguments, plain_bind, plain_lift, plain_pure, plain_ite,
      plain_expression _ n, plain_moreArguments n]
termination_by structural n => n

theorem plain_block : ∀ n, plain (block n) = Parser.block n
  | 0 => rfl
  | n + 1 => by
    simp only [block, Parser.block, plain_bind, plain_lift, plain_pure, plain_blockStatements n]
termination_by structural n => n

theorem plain_blockStatements : ∀ n, plain (blockStatements n) = Parser.blockStatements n
  | 0 => rfl
  | n + 1 => by
    simp only [blockStatements, Parser.blockStatements, atLevel_eq, plain_bind, plain_lift,
      plain_pure, plain_ite, plain_attempt, plain_statement n, plain_blockStatements n]
termination_by structural n => n

theorem plain_statement : ∀ n, plain (statement n) = Parser.statement n
  | 0 => rfl
  | n + 1 => by
    simp only [statement, Parser.statement, plain_bind, plain_lift]
    congr
    funext t
    cases t.kind with
    | letWord => exact plain_letStatement n
    | returnWord => exact plain_returnStatement n
    | lbrace => simp only [plain_bind, plain_pure, plain_block n]
    | _ => simp only [plain_bind, plain_lift, plain_pure, plain_expression _ n]
termination_by structural n => n

theorem plain_letStatement : ∀ n, plain (letStatement n) = Parser.letStatement n
  | 0 => rfl
  | n + 1 => by
    simp only [letStatement, Parser.letStatement, plain_bind, plain_lift, plain_pure,
      plain_expression _ n]
termination_by structural n => n

theorem plain_returnStatement : ∀ n, plain (returnStatement n) = Parser.returnStatement n
  | 0 => rfl
  | n + 1 => by
    simp only [returnStatement, Parser.returnStatement, plain_bind, plain_lift, plain_pure,
      plain_expression _ n]
termination_by structural n => n

end

theorem plain_programStatements : ∀ n, plain (programStatements n) = Parser.programStatements n
  | 0 => rfl
  | n + 1 => by
    simp only [programStatements, Parser.programStatements, atLevel_eq, plain_bind, plain_lift,
      plain_pure, plain_ite, plain_attempt, plain_statement n]
    congr
    funext t
    congr
    funext s
    cases s <;> simp only [plain_bind, plain_lift, plain_pure, plain_programStatements n]

end Recording

/-- The attempts at the statements of the tokens that are left, in the run that parses them. -/
def attempts (p : Parser) : List Attempt := (Recording.programStatements p.budget p.begun).1

/-- The run with its record, as the parse comes to it. -/
theorem exists_attempts (p : Parser) : ∃ ss q,
    Recording.programStatements p.budget p.begun = (p.attempts, .done ss q) ∧
      p.program.1 = ⟨ss⟩ ∧ p.program.2.Level q := by
  obtain ⟨ss, q, hq, hprogram⟩ := exists_program p
  have hplain := congrFun (Recording.plain_programStatements p.budget) p.begun
  exact ⟨ss, q, Prod.ext rfl (hplain.trans hq), hprogram⟩

end Parser

/-- The attempts at the statements of a text. -/
def attempts (source : String) : List Parser.Attempt := (Parser.ofLexer (.ofString source)).attempts

end MonkeyLang
