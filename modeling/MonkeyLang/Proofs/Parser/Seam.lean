import MonkeyLang.Proofs.Parser.Append

/-!
# The seam between two texts

A text that is over with its last statement leaves the parser in the state in which it would start on
whatever comes next. So a text after it is read as if it stood alone, with all its errors
(`parse_append`). The state is not literally the same: the log is longer and less of the budget is
left. Neither matters to what a production comes to, unless the budget runs out (`Agree`).
-/

namespace MonkeyLang

namespace Parser

/-- The same tokens are left, and the errors so far are the same. -/
def Level (p q : Parser) : Prop := p.tokens = q.tokens ∧ p.errors = q.errors

/-- The two outcomes are the same but for logs, unless a budget ran out. -/
inductive Outcome.Agrees : Outcome α → Outcome α → Prop where
  | done : p.Level q → Agrees (.done a p) (.done a q)
  | failed : p.Level q → Agrees (.failed p) (.failed q)
  | exhaustedLeft : Agrees .exhausted o
  | exhaustedRight : Agrees o .exhausted

/-- The two productions come to the same from states that differ in the log only. -/
def Agree (x y : Production α) : Prop := ∀ p q : Parser, p.Level q → (x p).Agrees (y q)

theorem Level.trans (h : Level p q) (h' : Level q r) : Level p r :=
  ⟨h.1.trans h'.1, h.2.trans h'.2⟩

theorem Level.advance {p q : Parser} (h : p.Level q) : p.advance.Level q.advance :=
  ⟨congrArg List.tail h.1, by rw [errors_advance, errors_advance, h.2]⟩

theorem Level.current {p q : Parser} (h : p.Level q) : p.current = q.current := by
  rw [Parser.current, Parser.current, h.1]

theorem Level.peek {p q : Parser} (h : p.Level q) : p.peek = q.peek := by
  rw [Parser.peek, Parser.peek, h.1]

theorem Outcome.Agrees.andThen {o o' : Outcome α} {f g : α → Production β} (h : o.Agrees o')
    (hf : ∀ a, Agree (f a) (g a)) : (o.andThen f).Agrees (o'.andThen g) := by
  cases h with
  | done h => exact hf _ _ _ h
  | failed h => exact .failed h
  | exhaustedLeft => exact .exhaustedLeft
  | exhaustedRight => exact .exhaustedRight

namespace Agree

theorem pure (a : α) : Agree (Pure.pure a) (Pure.pure a) := fun _ _ h => .done h

theorem bind {x y : Production α} {f g : α → Production β} (h : Agree x y)
    (hf : ∀ a, Agree (f a) (g a)) : Agree (x >>= f) (y >>= g) :=
  fun p q hpq => (h p q hpq).andThen hf

theorem ite [Decidable c] {x x' y y' : Production α} (h : Agree x y) (h' : Agree x' y') :
    Agree (if c then x else x') (if c then y else y') := by
  split
  · exact h
  · exact h'

theorem left (y : Production α) : Agree outOfBudget y := fun _ _ _ => .exhaustedLeft

theorem right (x : Production α) : Agree x outOfBudget := fun _ _ _ => .exhaustedRight

theorem note : Agree (Parser.note level message) (Parser.note level message') :=
  fun _ _ h => .done h

theorem fail (e : ParseError) : Agree (Parser.fail e : Production α) (Parser.fail e) :=
  fun _ _ h => .failed ⟨h.1, congrArg (·.push e) h.2⟩

theorem currentToken : Agree Parser.currentToken Parser.currentToken := by
  intro p q h
  unfold Parser.currentToken
  rw [h.current]
  exact .done h

theorem nextKind : Agree Parser.nextKind Parser.nextKind := by
  intro p q h
  unfold Parser.nextKind
  rw [h.peek]
  exact .done h

theorem skip : Agree Parser.skip Parser.skip := fun _ _ h => .done h.advance

theorem expect (kind : Kind) : Agree (Parser.expect kind) (Parser.expect kind) := by
  intro p q h
  unfold Parser.expect
  rw [h.peek]
  split
  · exact .done h.advance
  · exact Agree.fail _ p q h

theorem skipIf (kind : Kind) : Agree (Parser.skipIf kind) (Parser.skipIf kind) := by
  intro p q h
  unfold Parser.skipIf
  rw [h.peek]
  split
  · exact .done h.advance
  · exact .done h

theorem attempt {x y : Production α} (h : Agree x y) :
    Agree (Parser.attempt x) (Parser.attempt y) := by
  intro p q hpq
  unfold Parser.attempt
  have := h p q hpq
  generalize x p = o, y q = o' at this
  cases this with
  | done h | failed h => exact .done h
  | exhaustedLeft => exact .exhaustedLeft
  | exhaustedRight => exact .exhaustedRight

theorem integer : Agree Parser.integer Parser.integer := by
  refine bind currentToken fun t => ?_
  split
  · exact pure _
  · exact fail _

theorem moreParameters : ∀ n m, Agree (Parser.moreParameters n) (Parser.moreParameters m)
  | 0, _ => left _
  | _ + 1, 0 => right _
  | n + 1, m + 1 => by
    rw [Parser.moreParameters, Parser.moreParameters]
    refine bind (skipIf .comma) fun b => ite ?_ ?_
    · exact bind (expect .ident) fun _ => bind currentToken fun t =>
        bind (moreParameters n m) fun xs => pure _
    · exact bind (expect .rparen) fun _ => pure _

theorem parameters (n m : Nat) : Agree (Parser.parameters n) (Parser.parameters m) := by
  refine bind (skipIf .rparen) fun b => ite (pure _) ?_
  exact bind (expect .ident) fun _ => bind currentToken fun t =>
    bind (moreParameters n m) fun xs => pure _

mutual

theorem expression (power : Precedence) :
    ∀ n m, Agree (Parser.expression n power) (Parser.expression m power)
  | 0, _ => left _
  | _ + 1, 0 => right _
  | n + 1, m + 1 => by
    simp only [Parser.expression, atLevel_eq]
    exact bind (operand n m) fun l => operators power l n m
termination_by structural n => n

theorem operators (power : Precedence) (l : Expr) :
    ∀ n m, Agree (Parser.operators n power l) (Parser.operators m power l)
  | 0, _ => left _
  | _ + 1, 0 => right _
  | n + 1, m + 1 => by
    rw [Parser.operators, Parser.operators]
    refine bind nextKind fun k => ite (bind skip fun _ => ite ?_ ?_) (pure _)
    · exact bind (callOf l n m) fun l' => operators power l' n m
    · exact bind (binary l n m) fun l' => operators power l' n m
termination_by structural n => n

theorem operand : ∀ n m, Agree (Parser.operand n) (Parser.operand m)
  | 0, _ => left _
  | _ + 1, 0 => right _
  | n + 1, m + 1 => by
    rw [Parser.operand, Parser.operand]
    refine bind currentToken fun t => bind note fun _ => ?_
    cases t.kind with
    | ident | trueWord | falseWord => exact pure _
    | int => exact integer
    | bang | minus => exact unary n m
    | lparen => exact group n m
    | ifWord => exact conditional n m
    | fnWord => exact functionLiteral n m
    | _ => exact fail _
termination_by structural n => n

theorem unary : ∀ n m, Agree (Parser.unary n) (Parser.unary m)
  | 0, _ => left _
  | _ + 1, 0 => right _
  | n + 1, m + 1 => by
    rw [Parser.unary, Parser.unary]
    exact bind currentToken fun t => bind skip fun _ => bind (expression _ n m) fun e => pure _
termination_by structural n => n

theorem binary (l : Expr) : ∀ n m, Agree (Parser.binary n l) (Parser.binary m l)
  | 0, _ => left _
  | _ + 1, 0 => right _
  | n + 1, m + 1 => by
    rw [Parser.binary, Parser.binary]
    exact bind currentToken fun t => bind skip fun _ => bind (expression _ n m) fun e => pure _
termination_by structural n => n

theorem group : ∀ n m, Agree (Parser.group n) (Parser.group m)
  | 0, _ => left _
  | _ + 1, 0 => right _
  | n + 1, m + 1 => by
    rw [Parser.group, Parser.group]
    exact bind skip fun _ => bind (expression _ n m) fun e => bind (expect .rparen) fun _ => pure _
termination_by structural n => n

theorem conditional : ∀ n m, Agree (Parser.conditional n) (Parser.conditional m)
  | 0, _ => left _
  | _ + 1, 0 => right _
  | n + 1, m + 1 => by
    rw [Parser.conditional, Parser.conditional]
    refine bind note fun _ => bind currentToken fun t => bind (expect .lparen) fun _ =>
      bind skip fun _ => bind (expression _ n m) fun c => bind (expect .rparen) fun _ =>
      bind (expect .lbrace) fun _ => bind (block n m) fun b => bind (skipIf .elseWord) fun _ => ?_
    refine ite ?_ (pure _)
    exact bind (expect .lbrace) fun _ => bind (block n m) fun a => pure _
termination_by structural n => n

theorem functionLiteral : ∀ n m, Agree (Parser.functionLiteral n) (Parser.functionLiteral m)
  | 0, _ => left _
  | _ + 1, 0 => right _
  | n + 1, m + 1 => by
    rw [Parser.functionLiteral, Parser.functionLiteral]
    exact bind note fun _ => bind currentToken fun t => bind (expect .lparen) fun _ =>
      bind (parameters n m) fun xs => bind (expect .lbrace) fun _ =>
      bind (block n m) fun b => pure _
termination_by structural n => n

theorem callOf (f : Expr) : ∀ n m, Agree (Parser.callOf n f) (Parser.callOf m f)
  | 0, _ => left _
  | _ + 1, 0 => right _
  | n + 1, m + 1 => by
    rw [Parser.callOf, Parser.callOf]
    refine bind currentToken fun t => bind (skipIf .rparen) fun _ => ite (pure _) ?_
    exact bind skip fun _ => bind (expression _ n m) fun e =>
      bind (moreArguments n m) fun es => pure _
termination_by structural n => n

theorem moreArguments : ∀ n m, Agree (Parser.moreArguments n) (Parser.moreArguments m)
  | 0, _ => left _
  | _ + 1, 0 => right _
  | n + 1, m + 1 => by
    rw [Parser.moreArguments, Parser.moreArguments]
    refine bind (skipIf .comma) fun _ => ite ?_ ?_
    · exact bind skip fun _ => bind (expression _ n m) fun e =>
        bind (moreArguments n m) fun es => pure _
    · exact bind (expect .rparen) fun _ => pure _
termination_by structural n => n

theorem block : ∀ n m, Agree (Parser.block n) (Parser.block m)
  | 0, _ => left _
  | _ + 1, 0 => right _
  | n + 1, m + 1 => by
    rw [Parser.block, Parser.block]
    exact bind note fun _ => bind currentToken fun t => bind skip fun _ =>
      bind (blockStatements n m) fun ss => pure _
termination_by structural n => n

theorem blockStatements : ∀ n m, Agree (Parser.blockStatements n) (Parser.blockStatements m)
  | 0, _ => left _
  | _ + 1, 0 => right _
  | n + 1, m + 1 => by
    simp only [Parser.blockStatements, atLevel_eq]
    refine bind currentToken fun t => ite (pure _) ?_
    exact bind (attempt (statement n m)) fun s => bind skip fun _ =>
      bind (blockStatements n m) fun ss => pure _
termination_by structural n => n

theorem statement : ∀ n m, Agree (Parser.statement n) (Parser.statement m)
  | 0, _ => left _
  | _ + 1, 0 => right _
  | n + 1, m + 1 => by
    rw [Parser.statement, Parser.statement]
    refine bind currentToken fun t => ?_
    cases t.kind with
    | letWord => exact letStatement n m
    | returnWord => exact returnStatement n m
    | lbrace => exact bind (block n m) fun b => pure _
    | _ => exact bind (expression _ n m) fun e => bind (skipIf .semicolon) fun _ => pure _
termination_by structural n => n

theorem letStatement : ∀ n m, Agree (Parser.letStatement n) (Parser.letStatement m)
  | 0, _ => left _
  | _ + 1, 0 => right _
  | n + 1, m + 1 => by
    rw [Parser.letStatement, Parser.letStatement]
    exact bind note fun _ => bind currentToken fun t => bind (expect .ident) fun _ =>
      bind currentToken fun x => bind (expect .assign) fun _ => bind skip fun _ =>
      bind (expression _ n m) fun e => bind (skipIf .semicolon) fun _ => pure _
termination_by structural n => n

theorem returnStatement : ∀ n m, Agree (Parser.returnStatement n) (Parser.returnStatement m)
  | 0, _ => left _
  | _ + 1, 0 => right _
  | n + 1, m + 1 => by
    rw [Parser.returnStatement, Parser.returnStatement]
    exact bind note fun _ => bind currentToken fun t => bind skip fun _ =>
      bind (expression _ n m) fun e => bind (skipIf .semicolon) fun _ => pure _
termination_by structural n => n

end

theorem programStatements : ∀ n m, Agree (Parser.programStatements n) (Parser.programStatements m)
  | 0, _ => left _
  | _ + 1, 0 => right _
  | n + 1, m + 1 => by
    simp only [Parser.programStatements, atLevel_eq]
    refine bind currentToken fun t => ite (pure _) (bind (attempt (statement n m)) fun s => ?_)
    have hrest : Agree (do Parser.skip; let ss ← Parser.programStatements n; Pure.pure (s.toList ++ ss))
        (do Parser.skip; let ss ← Parser.programStatements m; Pure.pure (s.toList ++ ss)) :=
      bind skip fun _ => bind (programStatements n m) fun ss => pure _
    cases s with
    | none => exact hrest
    | some s => exact bind note fun _ => hrest

end Agree

/-! ## The statements of a text -/

/-- The statements of a text are read to its end, with or without errors. -/
theorem ends_programStatements (n : Nat) (p : Parser) :
    (programStatements n p).Sat True (fun _ q => kindOf q.tokens = .eof) fun _ => False := by
  induction n generalizing p with
  | zero => trivial
  | succ n ih =>
    have hrest : ∀ (s : Option Stmt) (q : Parser),
        (programStatements n q).Sat True (fun ss q' => ((pure (s.toList ++ ss) : Production _) q').Sat True
          (fun _ q => kindOf q.tokens = .eof) fun _ => False) fun _ => False := fun s q => ih q
    simp only [programStatements, atLevel_eq, sat_bind, sat_currentToken]
    split
    · next heof => exact heof
    · simp only [sat_bind, sat_attempt]
      cases statement n p with
      | done s q => exact hrest (some s) _
      | failed q => exact hrest none _
      | exhausted => trivial

/-- With a budget that suffices the statements are read, to the end of the text. -/
theorem exists_done_programStatements {p : Parser} (hn : 3 * p.tokens.length + 4 ≤ n) :
    ∃ ss q, programStatements n p = .done ss q ∧ kindOf q.tokens = .eof := by
  have hsat := (Goal.sat_run n .program p hn).and (ends_programStatements n p)
  simp only [Goal.run] at hsat
  cases h : programStatements n p with
  | done ss q => exact ⟨ss, q, rfl, (h ▸ hsat).2⟩
  | failed q => exact (h ▸ hsat).2.elim
  | exhausted => exact (h ▸ hsat).elim

/-- The state in which the first statement of the tokens that are left is read. -/
def begun (p : Parser) : Parser :=
  { p with log := p.log.record .info .parser fun _ => "Beginning parse phase" }

theorem level_begun (p : Parser) : p.begun.Level p := ⟨rfl, rfl⟩

/-- To parse the tokens that are left is to read their statements, for which the budget suffices. -/
theorem exists_program (p : Parser) : ∃ ss q, programStatements p.budget p.begun = .done ss q ∧
    p.program.1 = ⟨ss⟩ ∧ p.program.2.Level q := by
  obtain ⟨ss, q, hq, -⟩ := exists_done_programStatements (p := p.begun) (cost_le_budget p)
  refine ⟨ss, q, hq, ?_⟩
  simp only [begun, budget] at hq
  simp only [program, budget, hq]
  exact ⟨trivial, rfl, rfl⟩

/-- A text is parsed by reading its statements, with a budget that suffices. -/
theorem exists_programStatements (source : String) : ∃ n p ss p',
    3 * (Lexer.ofString source).tokens.length + 4 ≤ n ∧
      p.tokens = (Lexer.ofString source).tokens ∧ p.errors = #[] ∧
      programStatements n p = .done ss p' ∧ parse source = (⟨ss⟩, p'.errors.toList) := by
  obtain ⟨ss, q, hq, hss, -, herrors⟩ := exists_program (ofLexer (.ofString source))
  obtain ⟨hts, hes⟩ := level_begun (ofLexer (.ofString source))
  have hn := cost_le_budget (ofLexer (.ofString source))
  rw [tokens_ofLexer] at hts hn
  exact ⟨_, _, ss, q, hn, hts, by rw [hes, errors_ofLexer], hq, by rw [parse, ← hss, ← herrors]⟩

/-- The statements of a text after a statement that was read. -/
theorem programStatements_of_statement (hk : kindOf p.tokens ≠ .eof)
    (hs : statement n p = .done s p₁) : ∃ p₂ : Parser, p₂.tokens = p₁.tokens ∧
      p₂.errors = p₁.errors ∧ programStatements (n + 1) p =
        (do let ss ← programStatements n; pure (s :: ss) : Production (List Stmt)) p₂.advance := by
  refine ⟨{ p₁ with log := p₁.log.record .debug .parser fun _ => "Parsed statement: " ++ s.render },
    rfl, rfl, ?_⟩
  have hattempt : attempt (statement n) p = .done (some s) p₁ := by rw [attempt, hs]
  rw [programStatements]
  simp only [atLevel_eq]
  rw [bind_apply]
  show (if kindOf p.tokens = .eof then _ else _ : Production (List Stmt)) p = _
  rw [if_neg hk, bind_apply, hattempt]
  rfl

end Parser

open MonkeyLang.Parser in
/-- Statements that are read whatever comes after them are read before it. -/
theorem ReadsAll.agrees {p q : Parser} (h : ReadsAll ts ss us) (hn : 3 * ts.length + 4 ≤ n)
    (hp : p.tokens = ts) (hq : q.tokens = us) (he : p.errors = q.errors) (m : Nat) :
    (programStatements n p).Agrees
      ((do let ss' ← programStatements m; pure (ss ++ ss') : Production (List Stmt)) q) := by
  induction h generalizing n p with
  | nil =>
    have hpure : (do let ss' ← programStatements m; pure ([] ++ ss') : Production (List Stmt)) q =
        programStatements m q := by
      rw [bind_apply]
      cases programStatements m q <;> rfl
    rw [hpure]
    exact Agree.programStatements n m p q ⟨hp.trans hq.symm, he⟩
  | @cons t ts s ts₁ ss us hk hs _ ih =>
    obtain ⟨n, rfl⟩ := Nat.exists_eq_add_of_le' (Nat.le_trans (by simp) hn : 1 ≤ n)
    have hlen := hs.length_le
    simp only [Goal.least] at hlen
    have hrun : (statement n p).Gives s ts₁ p.errors := hs.run hp (by simp only [Goal.cost]; omega)
    generalize hstmt : statement n p = o at hrun
    cases o with
    | failed | exhausted => exact hrun.elim
    | done s' p₁ =>
      obtain ⟨rfl, hts, hes⟩ := hrun
      obtain ⟨p₂, hts₂, hes₂, hrest⟩ := programStatements_of_statement (by rw [hp]; exact hk) hstmt
      have hih := ih (n := n) (p := p₂.advance) (by omega) (by rw [tokens_advance, hts₂, hts]) hq
        (by rw [errors_advance, hes₂, hes, he])
      have hcons := hih.andThen fun ss' => Agree.pure (s' :: ss')
      rw [hrest, bind_apply]
      refine cast (congrArg _ ?_) hcons
      rw [bind_apply, bind_apply]
      cases programStatements m q <;> rfl

/-- A text is read after a standalone one as it is read alone: the program has the statements of both,
and the errors are those of the second, in the same order. -/
theorem parse_append (h : Standalone source) (source' : String) :
    parse (source ++ "\n" ++ source') =
      (⟨(parse source).1.statements ++ (parse source').1.statements⟩, (parse source').2) := by
  obtain ⟨n, p, ss, p', hn, hts, hes, hp, hjoined⟩ :=
    Parser.exists_programStatements (source ++ "\n" ++ source')
  obtain ⟨m, q, ss', q', -, hts', hes', hq, hsecond⟩ := Parser.exists_programStatements source'
  rw [Lexer.tokens_append_newline] at hn hts
  have hagree := (h.readsAll (Lexer.ofString source').tokens).agrees hn hts hts' (hes.trans hes'.symm) m
  rw [hp, Parser.bind_apply, hq] at hagree
  rw [hjoined, hsecond]
  cases hagree with
  | done hlevel => rw [hlevel.2]

/-- The second text does not parse: its errors come out as they are, and so do the statements that were
read between them. -/
theorem parse_append_malformed :
    Standalone "let f = fn(x) \x7b x; \x7d;" ∧ (parse "let = 5; f(1); )").2.length = 3 ∧
      parse ("let f = fn(x) \x7b x; \x7d;" ++ "\n" ++ "let = 5; f(1); )") =
        (⟨(parse "let f = fn(x) \x7b x; \x7d;").1.statements ++
          (parse "let = 5; f(1); )").1.statements⟩, (parse "let = 5; f(1); )").2) := by
  have hfirst : Standalone "let f = fn(x) \x7b x; \x7d;" := by decide +kernel
  exact ⟨hfirst, by decide +kernel, parse_append hfirst _⟩

end MonkeyLang
