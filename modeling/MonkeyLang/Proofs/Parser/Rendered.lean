import MonkeyLang.Proofs.Parser.ReadBack
import MonkeyLang.Proofs.Parser.Walk
import MonkeyLang.Proofs.Syntax.Rendering

/-!
# Parsing a rendered program

The tokens that a tree is rendered with are read as that tree, but for the tokens of its expression
statements (`Expr.readsBack`, `Stmt.readsBack`). So a renderable program is what its rendering is parsed
as, and no other program has the same rendering (`parse_render`).
-/

namespace MonkeyLang

namespace Expr

/-- The tokens are read as the expression, whatever operators go on with it. -/
def ReadsBack (e : Expr) (ts : List Token) : Prop := ∀ ⦃power z e' z'⦄, power < .call →
  kindOf z ≠ .elseWord → Reads (.operators power e) z e' z' → Reads (.expression power) (ts ++ z) e' z'

/-- The tokens are read as the expression between parentheses. -/
def ReadsBetween (e : Expr) (ts : List Token) : Prop := ∀ z,
  Reads (.expression .lowest) (ts ++ Kind.rparen.token :: z) e (Kind.rparen.token :: z)

namespace ReadsBack

variable {e : Expr}

theorem of_operand (h : ∀ ⦃z⦄, kindOf z ≠ .elseWord → Reads .operand (ts ++ z) e z) :
    e.ReadsBack ts := fun _ _ _ _ _ hz hops => .expression (h hz) hops

theorem group (h : e.ReadsBetween ts) :
    e.ReadsBack (Kind.lparen.token :: (ts ++ [Kind.rparen.token])) :=
  .of_operand fun z _ => by simpa using .group rfl (h z) rfl

/-- An expression up to a token that does not go on with it. -/
theorem read (h : e.ReadsBack ts) (hz : ¬power < .ofKind (kindOf z)) (hz' : kindOf z ≠ .elseWord)
    (hpower : power < .call := by decide) : Reads (.expression power) (ts ++ z) e z :=
  h hpower hz' (.stop hz)

theorem ends (h : e.ReadsBack ts) (hz : Ends z) : Reads (.expression .lowest) (ts ++ z) e z :=
  h.read hz.1 hz.2

theorem ne_nil (h : e.ReadsBack ts) : ts ≠ [] := by
  rintro rfl
  have hlen := (h.ends (z := []) (by simp [Ends]; decide)).length_le
  simp at hlen

end ReadsBack

end Expr

theorem ends_commas (h : List.Forall₂ Expr.ReadsBack es tss) :
    Ends (tss.flatMap (Kind.comma.token :: ·) ++ Kind.rparen.token :: z) := by
  cases h with
  | nil => exact ends_token (by simp)
  | cons =>
    simp [Ends]
    decide

theorem reads_commas (h : List.Forall₂ Expr.ReadsBack es tss) :
    Reads .moreArguments (tss.flatMap (Kind.comma.token :: ·) ++ Kind.rparen.token :: z) es z := by
  induction h with
  | nil => exact .lastArgument rfl
  | cons he hes ih => simpa using .nextArgument (t := Kind.comma.token) rfl (he.ends (ends_commas hes)) ih

/-- A call goes on with its arguments. -/
theorem reads_commaTokens (h : List.Forall₂ Expr.ReadsBack es tss) (ht : t.kind = .lparen)
    (hpower : power < .call) (hops : Reads (.operators power (.call t f es)) z e' z') :
    Reads (.operators power f) (t :: (commaTokens tss ++ Kind.rparen.token :: z)) e' z' := by
  cases h with
  | nil => exact .callEmpty hpower ht rfl hops
  | @cons e ts es tss he hes =>
    have hread := he.ends (ends_commas (z := z) hes)
    have hne : kindOf (ts ++ (tss.flatMap (Kind.comma.token :: ·) ++ Kind.rparen.token :: z)) ≠
        .rparen := by
      intro hk
      have hhead := hread.expression_head
      simp [operandKinds, hk] at hhead
    simpa [commaTokens] using .call hpower ht hne hread (reads_commas hes) hops

mutual

/-- The tokens of a rendered expression are read as it, and those of an operation also without its
parentheses. -/
theorem Expr.readsBack : ∀ e : Expr, e.WellFormed → e.renderable → ∃ e₁ : Expr,
    e₁.unmarked = e.unmarked ∧ e₁.ReadsBack e.renderTokens ∧ (e.isOperation → ∃ ts,
      e.renderTokens = Kind.lparen.token :: (ts ++ [Kind.rparen.token]) ∧ e₁.ReadsBetween ts)
  | .ident x, hw, _ => by
    refine ⟨.ident x, rfl, .of_operand fun z _ => ?_, nofun⟩
    have hread : Reads .operand (x.token :: z) _ z := .ident hw.2.1
    rwa [← hw.1] at hread
  | .int t n, hw, _ => ⟨.int t n, rfl, .of_operand fun _ _ => .int hw.1 hw.2.2, nofun⟩
  | .bool t true, hw, _ => by
    obtain rfl : t = Kind.trueWord.token := hw
    exact ⟨_, rfl, .of_operand fun _ _ => .true rfl, nofun⟩
  | .bool t false, hw, _ => by
    obtain rfl : t = Kind.falseWord.token := hw
    exact ⟨_, rfl, .of_operand fun _ _ => .false rfl, nofun⟩
  | .unary t op e, hw, hr => by
    obtain ⟨ht, rfl, hw⟩ := hw
    obtain ⟨e₁, he, hread, -⟩ := e.readsBack hw hr
    have hbetween : (Expr.unary t t.literal e₁).ReadsBetween (t :: e.renderTokens) := by
      intro z
      have hright : Reads (.expression .unary) (e.renderTokens ++ Kind.rparen.token :: z) e₁
          (Kind.rparen.token :: z) := hread.read (Nat.not_lt_zero _) nofun
      exact .expression (.unary (ht.imp (congrArg _) (congrArg _)) hright) (.stop (Nat.not_lt_zero _))
    exact ⟨_, by rw [Expr.unmarked, Expr.unmarked, he], .group hbetween, fun _ => ⟨_, rfl, hbetween⟩⟩
  | .binary t l op r, hw, hr => by
    obtain ⟨hop, -, rfl, hwl, hwr⟩ := hw
    simp only [Expr.renderable, Bool.and_eq_true] at hr
    obtain ⟨l₁, hl, hreadl, -⟩ := l.readsBack hwl hr.1
    obtain ⟨r₁, hr, hreadr, -⟩ := r.readsBack hwr hr.2
    have hcall : Precedence.ofKind t.kind < .call :=
      Nat.lt_succ_of_lt (lt_unary_of_mem_binaryOperators hop)
    have hbetween : (Expr.binary t l₁ t.literal r₁).ReadsBetween
        (l.renderTokens ++ t :: r.renderTokens) := by
      intro z
      have hright : Reads (.expression (.ofKind t.kind)) (r.renderTokens ++ Kind.rparen.token :: z) r₁
          (Kind.rparen.token :: z) := hreadr.read (Nat.not_lt_zero _) nofun hcall
      have hleft := hreadl (z := t :: (r.renderTokens ++ Kind.rparen.token :: z)) (by decide)
        (ne_elseWord_of_mem_binaryOperators hop) (.binary (lowest_lt_of_mem_binaryOperators hop)
          (ne_lparen_of_mem_binaryOperators hop) hright (.stop (Nat.not_lt_zero _)))
      simpa using hleft
    exact ⟨_, by rw [Expr.unmarked, Expr.unmarked, hl, hr], .group hbetween,
      fun _ => ⟨_, rfl, hbetween⟩⟩
  | .cond t c ⟨w, ss⟩ none, hw, hr => by
    obtain ⟨rfl, hwc, rfl, hws⟩ := hw
    simp only [Expr.renderable, Bool.and_eq_true] at hr
    obtain ⟨c₁, hc, -, hcond⟩ := c.readsBack hwc hr.1.2
    obtain ⟨ts, hts, hread⟩ := hcond hr.1.1
    obtain ⟨ss₁, hss, hreads, -⟩ := Stmt.readsBackAll ss hws hr.2
    refine ⟨.cond Kind.ifWord.token c₁ ⟨Kind.lbrace.token, ss₁⟩ none, ?_, .of_operand fun z hz => ?_,
      nofun⟩
    · simp only [Expr.unmarked, Block.unmarked, hc, hss]
    · have hblock := hreads (z := Kind.rbrace.token :: z) (.inl rfl)
      simpa [Expr.renderTokens, Block.renderTokens, hts] using
        Reads.cond rfl rfl (hread _) rfl rfl hblock hz
  | .cond t c ⟨w, ss⟩ (some ⟨y, ss'⟩), hw, hr => by
    obtain ⟨rfl, hwc, ⟨rfl, hws⟩, rfl, hws'⟩ := hw
    simp only [Expr.renderable, Bool.and_eq_true] at hr
    obtain ⟨c₁, hc, -, hcond⟩ := c.readsBack hwc hr.1.1.2
    obtain ⟨ts, hts, hread⟩ := hcond hr.1.1.1
    obtain ⟨ss₁, hss, hreads, -⟩ := Stmt.readsBackAll ss hws hr.1.2
    obtain ⟨ss₁', hss', hreads', -⟩ := Stmt.readsBackAll ss' hws' hr.2
    refine ⟨.cond Kind.ifWord.token c₁ ⟨Kind.lbrace.token, ss₁⟩ (some ⟨Kind.lbrace.token, ss₁'⟩), ?_,
      .of_operand fun z _ => ?_, nofun⟩
    · simp only [Expr.unmarked, Block.unmarked, hc, hss, hss']
    · have hblock := hreads (z := Kind.rbrace.token :: Kind.elseWord.token :: Kind.lbrace.token ::
        (Stmt.renderTokensAll ss' ++ Kind.rbrace.token :: z)) (.inl rfl)
      have hblock' := hreads' (z := Kind.rbrace.token :: z) (.inl rfl)
      simpa [Expr.renderTokens, Block.renderTokens, hts] using
        Reads.condElse rfl rfl (hread _) rfl rfl hblock rfl rfl hblock'
  | .function t xs ⟨w, ss⟩, hw, hr => by
    obtain ⟨rfl, hxs, rfl, hws⟩ := hw
    obtain ⟨ss₁, hss, hreads, -⟩ := Stmt.readsBackAll ss hws hr
    refine ⟨.function Kind.fnWord.token xs ⟨Kind.lbrace.token, ss₁⟩, ?_, .of_operand fun z _ => ?_,
      nofun⟩
    · simp only [Expr.unmarked, Block.unmarked, hss]
    · have hparameters := reads_parameterTokens (r := Kind.rparen.token)
        (z := Kind.lbrace.token :: (Stmt.renderTokensAll ss ++ Kind.rbrace.token :: z)) hxs rfl
      have hblock := hreads (z := Kind.rbrace.token :: z) (.inl rfl)
      simpa [Expr.renderTokens, Block.renderTokens] using
        Reads.function rfl rfl hparameters rfl hblock
  | .call t f es, hw, hr => by
    obtain ⟨rfl, hwf, hwes⟩ := hw
    simp only [Expr.renderable, Bool.and_eq_true] at hr
    obtain ⟨f₁, hf, hread, -⟩ := f.readsBack hwf hr.1
    obtain ⟨es₁, hes, hreads⟩ := Expr.readsBackEach es hwes hr.2
    refine ⟨.call Kind.lparen.token f₁ es₁, by rw [Expr.unmarked, Expr.unmarked, hf, hes], ?_, nofun⟩
    intro power z e' z' hpower _ hops
    simpa [Expr.renderTokens] using hread hpower (by simp) (reads_commaTokens hreads rfl hpower hops)

theorem Expr.readsBackEach : ∀ es : List Expr, Expr.EachWellFormed es → Expr.eachRenderable es →
    ∃ es₁, Expr.eachUnmarked es₁ = Expr.eachUnmarked es ∧
      List.Forall₂ Expr.ReadsBack es₁ (Expr.renderTokensEach es)
  | [], _, _ => ⟨[], rfl, .nil⟩
  | e :: es, hw, hr => by
    simp only [Expr.eachRenderable, Bool.and_eq_true] at hr
    obtain ⟨e₁, he, hread, -⟩ := e.readsBack hw.1 hr.1
    obtain ⟨es₁, hes, hreads⟩ := Expr.readsBackEach es hw.2 hr.2
    exact ⟨e₁ :: es₁, by rw [Expr.eachUnmarked, Expr.eachUnmarked, he, hes], .cons hread hreads⟩

/-- An expression statement is read up to the end of its list, any other wherever it ends. -/
theorem Stmt.readsBack : ∀ s : Stmt, s.WellFormed → s.renderable → ∃ s₁ : Stmt,
    s₁.unmarked = s.unmarked ∧ ∀ ⦃z⦄, (s.isExpr → Closes z) →
      Reads .statement (s.renderTokens ++ z) s₁ z
  | .letStmt t x e, hw, hr => by
    obtain ⟨rfl, hx, hw⟩ := hw
    obtain ⟨e₁, he, hread, -⟩ := e.readsBack hw hr
    refine ⟨.letStmt Kind.letWord.token x e₁, by rw [Stmt.unmarked, Stmt.unmarked, he], fun z _ => ?_⟩
    have hvalue := hread.ends (ends_token (k := .semicolon) (z := z) (by simp))
    have hlet := Reads.letStmt (t := Kind.letWord.token) (v := Kind.assign.token) rfl hx.2.1 rfl hvalue
    rw [← hx.1] at hlet
    simpa [Stmt.renderTokens, dropSemicolon] using hlet
  | .returnStmt t e, hw, hr => by
    obtain ⟨rfl, hw⟩ := hw
    obtain ⟨e₁, he, hread, -⟩ := e.readsBack hw hr
    refine ⟨.returnStmt Kind.returnWord.token e₁, by rw [Stmt.unmarked, Stmt.unmarked, he],
      fun z _ => ?_⟩
    have hvalue := hread.ends (ends_token (k := .semicolon) (z := z) (by simp))
    simpa [Stmt.renderTokens, dropSemicolon] using
      Reads.returnStmt (t := Kind.returnWord.token) rfl hvalue
  | .expr _ e, hw, hr => by
    obtain ⟨e₁, he, hread, -⟩ := e.readsBack hw hr
    obtain ⟨t, ts, hts⟩ := List.exists_cons_of_ne_nil hread.ne_nil
    refine ⟨.expr t e₁, by rw [Stmt.unmarked, Stmt.unmarked, he], fun z hz => ?_⟩
    have hvalue := hread.ends (hz rfl).ends
    rw [hts, List.cons_append] at hvalue
    have hstmt := hvalue.expr_statement
    rwa [(hz rfl).dropSemicolon, ← List.cons_append, ← hts] at hstmt
  | .block ⟨w, ss⟩, hw, hr => by
    obtain ⟨rfl, hws⟩ := hw
    obtain ⟨ss₁, hss, hreads, -⟩ := Stmt.readsBackAll ss hws hr
    refine ⟨.block ⟨Kind.lbrace.token, ss₁⟩, ?_, fun z _ => ?_⟩
    · simp only [Stmt.unmarked, Block.unmarked, hss]
    · have hblock := hreads (z := Kind.rbrace.token :: z) (.inl rfl)
      simpa [Stmt.renderTokens, Block.renderTokens] using
        Reads.blockStmt (t := Kind.lbrace.token) rfl hblock

/-- The statements of a block, up to its closing brace, and those of a whole text. -/
theorem Stmt.readsBackAll : ∀ ss : List Stmt, Stmt.EachWellFormed ss → Stmt.eachRenderable ss →
    ∃ ss₁, Stmt.eachUnmarked ss₁ = Stmt.eachUnmarked ss ∧
      (∀ ⦃z⦄, Closes z → Reads .statements (Stmt.renderTokensAll ss ++ z) ss₁ z.tail) ∧
      Reads .program (Stmt.renderTokensAll ss) ss₁ []
  | [], _, _ => ⟨[], rfl, fun _ hz => .endOfStatements hz, .endOfProgram rfl⟩
  | s :: ss, hw, hr => by
    simp only [Stmt.eachRenderable, Bool.and_eq_true, Bool.or_eq_true, Bool.not_eq_true',
      List.isEmpty_iff] at hr
    obtain ⟨⟨hrs, hlast⟩, hrss⟩ := hr
    obtain ⟨s₁, hs, hread⟩ := s.readsBack hw.1 hrs
    obtain ⟨ss₁, hss, hreads, hprogram⟩ := Stmt.readsBackAll ss hw.2 hrss
    have hcloses (z) (hz : Closes z) (h : s.isExpr) : Closes (Stmt.renderTokensAll ss ++ z) := by
      obtain rfl : ss = [] := hlast.resolve_left (by simp [h])
      exact hz
    refine ⟨s₁ :: ss₁, by rw [Stmt.eachUnmarked, Stmt.eachUnmarked, hs, hss], fun z hz => ?_, ?_⟩
    · rw [Stmt.renderTokensAll, List.append_assoc]
      exact (hread (hcloses z hz)).statements_cons (hreads hz)
    · have hclosed := hcloses [] (.inr rfl)
      rw [List.append_nil] at hclosed
      exact (hread hclosed).program_cons hprogram

end

/-- The rendering of a renderable program is parsed as it. -/
theorem parse_render_of_wellFormed {p : Program} (hw : p.WellFormed) (hr : p.renderable) :
    (parse p.render).2 = [] ∧ (parse p.render).1.unmarked = p.unmarked := by
  obtain ⟨ss, hss, -, hread⟩ := Stmt.readsBackAll p.statements hw hr
  obtain ⟨hspaced, hspelled⟩ := Program.spells_render hw hr
  have htokens : (Lexer.ofString p.render).tokens = Stmt.renderTokensAll p.statements :=
    hspaced.tokens_ofString hspelled
  have hparse : parse p.render = (⟨ss⟩, []) := parse_of_reads (htokens ▸ hread)
  rw [hparse]
  exact ⟨rfl, congrArg Program.mk hss⟩

/-- If the program of a text is renderable, with errors in the text or without, then its rendering has
no errors and is parsed as that program, up to the tokens of expression statements. No other renderable
program of a text has the same rendering. -/
theorem parse_render (source : String) (h : (parse source).1.renderable) :
    (parse (parse source).1.render).2 = [] ∧
      (parse (parse source).1.render).1.unmarked = (parse source).1.unmarked ∧
      ∀ source', (parse source').1.renderable →
        (parse source').1.render = (parse source).1.render →
        (parse source').1.unmarked = (parse source).1.unmarked := by
  obtain ⟨herrors, hprogram⟩ := parse_render_of_wellFormed (parse_wellFormed source) h
  refine ⟨herrors, hprogram, fun source' h' hrender => ?_⟩
  have hprogram' := (parse_render_of_wellFormed (parse_wellFormed source') h').2
  rw [hrender] at hprogram'
  exact hprogram'.symm.trans hprogram

/-- Nested blocks and conditions, operators without parentheses and missing semicolons. -/
theorem parse_render_nestedBlocks :
    let source := "let f = fn(a, b) \x7b let c = -a * b if (a < b == !c) \x7b " ++
      "\x7b return c(1) \x7d \x7d else \x7b f(b, a)(-(1)) \x7d \x7d; f(1, if (!x) \x7b 2 \x7d)"
    let rendering := "let f = fn(a, b) \x7b let c = ((-a) * b);if ((a < b) == (!c)) \x7b " ++
      "\x7b return c(1); \x7d \x7d else \x7b f(b, a)((-1)) \x7d \x7d;f(1, if (!x) \x7b 2 \x7d)"
    (parse source).1.renderable ∧ (parse source).1.render = rendering ∧
      (parse rendering).2 = [] ∧ (parse rendering).1.unmarked = (parse source).1.unmarked := by
  intro source rendering
  have hrenderable : (parse source).1.renderable := by decide +kernel
  have hrender : (parse source).1.render = rendering := by decide +kernel
  have h := parse_render source hrenderable
  rw [hrender] at h
  exact ⟨hrenderable, hrender, h.1, h.2.1⟩

end MonkeyLang
