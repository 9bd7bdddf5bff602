import MonkeyLang.Proofs.Parser.Reads
import MonkeyLang.Proofs.Parser.Words
import MonkeyLang.Proofs.Syntax.Printing

/-!
# What is printed is read back

The tokens that a tree is written with are read as that tree (`Prints.readBack`). Of an expression
this is said together with what comes after it, at every power: reading the tokens and then going on
with the tree as the left operand is reading the whole.
-/

namespace MonkeyLang

theorem Reads.operand_head (h : Reads .operand ts a ts') : kindOf ts ∈ operandKinds := by
  cases h with
  | unary h => rcases h with h | h <;> simp [operandKinds, h]
  | ident h | int h | true h | false h | group h | cond h | condElse h | function h =>
    simp [operandKinds, h]

theorem Reads.expression_head (h : Reads (.expression power) ts a ts') :
    kindOf ts ∈ operandKinds := by
  cases h with
  | expression h => exact h.operand_head

theorem Reads.statement_head (h : Reads .statement ts s ts') :
    kindOf ts ≠ .rbrace ∧ kindOf ts ≠ .eof := by
  cases h with
  | letStmt h | returnStmt h | blockStmt h => simp [h]
  | exprStmt _ _ _ h =>
    have hhead := h.expression_head
    constructor <;>
    · intro hk
      simp [operandKinds, hk] at hhead

/-- No expression starts as another statement does, so it is one with the semicolon after it. -/
theorem Reads.expr_statement (h : Reads (.expression .lowest) (t :: ts) e ts') :
    Reads .statement (t :: ts) (.expr t e) (dropSemicolon ts') := by
  have hhead := h.expression_head
  refine .exprStmt ?_ ?_ ?_ h <;>
  · intro hk
    simp [operandKinds, hk] at hhead

/-- The tokens are read as the tree, whatever comes after them. An expression in a place where it
needs parentheses below a rank is read at every power that is lower than what may stand there. -/
def Phrase.ReadBack : (g : Phrase) → g.Tree → List Token → Prop
  | .expression least, e, ts => ∀ ⦃power z e' z'⦄,
    (∀ q : Precedence, .lowest < q → least ≤ q.rank → power < q ∨ q = .unary) →
    (Precedence.ofKind (kindOf z)).rank ≤ least → kindOf z ≠ .elseWord →
    Reads (.operators power e) z e' z' → Reads (.expression power) (ts ++ z) e' z'
  | .bare, e, ts => ∀ ⦃power z e' z'⦄, power < e.level ∨ e.level = .unary →
    ¬e.level < .ofKind (kindOf z) → kindOf z ≠ .elseWord →
    Reads (.operators power e) z e' z' → Reads (.expression power) (ts ++ z) e' z'
  | .arguments, es, ts => ∀ ⦃power l t r z e' z'⦄, t.kind = .lparen → r.kind = .rparen →
    power < .call → Reads (.operators power (.call t l es)) z e' z' →
    Reads (.operators power l) (t :: (ts ++ r :: z)) e' z'
  | .moreArguments, es, ts => ∀ ⦃r z⦄, r.kind = .rparen →
    Reads .moreArguments (ts ++ r :: z) es z
  | .statements, ss, ts =>
    (∀ ⦃z⦄, Closes z → Reads .statements (ts ++ z) ss z.tail) ∧ Reads .program ts ss []
  | .statement, s, ts => ∀ ⦃z⦄, Reads .statement (ts ++ z) s z

/-- An expression on its own, up to a token that does not go on with it. -/
theorem Phrase.ReadBack.lowest (h : (expression 0).ReadBack e ts) (hz : Ends z) :
    Reads (.expression .lowest) (ts ++ z) e z :=
  h (fun _ hq _ => .inl hq) (Nat.not_lt.mp hz.1) hz.2 (.stop hz.1)

theorem Reads.statements_cons (h : Reads .statement us s us₁) (h' : Reads .statements us₁ ss us') :
    Reads .statements us (s :: ss) us' := by
  cases us with
  | nil => exact absurd rfl h.statement_head.2
  | cons t us => exact .statements h.statement_head.1 h.statement_head.2 h h'

theorem Reads.program_cons (h : Reads .statement us s us₁) (h' : Reads .program us₁ ss us') :
    Reads .program us (s :: ss) us' := by
  cases us with
  | nil => exact absurd rfl h.statement_head.2
  | cons t us => exact .program h.statement_head.2 h h'

theorem reads_moreParameterTokens (hxs : ∀ x ∈ xs, x.WellFormed) (hr : r.kind = .rparen) :
    Reads .moreParameters ((xs.flatMap fun y => [Kind.comma.token, y.token]) ++ r :: z) xs z := by
  induction xs with
  | nil => exact .lastParameter hr
  | cons x xs ih =>
    have hx := hxs x (.head _)
    have hread := Reads.nextParameter (t := Kind.comma.token) rfl hx.2.1
      (ih fun y hy => hxs y (.tail _ hy))
    rwa [← hx.1] at hread

theorem reads_parameterTokens (hxs : ∀ x ∈ xs, x.WellFormed) (hr : r.kind = .rparen) :
    Reads .parameters (parameterTokens xs ++ r :: z) xs z := by
  cases xs with
  | nil => exact .noParameters hr
  | cons x xs =>
    have hx := hxs x (.head _)
    have hread := Reads.parameters hx.2.1
      (reads_moreParameterTokens (z := z) (fun y hy => hxs y (.tail _ hy)) hr)
    rwa [← hx.1] at hread

/-! ## Printed trees -/

theorem Expr.WellFormed.lowest_lt_level {e : Expr} (h : e.WellFormed) : .lowest < e.level := by
  cases e with
  | binary t l op r =>
    exact lowest_lt_of_mem_binaryOperators h.1
  | unary => exact (by decide : Precedence.lowest < .unary)
  | _ => exact (by decide : Precedence.lowest < .call)

theorem Prints.ends_moreArguments (h : Prints marked .moreArguments es ts) (hr : r.kind = .rparen) :
    Ends (ts ++ r :: z) := by
  cases h with
  | lastArgument =>
    simp [Ends, hr]
    decide
  | nextArgument =>
    simp [Ends]
    decide

theorem ends_token (h : k ∈ [Kind.rparen, .semicolon]) : Ends (k.token :: z) := by
  have hall : ∀ k ∈ [Kind.rparen, .semicolon], ¬Precedence.lowest < .ofKind k ∧ k ≠ .elseWord := by
    decide
  exact hall k h

/-- What is printed is read back. -/
theorem Prints.readBack (h : Prints True g a ts) (hw : g.WellFormed a) : g.ReadBack a ts := by
  induction h with
  | @bare least e ts hl _ ih =>
    intro power z e' z' hp hz helse hops
    have hlow := Expr.WellFormed.lowest_lt_level hw
    exact ih hw (hp _ hlow hl) (Nat.not_lt.mpr (Nat.le_trans hz hl)) helse hops
  | @parens e ts _ _ ih =>
    intro power z e' z' _ _ _ hops
    have hread := (ih hw).lowest (ends_token (k := .rparen) (z := z) (by simp))
    simpa using .expression (.group rfl hread rfl) hops
  | @ident x =>
    intro power z e' z' _ _ _ hops
    have hread : Reads .operand (x.token :: z) _ z := .ident hw.2.1
    rw [← hw.1] at hread
    exact .expression hread hops
  | int =>
    intro power z e' z' _ _ _ hops
    exact .expression (.int hw.1 hw.2.2) hops
  | @bool t b =>
    intro power z e' z' _ _ _ hops
    cases b with
    | true =>
      obtain rfl : t = Kind.trueWord.token := hw
      exact .expression (.true rfl) hops
    | false =>
      obtain rfl : t = Kind.falseWord.token := hw
      exact .expression (.false rfl) hops
  | @unary e ts _ _ _ ih =>
    intro power z e' z' _ hz helse hops
    obtain ⟨ht, rfl, hw⟩ := hw
    have hpower (q : Precedence) (_ : .lowest < q) (hq : Precedence.unary.rank ≤ q.rank) :
        .unary < q ∨ q = .unary := by
      cases q <;> first | exact .inr rfl | exact .inl (by decide) | exact absurd hq (by decide)
    have hread : Reads (.expression .unary) (ts ++ z) e z :=
      ih hw hpower (Nat.not_lt.mp hz) helse (.stop hz)
    exact .expression (.unary (ht.imp (congrArg _) (congrArg _)) hread) hops
  | @binary l ts r ts' t _ _ _ ih ih' =>
    intro power z e' z' hp hz helse hops
    obtain ⟨hop, -, rfl, hwl, hwr⟩ := hw
    have hpower := hp.resolve_right fun hunary =>
      Nat.lt_irrefl _ (hunary ▸ lt_unary_of_mem_binaryOperators hop)
    -- The operators of the left operand end at this one, those of the right operand before the rest.
    have hr : Reads (.expression (.ofKind t.kind)) (ts' ++ z) r z :=
      ih' hwr (fun q _ hq => .inl hq) (Nat.le_succ_of_le (Nat.not_lt.mp hz)) helse (.stop hz)
    have hl : Reads (.expression power) (ts ++ t :: (ts' ++ z)) e' z' :=
      ih hwl (fun q _ hq => .inl (Nat.lt_of_lt_of_le hpower hq)) (Nat.le_refl _)
        (ne_elseWord_of_mem_binaryOperators hop)
        (.binary hpower (ne_lparen_of_mem_binaryOperators hop) hr hops)
    simpa using hl
  | @cond c ts ss ts₁ t w _ _ ih ih' =>
    intro power z e' z' _ _ helse hops
    obtain ⟨rfl, hwc, rfl, hws⟩ := hw
    have hc := (ih hwc).lowest (ends_token (k := .rparen)
      (z := Kind.lbrace.token :: (ts₁ ++ Kind.rbrace.token :: z)) (by simp))
    have hss := (ih' hws).1 (z := Kind.rbrace.token :: z) (.inl rfl)
    simpa using .expression (.cond rfl rfl hc rfl rfl hss helse) hops
  | @condElse c ts ss ts₁ ss' ts₂ t w y _ _ _ ih ih' ih'' =>
    intro power z e' z' _ _ _ hops
    obtain ⟨rfl, hwc, ⟨rfl, hws⟩, rfl, hws'⟩ := hw
    have hc := (ih hwc).lowest (ends_token (k := .rparen)
      (z := Kind.lbrace.token :: (ts₁ ++ Kind.rbrace.token :: Kind.elseWord.token ::
        Kind.lbrace.token :: (ts₂ ++ Kind.rbrace.token :: z))) (by simp))
    have hss := (ih' hws).1 (z := Kind.rbrace.token :: Kind.elseWord.token ::
      Kind.lbrace.token :: (ts₂ ++ Kind.rbrace.token :: z)) (.inl rfl)
    have hss' := (ih'' hws').1 (z := Kind.rbrace.token :: z) (.inl rfl)
    simpa using .expression (.condElse rfl rfl hc rfl rfl hss rfl rfl hss') hops
  | @function ss ts t xs w _ ih =>
    intro power z e' z' _ _ _ hops
    obtain ⟨rfl, hxs, rfl, hws⟩ := hw
    have hparameters := reads_parameterTokens (r := Kind.rparen.token)
      (z := Kind.lbrace.token :: (ts ++ Kind.rbrace.token :: z)) hxs rfl
    have hss := (ih hws).1 (z := Kind.rbrace.token :: z) (.inl rfl)
    simpa using .expression (.function rfl rfl hparameters rfl hss) hops
  | @call f ts es ts' t _ _ ih ih' =>
    intro power z e' z' hp _ _ hops
    obtain ⟨rfl, hwf, hwes⟩ := hw
    have hpower : power < .call := hp.resolve_right nofun
    have hcall := ih' hwes (r := Kind.rparen.token) rfl rfl hpower hops
    have hf : Reads (.expression power)
        (ts ++ Kind.lparen.token :: (ts' ++ Kind.rparen.token :: z)) e' z' :=
      ih hwf (fun q _ hq => .inl (Nat.lt_of_lt_of_le hpower hq)) (Nat.le_refl _) nofun hcall
    simpa using hf
  | noArguments =>
    intro power l t r z e' z' ht hr hp hops
    exact .callEmpty hp ht hr hops
  | @arguments e ts es ts' _ hmore ih ih' =>
    intro power l t r z e' z' ht hr hp hops
    have he := (ih hw.1).lowest (hmore.ends_moreArguments (z := z) hr)
    have hne : kindOf (ts ++ (ts' ++ r :: z)) ≠ .rparen := by
      intro hk
      have hhead := he.expression_head
      simp [operandKinds, hk] at hhead
    simpa using .call hp ht hne he (ih' hw.2 hr) hops
  | lastArgument =>
    intro r z hr
    exact .lastArgument hr
  | nextArgument _ hmore ih ih' =>
    intro r z hr
    have he := (ih hw.1).lowest (hmore.ends_moreArguments (z := z) hr)
    simpa using .nextArgument (t := Kind.comma.token) rfl he (ih' hw.2 hr)
  | noStatements => exact ⟨fun z hz => .endOfStatements hz, .endOfProgram rfl⟩
  | @statements s ts ss ts' _ _ ih ih' =>
    constructor
    · intro z hz
      simpa using (ih hw.1).statements_cons ((ih' hw.2).1 hz)
    · exact (ih hw.1).program_cons (ih' hw.2).2
  | letStmt _ ih =>
    intro z
    obtain ⟨rfl, hx, hw⟩ := hw
    have he := (ih hw).lowest (ends_token (k := .semicolon) (z := z) (by simp))
    have hread := Reads.letStmt (t := Kind.letWord.token) (v := Kind.assign.token) rfl hx.2.1 rfl he
    rw [← hx.1] at hread
    simpa [dropSemicolon] using hread
  | returnStmt _ ih =>
    intro z
    obtain ⟨rfl, hw⟩ := hw
    have he := (ih hw).lowest (ends_token (k := .semicolon) (z := z) (by simp))
    simpa [dropSemicolon] using Reads.returnStmt (t := Kind.returnWord.token) rfl he
  | @exprStmt t e ts hfirst _ ih =>
    intro z
    have he := (ih hw).lowest (ends_token (k := .semicolon) (z := z) (by simp))
    obtain ⟨ts, rfl⟩ := List.head?_eq_some_iff.mp (hfirst trivial)
    simpa [dropSemicolon] using he.expr_statement
  | block _ ih =>
    intro z
    obtain ⟨rfl, hw⟩ := hw
    have hss := (ih hw).1 (z := Kind.rbrace.token :: z) (.inl rfl)
    simpa using Reads.blockStmt (t := Kind.lbrace.token) rfl hss

/-- A printed program is read back. -/
theorem Program.Prints.reads {p : Program} (h : p.Prints True ts) (hw : p.WellFormed) :
    Reads .program ts p.statements [] :=
  (MonkeyLang.Prints.readBack h hw).2

end MonkeyLang
