import MonkeyLang.Proofs.Parser.Accepts
import MonkeyLang.Proofs.Syntax.WellFormed

/-!
# The tokens of a tree

The tokens that a tree keeps, from left to right, are taken from the text in order, whether or not the
text has errors, and the tree is well-formed (`Goal.inOrder`). What carries this through all the
productions is how far the parser has come: `Taken S ws ts` says that all of the text `S` but `ts` was
passed, and `ws` was taken from there. A production that fails keeps what was taken before it.
-/

namespace MonkeyLang

open MonkeyLang.Parser

/-! ## The tokens that a tree keeps -/

mutual

/-- The tokens that the nodes of a tree keep, in the order of the text. An expression statement only
repeats a token. -/
@[simp] def Expr.walk : Expr → List Token
  | .ident x => [x.token]
  | .int t _ => [t]
  | .bool t _ => [t]
  | .unary t _ e => t :: e.walk
  | .binary t l _ r => l.walk ++ t :: r.walk
  | .cond t c b none => t :: (c.walk ++ b.walk)
  | .cond t c b (some a) => t :: (c.walk ++ (b.walk ++ a.walk))
  | .function t xs b => t :: (xs.map (·.token) ++ b.walk)
  | .call t f es => f.walk ++ t :: Expr.walkEach es

@[simp] def Expr.walkEach : List Expr → List Token
  | [] => []
  | e :: es => e.walk ++ Expr.walkEach es

@[simp] def Stmt.walk : Stmt → List Token
  | .letStmt t x e => t :: x.token :: e.walk
  | .returnStmt t e => t :: e.walk
  | .expr _ e => e.walk
  | .block b => b.walk

@[simp] def Block.walk : Block → List Token
  | ⟨t, ss⟩ => t :: Stmt.walkAll ss

@[simp] def Stmt.walkAll : List Stmt → List Token
  | [] => []
  | s :: ss => s.walk ++ Stmt.walkAll ss

end

def Program.walk (p : Program) : List Token := Stmt.walkAll p.statements

namespace Goal

/-- The tokens that are kept of what a goal reads. -/
@[simp] def walk : (g : Goal) → g.Result → List Token
  | parameters | moreParameters => List.map (·.token)
  | expression _ | operators .. | operand => Expr.walk
  | moreArguments => Expr.walkEach
  | statements | program => Stmt.walkAll
  | statement => Stmt.walk

def WellFormed : (g : Goal) → g.Result → Prop
  | parameters | moreParameters => fun xs => ∀ x ∈ xs, x.WellFormed
  | expression _ | operators .. | operand => Expr.WellFormed
  | moreArguments => Expr.EachWellFormed
  | statements | program => Stmt.EachWellFormed
  | statement => Stmt.WellFormed

end Goal

/-! ## How far the parser has come -/

/-- Of the text `S` the tokens `ts` are left, and `ws` was taken in order from what was before. -/
def Taken (S ws ts : List Token) : Prop := ∃ us, S = us ++ ts ∧ ws.Sublist us

namespace Taken

theorem weaken (h : Taken S ws ts) (hws : ws'.Sublist ws) : Taken S ws' ts :=
  let ⟨us, hS, hus⟩ := h
  ⟨us, hS, hws.trans hus⟩

theorem take (h : Taken S ws (t :: ts)) : Taken S (ws ++ [t]) ts := by
  obtain ⟨us, hS, hus⟩ := h
  exact ⟨us ++ [t], by simpa using hS, hus.append (.refl _)⟩

theorem mem (h : Taken S ws (t :: ts)) : t ∈ S := by
  obtain ⟨us, rfl, -⟩ := h
  exact List.mem_append_right _ List.mem_cons_self

end Taken

namespace Parser

/-- The tokens `ws` were taken, all of them before the current token. -/
def Before (S ws : List Token) (p : Parser) : Prop := Taken S ws p.tokens

/-- The tokens `ws` were taken, the last of them at the current token or before it. -/
def After (S ws : List Token) (p : Parser) : Prop := Taken S ws p.tokens.tail

namespace Before

variable {S ws : List Token} {p : Parser} (h : Before S ws p)
include h

theorem pass : After S ws p := by
  unfold Before at h
  unfold After
  cases hts : p.tokens with
  | nil => exact (hts ▸ h : Taken S ws [])
  | cons t ts => exact (hts ▸ h).take.weaken (List.sublist_append_left ..)

variable (hk : kindOf p.tokens = k) (hne : k ≠ .eof)
include hk hne

theorem take : After S (ws ++ [firstOf p.tokens]) p := by
  unfold Before After at *
  cases hts : p.tokens with
  | nil => exact absurd (by rw [← hk, hts]; rfl) hne
  | cons t ts => exact (hts ▸ h).take

theorem mem : firstOf p.tokens ∈ S := by
  unfold Before at h
  cases hts : p.tokens with
  | nil => exact absurd (by rw [← hk, hts]; rfl) hne
  | cons t ts => exact (hts ▸ h).mem

end Before

theorem After.sat_expect {P : Unit → Parser → Prop} (h : After S ws' p) (hws : ws.Sublist ws')
    (hP : Before S ws' p.advance → kindOf p.advance.tokens = kind → P () p.advance) :
    (expect kind p).Sat True P (After S ws) := by
  rw [Parser.sat_expect]
  split
  · next hk => exact hP h hk
  · exact h.weaken hws

theorem After.sat_skipIf {P : Bool → Parser → Prop} (h : After S ws p)
    (hP : Before S ws p.advance → kindOf p.advance.tokens = kind → P true p.advance)
    (hP' : P false p) : (skipIf kind p).Sat True P F := by
  rw [Parser.sat_skipIf]
  split
  · next hk => exact hP h hk
  · exact hP'

/-- The goal was read after `ws` was taken. -/
def Collects (S ws : List Token) (g : Goal) (a : g.Result) (p : Parser) : Prop :=
  After S (ws ++ g.walk a) p ∧ g.WellFormed a

/-- The goal can be read after `ws` was taken; operators go on with a left operand. -/
def Starts (S ws : List Token) (g : Goal) (p : Parser) : Prop :=
  match g with
  | .operators _ l => After S (ws ++ l.walk) p ∧ l.WellFormed
  | g => Taken S ws (g.input p)

end Parser

/-! ## Tokens as a text spells them -/

/-- The tokens are spelled as those of a text. -/
def Spelling (S : List Token) : Prop := ∀ t ∈ S, t.kind ≠ .illegal → t.Spelled

namespace Spelling

variable {ws : List Token} {p : Parser} (hS : Spelling S) (h : Before S ws p)
include hS h

theorem spelled (hk : kindOf p.tokens = k) (hne : k ≠ .illegal) (hne' : k ≠ .eof) :
    (firstOf p.tokens).Spelled :=
  hS _ (h.mem hk hne') fun hillegal => hne (hk.symm.trans hillegal)

theorem identifier (hk : kindOf p.tokens = .ident) :
    (Identifier.ofToken (firstOf p.tokens)).WellFormed := by
  have hspelled := hS.spelled h hk (by decide) (by decide)
  rw [Token.Spelled, kind_firstOf, hk] at hspelled
  exact ⟨rfl, hk, hspelled⟩

theorem number (hk : kindOf p.tokens = .int) : IsNumber (firstOf p.tokens).literal := by
  have hspelled := hS.spelled h hk (by decide) (by decide)
  rwa [Token.Spelled, kind_firstOf, hk] at hspelled

theorem eq_token (hk : kindOf p.tokens = k) (hne : k ∉ [Kind.illegal, .eof, .ident, .int]) :
    firstOf p.tokens = k.token :=
  (hS.spelled h hk (fun h => hne (by simp [h])) fun h => hne (by simp [h])).eq_token hk hne

end Spelling

/-! ## Productions -/

/-- Whatever a budget of `n` gives of a goal takes its tokens in order and is well-formed. -/
def InOrder (S : List Token) (n : Nat) : Prop :=
  ∀ (g : Goal) (ws : List Token) (p : Parser), Starts S ws g p →
    (g.run n p).Sat True (Collects S ws g) (After S ws)

/-- The production of a goal as one step of a larger one, before which `ws` was taken. -/
theorem InOrder.sat {P : g.Result → Parser → Prop} (H : InOrder S n) (hstart : Starts S ws' g p)
    (hws : ws.Sublist ws') (hP : ∀ a p', After S (ws' ++ g.walk a) p' → g.WellFormed a → P a p') :
    (g.run n p).Sat True P (After S ws) :=
  (H g ws' p hstart).mono (fun a p' h => hP a p' h.1 h.2) fun _ h => h.weaken hws

variable {S ws : List Token} {p : Parser}

section
variable (H : ∀ m < n, InOrder S m)
include H

theorem collects_expression (h : Before S ws p) :
    (Parser.expression n power p).Sat True (Collects S ws (.expression power)) (After S ws) := by
  cases n with
  | zero => trivial
  | succ n =>
    have ih := H n (Nat.lt_succ_self n)
    simp only [Parser.expression, atLevel_eq, sat_bind]
    refine ih.sat (g := .operand) h (by simp) fun l p₁ hl hw => ?_
    exact ih (.operators power l) ws p₁ ⟨hl, hw⟩

theorem collects_group (h : Before S ws p) :
    (Parser.group n p).Sat True (Collects S ws .operand) (After S ws) := by
  cases n with
  | zero => trivial
  | succ n =>
    simp only [Parser.group, sat_bind, sat_skip, sat_pure]
    refine (H n (Nat.lt_succ_self n)).sat (g := .expression .lowest) h.pass (by simp)
      fun e p₁ he hw => ?_
    exact After.sat_expect he (by simp) fun hparen _ => ⟨hparen.pass, hw⟩

theorem collects_moreArguments (h : After S ws p) :
    (Parser.moreArguments n p).Sat True (Collects S ws .moreArguments) (After S ws) := by
  cases n with
  | zero => trivial
  | succ n =>
    have ih := H n (Nat.lt_succ_self n)
    rw [Parser.moreArguments, sat_bind]
    refine After.sat_skipIf h (fun hcomma _ => ?_) ?_
    · simp only [if_true, sat_bind, sat_skip, sat_pure]
      refine ih.sat (g := .expression .lowest) hcomma.pass (by simp) fun e p₁ he hw => ?_
      refine ih.sat (g := .moreArguments) he (by simp) fun es p' hes hws => ?_
      exact ⟨by simpa using hes, hw, hws⟩
    · simp only [Bool.false_eq_true, if_false, sat_bind, sat_pure]
      refine After.sat_expect h (by simp) fun hparen _ => ⟨?_, trivial⟩
      simpa using hparen.pass

/-- A list of statements goes on after a statement, or without it if there was an error. -/
theorem collects_listed {more : Production (List Stmt)}
    (hmore : ∀ ws p, Before S ws p → (more p).Sat True (Collects S ws .statements) (After S ws))
    (h : Before S ws p) (hm : m < n) :
    (Parser.statement m p).Sat True
      (fun s p₁ => ∀ q : Parser, q.tokens = p₁.tokens →
        (more q.advance).Sat True (fun ss => Collects S ws .statements (s :: ss)) (After S ws))
      fun p₁ => (more p₁.advance).Sat True (Collects S ws .statements) (After S ws) := by
  refine (H m hm .statement ws p h).mono (fun s p₁ hs q hq => ?_) fun p₁ hp₁ => hmore ws _ hp₁
  have hnext : Before S (ws ++ s.walk) q.advance := by
    rw [Before, tokens_advance, hq]
    exact hs.1
  refine (hmore _ _ hnext).mono (fun ss p' hss => ⟨?_, hs.2, hss.2⟩)
    fun p' hp' => hp'.weaken (by simp)
  simpa using hss.1

theorem collects_blockStatements (h : Before S ws p) :
    (blockStatements n p).Sat True (Collects S ws .statements) (After S ws) := by
  cases n with
  | zero => trivial
  | succ n =>
    rw [blockStatements]
    simp only [atLevel_eq, sat_bind, sat_currentToken]
    split
    · exact ⟨by simpa using h.pass, trivial⟩
    · simp only [sat_bind, sat_attempt, sat_skip, sat_pure]
      have hlisted := collects_listed H (fun ws p hp => H n (Nat.lt_succ_self n) .statements ws p hp) h
        (Nat.lt_succ_self n)
      exact hlisted.mono (fun s p₁ hs => hs p₁ rfl) fun _ h => h

theorem collects_programStatements (h : Before S ws p) :
    (programStatements n p).Sat True (Collects S ws .program) (After S ws) := by
  cases n with
  | zero => trivial
  | succ n =>
    rw [programStatements]
    simp only [atLevel_eq, sat_bind, sat_currentToken]
    split
    · exact ⟨by simpa using h.pass, trivial⟩
    · simp only [sat_bind, sat_attempt, sat_skip, sat_pure, sat_note]
      have hlisted := collects_listed H (fun ws p hp => H n (Nat.lt_succ_self n) .program ws p hp) h
        (Nat.lt_succ_self n)
      exact hlisted.mono (fun s p₁ hs => hs _ rfl) fun _ h => h

end

section
variable (hS : Spelling S) (H : ∀ m < n, InOrder S m)
include hS H

theorem collects_moreParameters (h : After S ws p) :
    (Parser.moreParameters n p).Sat True (Collects S ws .moreParameters) (After S ws) := by
  cases n with
  | zero => trivial
  | succ n =>
    rw [Parser.moreParameters, sat_bind]
    refine After.sat_skipIf h (fun hcomma _ => ?_) ?_
    · simp only [if_true, sat_bind, sat_currentToken, sat_pure]
      refine After.sat_expect hcomma.pass (by simp) fun hname hk => ?_
      refine (H n (Nat.lt_succ_self n)).sat (g := .moreParameters)
        (hname.take hk (by decide)) (by simp) fun xs p' hxs hw => ?_
      refine ⟨by simpa [Identifier.ofToken] using hxs, ?_⟩
      exact List.forall_mem_cons.mpr ⟨hS.identifier hname hk, hw⟩
    · simp only [Bool.false_eq_true, if_false, sat_bind, sat_pure]
      refine After.sat_expect h (by simp) fun hparen _ => ⟨?_, List.forall_mem_nil _⟩
      simpa using hparen.pass

theorem collects_parameters (h : After S ws p) :
    (Parser.parameters n p).Sat True (Collects S ws .parameters) (After S ws) := by
  rw [Parser.parameters, sat_bind]
  refine After.sat_skipIf h (fun hparen _ => ⟨?_, List.forall_mem_nil _⟩) ?_
  · simpa using hparen.pass
  · simp only [Bool.false_eq_true, if_false, sat_bind, sat_currentToken, sat_pure]
    refine After.sat_expect h (by simp) fun hname hk => ?_
    refine (collects_moreParameters hS H (hname.take hk (by decide))).mono (fun xs p' hxs => ?_)
      fun p' hp' => hp'.weaken (by simp)
    refine ⟨by simpa [Identifier.ofToken] using hxs.1, ?_⟩
    exact List.forall_mem_cons.mpr ⟨hS.identifier hname hk, hxs.2⟩

theorem collects_unary (h : Before S ws p)
    (hk : kindOf p.tokens = .bang ∨ kindOf p.tokens = .minus) :
    (Parser.unary n p).Sat True (Collects S ws .operand) (After S ws) := by
  have htoken : After S (ws ++ [firstOf p.tokens]) p ∧
      (firstOf p.tokens = Kind.bang.token ∨ firstOf p.tokens = Kind.minus.token) := by
    rcases hk with hk | hk
    · exact ⟨h.take hk (by decide), .inl (hS.eq_token h hk (by decide))⟩
    · exact ⟨h.take hk (by decide), .inr (hS.eq_token h hk (by decide))⟩
  cases n with
  | zero => trivial
  | succ n =>
    simp only [Parser.unary, sat_bind, sat_currentToken, sat_skip, sat_pure]
    refine (H n (Nat.lt_succ_self n)).sat (g := .expression .unary) htoken.1 (by simp)
      fun e p' he hw => ⟨?_, htoken.2, rfl, hw⟩
    simpa using he

theorem collects_binary (h : Before S (ws ++ l.walk) p) (hl : l.WellFormed)
    (hk : power < Precedence.ofKind (kindOf p.tokens)) (hk' : kindOf p.tokens ≠ .lparen) :
    (Parser.binary n l p).Sat True (Collects S ws .operand) (After S ws) := by
  have hop : kindOf p.tokens ∈ binaryOperators := operator_of_lt hk hk'
  have hmark := mark_of_mem_binaryOperators hop
  have heof : kindOf p.tokens ≠ .eof := fun heof => absurd hmark (by simp [heof])
  cases n with
  | zero => trivial
  | succ n =>
    simp only [Parser.binary, sat_bind, sat_currentToken, sat_skip, sat_pure]
    refine (H n (Nat.lt_succ_self n)).sat (g := .expression (.ofKind (kindOf p.tokens)))
      (h.take rfl heof) (by simp) fun r p' hr hw => ⟨?_, hop, ?_, rfl, hl, hw⟩
    · simpa using hr
    · exact hS.eq_token h rfl hmark

theorem collects_callOf (h : Before S (ws ++ f.walk) p) (hf : f.WellFormed)
    (hk : kindOf p.tokens = .lparen) :
    (Parser.callOf n f p).Sat True (Collects S ws .operand) (After S ws) := by
  have htoken := hS.eq_token h hk (by decide)
  cases n with
  | zero => trivial
  | succ n =>
    have ih := H n (Nat.lt_succ_self n)
    simp only [Parser.callOf, sat_bind, sat_currentToken]
    refine After.sat_skipIf (h.take hk (by decide)) (fun hparen _ => ?_) ?_
    · exact ⟨by simpa using hparen.pass, htoken, hf, trivial⟩
    · simp only [Bool.false_eq_true, if_false, sat_bind, sat_skip, sat_pure]
      refine ih.sat (g := .expression .lowest) (h.take hk (by decide)) (by simp)
        fun e p₁ he hw => ?_
      refine ih.sat (g := .moreArguments) he (by simp) fun es p' hes hws => ?_
      exact ⟨by simpa using hes, htoken, hf, hw, hws⟩

theorem collects_operators (h : After S (ws ++ l.walk) p) (hl : l.WellFormed) :
    (Parser.operators n power l p).Sat True (Collects S ws (.operators power l)) (After S ws) := by
  cases n with
  | zero => trivial
  | succ n =>
    obtain ⟨H', ih⟩ := Nat.forall_lt_succ_right.mp H
    have hloop : ∀ e p₁, Collects S ws .operand e p₁ →
        (Parser.operators n power e p₁).Sat True (Collects S ws (.operators power l)) (After S ws) :=
      fun e p₁ he => ih (.operators power e) ws p₁ he
    simp only [Parser.operators, sat_bind, sat_nextKind]
    split
    · next hk =>
      simp only [sat_bind, sat_skip]
      split
      · next hp =>
        rw [sat_bind]
        exact (collects_callOf hS H' (p := p.advance) h hl hp).mono hloop fun _ h => h
      · next hp =>
        rw [sat_bind]
        exact (collects_binary hS H' (p := p.advance) h hl hk hp).mono hloop fun _ h => h
    · exact ⟨h, hl⟩

theorem collects_block (h : Before S ws p) (hk : kindOf p.tokens = .lbrace) :
    (Parser.block n p).Sat True (fun b p' => After S (ws ++ b.walk) p' ∧ b.WellFormed)
      (After S ws) := by
  cases n with
  | zero => trivial
  | succ n =>
    simp only [Parser.block, sat_bind, sat_note, sat_currentToken, sat_skip, sat_pure]
    refine (H n (Nat.lt_succ_self n)).sat (g := .statements) (h.take hk (by decide)) (by simp)
      fun ss p' hss hw => ?_
    exact ⟨by simpa using hss, hS.eq_token h hk (by decide), hw⟩

/-- A block as one step of a larger construct. -/
theorem collects_block_of {P : Block → Parser → Prop} (h : Before S ws' p)
    (hk : kindOf p.tokens = .lbrace) (hws : ws.Sublist ws')
    (hP : ∀ b p', After S (ws' ++ b.walk) p' → b.WellFormed → P b p') :
    (Parser.block n p).Sat True P (After S ws) :=
  (collects_block hS H h hk).mono (fun b p' hb => hP b p' hb.1 hb.2) fun _ h => h.weaken hws

theorem collects_conditional (h : Before S ws p) (hk : kindOf p.tokens = .ifWord) :
    (Parser.conditional n p).Sat True (Collects S ws .operand) (After S ws) := by
  have htoken := hS.eq_token h hk (by decide)
  cases n with
  | zero => trivial
  | succ n =>
    obtain ⟨H', ih⟩ := Nat.forall_lt_succ_right.mp H
    simp only [Parser.conditional, sat_bind, sat_note, sat_currentToken, sat_skip]
    refine After.sat_expect (h.take hk (by decide)) (by simp) fun hparen _ => ?_
    refine ih.sat (g := .expression .lowest) hparen.pass (by simp) fun c p₁ hc hwc => ?_
    refine After.sat_expect hc (by simp) fun hparen _ => ?_
    refine After.sat_expect hparen.pass (by simp) fun hbrace hk => ?_
    refine collects_block_of hS H' hbrace hk (by simp) fun b p₂ hb hwb => ?_
    refine After.sat_skipIf hb (fun helse _ => ?_) ?_
    · simp only [if_true, sat_bind, sat_pure]
      refine After.sat_expect helse.pass (by simp) fun hbrace hk => ?_
      refine collects_block_of hS H' hbrace hk (by simp) fun b' p' hb' hwb' => ?_
      exact ⟨by simpa using hb', htoken, hwc, hwb, hwb'⟩
    · exact ⟨by simpa using hb, htoken, hwc, hwb⟩

theorem collects_functionLiteral (h : Before S ws p) (hk : kindOf p.tokens = .fnWord) :
    (Parser.functionLiteral n p).Sat True (Collects S ws .operand) (After S ws) := by
  have htoken := hS.eq_token h hk (by decide)
  cases n with
  | zero => trivial
  | succ n =>
    obtain ⟨H', ih⟩ := Nat.forall_lt_succ_right.mp H
    simp only [Parser.functionLiteral, sat_bind, sat_note, sat_currentToken, sat_pure]
    refine After.sat_expect (h.take hk (by decide)) (by simp) fun hparen _ => ?_
    refine ih.sat (g := .parameters) hparen.pass (by simp) fun xs p₁ hxs hwxs => ?_
    refine After.sat_expect hxs (by simp) fun hbrace hk => ?_
    refine collects_block_of hS H' hbrace hk (by simp) fun b p' hb hwb => ?_
    exact ⟨by simpa using hb, htoken, hwxs, hwb⟩

theorem collects_letStatement (h : Before S ws p) (hk : kindOf p.tokens = .letWord) :
    (letStatement n p).Sat True (Collects S ws .statement) (After S ws) := by
  have htoken := hS.eq_token h hk (by decide)
  cases n with
  | zero => trivial
  | succ n =>
    simp only [letStatement, sat_bind, sat_note, sat_currentToken, sat_skip, sat_pure]
    refine After.sat_expect (h.take hk (by decide)) (by simp) fun hname hk' => ?_
    refine After.sat_expect (hname.take hk' (by decide)) (by simp) fun hassign _ => ?_
    refine (H n (Nat.lt_succ_self n)).sat (g := .expression .lowest) hassign.pass (by simp)
      fun e p₁ he hw => ?_
    have hx := hS.identifier hname hk'
    have hread : Collects S ws .statement
        (.letStmt (firstOf p.tokens) (.ofToken (firstOf p.advance.tokens)) e) p₁ :=
      ⟨by simpa [Identifier.ofToken] using he, htoken, hx, hw⟩
    exact After.sat_skipIf hread.1 (fun hsemicolon _ => ⟨hsemicolon.pass, hread.2⟩) hread

theorem collects_returnStatement (h : Before S ws p) (hk : kindOf p.tokens = .returnWord) :
    (returnStatement n p).Sat True (Collects S ws .statement) (After S ws) := by
  have htoken := hS.eq_token h hk (by decide)
  cases n with
  | zero => trivial
  | succ n =>
    simp only [returnStatement, sat_bind, sat_note, sat_currentToken, sat_skip, sat_pure]
    refine (H n (Nat.lt_succ_self n)).sat (g := .expression .lowest)
      (h.take hk (by decide)) (by simp) fun e p₁ he hw => ?_
    have hread : Collects S ws .statement (.returnStmt (firstOf p.tokens) e) p₁ :=
      ⟨by simpa using he, htoken, hw⟩
    exact After.sat_skipIf hread.1 (fun hsemicolon _ => ⟨hsemicolon.pass, hread.2⟩) hread

theorem collects_statement (h : Before S ws p) :
    (Parser.statement n p).Sat True (Collects S ws .statement) (After S ws) := by
  cases n with
  | zero => trivial
  | succ n =>
    obtain ⟨H', ih⟩ := Nat.forall_lt_succ_right.mp H
    simp only [Parser.statement, sat_bind, sat_currentToken]
    rw [kind_firstOf]
    cases hk : kindOf p.tokens with
    | letWord => exact collects_letStatement hS H' h hk
    | returnWord => exact collects_returnStatement hS H' h hk
    | lbrace =>
      rw [sat_bind]
      exact collects_block_of hS H' h hk (by simp) fun b p' hb hw => ⟨hb, hw⟩
    | _ =>
      simp only [sat_bind, sat_pure]
      refine ih.sat (g := .expression .lowest) h (by simp) fun e p₁ he hw => ?_
      exact After.sat_skipIf he (fun hsemicolon _ => ⟨hsemicolon.pass, hw⟩) ⟨he, hw⟩

theorem collects_operand (h : Before S ws p) :
    (Parser.operand n p).Sat True (Collects S ws .operand) (After S ws) := by
  cases n with
  | zero => trivial
  | succ n =>
    have H' := (Nat.forall_lt_succ_right.mp H).1
    simp only [Parser.operand, sat_bind, sat_note, sat_currentToken]
    rw [kind_firstOf]
    cases hk : kindOf p.tokens with
    | ident => exact ⟨h.take hk (by decide), hS.identifier h hk⟩
    | int =>
      simp only [integer, sat_bind, sat_currentToken]
      cases hi : integer? (firstOf p.tokens).literal with
      | none => exact h.pass
      | some m => exact ⟨h.take hk (by decide), hk, hS.number h hk, hi⟩
    | trueWord => exact ⟨h.take hk (by decide), hS.eq_token h hk (by decide)⟩
    | falseWord => exact ⟨h.take hk (by decide), hS.eq_token h hk (by decide)⟩
    | bang => exact collects_unary hS H' h (.inl hk)
    | minus => exact collects_unary hS H' h (.inr hk)
    | lparen => exact collects_group H' h
    | ifWord => exact collects_conditional hS H' h hk
    | fnWord => exact collects_functionLiteral hS H' h hk
    | _ => exact h.pass

end

/-- What a production gives of a goal, whatever the budget, takes its tokens from the text in order
and is well-formed. -/
theorem Goal.inOrder (hS : Spelling S) : ∀ n, InOrder S n := by
  intro n
  induction n using Nat.strongRecOn with
  | _ n H =>
    intro g ws p h
    cases g with
    | parameters => exact collects_parameters hS H h
    | moreParameters => exact collects_moreParameters hS H h
    | expression => exact collects_expression H h
    | operators => exact collects_operators hS H h.1 h.2
    | operand => exact collects_operand hS H h
    | moreArguments => exact collects_moreArguments H h
    | statements => exact collects_blockStatements H h
    | statement => exact collects_statement hS H h
    | program => exact collects_programStatements H h

/-! ## Whole texts -/

theorem spelling_tokens (l : Lexer) : Spelling l.tokens := fun _ => Lexer.spelled

namespace Parser

/-- The tokens of a program are taken from its text in order, and the program is well-formed. -/
theorem program_takes (l : Lexer) (log : Log) :
    (ofLexer l log).program.1.walk.Sublist l.tokens ∧ (ofLexer l log).program.1.WellFormed := by
  refine program_of_sat (P := fun program _ => program.walk.Sublist l.tokens ∧ program.WellFormed)
    fun p hts hes => ?_
  rw [tokens_ofLexer] at hts
  have hstart : Before l.tokens [] p := ⟨[], by rw [hts]; rfl, .refl _⟩
  have hsat := Goal.sat_run (ofLexer l log).budget .program p
    (by simpa [hts] using cost_le_budget (ofLexer l log))
  have hin := Goal.inOrder (spelling_tokens l) (ofLexer l log).budget .program [] p hstart
  refine (hsat.and hin).mono (fun ss q hq => ?_) fun q _ => ⟨List.nil_sublist _, trivial⟩
  obtain ⟨⟨us, hus, hwalk⟩, hw⟩ := hq.2
  exact ⟨hus ▸ hwalk.trans (List.sublist_append_left ..), hw⟩

end Parser

/-- Every tree of a text is well-formed, also where the text has errors. -/
theorem parse_wellFormed (source : String) : (parse source).1.WellFormed :=
  (Parser.program_takes (.ofString source) {}).2

end MonkeyLang
