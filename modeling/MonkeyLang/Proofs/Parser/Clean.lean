import MonkeyLang.Proofs.Parser.Reads

/-!
# The rules are what the productions do

A production that is given enough budget does what a rule of `Reads` says (`Reads.run`), and one that
records no error does nothing else (`Goal.sat_run`).
-/

namespace MonkeyLang

open MonkeyLang.Parser

theorem length_dropSemicolon_le (ts : List Token) : (dropSemicolon ts).length ≤ ts.length := by
  unfold dropSemicolon
  split
  · exact ts.length_tail ▸ Nat.sub_le ..
  · exact Nat.le_refl _

/-- The least number of tokens of a goal. -/
@[simp] def Goal.least : Goal → Nat
  | expression _ | operand | statement => 1
  | parameters | moreParameters | operators .. | moreArguments | statements | program => 0

theorem Reads.length_le (h : Reads g ts a ts') : ts'.length + g.least ≤ ts.length := by
  induction h with
  | letStmt _ _ _ _ ih | returnStmt _ _ ih | exprStmt _ _ _ _ ih =>
    refine Nat.le_trans (Nat.add_le_add_right (length_dropSemicolon_le _) _) ?_
    simp at ih ⊢
    omega
  | endOfStatements | endOfProgram => simp
  | _ => simp at * <;> omega

/-- The outcome is the value `a`, the tokens `ts` are left, and the errors are `es`. -/
def Parser.Outcome.Gives (o : Outcome α) (a : α) (ts : List Token) (es : Array ParseError) : Prop :=
  o.Sat False (fun b p => b = a ∧ p.tokens.tail = ts ∧ p.errors = es) fun _ => False

theorem Parser.Outcome.Gives.sat {P : α → Parser → Prop} {F : Parser → Prop} {o : Outcome α}
    (h : o.Gives a ts es) (hP : ∀ p, p.tokens.tail = ts → p.errors = es → P a p) : o.Sat False P F :=
  Outcome.Sat.mono h (fun _ p ⟨ha, hts, hes⟩ => ha ▸ hP p hts hes) nofun

/-- With enough budget a production does what the rules say. -/
theorem Reads.run (h : Reads g ts a ts') : ∀ {n p}, g.input p = ts → 3 * ts.length + g.cost ≤ n →
    (g.run n p).Gives a ts' p.errors := by
  induction h with
  | noParameters ht =>
    intro n p hin hn
    simp at hin
    simp [Outcome.Gives, Parser.parameters, hin, ht]
  | parameters ht _ ih =>
    intro n p hin hn
    simp at hin hn ih
    simp [Outcome.Gives, Parser.parameters, hin, ht]
    refine (ih (by simp [hin]) (by omega)).sat fun p' hts he => ⟨rfl, hts, he.trans (by simp)⟩
  | lastParameter ht =>
    intro n p hin hn
    obtain ⟨n, rfl⟩ := Nat.exists_eq_add_of_le' (Nat.le_trans (by simp) hn : 1 ≤ n)
    simp at hin
    simp [Outcome.Gives, Parser.moreParameters, hin, ht]
  | nextParameter ht hu _ ih =>
    intro n p hin hn
    obtain ⟨n, rfl⟩ := Nat.exists_eq_add_of_le' (Nat.le_trans (by simp) hn : 1 ≤ n)
    simp at hin hn ih
    simp [Outcome.Gives, Parser.moreParameters, hin, ht, hu]
    exact (ih (by simp [hin]) (by omega)).sat fun p' hts he => ⟨rfl, hts, he.trans (by simp)⟩
  | expression hl _ ih ih' =>
    intro n p hin hn
    obtain ⟨n, rfl⟩ := Nat.exists_eq_add_of_le' (Nat.le_trans (by simp) hn : 1 ≤ n)
    have := hl.length_le
    simp at hin hn ih ih' this
    simp [Outcome.Gives, Parser.expression]
    refine (ih hin (by omega)).sat fun p₁ hts he => ?_
    exact (ih' hts (by omega)).sat fun p' hts' he' => ⟨rfl, hts', he'.trans he⟩
  | stop h =>
    intro n p hin hn
    obtain ⟨n, rfl⟩ := Nat.exists_eq_add_of_le' (Nat.le_trans (by simp) hn : 1 ≤ n)
    simp at hin
    simp [Outcome.Gives, Parser.operators, hin, h]
  | binary h ht hr _ ih ih' =>
    intro n p hin hn
    obtain ⟨n, rfl⟩ := Nat.exists_eq_add_of_le' (Nat.le_trans (by simp; omega) hn : 2 ≤ n)
    have := hr.length_le
    simp at hin hn ih ih' this
    rw [Outcome.Gives, Goal.run, Parser.operators]
    simp [Parser.binary, hin, h, ht]
    refine (ih (by simp [hin]) (by omega)).sat fun p₁ hts he => ?_
    exact (ih' hts (by omega)).sat fun p' hts' he' => ⟨rfl, hts', he'.trans (he.trans (by simp))⟩
  | callEmpty h ht hu _ ih =>
    intro n p hin hn
    obtain ⟨n, rfl⟩ := Nat.exists_eq_add_of_le' (Nat.le_trans (by simp; omega) hn : 2 ≤ n)
    simp at hin hn ih
    rw [Outcome.Gives, Goal.run, Parser.operators]
    simp [callOf, hin, h, ht, hu, Precedence.ofKind]
    exact (ih (by simp [hin]) (by omega)).sat fun p' hts he => ⟨rfl, hts, he.trans (by simp)⟩
  | call h ht hu ha has _ ih ih' ih'' =>
    intro n p hin hn
    obtain ⟨n, rfl⟩ := Nat.exists_eq_add_of_le' (Nat.le_trans (by simp; omega) hn : 2 ≤ n)
    have hl := ha.length_le
    have hl' := has.length_le
    simp at hin hn ih ih' ih'' hl hl'
    rw [Outcome.Gives, Goal.run, Parser.operators]
    simp [callOf, hin, h, ht, hu, Precedence.ofKind]
    refine (ih (by simp [hin]) (by omega)).sat fun p₁ hts he => ?_
    refine (ih' hts (by omega)).sat fun p₂ hts' he' => ?_
    exact (ih'' hts' (by omega)).sat fun p' hts he'' =>
      ⟨rfl, hts, he''.trans (he'.trans (he.trans (by simp)))⟩
  | ident ht =>
    intro n p hin hn
    obtain ⟨n, rfl⟩ := Nat.exists_eq_add_of_le' (Nat.le_trans (by simp) hn : 1 ≤ n)
    simp at hin
    simp [Outcome.Gives, Parser.operand, hin, ht]
  | int ht hi =>
    intro n p hin hn
    obtain ⟨n, rfl⟩ := Nat.exists_eq_add_of_le' (Nat.le_trans (by simp) hn : 1 ≤ n)
    simp at hin
    simp [Outcome.Gives, Parser.operand, hin, ht, hi]
  | true ht | false ht =>
    intro n p hin hn
    obtain ⟨n, rfl⟩ := Nat.exists_eq_add_of_le' (Nat.le_trans (by simp) hn : 1 ≤ n)
    simp at hin
    simp [Outcome.Gives, Parser.operand, hin, ht]
  | unary ht _ ih =>
    intro n p hin hn
    obtain ⟨n, rfl⟩ := Nat.exists_eq_add_of_le' (Nat.le_trans (by simp; omega) hn : 2 ≤ n)
    simp at hin hn ih
    obtain ht | ht := ht <;> simp [Outcome.Gives, Parser.operand, Parser.unary, hin, ht] <;>
    exact (ih (by simp) (by omega)).sat fun p' hts he => ⟨rfl, hts, he.trans (by simp)⟩
  | group ht _ hu ih =>
    intro n p hin hn
    obtain ⟨n, rfl⟩ := Nat.exists_eq_add_of_le' (Nat.le_trans (by simp; omega) hn : 2 ≤ n)
    simp at hin hn ih
    simp [Outcome.Gives, Parser.operand, Parser.group, hin, ht]
    refine (ih (by simp) (by omega)).sat fun p' hts he => ?_
    simp [hts, hu, he]
  | cond ht hu hc hv hw hb hx ih ih' =>
    intro n p hin hn
    obtain ⟨n, rfl⟩ := Nat.exists_eq_add_of_le' (Nat.le_trans (by simp; omega) hn : 3 ≤ n)
    have := hc.length_le
    simp at hin hn ih ih' this
    simp [Outcome.Gives, Parser.operand, conditional, block, hin, ht, hu]
    refine (ih (by simp) (by omega)).sat fun p₁ hts he => ?_
    simp [hts, hv, hw]
    refine (ih' (by simp) (by omega)).sat fun p' hts' he' => ?_
    simp [hts', hx, he', he]
  | condElse ht hu hc hv hw hb hx hy _ ih ih' ih'' =>
    intro n p hin hn
    obtain ⟨n, rfl⟩ := Nat.exists_eq_add_of_le' (Nat.le_trans (by simp; omega) hn : 3 ≤ n)
    have hl := hc.length_le
    have hl' := hb.length_le
    simp at hin hn ih ih' ih'' hl hl'
    simp [Outcome.Gives, Parser.operand, conditional, block, hin, ht, hu]
    refine (ih (by simp) (by omega)).sat fun p₁ hts he => ?_
    simp [hts, hv, hw]
    refine (ih' (by simp) (by omega)).sat fun p₂ hts' he' => ?_
    simp [hts', hx, hy]
    refine (ih'' (by simp) (by omega)).sat fun p' hts'' he'' => ?_
    simp [hts'', he'', he', he]
  | function ht hu hxs hw _ ih ih' =>
    intro n p hin hn
    obtain ⟨n, rfl⟩ := Nat.exists_eq_add_of_le' (Nat.le_trans (by simp; omega) hn : 3 ≤ n)
    have := hxs.length_le
    simp at hin hn ih ih' this
    simp [Outcome.Gives, Parser.operand, functionLiteral, block, hin, ht, hu]
    refine (ih (by simp) (by omega)).sat fun p₁ hts he => ?_
    simp [hts, hw]
    refine (ih' (by simp) (by omega)).sat fun p' hts' he' => ?_
    simp [hts', he', he]
  | lastArgument ht =>
    intro n p hin hn
    obtain ⟨n, rfl⟩ := Nat.exists_eq_add_of_le' (Nat.le_trans (by simp) hn : 1 ≤ n)
    simp at hin
    simp [Outcome.Gives, Parser.moreArguments, hin, ht]
  | nextArgument ht he _ ih ih' =>
    intro n p hin hn
    obtain ⟨n, rfl⟩ := Nat.exists_eq_add_of_le' (Nat.le_trans (by simp) hn : 1 ≤ n)
    have := he.length_le
    simp at hin hn ih ih' this
    simp [Outcome.Gives, Parser.moreArguments, hin, ht]
    refine (ih (by simp [hin]) (by omega)).sat fun p₁ hts he => ?_
    exact (ih' hts (by omega)).sat fun p' hts' he' => ⟨⟨rfl, rfl⟩, hts', he'.trans (he.trans (by simp))⟩
  | endOfStatements ht =>
    intro n p hin hn
    obtain ⟨n, rfl⟩ := Nat.exists_eq_add_of_le' (Nat.le_trans (by simp) hn : 1 ≤ n)
    simp at hin
    simp [Outcome.Gives, blockStatements, hin, kind_firstOf, ht]
  | statements ht ht' hs _ ih ih' =>
    intro n p hin hn
    obtain ⟨n, rfl⟩ := Nat.exists_eq_add_of_le' (Nat.le_trans (by simp) hn : 1 ≤ n)
    have := hs.length_le
    simp at hin hn ih ih' this
    rw [Outcome.Gives, Goal.run, blockStatements]
    simp [hin, ht, ht']
    refine (ih hin (by omega)).sat fun p₁ hts he => ?_
    refine (ih' (by simp [hts]) (by omega)).sat fun p' hts' he' => ?_
    simp [hts', he', he]
  | letStmt ht hu hv _ ih =>
    intro n p hin hn
    obtain ⟨n, rfl⟩ := Nat.exists_eq_add_of_le' (Nat.le_trans (by simp) hn : 2 ≤ n)
    simp at hin hn ih
    simp [Outcome.Gives, Parser.statement, letStatement, hin, ht, hu, hv]
    refine (ih (by simp) (by omega)).sat fun p₁ hts he => ?_
    rw [hts, dropSemicolon]
    split <;> simp [he]
  | returnStmt ht _ ih =>
    intro n p hin hn
    obtain ⟨n, rfl⟩ := Nat.exists_eq_add_of_le' (Nat.le_trans (by simp) hn : 2 ≤ n)
    simp at hin hn ih
    simp [Outcome.Gives, Parser.statement, returnStatement, hin, ht]
    refine (ih (by simp) (by omega)).sat fun p₁ hts he => ?_
    rw [hts, dropSemicolon]
    split <;> simp [he]
  | blockStmt ht _ ih =>
    intro n p hin hn
    obtain ⟨n, rfl⟩ := Nat.exists_eq_add_of_le' (Nat.le_trans (by simp) hn : 2 ≤ n)
    simp at hin hn ih
    simp [Outcome.Gives, Parser.statement, block, hin, ht]
    refine (ih (by simp) (by omega)).sat fun p' hts he => ?_
    simp [hts, he]
  | exprStmt ht ht' ht'' _ ih =>
    intro n p hin hn
    obtain ⟨n, rfl⟩ := Nat.exists_eq_add_of_le' (Nat.le_trans (by simp) hn : 1 ≤ n)
    simp at hin hn ih
    simp [Outcome.Gives, Parser.statement, hin]
    refine (ih hin (by omega)).sat fun p₁ hts he => ?_
    rw [hts, dropSemicolon]
    split <;> simp [he]
  | endOfProgram ht =>
    intro n p hin hn
    obtain ⟨n, rfl⟩ := Nat.exists_eq_add_of_le' (Nat.le_trans (by simp) hn : 1 ≤ n)
    simp at hin
    simp [Outcome.Gives, programStatements, hin, kind_firstOf, ht]
  | program ht hs _ ih ih' =>
    intro n p hin hn
    obtain ⟨n, rfl⟩ := Nat.exists_eq_add_of_le' (Nat.le_trans (by simp) hn : 1 ≤ n)
    have := hs.length_le
    simp at hin hn ih ih' this
    rw [Outcome.Gives, Goal.run, programStatements]
    simp [hin, ht]
    refine (ih hin (by omega)).sat fun p₁ hts he => ?_
    refine (ih' (by simp [hts]) (by omega)).sat fun p' hts' he' => ?_
    simp [hts', he', he]

end MonkeyLang
