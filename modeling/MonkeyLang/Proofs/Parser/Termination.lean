import MonkeyLang.Proofs.Parser.Attempts

/-!
# The end of a parse

Whatever the text is, and however many of its tokens are taken from the reader before the parser gets
it, the parse comes to the end of the text, and then there is nothing left to parse
(`program_comes_to_end`). The productions call each other with one less of the budget, so a budget
bounds how deep they are nested; three levels for each token that is left suffice, and four more, and
what is parsed does not depend on the budget from there on.

That the end is reached takes an argument of its own, for the parser stops at any token that says that
it is the end of the text. The tokens at any moment are the last ones of those at the start
(`Parser.Spans`), and no token of a text says so.
-/

namespace MonkeyLang

namespace Lexer

/-- The reader after the next `n` tokens were taken from it. -/
def skip : Nat → Lexer → Lexer
  | 0, l => l
  | n + 1, l => skip n l.next.2

theorem tokens_next (l : Lexer) : l.next.2.tokens = l.tokens.tail := by
  cases hts : l.tokens with
  | nil =>
    rw [next, lexeme?_of_tokens_eq_nil hts]
    rfl
  | cons t ts =>
    obtain ⟨x, l', hx, -, hts', -⟩ := lexeme?_of_tokens_eq_cons hts
    rw [next, hx]
    exact hts'

@[simp] theorem tokens_skip (n : Nat) (l : Lexer) : (l.skip n).tokens = l.tokens.drop n := by
  induction n generalizing l with
  | zero => rfl
  | succ n ih => rw [skip, ih, tokens_next, List.drop_tail]

end Lexer

namespace Parser

/-- No token is left after a parse. -/
theorem tokens_program {p : Parser} (hp : Whole p.tokens) : p.program.2.tokens = [] := by
  obtain ⟨ss, q, hrun, -, hafter⟩ := p.exists_attempts
  have hspans := (Accounts.programStatements [] p.budget).spans p.begun
  rw [hrun] at hspans
  have hsuffix : q.tokens <:+ p.tokens := hspans.1.suffix
  obtain ⟨ss', q', hq, -, hafter'⟩ := exists_program p
  have heof : kindOf q'.tokens = .eof := by
    have hends := ends_programStatements p.budget p.begun
    rwa [hq] at hends
  rw [← hafter'.1, hafter.1] at heof
  rw [hafter.1]
  exact Whole.eq_nil (fun t ht => hp t (hsuffix.subset ht)) heof

/-- Where no token is left, there is nothing to parse. -/
theorem program_of_tokens_eq_nil {p : Parser} (h : p.tokens = []) :
    p.program.1 = ⟨[]⟩ ∧ p.program.2.errors = p.errors := by
  obtain ⟨ss, q, hq, hss, -, herrors⟩ := exists_program p
  have hdone : programStatements p.budget p.begun = .done [] p.begun := by
    simp only [budget, programStatements, atLevel_eq, bind_apply]
    show (if kindOf p.tokens = .eof then _ else _ : Production (List Stmt)) p.begun = _
    rw [if_pos (by rw [h]; rfl)]
    rfl
  rw [hdone] at hq
  cases hq
  exact ⟨hss, herrors⟩

/-- Every budget that suffices gives what the parse gives. -/
theorem programStatements_of_le {p : Parser} (hn : 3 * p.tokens.length + 4 ≤ n) :
    ∃ q : Parser, programStatements n p = .done p.program.1.statements q ∧ p.program.2.Level q := by
  obtain ⟨ss, q, hq, hss, hafter⟩ := exists_program p
  obtain ⟨ss', q', hq', -⟩ := exists_done_programStatements hn
  have hagree := Agree.programStatements p.budget n p.begun p (level_begun p)
  rw [hq, hq'] at hagree
  cases hagree with
  | done hlevel => exact ⟨q', by rw [hq', hss], hafter.trans hlevel⟩

end Parser

open MonkeyLang.Parser in
/-- A parse comes to the end of the text, also if `k` tokens were skipped first, and its productions are
nested at most three deep for each token that is left, and four more, whatever the tokens are. The end
of the text is the current token then, and to parse again gives nothing, not even an error. -/
theorem program_comes_to_end (source : String) (k : Nat) (log : Log) :
    let p := ofLexer ((Lexer.ofString source).skip k) log
    p.tokens = (Lexer.ofString source).tokens.drop k ∧
      (∀ m, ∃ q : Parser, programStatements (3 * p.tokens.length + 4 + m) p =
        .done p.program.1.statements q ∧ p.program.2.Level q) ∧
      (p.program.2.tokens = [] ∧ p.program.2.current = .eof) ∧
      p.program.2.program.1 = ⟨[]⟩ ∧ p.program.2.program.2.errors = p.program.2.errors := by
  intro p
  have hp : p.tokens = (Lexer.ofString source).tokens.drop k := by
    rw [tokens_ofLexer, Lexer.tokens_skip]
  have hend : p.program.2.tokens = [] :=
    tokens_program (hp ▸ fun t ht => Lexer.kind_ne_eof (List.mem_of_mem_drop ht))
  refine ⟨hp, fun m => programStatements_of_le (Nat.le_add_right _ m), ⟨hend, ?_⟩,
    program_of_tokens_eq_nil hend⟩
  rw [current, hend]
  rfl

end MonkeyLang
