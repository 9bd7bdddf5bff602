import MonkeyLang.Proofs.Parser.Greedy
import MonkeyLang.Proofs.Parser.Progress
import MonkeyLang.Proofs.Parser.Sound
import MonkeyLang.Proofs.Token.Lexer

/-!
# The parser accepts its grammar

A text is parsed without errors if and only if its tokens are a program of the grammar
(`parse_noErrors_iff`). What is missing for that is that closing braces at the end of the tokens make
no difference (`Reads.withoutBraces`).
-/

namespace MonkeyLang

/-! ## Missing braces -/

theorem cons_of_padded (h : t :: us = ts ++ braces n) (ht : t.kind ≠ .rbrace) :
    ∃ vs, ts = t :: vs ∧ us = vs ++ braces n := by
  cases ts with
  | nil =>
    cases n with
    | zero => cases h
    | succ n =>
      obtain ⟨rfl, -⟩ := List.cons.inj h
      exact absurd rfl ht
  | cons u vs =>
    obtain ⟨rfl, rfl⟩ := List.cons.inj h
    exact ⟨vs, rfl, rfl⟩

theorem kindOf_padded (ts : List Token) (n : Nat) : kindOf (ts ++ braces n) = kindOf ts ∨
    kindOf ts = .eof ∧ kindOf (ts ++ braces n) = .rbrace := by
  cases ts with
  | nil =>
    cases n with
    | zero => exact .inl rfl
    | succ n => exact .inr ⟨rfl, rfl⟩
  | cons t ts => exact .inl rfl

theorem dropSemicolon_padded : dropSemicolon (ts ++ braces n) = dropSemicolon ts ++ braces n := by
  cases ts with
  | nil => cases n <;> rfl
  | cons t ts =>
    by_cases h : t.kind = .semicolon <;> simp [dropSemicolon, h]

/-- Closing braces at the end make no difference. -/
theorem Reads.withoutBraces (h : Reads g us a us') : ∀ ts n, us = ts ++ braces n →
    ∃ ts' m, us' = ts' ++ braces m ∧ Reads g ts a ts' := by
  induction h with
  | noParameters ht =>
    intro ts n h
    obtain ⟨vs, rfl, rfl⟩ := cons_of_padded h (by simp [ht])
    exact ⟨vs, n, rfl, .noParameters ht⟩
  | parameters ht _ ih =>
    intro ts n h
    obtain ⟨vs, rfl, rfl⟩ := cons_of_padded h (by simp [ht])
    obtain ⟨ts', m, rfl, hread⟩ := ih vs n rfl
    exact ⟨ts', m, rfl, .parameters ht hread⟩
  | lastParameter ht =>
    intro ts n h
    obtain ⟨vs, rfl, rfl⟩ := cons_of_padded h (by simp [ht])
    exact ⟨vs, n, rfl, .lastParameter ht⟩
  | nextParameter ht hu _ ih =>
    intro ts n h
    obtain ⟨vs, rfl, hs₁⟩ := cons_of_padded h (by simp [ht])
    obtain ⟨vs, rfl, rfl⟩ := cons_of_padded hs₁ (by simp [hu])
    obtain ⟨ts', m, rfl, hread⟩ := ih vs n rfl
    exact ⟨ts', m, rfl, .nextParameter ht hu hread⟩
  | expression _ _ ih ih' =>
    intro ts n h
    obtain ⟨ts₁, m, rfl, hread⟩ := ih ts n h
    obtain ⟨ts', m', rfl, hread'⟩ := ih' ts₁ m rfl
    exact ⟨ts', m', rfl, .expression hread hread'⟩
  | stop h =>
    rintro ts n rfl
    refine ⟨ts, n, rfl, .stop ?_⟩
    obtain h' | ⟨h', -⟩ := kindOf_padded ts n
    · rwa [h'] at h
    · rw [h']
      exact Nat.not_lt_zero _
  | binary h ht _ _ ih ih' =>
    intro ts n hts
    obtain ⟨vs, rfl, rfl⟩ := cons_of_padded hts fun hk => Nat.not_lt_zero _ (hk ▸ h)
    obtain ⟨ts₁, m, rfl, hread⟩ := ih vs n rfl
    obtain ⟨ts', m', rfl, hread'⟩ := ih' ts₁ m rfl
    exact ⟨ts', m', rfl, .binary h ht hread hread'⟩
  | callEmpty h ht hu _ ih =>
    intro ts n hts
    obtain ⟨vs, rfl, hs₁⟩ := cons_of_padded hts (by simp [ht])
    obtain ⟨vs, rfl, rfl⟩ := cons_of_padded hs₁ (by simp [hu])
    obtain ⟨ts', m, rfl, hread⟩ := ih vs n rfl
    exact ⟨ts', m, rfl, .callEmpty h ht hu hread⟩
  | call h ht hk _ _ _ ih ih' ih'' =>
    intro ts n hts
    obtain ⟨vs, rfl, rfl⟩ := cons_of_padded hts (by simp [ht])
    obtain ⟨ts₁, m, rfl, hread⟩ := ih vs n rfl
    obtain ⟨ts₂, m, rfl, hread'⟩ := ih' ts₁ m rfl
    obtain ⟨ts', m, rfl, hread''⟩ := ih'' ts₂ m rfl
    refine ⟨ts', m, rfl, .call h ht ?_ hread hread' hread''⟩
    obtain h' | ⟨h', -⟩ := kindOf_padded vs n
    · rwa [h'] at hk
    · simp [h']
  | ident ht =>
    intro ts n h
    obtain ⟨vs, rfl, rfl⟩ := cons_of_padded h (by simp [ht])
    exact ⟨vs, n, rfl, .ident ht⟩
  | int ht hi =>
    intro ts n h
    obtain ⟨vs, rfl, rfl⟩ := cons_of_padded h (by simp [ht])
    exact ⟨vs, n, rfl, .int ht hi⟩
  | true ht =>
    intro ts n h
    obtain ⟨vs, rfl, rfl⟩ := cons_of_padded h (by simp [ht])
    exact ⟨vs, n, rfl, .true ht⟩
  | false ht =>
    intro ts n h
    obtain ⟨vs, rfl, rfl⟩ := cons_of_padded h (by simp [ht])
    exact ⟨vs, n, rfl, .false ht⟩
  | unary ht _ ih =>
    intro ts n h
    obtain ⟨vs, rfl, rfl⟩ := cons_of_padded h (by rcases ht with ht | ht <;> simp [ht])
    obtain ⟨ts', m, rfl, hread⟩ := ih vs n rfl
    exact ⟨ts', m, rfl, .unary ht hread⟩
  | group ht _ hu ih =>
    intro ts n h
    obtain ⟨vs, rfl, rfl⟩ := cons_of_padded h (by simp [ht])
    obtain ⟨ts₁, m, hs₁, hread⟩ := ih vs n rfl
    obtain ⟨ts', rfl, rfl⟩ := cons_of_padded hs₁ (by simp [hu])
    exact ⟨ts', m, rfl, .group ht hread hu⟩
  | cond ht hu _ hv hw _ hx ih ih' =>
    intro ts n h
    obtain ⟨vs, rfl, hs₁⟩ := cons_of_padded h (by simp [ht])
    obtain ⟨vs, rfl, rfl⟩ := cons_of_padded hs₁ (by simp [hu])
    obtain ⟨ts₁, m, hs₂, hread⟩ := ih vs n rfl
    obtain ⟨ts₁, rfl, hs₃⟩ := cons_of_padded hs₂ (by simp [hv])
    obtain ⟨ts₁, rfl, rfl⟩ := cons_of_padded hs₃ (by simp [hw])
    obtain ⟨ts', m', rfl, hread'⟩ := ih' ts₁ m rfl
    refine ⟨ts', m', rfl, .cond ht hu hread hv hw hread' ?_⟩
    obtain h' | ⟨h', -⟩ := kindOf_padded ts' m'
    · rwa [h'] at hx
    · simp [h']
  | condElse ht hu _ hv hw _ hx hy _ ih ih' ih'' =>
    intro ts n h
    obtain ⟨vs, rfl, hs₁⟩ := cons_of_padded h (by simp [ht])
    obtain ⟨vs, rfl, rfl⟩ := cons_of_padded hs₁ (by simp [hu])
    obtain ⟨ts₁, m, hs₂, hread⟩ := ih vs n rfl
    obtain ⟨ts₁, rfl, hs₃⟩ := cons_of_padded hs₂ (by simp [hv])
    obtain ⟨ts₁, rfl, rfl⟩ := cons_of_padded hs₃ (by simp [hw])
    obtain ⟨ts₂, m, hs₄, hread'⟩ := ih' ts₁ m rfl
    obtain ⟨ts₂, rfl, hs₅⟩ := cons_of_padded hs₄ (by simp [hx])
    obtain ⟨ts₂, rfl, rfl⟩ := cons_of_padded hs₅ (by simp [hy])
    obtain ⟨ts', m, rfl, hread''⟩ := ih'' ts₂ m rfl
    exact ⟨ts', m, rfl, .condElse ht hu hread hv hw hread' hx hy hread''⟩
  | function ht hu _ hw _ ih ih' =>
    intro ts n h
    obtain ⟨vs, rfl, hs₁⟩ := cons_of_padded h (by simp [ht])
    obtain ⟨vs, rfl, rfl⟩ := cons_of_padded hs₁ (by simp [hu])
    obtain ⟨ts₁, m, hs₂, hread⟩ := ih vs n rfl
    obtain ⟨ts₁, rfl, rfl⟩ := cons_of_padded hs₂ (by simp [hw])
    obtain ⟨ts', m, rfl, hread'⟩ := ih' ts₁ m rfl
    exact ⟨ts', m, rfl, .function ht hu hread hw hread'⟩
  | lastArgument ht =>
    intro ts n h
    obtain ⟨vs, rfl, rfl⟩ := cons_of_padded h (by simp [ht])
    exact ⟨vs, n, rfl, .lastArgument ht⟩
  | nextArgument ht _ _ ih ih' =>
    intro ts n h
    obtain ⟨vs, rfl, rfl⟩ := cons_of_padded h (by simp [ht])
    obtain ⟨ts₁, m, rfl, hread⟩ := ih vs n rfl
    obtain ⟨ts', m', rfl, hread'⟩ := ih' ts₁ m rfl
    exact ⟨ts', m', rfl, .nextArgument ht hread hread'⟩
  | endOfStatements h =>
    rintro ts n rfl
    cases ts with
    | nil => exact ⟨[], n - 1, by simp [braces], .endOfStatements (.inr rfl)⟩
    | cons t ts => exact ⟨ts, n, rfl, .endOfStatements h⟩
  | statements ht ht' _ _ ih ih' =>
    intro ts n h
    obtain ⟨vs, rfl, rfl⟩ := cons_of_padded h ht
    obtain ⟨ts₁, m, rfl, hread⟩ := ih (_ :: vs) n rfl
    obtain ⟨ts', m', rfl, hread'⟩ := ih' ts₁ m rfl
    exact ⟨ts', m', rfl, .statements ht ht' hread hread'⟩
  | letStmt ht hu hv _ ih =>
    intro ts n h
    obtain ⟨vs, rfl, hs₁⟩ := cons_of_padded h (by simp [ht])
    obtain ⟨vs, rfl, hs₂⟩ := cons_of_padded hs₁ (by simp [hu])
    obtain ⟨vs, rfl, rfl⟩ := cons_of_padded hs₂ (by simp [hv])
    obtain ⟨ts', m, rfl, hread⟩ := ih vs n rfl
    exact ⟨_, m, dropSemicolon_padded, .letStmt ht hu hv hread⟩
  | returnStmt ht _ ih =>
    intro ts n h
    obtain ⟨vs, rfl, rfl⟩ := cons_of_padded h (by simp [ht])
    obtain ⟨ts', m, rfl, hread⟩ := ih vs n rfl
    exact ⟨_, m, dropSemicolon_padded, .returnStmt ht hread⟩
  | blockStmt ht _ ih =>
    intro ts n h
    obtain ⟨vs, rfl, rfl⟩ := cons_of_padded h (by simp [ht])
    obtain ⟨ts', m, rfl, hread⟩ := ih vs n rfl
    exact ⟨ts', m, rfl, .blockStmt ht hread⟩
  | exprStmt ht ht' ht'' _ ih =>
    intro ts n h
    obtain ⟨ts', m, rfl, hread⟩ := ih ts n h
    cases ts with
    | nil => exact absurd hread.length_le (by simp)
    | cons t ts =>
      obtain ⟨rfl, rfl⟩ := List.cons.inj h
      exact ⟨_, m, dropSemicolon_padded, .exprStmt ht ht' ht'' hread⟩
  | endOfProgram h =>
    rintro ts n rfl
    cases ts with
    | nil => exact ⟨[], n - 1, by simp [braces], .endOfProgram rfl⟩
    | cons t ts => exact ⟨ts, n, rfl, .endOfProgram h⟩
  | program ht _ _ ih ih' =>
    intro ts n h
    obtain ⟨ts₁, m, rfl, hread⟩ := ih ts n h
    obtain ⟨ts', m', rfl, hread'⟩ := ih' ts₁ m rfl
    cases ts with
    | nil => exact absurd hread.length_le (by simp)
    | cons t ts =>
      obtain ⟨rfl, rfl⟩ := List.cons.inj h
      exact ⟨ts', m', rfl, .program ht hread hread'⟩

theorem grammatical_iff_reads {ts : List Token} (hw : Whole ts) :
    Grammatical ts ↔ ∃ ss, Reads .program ts ss [] := by
  constructor
  · rintro ⟨n, h⟩
    obtain ⟨ss, hss⟩ := reads_program (derives_rule.mp h)
    obtain ⟨ts', m, h, hread⟩ := hss.withoutBraces ts n rfl
    obtain ⟨rfl, -⟩ := List.append_eq_nil_iff.mp h.symm
    exact ⟨ss, hread⟩
  · rintro ⟨ss, h⟩
    obtain ⟨-, u, n, hu, hn, -⟩ := h.takes hw
    rw [List.append_nil] at hn
    exact ⟨n, hn ▸ hu⟩

/-! ## Whole texts -/

namespace Parser

@[simp] theorem tokens_ofLexer (l : Lexer) (log : Log) : (ofLexer l log).tokens = l.tokens := by
  simp [ofLexer, Lexer.tokens]

@[simp] theorem errors_ofLexer (l : Lexer) (log : Log) : (ofLexer l log).errors = #[] := by
  simp [ofLexer]

/-- What holds of every outcome of the statements holds of the whole program. -/
theorem program_of_sat {P : Program → Array ParseError → Prop} {p : Parser}
    (h : ∀ p', p'.tokens = p.tokens → p'.errors = p.errors → (programStatements p.budget p').Sat False
      (fun ss q => P ⟨ss⟩ q.errors) fun q => P ⟨[]⟩ q.errors) :
    P p.program.1 p.program.2.errors := by
  have hsat := h { p with log := p.log.record .info .parser fun _ => "Beginning parse phase" } rfl rfl
  unfold program
  simp only [budget] at hsat ⊢
  split
  · next heq =>
    rw [heq] at hsat
    exact hsat
  · next heq =>
    rw [heq] at hsat
    exact hsat
  · next heq =>
    rw [heq] at hsat
    exact hsat.elim

theorem cost_le_budget (p : Parser) : 3 * p.tokens.length + Goal.program.cost ≤ p.budget := by
  simp only [budget, Goal.cost]
  omega

/-- What is read without errors is the result, whatever was logged before. -/
theorem program_of_reads (h : Reads .program (Lexer.ofString source).tokens ss ts') (log : Log) :
    (ofLexer (.ofString source) log).program.1 = ⟨ss⟩ ∧
      (ofLexer (.ofString source) log).program.2.errors = #[] := by
  refine program_of_sat (P := fun pr es => pr = ⟨ss⟩ ∧ es = #[]) fun p hts hes => ?_
  have hrun := h.run (n := (ofLexer (.ofString source) log).budget) (p := p) (by simp [hts])
    (by simpa using cost_le_budget (ofLexer (.ofString source) log))
  exact hrun.sat fun q _ hq => ⟨rfl, by rw [hq, hes, errors_ofLexer]⟩

/-- A program without errors was read. -/
theorem reads_of_program (log : Log)
    (h : (ofLexer (.ofString source) log).program.2.errors = #[]) :
    ∃ ss ts', Reads .program (Lexer.ofString source).tokens ss ts' := by
  refine program_of_sat (P := fun _ es => es = #[] → ∃ ss ts',
      Reads .program (Lexer.ofString source).tokens ss ts') (p := ofLexer (.ofString source) log)
    (fun p hts hes => ?_) h
  have hrun := Goal.sat_run (ofLexer (.ofString source) log).budget .program p
    (by simpa [hts] using cost_le_budget (ofLexer (.ofString source) log))
  rw [errors_ofLexer] at hes
  rw [tokens_ofLexer] at hts
  refine hrun.mono (fun ss q hq hnone => ?_) fun q hq hnone => ?_
  · have hread : Reads .program p.tokens ss q.tokens.tail := hq.2.2 (by rw [hnone, hes])
    exact ⟨ss, _, hts ▸ hread⟩
  · exact absurd hq.1 (by simp [hnone])

end Parser

theorem parse_of_reads (h : Reads .program (Lexer.ofString source).tokens ss ts') :
    parse source = (⟨ss⟩, []) := by
  obtain ⟨hprogram, herrors⟩ := Parser.program_of_reads h {}
  simp [parse, hprogram, herrors]

theorem reads_of_parse (h : (parse source).2 = []) :
    ∃ ss ts', Reads .program (Lexer.ofString source).tokens ss ts' :=
  Parser.reads_of_program {} (by simpa [parse] using h)

/-- Nothing is left of a program that is read. -/
theorem Reads.eq_nil (h : Reads .program ts ss ts') (hw : Whole ts) : ts' = [] := by
  induction hk : ts.length using Nat.strongRecOn generalizing ts ss with
  | _ k ih =>
    subst hk
    cases h with
    | endOfProgram he => rw [hw.eq_nil he, List.tail_nil]
    | program _ hs h =>
      have hlen := hs.length_le
      simp at hlen
      exact ih _ (by simp; omega) h (hs.takes hw).1 rfl

/-- A text is parsed without errors if and only if its tokens are a program of the grammar. -/
theorem parse_noErrors_iff (source : String) :
    (parse source).2 = [] ↔ Grammatical (Lexer.ofString source).tokens := by
  have hw : Whole (Lexer.ofString source).tokens := fun t => Lexer.kind_ne_eof
  rw [grammatical_iff_reads hw]
  constructor
  · intro h
    obtain ⟨ss, ts', hread⟩ := reads_of_parse h
    exact ⟨ss, hread.eq_nil hw ▸ hread⟩
  · rintro ⟨ss, h⟩
    rw [parse_of_reads h]

end MonkeyLang
