import MonkeyLang.Proofs.Parser.Accepts
import MonkeyLang.Proofs.Parser.Meets
import MonkeyLang.Proofs.Token.Spaced

/-!
# The first error comes as early as it can

The verdict on a text is what its tokens, with the end of the text as the last, leave of the need for a
program: nothing, or the first error of the parser (`parse_verdict`). The error comes with a token. The
tokens before it can be completed to a text without errors, and with it they can not
(`firstError_earliest`).
-/

namespace MonkeyLang

open MonkeyLang.Parser

theorem Parser.Outcome.Sat.bears {P : α → Parser → Prop} {F : Parser → Prop} {o : Outcome α}
    (h : o.Sat False P F) (hb : o.Bears es v k) :
    o.Sat False (fun _ p => p.errors = es ∧ v = k p.tokens.tail ∨ FirstError es p.errors v)
      fun p => FirstError es p.errors v := by
  cases o with
  | done a p => exact hb.2
  | failed p => exact hb.2
  | exhausted => exact h

/-- The first error of a text is the one that its tokens come to. -/
theorem parse_verdict (source : String) :
    (parse source).2 = [] ∧ Need.run [.program] (Lexer.ofString source).rest = .ok [] ∨
      ∃ e es, (parse source).2 = e :: es ∧
        Need.run [.program] (Lexer.ofString source).rest = .error e := by
  have hverdict := Parser.program_of_sat (p := .ofLexer (.ofString source))
    (P := fun _ es => es = #[] ∧ Need.run [.program] (Lexer.ofString source).rest = .ok [] ∨
      FirstError #[] es (Need.run [.program] (Lexer.ofString source).rest)) fun p hts hes => by
    rw [tokens_ofLexer] at hts
    rw [errors_ofLexer] at hes
    have hw : Whole p.tokens := hts ▸ fun t => Lexer.kind_ne_eof
    have hrun := Goal.sat_run (Parser.ofLexer (.ofString source)).budget .program p
      (by simpa [hts] using cost_le_budget (.ofLexer (.ofString source)))
    have hbears := Goal.meets (Parser.ofLexer (.ofString source)).budget .program p hw []
    simp only [Goal.needs, Goal.input, hts, hes, List.append_nil, Need.run_nil] at hbears
    exact (hrun.bears hbears).mono (fun _ _ h => h) fun _ => .inr
  have hparse : (parse source).2 = (Parser.ofLexer (.ofString source)).program.2.errors.toList := rfl
  rcases hverdict with ⟨hes, hv⟩ | ⟨e, es, hes, hv⟩
  · exact .inl ⟨by rw [hparse, hes], hv⟩
  · exact .inr ⟨e, es, hparse.trans hes, hv⟩

theorem parse_eq_nil_iff (source : String) :
    (parse source).2 = [] ↔ Need.run [.program] (Lexer.ofString source).rest = .ok [] := by
  rcases parse_verdict source with ⟨hes, hv⟩ | ⟨e, es, hes, hv⟩
  · simp [hes, hv]
  · simp [hes, hv]

/-- Tokens of a text that no need refuses go on to a text without errors. -/
theorem exists_completion (hts : ∀ t ∈ ts, t.kind ≠ .eof ∧ (t.kind ≠ .illegal → t.Spelled))
    (hK : Need.run [.program] ts = .ok K) :
    ∃ source, (parse source).2 = [] ∧ ts <+: (Lexer.ofString source).rest := by
  obtain ⟨hopen, hlegal⟩ := (Need.Open.below .program).run (fun t ht => (hts t ht).1) hK
  have hspelled : ∀ t ∈ ts ++ K.flatMap Need.finish, t.Spelled := by
    rw [List.forall_mem_append]
    exact ⟨fun t ht => (hts t ht).2 (hlegal t ht), hopen.spelled_finish⟩
  obtain ⟨text, htext⟩ := exists_spaced (ts ++ K.flatMap Need.finish)
  have hrest : (Lexer.ofString (" " ++ text)).rest = ts ++ (K.flatMap Need.finish ++ [.eof]) := by
    rw [← List.append_assoc, ← htext.tokens_ofString hspelled]
    rfl
  refine ⟨" " ++ text, ?_, hrest ▸ List.prefix_append ..⟩
  rw [parse_eq_nil_iff, hrest, Need.run_append, hK]
  exact hopen.run_finish

/-- The first error of a text is reported at the earliest possible token. The tokens before it, but
not with it, are the beginning of a text without errors; and the error names the token. -/
theorem firstError_earliest {source : String} (h : (parse source).2 ≠ []) :
    ∃ ts t us e es, (Lexer.ofString source).rest = ts ++ t :: us ∧ (parse source).2 = e :: es ∧
      e.Names t ∧
      (∃ source', (parse source').2 = [] ∧ ts <+: (Lexer.ofString source').rest) ∧
      ∀ source', (parse source').2 = [] → ¬ts ++ [t] <+: (Lexer.ofString source').rest := by
  obtain ⟨e, es, hes, hv⟩ := (parse_verdict source).resolve_left fun hnone => h hnone.1
  obtain ⟨ts, t, us, K, hrest, hK, herror⟩ := Need.exists_of_run_error hv
  refine ⟨ts, t, us, e, es, hrest, hes, Need.names_of_advance herror, ?_, ?_⟩
  · refine exists_completion (fun u hu => ?_) hK
    -- the tokens before the one refused are not the end of the text
    have htokens : (Lexer.ofString source).tokens = ts ++ (t :: us).dropLast := by
      rw [← List.dropLast_append_of_ne_nil (List.cons_ne_nil t us), ← hrest]
      exact List.dropLast_concat.symm
    have hmem : u ∈ (Lexer.ofString source).tokens := htokens ▸ List.mem_append_left _ hu
    exact ⟨Lexer.kind_ne_eof hmem, Lexer.spelled hmem⟩
  · rintro source' hnone ⟨vs, hvs⟩
    rw [parse_eq_nil_iff, ← hvs, List.append_assoc, Need.run_append, hK] at hnone
    have hrefused : Need.run K (t :: vs) = .error e := by
      rw [Need.run_cons, herror]
      rfl
    cases hrefused.symm.trans hnone

/-- The second token of this text is at fault: after `let` comes a name. -/
theorem firstError_earliest_letNumber :
    (parse "let 5;").2 ≠ [] ∧ ∃ ts t us e es, (Lexer.ofString "let 5;").rest = ts ++ t :: us ∧
      (parse "let 5;").2 = e :: es ∧
      e.Names t ∧
      (∃ source', (parse source').2 = [] ∧ ts <+: (Lexer.ofString source').rest) ∧
      ∀ source', (parse source').2 = [] → ¬ts ++ [t] <+: (Lexer.ofString source').rest := by
  have h : (parse "let 5;").2 ≠ [] := by decide +kernel
  exact ⟨h, firstError_earliest h⟩

end MonkeyLang
