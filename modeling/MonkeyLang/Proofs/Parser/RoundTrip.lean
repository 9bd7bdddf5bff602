import MonkeyLang.Proofs.Parser.Accepts
import MonkeyLang.Proofs.Parser.ReadBack
import MonkeyLang.Proofs.Token.Spaced

/-!
# Parsing a printed program

A well-formed program written as tokens, with the tokens spelled in a text, is what parsing the text
gives (`parse_of_prints`).
-/

namespace MonkeyLang

/-! ## The tokens of printed trees -/

theorem forall_spelled_cons (h : k ∉ [Kind.illegal, .eof, .ident, .int]) :
    (∀ t ∈ k.token :: ts, t.Spelled) ↔ ∀ t ∈ ts, t.Spelled := by
  rw [List.forall_mem_cons, and_iff_right (spelled_token h)]

theorem forall_spelled_concat (h : k ∉ [Kind.illegal, .eof, .ident, .int]) :
    (∀ t ∈ ts ++ [k.token], t.Spelled) ↔ ∀ t ∈ ts, t.Spelled := by
  rw [List.forall_mem_append, List.forall_mem_singleton, and_iff_left (spelled_token h)]

theorem spelled_parameterTokens (h : ∀ x ∈ xs, x.WellFormed) :
    ∀ t ∈ parameterTokens xs, t.Spelled := by
  cases xs with
  | nil => exact nofun
  | cons x xs =>
    simp only [parameterTokens, List.mem_cons, List.mem_flatMap]
    rintro t (rfl | ⟨y, hy, rfl | rfl | ⟨⟨⟩⟩⟩)
    · exact (h x (.head _)).spelled
    · exact spelled_token (by decide)
    · exact (h y (.tail _ hy)).spelled

theorem Prints.spelled (h : Prints marked g a ts) (hw : g.WellFormed a) : ∀ t ∈ ts, t.Spelled := by
  induction h with
  | bare _ _ ih => exact ih hw
  | ident =>
    rw [List.forall_mem_singleton]
    exact Identifier.WellFormed.spelled hw
  | int =>
    rw [List.forall_mem_singleton]
    unfold Token.Spelled
    rw [hw.1]
    exact hw.2.1
  | @bool t b =>
    rw [List.forall_mem_singleton]
    obtain rfl : t = _ := hw
    cases b <;> exact spelled_token (by decide)
  | unary _ ih =>
    obtain ⟨rfl | rfl, -, hw⟩ := hw
    all_goals
      rw [forall_spelled_cons (by decide)]
      exact ih hw
  | binary _ _ ih ih' =>
    obtain ⟨hop, ht, -, hwl, hwr⟩ := hw
    rw [List.forall_mem_append, List.forall_mem_cons]
    exact ⟨ih hwl, Token.spelled_of_mem_binaryOperators hop ht, ih' hwr⟩
  | cond _ _ ih ih' =>
    obtain ⟨rfl, hwc, rfl, hws⟩ := hw
    simp (disch := decide) only [↓forall_spelled_concat, forall_spelled_cons, List.forall_mem_append]
    exact ⟨ih hwc, ih' hws⟩
  | condElse _ _ _ ih ih' ih'' =>
    obtain ⟨rfl, hwc, ⟨rfl, hws⟩, rfl, hws'⟩ := hw
    simp (disch := decide) only [↓forall_spelled_concat, forall_spelled_cons, List.forall_mem_append]
    exact ⟨ih hwc, ih' hws, ih'' hws'⟩
  | function _ ih =>
    obtain ⟨rfl, hxs, rfl, hws⟩ := hw
    simp (disch := decide) only [↓forall_spelled_concat, forall_spelled_cons, List.forall_mem_append]
    exact ⟨spelled_parameterTokens hxs, ih hws⟩
  | call _ _ ih ih' =>
    obtain ⟨rfl, hwf, hwes⟩ := hw
    simp (disch := decide) only [↓forall_spelled_concat, forall_spelled_cons, List.forall_mem_append]
    exact ⟨ih hwf, ih' hwes⟩
  | noArguments | lastArgument | noStatements => exact nofun
  | arguments _ _ ih ih' | statements _ _ ih ih' =>
    rw [List.forall_mem_append]
    exact ⟨ih hw.1, ih' hw.2⟩
  | nextArgument _ _ ih ih' =>
    rw [forall_spelled_cons (by decide), List.forall_mem_append]
    exact ⟨ih hw.1, ih' hw.2⟩
  | letStmt _ ih =>
    obtain ⟨rfl, hx, hw⟩ := hw
    rw [forall_spelled_cons (by decide), List.forall_mem_cons, forall_spelled_cons (by decide),
      forall_spelled_concat (by decide)]
    exact ⟨hx.spelled, ih hw⟩
  | returnStmt _ ih | block _ ih =>
    obtain ⟨rfl, hw⟩ := hw
    rw [forall_spelled_cons (by decide), forall_spelled_concat (by decide)]
    exact ih hw
  | parens _ ih =>
    rw [forall_spelled_cons (by decide), forall_spelled_concat (by decide)]
    exact ih hw
  | exprStmt _ _ ih =>
    rw [forall_spelled_concat (by decide)]
    exact ih hw

/-- Parsing inverts printing. Let a text spell the tokens that a well-formed program is written with.
Then the text is parsed without an error, as a program that differs at most in the tokens of its
expression statements, and there it has the first token that each of them is written with. -/
theorem parse_of_prints {p : Program} (h : p.Prints False ts) (hw : p.WellFormed)
    (hts : Spaced ts text) :
    ∃ p' : Program, parse text = (p', []) ∧ p'.unmarked = p.unmarked ∧ p'.Prints True ts := by
  obtain ⟨ss, hss, hprints⟩ := Prints.exists_marked h
  have hunmarked : Stmt.eachUnmarked ss = Stmt.eachUnmarked p.statements := hss
  have hwss : Stmt.EachWellFormed ss := by
    rw [← Stmt.eachWellFormed_unmarked, hunmarked, Stmt.eachWellFormed_unmarked]
    exact hw
  have htokens : (Lexer.ofString text).tokens = ts := hts.tokens_ofString (hprints.spelled hwss)
  have hreads : Reads .program ts ss [] := Program.Prints.reads (p := ⟨ss⟩) hprints hwss
  exact ⟨⟨ss⟩, parse_of_reads (htokens ▸ hreads), congrArg Program.mk hunmarked, hprints⟩

/-- `a - (b - 1);` with more parentheses around it and few blanks. -/
theorem parse_of_prints_difference :
    ∃ p' : Program, parse "(a-(b - 1)) ;" = (p', []) ∧
      p'.unmarked = ⟨[.expr .eof (.binary Kind.minus.token (.ident (.ofToken ⟨.ident, "a"⟩)) "-"
        (.binary Kind.minus.token (.ident (.ofToken ⟨.ident, "b"⟩)) "-" (.int ⟨.int, "1"⟩ 1)))]⟩ ∧
      p'.Prints True [Kind.lparen.token, ⟨.ident, "a"⟩, Kind.minus.token, Kind.lparen.token,
        ⟨.ident, "b"⟩, Kind.minus.token, ⟨.int, "1"⟩, Kind.rparen.token, Kind.rparen.token,
        Kind.semicolon.token] := by
  have htext : "(a-(b - 1)) ;" = "" ++ "(" ++ ("" ++ "a" ++ ("" ++ "-" ++ ("" ++ "(" ++ ("" ++ "b" ++
      (" " ++ "-" ++ (" " ++ "1" ++ ("" ++ ")" ++ ("" ++ ")" ++ (" " ++ ";" ++ ""))))))))) := by
    decide
  rw [htext]
  refine parse_of_prints (p := ⟨[.expr .eof (.binary Kind.minus.token
    (.ident (.ofToken ⟨.ident, "a"⟩)) "-"
    (.binary Kind.minus.token (.ident (.ofToken ⟨.ident, "b"⟩)) "-" (.int ⟨.int, "1"⟩ 1)))]⟩) ?_ ?_ ?_
  · exact .statements (.exprStmt False.elim (.parens (.bare (by decide)
      (.binary (.bare (by decide) .ident) (.parens (.bare (by decide)
        (.binary (.bare (by decide) .ident) (.bare (by decide) .int)))))))) .noStatements
  · have hname (s : String) (h : IsName s) : (Expr.ident (.ofToken ⟨.ident, s⟩)).WellFormed :=
      ⟨rfl, rfl, h⟩
    refine ⟨⟨by decide, rfl, rfl, hname "a" ?_, by decide, rfl, rfl, hname "b" ?_, rfl, ?_, ?_⟩, trivial⟩
    · exact ⟨by decide, by decide, by decide⟩
    · exact ⟨by decide, by decide, by decide⟩
    · exact ⟨by decide, by decide⟩
    · decide
  · repeat' first | exact .nil (by decide) | refine .cons (by decide) (by decide) ?_

end MonkeyLang
