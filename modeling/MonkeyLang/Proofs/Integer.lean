import Mathlib.Data.List.Induction
import Mathlib.Data.Nat.Digits.Defs
import MonkeyLang.Proofs.Eval.Arithmetic
import MonkeyLang.Proofs.Session

/-!
# Integers and their text

A run of decimal digits, however long and with whatever zeros in front, is a number of the language if the
number that it denotes by the places of its digits fits into 64 bits, and an error that names it
otherwise.
The text of an integer is such a run, with a minus sign before it if need be, and running it gives the
integer again (`parse_decimal_run_render`). The least integer is left out: its digits alone are out of
range.
-/

namespace MonkeyLang

/-- The number that decimal digits denote by their places, the last being that of the ones. -/
def placeValue (digits : List Char) : Nat :=
  Nat.ofDigits 10 (digits.reverse.map fun c => c.toNat - '0'.toNat)

theorem decimalValue_eq_placeValue (cs : List Char) : Text.decimalValue cs = placeValue cs := by
  induction cs using List.reverseRecOn with
  | nil => rfl
  | append_singleton cs c ih =>
    rw [placeValue, List.reverse_append, List.reverse_singleton, List.singleton_append, List.map_cons,
      Nat.ofDigits_cons, Text.decimalValue, List.foldl_append, ← Text.decimalValue, ih, placeValue]
    exact Nat.add_comm _ _

theorem integer?_eq_some_iff : integer? s = some n ↔ n.toInt = placeValue s.toList := by
  rw [integer?, toInt64?_eq_some_iff, decimalValue_eq_placeValue]

theorem integer?_eq_none_iff : integer? s = none ↔ 2 ^ 63 - 1 < placeValue s.toList := by
  rw [integer?, toInt64?_eq_none_iff, decimalValue_eq_placeValue]
  omega

/-! ## The text of an integer -/

theorem isNumber_repr (n : Nat) : IsNumber n.repr := by
  rw [IsNumber, Nat.toList_repr]
  exact ⟨Nat.toDigits_ne_nil, List.all_eq_true.mpr fun _ hc =>
    Nat.isDigit_of_mem_toDigits (by decide) (by decide) hc⟩

theorem placeValue_repr (n : Nat) : placeValue n.repr.toList = n := by
  rw [← decimalValue_eq_placeValue, Nat.toList_repr, Text.decimalValue_toDigits]

/-! ## Parsing -/

theorem tokens_number (h : IsNumber s) : (Lexer.ofString s).tokens = [⟨.int, s⟩] := by
  have hspaced : Spaced [⟨.int, s⟩] ("" ++ s ++ "") := .cons (by decide) rfl (.nil (by decide))
  rw [String.empty_append, String.append_empty] at hspaced
  exact hspaced.tokens_ofString (List.forall_mem_singleton.mpr h)

theorem tokens_negative (h : IsNumber s) :
    (Lexer.ofString ("-" ++ s)).tokens = [Kind.minus.token, ⟨.int, s⟩] := by
  have hspaced : Spaced [Kind.minus.token, ⟨.int, s⟩] ("" ++ "-" ++ ("" ++ s ++ "")) :=
    .cons (by decide) rfl (.cons (by decide) rfl (.nil (by decide)))
  rw [String.empty_append, String.empty_append, String.append_empty] at hspaced
  exact hspaced.tokens_ofString (List.forall_mem_cons.mpr ⟨rfl, List.forall_mem_singleton.mpr h⟩)

/-- A text whose tokens are an operand is a program of one statement. -/
theorem parse_of_operand (htokens : (Lexer.ofString source).tokens = t :: ts)
    (ht : t.kind ∉ [Kind.letWord, .returnWord, .lbrace, .eof]) (h : Reads .operand (t :: ts) e []) :
    parse source = (⟨[.expr t e]⟩, []) := by
  simp only [List.mem_cons, List.not_mem_nil, or_false, not_or] at ht
  have hexpr : Reads (.expression .lowest) (t :: ts) e [] := .expression h (.stop (by decide))
  have hprogram : Reads .program (t :: ts) [.expr t e] [] :=
    .program ht.2.2.2 (.exprStmt ht.1 ht.2.1 ht.2.2.1 hexpr) (.endOfProgram rfl)
  exact parse_of_reads (htokens ▸ hprogram)

theorem parse_number (h : IsNumber s) (hn : integer? s = some n) :
    parse s = (⟨[.expr ⟨.int, s⟩ (.int ⟨.int, s⟩ n)]⟩, []) :=
  parse_of_operand (tokens_number h) (by simp) (.int rfl hn)

theorem parse_negative (h : IsNumber s) (hn : integer? s = some n) :
    parse ("-" ++ s) =
      (⟨[.expr Kind.minus.token (.unary Kind.minus.token "-" (.int ⟨.int, s⟩ n))]⟩, []) :=
  parse_of_operand (tokens_negative h) (by decide)
    (.unary (.inr rfl) (.expression (.int rfl hn) (.stop (by decide))))

namespace Parser

theorem sat_programStatements_nil {P : List Stmt → Parser → Prop} {F : Parser → Prop} {p : Parser}
    (hp : p.tokens = []) : (programStatements (n + 1) p).Sat False P F ↔ P [] p := by
  have hend : (firstOf p.tokens).kind = .eof := by rw [hp]; rfl
  simp [programStatements, hend]

/-- A program is over after a statement that fails at its only token. -/
theorem sat_programStatements_of_failed {P : List Stmt → Parser → Prop} {F : Parser → Prop}
    {p : Parser} (hp : p.tokens = [t]) (ht : t.kind ≠ .eof)
    (h : (statement (n + 1) p).Sat False (fun _ _ => False) fun q => q.tokens = [t] ∧ P [] q.advance) :
    (programStatements (n + 1 + 1) p).Sat False P F := by
  rw [programStatements]
  simp only [atLevel_eq, sat_bind, sat_currentToken, sat_ite, hp, firstOf_cons, if_neg ht, sat_attempt]
  refine h.mono (fun _ _ => False.elim) fun q hq => ?_
  have hnil : q.advance.tokens = [] := by rw [tokens_advance, hq.1]; rfl
  simpa using (sat_programStatements_nil hnil).mpr hq.2

end Parser

/-- A number that does not fit is an error, and nothing else is wrong. -/
theorem parse_out_of_range (h : IsNumber s) (hn : integer? s = none) :
    parse s = (⟨[]⟩, [.integerRange s]) := by
  let p := Parser.ofLexer (.ofString s)
  have hp : p.tokens = [⟨.int, s⟩] := (Parser.tokens_ofLexer _ _).trans (tokens_number h)
  have hprogram : p.program.1 = ⟨[]⟩ ∧ p.program.2.errors = #[.integerRange s] := by
    refine Parser.program_of_sat (P := fun pr es => pr = ⟨[]⟩ ∧ es = #[.integerRange s])
      fun p' hts hes => ?_
    obtain ⟨n, hbudget⟩ : ∃ n, p.budget = n + 1 + 1 + 1 + 1 := ⟨8, by rw [Parser.budget, hp]; rfl⟩
    rw [hp] at hts
    rw [hbudget]
    refine Parser.sat_programStatements_of_failed hts (by simp) ?_
    simp [Parser.statement, Parser.expression, Parser.operand, hts, hn, hes, p]
  simp [parse, p, hprogram]

/-! ## Running -/

/-- The run of a text that is an arithmetic expression without names comes to the exact value, if every
operation in it succeeds. -/
theorem Session.run_of_arithmetic (s : Session) (k : Nat) (scope : ScopeId)
    (hparse : MonkeyLang.parse source = (⟨[.expr t e]⟩, [])) (he : e.IsArithmetic)
    (hnames : e.names = []) (hnone : e.failure? ρ = none) :
    ∃ n s', s.run k scope source = some (.ok (.int n), s') ∧ n.toInt = e.exactValue ρ ∧
      s'.store.heap = s.store.heap := by
  obtain ⟨u, f, hu, hf, hrun, -⟩ := s.run_of_noErrors k scope
    (show (MonkeyLang.parse source).2 = [] by rw [hparse])
  rw [hparse] at hrun
  let here : Place := ⟨scope, { text := s.texts }⟩
  let call := Closure.callWithin .whenUnreachable k
  obtain ⟨v, hv, hanswers⟩ := e.computes_arithmetic (ρ := ρ) (h := s.store.heap) call he
    (here.child 0) (by simp [hnames])
  rw [hnone] at hanswers
  obtain ⟨n, rfl, hn⟩ := hanswers
  obtain ⟨w, hw, hh⟩ := hv u hu
  have heval : Stmt.evalAll call [.expr t e] here 0 .null u = some (.int n, w) := by
    rw [Stmt.evalAll, Stmt.eval, Eval.andThen, Eval.bind_apply, hw]
    rfl
  refine ⟨n, f (.int n) w, ?_, hn, (hf _ _).trans hh⟩
  rw [hrun, heval]
  rfl

/-- The text of an integer other than the least one is an arithmetic expression with that value. -/
theorem parse_int64Text {n : Int64} (hn : n ≠ Int64.minValue) (ρ : String → Int64) :
    ∃ t e, parse (int64Text n) = (⟨[.expr t e]⟩, []) ∧ e.IsArithmetic ∧ e.names = [] ∧
      e.exactValue ρ = n.toInt ∧ e.failure? ρ = none := by
  have hle := n.le_toInt
  have hlt := n.toInt_lt
  rw [int64Text, Int.toString_eq_repr, Int.repr_eq_if]
  split
  · next hpos =>
    have hint : integer? n.toInt.toNat.repr = some n := by
      rw [integer?_eq_some_iff, placeValue_repr, Int.toNat_of_nonneg hpos]
    exact ⟨_, _, parse_number (isNumber_repr _) hint, trivial, rfl, rfl, rfl⟩
  · next hneg =>
    -- the digits are those of the opposite, which fits too
    have hopposite : (-n).toInt = -n.toInt := by
      have hleast : n.toInt ≠ -2 ^ 63 := fun h => hn (Int64.toInt_inj.mp h)
      rw [Int64.toInt_neg]
      exact Int.bmod_eq_of_le (by omega) (by omega)
    have hint : integer? (-n.toInt).toNat.repr = some (-n) := by
      rw [integer?_eq_some_iff, placeValue_repr, Int.toNat_of_nonneg (by omega), hopposite]
    have hvalue : -(-n).toInt = n.toInt := by rw [hopposite, Int.neg_neg]
    refine ⟨_, _, parse_negative (isNumber_repr _) hint, ⟨rfl, trivial⟩, rfl, hvalue, ?_⟩
    have hsucceeds : (Operation.negation (-n).toInt).Succeeds := by
      refine ⟨id, ?_⟩
      rw [Operation.result, hvalue]
      exact ⟨hle, hlt⟩
    exact List.findSome?_eq_none_iff.mpr fun o ho => List.mem_singleton.mp ho ▸ if_pos hsucceeds

/-- A run of decimal digits is parsed as one integer, with the run itself as the literal and the number
that it denotes as the value, if this is at most `2 ^ 63 - 1`. Otherwise there is no statement, and one
error that names the run. And to run the text of an integer, other than the least, in any scope of any
session gives that integer. -/
theorem parse_decimal_run_render (hrun : IsNumber run) (hn : n ≠ Int64.minValue) :
    (placeValue run.toList ≤ 2 ^ 63 - 1 → ∃ m : Int64, m.toInt = placeValue run.toList ∧
      parse run = (⟨[.expr ⟨.int, run⟩ (.int ⟨.int, run⟩ m)]⟩, [])) ∧
    (2 ^ 63 - 1 < placeValue run.toList → ∃ e : ParseError, parse run = (⟨[]⟩, [e]) ∧
      e.message = "could not parse \"" ++ run ++ "\" as integer") ∧
    ∀ (s : Session) (k : Nat) (scope : ScopeId), ∃ s',
      s.run k scope (Value.int n).render = some (.ok (.int n), s') ∧
        s'.store.heap = s.store.heap := by
  refine ⟨fun hle => ?_, fun hlt => ?_, fun s k scope => ?_⟩
  · cases hm : integer? run with
    | none => exact absurd (integer?_eq_none_iff.mp hm) (Nat.not_lt.mpr hle)
    | some m => exact ⟨m, integer?_eq_some_iff.mp hm, parse_number hrun hm⟩
  · exact ⟨_, parse_out_of_range hrun (integer?_eq_none_iff.mpr hlt), rfl⟩
  · obtain ⟨t, e, hparse, he, hnames, hvalue, hnone⟩ := parse_int64Text hn fun _ => 0
    obtain ⟨m, s', hs', hm, hh⟩ := s.run_of_arithmetic k scope hparse he hnames hnone
    obtain rfl : m = n := Int64.toInt_inj.mp (hm.trans hvalue)
    exact ⟨s', hs', hh⟩

/-- The largest integer with zeros in front, the number after it, and the least integer but one. -/
theorem parse_decimal_run_render_bounds :
    parse "009223372036854775807" = (⟨[.expr ⟨.int, "009223372036854775807"⟩
      (.int ⟨.int, "009223372036854775807"⟩ Int64.maxValue)]⟩, []) ∧
    (∃ e : ParseError, parse "9223372036854775808" = (⟨[]⟩, [e]) ∧
      e.message = "could not parse \"9223372036854775808\" as integer") ∧
    (Value.int (Int64.minValue + 1)).render = "-9223372036854775807" ∧
    ∃ s', Session.run 0 0 "-9223372036854775807" (Session.newScope {}).2 =
      some (.ok (.int (Int64.minValue + 1)), s') := by
  have hn : Int64.minValue + 1 ≠ Int64.minValue := by decide
  have hlargest : placeValue "009223372036854775807".toList = 9223372036854775807 := by decide
  have hnext : placeValue "9223372036854775808".toList = 9223372036854775808 := by decide
  have hrender : (Value.int (Int64.minValue + 1)).render = "-9223372036854775807" := by decide
  have hzeros : IsNumber "009223372036854775807" := ⟨by decide, by decide⟩
  have hdigits : IsNumber "9223372036854775808" := ⟨by decide, by decide⟩
  obtain ⟨hfits, -, hruns⟩ := parse_decimal_run_render hzeros hn
  obtain ⟨-, hexceeds, -⟩ := parse_decimal_run_render hdigits hn
  obtain ⟨m, hm, hparse⟩ := hfits (by omega)
  obtain rfl : m = Int64.maxValue := Int64.toInt_inj.mp (hm.trans (by rw [hlargest]; decide))
  obtain ⟨s', hs', -⟩ := hruns (Session.newScope {}).2 0 0
  exact ⟨hparse, hexceeds (by omega), hrender, s', hrender ▸ hs'⟩

end MonkeyLang
