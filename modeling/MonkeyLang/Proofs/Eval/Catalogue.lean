import MonkeyLang.Proofs.Eval.Shift
import MonkeyLang.Proofs.Eval.StaticScope
import MonkeyLang.Proofs.Eval.Unwind
import MonkeyLang.Proofs.Parser.Walk

/-!
# The catalogue of errors

A program read from a text comes to the errors of a catalogue only (`Moment.error_catalogued`). All code that
runs lies in the program, be it in a function that was made long before, so that its operators and
names are those of the text (`Code.Read`), and the values that raise an error are no signals
(`Code.Raises`).
-/

namespace MonkeyLang

/-! ## The messages -/

/-- The types of the values that are no signals. -/
def plainTypes : List ValueType := [.integer, .boolean, .null, .function]

/-- The messages that a text of the tokens `ts` may end in. -/
inductive Catalogued (ts : List Token) : String → Prop
  | typeMismatch {op : BinaryOp} : l ∈ plainTypes → r ∈ plainTypes → l ≠ r →
    Catalogued ts ("type mismatch: " ++ l.name ++ " " ++ op.symbol ++ " " ++ r.name)
  | unknownBinary {op : BinaryOp} : t ∈ plainTypes → t ≠ .integer →
    Catalogued ts ("unknown operator: " ++ t.name ++ " " ++ op.symbol ++ " " ++ t.name)
  | unknownUnary : t ∈ plainTypes → t ≠ .integer → Catalogued ts ("unknown operator: -" ++ t.name)
  | identifierNotFound : ⟨.ident, name⟩ ∈ ts → Catalogued ts ("identifier not found: " ++ name)
  | notAFunction : t ∈ plainTypes → t ≠ .function → Catalogued ts ("not a function: " ++ t.name)
  | argumentCount {wanted found : Nat} : wanted ≠ found → Catalogued ts
    ("wrong number of arguments: want=" ++ toString wanted ++ ", got=" ++ toString found)
  | overflow {op : BinaryOp} : op ∈ [BinaryOp.add, .sub, .mul, .div] → Catalogued ts
    ("integer overflow: " ++ int64Text l ++ " " ++ op.symbol ++ " " ++ int64Text r)
  | negationOverflow : Catalogued ts ("integer overflow: -(" ++ int64Text n ++ ")")
  | divisionByZero : Catalogued ts ("division by zero: " ++ int64Text n ++ " / 0")

theorem Value.type_mem_plainTypes {v : Value} (h : v.isSignal = false) : v.type ∈ plainTypes := by
  cases v with
  | returned | error => cases h
  | _ => simp [type, plainTypes]

theorem Value.eq_int_of_type {v : Value} (h : v.type = .integer) : ∃ n, v = .int n := by
  cases v with
  | int n => exact ⟨n, rfl⟩
  | _ => cases h

theorem exactly_eq_error (h : exactly n e' = .error e) : e = e' := by
  unfold exactly at h
  split at h
  · cases h
  · cases h
    rfl

theorem BinaryOp.catalogued_onInts {op : BinaryOp} (h : op.onInts l r = .error e) :
    Catalogued ts e.message := by
  cases op with
  | add | sub | mul =>
    cases exactly_eq_error h
    exact .overflow (by decide)
  | div =>
    dsimp only [onInts] at h
    split at h
    · cases h
      exact .divisionByZero
    · cases exactly_eq_error h
      exact .overflow (by decide)
  | lt | gt | eq | ne => cases h

theorem catalogued_applyBinary {op : BinaryOp} {v w : Value} (hv : v.isSignal = false)
    (hw : w.isSignal = false) (h : applyBinary op.symbol v w = .error e) :
    Catalogued ts e.message := by
  unfold applyBinary at h
  rw [BinaryOp.ofSymbol?_symbol] at h
  split at h
  · next hop =>
    cases hop
    exact BinaryOp.catalogued_onInts h
  · cases h
  · cases h
  · cases h
  · cases h
  · next v w _ _ _ hints _ _ _ _ =>
    dsimp only at h
    split at h
    · next htype =>
      cases h
      rw [← htype]
      refine .unknownBinary (v.type_mem_plainTypes hv) fun hint => ?_
      obtain ⟨m, rfl⟩ := Value.eq_int_of_type hint
      obtain ⟨n, rfl⟩ := Value.eq_int_of_type htype.symm
      exact hints m n op rfl rfl rfl
    · next htype =>
      cases h
      exact .typeMismatch (v.type_mem_plainTypes hv) (w.type_mem_plainTypes hw) htype

theorem catalogued_applyUnary {v : Value} (hop : op = "!" ∨ op = "-") (hv : v.isSignal = false)
    (h : applyUnary op v = .error e) : Catalogued ts e.message := by
  unfold applyUnary at h
  split at h
  · cases h
  · cases exactly_eq_error h
    exact .negationOverflow
  · next hnot hint =>
    cases h
    obtain rfl | rfl := hop
    · exact absurd rfl (hnot)
    · exact .unknownUnary (v.type_mem_plainTypes hv) fun htype => by
        obtain ⟨n, rfl⟩ := Value.eq_int_of_type htype
        exact hint n rfl rfl

/-! ## Code of a text -/

/-- The tokens that the nodes of some code keep. -/
def Code.walk : Code → List Token
  | .expr e => e.walk
  | .stmt s => s.walk
  | .block b => b.walk
  | .program p => p.walk

def Code.WellFormed : Code → Prop
  | .expr e => e.WellFormed
  | .stmt s => s.WellFormed
  | .block b => b.WellFormed
  | .program p => p.WellFormed

/-- Code that was read from a text of the tokens `ts`. -/
structure Code.Read (ts : List Token) (c : Code) : Prop where
  wellFormed : c.WellFormed
  tokens : c.walk ⊆ ts

theorem Code.read_expr {i : Nat} (hw : Expr.EachWellFormed es) (ht : Expr.walkEach es ⊆ ts)
    (he : es[i]? = some e) : (expr e).Read ts := by
  induction es generalizing i with
  | nil => cases he
  | cons e' es ih =>
    cases i with
    | zero =>
      cases he
      exact ⟨hw.1, fun t hm => ht (List.mem_append_left _ hm)⟩
    | succ i => exact ih hw.2 (fun t hm => ht (List.mem_append_right _ hm)) he

theorem Code.read_stmt {i : Nat} (hw : Stmt.EachWellFormed ss) (ht : Stmt.walkAll ss ⊆ ts)
    (hs : ss[i]? = some s) : (stmt s).Read ts := by
  induction ss generalizing i with
  | nil => cases hs
  | cons s' ss ih =>
    cases i with
    | zero =>
      cases hs
      exact ⟨hw.1, fun t hm => ht (List.mem_append_left _ hm)⟩
    | succ i => exact ih hw.2 (fun t hm => ht (List.mem_append_right _ hm)) hs

theorem Code.Read.child {c d : Code} (h : c.Read ts) (hc : c.Child i d) : d.Read ts := by
  obtain ⟨hw, ht⟩ := h
  have hpart : ∀ {d' : Code}, d'.WellFormed → (∀ t ∈ d'.walk, t ∈ c.walk) → d'.Read ts :=
    fun hw' hsub => ⟨hw', fun t hm => ht (hsub t hm)⟩
  cases hc with
  | unary => exact hpart hw.2.2 fun t hm => by simp_all [Code.walk]
  | left => exact hpart hw.2.2.2.1 fun t hm => by simp_all [Code.walk]
  | right => exact hpart hw.2.2.2.2 fun t hm => by simp_all [Code.walk]
  | @condition _ _ _ alt =>
    cases alt with
    | none | some => exact hpart hw.2.1 fun t hm => by simp_all [Code.walk]
  | @consequence _ _ _ alt =>
    cases alt with
    | none => exact hpart hw.2.2 fun t hm => by simp_all [Code.walk]
    | some a => exact hpart hw.2.2.1 fun t hm => by simp_all [Code.walk]
  | alternative => exact hpart hw.2.2.2 fun t hm => by simp_all [Code.walk]
  | callee => exact hpart hw.2.1 fun t hm => by simp_all [Code.walk]
  | argument he =>
    refine Code.read_expr hw.2.2 (fun t hm => ht ?_) he
    exact List.mem_append_right _ (List.mem_cons_of_mem _ hm)
  | letValue => exact hpart hw.2.2 fun t hm => by simp_all [Code.walk]
  | returnValue => exact hpart hw.2 fun t hm => by simp_all [Code.walk]
  | exprValue | blockBody => exact hpart hw fun t hm => by simp_all [Code.walk]
  | statement hs => exact Code.read_stmt hw.2 (fun t hm => ht (List.mem_cons_of_mem _ hm)) hs
  | programStatement hs => exact Code.read_stmt hw ht hs

theorem Code.Read.body (h : (Code.expr (.function t xs b)).Read ts) : (Code.block b).Read ts :=
  ⟨h.wellFormed.2.2, fun _ hm => h.tokens (List.mem_cons_of_mem _ (List.mem_append_right _ hm))⟩

theorem Program.Lies.read (hp : (Code.program p).Read ts) (h : p.Lies σ₀ nest c σ) :
    c.Read ts := by
  induction h with
  | root => exact hp
  | child _ hc ih => exact ih.child hc
  | body _ ih => exact ih.body

theorem Code.read_parse (source : String) :
    (Code.program (parse source).1).Read (Lexer.ofString source).tokens :=
  ⟨parse_wellFormed source, (Parser.program_takes (.ofString source) {}).1.subset⟩

/-! ## Errors of a text -/

/-- Every operator is one of the language. -/
def Code.Recognized : Code → Prop
  | .expr (.unary _ op _) => op = "!" ∨ op = "-"
  | .expr (.binary _ _ op _) => ∃ o : BinaryOp, op = o.symbol
  | _ => True

theorem Code.Read.recognized {c : Code} (h : c.Read ts) : c.Recognized := by
  obtain ⟨hw, -⟩ := h
  unfold Recognized
  split
  · obtain ⟨rfl | rfl, rfl, -⟩ := hw
    · exact .inl rfl
    · exact .inr rfl
  · obtain ⟨hk, ht, rfl, -⟩ := hw
    have hsymbol : ∀ k ∈ binaryOperators, ∃ o ∈ BinaryOp.all, k.token.literal = o.symbol := by decide
    obtain ⟨o, -, ho⟩ := hsymbol _ hk
    exact ⟨o, ht ▸ ho⟩
  · trivial

/-- What code of a text raises is in the catalogue. -/
theorem Code.Raises.catalogued {c : Code} (h : c.Raises e) (hc : c.Read ts) :
    Catalogued ts e.message := by
  cases h with
  | @name x =>
    obtain ⟨⟨hx, hk, -⟩, ht⟩ := hc
    have htoken : x.token = ⟨.ident, x.name⟩ := by
      rw [← hk, hx]
      rfl
    exact .identifierNotFound (htoken ▸ ht List.mem_cons_self)
  | unary hv h => exact catalogued_applyUnary hc.recognized hv h
  | binary hv hw h =>
    obtain ⟨o, rfl⟩ := hc.recognized
    exact catalogued_applyBinary hv hw h
  | notAFunction hv hne => exact .notAFunction (Value.type_mem_plainTypes hv) hne
  | argumentCount hne => exact .argumentCount hne

namespace Moment

/-- Runs from a new scope differ in no error, whatever the heap was before. -/
theorem outcome_start_empty {s t : Store} (h : (start n p σ s).outcome = some (.error e, t)) :
    ∃ u, (start n p σ {}).outcome = some (.error e, u) := by
  have hheaps : 0 < 1 ∧ (s.heap.push {}).Shifted s.heap.size 0 1 (Heap.push {} {}) := by
    refine ⟨Nat.one_pos, Heap.size_push .., Heap.size_push .., fun k hk => ?_⟩
    obtain rfl := Nat.lt_one_iff.mp hk
    exact ⟨{}, {}, by rw [Nat.add_zero, Heap.scope?_push, if_pos rfl], rfl, .none, .nil⟩
  have hcode : (shifted s.heap.size 0 0).code (.program p) σ σ := trivial
  have hrun : Option.Rel _ (start n p σ s).outcome (start n p σ {}).outcome :=
    Simulation.runs (shifted_calls .whenUnreachable n) (fun _ _ _ hv => hv.landed) hcode (1 : Nat)
      (start n p σ s).store (start n p σ {}).store hheaps
  rw [h] at hrun
  generalize (start n p σ {}).outcome = r at hrun ⊢
  cases hrun with
  | @some _ r hr =>
    obtain ⟨v, u⟩ := r
    obtain ⟨w, -, -, hv⟩ := hr
    cases hv with
    | data => exact ⟨u, rfl⟩

theorem read_of_runs {source : String} (hrun : (start n (parse source).1 σ s).Runs m) :
    m.code.Read (Lexer.ofString source).tokens := by
  have hm : s.heap.size < (s.heap.push {}).size := by simp
  obtain ⟨nest, hl, -⟩ := hrun.nested hm rfl (heap_start n (parse source).1 σ s hm)
  exact hl.read (Code.read_parse source)

/-- The program of a text, run in a new scope, ends in no error but those of the catalogue, and all
the operators that it comes to are those of the language. -/
theorem error_catalogued (source : String) (n : Nat) (σ : Site) (s : Store) :
    (∀ e t, (parse source).1.eval n ⟨s.heap.size, σ⟩ { s with heap := s.heap.push {} } =
      some (.error e, t) → Catalogued (Lexer.ofString source).tokens e.message) ∧
    ∀ m, (start n (parse source).1 σ s).Runs m → m.code.Recognized := by
  refine ⟨fun e t h => ?_, fun m hm => (read_of_runs hm).recognized⟩
  obtain ⟨u, hu⟩ := outcome_start_empty (p := (parse source).1) h
  have hfree : (start n (parse source).1 σ {}).store.heap.SignalFree :=
    Heap.SignalFree.empty.push fun _ hy => absurd hy List.not_mem_nil
  obtain ⟨m, hm, hraises⟩ := exists_raises hfree hu
  exact hraises.catalogued (read_of_runs hm)

/-- A function that negates its argument, called with a boolean. -/
theorem error_catalogued_negation :
    let source := "let f = fn(x) \x7b -x \x7d; f(true)"
    ∃ e t, (parse source).1.eval 1 ⟨0, ⟨0, []⟩⟩ ⟨Heap.push {} {}, {}⟩ = some (.error e, t) ∧
      e.message = "unknown operator: -BOOLEAN" ∧
      Catalogued (Lexer.ofString source).tokens e.message := by
  intro source
  have hrun : ((parse source).1.eval 1 ⟨0, ⟨0, []⟩⟩ ⟨Heap.push {} {}, {}⟩).any
      (·.1.same (.error (.unknownUnary "-" .boolean))) = true := by
    decide +kernel
  obtain ⟨⟨v, t⟩, h, hv⟩ := (Option.any_eq_true ..).mp hrun
  cases v with
  | error e => exact ⟨e, t, h, eq_of_beq hv, (error_catalogued source 1 ⟨0, []⟩ {}).1 e t h⟩
  | _ => cases hv

end Moment

end MonkeyLang
