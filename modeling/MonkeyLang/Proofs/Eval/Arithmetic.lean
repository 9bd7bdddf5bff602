import MonkeyLang.Proofs.Eval.Unmentioned

/-!
# Arithmetic

The value of an expression of integers, minus signs and the four operators is the one that it has in the
unbounded integers, as long as every result on the way fits into 64 bits. Otherwise it is the error of
the first operation that has no such result, with the operands that it has in the unbounded integers
(`Expr.eval_arithmetic`).
-/

namespace MonkeyLang

/-- An operation on integers of any size. -/
inductive Operation where
  | negation (n : Int)
  | binary (l : Int) (op : String) (r : Int)
deriving DecidableEq, Repr

namespace Operation

/-- The exact result. Division truncates toward zero. -/
def result : Operation → Int
  | negation n => -n
  | binary l "+" r => l + r
  | binary l "-" r => l - r
  | binary l "*" r => l * r
  | binary l _ r => l.tdiv r

def DividesByZero : Operation → Prop
  | negation _ => False
  | binary _ op r => op = "/" ∧ r = 0

instance : DecidablePred DividesByZero
  | negation _ => instDecidableFalse
  | binary _ op r => inferInstanceAs (Decidable (op = "/" ∧ r = 0))

/-- The operation has a result in 64 bits, from `-2 ^ 63` on and below `2 ^ 63`. -/
def Succeeds (o : Operation) : Prop :=
  ¬o.DividesByZero ∧ -9223372036854775808 ≤ o.result ∧ o.result < 9223372036854775808

instance : DecidablePred Succeeds := fun _ => inferInstanceAs (Decidable (_ ∧ _ ∧ _))

/-- The operation itself, unless it succeeds. -/
def failure? (o : Operation) : Option Operation := if o.Succeeds then none else some o

/-- What is said of an operation that does not succeed. -/
def message : Operation → String
  | negation n => "integer overflow: -(" ++ toString n ++ ")"
  | binary l op r =>
    if op = "/" ∧ r = 0 then "division by zero: " ++ toString l ++ " / 0"
    else "integer overflow: " ++ toString l ++ " " ++ op ++ " " ++ toString r

end Operation

namespace Expr

/-- Integers, names, minus signs and the four operators, whatever the tokens. -/
def IsArithmetic : Expr → Prop
  | .int .. | .ident _ => True
  | .unary _ op e => op = "-" ∧ e.IsArithmetic
  | .binary _ l op r => op ∈ ["+", "-", "*", "/"] ∧ l.IsArithmetic ∧ r.IsArithmetic
  | _ => False

/-- The value in the unbounded integers, given the values of the names. -/
def exactValue (ρ : String → Int64) : Expr → Int
  | .int _ n => n.toInt
  | .ident x => (ρ x.name).toInt
  | .unary _ _ e => (Operation.negation (e.exactValue ρ)).result
  | .binary _ l op r => (Operation.binary (l.exactValue ρ) op (r.exactValue ρ)).result
  | _ => 0

/-- The operations in the order of evaluation, on the operands that they have in the unbounded
integers. -/
def operations (ρ : String → Int64) : Expr → List Operation
  | .unary _ _ e => e.operations ρ ++ [.negation (e.exactValue ρ)]
  | .binary _ l op r =>
    l.operations ρ ++ (r.operations ρ ++ [.binary (l.exactValue ρ) op (r.exactValue ρ)])
  | _ => []

/-- The first operation that does not succeed. -/
def failure? (ρ : String → Int64) (e : Expr) : Option Operation :=
  (e.operations ρ).findSome? (·.failure?)

end Expr

/-! ## Single operations -/

/-- The exact integer, or what is said of the operation that failed. -/
def Value.Answers (v : Value) (n : Int) : Option Operation → Prop
  | none => ∃ m, v = .int m ∧ m.toInt = n
  | some o => ∃ e, v = .error e ∧ e.message = o.message

namespace Operation

theorem answers_exactly {o : Operation} (hzero : ¬o.DividesByZero) (hmessage : e.message = o.message) :
    (exactly o.result e).Answers o.result o.failure? := by
  unfold exactly failure?
  cases hn : toInt64? o.result with
  | none =>
    rw [if_neg fun h => toInt64?_eq_none_iff.mp hn h.2]
    exact ⟨e, rfl, hmessage⟩
  | some m =>
    have hm := toInt64?_eq_some_iff.mp hn
    rw [if_pos ⟨hzero, hm ▸ m.le_toInt, hm ▸ m.toInt_lt⟩]
    exact ⟨m, rfl, hm⟩

theorem answers_applyUnary (n : Int64) :
    (applyUnary "-" (.int n)).Answers (-n.toInt) (negation n.toInt).failure? :=
  answers_exactly (o := negation n.toInt) id rfl

theorem answers_applyBinary (hop : op ∈ ["+", "-", "*", "/"]) (m n : Int64) :
    (applyBinary op (.int m) (.int n)).Answers (binary m.toInt op n.toInt).result
      (binary m.toInt op n.toInt).failure? := by
  have hoverflow : ∀ op : String, ¬(op = "/" ∧ n.toInt = 0) →
      (exactly (binary m.toInt op n.toInt).result (.overflow m op n)).Answers
        (binary m.toInt op n.toInt).result (binary m.toInt op n.toInt).failure? :=
    fun op h => answers_exactly (o := binary m.toInt op n.toInt) h (if_neg h).symm
  simp only [List.mem_cons, List.not_mem_nil, or_false] at hop
  rcases hop with rfl | rfl | rfl | rfl
  · exact hoverflow "+" (by simp)
  · exact hoverflow "-" (by simp)
  · exact hoverflow "*" (by simp)
  · have hzero : n.toInt = 0 ↔ n = 0 := by rw [← Int64.toInt_zero, Int64.toInt_inj]
    show (if n = 0 then _ else _ : Value).Answers _ _
    by_cases hn : n = 0
    · have hfails : ¬(binary m.toInt "/" n.toInt).Succeeds := fun h => h.1 ⟨rfl, hzero.mpr hn⟩
      have hmessage : (binary m.toInt "/" n.toInt).message =
          (EvalError.divisionByZero m).message := if_pos ⟨rfl, hzero.mpr hn⟩
      rw [if_pos hn, failure?, if_neg hfails]
      exact ⟨_, rfl, hmessage.symm⟩
    · rw [if_neg hn]
      exact hoverflow "/" fun h => hn (hzero.mp h.2)

end Operation

/-! ## Expressions -/

/-- In the heap `h` the computation gives the value `v` and changes at most the log. -/
def Eval.Gives (x : Eval α) (h : Heap) (a : α) : Prop :=
  ∀ s : Store, s.heap = h → ∃ t : Store, x s = some (a, t) ∧ t.heap = h

namespace Eval

theorem Quiet.gives {x : Eval α} (hx : Quiet x f) (h : Heap) : x.Gives h (f h) := by
  rintro s rfl
  exact hx s

theorem Gives.bind {x : Eval α} {f : α → Eval β} (hx : x.Gives h a) (hf : (f a).Gives h b) :
    (x >>= f).Gives h b := by
  intro s hs
  obtain ⟨t, ht, hh⟩ := hx s hs
  rw [bind_apply, ht, Option.bind_some]
  exact hf t hh

/-- In the heap `h` the computation comes to the exact integer `n`, or to the error of the operation that
failed, and changes at most the log. -/
def Computes (x : Eval Value) (h : Heap) (n : Int) (failed : Option Operation) : Prop :=
  ∃ v, x.Gives h v ∧ v.Answers n failed

theorem Computes.note (hx : Computes x h n failed) (message : Unit → String) :
    Computes (do Eval.note .evaluator .trace message; x) h n failed :=
  let ⟨v, hv, hanswers⟩ := hx
  ⟨v, ((quiet_note _ _ _).gives h).bind hv, hanswers⟩

theorem computes_report {v : Value} (hv : v.Answers n failed) : Computes (report v) h n failed :=
  ⟨v, (quiet_report v).gives h, hv⟩

/-- An operand that fails is the end of it. -/
theorem Computes.andThen {f : Value → Eval Value} (hx : Computes x h n failed)
    (hf : ∀ m : Int64, m.toInt = n → Computes (f (.int m)) h n' failed') :
    Computes (Eval.andThen x f) h n' (failed.or failed') := by
  obtain ⟨v, hv, hanswers⟩ := hx
  cases failed with
  | none =>
    obtain ⟨m, rfl, hm⟩ := hanswers
    obtain ⟨w, hw, hanswers'⟩ := hf m hm
    exact ⟨w, hv.bind hw, hanswers'⟩
  | some o =>
    obtain ⟨e, rfl, hmessage⟩ := hanswers
    exact ⟨.error e, hv.bind ((quiet_pure _).gives h), e, rfl, hmessage⟩

end Eval

namespace Expr

variable {ρ : String → Int64}

theorem failure?_unary : (unary t op e).failure? ρ =
    (e.failure? ρ).or (Operation.negation (e.exactValue ρ)).failure? := by
  rw [failure?, operations, List.findSome?_append, List.findSome?_singleton]
  rfl

theorem failure?_binary : (binary t l op r).failure? ρ = (l.failure? ρ).or
    ((r.failure? ρ).or (Operation.binary (l.exactValue ρ) op (r.exactValue ρ)).failure?) := by
  rw [failure?, operations, List.findSome?_append, List.findSome?_append, List.findSome?_singleton]
  rfl

variable (call : Closure → List Value → Eval Value)

theorem computes_arithmetic (e : Expr) (he : e.IsArithmetic) (here : Place)
    (hnames : ∀ x ∈ e.names, h.lookup here.scope x = some (.int (ρ x))) :
    (e.eval call here).Computes h (e.exactValue ρ) (e.failure? ρ) := by
  rw [Expr.eval.eq_def]
  refine Eval.Computes.note ?_ _
  match e with
  | .int _ n => exact ⟨_, (Eval.quiet_pure _).gives h, n, rfl, rfl⟩
  | .ident x =>
    have hlookup := (Eval.quiet_lookup here.scope x.name).gives h
    rw [hnames x.name (.head _)] at hlookup
    exact ⟨_, hlookup, ρ x.name, rfl, rfl⟩
  | .unary _ _ e =>
    obtain ⟨rfl, he⟩ := he
    rw [failure?_unary, exactValue]
    refine (computes_arithmetic e he (here.child 0) hnames).andThen fun n hn => ?_
    exact Eval.computes_report (hn ▸ Operation.answers_applyUnary n)
  | .binary _ l op r =>
    obtain ⟨hop, hl, hr⟩ := he
    rw [failure?_binary, exactValue]
    refine (computes_arithmetic l hl (here.child 0) fun x hx =>
      hnames x (List.mem_append_left _ hx)).andThen fun m hm => ?_
    refine (computes_arithmetic r hr (here.child 1) fun x hx =>
      hnames x (List.mem_append_right _ hx)).andThen fun n hn => ?_
    exact Eval.computes_report (hm ▸ hn ▸ Operation.answers_applyBinary hop m n)

/-- An expression of integers, of names bound to integers, minus signs and the four operators changes no
scope and has a value. If every operation in it succeeds then this is the exact one, and otherwise it is
the error of the first operation that does not, with the operands that this has in the unbounded
integers. -/
theorem eval_arithmetic {e : Expr} (he : e.IsArithmetic) (here : Place) (s : Store)
    (hnames : ∀ x ∈ e.names, s.heap.lookup here.scope x = some (.int (ρ x))) :
    ∃ v t, e.eval call here s = some (v, t) ∧ t.heap = s.heap ∧
      ((∀ o ∈ e.operations ρ, o.Succeeds) → ∃ n, v = .int n ∧ n.toInt = e.exactValue ρ) ∧
      ∀ os o os', e.operations ρ = os ++ o :: os' → (∀ o' ∈ os, o'.Succeeds) → ¬o.Succeeds →
        ∃ err, v = .error err ∧ err.message = o.message := by
  have hnone : ∀ os : List Operation, (∀ o ∈ os, o.Succeeds) → os.findSome? (·.failure?) = none :=
    fun os hall => List.findSome?_eq_none_iff.mpr fun o ho => if_pos (hall o ho)
  obtain ⟨v, hv, hanswers⟩ := computes_arithmetic call e he here hnames
  obtain ⟨t, ht, hh⟩ := hv s rfl
  refine ⟨v, t, ht, hh, fun hall => ?_, fun os o os' heq hall hfails => ?_⟩
  · rwa [failure?, hnone _ hall] at hanswers
  · have hfirst : o.failure? = some o := if_neg hfails
    rwa [failure?, heq, List.findSome?_append, hnone _ hall, List.findSome?_cons, hfirst] at hanswers

/-- The least integer divided by minus one, and a division by zero after it. -/
def leastDivided : Expr :=
  .binary ⟨.asterisk, "*"⟩
    (.binary ⟨.slash, "/"⟩ (.ident ⟨⟨.ident, "least"⟩, "least"⟩) "/"
      (.unary ⟨.minus, "-"⟩ "-" (.int ⟨.int, "1"⟩ 1)))
    "*" (.binary ⟨.slash, "/"⟩ (.int ⟨.int, "1"⟩ 1) "/" (.int ⟨.int, "0"⟩ 0))

/-- One scope, in which the least integer is bound. -/
def leastBound : Store := { heap := (({} : Heap).push {}).set 0 "least" (.int Int64.minValue) }

theorem eval_arithmetic_leastDivided :
    ∃ v t, leastDivided.eval (fun _ _ _ => none) ⟨0, ⟨0, []⟩⟩ leastBound = some (v, t) ∧
      t.heap = leastBound.heap ∧ ∃ err, v = .error err ∧
        err.message = "integer overflow: -9223372036854775808 / -1" := by
  have harithmetic : leastDivided.IsArithmetic := by
    simp [leastDivided, IsArithmetic]
  obtain ⟨v, t, ht, hh, -, herror⟩ := eval_arithmetic (ρ := fun _ => Int64.minValue)
    (fun _ _ _ => none) harithmetic ⟨0, ⟨0, []⟩⟩ leastBound (List.forall_mem_singleton.mpr rfl)
  refine ⟨v, t, ht, hh, ?_⟩
  exact herror [.negation 1] (.binary Int64.minValue.toInt "/" (-1)) _ rfl (by decide) (by decide)

end Expr

end MonkeyLang
