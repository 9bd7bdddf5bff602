import MonkeyLang.Parser

/-!
# Conditions on outcomes

`Outcome.Sat o E P F` is what a proof about productions shows: a value satisfies `P`, a failure
satisfies `F`, and `E` holds if the budget ran out. With `False` for `E` the budget suffices, and with
`True` nothing is said of it. Each small production has a lemma that says what it asks for, so `simp`
takes a production apart into the conditions on the larger ones in it.
-/

namespace MonkeyLang

/-- The first of some tokens, and the end of the text if there is none. -/
def firstOf (ts : List Token) : Token := ts.head?.getD .eof

/-- The kind of the first token. -/
def kindOf (ts : List Token) : Kind := (firstOf ts).kind

@[simp] theorem firstOf_cons (t : Token) (ts : List Token) : firstOf (t :: ts) = t := rfl

@[simp] theorem kindOf_nil : kindOf [] = .eof := rfl

@[simp] theorem kindOf_cons (t : Token) (ts : List Token) : kindOf (t :: ts) = t.kind := rfl

theorem kind_firstOf (ts : List Token) : (firstOf ts).kind = kindOf ts := rfl

/-- The tokens after an optional semicolon. -/
def dropSemicolon (ts : List Token) : List Token :=
  if kindOf ts = .semicolon then ts.tail else ts

namespace Parser

/-- What holds of an outcome: `P` of a value, `F` of a failure, and `E` if the budget ran out. -/
def Outcome.Sat (o : Outcome α) (E : Prop) (P : α → Parser → Prop) (F : Parser → Prop) : Prop :=
  match o with
  | .done a p => P a p
  | .failed p => F p
  | .exhausted => E

theorem Outcome.Sat.mono {P P' : α → Parser → Prop} {F F' : Parser → Prop} {o : Outcome α}
    (h : o.Sat E P F) (hP : ∀ a p, P a p → P' a p) (hF : ∀ p, F p → F' p) : o.Sat E P' F' := by
  cases o with
  | done a p => exact hP a p h
  | failed p => exact hF p h
  | exhausted => exact h

/-- What holds whatever the budget, where the budget suffices. -/
theorem Outcome.Sat.and {P P' : α → Parser → Prop} {F F' : Parser → Prop} {o : Outcome α}
    (h : o.Sat E P F) (h' : o.Sat True P' F') :
    o.Sat E (fun a p => P a p ∧ P' a p) fun p => F p ∧ F' p := by
  cases o with
  | done a p => exact ⟨h, h'⟩
  | failed p => exact ⟨h, h'⟩
  | exhausted => exact h

/-- The state after an error. -/
def reject (p : Parser) (e : ParseError) : Parser :=
  { p with
    errors := p.errors.push e
    log := p.log.record .debug .parser fun _ => "Parse error: " ++ e.message }

@[simp] theorem tokens_reject (p : Parser) (e : ParseError) : (p.reject e).tokens = p.tokens := rfl

@[simp] theorem errors_reject (p : Parser) (e : ParseError) :
    (p.reject e).errors = p.errors.push e := rfl

section
variable {E : Prop} {P : α → Parser → Prop} {F : Parser → Prop} {p : Parser}

@[simp] theorem sat_outOfBudget : ((outOfBudget : Production α) p).Sat E P F ↔ E := .rfl

@[simp] theorem sat_pure : ((pure a : Production α) p).Sat E P F ↔ P a p := .rfl

@[simp] theorem sat_bind {x : Production β} {f : β → Production α} :
    ((x >>= f) p).Sat E P F ↔ (x p).Sat E (fun b p' => (f b p').Sat E P F) F := by
  rw [bind_apply]
  cases x p <;> rfl

@[simp] theorem sat_ite [Decidable c] {x y : Production α} :
    ((if c then x else y) p).Sat E P F ↔ if c then (x p).Sat E P F else (y p).Sat E P F := by
  split <;> rfl

@[simp] theorem sat_fail : ((fail e : Production α) p).Sat E P F ↔ F (p.reject e) := .rfl

@[simp] theorem sat_attempt {x : Production α} {P : Option α → Parser → Prop} :
    (attempt x p).Sat E P F ↔ (x p).Sat E (fun a => P (some a)) (P none) := by
  unfold attempt
  cases x p <;> rfl

end

variable {E : Prop} {F : Parser → Prop} {p : Parser}

@[simp] theorem sat_currentToken {P : Token → Parser → Prop} :
    (currentToken p).Sat E P F ↔ P (firstOf p.tokens) p := .rfl

@[simp] theorem sat_nextKind {P : Kind → Parser → Prop} :
    (nextKind p).Sat E P F ↔ P (kindOf p.tokens.tail) p := .rfl

@[simp] theorem sat_skip {P : Unit → Parser → Prop} : (skip p).Sat E P F ↔ P () p.advance := .rfl

@[simp] theorem sat_note {P : Unit → Parser → Prop} :
    (note level message p).Sat E P F ↔ P () { p with log := p.log.record level .parser message } :=
  .rfl

@[simp] theorem sat_expect {P : Unit → Parser → Prop} : (expect kind p).Sat E P F ↔
    if kindOf p.tokens.tail = kind then P () p.advance
    else F (p.reject (.unexpected kind (kindOf p.tokens.tail))) := by
  show Outcome.Sat (if kindOf p.tokens.tail = kind then _ else _) E P F ↔ _
  split <;> rfl

@[simp] theorem sat_skipIf {P : Bool → Parser → Prop} : (skipIf kind p).Sat E P F ↔
    if kindOf p.tokens.tail = kind then P true p.advance else P false p := by
  show Outcome.Sat (if kindOf p.tokens.tail = kind then _ else _) E P F ↔ _
  split <;> rfl

@[simp] theorem sat_integer {P : Expr → Parser → Prop} : (integer p).Sat E P F ↔
    match integer? (firstOf p.tokens).literal with
    | some n => P (.int (firstOf p.tokens) n) p
    | none => F (p.reject (.integerRange (firstOf p.tokens).literal)) := by
  rw [integer, sat_bind, sat_currentToken]
  cases integer? (firstOf p.tokens).literal <;> rfl

end Parser

end MonkeyLang
