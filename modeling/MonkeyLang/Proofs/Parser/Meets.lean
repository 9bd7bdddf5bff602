import MonkeyLang.Proofs.Parser.Needs
import MonkeyLang.Proofs.Parser.Progress
import MonkeyLang.Proofs.Parser.Sound

/-!
# The productions meet the needs

`Meets l ts x p` says of a production `x`, run from the parser `p`, that it does to the tokens `ts` what
the needs `l` say: it reads what they ask for and leaves the rest to further needs, or the first error
that it records is the one that the needs come to. What happens after the first error is left open.

`Goal.meets` says this of all productions.
-/

namespace MonkeyLang

open MonkeyLang.Parser

namespace Parser

/-- Errors were added to `es`, and the verdict is the first of them. -/
def FirstError (es es' : Array ParseError) (v : Except ParseError (List Need)) : Prop :=
  ∃ e l, es'.toList = es.toList ++ e :: l ∧ v = .error e

theorem FirstError.append (h : FirstError es es₁ v) (h' : es₂ = es₁ ∨ FirstError es₁ es₂ v₁) :
    FirstError es es₂ v := by
  obtain ⟨e, l, hes, hv⟩ := h
  rcases h' with rfl | ⟨e', l', hes', -⟩
  · exact ⟨e, l, hes, hv⟩
  · exact ⟨e, l ++ e' :: l', by rw [hes', hes, List.append_assoc]; rfl, hv⟩

theorem firstError_push (es : Array ParseError) (e : ParseError) :
    FirstError es (es.push e) (.error e) := ⟨e, [], by simp, rfl⟩

/-- The outcome is as the verdict `v` says: without a new error it goes on as `k` does with the tokens
after the current one. -/
def Outcome.Bears (o : Outcome α) (es : Array ParseError) (v : Except ParseError (List Need))
    (k : List Token → Except ParseError (List Need)) : Prop :=
  match o with
  | .done _ p => Whole p.tokens ∧ (p.errors = es ∧ v = k p.tokens.tail ∨ FirstError es p.errors v)
  | .failed p => Whole p.tokens ∧ FirstError es p.errors v
  | .exhausted => True

theorem Outcome.Bears.of_firstError {o : Outcome α} (h : o.Bears es₁ v₁ k₁)
    (he : FirstError es es₁ v) : o.Bears es v k := by
  cases o with
  | done a p => exact ⟨h.1, .inr (he.append (h.2.imp_left And.left))⟩
  | failed p => exact ⟨h.1, he.append (.inr h.2)⟩
  | exhausted => trivial

end Parser

/-- From the parser `p` on, where the tokens `ts` come next, the production meets the needs `l`. -/
def Meets (l : List Need) (ts : List Token) (x : Production α) (p : Parser) : Prop :=
  Whole p.tokens → ∀ K, (x p).Bears p.errors (Need.run (l ++ K) (ts ++ [.eof]))
    fun ts' => Need.run K (ts' ++ [.eof])

namespace Meets

variable {p : Parser}

/-! ## Needs -/

section
variable {x : Production α} {g m : Need}

theorem take (hk : kindOf ts = k) (hne : k ≠ .eof) (hon : g.on (firstOf ts) = some (.ok l))
    (h : Meets (l ++ l') ts.tail x p) : Meets (g :: l') ts x p := by
  intro hw K
  cases ts with
  | nil => exact absurd hk.symm hne
  | cons t ts =>
    have hrun : Need.run (g :: (l' ++ K)) (t :: (ts ++ [.eof])) =
        Need.run (l ++ (l' ++ K)) (ts ++ [.eof]) := Need.run_of_ok hon
    rw [← List.append_assoc] at hrun
    exact hrun ▸ h hw K

theorem pass (hon : g.on (firstOf ts) = none) (h : Meets l ts x p) : Meets (g :: l) ts x p := by
  intro hw K
  have hrun := Need.run_of_none (K := l ++ K) hon
  exact hrun ▸ h hw K

theorem congr (hon : g.on (firstOf ts) = m.on (firstOf ts)) (h : Meets (m :: l) ts x p) :
    Meets (g :: l) ts x p := by
  intro hw K
  have hrun : Need.run (g :: (l ++ K)) (ts ++ [.eof]) = Need.run (m :: (l ++ K)) (ts ++ [.eof]) := by
    obtain ⟨us, hus⟩ := Need.exists_append_eof ts
    rw [hus, Need.run_cons, Need.run_cons, Need.advance, Need.advance, hon]
  exact hrun ▸ h hw K

theorem first (hon' : m.on (firstOf ts) = some r) (hon : g.on (firstOf ts) = some ((· ++ l) <$> r))
    (h : Meets (m :: (l ++ l')) ts x p) : Meets (g :: l') ts x p := by
  intro hw K
  have hrun := Need.run_of_then (K := l' ++ K) hon' hon
  rw [← List.append_assoc] at hrun
  exact hrun ▸ h hw K

theorem fail (hon : g.on (firstOf ts) = some (.error e)) :
    Meets (g :: l) ts (Parser.fail e : Production α) p := by
  intro hw K
  have hrun := Need.run_of_error (K := l ++ K) hon
  exact hrun ▸ ⟨hw, firstError_push _ _⟩

end

/-! ## Small productions -/

theorem pure (a : α) : Meets [] p.tokens.tail (Pure.pure a) p :=
  fun hw _ => ⟨hw, .inl ⟨rfl, rfl⟩⟩

theorem bind {x : Production α} {f : α → Production β} (hx : Meets l ts x p)
    (hf : ∀ a p', Meets l' p'.tokens.tail (f a) p') : Meets (l ++ l') ts (x >>= f) p := by
  intro hw K
  have hrun := hx hw (l' ++ K)
  rw [← List.append_assoc] at hrun
  rw [bind_apply]
  generalize x p = o at hrun
  cases o with
  | done a p' =>
    obtain ⟨hw', ⟨hes, hv⟩ | he⟩ := hrun
    · rw [hv, ← hes]
      exact hf a p' hw' K
    · exact (hf a p' hw' K).of_firstError he
  | failed p' => exact hrun
  | exhausted => trivial

/-- A production whose value is only wrapped up. -/
theorem map {x : Production α} {f : α → β} (hx : Meets l ts x p) :
    Meets l ts (do let a ← x; Pure.pure (f a)) p :=
  List.append_nil l ▸ hx.bind fun a _ => pure (f a)

theorem currentToken {f : Token → Production α} (h : Meets l ts (f (firstOf p.tokens)) p) :
    Meets l ts (Parser.currentToken >>= f) p := h

theorem nextKind {f : Kind → Production α} (h : Meets l ts (f (kindOf p.tokens.tail)) p) :
    Meets l ts (Parser.nextKind >>= f) p := h

theorem of_whole {x : Production α} (h : Whole p.tokens → Meets l ts x p) : Meets l ts x p :=
  fun hw => h hw hw

theorem note {f : Unit → Production α}
    (h : ∀ q : Parser, q.tokens = p.tokens → q.errors = p.errors → Meets l ts (f ()) q) :
    Meets l ts (Parser.note level message >>= f) p :=
  fun hw K => h { p with log := p.log.record level .parser message } rfl rfl hw K

theorem skip {f : Unit → Production α} (h : Meets l ts (f ()) p.advance) :
    Meets l ts (Parser.skip >>= f) p := by
  intro hw K
  have hadvance := h (fun t ht => hw t (List.mem_of_mem_tail ht)) K
  rw [errors_advance] at hadvance
  exact hadvance

theorem of_eq {x y : Production α} (heq : x p = y p) (h : Meets l ts y p) : Meets l ts x p := by
  intro hw K
  rw [heq]
  exact h hw K

theorem expect {f : Unit → Production α} (hne : k ≠ .eof)
    (h : Meets l p.advance.tokens.tail (f ()) p.advance) :
    Meets (.token k :: l) p.tokens.tail (Parser.expect k >>= f) p := by
  by_cases hkind : kindOf p.tokens.tail = k
  · have hdone : Parser.expect k p = .done () p.advance := if_pos hkind
    have hon : (Need.token k).on (firstOf p.tokens.tail) = some (.ok []) :=
      congrArg some (if_pos hkind)
    refine take hkind hne hon (of_eq ?_ (skip h))
    rw [bind_apply, hdone]
    rfl
  · have hfail : Parser.expect k p = Parser.fail (.unexpected k (kindOf p.tokens.tail)) p :=
      if_neg hkind
    refine of_eq ?_ (fail (congrArg some (if_neg hkind)))
    rw [bind_apply, hfail]
    rfl

theorem skipIf {f : Bool → Production α}
    (h : kindOf p.tokens.tail = k → Meets l ts (f true) p.advance)
    (h' : kindOf p.tokens.tail ≠ k → Meets l ts (f false) p) :
    Meets l ts (Parser.skipIf k >>= f) p := by
  by_cases hkind : kindOf p.tokens.tail = k
  · have hdone : Parser.skipIf k p = .done true p.advance := if_pos hkind
    refine of_eq ?_ (skip (f := fun _ => f true) (h hkind))
    rw [bind_apply, hdone]
    rfl
  · have hdone : Parser.skipIf k p = .done false p := if_neg hkind
    refine of_eq ?_ (h' hkind)
    rw [bind_apply, hdone]
    rfl

theorem attempt {x : Production α} (hx : Meets l ts x p) : Meets l ts (Parser.attempt x) p := by
  intro hw K
  have hrun := hx hw K
  unfold Parser.attempt
  generalize x p = o at hrun
  cases o with
  | done a p' => exact hrun
  | failed p' => exact ⟨hrun.1, .inr hrun.2⟩
  | exhausted => trivial

/-- The only need takes the next token. -/
theorem takeOnly {x : Production α} {g : Need} (hk : kindOf ts = k) (hne : k ≠ .eof)
    (hon : g.on (firstOf ts) = some (.ok l)) (h : Meets l ts.tail x p) : Meets [g] ts x p :=
  take hk hne hon (by rwa [List.append_nil])

/-- The end of the text ends a list of statements. -/
theorem atEnd {g : Need} (heof : kindOf p.tokens = .eof) (hon : g.on (firstOf p.tokens) = none) :
    Meets [g] p.tokens (Pure.pure a : Production α) p := by
  refine of_whole fun hw => pass hon ?_
  have hnil : p.tokens.tail = p.tokens := by
    cases hp : p.tokens with
    | nil => rfl
    | cons t ts =>
      rw [hp] at hw heof
      exact absurd heof (hw t (.head _))
  exact hnil ▸ pure a

/-- An optional semicolon ends a statement. -/
theorem semicolon {a : α} :
    Meets [.semicolon] p.tokens.tail (do let _ ← Parser.skipIf .semicolon; Pure.pure a) p := by
  refine skipIf (fun hk => ?_) fun hk => pass (if_neg hk) (pure a)
  exact take (l := []) hk (by decide) (if_pos hk) (pure (p := p.advance) a)

end Meets

/-! ## The productions -/

/-- What a goal needs. -/
@[simp] def Goal.needs : Goal → List Need
  | parameters => [.parameters]
  | moreParameters => [.moreParameters]
  | expression power => Need.expression power
  | operators power _ => [.operators power]
  | operand => [.operand]
  | moreArguments => [.moreArguments]
  | statements => [.block]
  | statement => [.statement]
  | program => [.program]

/-- Within the budget `n` the production of each goal meets its needs. -/
def Heeds (n : Nat) : Prop := ∀ (g : Goal) (p : Parser), Meets g.needs (g.input p) (g.run n) p

theorem meets_outOfBudget : Meets l ts (outOfBudget : Production α) p := fun _ _ => trivial

variable {n : Nat} (H : ∀ m < n, Heeds m) (p : Parser)
include H

theorem meets_moreParameters :
    Meets [.moreParameters] p.tokens.tail (Parser.moreParameters n) p := by
  cases n with
  | zero => exact meets_outOfBudget
  | succ n =>
    rw [Parser.moreParameters]
    refine .skipIf (fun hk => ?_) fun hk => ?_
    · refine .take (l := [.token .ident, .moreParameters]) hk (by decide) (if_pos hk) ?_
      exact .expect (by decide) (.map (H n (Nat.lt_succ_self n) .moreParameters _))
    · exact .congr (m := .token .rparen) (if_neg hk) (.expect (by decide) (.pure []))

theorem meets_parameters : Meets [.parameters] p.tokens.tail (Parser.parameters n) p := by
  rw [Parser.parameters]
  refine .skipIf (fun hk => ?_) fun hk => ?_
  · exact .take (l := []) hk (by decide) (if_pos hk) (.pure (p := p.advance) [])
  · refine .first (m := .token .ident) (l := [.moreParameters]) rfl (if_neg hk) ?_
    exact .expect (by decide) (.map (meets_moreParameters H _))

theorem meets_expression : Meets (Need.expression power) p.tokens (Parser.expression n power) p := by
  cases n with
  | zero => exact meets_outOfBudget
  | succ n =>
    have ih := H n (Nat.lt_succ_self n)
    rw [Parser.expression]
    refine .of_eq (atLevel_eq ..) ?_
    exact .bind (l := [.operand]) (ih .operand p) fun l p' => ih (.operators power l) p'

theorem meets_moreArguments :
    Meets [.moreArguments] p.tokens.tail (Parser.moreArguments n) p := by
  cases n with
  | zero => exact meets_outOfBudget
  | succ n =>
    have ih := H n (Nat.lt_succ_self n)
    rw [Parser.moreArguments]
    refine .skipIf (fun hk => ?_) fun hk => ?_
    · refine .take (l := Need.expression .lowest ++ [Need.moreArguments]) hk (by decide)
        (if_pos hk) ?_
      exact .skip (.bind (l := Need.expression .lowest)
        (ih (.expression .lowest) _) fun a p' => .map (ih .moreArguments p'))
    · exact .congr (m := .token .rparen) (if_neg hk) (.expect (by decide) (.pure []))

theorem meets_binary :
    Meets (Need.expression (.ofKind (kindOf p.tokens))) p.tokens.tail (Parser.binary n l) p := by
  cases n with
  | zero => exact meets_outOfBudget
  | succ n =>
    rw [Parser.binary]
    exact .currentToken (.skip (.map (H n (Nat.lt_succ_self n) (.expression _) _)))

theorem meets_callOf : Meets [.arguments] p.tokens.tail (Parser.callOf n l) p := by
  cases n with
  | zero => exact meets_outOfBudget
  | succ n =>
    have ih := H n (Nat.lt_succ_self n)
    rw [Parser.callOf]
    refine .currentToken (.skipIf (fun hk => ?_) fun hk => ?_)
    · exact .take (l := []) hk (by decide) (if_pos hk) (.pure (p := p.advance) _)
    · refine .first (m := .operand) (l := [.operators .lowest, .moreArguments]) rfl (if_neg hk) ?_
      exact .skip (.bind (l := Need.expression .lowest)
        (ih (.expression .lowest) _) fun a p' => .map (ih .moreArguments p'))

theorem meets_operators : Meets [.operators power] p.tokens.tail (Parser.operators n power l) p := by
  cases n with
  | zero => exact meets_outOfBudget
  | succ n =>
    obtain ⟨H', ih⟩ := Nat.forall_lt_succ_right.mp H
    rw [Parser.operators]
    refine .nextKind ?_
    split
    · next hk =>
      have heof : kindOf p.tokens.tail ≠ .eof := fun h => Nat.not_lt_zero _ (h ▸ hk)
      have hon : (Need.operators power).on (firstOf p.tokens.tail) = _ := if_pos hk
      split
      · next hparen =>
        exact .take hparen (by decide) (hon.trans (if_pos hparen)) (.skip (.bind
          (l := [.arguments]) (meets_callOf H' _) fun l' p' => ih (.operators power l') p'))
      · next hparen =>
        exact .take rfl heof (hon.trans (if_neg hparen)) (.skip (.bind
          (l := Need.expression (.ofKind (kindOf p.tokens.tail))) (meets_binary H' p.advance)
          fun l' p' => ih (.operators power l') p'))
    · next hk => exact .pass (if_neg hk) (.pure l)

theorem meets_unary : Meets (Need.expression .unary) p.tokens.tail (Parser.unary n) p := by
  cases n with
  | zero => exact meets_outOfBudget
  | succ n =>
    rw [Parser.unary]
    exact .currentToken (.skip (.map (H n (Nat.lt_succ_self n) (.expression _) _)))

theorem meets_group :
    Meets (Need.expression .lowest ++ [.token .rparen]) p.tokens.tail (Parser.group n) p := by
  cases n with
  | zero => exact meets_outOfBudget
  | succ n =>
    rw [Parser.group]
    exact .skip (.bind (H n (Nat.lt_succ_self n) (.expression _) _) fun e p' =>
      .expect (by decide) (.pure (p := p'.advance) e))

theorem meets_block : Meets [.block] p.tokens.tail (Parser.block n) p := by
  cases n with
  | zero => exact meets_outOfBudget
  | succ n =>
    rw [Parser.block]
    refine .note fun q hts _ => ?_
    rw [← hts]
    exact .currentToken (.skip (.map (H n (Nat.lt_succ_self n) .statements _)))

theorem meets_conditional :
    Meets (.token .lparen :: Need.expression .lowest ++
      [.token .rparen, .token .lbrace, .block, .alternative]) p.tokens.tail
      (Parser.conditional n) p := by
  cases n with
  | zero => exact meets_outOfBudget
  | succ n =>
    obtain ⟨H', ih⟩ := Nat.forall_lt_succ_right.mp H
    rw [Parser.conditional]
    refine .note fun q hts _ => ?_
    rw [← hts]
    refine .currentToken (.expect (by decide) (.skip ?_))
    refine .bind (ih (.expression _) _) fun c p₁ =>
      .expect (by decide) (.expect (by decide) ?_)
    refine .bind (l := [.block]) (meets_block H' _) fun b p₂ => .skipIf (fun hk => ?_) fun hk => ?_
    · refine .take (l := [.token .lbrace, .block]) hk (by decide) (if_pos hk) ?_
      exact .expect (by decide) (.map (meets_block H' _))
    · exact .pass (if_neg hk) (.pure _)

theorem meets_functionLiteral :
    Meets [.token .lparen, .parameters, .token .lbrace, .block] p.tokens.tail
      (Parser.functionLiteral n) p := by
  cases n with
  | zero => exact meets_outOfBudget
  | succ n =>
    obtain ⟨H', ih⟩ := Nat.forall_lt_succ_right.mp H
    rw [Parser.functionLiteral]
    refine .note fun q hts _ => ?_
    rw [← hts]
    refine .currentToken (.expect (by decide) ?_)
    exact .bind (l := [.parameters]) (ih .parameters _) fun xs p₁ =>
      .expect (by decide) (.map (meets_block H' _))

theorem meets_operand : Meets [.operand] p.tokens (Parser.operand n) p := by
  cases n with
  | zero => exact meets_outOfBudget
  | succ n =>
    have H' := (Nat.forall_lt_succ_right.mp H).1
    rw [Parser.operand]
    refine .currentToken (.note fun q hts _ => ?_)
    rw [← hts, kind_firstOf]
    have hfirst : ∀ {k}, kindOf q.tokens = k → (firstOf q.tokens).kind = k := id
    cases hk : kindOf q.tokens with
    | ident | trueWord | falseWord =>
      exact .takeOnly hk (by decide) (by simp [Need.on, Need.ofOperand, hfirst hk]) (.pure _)
    | int =>
      refine .currentToken ?_
      cases hint : integer? (firstOf q.tokens).literal with
      | some m =>
        exact .takeOnly hk (by decide) (by simp [Need.on, Need.ofOperand, hfirst hk, hint])
          (.pure _)
      | none => exact .fail (by simp [Need.on, Need.ofOperand, hfirst hk, hint])
    | bang | minus =>
      exact .takeOnly hk (by decide) (by simp [Need.on, Need.ofOperand, hfirst hk])
        (meets_unary H' q)
    | lparen =>
      exact .takeOnly hk (by decide) (by simp [Need.on, Need.ofOperand, hfirst hk])
        (meets_group H' q)
    | ifWord =>
      exact .takeOnly hk (by decide) (by simp [Need.on, Need.ofOperand, hfirst hk])
        (meets_conditional H' q)
    | fnWord =>
      exact .takeOnly hk (by decide) (by simp [Need.on, Need.ofOperand, hfirst hk])
        (meets_functionLiteral H' q)
    | _ => exact .fail (by simp [Need.on, Need.ofOperand, hfirst hk])

theorem meets_letStatement :
    Meets (.token .ident :: .token .assign :: Need.expression .lowest ++ [.semicolon])
      p.tokens.tail (letStatement n) p := by
  cases n with
  | zero => exact meets_outOfBudget
  | succ n =>
    rw [letStatement]
    refine .note fun q hts _ => ?_
    rw [← hts]
    refine .currentToken (.expect (by decide) (.currentToken (.expect (by decide) (.skip ?_))))
    exact .bind (H n (Nat.lt_succ_self n) (.expression _) _) fun e p' => .semicolon

theorem meets_returnStatement :
    Meets (Need.expression .lowest ++ [.semicolon]) p.tokens.tail (returnStatement n) p := by
  cases n with
  | zero => exact meets_outOfBudget
  | succ n =>
    rw [returnStatement]
    refine .note fun q hts _ => ?_
    rw [← hts]
    exact .currentToken (.skip (.bind (H n (Nat.lt_succ_self n) (.expression _) _) fun e p' =>
      .semicolon))

theorem meets_statement : Meets [.statement] p.tokens (Parser.statement n) p := by
  cases n with
  | zero => exact meets_outOfBudget
  | succ n =>
    obtain ⟨H', ih⟩ := Nat.forall_lt_succ_right.mp H
    rw [Parser.statement]
    refine .currentToken ?_
    rw [kind_firstOf]
    have hfirst : ∀ {k}, kindOf p.tokens = k → (firstOf p.tokens).kind = k := id
    cases hk : kindOf p.tokens with
    | letWord =>
      exact .takeOnly hk (by decide) (by simp [Need.on, Need.ofStatement, hfirst hk])
        (meets_letStatement H' p)
    | returnWord =>
      exact .takeOnly hk (by decide) (by simp [Need.on, Need.ofStatement, hfirst hk])
        (meets_returnStatement H' p)
    | lbrace =>
      exact .takeOnly hk (by decide) (by simp [Need.on, Need.ofStatement, hfirst hk])
        (.map (meets_block H' p))
    | _ =>
      refine .first (m := .operand) (l := [.operators .lowest, .semicolon]) rfl
        (by simp [Need.on, Need.ofStatement, hfirst hk]) ?_
      exact .bind (l := Need.expression .lowest) (ih (.expression _) _) fun e p' => .semicolon

theorem meets_statements : Meets [.block] p.tokens (blockStatements n) p := by
  cases n with
  | zero => exact meets_outOfBudget
  | succ n =>
    have ih := H n (Nat.lt_succ_self n)
    rw [blockStatements]
    refine .of_eq (atLevel_eq ..) (.currentToken ?_)
    rw [kind_firstOf]
    by_cases hbrace : kindOf p.tokens = .rbrace
    · rw [if_pos (.inl hbrace)]
      exact .takeOnly hbrace (by decide) (if_pos hbrace) (.pure [])
    by_cases heof : kindOf p.tokens = .eof
    · rw [if_pos (.inr heof)]
      exact .atEnd heof ((if_neg hbrace).trans (if_pos heof))
    · rw [if_neg (not_or.mpr ⟨hbrace, heof⟩)]
      refine .first (m := .statement) (l := [.block]) rfl ((if_neg hbrace).trans (if_neg heof)) ?_
      exact .bind (l := [.statement]) (.attempt (ih .statement p)) fun s p' =>
        .skip (.map (ih .statements _))

theorem meets_program : Meets [.program] p.tokens (programStatements n) p := by
  cases n with
  | zero => exact meets_outOfBudget
  | succ n =>
    have ih := H n (Nat.lt_succ_self n)
    rw [programStatements]
    refine .of_eq (atLevel_eq ..) (.currentToken ?_)
    rw [kind_firstOf]
    by_cases heof : kindOf p.tokens = .eof
    · rw [if_pos heof]
      exact .atEnd heof (if_pos heof)
    · rw [if_neg heof]
      refine .first (m := .statement) (l := [.program]) rfl (if_neg heof) ?_
      refine .bind (l := [.statement]) (.attempt (ih .statement p)) fun s p' => ?_
      cases s with
      | none => exact .skip (.map (ih .program _))
      | some s =>
        refine .note fun q hts _ => ?_
        rw [← hts]
        exact .skip (.map (ih .program _))

omit H in
/-- Every production meets the needs of its goal. -/
theorem Goal.meets : ∀ n, Heeds n := by
  intro n
  induction n using Nat.strongRecOn with
  | _ n H =>
    intro g p
    cases g with
    | parameters => exact meets_parameters H p
    | moreParameters => exact meets_moreParameters H p
    | expression => exact meets_expression H p
    | operators => exact meets_operators H p
    | operand => exact meets_operand H p
    | moreArguments => exact meets_moreArguments H p
    | statements => exact meets_statements H p
    | statement => exact meets_statement H p
    | program => exact meets_program H p

end MonkeyLang
