import MonkeyLang.Proofs.Parser.Clean

/-!
# Progress of the productions

With enough budget a production comes to an end, and if it records no error then what it does is what
the rules of `Reads` say (`Goal.sat_run`). The budget is spent on levels of recursion, and every three
of them pass a token; a list of statements goes on from the token after a failed one.
-/

namespace MonkeyLang

open MonkeyLang.Parser

namespace Parser

/-- An error was added, and no token was read twice. -/
def Fault (p p' : Parser) : Prop :=
  p.errors.size < p'.errors.size ∧ p'.tokens.length ≤ p.tokens.length

/-- No error was dropped, no token was read twice, and without a new error the goal was read. -/
def Reading (g : Goal) (p : Parser) (a : g.Result) (p' : Parser) : Prop :=
  p.errors.size ≤ p'.errors.size ∧ p'.tokens.length ≤ p.tokens.length ∧
    (p'.errors.size = p.errors.size → Reads g (g.input p) a p'.tokens.tail)

/-- After the operand `l` an operator was read, with what belongs to it. Without a new error whatever
goes on from there goes on from `l`. -/
def Continuing (power : Precedence) (l : Expr) (p : Parser) (l' : Expr) (p' : Parser) : Prop :=
  p.errors.size ≤ p'.errors.size ∧ p'.tokens.length < p.tokens.length ∧
    (p'.errors.size = p.errors.size → ∀ ⦃e ts⦄, Reads (.operators power l') p'.tokens.tail e ts →
      Reads (.operators power l) p.tokens.tail e ts)

/-- `Reading` for lists of statements. -/
def Listing (R : List Token → List Stmt → List Token → Prop) (p : Parser) (ss : List Stmt)
    (p' : Parser) : Prop :=
  p.errors.size ≤ p'.errors.size ∧ p'.tokens.length ≤ p.tokens.length ∧
    (p'.errors.size = p.errors.size → R p.tokens ss p'.tokens.tail)

theorem fault_reject (h : p.errors.size ≤ p₁.errors.size)
    (h' : p₁.tokens.length ≤ p.tokens.length) : Fault p (reject p₁ e) := by
  simp [Fault]
  omega

end Parser

/-- Within the budget `n` the production of every goal that it is enough for comes to an end. -/
def Suffices (n : Nat) : Prop :=
  ∀ (g : Goal) (p : Parser), 3 * (g.input p).length + g.cost ≤ n →
    (g.run n p).Sat False (Reading g p) (Fault p)

/-- The production of a goal as one step of a larger one that started at `p`. -/
theorem Suffices.sat {P : g.Result → Parser → Prop} (H : Suffices n)
    (hn : 3 * (g.input p₁).length + g.cost ≤ n) (he : p.errors.size ≤ p₁.errors.size)
    (hl : p₁.tokens.length ≤ p.tokens.length)
    (hP : ∀ a p', p₁.errors.size ≤ p'.errors.size → p'.tokens.length ≤ p₁.tokens.length →
      (p'.errors.size = p₁.errors.size → Reads g (g.input p₁) a p'.tokens.tail) → P a p') :
    (g.run n p₁).Sat False P (Fault p) :=
  (H g p₁ hn).mono (fun a p' h => hP a p' h.1 h.2.1 h.2.2)
    fun _ h => ⟨Nat.lt_of_le_of_lt he h.1, Nat.le_trans h.2 hl⟩

theorem exists_cons_of_kindOf_ne (h : kindOf ts ≠ .eof) : ∃ u us, ts = u :: us :=
  List.exists_cons_of_ne_nil fun hnil => h (hnil ▸ kindOf_nil)

theorem tokens_of_next {p : Parser} (h : kindOf p.tokens.tail = kind) (hk : kind ≠ .eof) :
    ∃ t u ts, p.tokens = t :: u :: ts ∧ u.kind = kind := by
  match ht : p.tokens with
  | [] | [_] => exact absurd (by simpa [ht] using h.symm) hk
  | t :: u :: ts => exact ⟨t, u, ts, rfl, by simpa [ht] using h⟩

/-- A step that needs the next token to be of some kind. -/
theorem Parser.sat_expect_of {P : Unit → Parser → Prop} (hk : kind ≠ .eof)
    (he : p.errors.size ≤ p₁.errors.size) (hl : p₁.tokens.length ≤ p.tokens.length)
    (hP : ∀ t u ts, p₁.tokens = t :: u :: ts → u.kind = kind → P () p₁.advance) :
    (expect kind p₁).Sat False P (Fault p) := by
  rw [sat_expect]
  split
  · next h =>
    obtain ⟨t, u, ts, hts, hu⟩ := tokens_of_next h hk
    exact hP t u ts hts hu
  · exact fault_reject he hl

/-- A step that looks whether the next token is of some kind. -/
theorem Parser.sat_skipIf_of {P : Bool → Parser → Prop} (hk : kind ≠ .eof)
    (h : ∀ t u ts, p.tokens = t :: u :: ts → u.kind = kind → P true p.advance)
    (h' : kindOf p.tokens.tail ≠ kind → P false p) : (skipIf kind p).Sat False P F := by
  rw [sat_skipIf]
  split
  · next hkind =>
    obtain ⟨t, u, ts, hts, hu⟩ := tokens_of_next hkind hk
    exact h t u ts hts hu
  · next hkind => exact h' hkind

/-- A statement of a list, good or bad, and the others after it. -/
theorem Suffices.sat_listed {more : Production (List Stmt)} {R : List Token → List Stmt → List Token → Prop}
    {p : Parser} (S : Suffices n) (hn : 3 * p.tokens.length + 3 ≤ n) (ht : p.tokens = t :: ts)
    (hmore : ∀ p₁, 3 * p₁.tokens.length + 4 ≤ n → (more p₁).Sat False (Listing R p₁) (Fault p₁))
    (hR : ∀ {s ts₁ ss ts'}, Reads .statement (t :: ts) s ts₁ → R ts₁ ss ts' →
      R (t :: ts) (s :: ss) ts') :
    (Parser.statement n p).Sat False
      (fun s p₁ => ∀ q : Parser, q.tokens = p₁.tokens → q.errors = p₁.errors →
        (more q.advance).Sat False (fun ss => Listing R p (s :: ss)) (Fault p))
      fun p₁ => (more p₁.advance).Sat False (Listing R p) (Fault p) := by
  refine (S .statement p hn).mono ?_ ?_
  · intro s p₁ h q hts hes
    obtain ⟨he, hl, hr⟩ := h
    simp [ht] at hl hr hn
    refine (hmore q.advance (by simp [hts]; omega)).mono ?_ ?_
    · intro ss p' h'
      obtain ⟨he', hl', hr'⟩ := h'
      simp [hts, hes] at he' hl' hr'
      refine ⟨by omega, by simp [ht]; omega, fun h => ?_⟩
      rw [ht]
      exact hR (hr (by omega)) (hr' (by omega))
    · intro p' h'
      obtain ⟨he', hl'⟩ := h'
      simp [hts, hes] at he' hl'
      exact ⟨by omega, by simp [ht]; omega⟩
  · intro p₁ h
    obtain ⟨he, hl⟩ := h
    simp [ht] at hl hn
    refine (hmore p₁.advance (by simp; omega)).mono ?_ ?_
    · intro ss p' h'
      obtain ⟨he', hl', -⟩ := h'
      simp at he' hl'
      exact ⟨by omega, by simp [ht]; omega, fun h => by omega⟩
    · intro p' h'
      obtain ⟨he', hl'⟩ := h'
      simp at he' hl'
      exact ⟨by omega, by simp [ht]; omega⟩

/-- The last step of a statement. -/
theorem Parser.sat_semicolon {p : Parser} {P : Bool → Parser → Prop}
    (hP : ∀ b p', p'.tokens.tail = dropSemicolon p.tokens.tail →
      p'.tokens.length ≤ p.tokens.length → p'.errors = p.errors → P b p') :
    (skipIf .semicolon p).Sat False P F := by
  rw [sat_skipIf]
  split
  · next hk => exact hP _ _ (by simp [dropSemicolon, hk]) (by simp) (by simp)
  · next hk => exact hP _ _ (by simp [dropSemicolon, hk]) (by simp) rfl

variable {n : Nat} (H : ∀ m < n, Suffices m) (p : Parser)
include H

theorem sat_moreParameters (hn : 3 * p.tokens.tail.length + 1 ≤ n) :
    (Parser.moreParameters n p).Sat False (Reading .moreParameters p) (Fault p) := by
  obtain ⟨n, rfl⟩ := Nat.exists_eq_add_of_le' (Nat.le_trans (by simp) hn : 1 ≤ n)
  rw [Parser.moreParameters, sat_bind]
  refine sat_skipIf_of (by decide) (fun x t ts hts ht => ?_) fun _ => ?_
  · simp only [if_true, sat_bind, sat_currentToken, sat_pure]
    refine sat_expect_of (by decide) (by simp) (by simp) fun t' u us hus hu => ?_
    obtain ⟨rfl, rfl⟩ : t = t' ∧ ts = u :: us := by simpa [hts] using hus
    refine (H n (by omega)).sat (g := .moreParameters) ?_ (by simp) (by simp; omega) ?_
    · simp [hts] at hn ⊢
      omega
    intro xs p' he hl hr
    simp [hts] at he hl hr
    simp [Reading, hts]
    exact ⟨he, by omega, fun h => .nextParameter ht hu (hr h)⟩
  · simp only [Bool.false_eq_true, if_false, sat_bind]
    refine sat_expect_of (by decide) (by simp) (by simp) fun x t ts hts ht => ?_
    simp [Reading, hts]
    exact .lastParameter ht

theorem sat_parameters (hn : 3 * p.tokens.tail.length + 1 ≤ n) :
    (Parser.parameters n p).Sat False (Reading .parameters p) (Fault p) := by
  rw [Parser.parameters, sat_bind]
  refine sat_skipIf_of (by decide) (fun x t ts hts ht => ?_) fun _ => ?_
  · simp [Reading, hts]
    exact .noParameters ht
  · simp only [Bool.false_eq_true, if_false, sat_bind, sat_currentToken, sat_pure]
    refine sat_expect_of (by decide) (by simp) (by simp) fun x t ts hts ht => ?_
    refine (sat_moreParameters H p.advance (by simp at hn ⊢; omega)).mono ?_ ?_
    · intro xs p' h
      obtain ⟨he, hl, hr⟩ := h
      simp [hts] at he hl hr
      simp [Reading, hts]
      exact ⟨he, by omega, fun h => .parameters ht (hr h)⟩
    · intro p' h
      obtain ⟨he, hl⟩ := h
      simp at he hl
      exact ⟨he, by omega⟩

theorem sat_expression (hn : 3 * p.tokens.length + 2 ≤ n) :
    (Parser.expression n power p).Sat False (Reading (.expression power) p) (Fault p) := by
  obtain ⟨n, rfl⟩ := Nat.exists_eq_add_of_le' (Nat.le_trans (by simp) hn : 1 ≤ n)
  simp only [Parser.expression, atLevel_eq, sat_bind]
  refine (H n (by omega)).sat (g := .operand) (by simp; omega) (by simp) (by simp) ?_
  intro l p₁ he hl hr
  refine (H n (by omega)).sat (g := .operators power l) (by simp; omega) he hl ?_
  intro e p' he' hl' hr'
  refine ⟨by omega, by omega, fun h => .expression (hr (by omega)) (hr' (by omega))⟩

theorem sat_moreArguments (hn : 3 * p.tokens.tail.length + 1 ≤ n) :
    (Parser.moreArguments n p).Sat False (Reading .moreArguments p) (Fault p) := by
  obtain ⟨n, rfl⟩ := Nat.exists_eq_add_of_le' (Nat.le_trans (by simp) hn : 1 ≤ n)
  rw [Parser.moreArguments, sat_bind]
  refine sat_skipIf_of (by decide) (fun x t ts hts ht => ?_) fun _ => ?_
  · simp only [if_true, sat_bind, sat_skip, sat_pure]
    simp [hts] at hn
    refine (H n (by omega)).sat (g := .expression .lowest) ?_ (by simp) (by simp; omega) ?_
    · simp [hts]
      omega
    intro a p₁ he hl hr
    simp [hts] at he hl hr
    refine (H n (by omega)).sat (g := .moreArguments) (by simp; omega) he (by simp [hts]; omega) ?_
    intro as p' he' hl' hr'
    simp [Reading, hts]
    exact ⟨by omega, by omega, fun h => .nextArgument ht (hr (by omega)) (hr' (by omega))⟩
  · simp only [Bool.false_eq_true, if_false, sat_bind]
    refine sat_expect_of (by decide) (by simp) (by simp) fun x t ts hts ht => ?_
    simp [Reading, hts]
    exact .lastArgument ht

theorem sat_binary (hn : 3 * p.tokens.tail.length ≤ n) (ht : p.tokens = x :: t :: ts)
    (hk : power < .ofKind t.kind) (hk' : t.kind ≠ .lparen) :
    (Parser.binary n l p.advance).Sat False (Continuing power l p) (Fault p) := by
  simp [ht] at hn
  obtain ⟨n, rfl⟩ := Nat.exists_eq_add_of_le' (by omega : 1 ≤ n)
  simp [Parser.binary, ht]
  refine (H n (by omega)).sat (g := .expression (.ofKind t.kind)) ?_ (by simp) ?_ ?_
  · simp [ht]
    omega
  · simp [ht]
    omega
  intro r p₁ he hl hr
  simp [ht] at he hl hr
  refine ⟨he, by simp [ht]; omega, fun h _ _ => ?_⟩
  rw [ht]
  exact .binary hk hk' (hr h)

theorem sat_callOf (hn : 3 * p.tokens.tail.length ≤ n) (ht : p.tokens = x :: t :: ts)
    (hk : power < .call) (hk' : t.kind = .lparen) :
    (Parser.callOf n l p.advance).Sat False (Continuing power l p) (Fault p) := by
  simp [ht] at hn
  obtain ⟨n, rfl⟩ := Nat.exists_eq_add_of_le' (by omega : 1 ≤ n)
  simp only [Parser.callOf, sat_bind, sat_currentToken]
  refine sat_skipIf_of (by decide) (fun x' u us hus hu => ?_) fun hu => ?_
  · obtain ⟨rfl, rfl⟩ : t = x' ∧ ts = u :: us := by simpa [ht] using hus
    simp [Continuing, ht]
    exact fun e ts' => .callEmpty hk hk' hu
  · simp only [Bool.false_eq_true, if_false, sat_bind, sat_skip, sat_pure]
    refine (H n (by omega)).sat (g := .expression .lowest) ?_ (by simp) ?_ ?_
    · simp [ht]
      omega
    · simp [ht]
      omega
    intro a p₁ he hl hr
    simp [ht] at he hl hr
    refine (H n (by omega)).sat (g := .moreArguments) ?_ he (by simp [ht]; omega) ?_
    · simp
      omega
    intro as p' he' hl' hr'
    refine ⟨by omega, by simp [ht]; omega, fun h _ _ => ?_⟩
    rw [tokens_advance, ht] at hu ⊢
    exact .call hk hk' hu (hr (by omega)) (hr' (by omega))

theorem sat_operators (hn : 3 * p.tokens.tail.length + 1 ≤ n) :
    (Parser.operators n power l p).Sat False (Reading (.operators power l) p) (Fault p) := by
  obtain ⟨n, rfl⟩ := Nat.exists_eq_add_of_le' (Nat.le_trans (by simp) hn : 1 ≤ n)
  simp only [Parser.operators, sat_bind, sat_nextKind, sat_skip, sat_ite, sat_pure]
  split
  · next hk =>
    have heof : kindOf p.tokens.tail ≠ .eof := fun h => Nat.not_lt_zero _ (h ▸ hk)
    obtain ⟨x, t, ts, hts, ht⟩ := tokens_of_next rfl heof
    rw [← ht] at hk ⊢
    -- An operator and what belongs to it were read: the loop goes on.
    have hloop : ∀ l' p₁, Continuing power l p l' p₁ →
        (Parser.operators n power l' p₁).Sat False (Reading (.operators power l) p) (Fault p) := by
      intro l' p₁ h
      obtain ⟨he, hl, hr⟩ := h
      refine (H n (by omega)).sat (g := .operators power l') ?_ he (Nat.le_of_lt hl) ?_
      · simp [hts] at hn hl ⊢
        omega
      intro e p' he' hl' hr'
      exact ⟨by omega, by omega, fun h => hr (by omega) (hr' (by omega))⟩
    split
    · next hp =>
      have hcall := sat_callOf (n := n) (l := l) (fun m hm => H m (by omega)) p (by omega) hts (by rwa [hp] at hk) hp
      exact hcall.mono hloop fun _ h => h
    · next hp =>
      have hbin := sat_binary (n := n) (l := l) (fun m hm => H m (by omega)) p (by omega) hts hk hp
      exact hbin.mono hloop fun _ h => h
  · next hk => exact ⟨by simp, by simp, fun _ => .stop hk⟩

theorem sat_statements (hn : 3 * p.tokens.length + 4 ≤ n) :
    (blockStatements n p).Sat False (Reading .statements p) (Fault p) := by
  obtain ⟨n, rfl⟩ := Nat.exists_eq_add_of_le' (Nat.le_trans (by simp) hn : 1 ≤ n)
  rw [blockStatements]
  simp only [atLevel_eq, sat_bind, sat_currentToken, sat_ite, sat_attempt, sat_pure, sat_skip]
  split
  · next hk => exact ⟨by simp, by simp, fun _ => .endOfStatements hk⟩
  · next hk =>
    obtain ⟨t, ts, hts⟩ := exists_cons_of_kindOf_ne fun heof => hk (.inr heof)
    simp [hts] at hk
    have hs := (H n (Nat.lt_succ_self n)).sat_listed (R := Reads .statements) (by omega) hts
      (H n (Nat.lt_succ_self n) .statements) (.statements hk.1 hk.2)
    exact hs.mono (fun s p₁ h => h p₁ rfl rfl) fun _ h => h

theorem sat_program (hn : 3 * p.tokens.length + 4 ≤ n) :
    (programStatements n p).Sat False (Reading .program p) (Fault p) := by
  obtain ⟨n, rfl⟩ := Nat.exists_eq_add_of_le' (Nat.le_trans (by simp) hn : 1 ≤ n)
  rw [programStatements]
  simp only [atLevel_eq, sat_bind, sat_currentToken, sat_ite, sat_attempt, sat_pure, sat_skip,
    sat_note]
  split
  · next hk => exact ⟨by simp, by simp, fun _ => .endOfProgram hk⟩
  · next hk =>
    obtain ⟨t, ts, hts⟩ := exists_cons_of_kindOf_ne hk
    simp [hts] at hk
    have hs := (H n (Nat.lt_succ_self n)).sat_listed (R := Reads .program) (by omega) hts
      (H n (Nat.lt_succ_self n) .program) (.program hk)
    exact hs.mono (fun s p₁ h => h _ rfl rfl) fun _ h => h

theorem sat_unary (hn : 3 * p.tokens.length ≤ n) (ht : p.tokens = t :: ts)
    (hk : t.kind = .bang ∨ t.kind = .minus) :
    (Parser.unary n p).Sat False (Reading .operand p) (Fault p) := by
  simp [ht] at hn
  obtain ⟨n, rfl⟩ := Nat.exists_eq_add_of_le' (by omega : 1 ≤ n)
  simp only [Parser.unary, sat_bind, sat_currentToken, sat_skip, sat_pure]
  refine (H n (by omega)).sat (g := .expression .unary) ?_ (by simp) (by simp) ?_
  · simp [ht]
    omega
  intro e p' he hl hr
  simp [ht] at he hl hr
  simp [Reading, ht]
  exact ⟨he, by omega, fun h => .unary hk (hr h)⟩

theorem sat_group (hn : 3 * p.tokens.length ≤ n) (ht : p.tokens = t :: ts)
    (hk : t.kind = .lparen) :
    (Parser.group n p).Sat False (Reading .operand p) (Fault p) := by
  simp [ht] at hn
  obtain ⟨n, rfl⟩ := Nat.exists_eq_add_of_le' (by omega : 1 ≤ n)
  simp only [Parser.group, sat_bind, sat_skip, sat_pure]
  refine (H n (by omega)).sat (g := .expression .lowest) ?_ (by simp) (by simp) ?_
  · simp [ht]
    omega
  intro e p₁ he hl hr
  refine sat_expect_of (by decide) (by simpa using he) (Nat.le_trans hl (by simp)) fun x u us hus hu => ?_
  simp [ht, hus] at he hl hr
  simp [Reading, ht, hus]
  exact ⟨he, by omega, fun h => .group hk (hr h) hu⟩

theorem sat_block {P : Block → Parser → Prop} {p₁ : Parser} (ht : p₁.tokens = t :: ts)
    (hn : 3 * p₁.tokens.length + 2 ≤ n) (he : p.errors.size ≤ p₁.errors.size)
    (hl : p₁.tokens.length ≤ p.tokens.length)
    (hP : ∀ ss p', p₁.errors.size ≤ p'.errors.size → p'.tokens.length ≤ ts.length →
      (p'.errors.size = p₁.errors.size → Reads .statements ts ss p'.tokens.tail) → P ⟨t, ss⟩ p') :
    (Parser.block n p₁).Sat False P (Fault p) := by
  obtain ⟨n, rfl⟩ := Nat.exists_eq_add_of_le' (by omega : 1 ≤ n)
  simp [ht] at hn hl
  simp only [Parser.block, sat_bind, sat_note, sat_currentToken, sat_skip, sat_pure]
  refine (H n (by omega)).sat (g := .statements) ?_ (by simpa using he) ?_ ?_
  · simp [ht]
    omega
  · simp [ht]
    omega
  intro ss p' he hl hr
  simp [ht] at he hl hr
  rw [ht]
  exact hP ss p' he hl hr

theorem sat_conditional (hn : 3 * p.tokens.length ≤ n) (ht : p.tokens = t :: ts)
    (hk : t.kind = .ifWord) :
    (Parser.conditional n p).Sat False (Reading .operand p) (Fault p) := by
  have hpos : 1 ≤ n := by
    simp [ht] at hn
    omega
  obtain ⟨n, rfl⟩ := Nat.exists_eq_add_of_le' hpos
  simp only [Parser.conditional, sat_bind, sat_note, sat_currentToken, sat_skip]
  refine sat_expect_of (by decide) (by simp) (by simp) fun t' u us hus hu => ?_
  obtain ⟨rfl, rfl⟩ : t = t' ∧ ts = u :: us := by simpa [ht] using hus
  simp [ht] at hn
  refine (H n (by omega)).sat (g := .expression .lowest) ?_ (by simp) (by simp; omega) ?_
  · simp [ht]
    omega
  intro c p₁ he hl hr
  simp [ht] at he hl hr
  refine sat_expect_of (by decide) he (by simp [ht]; omega) fun x v vs hvs hv => ?_
  refine sat_expect_of (by decide) (by simpa using he) (by simp [ht]; omega) fun v' w ws hws hw => ?_
  obtain ⟨rfl, rfl⟩ : v = v' ∧ vs = w :: ws := by simpa [hvs] using hws
  simp [hvs] at hl hr
  refine sat_block (fun m hm => H m (by omega)) p (by simp [hvs] : _ = w :: ws) ?_
    (by simpa using he) (by simp [ht, hvs]; omega) ?_
  · simp [hvs]
    omega
  intro ss p₂ he₂ hl₂ hr₂
  simp at he₂ hr₂
  refine sat_skipIf_of (by decide) (fun x' y ys hys hy => ?_) fun hx => ?_
  · simp only [if_true, sat_bind, sat_pure]
    simp [hys] at hl₂ hr₂
    refine sat_expect_of (by decide) (by simp; omega) (by simp [ht, hys]; omega) fun y' z zs hzs hz => ?_
    obtain ⟨rfl, rfl⟩ : y = y' ∧ ys = z :: zs := by simpa [hys] using hzs
    simp at hl₂
    refine sat_block (fun m hm => H m (by omega)) p (by simp [hys] : _ = z :: zs) ?_
      (by simp; omega) (by simp [ht, hys]; omega) ?_
    · simp [hys]
      omega
    intro ss' p' he' hl' hr'
    simp at he' hr'
    simp [Reading, ht]
    refine ⟨by omega, by omega, fun h => ?_⟩
    exact .condElse hk hu (hr (by omega)) hv hw (hr₂ (by omega)) hy hz (hr' (by omega))
  · simp [Reading, ht]
    refine ⟨by omega, by omega, fun h => ?_⟩
    exact .cond hk hu (hr (by omega)) hv hw (hr₂ (by omega)) hx

theorem sat_functionLiteral (hn : 3 * p.tokens.length ≤ n) (ht : p.tokens = t :: ts)
    (hk : t.kind = .fnWord) :
    (Parser.functionLiteral n p).Sat False (Reading .operand p) (Fault p) := by
  have hpos : 1 ≤ n := by
    simp [ht] at hn
    omega
  obtain ⟨n, rfl⟩ := Nat.exists_eq_add_of_le' hpos
  simp only [Parser.functionLiteral, sat_bind, sat_note, sat_currentToken, sat_pure]
  refine sat_expect_of (by decide) (by simp) (by simp) fun t' u us hus hu => ?_
  obtain ⟨rfl, rfl⟩ : t = t' ∧ ts = u :: us := by simpa [ht] using hus
  simp [ht] at hn
  refine (H n (by omega)).sat (g := .parameters) ?_ (by simp) (by simp) ?_
  · simp [ht]
    omega
  intro xs p₁ he hl hr
  simp [ht] at he hl hr
  refine sat_expect_of (by decide) he (by simp [ht]; omega) fun v w ws hws hw => ?_
  simp [hws] at hl hr
  refine sat_block (fun m hm => H m (by omega)) p (by simp [hws] : _ = w :: ws) ?_
    (by simpa using he) (by simp [ht, hws]; omega) ?_
  · simp [hws]
    omega
  intro ss p' he' hl' hr'
  simp at he' hr'
  simp [Reading, ht]
  refine ⟨by omega, by omega, fun h => ?_⟩
  exact .function hk hu (hr (by omega)) hw (hr' (by omega))

theorem sat_operand (hn : 3 * p.tokens.length + 1 ≤ n) :
    (Parser.operand n p).Sat False (Reading .operand p) (Fault p) := by
  obtain ⟨n, rfl⟩ := Nat.exists_eq_add_of_le' (Nat.le_trans (by simp) hn : 1 ≤ n)
  have H' : ∀ m < n, Suffices m := fun m hm => H m (by omega)
  simp only [Parser.operand, sat_bind, sat_note, sat_currentToken]
  obtain ⟨ts, es, u, s, log⟩ := p
  cases ts with
  | nil => exact fault_reject (by simp) (by simp)
  | cons t ts =>
    simp only [firstOf_cons]
    cases hk : t.kind with
    | ident => exact ⟨by simp, by simp, fun _ => .ident hk⟩
    | int =>
      refine sat_integer.mpr ?_
      simp only [firstOf_cons]
      cases hi : integer? t.literal with
      | none => exact fault_reject (by simp) (by simp)
      | some m => exact ⟨by simp, by simp, fun _ => .int hk hi⟩
    | trueWord => exact ⟨by simp, by simp, fun _ => .true hk⟩
    | falseWord => exact ⟨by simp, by simp, fun _ => .false hk⟩
    | bang => exact sat_unary H' ⟨t :: ts, es, u, s, _⟩ (by simpa using hn) rfl (.inl hk)
    | minus => exact sat_unary H' ⟨t :: ts, es, u, s, _⟩ (by simpa using hn) rfl (.inr hk)
    | lparen => exact sat_group H' ⟨t :: ts, es, u, s, _⟩ (by simpa using hn) rfl hk
    | ifWord => exact sat_conditional H' ⟨t :: ts, es, u, s, _⟩ (by simpa using hn) rfl hk
    | fnWord => exact sat_functionLiteral H' ⟨t :: ts, es, u, s, _⟩ (by simpa using hn) rfl hk
    | _ => exact fault_reject (by simp) (by simp)

theorem sat_letStatement (hn : 3 * p.tokens.length ≤ n) (ht : p.tokens = t :: ts)
    (hk : t.kind = .letWord) :
    (letStatement n p).Sat False (Reading .statement p) (Fault p) := by
  have hpos : 1 ≤ n := by
    simp [ht] at hn
    omega
  obtain ⟨n, rfl⟩ := Nat.exists_eq_add_of_le' hpos
  simp only [letStatement, sat_bind, sat_note, sat_currentToken, sat_skip, sat_pure]
  refine sat_expect_of (by decide) (by simp) (by simp) fun t' u us hus hu => ?_
  obtain ⟨rfl, rfl⟩ : t = t' ∧ ts = u :: us := by simpa [ht] using hus
  refine sat_expect_of (by decide) (by simp) (by simp) fun u' v vs hvs hv => ?_
  obtain ⟨rfl, rfl⟩ : u = u' ∧ us = v :: vs := by simpa [ht] using hvs
  simp [ht] at hn
  refine (H n (by omega)).sat (g := .expression .lowest) ?_ (by simp) (by simp; omega) ?_
  · simp [ht]
    omega
  intro e p₁ he hl hr
  simp [ht] at he hl hr
  refine sat_semicolon fun _ p' hts' hl' he' => ?_
  simp [Reading, ht, hts', he']
  exact ⟨he, by omega, fun h => .letStmt hk hu hv (hr h)⟩

theorem sat_returnStatement (hn : 3 * p.tokens.length ≤ n) (ht : p.tokens = t :: ts)
    (hk : t.kind = .returnWord) :
    (returnStatement n p).Sat False (Reading .statement p) (Fault p) := by
  have hpos : 1 ≤ n := by
    simp [ht] at hn
    omega
  obtain ⟨n, rfl⟩ := Nat.exists_eq_add_of_le' hpos
  simp only [returnStatement, sat_bind, sat_note, sat_currentToken, sat_skip, sat_pure]
  simp [ht] at hn
  refine (H n (by omega)).sat (g := .expression .lowest) ?_ (by simp) (by simp) ?_
  · simp [ht]
    omega
  intro e p₁ he hl hr
  simp [ht] at he hl hr
  refine sat_semicolon fun _ p' hts' hl' he' => ?_
  simp [Reading, ht, hts', he']
  exact ⟨he, by omega, fun h => .returnStmt hk (hr h)⟩

theorem sat_exprStatement (hm : m < n) (hn : 3 * p.tokens.length + 2 ≤ m)
    (hk : kindOf p.tokens ≠ .letWord) (hk' : kindOf p.tokens ≠ .returnWord)
    (hk'' : kindOf p.tokens ≠ .lbrace) :
    (Parser.expression m .lowest p).Sat False (fun e p' => (skipIf .semicolon p').Sat False
      (fun _ => Reading .statement p (.expr (firstOf p.tokens) e)) (Fault p)) (Fault p) := by
  refine (H m hm).sat (g := .expression .lowest) hn (by simp) (by simp) ?_
  intro e p₁ he hl hr
  refine sat_semicolon fun _ p' hts' hl' he' => ?_
  refine ⟨he' ▸ he, by omega, fun h => ?_⟩
  rw [he'] at h
  have hread := hr h
  cases ht : p.tokens with
  | nil => exact absurd hread.length_le (by simp [ht])
  | cons t ts =>
    simp only [Goal.input, ht, kindOf_cons] at hk hk' hk'' hread ⊢
    exact hts' ▸ .exprStmt hk hk' hk'' hread

theorem sat_statement (hn : 3 * p.tokens.length + 3 ≤ n) :
    (Parser.statement n p).Sat False (Reading .statement p) (Fault p) := by
  obtain ⟨n, rfl⟩ := Nat.exists_eq_add_of_le' (Nat.le_trans (by simp) hn : 1 ≤ n)
  have H' : ∀ m < n, Suffices m := fun m hm => H m (by omega)
  simp only [Parser.statement, sat_bind, sat_currentToken]
  rw [kind_firstOf]
  cases hk : kindOf p.tokens with
  | letWord =>
    obtain ⟨t, ts, ht⟩ := exists_cons_of_kindOf_ne (by simp [hk] : kindOf p.tokens ≠ .eof)
    exact sat_letStatement H' p (by omega) ht (by simpa [ht] using hk)
  | returnWord =>
    obtain ⟨t, ts, ht⟩ := exists_cons_of_kindOf_ne (by simp [hk] : kindOf p.tokens ≠ .eof)
    exact sat_returnStatement H' p (by omega) ht (by simpa [ht] using hk)
  | lbrace =>
    obtain ⟨t, ts, ht⟩ := exists_cons_of_kindOf_ne (by simp [hk] : kindOf p.tokens ≠ .eof)
    rw [sat_bind]
    refine sat_block H' p ht (by omega) (by simp) (by simp) ?_
    intro ss p' he hl hr
    simp [Reading, ht]
    exact ⟨he, by omega, fun h => .blockStmt (by simpa [ht] using hk) (hr h)⟩
  | _ =>
    simp only [sat_bind, sat_pure]
    exact sat_exprStatement H p (Nat.lt_succ_self n) (by omega) (by simp [hk]) (by simp [hk])
      (by simp [hk])

omit H in
/-- A production ends within a budget that is enough for its goal, and without a new error it has
read the goal. -/
theorem Goal.sat_run : ∀ n, Suffices n := by
  intro n
  induction n using Nat.strongRecOn with
  | _ n H =>
    intro g p hn
    cases g with
    | parameters => exact sat_parameters H p hn
    | moreParameters => exact sat_moreParameters H p hn
    | expression => exact sat_expression H p hn
    | operators => exact sat_operators H p hn
    | operand => exact sat_operand H p hn
    | moreArguments => exact sat_moreArguments H p hn
    | statements => exact sat_statements H p hn
    | statement => exact sat_statement H p hn
    | program => exact sat_program H p hn

end MonkeyLang
