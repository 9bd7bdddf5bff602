import MonkeyLang.Proofs.Parser.Grammar
import MonkeyLang.Proofs.Parser.Outcome
import MonkeyLang.Parser.Productions

/-!
# The shapes of words

What a word of a production looks like, and what its first token tells: what may go on with an
expression is never what may come after one (`Ends`), except that a statement may look like what goes
on with the one before (`statements_split`).
-/

namespace MonkeyLang

/-- Words that go on with an expression. -/
abbrev Onward (v : List Token) : Prop := Derives (.many (.rule .continuation)) v

/-- Words of statements. -/
abbrev Listed (v : List Token) : Prop := Derives (.many (.rule .statement)) v

/-- An optional semicolon. -/
abbrev Semi (v : List Token) : Prop := Derives (.opt (.token .semicolon)) v

/-- Tokens that do not go on with an expression. -/
def Ends (z : List Token) : Prop :=
  ¬Precedence.lowest < .ofKind (kindOf z) ∧ kindOf z ≠ .elseWord

/-- Tokens that end a list of statements. -/
def Closes (z : List Token) : Prop := kindOf z = .rbrace ∨ kindOf z = .eof

theorem Closes.ends (h : Closes z) : Ends z := by
  rcases h with h | h <;> simp [Ends, h] <;> decide

theorem Closes.dropSemicolon (h : Closes z) : dropSemicolon z = z := by
  rcases h with h | h <;> simp [MonkeyLang.dropSemicolon, h]

theorem Derives.mark (h : t.kind = kind) (hk : kind ≠ .int) : Derives (.token kind) [t] :=
  .token h fun hi => absurd (h.symm.trans hi) hk

theorem Derives.single (h : Derives e u) : Derives (.all [e]) u := List.append_nil u ▸ .cons h .nil

theorem Derives.commaList_single (h : Derives e u) : Derives (commaList e) u :=
  .present (List.append_nil u ▸ .cons h (.single .none))

theorem separated_word (h : Derives (.all [.token .comma, e]) u) :
    ∃ c w, u = c :: w ∧ c.kind = .comma ∧ Derives e w := by
  simp only [derives_all_cons, derives_all_nil, derives_token, exists_eq_left, exists_eq_right',
    List.append_nil] at h
  obtain ⟨_, ⟨c, rfl, hc, -⟩, w, hw, rfl⟩ := h
  exact ⟨c, w, rfl, hc, hw⟩

theorem commaList_word (h : Derives (commaList e) u) : u = [] ∨
    ∃ w m, u = w ++ m ∧ Derives e w ∧ Derives (.many (.all [.token .comma, e])) m := by
  simp only [commaList, derives_opt, derives_all_cons, derives_all_nil, exists_eq_left,
    exists_eq_right', List.append_nil] at h
  obtain rfl | ⟨w, hw, m, hm, rfl⟩ := h
  · exact .inl rfl
  · exact .inr ⟨w, m, rfl, hw, hm⟩

/-! ## Words by production -/

inductive OperandWord : List Token → Prop where
  | atom : t.kind = .ident ∨ t.kind = .trueWord ∨ t.kind = .falseWord → OperandWord [t]
  | int : t.kind = .int → t.Fits → OperandWord [t]
  | unary : t.kind = .bang ∨ t.kind = .minus → Derives (.rule .expression) u →
    OperandWord (t :: u)
  | group : t.kind = .lparen → Derives (.rule .expression) u → t'.kind = .rparen →
    OperandWord (t :: (u ++ [t']))
  | cond : t.kind = .ifWord → t₁.kind = .lparen → Derives (.rule .expression) u →
    t₂.kind = .rparen → t₃.kind = .lbrace → Listed b → t₄.kind = .rbrace →
    OperandWord (t :: t₁ :: (u ++ t₂ :: t₃ :: (b ++ [t₄])))
  | condElse {t₅ t₆ t₇ : Token} {b' : List Token} : t.kind = .ifWord → t₁.kind = .lparen → Derives (.rule .expression) u →
    t₂.kind = .rparen → t₃.kind = .lbrace → Listed b → t₄.kind = .rbrace →
    t₅.kind = .elseWord → t₆.kind = .lbrace → Listed b' → t₇.kind = .rbrace →
    OperandWord (t :: t₁ :: (u ++ t₂ :: t₃ :: (b ++ t₄ :: t₅ :: t₆ :: (b' ++ [t₇]))))
  | function : t.kind = .fnWord → t₁.kind = .lparen → Derives (commaList (.token .ident)) u →
    t₂.kind = .rparen → t₃.kind = .lbrace → Listed b → t₄.kind = .rbrace →
    OperandWord (t :: t₁ :: (u ++ t₂ :: t₃ :: (b ++ [t₄])))

theorem block_word (h : Derives (.rule .block) w) :
    ∃ t b t', w = t :: (b ++ [t']) ∧ t.kind = .lbrace ∧ Listed b ∧ t'.kind = .rbrace := by
  rw [derives_rule, grammar] at h
  simp only [derives_all_cons, derives_all_nil, derives_token, exists_eq_left, exists_eq_right', List.append_nil] at h
  obtain ⟨_, ⟨t, rfl, ht, -⟩, _, ⟨b, hb, _, ⟨t', rfl, ht', -⟩, rfl⟩, rfl⟩ := h
  exact ⟨t, b, t', by simp, ht, hb, ht'⟩

theorem operand_word (h : Derives (.rule .operand) w) : OperandWord w := by
  rw [derives_rule, grammar] at h
  simp only [derives_any, derives_all_cons, derives_all_nil, derives_opt, derives_token, List.mem_cons,
    List.not_mem_nil, or_false, exists_eq_or_imp, exists_eq_left, exists_eq_right',
    List.append_nil] at h
  obtain ⟨t, rfl, ht, -⟩ | ⟨t, rfl, ht, hf⟩ | ⟨t, rfl, ht, -⟩ | ⟨t, rfl, ht, -⟩ | h | h | h | h := h
  · exact .atom (.inl ht)
  · exact .int ht hf
  · exact .atom (.inr (.inl ht))
  · exact .atom (.inr (.inr ht))
  · obtain ⟨_, ⟨t, rfl, ht, -⟩ | ⟨t, rfl, ht, -⟩, u, hu, rfl⟩ := h
    · exact .unary (.inl ht) hu
    · exact .unary (.inr ht) hu
  · obtain ⟨_, ⟨t, rfl, ht, -⟩, _, ⟨u, hu, _, ⟨t', rfl, ht', -⟩, rfl⟩, rfl⟩ := h
    exact .group ht hu ht'
  · obtain ⟨_, ⟨t, rfl, ht, -⟩, _, ⟨_, ⟨t₁, rfl, h₁, -⟩, _, ⟨u, hu, _, ⟨_, ⟨t₂, rfl, h₂, -⟩, x,
      ⟨c, hc, hx⟩, rfl⟩, rfl⟩, rfl⟩, rfl⟩ := h
    obtain ⟨t₃, b, t₄, rfl, h₃, hb, h₄⟩ := block_word hc
    obtain rfl | ⟨_, ⟨_, ⟨t₅, rfl, h₅, -⟩, c', hc', rfl⟩, rfl⟩ := hx
    · exact .cond ht h₁ hu h₂ h₃ hb h₄
    · obtain ⟨t₆, b', t₇, rfl, h₆, hb', h₇⟩ := block_word hc'
      simpa using OperandWord.condElse ht h₁ hu h₂ h₃ hb h₄ h₅ h₆ hb' h₇
  · obtain ⟨_, ⟨t, rfl, ht, -⟩, _, ⟨_, ⟨t₁, rfl, h₁, -⟩, _, ⟨u, hu, _, ⟨_, ⟨t₂, rfl, h₂, -⟩, c, hc,
      rfl⟩, rfl⟩, rfl⟩, rfl⟩ := h
    obtain ⟨t₃, b, t₄, rfl, h₃, hb, h₄⟩ := block_word hc
    exact .function ht h₁ hu h₂ h₃ hb h₄

/-- The kinds of tokens that expressions start with. -/
def operandKinds : List Kind :=
  [.ident, .int, .trueWord, .falseWord, .bang, .minus, .lparen, .ifWord, .fnWord]

/-- The first token of an operand. -/
theorem OperandWord.head (h : OperandWord w) : ∃ t ts, w = t :: ts ∧ t.kind ∈ operandKinds := by
  cases h with
  | atom h =>
    refine ⟨_, _, rfl, ?_⟩
    rcases h with h | h | h <;> simp [operandKinds, h]
  | unary h =>
    refine ⟨_, _, rfl, ?_⟩
    rcases h with h | h <;> simp [operandKinds, h]
  | int h | group h | cond h | condElse h | function h => exact ⟨_, _, rfl, by simp [operandKinds, h]⟩

inductive ContinuationWord : List Token → Prop where
  | binary : .lowest < Precedence.ofKind t.kind → t.kind ≠ .lparen →
    Derives (.rule .expression) u → ContinuationWord (t :: u)
  | call : t.kind = .lparen → Derives (commaList (.rule .expression)) u → t'.kind = .rparen →
    ContinuationWord (t :: (u ++ [t']))

theorem continuation_word (h : Derives (.rule .continuation) w) : ContinuationWord w := by
  rw [derives_rule, grammar] at h
  simp only [derives_any, derives_all_cons, derives_all_nil, derives_token, List.mem_cons,
    List.not_mem_nil, or_false, exists_eq_or_imp, exists_eq_left, exists_eq_right',
    List.append_nil] at h
  obtain ⟨u, hu, v, hv, rfl⟩ | ⟨_, ⟨t, rfl, ht, -⟩, _, ⟨u, hu, _, ⟨t', rfl, ht', -⟩, rfl⟩, rfl⟩ := h
  · obtain ⟨t, rfl, hlt, hne⟩ : ∃ t, u = [t] ∧ .lowest < Precedence.ofKind t.kind ∧
        t.kind ≠ .lparen := by
      rcases hu with ⟨t, rfl, ht, -⟩ | ⟨t, rfl, ht, -⟩ | ⟨t, rfl, ht, -⟩ | ⟨t, rfl, ht, -⟩ |
        ⟨t, rfl, ht, -⟩ | ⟨t, rfl, ht, -⟩ | ⟨t, rfl, ht, -⟩ | ⟨t, rfl, ht, -⟩ <;>
      exact ⟨t, rfl, by rw [ht]; decide, by rw [ht]; decide⟩
    exact .binary hlt hne hv
  · exact .call ht hu ht'

theorem ContinuationWord.head (h : ContinuationWord w) :
    ∃ t ts, w = t :: ts ∧ .lowest < Precedence.ofKind t.kind := by
  cases h with
  | binary h => exact ⟨_, _, rfl, h⟩
  | call h => exact ⟨_, _, rfl, by rw [h]; decide⟩

inductive StatementWord : List Token → Prop where
  | letStmt : t.kind = .letWord → t₁.kind = .ident → t₂.kind = .assign →
    Derives (.rule .expression) u → Semi s → StatementWord (t :: t₁ :: t₂ :: (u ++ s))
  | returnStmt : t.kind = .returnWord → Derives (.rule .expression) u → Semi s →
    StatementWord (t :: (u ++ s))
  | block : t.kind = .lbrace → Listed b → t'.kind = .rbrace → StatementWord (t :: (b ++ [t']))
  | expr : Derives (.rule .expression) u → Semi s → StatementWord (u ++ s)

theorem statement_word (h : Derives (.rule .statement) w) : StatementWord w := by
  rw [derives_rule, grammar] at h
  simp only [derives_any, List.mem_cons, List.not_mem_nil, or_false, exists_eq_or_imp,
    exists_eq_left] at h
  obtain h | h | h | h := h
  · rw [derives_rule, grammar] at h
    simp only [derives_all_cons, derives_all_nil, derives_token, exists_eq_left, exists_eq_right', List.append_nil] at h
    obtain ⟨_, ⟨t, rfl, ht, -⟩, _, ⟨_, ⟨t₁, rfl, h₁, -⟩, _, ⟨_, ⟨t₂, rfl, h₂, -⟩, _,
      ⟨u, hu, s, hs, rfl⟩, rfl⟩, rfl⟩, rfl⟩ := h
    exact .letStmt (u := u) (s := s) ht h₁ h₂ hu hs
  · rw [derives_rule, grammar] at h
    simp only [derives_all_cons, derives_all_nil, derives_token, exists_eq_left, exists_eq_right', List.append_nil] at h
    obtain ⟨_, ⟨t, rfl, ht, -⟩, _, ⟨u, hu, s, hs, rfl⟩, rfl⟩ := h
    exact .returnStmt (u := u) (s := s) ht hu hs
  · obtain ⟨t, b, t', rfl, ht, hb, ht'⟩ := block_word h
    exact .block ht hb ht'
  · rw [derives_rule, grammar] at h
    simp only [derives_all_cons, derives_all_nil, exists_eq_left, exists_eq_right', List.append_nil] at h
    obtain ⟨u, hu, s, hs, rfl⟩ := h
    exact .expr hu hs

theorem expression_word (h : Derives (.rule .expression) w) :
    ∃ u v, w = u ++ v ∧ Derives (.rule .operand) u ∧ Onward v := by
  rw [derives_rule, grammar] at h
  simp only [derives_all_cons, derives_all_nil, exists_eq_left, exists_eq_right', List.append_nil] at h
  obtain ⟨u, hu, v, hv, rfl⟩ := h
  exact ⟨u, v, rfl, hu, hv⟩

theorem semi_word (h : Semi s) : s = [] ∨ ∃ t, s = [t] ∧ t.kind = .semicolon := by
  obtain rfl | ⟨t, rfl, ht, -⟩ : s = [] ∨ ∃ t, s = [t] ∧ t.kind = .semicolon ∧ t.Fits := by
    simpa only [derives_opt, derives_token] using h
  · exact .inl rfl
  · exact .inr ⟨t, rfl, ht⟩

/-- The first token of a statement. -/
theorem StatementWord.head (h : StatementWord w) : ∃ t ts, w = t :: ts ∧
    t.kind ∈ Kind.letWord :: .returnWord :: .lbrace :: operandKinds := by
  cases h with
  | letStmt h | returnStmt h | block h => exact ⟨_, _, rfl, by simp [h]⟩
  | expr hu =>
    obtain ⟨u, v, rfl, hu, -⟩ := expression_word hu
    obtain ⟨t, ts, rfl, ht⟩ := (operand_word hu).head
    exact ⟨t, ts ++ v ++ _, rfl, .tail _ (.tail _ (.tail _ ht))⟩

/-! ## What goes on and what ends -/

theorem Onward.append (h : Onward u) (h' : Onward v) : Onward (u ++ v) := by
  induction h using Derives.many_induction with
  | none => exact h'
  | more _ _ h₁ _ ih => exact List.append_assoc .. ▸ .more h₁ ih

theorem Onward.head (h : Onward v) : v = [] ∨ ∃ t ts, v = t :: ts ∧ .lowest < Precedence.ofKind t.kind := by
  cases h using Derives.many_induction with
  | none => exact .inl rfl
  | more u v hu =>
  obtain ⟨t, ts, rfl, ht⟩ := (continuation_word hu).head
  exact .inr ⟨t, _, rfl, ht⟩

theorem Onward.eq_nil (h : Onward v) (hz : ¬.lowest < Precedence.ofKind (kindOf (v ++ z))) : v = [] := by
  obtain rfl | ⟨t, ts, rfl, ht⟩ := h.head
  · rfl
  · exact absurd ht hz

theorem Onward.ne_else (h : Onward v) (hz : Ends z) : kindOf (v ++ z) ≠ .elseWord := by
  obtain rfl | ⟨t, ts, rfl, ht⟩ := h.head
  · exact hz.2
  · intro he
    rw [List.cons_append, kindOf_cons] at he
    exact absurd ht (by rw [he]; decide)

/-- An operand goes on with an expression, or it can not be mistaken for something that does. -/
theorem OperandWord.onward_or_ends (h : OperandWord w) : Derives (.rule .continuation) w ∨
    ∀ z, Ends (w ++ z) ∧ kindOf (w ++ z) ≠ .semicolon := by
  have hother (t ts) (ht : Ends (t :: ts)) (hs : t.kind ≠ .semicolon) (z : List Token) :
      Ends ((t :: ts) ++ z) ∧ kindOf ((t :: ts) ++ z) ≠ .semicolon := ⟨ht, hs⟩
  cases h with
  | atom h =>
    refine .inr (hother _ _ ?_ ?_)
    · rcases h with h | h | h <;> simp [Ends, h] <;> decide
    · rcases h with h | h | h <;> simp [h]
  | int h | cond h | condElse h | function h =>
    exact .inr (hother _ _ (by simp [Ends, h]; decide) (by simp [h]))
  | unary h hu =>
    rcases h with h | h
    · exact .inr (hother _ _ (by simp [Ends, h]; decide) (by simp [h]))
    · left
      rw [derives_rule, grammar]
      exact .any (.head _) (.cons (.any (e := .token .minus) (by simp) (.mark h nofun)) (.single hu))
  | group h hu h' =>
    left
    rw [derives_rule, grammar]
    exact .any (.tail _ (.head _)) (.cons (.mark h nofun) (.cons (.commaList_single hu)
      (.single (.mark h' nofun))))

/-- The statements after an expression without a semicolon: at first those that look as if they went
on with it, then an optional semicolon and the others. -/
theorem statements_split (h : Listed b) (hz : Closes z) : ∃ v y b', Onward v ∧ Ends y ∧ Listed b' ∧
    b ++ z = v ++ y ∧ dropSemicolon y = b' ++ z ∧ v.length + b'.length ≤ b.length := by
  induction h using Derives.many_induction with
  | none => exact ⟨[], z, [], .none, hz.ends, .none, rfl, hz.dropSemicolon, by simp⟩
  | more s b hs hb ih =>
    obtain ⟨v, y, b', hv, hy, hb', hsplit, hdrop, hlen⟩ := ih
    have hstop (he : Ends (s ++ (b ++ z))) (hne : kindOf (s ++ (b ++ z)) ≠ .semicolon) :
        ∃ v y b', Onward v ∧ Ends y ∧ Listed b' ∧ s ++ b ++ z = v ++ y ∧ dropSemicolon y = b' ++ z ∧
          v.length + b'.length ≤ (s ++ b).length := by
      refine ⟨[], s ++ (b ++ z), s ++ b, .none, he, .more hs hb, by simp, ?_, by simp⟩
      rw [dropSemicolon, if_neg hne, List.append_assoc]
    cases statement_word hs with
    | letStmt h | returnStmt h | block h =>
      exact hstop (by simp [Ends, h]; decide) (by simp [h])
    | @expr u c hu hc =>
      obtain ⟨w, v₀, rfl, hw, hv₀⟩ := expression_word hu
      obtain hgo | hend := (operand_word hw).onward_or_ends
      · obtain rfl | ⟨t, rfl, ht⟩ := semi_word hc
        · refine ⟨w ++ v₀ ++ v, y, b', .append (.more hgo hv₀) hv, hy, hb', ?_, hdrop, ?_⟩
          · simp [hsplit]
          · simp
            omega
        · refine ⟨w ++ v₀, t :: (b ++ z), b, .more hgo hv₀, ?_, hb, by simp, ?_, by simp; omega⟩
          · simp [Ends, ht]
            decide
          · simp [dropSemicolon, ht]
      · have := hend (v₀ ++ (c ++ (b ++ z)))
        exact hstop (by simpa using this.1) (by simpa using this.2)

end MonkeyLang
