import MonkeyLang.Proofs.Parser.Reads
import MonkeyLang.Proofs.Parser.Words

/-!
# Greedy reading never gets stuck

Every word of the grammar is read (`reads_program`). A word says less than a parse: an operand may
have to be followed by more of the word, or by less, than the derivation at hand says. So what is
shown of an expression is about the word together with anything that goes on with it: what is left
goes on with an expression again and binds no tighter than asked (`ReadsBelow`).
-/

namespace MonkeyLang

/-- Expressions are read if they are shorter than `n` together with what goes on with them. -/
def ReadsBelow (n : Nat) : Prop :=
  ∀ (power : Precedence) {w v z}, Derives (.rule .expression) w → Onward v → Ends z →
    (w ++ v).length < n → ∃ e v', Onward v' ∧ v'.length < (w ++ v).length ∧
      ¬power < .ofKind (kindOf (v' ++ z)) ∧ Reads (.expression power) (w ++ (v ++ z)) e (v' ++ z)

/-- Lists of statements are read if they are shorter than `n`. -/
def ListsBelow (n : Nat) : Prop :=
  ∀ {b z}, Listed b → Closes z → b.length < n → ∃ ss, Reads .statements (b ++ z) ss z.tail

theorem ends_of_rparen (h : r.kind = .rparen) : Ends (r :: z) := by
  simp [Ends, h, Precedence.ofKind, Precedence.lt_def]

theorem ends_separated (h : Derives (.many (.all [.token .comma, e])) m) (hr : r.kind = .rparen) :
    Ends (m ++ r :: z) := by
  cases h with
  | none => exact ends_of_rparen hr
  | more hu hv =>
    obtain ⟨c, u, rfl, hc, -⟩ := separated_word hu
    simp [Ends, hc]
    decide

theorem expression_head (h : Derives (.rule .expression) w) :
    ∃ t ts, w = t :: ts ∧ t.kind ∈ operandKinds := by
  obtain ⟨u, v, rfl, hu, -⟩ := expression_word h
  obtain ⟨t, ts, rfl, ht⟩ := (operand_word hu).head
  exact ⟨t, ts ++ v, rfl, ht⟩

theorem integer_of_fits {t : Token} (h : Text.decimalValue t.literal.toList ≤ 9223372036854775807) :
    integer? t.literal = some (Int64.ofInt (Text.decimalValue t.literal.toList)) := by
  have hmin : Int64.minValue.toInt ≤ Text.decimalValue t.literal.toList :=
    Int.le_trans (by decide) (Int.natCast_nonneg _)
  have hmax : (Text.decimalValue t.literal.toList : Int) ≤ Int64.maxValue.toInt :=
    Int.ofNat_le.mpr h
  rw [integer?, toInt64?, if_pos ⟨hmin, hmax⟩]

/-! ## Parameters and arguments -/

theorem reads_moreParameters (h : Derives (.many (.all [.token .comma, .token .ident])) m)
    (hr : r.kind = .rparen) : ∃ xs, Reads .moreParameters (m ++ r :: z) xs z := by
  induction h using Derives.many_induction with
  | none => exact ⟨_, .lastParameter hr⟩
  | more u v hu _ ih =>
    obtain ⟨xs, hxs⟩ := ih
    obtain ⟨c, _, rfl, hc, hx⟩ := separated_word hu
    obtain ⟨x, rfl, hx, -⟩ := derives_token.mp hx
    exact ⟨_, .nextParameter hc hx hxs⟩

theorem reads_parameters (h : Derives (commaList (.token .ident)) u) (hr : r.kind = .rparen) :
    ∃ xs, Reads .parameters (u ++ r :: z) xs z := by
  obtain rfl | ⟨_, m, rfl, hx, hm⟩ := commaList_word h
  · exact ⟨_, .noParameters hr⟩
  · obtain ⟨x, rfl, hx, -⟩ := derives_token.mp hx
    obtain ⟨xs, hxs⟩ := reads_moreParameters (z := z) hm hr
    exact ⟨_, .parameters hx hxs⟩

section
variable {n : Nat} (H : ReadsBelow n)
include H

/-- The whole of an expression and of what goes on with it is read if everything binds tighter than
asked. -/
theorem reads_lowest (hw : Derives (.rule .expression) w) (hv : Onward v) (hz : Ends z)
    (hn : (w ++ v).length < n) : ∃ e, Reads (.expression .lowest) (w ++ (v ++ z)) e z := by
  obtain ⟨e, v', hv', -, hp, he⟩ := H .lowest hw hv hz hn
  rw [hv'.eq_nil hp] at he
  exact ⟨e, he⟩

theorem reads_moreArguments (h : Derives (.many (.all [.token .comma, .rule .expression])) m)
    (hr : r.kind = .rparen) (hn : m.length ≤ n) :
    ∃ es, Reads .moreArguments (m ++ r :: z) es z := by
  induction h using Derives.many_induction with
  | none => exact ⟨_, .lastArgument hr⟩
  | more u v hu hv ih =>
    obtain ⟨c, w, rfl, hc, hw⟩ := separated_word hu
    simp at hn
    obtain ⟨es, hes⟩ := ih (by omega)
    obtain ⟨e, he⟩ := reads_lowest H hw .none (ends_separated (z := z) hv hr) (by simp; omega)
    exact ⟨e :: es, by simpa using .nextArgument hc he hes⟩

/-- The arguments of a call are read, and the operators after it go on. -/
theorem reads_call (h : Derives (commaList (.rule .expression)) u) (hr : r.kind = .rparen)
    (ht : t.kind = .lparen) (hp : power < .call) (hn : u.length < n) :
    ∃ as, ∀ (e : Expr) z', Reads (.operators power (.call t l as)) z e z' →
      Reads (.operators power l) (t :: (u ++ r :: z)) e z' := by
  obtain rfl | ⟨w, m, rfl, hw, hm⟩ := commaList_word h
  · exact ⟨[], fun e z' h => .callEmpty hp ht hr h⟩
  · simp at hn
    obtain ⟨a, ha⟩ := reads_lowest H hw .none (ends_separated (z := z) hm hr) (by simp; omega)
    obtain ⟨as, has⟩ := reads_moreArguments H (z := z) hm hr (by omega)
    obtain ⟨x, xs, rfl, hx⟩ := expression_head hw
    refine ⟨a :: as, fun e z' h => .call hp ht ?_ (by simpa using ha) has h⟩
    intro hk
    simp at hk
    simp [operandKinds, hk] at hx

/-! ## Expressions -/

/-- Operators that bind tighter than asked are read, until one does not. -/
theorem reads_operators (power : Precedence) (l : Expr) (hv : Onward v) (hz : Ends z) (hn : v.length ≤ n) :
    ∃ e v', Onward v' ∧ v'.length ≤ v.length ∧ ¬power < .ofKind (kindOf (v' ++ z)) ∧
      Reads (.operators power l) (v ++ z) e (v' ++ z) := by
  induction hk : v.length using Nat.strongRecOn generalizing v l with
  | _ k ih =>
    subst hk
    by_cases hp : power < .ofKind (kindOf (v ++ z))
    · cases hv with
      | none => exact absurd (Nat.lt_of_le_of_lt (Nat.zero_le _) hp) hz.1
      | @more _ u v hu hv =>
        cases continuation_word hu with
        | @binary u t _ hne hw =>
          simp at hn
          obtain ⟨r, v₁, hv₁, hlen, -, hr⟩ := H (.ofKind t.kind) hw hv hz (by simp; omega)
          simp at hlen
          obtain ⟨e, v', hv', hlen', hp', he⟩ :=
            ih v₁.length (by simp; omega) (.binary t l t.literal r) hv₁ (by omega) rfl
          refine ⟨e, v', hv', by simp; omega, hp', ?_⟩
          simpa using .binary hp hne hr he
        | @call u t t' ht hargs ht' =>
          simp at hn
          obtain ⟨as, has⟩ := reads_call H (l := l) (z := v ++ z) hargs ht' ht
            (by simpa [ht, Precedence.ofKind] using hp : power < .call) (by omega)
          obtain ⟨e, v', hv', hlen', hp', he⟩ :=
            ih v.length (by simp; omega) (.call t l as) hv (by omega) rfl
          refine ⟨e, v', hv', by simp; omega, hp', ?_⟩
          simpa using has e _ he
    · exact ⟨l, v, hv, Nat.le_refl _, hp, .stop hp⟩

/-- An operand is read; what is left goes on with an expression. -/
theorem reads_operand (S : ListsBelow n) (hw : OperandWord w) (hv : Onward v) (hz : Ends z)
    (hn : (w ++ v).length ≤ n) :
    ∃ a v', Onward v' ∧ v'.length < (w ++ v).length ∧ Reads .operand (w ++ (v ++ z)) a (v' ++ z) := by
  cases hw with
  | atom h =>
    obtain ⟨a, ha⟩ : ∃ a, ∀ z, Reads .operand (_ :: z) a z := by
      rcases h with h | h | h
      · exact ⟨_, fun _ => .ident h⟩
      · exact ⟨_, fun _ => .true h⟩
      · exact ⟨_, fun _ => .false h⟩
    exact ⟨a, v, hv, by simp, ha _⟩
  | int h hf => exact ⟨_, v, hv, by simp, .int h (integer_of_fits (hf h))⟩
  | unary h hu =>
    simp at hn
    obtain ⟨e, v', hv', hlen, -, he⟩ := H .unary hu hv hz (by simp; omega)
    exact ⟨_, v', hv', by simp at hlen ⊢; omega, .unary h he⟩
  | group h hu h' =>
    simp at hn
    obtain ⟨e, he⟩ := reads_lowest H hu .none (ends_of_rparen (z := v ++ z) h') (by simp; omega)
    exact ⟨e, v, hv, by simp; omega, by simpa using .group h he h'⟩
  | cond h h₁ hu h₂ h₃ hb h₄ =>
    simp at hn
    obtain ⟨c, hc⟩ := reads_lowest H hu .none (ends_of_rparen h₂) (by simp; omega)
    obtain ⟨ss, hss⟩ := S (z := _ :: (v ++ z)) hb (.inl h₄) (by omega)
    have hread := Reads.cond h h₁ hc h₂ h₃ hss (hv.ne_else hz)
    exact ⟨_, v, hv, by simp; omega, by simpa using hread⟩
  | @condElse _ _ _ _ _ _ _ t₅ t₆ t₇ b' h h₁ hu h₂ h₃ hb h₄ h₅ h₆ hb' h₇ =>
    simp at hn
    obtain ⟨c, hc⟩ := reads_lowest H hu .none (ends_of_rparen h₂) (by simp; omega)
    obtain ⟨ss, hss⟩ := S (z := _ :: t₅ :: t₆ :: (b' ++ t₇ :: (v ++ z))) hb (.inl h₄) (by omega)
    obtain ⟨ss', hss'⟩ := S (z := _ :: (v ++ z)) hb' (.inl h₇) (by omega)
    have hread := Reads.condElse h h₁ hc h₂ h₃ hss h₅ h₆ hss'
    exact ⟨_, v, hv, by simp; omega, by simpa using hread⟩
  | function h h₁ hu h₂ h₃ hb h₄ =>
    simp at hn
    obtain ⟨xs, hxs⟩ := reads_parameters hu h₂
    obtain ⟨ss, hss⟩ := S (z := _ :: (v ++ z)) hb (.inl h₄) (by omega)
    have hread := Reads.function h h₁ hxs h₃ hss
    exact ⟨_, v, hv, by simp; omega, by simpa using hread⟩

/-! ## Statements -/

/-- The expression at the end of a statement is read together with the statements that look as if
they went on with it. -/
theorem reads_tail (hu : Derives (.rule .expression) u) (hc : Semi c) (hb : Listed b)
    (hz : Closes z) (hn : (u ++ b).length < n) :
    ∃ e y b', Listed b' ∧ b'.length ≤ b.length ∧ dropSemicolon y = b' ++ z ∧
      Reads (.expression .lowest) (u ++ (c ++ (b ++ z))) e y := by
  obtain rfl | ⟨t, rfl, ht⟩ := semi_word hc
  · obtain ⟨v, y, b', hv, hy, hb', hsplit, hdrop, hlen⟩ := statements_split hb hz
    simp at hn
    obtain ⟨e, he⟩ := reads_lowest H hu hv hy (by simp; omega)
    exact ⟨e, y, b', hb', by omega, hdrop, by simpa [hsplit] using he⟩
  · have hend : Ends (t :: (b ++ z)) := by
      simp [Ends, ht]
      decide
    simp at hn
    obtain ⟨e, he⟩ := reads_lowest H hu .none hend (by simp; omega)
    exact ⟨e, t :: (b ++ z), b, hb, Nat.le_refl _, by simp [dropSemicolon, ht], by simpa using he⟩

theorem reads_statement (S : ∀ {b z}, Listed b → Closes z → b.length < s.length →
      ∃ ss, Reads .statements (b ++ z) ss z.tail)
    (hs : StatementWord s) (hb : Listed b) (hz : Closes z) (hn : (s ++ b).length < n) :
    ∃ st b', Listed b' ∧ b'.length ≤ b.length ∧ Reads .statement (s ++ (b ++ z)) st (b' ++ z) := by
  cases hs with
  | letStmt h h₁ h₂ hu hc =>
    simp at hn
    obtain ⟨e, y, b', hb', hlen, hdrop, he⟩ := reads_tail H hu hc hb hz (by simp; omega)
    have hread := Reads.letStmt h h₁ h₂ he
    exact ⟨_, b', hb', hlen, by simpa [hdrop] using hread⟩
  | returnStmt h hu hc =>
    simp at hn
    obtain ⟨e, y, b', hb', hlen, hdrop, he⟩ := reads_tail H hu hc hb hz (by simp; omega)
    have hread := Reads.returnStmt h he
    exact ⟨_, b', hb', hlen, by simpa [hdrop] using hread⟩
  | block h hs h' =>
    obtain ⟨ss, hss⟩ := S (z := _ :: (b ++ z)) hs (.inl h') (by rw [List.length_cons, List.length_append]; omega)
    exact ⟨_, b, hb, Nat.le_refl _, by simpa using .blockStmt h hss⟩
  | expr hu hc =>
    simp at hn
    obtain ⟨e, y, b', hb', hlen, hdrop, he⟩ := reads_tail H hu hc hb hz (by simp; omega)
    obtain ⟨t, ts, rfl, ht⟩ := expression_head hu
    have hne : t.kind ≠ .letWord ∧ t.kind ≠ .returnWord ∧ t.kind ≠ .lbrace := by
      refine ⟨?_, ?_, ?_⟩ <;>
      · intro h
        simp [operandKinds, h] at ht
    have hread := Reads.exprStmt hne.1 hne.2.1 hne.2.2 he
    exact ⟨_, b', hb', hlen, by simpa [hdrop] using hread⟩

theorem reads_statements : ListsBelow n := by
  intro b z hb hz hn
  induction hk : b.length using Nat.strongRecOn generalizing b z with
  | _ k ih =>
    subst hk
    cases hb with
    | none => exact ⟨[], .endOfStatements hz⟩
    | @more _ s b hs hb =>
      have hs := statement_word hs
      obtain ⟨t, ts, hts, ht⟩ := hs.head
      have hpos : 0 < s.length := by simp [hts]
      obtain ⟨st, b', hb', hlen, hst⟩ := reads_statement H
        (fun hb hz hlt => ih _ (by simp; omega) hb hz (by simp at hn; omega) rfl) hs hb hz hn
      simp at hn
      obtain ⟨ss, hss⟩ := ih _ (by simp; omega) hb' hz (by omega) rfl
      subst hts
      refine ⟨st :: ss, ?_⟩
      rw [List.append_assoc]
      refine .statements ?_ ?_ hst hss
      · rintro h
        simp [operandKinds, h] at ht
      · rintro h
        simp [operandKinds, h] at ht

end

/-- Every expression is read. -/
theorem readsBelow : ∀ n, ReadsBelow n := by
  intro n
  induction n with
  | zero => exact fun _ _ _ _ _ _ _ hn => absurd hn (Nat.not_lt_zero _)
  | succ n H =>
    intro power w v z hw hv hz hn
    obtain ⟨u, v₀, rfl, hu, hv₀⟩ := expression_word hw
    have hrest : Onward (v₀ ++ v) := hv₀.append hv
    simp at hn
    obtain ⟨a, v₁, hv₁, hlen, ha⟩ :=
      reads_operand H (reads_statements H) (operand_word hu) hrest hz (by simp; omega)
    simp at hlen
    obtain ⟨e, v', hv', hlen', hp, he⟩ := reads_operators H power a hv₁ hz (by omega)
    exact ⟨e, v', hv', by simp; omega, hp, .expression (by simpa using ha) he⟩

/-- Every program is read. -/
theorem reads_program (h : Listed b) : ∃ ss, Reads .program b ss [] := by
  induction hk : b.length using Nat.strongRecOn generalizing b with
  | _ k ih =>
    subst hk
    cases h with
    | none => exact ⟨[], .endOfProgram rfl⟩
    | @more _ s b hs hb =>
      have hs := statement_word hs
      obtain ⟨t, ts, rfl, ht⟩ := hs.head
      have H := readsBelow ((t :: ts) ++ b).length.succ
      obtain ⟨st, b', hb', hlen, hst⟩ := reads_statement H (z := [])
        (fun hb hz hlt => reads_statements H hb hz (by simp at hlt ⊢; omega)) hs hb (.inr rfl)
        (Nat.lt_succ_self _)
      obtain ⟨ss, hss⟩ := ih _ (by simp; omega) hb' rfl
      refine ⟨st :: ss, .program ?_ (by simpa using hst) hss⟩
      rintro h
      simp [operandKinds, h] at ht

end MonkeyLang
