import MonkeyLang.Token.Lexer

/-!
# What is read from a text

No token of a text stands for its end (`Lexer.kind_ne_eof`).
-/

namespace MonkeyLang

theorem lookup_getD_ne [BEq α] [LawfulBEq α] {l : List (α × Kind)} {k k' : Kind}
    (h : ∀ p ∈ l, p.2 ≠ k) (h' : k' ≠ k) (a : α) : (l.lookup a).getD k' ≠ k := by
  cases hl : l.lookup a with
  | none => exact h'
  | some k₁ =>
    obtain ⟨l₁, l₂, rfl, -⟩ := List.lookup_eq_some_iff.mp hl
    exact h (a, k₁) (by simp)

theorem Lexeme.kind_cut_ne_eof (b : UInt8) (rest : List UInt8) : (Lexeme.cut b rest).1 ≠ .eof := by
  have hword (word) : Kind.ofWord word ≠ .eof := by
    rw [Kind.ofWord]
    refine lookup_getD_ne ?_ ?_ word <;> decide
  have hbyte (b) : (Byte.kind? b).getD .illegal ≠ .eof := by
    rw [Byte.kind?]
    refine lookup_getD_ne ?_ ?_ b <;> decide
  unfold Lexeme.cut
  split
  · exact hword _
  repeat' split
  all_goals first | exact hbyte _ | exact nofun

namespace Lexer

theorem kind_ne_eof_of_lexeme? {l : Lexer} (h : l.lexeme? = (some x, l')) : x.kind ≠ .eof := by
  unfold lexeme? at h
  split at h
  · cases h
  · cases h
    exact Lexeme.kind_cut_ne_eof _ _

/-- What holds of every lexeme that is read next holds of all that are left. -/
theorem forall_mem_lexemesWithin {P : Lexeme → Prop}
    (hP : ∀ {l x l'}, lexeme? l = (some x, l') → P x) : ∀ {n l}, ∀ x ∈ lexemesWithin n l, P x := by
  intro n
  induction n with
  | zero => exact nofun
  | succ n ih =>
    intro l
    unfold lexemesWithin
    split
    · next hx => exact List.forall_mem_cons.mpr ⟨hP hx, ih⟩
    · exact nofun

theorem kind_ne_eof {l : Lexer} (h : t ∈ l.tokens) : t.kind ≠ .eof := by
  obtain ⟨x, hx, rfl⟩ := List.mem_map.mp h
  exact forall_mem_lexemesWithin kind_ne_eof_of_lexeme? x hx

end Lexer

end MonkeyLang
