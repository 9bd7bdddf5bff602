import Mathlib.Data.List.TakeWhile
import MonkeyLang.Proofs.Token.Lexer

/-!
# How tokens are spelled

A token of a text has a literal that its kind allows (`Token.Spelled`). Marks and reserved words have
one literal each, `Kind.text`; a name is any other word and a number is any run of digits.
-/

namespace MonkeyLang

/-- The text of a mark or of a reserved word. The other kinds have no text of their own. -/
def Kind.text : Kind → String
  | illegal | eof | ident | int => ""
  | assign => "=" | plus => "+" | minus => "-" | bang => "!" | asterisk => "*" | slash => "/"
  | lt => "<" | gt => ">" | eq => "==" | notEq => "!="
  | comma => "," | semicolon => ";" | lparen => "(" | rparen => ")"
  | lbrace => "\x7b" | rbrace => "\x7d"
  | fnWord => "fn" | letWord => "let" | trueWord => "true" | falseWord => "false"
  | ifWord => "if" | elseWord => "else" | returnWord => "return"

/-- The token of a mark or of a reserved word. -/
def Kind.token (k : Kind) : Token := ⟨k, k.text⟩

@[simp] theorem Kind.kind_token (k : Kind) : k.token.kind = k := rfl

/-- The letters of words, as characters. -/
def isWordLetter (c : Char) : Bool := c.isAlpha || c == '_'

/-- A word that is not reserved. -/
def IsName (s : String) : Prop :=
  s.toList ≠ [] ∧ s.toList.all isWordLetter ∧ Kind.ofWord s = .ident

/-- A run of digits. -/
def IsNumber (s : String) : Prop := s.toList ≠ [] ∧ s.toList.all Char.isDigit

/-- The literal is one that the kind allows. -/
def Token.Spelled (t : Token) : Prop :=
  match t.kind with
  | .ident => IsName t.literal
  | .int => IsNumber t.literal
  | .illegal | .eof => False
  | k => t.literal = k.text

theorem Token.Spelled.cases {t : Token} (h : t.Spelled) :
    t.kind = .ident ∧ IsName t.literal ∨ t.kind = .int ∧ IsNumber t.literal ∨
      ∃ k : Kind, t = k.token ∧ k ∉ [Kind.illegal, .eof, .ident, .int] := by
  obtain ⟨k, s⟩ := t
  cases k with
  | ident => exact .inl ⟨rfl, h⟩
  | int => exact .inr (.inl ⟨rfl, h⟩)
  | illegal | eof => exact h.elim
  | _ => exact .inr (.inr ⟨_, congrArg (Token.mk _) h, by decide⟩)

theorem spelled_token (h : k ∉ [Kind.illegal, .eof, .ident, .int]) : k.token.Spelled := by
  cases k with
  | illegal | eof | ident | int => exact absurd h (by decide)
  | _ => rfl

/-- A mark or a reserved word is spelled in one way. -/
theorem Token.Spelled.eq_token {t : Token} (h : t.Spelled) (hk : t.kind = k)
    (hne : k ∉ [Kind.illegal, .eof, .ident, .int]) : t = k.token := by
  subst hk
  rcases h.cases with ⟨hk, -⟩ | ⟨hk, -⟩ | ⟨k, rfl, -⟩
  · exact absurd (by simp [hk]) hne
  · exact absurd (by simp [hk]) hne
  · rfl

/-! ## Bytes and characters -/

theorem lt_of_isLetter {b : UInt8} (h : Byte.isLetter b) : b < 128 := by
  simp [Byte.isLetter, UInt8.le_iff_toNat_le, UInt8.lt_iff_toNat_lt, ← UInt8.toNat_inj] at h ⊢
  omega

theorem lt_of_isDigit {b : UInt8} (h : Byte.isDigit b) : b < 128 := by
  simp [Byte.isDigit, UInt8.le_iff_toNat_le, UInt8.lt_iff_toNat_lt] at h ⊢
  omega

theorem toNat_toUInt8 {c : Char} (h : c.toNat < 128) : c.toUInt8.toNat = c.toNat := by
  rw [Char.toUInt8, UInt32.toNat_toUInt8, Char.toNat_val]
  omega

/-- A byte of ASCII is a character. -/
theorem exists_toUInt8 {b : UInt8} (h : b < 128) : ∃ c : Char, c.toNat < 128 ∧ c.toUInt8 = b := by
  have hlt : b.toNat < 128 := UInt8.lt_iff_toNat_lt.mp h
  have hc : (Char.ofNat b.toNat).toNat = b.toNat := by
    rw [Char.ofNat, dif_pos (.inl (by omega))]
    rfl
  rw [← hc] at hlt
  exact ⟨Char.ofNat b.toNat, hlt, UInt8.toNat_inj.mp ((toNat_toUInt8 hlt).trans hc)⟩

theorem isLetter_toUInt8 {c : Char} (hc : c.toNat < 128) :
    Byte.isLetter c.toUInt8 = isWordLetter c := by
  have halpha : c.isAlpha = (decide (65 ≤ c.val ∧ c.val ≤ 90) || 97 ≤ c.val && c.val ≤ 122) := rfl
  have hunderscore : c = '_' ↔ c.toNat = 95 := Char.toNat_inj.symm
  rw [Bool.eq_iff_iff]
  simp only [Byte.isLetter, isWordLetter, halpha, beq_iff_eq, Bool.or_eq_true, Bool.and_eq_true,
    decide_eq_true_eq, UInt8.le_iff_toNat_le, ← UInt8.toNat_inj, UInt32.le_iff_toNat_le,
    toNat_toUInt8 hc, hunderscore, Char.toNat_val]
  simp
  omega

theorem isDigit_toUInt8 {c : Char} (hc : c.toNat < 128) : Byte.isDigit c.toUInt8 = c.isDigit := by
  rw [Bool.eq_iff_iff]
  simp only [Byte.isDigit, Char.isDigit, Bool.and_eq_true, decide_eq_true_eq, UInt8.le_iff_toNat_le,
    UInt32.le_iff_toNat_le, toNat_toUInt8 hc, Char.toNat_val, ge_iff_le]
  simp

theorem spell_toUInt8 {c : Char} (hc : c.toNat < 128) : Byte.spell c.toUInt8 = [c] := by
  have hlt : c.toUInt8 < 128 := by
    rw [UInt8.lt_iff_toNat_lt, toNat_toUInt8 hc]
    exact hc
  rw [Byte.spell, if_pos hlt, toNat_toUInt8 hc, Char.ofNat_toNat]

/-! ## The tokens of a text -/

/-- A run of bytes of one class spells a word over the characters of a class. -/
theorem all_spell {f : UInt8 → Bool} {g : Char → Bool} {bytes : List UInt8}
    (hlt : ∀ {b}, f b → b < 128) (hfg : ∀ {c : Char}, c.toNat < 128 → f c.toUInt8 = g c)
    (h : ∀ b ∈ bytes, f b) (hne : bytes ≠ []) :
    (spell bytes).toList ≠ [] ∧ (spell bytes).toList.all g := by
  have hspell (b) (hb : f b) : Byte.spell b ≠ [] ∧ (Byte.spell b).all g := by
    obtain ⟨c, hc, rfl⟩ := exists_toUInt8 (hlt hb)
    rw [spell_toUInt8 hc, List.all_cons, List.all_nil, Bool.and_true]
    exact ⟨nofun, hfg hc ▸ hb⟩
  rw [spell, String.toList_ofList]
  constructor
  · obtain ⟨b, bs, rfl⟩ := List.exists_cons_of_ne_nil hne
    rw [List.flatMap_cons]
    exact fun hnil => (hspell b (h b (.head _))).1 (List.append_eq_nil_iff.mp hnil).1
  · rw [List.all_flatMap, List.all_eq_true]
    exact fun b hb => (hspell b (h b hb)).2

theorem forall_mem_run {f : UInt8 → Bool} (h : f b) (rest : List UInt8) :
    ∀ c ∈ b :: rest.takeWhile f, f c :=
  List.forall_mem_cons.mpr ⟨h, fun _ hc => List.mem_takeWhile_imp hc⟩

/-- A word is a name or a reserved word. -/
theorem Token.Spelled.ofWord (hne : s.toList ≠ []) (hs : s.toList.all isWordLetter) :
    Token.Spelled ⟨.ofWord s, s⟩ := by
  cases hl : Kind.keywords.lookup s with
  | none =>
    have hk : Kind.ofWord s = .ident := by rw [Kind.ofWord, hl]; rfl
    rw [Token.Spelled, hk]
    exact ⟨hne, hs, hk⟩
  | some k =>
    have hk : Kind.ofWord s = k := by rw [Kind.ofWord, hl]; rfl
    obtain ⟨l, l', hkeywords, -⟩ := List.lookup_eq_some_iff.mp hl
    have hmem : (s, k) ∈ Kind.keywords := hkeywords ▸ List.mem_append_right _ List.mem_cons_self
    have hall : ∀ p ∈ Kind.keywords, Token.Spelled ⟨p.2, p.1⟩ := by
      simp only [Kind.keywords, List.forall_mem_cons]
      exact ⟨rfl, rfl, rfl, rfl, rfl, rfl, rfl, List.forall_mem_nil _⟩
    rw [hk]
    exact hall _ hmem

/-- A mark of one byte. -/
theorem Token.Spelled.ofByte (h : Byte.kind? b = some k) : Token.Spelled ⟨k, spell [b]⟩ := by
  obtain ⟨l, l', hmarks, -⟩ := List.lookup_eq_some_iff.mp h
  have hmem : (b, k) ∈ l ++ (b, k) :: l' := List.mem_append_right _ List.mem_cons_self
  rw [← hmarks] at hmem
  simp only [List.mem_cons, Prod.mk.injEq, List.not_mem_nil, or_false] at hmem
  rcases hmem with ⟨rfl, rfl⟩ | ⟨rfl, rfl⟩ | ⟨rfl, rfl⟩ | ⟨rfl, rfl⟩ | ⟨rfl, rfl⟩ | ⟨rfl, rfl⟩ |
    ⟨rfl, rfl⟩ | ⟨rfl, rfl⟩ | ⟨rfl, rfl⟩ | ⟨rfl, rfl⟩ | ⟨rfl, rfl⟩ | ⟨rfl, rfl⟩ <;> rfl

/-- A lexeme that is not illegal is spelled as its kind allows. -/
theorem Lexeme.spelled_cut {b : UInt8} {rest : List UInt8} (h : (cut b rest).1 ≠ .illegal) :
    Token.Spelled ⟨(cut b rest).1, spell (cut b rest).2⟩ := by
  unfold cut at h ⊢
  split at h
  · next hletter =>
    rw [if_pos hletter]
    obtain ⟨hne, hs⟩ := all_spell lt_of_isLetter isLetter_toUInt8 (forall_mem_run hletter rest) (by simp)
    exact .ofWord hne hs
  next hletter =>
  rw [if_neg hletter]
  split at h
  · next hdigit =>
    rw [if_pos hdigit]
    exact all_spell lt_of_isDigit isDigit_toUInt8 (forall_mem_run hdigit rest) (by simp)
  next hdigit =>
  rw [if_neg hdigit]
  split at h
  · next heq =>
    rw [if_pos heq]
    split <;> rfl
  next heq =>
  rw [if_neg heq]
  split at h
  · next hbang =>
    rw [if_pos hbang]
    split <;> rfl
  next hbang =>
  rw [if_neg hbang]
  cases hk : Byte.kind? b with
  | none => rw [hk] at h; exact absurd rfl h
  | some k => exact .ofByte hk

namespace Lexer

theorem spelled_of_lexeme? {l : Lexer} (h : l.lexeme? = (some x, l')) (hx : x.kind ≠ .illegal) :
    x.token.Spelled := by
  unfold lexeme? at h
  split at h
  · cases h
  · cases h
    exact Lexeme.spelled_cut hx

/-- A token of a text is spelled as its kind allows, unless it is an illegal byte. -/
theorem spelled {l : Lexer} (h : t ∈ l.tokens) (ht : t.kind ≠ .illegal) : t.Spelled := by
  obtain ⟨x, hx, rfl⟩ := List.mem_map.mp h
  exact forall_mem_lexemesWithin (P := fun x => x.kind ≠ .illegal → x.token.Spelled)
    spelled_of_lexeme? x hx ht

end Lexer

end MonkeyLang
