import MonkeyLang.Proofs.Token.Spelled

/-!
# Reading tokens back from a text

A text spells a list of tokens with blanks between them, as many as one likes, and none where two
tokens stay apart without (`Spaced`). Its tokens are those of the list (`Spaced.tokens_ofString`).

Such a text is ASCII, where each character is one byte. So the reader, which goes over bytes, is
followed here in terms of characters.
-/

namespace MonkeyLang

/-! ## ASCII -/

def IsAscii (s : String) : Prop := ∀ c ∈ s.toList, c.toNat < 128

instance : Decidable (IsAscii s) :=
  List.decidableBAll (fun c : Char => c.toNat < 128) s.toList

/-- The bytes of an ASCII text. -/
def asciiBytes (s : String) : List UInt8 := s.toList.map Char.toUInt8

theorem asciiBytes_append (s s' : String) : asciiBytes (s ++ s') = asciiBytes s ++ asciiBytes s' := by
  rw [asciiBytes, String.toList_append, List.map_append]
  rfl

theorem IsAscii.append (h : IsAscii s) (h' : IsAscii s') : IsAscii (s ++ s') := by
  intro c hc
  rw [String.toList_append, List.mem_append] at hc
  exact hc.elim (h c) (h' c)

theorem unread_ofString (h : IsAscii s) : (Lexer.ofString s).unread = asciiBytes s := by
  have hbytes (cs : List Char) (h : ∀ c ∈ cs, c.toNat < 128) :
      cs.flatMap String.utf8EncodeChar = cs.map Char.toUInt8 := by
    induction cs with
    | nil => rfl
    | cons c cs ih =>
      have hsize : c.utf8Size = 1 := Char.utf8Size_eq_one_iff.mpr (Nat.le_of_lt_succ (h c (.head _)))
      rw [List.flatMap_cons, String.utf8EncodeChar_eq_singleton hsize,
        ih fun d hd => h d (.tail _ hd)]
      rfl
  rw [Lexer.ofString, String.toUTF8_eq_toByteArray, ← String.utf8Encode_toList, List.utf8Encode,
    List.data_toByteArray, hbytes _ h]
  rfl

theorem spell_asciiBytes (h : IsAscii s) : spell (asciiBytes s) = s := by
  have hchars (cs : List Char) (h : ∀ c ∈ cs, c.toNat < 128) :
      (cs.map Char.toUInt8).flatMap Byte.spell = cs := by
    induction cs with
    | nil => rfl
    | cons c cs ih =>
      rw [List.map_cons, List.flatMap_cons, spell_toUInt8 (h c (.head _)),
        ih fun d hd => h d (.tail _ hd)]
      rfl
  rw [spell, asciiBytes, hchars _ h, String.ofList_toList]

/-! ## Spacing -/

/-- Only blanks. -/
def IsBlank (s : String) : Prop := ∀ c ∈ s.toList, c ∈ [' ', '\t', '\r', '\n']

instance : Decidable (IsBlank s) :=
  List.decidableBAll (fun c : Char => c ∈ [' ', '\t', '\r', '\n']) s.toList

/-- The token does not go on into the text, should the text come directly after it. -/
def Token.endsBefore (t : Token) (text : String) : Bool :=
  match t.kind with
  | .ident | .fnWord | .letWord | .trueWord | .falseWord | .ifWord | .elseWord | .returnWord =>
    !text.toList.head?.any isWordLetter
  | .int => !text.toList.head?.any Char.isDigit
  | .assign | .bang => !text.toList.head?.any (· == '=')
  | _ => true

/-- A text that spells the tokens, with blanks before, between and after them. -/
inductive Spaced : List Token → String → Prop where
  | nil : IsBlank s → Spaced [] s
  | cons : IsBlank s → t.endsBefore text → Spaced ts text → Spaced (t :: ts) (s ++ t.literal ++ text)

/-- Any token ends before a space. -/
theorem Token.endsBefore_space (t : Token) (text : String) : t.endsBefore (" " ++ text) := by
  have hhead : (" " ++ text).toList.head? = some ' ' := by rw [String.toList_append]; rfl
  unfold endsBefore
  rw [hhead]
  split <;> rfl

/-- Any tokens can be spelled in a text. -/
theorem exists_spaced (ts : List Token) : ∃ text, Spaced ts (" " ++ text) := by
  induction ts with
  | nil => exact ⟨"", .nil (by decide)⟩
  | cons t ts ih =>
    obtain ⟨text, h⟩ := ih
    refine ⟨t.literal ++ (" " ++ text), ?_⟩
    rw [← String.append_assoc]
    exact .cons (by decide) (t.endsBefore_space text) h

/-! ## Reading -/

/-- A run of characters of one class, as bytes: its first byte is of the class and the rest goes on
up to the text, if the text starts with none. -/
theorem run_asciiBytes {f : UInt8 → Bool} {g : Char → Bool}
    (hfg : ∀ c : Char, c.toNat < 128 → f c.toUInt8 = g c) (ha : IsAscii s) (ha' : IsAscii text)
    (hne : s.toList ≠ []) (hs : s.toList.all g) (htext : !text.toList.head?.any g) :
    ∃ b bs, asciiBytes s = b :: bs ∧ f b ∧ (bs ++ asciiBytes text).takeWhile f = bs := by
  have hall : ∀ b ∈ asciiBytes s, f b := by
    intro b hb
    obtain ⟨c, hc, rfl⟩ := List.mem_map.mp hb
    exact (hfg c (ha c hc)).trans (List.all_eq_true.mp hs c hc)
  have hnone : (asciiBytes text).takeWhile f = [] := by
    unfold asciiBytes
    cases hcs : text.toList with
    | nil => rfl
    | cons c cs =>
      have hc : c ∈ text.toList := hcs ▸ .head _
      rw [hcs] at htext
      refine List.takeWhile_cons_of_neg ?_
      rw [hfg c (ha' c hc)]
      simpa using htext
  obtain ⟨c, cs, hcs⟩ := List.exists_cons_of_ne_nil hne
  have hbytes : asciiBytes s = c.toUInt8 :: cs.map Char.toUInt8 := by rw [asciiBytes, hcs]; rfl
  rw [hbytes] at hall
  refine ⟨_, _, hbytes, hall _ (.head _), ?_⟩
  rw [List.takeWhile_append_of_pos fun b hb => hall b (.tail _ hb), hnone, List.append_nil]

theorem not_isBlank_of_isLetter (h : Byte.isLetter b) : Byte.isBlank b = false := by
  simp [Byte.isLetter, Byte.isBlank, UInt8.le_iff_toNat_le, ← UInt8.toNat_inj] at h ⊢
  omega

theorem not_isBlank_of_isDigit (h : Byte.isDigit b) : Byte.isBlank b = false := by
  simp [Byte.isDigit, Byte.isBlank, UInt8.le_iff_toNat_le, ← UInt8.toNat_inj] at h ⊢
  omega

theorem not_isLetter_of_isDigit (h : Byte.isDigit b) : ¬Byte.isLetter b := by
  simp [Byte.isDigit, Byte.isLetter, UInt8.le_iff_toNat_le, ← UInt8.toNat_inj] at h ⊢
  omega

/-- A lexeme is cut off where the token ends: its bytes are those of the literal. -/
def CutsAs (t : Token) (text : String) : Prop :=
  ∃ b bs, asciiBytes t.literal = b :: bs ∧ Byte.isBlank b = false ∧
    Lexeme.cut b (bs ++ asciiBytes text) = (t.kind, b :: bs)

theorem CutsAs.word {t : Token} (hkind : t.kind = .ofWord t.literal) (hne : t.literal.toList ≠ [])
    (hs : t.literal.toList.all isWordLetter) (ha : IsAscii t.literal) (ha' : IsAscii text)
    (htext : !text.toList.head?.any isWordLetter) : CutsAs t text := by
  obtain ⟨b, bs, hbytes, hletter, hrun⟩ :=
    run_asciiBytes (fun c => isLetter_toUInt8) ha ha' hne hs htext
  refine ⟨b, bs, hbytes, not_isBlank_of_isLetter hletter, ?_⟩
  have hspell : spell (b :: bs) = t.literal := hbytes ▸ spell_asciiBytes ha
  simp only [Lexeme.cut, if_pos hletter, hrun, hspell, hkind]

theorem CutsAs.number {t : Token} (hkind : t.kind = .int) (hne : t.literal.toList ≠ [])
    (hs : t.literal.toList.all Char.isDigit) (ha : IsAscii t.literal) (ha' : IsAscii text)
    (htext : !text.toList.head?.any Char.isDigit) : CutsAs t text := by
  obtain ⟨b, bs, hbytes, hdigit, hrun⟩ :=
    run_asciiBytes (fun c => isDigit_toUInt8) ha ha' hne hs htext
  refine ⟨b, bs, hbytes, not_isBlank_of_isDigit hdigit, ?_⟩
  simp only [Lexeme.cut, if_neg (not_isLetter_of_isDigit hdigit), if_pos hdigit, hrun, hkind]

theorem head_asciiBytes_ne (ha : IsAscii text) (h : !text.toList.head?.any (· == '=')) :
    ¬(asciiBytes text).head? == some 61 := by
  unfold asciiBytes
  cases hcs : text.toList with
  | nil => decide
  | cons c cs =>
    intro heq
    have hc : c.toUInt8.toNat = 61 := congrArg UInt8.toNat (Option.some.inj (eq_of_beq heq))
    rw [toNat_toUInt8 (ha c (hcs ▸ .head _))] at hc
    rw [hcs, (Char.toNat_inj.mp hc : c = '=')] at h
    cases h

theorem IsAscii.of_all {f : Char → Bool} (hf : ∀ c, f c → c.toNat < 128) (h : s.toList.all f) :
    IsAscii s := fun c hc => hf c (List.all_eq_true.mp h c hc)

theorem Token.Spelled.ascii {t : Token} (h : t.Spelled) : IsAscii t.literal := by
  rcases h.cases with ⟨-, -, hs, -⟩ | ⟨-, -, hs⟩ | ⟨k, rfl, -⟩
  · refine .of_all (fun c hc => ?_) hs
    change (decide ('A'.val ≤ c.val ∧ c.val ≤ 'Z'.val) ||
      (decide ('a'.val ≤ c.val) && decide (c.val ≤ 'z'.val)) || c == '_') = true at hc
    simp [UInt32.le_iff_toNat_le] at hc
    rcases hc with hc | rfl
    · omega
    · decide
  · refine .of_all (fun c hc => ?_) hs
    simp [Char.isDigit, UInt32.le_iff_toNat_le] at hc
    omega
  · cases k <;> decide

theorem Token.Spelled.cutsAs {t : Token} (h : t.Spelled) (ha : IsAscii text)
    (hend : t.endsBefore text) : CutsAs t text := by
  have hascii := h.ascii
  rcases h.cases with ⟨hk, hne, hs, hword⟩ | ⟨hk, hne, hs⟩ | ⟨k, rfl, hk⟩
  · rw [Token.endsBefore, hk] at hend
    exact .word (hk.trans hword.symm) hne hs hascii ha hend
  · rw [Token.endsBefore, hk] at hend
    exact .number hk hne hs hascii ha hend
  cases k with
  | illegal | eof | ident | int => exact absurd hk (by decide)
  | fnWord | letWord | trueWord | falseWord | ifWord | elseWord | returnWord =>
    exact .word rfl (by decide) (by decide) hascii ha hend
  | assign => exact ⟨61, [], rfl, rfl, if_neg (head_asciiBytes_ne ha hend)⟩
  | bang => exact ⟨33, [], rfl, rfl, if_neg (head_asciiBytes_ne ha hend)⟩
  | _ => exact ⟨_, _, rfl, rfl, rfl⟩

theorem IsBlank.ascii (h : IsBlank s) : IsAscii s := by
  have hblank : ∀ c ∈ [' ', '\t', '\r', '\n'], c.toNat < 128 := by simp
  exact fun c hc => hblank c (h c hc)

theorem IsBlank.isBlank (h : IsBlank s) : ∀ b ∈ asciiBytes s, Byte.isBlank b := by
  have hblank : ∀ c ∈ [' ', '\t', '\r', '\n'], Byte.isBlank c.toUInt8 := by simp; decide
  intro b hb
  obtain ⟨c, hc, rfl⟩ := List.mem_map.mp hb
  exact hblank c (h c hc)

theorem Spaced.ascii (h : Spaced ts text) (hts : ∀ t ∈ ts, t.Spelled) : IsAscii text := by
  induction h with
  | nil hs => exact hs.ascii
  | cons hs _ _ ih =>
    exact (hs.ascii.append (hts _ (.head _)).ascii).append (ih fun t ht => hts t (.tail _ ht))

namespace Lexer

theorem lexeme?_blanks {l : Lexer} (h : ∀ b ∈ l.unread, Byte.isBlank b) : l.lexeme?.1 = none := by
  have hdrop : (l.unread ++ []).dropWhile Byte.isBlank = [] := List.dropWhile_append_of_pos h
  rw [List.append_nil] at hdrop
  rw [lexeme?, hdrop]

theorem lexeme?_cut {l : Lexer} (hl : l.unread = blanks ++ b :: (bs ++ bs'))
    (hblanks : ∀ b ∈ blanks, Byte.isBlank b) (hb : Byte.isBlank b = false)
    (hcut : Lexeme.cut b (bs ++ bs') = (k, b :: bs)) :
    ∃ x l', l.lexeme? = (some x, l') ∧ x.token = ⟨k, spell (b :: bs)⟩ ∧ l'.unread = bs' := by
  have hdrop : l.unread.dropWhile Byte.isBlank = b :: (bs ++ bs') := by
    rw [hl, List.dropWhile_append_of_pos hblanks, List.dropWhile_cons_of_neg (by simp [hb])]
  rw [lexeme?, hdrop]
  simp only [hcut]
  exact ⟨_, _, rfl, rfl, List.drop_left⟩

/-- One lexeme is read for each token. -/
theorem lexemesWithin_of_spaced (h : Spaced ts text) (hts : ∀ t ∈ ts, t.Spelled) {l : Lexer}
    (hl : l.unread = asciiBytes text) (hn : ts.length ≤ n) :
    (lexemesWithin n l).map (·.token) = ts := by
  induction h generalizing n l with
  | nil hs =>
    cases n with
    | zero => rfl
    | succ n =>
      have hnone := lexeme?_blanks (l := l) (hl ▸ hs.isBlank)
      unfold lexemesWithin
      split
      · next hx => simp [hx] at hnone
      · rfl
  | @cons s ts text t hs hend h ih =>
    have hspelled := hts t (.head _)
    have hts' : ∀ t ∈ ts, t.Spelled := fun t ht => hts t (.tail _ ht)
    obtain ⟨b, bs, hbytes, hb, hcut⟩ := hspelled.cutsAs (h.ascii hts') hend
    rw [asciiBytes_append, asciiBytes_append, hbytes, List.append_assoc] at hl
    obtain ⟨x, l', hx, htoken, hl'⟩ := lexeme?_cut hl hs.isBlank hb hcut
    cases n with
    | zero => cases hn
    | succ n =>
      have ht : x.token = t := by rw [htoken, ← hbytes, spell_asciiBytes hspelled.ascii]
      rw [lexemesWithin, hx, List.map_cons, ht, ih hts' hl' (Nat.le_of_succ_le_succ hn)]

end Lexer

theorem Spaced.length_le (h : Spaced ts text) (hts : ∀ t ∈ ts, t.Spelled) :
    ts.length ≤ (asciiBytes text).length := by
  induction h with
  | nil => exact Nat.zero_le _
  | cons _ hend h ih =>
    have hts' := fun t ht => hts t (.tail _ ht)
    obtain ⟨b, bs, hbytes, -⟩ := (hts _ (.head _)).cutsAs (h.ascii hts') hend
    have hlength := ih hts'
    simp [asciiBytes_append, hbytes]
    omega

/-- The tokens of a text that spells some are those. -/
theorem Spaced.tokens_ofString (h : Spaced ts text) (hts : ∀ t ∈ ts, t.Spelled) :
    (Lexer.ofString text).tokens = ts := by
  have hunread := unread_ofString (h.ascii hts)
  exact Lexer.lexemesWithin_of_spaced h hts hunread (hunread ▸ h.length_le hts)

end MonkeyLang
