import MonkeyLang.Proofs.Token.Lexer
import MonkeyLang.Proofs.Token.Separate
import MonkeyLang.Proofs.Token.Spaced

/-!
# What the tokens of a text are

`Tokenization us ts` says without reference to a reader that the bytes `us` are the lexemes of the
tokens `ts`, in order and with blanks around them: what a lexeme of each kind is (`IsLexeme`), and how
its bytes are written as a literal (`IsLiteral`). Bytes have exactly one such sequence, and it is the one
that the reader gives, token by token, before the end of the text (`Lexer.tokenization`).
-/

namespace MonkeyLang

/-- The marks: operators and punctuation, each with a text of its own. -/
def Kind.marks : List Kind :=
  [assign, plus, minus, bang, asterisk, slash, lt, gt, eq, notEq, comma, semicolon, lparen, rparen,
    lbrace, rbrace]

/-- The kind of a word: that of the table of reserved words, and `ident` if the word is not there. -/
inductive IsWordKind (word : String) : Kind → Prop where
  | reserved : (word, k) ∈ Kind.keywords → IsWordKind word k
  | name : (∀ p ∈ Kind.keywords, p.1 ≠ word) → IsWordKind word .ident

/-- Bytes as a literal. ASCII stands for itself; a byte beyond ASCII is spelled as a backslash, an `x`
and two lower-case hexadecimal digits. -/
inductive IsLiteral : List UInt8 → String → Prop where
  | ascii : IsAscii s → IsLiteral (asciiBytes s) s
  | escaped : 128 ≤ b → "0123456789abcdef".toList[b.toNat / 16]? = some c →
    "0123456789abcdef".toList[b.toNat % 16]? = some d →
    IsLiteral [b] (String.ofList ['\\', 'x', c, d])

/-- The bytes `w` are a lexeme of kind `k`, given that the bytes `after` come next. A word and a number
are as long as they can be, and `=` and `!` take an equals sign that comes next with them. -/
inductive IsLexeme : (k : Kind) → (w after : List UInt8) → Prop where
  | word : w ≠ [] → (∀ b ∈ w, Byte.isLetter b) → (∀ b ∈ after.head?, ¬Byte.isLetter b) →
    IsLiteral w s → IsWordKind s k → IsLexeme k w after
  | number : w ≠ [] → (∀ b ∈ w, Byte.isDigit b) → (∀ b ∈ after.head?, ¬Byte.isDigit b) →
    IsLexeme .int w after
  | mark : k ∈ Kind.marks → (k = .assign ∨ k = .bang → after.head? ≠ some 61) →
    IsLexeme k (asciiBytes k.text) after
  /-- A byte that starts nothing else. -/
  | illegal : ¬Byte.isBlank b → ¬Byte.isLetter b → ¬Byte.isDigit b →
    (∀ k ∈ Kind.marks, asciiBytes k.text ≠ [b]) → IsLexeme .illegal [b] after

/-- The bytes are the lexemes of the tokens, in order, with blanks before, between and after them. -/
inductive Tokenization : List UInt8 → List Token → Prop where
  | nil : (∀ b ∈ us, Byte.isBlank b) → Tokenization us []
  | cons : (∀ b ∈ us, Byte.isBlank b) → IsLexeme t.kind w after → IsLiteral w t.literal →
    Tokenization after ts → Tokenization (us ++ (w ++ after)) (t :: ts)

/-! ## Literals and kinds of words -/

theorem getElem?_hexDigits {n : Nat} (h : n < 16) :
    "0123456789abcdef".toList[n]? = some (Text.hexDigit n) := by
  have hall : ∀ k : Fin 16, "0123456789abcdef".toList[k.1]? = some (Text.hexDigit k) := by decide
  exact hall ⟨n, h⟩

theorem spell_of_le {b : UInt8} (h : 128 ≤ b) :
    Byte.spell b = ['\\', 'x', Text.hexDigit (b.toNat / 16), Text.hexDigit (b.toNat % 16)] :=
  if_neg (UInt8.not_lt.mpr h)

theorem IsLiteral.spell_eq (h : IsLiteral w s) : spell w = s := by
  cases h with
  | ascii h => exact spell_asciiBytes h
  | @escaped b c d hb hc hd =>
    have hlt : b.toNat < 256 := b.toNat_lt
    cases hc.symm.trans (getElem?_hexDigits (by omega))
    cases hd.symm.trans (getElem?_hexDigits (by omega))
    rw [spell, List.flatMap_singleton, spell_of_le hb]

theorem spell_ascii {b : UInt8} (h : b < 128) :
    (Byte.spell b).map Char.toUInt8 = [b] ∧ ∀ c ∈ Byte.spell b, c.toNat < 128 := by
  obtain ⟨c, hc, rfl⟩ := exists_toUInt8 h
  rw [spell_toUInt8 hc]
  exact ⟨rfl, List.forall_mem_singleton.mpr hc⟩

theorem isAscii_spell (h : ∀ b ∈ w, b < 128) : IsAscii (spell w) := by
  intro c hc
  rw [spell, String.toList_ofList] at hc
  obtain ⟨b, hb, hc⟩ := List.mem_flatMap.mp hc
  exact (spell_ascii (h b hb)).2 c hc

theorem asciiBytes_spell {w : List UInt8} (h : ∀ b ∈ w, b < 128) : asciiBytes (spell w) = w := by
  rw [asciiBytes, spell, String.toList_ofList, List.map_flatMap]
  induction w with
  | nil => rfl
  | cons b w ih =>
    rw [List.flatMap_cons, (spell_ascii (h b (.head _))).1, ih fun b hb => h b (.tail _ hb)]
    rfl

/-- Bytes of ASCII are written as themselves. -/
theorem isLiteral_of_lt (h : ∀ b ∈ w, b < 128) : IsLiteral w (spell w) := by
  have hliteral := IsLiteral.ascii (isAscii_spell h)
  rwa [asciiBytes_spell h] at hliteral

theorem isLiteral_singleton (b : UInt8) : IsLiteral [b] (spell [b]) := by
  by_cases h : b < 128
  · exact isLiteral_of_lt (by simpa using h)
  · have hb := UInt8.not_lt.mp h
    have hlt : b.toNat < 256 := b.toNat_lt
    rw [spell, List.flatMap_singleton, spell_of_le hb]
    exact .escaped hb (getElem?_hexDigits (by omega)) (getElem?_hexDigits (by omega))

theorem IsWordKind.eq (h : IsWordKind word k) : .ofWord word = k := by
  cases h with
  | reserved h =>
    have hall : ∀ p ∈ Kind.keywords, Kind.ofWord p.1 = p.2 := by decide
    exact hall _ h
  | name h =>
    cases hl : Kind.keywords.lookup word with
    | none => rw [Kind.ofWord, hl]; rfl
    | some k =>
      obtain ⟨l, l', hkeywords, -⟩ := List.lookup_eq_some_iff.mp hl
      exact absurd rfl (h (word, k) (hkeywords ▸ List.mem_append_right _ List.mem_cons_self))

theorem isWordKind_ofWord (word : String) : IsWordKind word (.ofWord word) := by
  by_cases h : ∀ p ∈ Kind.keywords, p.1 ≠ word
  · exact (IsWordKind.name h).eq ▸ .name h
  · obtain ⟨⟨_, k⟩, hp, rfl⟩ : ∃ p ∈ Kind.keywords, p.1 = word := by simpa using h
    rw [(IsWordKind.reserved hp).eq]
    exact .reserved hp

/-! ## Lexemes -/

theorem mark_of_kind? {b : UInt8} {k : Kind} (h : k ∈ Byte.kind? b) :
    k ∈ Kind.marks ∧ asciiBytes k.text = [b] ∧ k ≠ .assign ∧ k ≠ .bang := by
  obtain ⟨l, l', hbytes, -⟩ := List.lookup_eq_some_iff.mp h
  have hmem : (b, k) ∈ l ++ (b, k) :: l' := List.mem_append_right _ List.mem_cons_self
  rw [← hbytes] at hmem
  simp only [List.mem_cons, Prod.mk.injEq, List.not_mem_nil, or_false] at hmem
  rcases hmem with ⟨rfl, rfl⟩ | ⟨rfl, rfl⟩ | ⟨rfl, rfl⟩ | ⟨rfl, rfl⟩ | ⟨rfl, rfl⟩ | ⟨rfl, rfl⟩ |
    ⟨rfl, rfl⟩ | ⟨rfl, rfl⟩ | ⟨rfl, rfl⟩ | ⟨rfl, rfl⟩ | ⟨rfl, rfl⟩ | ⟨rfl, rfl⟩ <;>
  exact ⟨by simp [Kind.marks], rfl, nofun, nofun⟩

/-- A byte that is no mark is none of those that are looked at one by one. -/
theorem unmarked_iff {b : UInt8} : (∀ k ∈ Kind.marks, asciiBytes k.text ≠ [b]) ↔
    b ≠ 61 ∧ b ≠ 33 ∧ Byte.kind? b = none := by
  have htexts : Kind.marks.map (asciiBytes ·.text) = [[61], [43], [45], [33], [42], [47], [60], [62],
      [61, 61], [33, 61], [44], [59], [40], [41], [123], [125]] := rfl
  have hmarks : (∀ k ∈ Kind.marks, asciiBytes k.text ≠ [b]) ↔
      ∀ w ∈ Kind.marks.map (asciiBytes ·.text), w ≠ [b] := by simp
  rw [hmarks, htexts, Byte.kind?, List.lookup_eq_none_iff]
  simp [@eq_comm UInt8 _ b]
  grind

theorem takeWhile_append_of_head {f : α → Bool} {w after : List α} (hw : ∀ b ∈ w, f b)
    (h : ∀ b ∈ after.head?, ¬f b) : (w ++ after).takeWhile f = w := by
  have hafter : after.takeWhile f = [] := by
    cases after with
    | nil => rfl
    | cons b after => exact List.takeWhile_cons_of_neg (h b rfl)
  rw [List.takeWhile_append_of_pos hw, hafter, List.append_nil]

/-- A lexeme is what is cut off there. -/
theorem IsLexeme.cut (h : IsLexeme k w after) : ∃ b bs, w = b :: bs ∧ Byte.isBlank b = false ∧
    Lexeme.cut b (bs ++ after) = (k, w) := by
  cases h with
  | word hne hw hafter hs hk =>
    obtain ⟨b, bs, rfl⟩ := List.exists_cons_of_ne_nil hne
    obtain ⟨hb, hbs⟩ := List.forall_mem_cons.mp hw
    refine ⟨b, bs, rfl, not_isBlank_of_isLetter hb, ?_⟩
    simp only [Lexeme.cut, if_pos hb, takeWhile_append_of_head hbs hafter, hs.spell_eq, hk.eq]
  | number hne hw hafter =>
    obtain ⟨b, bs, rfl⟩ := List.exists_cons_of_ne_nil hne
    obtain ⟨hb, hbs⟩ := List.forall_mem_cons.mp hw
    refine ⟨b, bs, rfl, not_isBlank_of_isDigit hb, ?_⟩
    simp only [Lexeme.cut, if_neg (not_isLetter_of_isDigit hb), if_pos hb,
      takeWhile_append_of_head hbs hafter]
  | mark hk hafter =>
    cases k with
    | assign =>
      exact ⟨61, [], rfl, rfl, if_neg fun h => hafter (.inl rfl) (eq_of_beq h)⟩
    | bang =>
      exact ⟨33, [], rfl, rfl, if_neg fun h => hafter (.inr rfl) (eq_of_beq h)⟩
    | illegal | eof | ident | int | fnWord | letWord | trueWord | falseWord | ifWord | elseWord
    | returnWord => exact absurd hk (by decide)
    | _ => exact ⟨_, _, rfl, rfl, rfl⟩
  | @illegal b _ hblank hletter hdigit hmark =>
    obtain ⟨hassign, hbang, hkind⟩ := unmarked_iff.mp hmark
    refine ⟨b, [], rfl, by simpa using hblank, ?_⟩
    simp [Lexeme.cut, hletter, hdigit, hassign, hbang, hkind]

theorem drop_takeWhile (f : α → Bool) (bs : List α) :
    bs.drop (bs.takeWhile f).length = bs.dropWhile f := by
  have h : (bs.takeWhile f ++ bs.dropWhile f).drop (bs.takeWhile f).length = bs.dropWhile f :=
    List.drop_left
  rwa [List.takeWhile_append_dropWhile] at h

theorem head?_dropWhile_not {f : α → Bool} {bs : List α} : ∀ b ∈ (bs.dropWhile f).head?, ¬f b := by
  intro b hb
  have := List.head?_dropWhile_not f bs
  rw [Option.mem_def.mp hb] at this
  simpa using this

/-- What is cut off is a lexeme. -/
theorem isLexeme_cut (hb : Byte.isBlank b = false) (bs : List UInt8) :
    IsLexeme (Lexeme.cut b bs).1 (Lexeme.cut b bs).2 ((b :: bs).drop (Lexeme.cut b bs).2.length) ∧
      IsLiteral (Lexeme.cut b bs).2 (spell (Lexeme.cut b bs).2) := by
  unfold Lexeme.cut
  split
  · next hletter =>
    have hrun := forall_mem_run hletter bs
    have hliteral := isLiteral_of_lt fun c hc => lt_of_isLetter (hrun c hc)
    refine ⟨.word nofun hrun ?_ hliteral (isWordKind_ofWord _), hliteral⟩
    rw [List.length_cons, List.drop_succ_cons, drop_takeWhile]
    exact head?_dropWhile_not
  next hletter =>
  split
  · next hdigit =>
    have hrun := forall_mem_run hdigit bs
    have hliteral := isLiteral_of_lt fun c hc => lt_of_isDigit (hrun c hc)
    refine ⟨.number nofun hrun ?_, hliteral⟩
    rw [List.length_cons, List.drop_succ_cons, drop_takeWhile]
    exact head?_dropWhile_not
  next hdigit =>
  split
  · next hassign =>
    cases eq_of_beq hassign
    split
    · exact ⟨.mark (k := .eq) (by decide) nofun, .ascii (s := "==") (by decide)⟩
    · next hnext =>
      exact ⟨.mark (k := .assign) (by decide) fun _ h => hnext (beq_iff_eq.mpr h),
        isLiteral_singleton 61⟩
  next hassign =>
  split
  · next hbang =>
    cases eq_of_beq hbang
    split
    · exact ⟨.mark (k := .notEq) (by decide) nofun, .ascii (s := "!=") (by decide)⟩
    · next hnext =>
      exact ⟨.mark (k := .bang) (by decide) fun _ h => hnext (beq_iff_eq.mpr h),
        isLiteral_singleton 33⟩
  next hbang =>
  refine ⟨?_, isLiteral_singleton b⟩
  cases hk : Byte.kind? b with
  | none =>
    refine .illegal (by simp [hb]) hletter hdigit (unmarked_iff.mpr ⟨?_, ?_, hk⟩)
    · simpa using hassign
    · simpa using hbang
  | some k =>
    obtain ⟨hmark, htext, hne, hne'⟩ := mark_of_kind? hk
    have h : IsLexeme k (asciiBytes k.text) bs :=
      .mark hmark fun h => (h.elim hne hne').elim
    rwa [htext] at h

/-! ## Reading -/

/-- A reader gives the tokens of the text, whatever way the text was divided. -/
theorem Tokenization.scans (h : Tokenization us ts) : Scans us ts := by
  induction h with
  | nil hus => exact .nil (List.dropWhile_eq_nil_iff.mpr hus)
  | @cons us w after ts t hus hw hliteral _ ih =>
    obtain ⟨b, bs, rfl, hblank, hcut⟩ := hw.cut
    have hdrop : (us ++ (b :: bs ++ after)).dropWhile Byte.isBlank = b :: (bs ++ after) := by
      rw [List.dropWhile_append_of_pos hus]
      exact List.dropWhile_cons_of_neg (by simp [hblank])
    have hafter : (b :: bs ++ after).drop (Lexeme.cut b (bs ++ after)).2.length = after := by
      rw [hcut]
      exact List.drop_left
    have hscans := Scans.cons hdrop (hafter.symm ▸ ih)
    rwa [hcut, hliteral.spell_eq] at hscans

/-- The tokens that a reader gives are a division of the text. -/
theorem Scans.divides (h : Scans us ts) : Tokenization us ts := by
  induction h with
  | nil hus => exact .nil (List.dropWhile_eq_nil_iff.mp hus)
  | @cons b bs ts us hus _ ih =>
    have hblank : Byte.isBlank b = false := by
      have hhead : b ∈ (us.dropWhile Byte.isBlank).head? := by rw [hus]; rfl
      simpa using head?_dropWhile_not b hhead
    obtain ⟨hw, hliteral⟩ := isLexeme_cut hblank bs
    obtain ⟨cs, hcs, rest, rfl⟩ := Lexeme.cut_prefix b bs
    have hblanks : ∀ c ∈ us.takeWhile Byte.isBlank, Byte.isBlank c :=
      fun _ hc => List.mem_takeWhile_imp hc
    have htext := Tokenization.cons (t := ⟨_, _⟩) hblanks hw hliteral ih
    have hwhole : (Lexeme.cut b (cs ++ rest)).2 ++
        (b :: (cs ++ rest)).drop (Lexeme.cut b (cs ++ rest)).2.length = b :: (cs ++ rest) := by
      rw [hcs, ← List.cons_append, List.drop_left]
    rwa [hwhole, ← hus, List.takeWhile_append_dropWhile] at htext

namespace Lexer

/-- The next `n` tokens. -/
def nextTokens : Nat → Lexer → List Token
  | 0, _ => []
  | n + 1, l => l.next.1 :: nextTokens n l.next.2

theorem nextTokens_succ_of_lexeme? {l : Lexer} (h : l.lexeme? = (some x, l')) (n : Nat) :
    l.nextTokens (n + 1) = x.token :: l'.nextTokens n := by
  rw [nextTokens, next, h]

/-- At the end of the text, the end is read again and again. -/
theorem nextTokens_of_blank {l : Lexer} (h : l.unread.dropWhile Byte.isBlank = []) (n : Nat) :
    nextTokens n l = List.replicate n .eof := by
  induction n generalizing l with
  | zero => rfl
  | succ n ih =>
    rw [nextTokens, next, lexeme?, h, List.replicate_succ]
    exact congrArg _ (ih rfl)

/-- Token by token, a reader gives what it would read to the end, and then the end of the text. -/
theorem nextTokens_of_scans (h : Scans us ts) {l : Lexer} (hl : l.unread = us) (n : Nat) :
    nextTokens (ts.length + n) l = ts ++ List.replicate n .eof := by
  induction h generalizing l with
  | nil hus =>
    rw [List.length_nil, Nat.zero_add, nextTokens_of_blank (hl ▸ hus)]
    rfl
  | cons hus _ ih =>
    obtain ⟨x, l', hx, htoken, hl'⟩ := lexeme?_of_byte (hl ▸ hus)
    rw [List.length_cons, Nat.succ_add, Nat.succ_eq_add_one, nextTokens_succ_of_lexeme? hx, htoken,
      ih hl', List.cons_append]

/-- The bytes of a text are the lexemes of exactly one sequence of tokens, which does not have the end
of the text in it. It is what a reader gives, and from then on the end of the text. -/
theorem tokenization (l : Lexer) :
    (∀ ts, Tokenization l.unread ts ↔ ts = l.tokens) ∧ (∀ t ∈ l.tokens, t.kind ≠ .eof) ∧
      ∀ n, l.nextTokens (l.tokens.length + n) = l.tokens ++ List.replicate n .eof := by
  have hscans := l.scans_tokens
  refine ⟨fun ts => ⟨fun h => h.scans.unique hscans, ?_⟩, fun t => kind_ne_eof,
    nextTokens_of_scans hscans rfl⟩
  rintro rfl
  exact hscans.divides

end Lexer

end MonkeyLang
