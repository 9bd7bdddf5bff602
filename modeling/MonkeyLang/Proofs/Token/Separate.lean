import MonkeyLang.Token.Lexer

/-!
# A blank separates

No lexeme goes on over a blank, and where a lexeme is read from makes no difference to it. So the
tokens of a text with a blank in it are those before the blank and then those after it
(`Scans.append_blank`).
-/

namespace MonkeyLang

/-- No byte of a blank goes on with a word, a number or an operator. -/
theorem Byte.of_isBlank (hw : isBlank w) :
    isLetter w = false ∧ isDigit w = false ∧ some w ≠ some 61 := by
  simp only [isBlank, Bool.or_eq_true, beq_iff_eq] at hw
  rcases hw with ((rfl | rfl) | rfl) | rfl <;> decide

namespace Lexeme

theorem takeWhile_append_of_not {f : α → Bool} (hw : f w = false) (bs bs' : List α) :
    (bs ++ w :: bs').takeWhile f = bs.takeWhile f := by
  rw [List.takeWhile_append, List.takeWhile_cons_of_neg (by simp [hw]), List.append_nil]
  split
  · next hlen => exact ((List.takeWhile_prefix f).eq_of_length hlen).symm
  · rfl

theorem cut_append_blank (hw : Byte.isBlank w) (b : UInt8) (bs bs' : List UInt8) :
    cut b (bs ++ w :: bs') = cut b bs := by
  obtain ⟨hletter, hdigit, hequal⟩ := Byte.of_isBlank hw
  have hhead : ((bs ++ w :: bs').head? == some 61) = (bs.head? == some 61) := by
    cases bs with
    | nil => exact beq_eq_false_iff_ne.mpr hequal
    | cons c bs => rfl
  simp only [cut, takeWhile_append_of_not hletter, takeWhile_append_of_not hdigit, hhead]

/-- A lexeme is not empty and comes from the front. -/
theorem cut_prefix (b : UInt8) (bs : List UInt8) : ∃ cs, (cut b bs).2 = b :: cs ∧ cs <+: bs := by
  have hequal : ∀ k, bs.head? == some 61 → ∃ cs, [k, 61] = k :: cs ∧ cs <+: bs := by
    intro k h
    obtain ⟨bs, rfl⟩ := List.head?_eq_some_iff.mp (eq_of_beq h)
    exact ⟨[61], rfl, List.prefix_append [61] bs⟩
  have hsingle : ∀ k, ∃ cs, [k] = k :: cs ∧ cs <+: bs := fun k => ⟨[], rfl, List.nil_prefix⟩
  unfold cut
  split
  · exact ⟨_, rfl, List.takeWhile_prefix _⟩
  split
  · exact ⟨_, rfl, List.takeWhile_prefix _⟩
  split
  · next hb =>
    cases eq_of_beq hb
    split
    · next h => exact hequal _ h
    · exact hsingle _
  split
  · next hb =>
    cases eq_of_beq hb
    split
    · next h => exact hequal _ h
    · exact hsingle _
  · exact hsingle b

end Lexeme

/-- Reading some bytes to the end, token by token. -/
inductive Scans : List UInt8 → List Token → Prop where
  | nil : us.dropWhile Byte.isBlank = [] → Scans us []
  | cons : us.dropWhile Byte.isBlank = b :: bs →
    Scans ((b :: bs).drop (Lexeme.cut b bs).2.length) ts →
    Scans us (⟨(Lexeme.cut b bs).1, spell (Lexeme.cut b bs).2⟩ :: ts)

namespace Scans

theorem unique (h : Scans us ts) (h' : Scans us ts') : ts = ts' := by
  induction h generalizing ts' with
  | nil hnil =>
    cases h' with
    | nil => rfl
    | cons hcons => cases hnil.symm.trans hcons
  | cons hcons _ ih =>
    cases h' with
    | nil hnil => cases hnil.symm.trans hcons
    | cons hcons' h' =>
      cases hcons.symm.trans hcons'
      rw [ih h']

theorem congr (heq : us.dropWhile Byte.isBlank = us'.dropWhile Byte.isBlank) (h : Scans us ts) :
    Scans us' ts := by
  cases h with
  | nil hnil => exact .nil (heq ▸ hnil)
  | cons hcons h => exact .cons (heq ▸ hcons) h

theorem append_blank (h : Scans us ts) (hw : Byte.isBlank w) (h' : Scans vs ts') :
    Scans (us ++ w :: vs) (ts ++ ts') := by
  induction h with
  | nil hnil =>
    refine h'.congr ?_
    rw [List.dropWhile_append, hnil, List.dropWhile_cons_of_pos hw]
    rfl
  | @cons b bs ts us hcons _ ih =>
    obtain ⟨cs, hcut, hprefix⟩ := Lexeme.cut_prefix b bs
    have hlen : (Lexeme.cut b bs).2.length ≤ (b :: bs).length := by
      rw [hcut]
      exact Nat.succ_le_succ hprefix.length_le
    have hdrop : (us ++ w :: vs).dropWhile Byte.isBlank = b :: (bs ++ w :: vs) := by
      rw [List.dropWhile_append, hcons]
      rfl
    rw [← List.drop_append_of_le_length hlen, List.cons_append] at ih
    rw [← Lexeme.cut_append_blank hw b bs vs] at ih ⊢
    exact .cons hdrop ih

end Scans

namespace Lexer

theorem lexeme?_of_byte {l : Lexer} (h : l.unread.dropWhile Byte.isBlank = b :: bs) :
    ∃ x l', l.lexeme? = (some x, l') ∧
      x.token = ⟨(Lexeme.cut b bs).1, spell (Lexeme.cut b bs).2⟩ ∧
      l'.unread = (b :: bs).drop (Lexeme.cut b bs).2.length := by
  rw [lexeme?, h]
  exact ⟨_, _, rfl, rfl, rfl⟩

theorem scans_lexemesWithin {l : Lexer} (hn : l.unread.length ≤ n) :
    Scans l.unread ((lexemesWithin n l).map (·.token)) := by
  induction n generalizing l with
  | zero => exact .nil (by rw [List.eq_nil_of_length_eq_zero (Nat.le_zero.mp hn)]; rfl)
  | succ n ih =>
    cases hus : l.unread.dropWhile Byte.isBlank with
    | nil =>
      rw [lexemesWithin, lexeme?, hus]
      exact .nil hus
    | cons b bs =>
      obtain ⟨x, l', hx, htoken, hl'⟩ := lexeme?_of_byte hus
      rw [lexemesWithin, hx, List.map_cons, htoken]
      refine .cons hus (hl' ▸ ih ?_)
      -- a lexeme takes at least one byte
      obtain ⟨cs, hcut, -⟩ := Lexeme.cut_prefix b bs
      have hlen : (b :: bs).length ≤ l.unread.length := hus ▸ (List.dropWhile_suffix _).length_le
      simp only [hl', hcut, List.length_drop, List.length_cons] at hlen ⊢
      omega

theorem scans_tokens (l : Lexer) : Scans l.unread l.tokens := scans_lexemesWithin (Nat.le_refl _)

theorem unread_ofString_append (s t : String) :
    (ofString (s ++ t)).unread = (ofString s).unread ++ (ofString t).unread := by
  rw [ofString, ofString, ofString, String.toUTF8, String.toUTF8, String.toUTF8,
    String.toByteArray_append, ByteArray.toList_data_append]

/-- A reader without tokens passes the blanks that are left. -/
theorem lexeme?_of_tokens_eq_nil {l : Lexer} (h : l.tokens = []) :
    l.lexeme? = (none, { l with unread := [], offset := l.size }) := by
  have hscans := l.scans_tokens
  rw [h] at hscans
  cases hscans with
  | nil hus =>
    have hblanks : l.unread.takeWhile Byte.isBlank = l.unread := by
      rw [← List.append_nil (l.unread.takeWhile _), ← hus, List.takeWhile_append_dropWhile]
    rw [lexeme?, hus, hblanks, size]

/-- A reader with tokens reads the first of them. -/
theorem lexeme?_of_tokens_eq_cons {l : Lexer} (h : l.tokens = t :: ts) :
    ∃ x l', l.lexeme? = (some x, l') ∧ x.token = t ∧ l'.tokens = ts ∧ l'.ended = l.ended ∧
      l'.size = l.size := by
  have hscans := l.scans_tokens
  rw [h] at hscans
  cases hscans with
  | @cons b bs _ _ hus hrest =>
    rw [lexeme?, hus]
    refine ⟨_, _, rfl, rfl, (scans_tokens _).unique hrest, rfl, ?_⟩
    obtain ⟨cs, hcut, hprefix⟩ := Lexeme.cut_prefix b bs
    have hle : (Lexeme.cut b bs).2.length ≤ (b :: bs).length := by
      rw [hcut]
      exact Nat.succ_le_succ hprefix.length_le
    have hlen : l.unread.length = (l.unread.takeWhile Byte.isBlank).length + (b :: bs).length := by
      rw [← hus, ← List.length_append, List.takeWhile_append_dropWhile]
    show l.offset + (l.unread.takeWhile Byte.isBlank).length + (Lexeme.cut b bs).2.length +
      ((b :: bs).drop (Lexeme.cut b bs).2.length).length = l.offset + l.unread.length
    rw [List.length_drop]
    omega

end Lexer

end MonkeyLang
