import MonkeyLang.Proofs.Token.Separate
import MonkeyLang.Proofs.Token.Spaced

/-!
# Blanks between the parts of a text

Blanks between two texts keep their tokens apart, and blanks at a place where no lexeme goes on change
nothing (`Lexer.rest_of_blanks`). The second follows from the first: a text that is divided at such a
place has the tokens of the two parts, since what is cut off as a lexeme is cut off in the same way when
the bytes after it are taken away (`Lexeme.cut_of_length_le`).
-/

namespace MonkeyLang

namespace Lexeme

theorem takeWhile_of_length_le {f : α → Bool} {as as' : List α}
    (h : ((as ++ as').takeWhile f).length ≤ as.length) :
    (as ++ as').takeWhile f = as.takeWhile f := by
  rw [List.takeWhile_append] at h ⊢
  split
  · next hall =>
    rw [if_pos hall, List.length_append] at h
    have hnil : as'.takeWhile f = [] := List.eq_nil_of_length_eq_zero (by omega)
    rw [hnil, List.append_nil, (List.takeWhile_prefix f).eq_of_length hall]
  · rfl

/-- A lexeme that ends before some bytes is cut off in the same way without them. -/
theorem cut_of_length_le {b : UInt8} {bs bs' : List UInt8}
    (h : (cut b (bs ++ bs')).2.length ≤ (b :: bs).length) : cut b (bs ++ bs') = cut b bs := by
  -- an operator of two bytes needs both of them
  have hpair : ∀ (k k' : Kind) (c : UInt8),
      (if (bs ++ bs').head? == some 61 then (k, [c, 61]) else (k', [c])).2.length ≤ (b :: bs).length →
      (if (bs ++ bs').head? == some 61 then (k, [c, 61]) else (k', [c])) =
        if bs.head? == some 61 then (k, [c, 61]) else (k', [c]) := by
    intro k k' c hlen
    cases bs with
    | nil =>
      split at hlen
      · exact absurd hlen (by simp)
      · next hequal => exact if_neg hequal
    | cons => rfl
  unfold cut at h ⊢
  split
  · next hletter =>
    rw [if_pos hletter] at h
    rw [takeWhile_of_length_le (Nat.le_of_succ_le_succ h)]
  next hletter =>
  rw [if_neg hletter] at h
  split
  · next hdigit =>
    rw [if_pos hdigit] at h
    rw [takeWhile_of_length_le (Nat.le_of_succ_le_succ h)]
  next hdigit =>
  rw [if_neg hdigit] at h
  split
  · next hassign => exact hpair _ _ _ (by rwa [if_pos hassign] at h)
  next hassign =>
  rw [if_neg hassign] at h
  split
  · next hbang => exact hpair _ _ _ (by rwa [if_pos hbang] at h)
  · rfl

end Lexeme

theorem Scans.blanks_append (hw : ∀ b ∈ ws, Byte.isBlank b) (h : Scans us ts) :
    Scans (ws ++ us) ts :=
  h.congr (List.dropWhile_append_of_pos hw).symm

/-- Blanks, at least one, separate the tokens before from those after. -/
theorem Scans.append_blanks (h : Scans us ts) (hne : ws ≠ []) (hw : ∀ b ∈ ws, Byte.isBlank b)
    (h' : Scans vs ts') : Scans (us ++ (ws ++ vs)) (ts ++ ts') := by
  obtain ⟨w, ws, rfl⟩ := List.exists_cons_of_ne_nil hne
  obtain ⟨hblank, hblanks⟩ := List.forall_mem_cons.mp hw
  exact h.append_blank hblank (h'.blanks_append hblanks)

/-! ## Places in a text -/

/-- The lexeme does not go on over the place after the first `n` bytes. -/
def Lexeme.Avoids (x : Lexeme) (n : Nat) : Prop := x.offset + x.bytes.length ≤ n ∨ n ≤ x.offset

/-- In the text of the two parts no lexeme goes on from one into the other. The place between them is
between two lexemes, before the first or after the last. -/
def Boundary (s t : String) : Prop :=
  ∀ x ∈ (Lexer.ofString (s ++ t)).lexemes, x.Avoids s.utf8ByteSize

instance : Decidable (Lexeme.Avoids x n) := inferInstanceAs (Decidable (_ ∨ _))

instance : Decidable (Boundary s t) :=
  List.decidableBAll (fun x : Lexeme => x.Avoids s.utf8ByteSize) (Lexer.ofString (s ++ t)).lexemes

namespace Lexer

/-- A lexeme that starts in the first of two parts of the text. -/
theorem lexeme?_append {l : Lexer} (hl : l.unread = us ++ vs)
    (hus : us.dropWhile Byte.isBlank = b :: bs) : ∃ x l', l.lexeme? = (some x, l') ∧
      x.token = ⟨(Lexeme.cut b (bs ++ vs)).1, spell (Lexeme.cut b (bs ++ vs)).2⟩ ∧
      x.bytes = (Lexeme.cut b (bs ++ vs)).2 ∧ x.offset + (b :: bs).length = l.offset + us.length ∧
      l'.unread = (b :: bs ++ vs).drop x.bytes.length ∧ l'.offset = x.offset + x.bytes.length := by
  have hlen : (us.takeWhile Byte.isBlank).length + (b :: bs).length = us.length := by
    rw [← hus, ← List.length_append, List.takeWhile_append_dropWhile]
  have hdrop : l.unread.dropWhile Byte.isBlank = b :: (bs ++ vs) := by
    rw [hl, List.dropWhile_append, hus]
    rfl
  have htake : l.unread.takeWhile Byte.isBlank = us.takeWhile Byte.isBlank := by
    rw [hl, List.takeWhile_append, if_neg]
    intro hall
    rw [hall, List.length_cons] at hlen
    omega
  rw [lexeme?, hdrop, htake]
  exact ⟨_, _, rfl, rfl, rfl, by rw [Nat.add_assoc, hlen], rfl, rfl⟩

/-- What is read of a text that is divided where no lexeme goes on is what is read of the first part
and then what is read of the second. -/
theorem scans_parts {l : Lexer} (hl : l.unread = us ++ vs) (hn : l.unread.length ≤ n)
    (hx : ∀ x ∈ lexemesWithin n l, x.Avoids (l.offset + us.length)) :
    ∃ ts ts', (lexemesWithin n l).map (·.token) = ts ++ ts' ∧ Scans us ts ∧ Scans vs ts' := by
  induction n generalizing l us with
  | zero =>
    have hnil := hl ▸ List.eq_nil_of_length_eq_zero (Nat.le_zero.mp hn)
    obtain ⟨rfl, rfl⟩ := List.append_eq_nil_iff.mp hnil
    exact ⟨[], [], rfl, .nil rfl, .nil rfl⟩
  | succ n ih =>
    cases hus : us.dropWhile Byte.isBlank with
    | nil =>
      -- the first part is over before the next lexeme
      have hblanks := List.dropWhile_eq_nil_iff.mp hus
      have hscans := hl ▸ scans_lexemesWithin hn
      exact ⟨[], _, rfl, .nil hus, hscans.congr (List.dropWhile_append_of_pos hblanks)⟩
    | cons b bs =>
      obtain ⟨x, l', hlexeme, htoken, hbytes, hstart, hunread, hoffset⟩ := lexeme?_append hl hus
      rw [lexemesWithin, hlexeme, List.forall_mem_cons] at hx
      obtain ⟨cs, hcut, -⟩ := Lexeme.cut_prefix b (bs ++ vs)
      have hpos : 0 < x.bytes.length := by rw [hbytes, hcut]; exact Nat.succ_pos _
      have hlen : x.bytes.length ≤ (b :: bs).length := by
        have havoids := hx.1
        simp only [Lexeme.Avoids, List.length_cons] at havoids hstart ⊢
        omega
      have hcut' : Lexeme.cut b (bs ++ vs) = Lexeme.cut b bs :=
        Lexeme.cut_of_length_le (hbytes ▸ hlen)
      rw [List.drop_append_of_le_length hlen] at hunread
      have hplace : l'.offset + ((b :: bs).drop x.bytes.length).length = l.offset + us.length := by
        rw [List.length_drop, hoffset]
        omega
      have hshort : l'.unread.length ≤ n := by
        have hle : us.length = (us.takeWhile Byte.isBlank).length + (b :: bs).length := by
          rw [← hus, ← List.length_append, List.takeWhile_append_dropWhile]
        rw [hl, List.length_append] at hn
        rw [hunread, List.length_append, List.length_drop]
        omega
      obtain ⟨ts, ts', hread, hfirst, hsecond⟩ := ih hunread hshort (hplace ▸ hx.2)
      refine ⟨x.token :: ts, ts', ?_, ?_, hsecond⟩
      · rw [lexemesWithin, hlexeme, List.map_cons, hread]
        rfl
      · rw [htoken, hcut']
        exact .cons hus (hcut' ▸ hbytes ▸ hfirst)

theorem length_unread_ofString (s : String) : (ofString s).unread.length = s.utf8ByteSize := rfl

/-- The tokens of a text that is divided at a boundary are those of the parts. -/
theorem tokens_of_boundary (h : Boundary s t) :
    (ofString (s ++ t)).tokens = (ofString s).tokens ++ (ofString t).tokens := by
  have hunread := unread_ofString_append s t
  obtain ⟨ts, ts', hread, hfirst, hsecond⟩ := scans_parts hunread (Nat.le_refl _) fun x hx => by
    rw [length_unread_ofString]
    exact (Nat.zero_add _).symm ▸ h x hx
  rw [(scans_tokens _).unique hfirst, (scans_tokens _).unique hsecond]
  exact hread

/-- The tokens before blanks, at least one, and those after them. -/
theorem tokens_append_blanks (hw : IsBlank w) (hne : w ≠ "") (s t : String) :
    (ofString (s ++ w ++ t)).tokens = (ofString s).tokens ++ (ofString t).tokens := by
  have hblanks := hw.isBlank
  have hunread : (ofString (s ++ w ++ t)).unread =
      (ofString s).unread ++ (asciiBytes w ++ (ofString t).unread) := by
    rw [unread_ofString_append, unread_ofString_append, unread_ofString hw.ascii, List.append_assoc]
  have hne' : asciiBytes w ≠ [] := by
    simpa [asciiBytes] using hne
  have hscans := hunread ▸ scans_tokens (ofString (s ++ w ++ t))
  exact hscans.unique ((scans_tokens _).append_blanks hne' hblanks (scans_tokens _))

/-- A line break separates the tokens of the text before from those of the text after. -/
theorem tokens_append_newline (s t : String) :
    (ofString (s ++ "\n" ++ t)).tokens = (ofString s).tokens ++ (ofString t).tokens :=
  tokens_append_blanks (by decide) (by decide) s t

/-- Blanks, at least one, between two texts separate the tokens of the first from those of the second
and the end of the text. Blanks at a boundary of a text leave its tokens as they are. -/
theorem rest_of_blanks (hw : IsBlank w) (hne : w ≠ "") :
    (∀ s t, (ofString (s ++ w ++ t)).rest = (ofString s).tokens ++ (ofString t).rest) ∧
      ∀ s t, Boundary s t → (ofString (s ++ w ++ t)).rest = (ofString (s ++ t)).rest := by
  have hseparate : ∀ s t,
      (ofString (s ++ w ++ t)).rest = (ofString s).tokens ++ (ofString t).rest := by
    intro s t
    show (ofString (s ++ w ++ t)).tokens ++ [.eof] = _
    rw [tokens_append_blanks hw hne, List.append_assoc]
    rfl
  refine ⟨hseparate, fun s t h => ?_⟩
  rw [hseparate]
  show _ = (ofString (s ++ t)).tokens ++ [.eof]
  rw [tokens_of_boundary h, List.append_assoc]
  rfl

/-- Two operators that do not go together, and two that would. -/
theorem rest_of_blanks_operators : IsBlank "\t\n" ∧ "\t\n" ≠ "" ∧ Boundary "a=" "!b" ∧
    (ofString ("a=" ++ "\t\n" ++ "!b")).rest = (ofString ("a=" ++ "!b")).rest ∧
    (ofString ("!" ++ "\t\n" ++ "=")).rest = (ofString "!").tokens ++ (ofString "=").rest := by
  have hblank : IsBlank "\t\n" := by decide
  have hne : "\t\n" ≠ "" := by decide
  have hboundary : Boundary "a=" "!b" := by decide +kernel
  have h := rest_of_blanks hblank hne
  exact ⟨hblank, hne, hboundary, h.2 _ _ hboundary, h.1 _ _⟩

end Lexer

end MonkeyLang
