import MonkeyLang.Proofs.Parser.Grammar
import MonkeyLang.Proofs.Parser.Reads

/-!
# What is read is grammatical

Each goal reads a word of a form of the grammar (`Reads.takes`). `Takes e ts ts'` is what composes: a
word of `e` was taken from the front of `ts`, and if closing braces were missing for it then nothing
is left.
-/

namespace MonkeyLang

/-- No token stands for the end of the text. -/
def Whole (ts : List Token) : Prop := ∀ t ∈ ts, t.kind ≠ .eof

theorem Whole.tail (h : Whole (t :: ts)) : Whole ts := fun _ hu => h _ (.tail _ hu)

theorem Whole.eq_nil (h : Whole ts) (heof : kindOf ts = .eof) : ts = [] := by
  cases ts with
  | nil => rfl
  | cons t ts => exact absurd heof (h t (.head _))

/-- A word of the form was taken from the front of the tokens. -/
def Takes (e : Ebnf) (ts ts' : List Token) : Prop :=
  Whole ts → Whole ts' ∧
    ∃ u n, Derives e u ∧ ts ++ braces n = u ++ ts' ∧ (n = 0 ∨ ts' = [])

namespace Takes

theorem comp (h : Takes e₁ ts ts₁) (h' : Takes e₂ ts₁ ts')
    (hd : ∀ u v, Derives e₁ u → Derives e₂ v → Derives e (u ++ v)) : Takes e ts ts' := by
  intro hw
  obtain ⟨hw₁, u, n, hu, hn, hnil⟩ := h hw
  obtain ⟨hw', v, m, hv, hm, hnil'⟩ := h' hw₁
  have hword : ts ++ braces (n + m) = (u ++ v) ++ ts' := by
    rw [braces, ← List.replicate_append_replicate, ← List.append_assoc]
    rw [braces] at hn hm
    rw [hn, List.append_assoc, hm, List.append_assoc]
  refine ⟨hw', u ++ v, n + m, hd u v hu hv, hword, ?_⟩
  rcases hnil' with rfl | h
  · rcases hnil with rfl | rfl
    · exact .inl rfl
    · exact .inr (List.append_eq_nil_iff.mp hm.symm).2
  · exact .inr h

theorem map (h : Takes e ts ts') (hd : ∀ u, Derives e u → Derives e' u) : Takes e' ts ts' := by
  intro hw
  obtain ⟨hw', u, n, hu, h⟩ := h hw
  exact ⟨hw', u, n, hd u hu, h⟩

theorem token (h : t.kind = kind) (hf : t.Fits) : Takes (.token kind) (t :: ts) ts :=
  fun hw => ⟨hw.tail, [t], 0, .token h hf, List.append_nil _, .inl rfl⟩

/-- A token that is not an integer. -/
theorem mark (h : t.kind = kind) (hk : kind ≠ .int) : Takes (.token kind) (t :: ts) ts :=
  token h fun hi => absurd (h.symm.trans hi) hk

/-- The end of the text stands for a brace. -/
theorem brace (h : kindOf ts = .rbrace ∨ kindOf ts = .eof) : Takes (.token .rbrace) ts ts.tail := by
  intro hw
  cases ts with
  | nil => exact ⟨hw, braces 1, 1, .token rfl nofun, rfl, .inr rfl⟩
  | cons t ts => exact mark (h.resolve_right (hw t (.head _))) nofun hw

theorem nil : Takes (.all []) ts ts := fun hw => ⟨hw, [], 0, .nil, List.append_nil _, .inl rfl⟩

theorem cons (h : Takes e ts ts₁) (h' : Takes (.all es) ts₁ ts') : Takes (.all (e :: es)) ts ts' :=
  h.comp h' fun _ _ => .cons

theorem rule (h : Takes (grammar r) ts ts') : Takes (.rule r) ts ts' := h.map fun _ => .rule

theorem any (h : Takes e ts ts') (he : e ∈ es) : Takes (.any es) ts ts' := h.map fun _ => .any he

theorem absent : Takes (.opt e) ts ts := fun hw => ⟨hw, [], 0, .absent, List.append_nil _, .inl rfl⟩

theorem present (h : Takes e ts ts') : Takes (.opt e) ts ts' := h.map fun _ => .present

theorem none : Takes (.many e) ts ts := fun hw => ⟨hw, [], 0, .none, List.append_nil _, .inl rfl⟩

theorem more (h : Takes e ts ts₁) (h' : Takes (.many e) ts₁ ts') : Takes (.many e) ts ts' :=
  h.comp h' fun _ _ => .more

/-- One part of a repetition before the others and what comes after them. -/
theorem moreThen (h : Takes e ts ts₁) (h' : Takes (.all (.many e :: es)) ts₁ ts') :
    Takes (.all (.many e :: es)) ts ts' := by
  refine h.comp h' fun u v hu hv => ?_
  obtain ⟨w, hw, w', hw', rfl⟩ := derives_all_cons.mp hv
  exact List.append_assoc .. ▸ .cons (.more hu hw) hw'

theorem append (h : Takes (.all es) ts ts₁) (h' : Takes (.all es') ts₁ ts') :
    Takes (.all (es ++ es')) ts ts' := by
  refine h.comp h' fun u v hu hv => ?_
  clear h h'
  induction es generalizing u with
  | nil =>
    rw [derives_all_nil.mp hu]
    exact hv
  | cons e es ih =>
    obtain ⟨w, hw, w', hw', rfl⟩ := derives_all_cons.mp hu
    exact List.append_assoc .. ▸ .cons hw (ih w' hw')

theorem semicolon : Takes (.opt (.token .semicolon)) ts (dropSemicolon ts) := by
  unfold dropSemicolon
  split
  · next h =>
    cases ts with
    | nil => cases h
    | cons t ts => exact .present (.mark h nofun)
  · exact .absent

/-- The first of the elements in parentheses, and the others. -/
theorem commaList (h : Takes e ts ts₁)
    (h' : Takes (.all [.many (.all [.token .comma, e]), .token .rparen]) ts₁ ts') :
    Takes (.all [commaList e, .token .rparen]) ts ts' := by
  refine h.comp h' fun u v hu hv => ?_
  obtain ⟨w, hw, w', hw', rfl⟩ := derives_all_cons.mp hv
  rw [← List.append_assoc]
  refine .cons (.present (.cons hu ?_)) hw'
  simpa using hw

end Takes

namespace Goal

open Ebnf in
/-- What a goal reads. -/
@[simp] def form : Goal → Ebnf
  | parameters => all [commaList (token .ident), token .rparen]
  | moreParameters => all [many (all [token .comma, token .ident]), token .rparen]
  | expression _ => rule .expression
  | operators .. => many (rule .continuation)
  | operand => rule .operand
  | moreArguments => all [many (all [token .comma, rule .expression]), token .rparen]
  | statements => all [many (rule .statement), token .rbrace]
  | statement => rule .statement
  | program => rule .program

end Goal

/-- The kinds of operators between operands. -/
theorem operator_of_lt (h : power < Precedence.ofKind kind) (hk : kind ≠ .lparen) :
    kind ∈ [Kind.eq, .notEq, .lt, .gt, .plus, .minus, .asterisk, .slash] := by
  cases kind <;> first | decide | exact absurd rfl hk | exact absurd h (Nat.not_lt_zero _)

theorem fits_of_integer {t : Token} (h : integer? t.literal = some n) : t.Fits := by
  intro _
  unfold integer? toInt64? at h
  split at h
  · next hn => exact Int.ofNat_le.mp hn.2
  · cases h

namespace Takes

/-- An operator and its right operand. -/
theorem binary (h : power < Precedence.ofKind t.kind) (hk : t.kind ≠ .lparen)
    (h' : Takes (.rule .expression) ts ts') : Takes (.rule .continuation) (t :: ts) ts' := by
  have hop := operator_of_lt h hk
  have hint : t.kind ≠ .int := fun hi => absurd hop (by simp [hi])
  exact .rule (.any (.cons (.any (.mark rfl hint) (List.mem_map_of_mem hop)) (.cons h' .nil))
    (.head _))

/-- Arguments after the opening parenthesis. -/
theorem call (hk : t.kind = .lparen)
    (h : Takes (.all [MonkeyLang.commaList (.rule .expression), .token .rparen]) ts ts') :
    Takes (.rule .continuation) (t :: ts) ts' :=
  .rule (.any (.cons (.mark hk nofun) h) (.tail _ (.head _)))

theorem block (hk : t.kind = .lbrace)
    (h : Takes (.all [.many (.rule .statement), .token .rbrace]) ts ts') :
    Takes (.rule .block) (t :: ts) ts' :=
  .rule (.cons (.mark hk nofun) h)

theorem operand (h : Takes e ts ts') (he : grammar .operand = .any es) (hm : e ∈ es) :
    Takes (.rule .operand) ts ts' :=
  .rule (he ▸ .any h hm)

end Takes

/-- What is read is a word of the form. -/
theorem Reads.takes (h : Reads g ts a ts') : Takes g.form ts ts' := by
  induction h with
  | noParameters ht => exact .cons .absent (.cons (.mark ht nofun) .nil)
  | parameters ht _ ih => exact .commaList (.mark ht nofun) ih
  | lastParameter ht => exact .cons .none (.cons (.mark ht nofun) .nil)
  | nextParameter ht hu _ ih =>
    exact .moreThen (.cons (.mark ht nofun) (.cons (.mark hu nofun) .nil)) ih
  | expression _ _ ih ih' => exact .rule (.cons ih (.cons ih' .nil))
  | stop => exact .none
  | binary h ht _ _ ih ih' => exact .more (.binary h ht ih) ih'
  | callEmpty _ ht hu _ ih =>
    exact .more (.call ht (.cons .absent (.cons (.mark hu nofun) .nil))) ih
  | call _ ht _ _ _ _ ih ih' ih'' => exact .more (.call ht (.commaList ih ih')) ih''
  | ident ht => exact .operand (.mark ht nofun) rfl (by simp)
  | int ht hi => exact .operand (.token ht (fits_of_integer hi)) rfl (by simp)
  | true ht | false ht => exact .operand (.mark ht nofun) rfl (by simp)
  | @unary ts _ _ t ht _ ih =>
    have hop : Takes (.any [.token .bang, .token .minus]) (t :: ts) ts := by
      rcases ht with ht | ht
      · exact .any (.mark ht nofun) (.head _)
      · exact .any (.mark ht nofun) (.tail _ (.head _))
    exact .operand (.cons hop (.cons ih .nil)) rfl (by simp)
  | group ht _ hu ih =>
    exact .operand (.cons (.mark ht nofun) (.cons ih (.cons (.mark hu nofun) .nil))) rfl (by simp)
  | @cond _ _ _ _ _ _ ts' _ _ ht hu _ hv hw _ _ ih ih' =>
    have helse : Takes (.opt (.all [.token .elseWord, .rule .block])) ts' ts' := .absent
    exact .operand (.cons (.mark ht nofun) (.cons (.mark hu nofun) (.cons ih
      (.cons (.mark hv nofun) (.cons (.block hw ih') (.cons helse .nil)))))) rfl (by simp)
  | condElse ht hu _ hv hw _ hx hy _ ih ih' ih'' =>
    have helse := Takes.present (.cons (.mark hx nofun) (.cons (.block hy ih'') .nil))
    exact .operand (.cons (.mark ht nofun) (.cons (.mark hu nofun) (.cons ih
      (.cons (.mark hv nofun) (.cons (.block hw ih') (.cons helse .nil)))))) rfl (by simp)
  | function ht hu _ hw _ ih ih' =>
    have hrest := Takes.append ih (.cons (.block hw ih') .nil)
    exact .operand (.cons (.mark ht nofun) (.cons (.mark hu nofun) hrest)) rfl (by simp)
  | lastArgument ht => exact .cons .none (.cons (.mark ht nofun) .nil)
  | nextArgument ht _ _ ih ih' => exact .moreThen (.cons (.mark ht nofun) (.cons ih .nil)) ih'
  | endOfStatements ht => exact .cons .none (.cons (.brace ht) .nil)
  | statements _ _ _ _ ih ih' => exact .moreThen ih ih'
  | letStmt ht hu hv _ ih =>
    have hlet := Takes.rule (r := .letStmt) (.cons (.mark ht nofun) (.cons (.mark hu nofun)
      (.cons (.mark hv nofun) (.cons ih (.cons .semicolon .nil)))))
    exact .rule (.any hlet (by simp))
  | returnStmt ht _ ih =>
    have hreturn := Takes.rule (r := .returnStmt) (.cons (.mark ht nofun) (.cons ih
      (.cons .semicolon .nil)))
    exact .rule (.any hreturn (by simp))
  | blockStmt ht _ ih => exact .rule (.any (.block ht ih) (by simp))
  | exprStmt _ _ _ _ ih =>
    have hexpr := Takes.rule (r := .exprStmt) (.cons ih (.cons .semicolon .nil))
    exact .rule (.any hexpr (by simp))
  | @endOfProgram ts ht =>
    intro hw
    cases ts with
    | nil => exact Takes.rule (r := .program) .none hw
    | cons t ts => exact absurd ht (hw t (.head _))
  | program _ _ _ ih ih' => exact ih.comp ih' fun u v hu hv => .rule (.more hu (derives_rule.mp hv))

end MonkeyLang
