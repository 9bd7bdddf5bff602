import MonkeyLang.Parser

/-!
# The grammar

The grammar of the language in extended Backus-Naur form, as it is written: ambiguous, and with no
word about how tightly operators bind. `Derives` is the language of a form. Two things are added. The
number of an integer token has to fit in 64 bits, and the end of the text may stand for closing braces
that are missing, which `Grammatical` puts there.
-/

namespace MonkeyLang

/-- The names on the left of the productions. -/
inductive Rule where
  | program | statement | letStmt | returnStmt | exprStmt | block
  | expression
  /-- What an expression starts with. -/
  | operand
  /-- What goes on with an expression: an operator and its right operand, or arguments. -/
  | continuation

/-- The right of a production. -/
inductive Ebnf where
  | token (kind : Kind)
  | rule (r : Rule)
  /-- One after another. -/
  | all (es : List Ebnf)
  /-- One of several. -/
  | any (es : List Ebnf)
  | opt (e : Ebnf)
  | many (e : Ebnf)

open Ebnf in
/-- What stands between the parentheses of a call or of a function literal. -/
def commaList (e : Ebnf) : Ebnf := opt (all [e, many (all [token .comma, e])])

open Ebnf in
/-- The productions. -/
def grammar : Rule → Ebnf
  | .program => many (rule .statement)
  | .statement => any [rule .letStmt, rule .returnStmt, rule .block, rule .exprStmt]
  | .letStmt =>
    all [token .letWord, token .ident, token .assign, rule .expression, opt (token .semicolon)]
  | .returnStmt => all [token .returnWord, rule .expression, opt (token .semicolon)]
  | .exprStmt => all [rule .expression, opt (token .semicolon)]
  | .block => all [token .lbrace, many (rule .statement), token .rbrace]
  | .expression => all [rule .operand, many (rule .continuation)]
  | .operand =>
    any [token .ident, token .int, token .trueWord, token .falseWord,
      all [any [token .bang, token .minus], rule .expression],
      all [token .lparen, rule .expression, token .rparen],
      all [token .ifWord, token .lparen, rule .expression, token .rparen, rule .block,
        opt (all [token .elseWord, rule .block])],
      all [token .fnWord, token .lparen, commaList (token .ident), token .rparen, rule .block]]
  | .continuation =>
    any [all [any [token .eq, token .notEq, token .lt, token .gt, token .plus, token .minus,
        token .asterisk, token .slash], rule .expression],
      all [token .lparen, commaList (rule .expression), token .rparen]]

/-- The number of an integer token fits in 64 bits. -/
def Token.Fits (t : Token) : Prop :=
  t.kind = .int → Text.decimalValue t.literal.toList ≤ 9223372036854775807

/-- The tokens are a word of the form. -/
inductive Derives : Ebnf → List Token → Prop where
  | token : t.kind = kind → t.Fits → Derives (.token kind) [t]
  | rule : Derives (grammar r) ts → Derives (.rule r) ts
  | nil : Derives (.all []) []
  | cons : Derives e ts → Derives (.all es) ts' → Derives (.all (e :: es)) (ts ++ ts')
  | any : e ∈ es → Derives e ts → Derives (.any es) ts
  | absent : Derives (.opt e) []
  | present : Derives e ts → Derives (.opt e) ts
  | none : Derives (.many e) []
  | more : Derives e ts → Derives (.many e) ts' → Derives (.many e) (ts ++ ts')

/-- Closing braces. -/
def braces (n : Nat) : List Token := List.replicate n ⟨.rbrace, "\x7d"⟩

/-- The tokens are a program, up to closing braces that are missing at the end. -/
def Grammatical (ts : List Token) : Prop := ∃ n, Derives (.rule .program) (ts ++ braces n)

/-! ## What words look like -/

@[simp] theorem derives_token : Derives (.token kind) ts ↔ ∃ t, ts = [t] ∧ t.kind = kind ∧ t.Fits :=
  ⟨fun | .token h h' => ⟨_, rfl, h, h'⟩, fun ⟨_, h, hk, hf⟩ => h ▸ .token hk hf⟩

theorem derives_rule : Derives (.rule r) ts ↔ Derives (grammar r) ts :=
  ⟨fun | .rule h => h, .rule⟩

@[simp] theorem derives_all_nil : Derives (.all []) ts ↔ ts = [] :=
  ⟨fun | .nil => rfl, fun h => h ▸ .nil⟩

@[simp] theorem derives_all_cons : Derives (.all (e :: es)) ts ↔
    ∃ u, Derives e u ∧ ∃ v, Derives (.all es) v ∧ ts = u ++ v :=
  ⟨fun | .cons h h' => ⟨_, h, _, h', rfl⟩, fun ⟨_, h, _, h', e⟩ => e ▸ .cons h h'⟩

@[simp] theorem derives_any : Derives (.any es) ts ↔ ∃ e ∈ es, Derives e ts :=
  ⟨fun | .any h h' => ⟨_, h, h'⟩, fun ⟨_, h, h'⟩ => .any h h'⟩

@[simp] theorem derives_opt : Derives (.opt e) ts ↔ ts = [] ∨ Derives e ts :=
  ⟨fun | .absent => .inl rfl | .present h => .inr h,
    fun | .inl h => h ▸ .absent | .inr h => .present h⟩

/-- An induction over the parts of a repetition. -/
@[elab_as_elim]
theorem Derives.many_induction {motive : ∀ ts, Derives (.many e) ts → Prop} (none : motive [] .none)
    (more : ∀ u v (h : Derives e u) (h' : Derives (.many e) v), motive v h' →
      motive (u ++ v) (.more h h')) (h : Derives (.many e) ts) : motive ts h := by
  suffices H : ∀ m ts, Derives m ts → m = .many e → ∀ h : Derives (.many e) ts, motive ts h from
    H _ _ h rfl h
  intro m ts hd
  induction hd with
  | none =>
    intro hm _
    cases hm
    exact none
  | more hu hv _ ih =>
    intro hm _
    cases hm
    exact more _ _ hu hv (ih rfl hv)
  | _ => exact nofun

end MonkeyLang
