import MonkeyLang.Proofs.Parser.Walk

/-!
# Where the tokens of a text go

Each token of a text without errors is either kept by a node of the tree or one of the marks that the
tree does without: `Laid` says for each construct where its tokens and its marks are. With errors the
tokens that the tree keeps are still some of those of the text, in order (`parse_walk`).
-/

namespace MonkeyLang

/-- The marks that a tree does without. -/
inductive Mark where
  /-- The equals sign of a `let`. -/
  | assign
  | semicolon | comma | elseWord | rbrace | rparen
  /-- The opening parenthesis around an expression. -/
  | group
  /-- The opening parenthesis of the condition of an `if`. -/
  | condition
  /-- The opening parenthesis of parameters. -/
  | parameters
deriving DecidableEq

def Mark.kind : Mark → Kind
  | assign => .assign | semicolon => .semicolon | comma => .comma | elseWord => .elseWord
  | rbrace => .rbrace | rparen => .rparen | group | condition | parameters => .lparen

/-- A token of a text: a node of the tree keeps it, or it is a mark. -/
inductive Item where
  | own (t : Token)
  | mark (m : Mark) (t : Token) (h : t.kind = m.kind)

namespace Item

def token : Item → Token
  | own t | mark _ t _ => t

/-- The token if a node keeps it. -/
def own? : Item → Option Token
  | own t => some t
  | mark .. => none

end Item

/-- A semicolon that may be left out. -/
inductive Semicolon : List Item → Prop where
  | absent : Semicolon []
  | present : Semicolon [.mark .semicolon t h]

/-- The tokens of what a goal reads, in the order of the text. An expression is laid out in the same
way at every power, so there are only rules for operands. -/
inductive Laid : (g : Goal) → g.Result → List Item → Prop where
  | ident : Laid .operand (.ident x) [.own x.token]
  | int : Laid .operand (.int t n) [.own t]
  | bool : Laid .operand (.bool t b) [.own t]
  | unary : Laid .operand e js → Laid .operand (.unary t op e) (.own t :: js)
  | binary : Laid .operand l js → Laid .operand r js' →
    Laid .operand (.binary t l op r) (js ++ .own t :: js')
  | group : Laid .operand e js →
    Laid .operand e (.mark .group t h :: (js ++ [.mark .rparen u h']))
  | cond : Laid .operand c js → Laid .statements ss js' →
    Laid .operand (.cond t c ⟨w, ss⟩ none)
      (.own t :: .mark .condition u h :: (js ++ .mark .rparen v h' :: .own w :: js'))
  | condElse : Laid .operand c js → Laid .statements ss js' → Laid .statements ss' js'' →
    Laid .operand (.cond t c ⟨w, ss⟩ (some ⟨y, ss'⟩))
      (.own t :: .mark .condition u h :: (js ++ .mark .rparen v h' :: .own w ::
        (js' ++ .mark .elseWord x h'' :: .own y :: js'')))
  | function : Laid .parameters xs js → Laid .statements ss js' →
    Laid .operand (.function t xs ⟨w, ss⟩)
      (.own t :: .mark .parameters u h :: (js ++ .own w :: js'))
  | callEmpty : Laid .operand f js →
    Laid .operand (.call t f []) (js ++ [.own t, .mark .rparen u h])
  | call : Laid .operand f js → Laid .operand e js' → Laid .moreArguments es js'' →
    Laid .operand (.call t f (e :: es)) (js ++ .own t :: (js' ++ js''))
  | lastArgument : Laid .moreArguments [] [.mark .rparen t h]
  | nextArgument : Laid .operand e js → Laid .moreArguments es js' →
    Laid .moreArguments (e :: es) (.mark .comma t h :: (js ++ js'))
  | noParameters : Laid .parameters [] [.mark .rparen t h]
  | parameters : Laid .moreParameters xs js → Laid .parameters (x :: xs) (.own x.token :: js)
  | lastParameter : Laid .moreParameters [] [.mark .rparen t h]
  | nextParameter : Laid .moreParameters xs js →
    Laid .moreParameters (x :: xs) (.mark .comma t h :: .own x.token :: js)
  /-- The closing brace of a block. -/
  | closed : Laid .statements [] [.mark .rbrace t h]
  /-- At the end of the text closing braces can be left out. -/
  | unclosed : Laid .statements [] []
  | statements : Laid .statement s js → Laid .statements ss js' →
    Laid .statements (s :: ss) (js ++ js')
  | letStmt : Laid .operand e js → Semicolon js' →
    Laid .statement (.letStmt t x e) (.own t :: .own x.token :: .mark .assign v h :: (js ++ js'))
  | returnStmt : Laid .operand e js → Semicolon js' →
    Laid .statement (.returnStmt t e) (.own t :: (js ++ js'))
  | exprStmt : Laid .operand e js → Semicolon js' → Laid .statement (.expr t e) (js ++ js')
  | blockStmt : Laid .statements ss js → Laid .statement (.block ⟨t, ss⟩) (.own t :: js)
  | endOfProgram : Laid .program [] []
  | program : Laid .statement s js → Laid .program ss js' → Laid .program (s :: ss) (js ++ js')

@[simp] theorem filterMap_own_cons (t : Token) (js : List Item) :
    (Item.own t :: js).filterMap Item.own? = t :: js.filterMap Item.own? := rfl

@[simp] theorem filterMap_mark_cons (js : List Item) :
    (Item.mark m t h :: js).filterMap Item.own? = js.filterMap Item.own? := rfl

theorem Semicolon.filterMap_own? (h : Semicolon js) : js.filterMap Item.own? = [] := by
  cases h <;> rfl

/-- The tokens of a tree are those that the nodes keep. -/
theorem Laid.filterMap_own? (h : Laid g a js) : js.filterMap Item.own? = g.walk a := by
  induction h with
  | letStmt _ h ih | returnStmt _ h ih | exprStmt _ h ih =>
    simp_all [h.filterMap_own?]
  | _ => simp_all

/-! ## Reading -/

/-- The tokens from `ts` up to `ts'` are laid out as `L` says. -/
def Lays (L : List Item → Prop) (ts ts' : List Token) : Prop :=
  Whole ts → ∃ js, L js ∧ ts = js.map Item.token ++ ts'

namespace Lays

variable {L L₁ L₂ : List Item → Prop}

theorem refl (h : L []) : Lays L ts ts := fun _ => ⟨[], h, rfl⟩

theorem map (h : Lays L₁ ts ts') (hL : ∀ js, L₁ js → L js) : Lays L ts ts' := fun hw =>
  let ⟨js, hjs, hts⟩ := h hw
  ⟨js, hL js hjs, hts⟩

theorem own (h : Lays (fun js => L (.own t :: js)) ts ts') : Lays L (t :: ts) ts' := by
  intro hw
  obtain ⟨js, hjs, rfl⟩ := h hw.tail
  exact ⟨.own t :: js, hjs, rfl⟩

theorem mark (m : Mark) (hm : t.kind = m.kind) (h : Lays (fun js => L (.mark m t hm :: js)) ts ts') :
    Lays L (t :: ts) ts' := by
  intro hw
  obtain ⟨js, hjs, rfl⟩ := h hw.tail
  exact ⟨.mark m t hm :: js, hjs, rfl⟩

theorem andThen (h : Lays L₁ ts ts₁) (h' : ∀ js, L₁ js → Lays (fun js' => L (js ++ js')) ts₁ ts') :
    Lays L ts ts' := by
  intro hw
  obtain ⟨js, hjs, rfl⟩ := h hw
  obtain ⟨js', hjs', rfl⟩ := h' js hjs fun t ht => hw t (List.mem_append_right _ ht)
  exact ⟨js ++ js', hjs', by simp⟩

theorem semicolon (h : ∀ js, Semicolon js → L js) : Lays L ts (dropSemicolon ts) := by
  unfold dropSemicolon
  split
  · next hk =>
    cases ts with
    | nil => cases hk
    | cons t ts => exact mark .semicolon hk (refl (h _ .present))
  · exact refl (h _ .absent)

end Lays

/-- The layout of what a goal reads. Operators go on with a left operand. -/
def Goal.layout : (g : Goal) → g.Result → List Item → Prop
  | .expression _, e, js => Laid .operand e js
  | .operators _ l, e, js => ∀ js', Laid .operand l js' → Laid .operand e (js' ++ js)
  | g, a, js => Laid g a js

/-- What is read is laid out as its tree. -/
theorem Reads.lays (h : Reads g ts a ts') : Lays (g.layout a) ts ts' := by
  induction h with
  | noParameters ht => exact .mark .rparen ht (.refl .noParameters)
  | parameters _ _ ih => exact .own (ih.map fun _ => .parameters)
  | lastParameter ht => exact .mark .rparen ht (.refl .lastParameter)
  | nextParameter ht _ _ ih => exact .mark .comma ht (.own (ih.map fun _ => .nextParameter))
  | expression _ _ ih ih' => exact ih.andThen fun _ hl => ih'.map fun _ he => he _ hl
  | stop => exact .refl fun js hl => (List.append_nil js).symm ▸ hl
  | binary _ _ _ _ ih ih' =>
    refine .own (ih.andThen fun js hr => ih'.map fun js' he js₀ hl => ?_)
    simpa using he _ (.binary hl hr)
  | callEmpty _ _ hu _ ih =>
    refine .own (.mark .rparen hu (ih.map fun js he js₀ hf => ?_))
    simpa using he _ (.callEmpty hf)
  | call _ _ _ _ _ _ ih ih' ih'' =>
    refine .own (ih.andThen fun js ha => ih'.andThen fun js' has => ih''.map fun js'' he js₀ hf => ?_)
    simpa using he _ (.call hf ha has)
  | ident => exact .own (.refl .ident)
  | int => exact .own (.refl .int)
  | true | false => exact .own (.refl .bool)
  | unary _ _ ih => exact .own (ih.map fun _ => .unary)
  | group ht _ hu ih =>
    exact .mark .group ht (ih.andThen fun _ he => .mark .rparen hu (.refl (.group he)))
  | cond _ hu _ hv _ _ _ ih ih' =>
    exact .own (.mark .condition hu (ih.andThen fun _ hc => .mark .rparen hv (.own
      (ih'.map fun _ => .cond hc))))
  | condElse _ hu _ hv _ _ hx _ _ ih ih' ih'' =>
    exact .own (.mark .condition hu (ih.andThen fun _ hc => .mark .rparen hv (.own
      (ih'.andThen fun _ hss => .mark .elseWord hx (.own (ih''.map fun _ => .condElse hc hss))))))
  | function _ hu _ _ _ ih ih' =>
    exact .own (.mark .parameters hu (ih.andThen fun _ hxs => .own (ih'.map fun _ => .function hxs)))
  | lastArgument ht => exact .mark .rparen ht (.refl .lastArgument)
  | nextArgument ht _ _ ih ih' =>
    exact .mark .comma ht (ih.andThen fun _ he => ih'.map fun _ => .nextArgument he)
  | @endOfStatements ts hk =>
    intro hw
    cases ts with
    | nil => exact Lays.refl (L := Laid .statements []) .unclosed hw
    | cons t ts =>
      have hbrace : t.kind = .rbrace := hk.resolve_right (hw t (.head _))
      exact Lays.mark (L := Laid .statements []) .rbrace hbrace (.refl .closed) hw
  | statements _ _ _ _ ih ih' => exact ih.andThen fun _ hs => ih'.map fun _ => .statements hs
  | letStmt _ _ hv _ ih =>
    exact .own (.own (.mark .assign hv (ih.andThen fun _ he => .semicolon fun _ => .letStmt he)))
  | returnStmt _ _ ih => exact .own (ih.andThen fun _ he => .semicolon fun _ => .returnStmt he)
  | blockStmt _ _ ih => exact .own (ih.map fun _ => .blockStmt)
  | exprStmt _ _ _ _ ih => exact ih.andThen fun _ he => .semicolon fun _ => .exprStmt he
  | @endOfProgram ts hk =>
    intro hw
    cases ts with
    | nil => exact Lays.refl (L := Laid .program []) .endOfProgram hw
    | cons t ts => exact absurd hk (hw t (.head _))
  | program _ _ _ ih ih' => exact ih.andThen fun _ hs => ih'.map fun _ => .program hs

/-- No token of a text gets lost, doubled or out of order in its tree. The tokens that the nodes keep,
from left to right, are some of those of the text, in order, also where the text has errors. Without
errors each of the others is one of the marks, in its place. -/
theorem parse_walk (source : String) :
    (parse source).1.walk.Sublist (Lexer.ofString source).tokens ∧
      ((parse source).2 = [] → ∃ items, Laid .program (parse source).1.statements items ∧
        items.map Item.token = (Lexer.ofString source).tokens ∧
        items.filterMap Item.own? = (parse source).1.walk) := by
  refine ⟨(Parser.program_takes (.ofString source) {}).1, fun h => ?_⟩
  have hw : Whole (Lexer.ofString source).tokens := fun t => Lexer.kind_ne_eof
  obtain ⟨ss, ts', hread⟩ := reads_of_parse h
  obtain ⟨items, hlaid, htokens⟩ := hread.lays hw
  rw [hread.eq_nil hw, List.append_nil] at htokens
  rw [parse_of_reads hread]
  exact ⟨items, hlaid, htokens.symm, hlaid.filterMap_own?⟩

end MonkeyLang
