import Mathlib.Data.List.Forall2
import MonkeyLang.Proofs.Syntax.Printing
import MonkeyLang.Proofs.Token.Spaced
import MonkeyLang.Syntax.Render

/-!
# The tokens of rendered trees

A rendered tree spells the tokens `renderTokens` (`Program.spells_render`). It writes no semicolon after
an expression statement, and the condition of an `if` only has the parentheses of its own operator. So
a rendering says what the tree was if every expression statement is the last of its list and every
condition has an operator (`renderable`).
-/

namespace MonkeyLang

/-- The outermost construct is an operator with its operands. -/
def Expr.isOperation : Expr → Bool
  | .unary .. | .binary .. => true
  | _ => false

def Stmt.isExpr : Stmt → Bool
  | .expr .. => true
  | _ => false

mutual

/-- At every depth, an expression statement is the last of its list and a condition is an operation. -/
def Expr.renderable : Expr → Bool
  | .ident _ | .int .. | .bool .. => true
  | .unary _ _ e => e.renderable
  | .binary _ l _ r => l.renderable && r.renderable
  | .cond _ c b none => c.isOperation && c.renderable && b.renderable
  | .cond _ c b (some a) => c.isOperation && c.renderable && b.renderable && a.renderable
  | .function _ _ b => b.renderable
  | .call _ f es => f.renderable && Expr.eachRenderable es

def Expr.eachRenderable : List Expr → Bool
  | [] => true
  | e :: es => e.renderable && Expr.eachRenderable es

def Stmt.renderable : Stmt → Bool
  | .letStmt _ _ e | .returnStmt _ e | .expr _ e => e.renderable
  | .block b => b.renderable

def Block.renderable : Block → Bool
  | ⟨_, ss⟩ => Stmt.eachRenderable ss

def Stmt.eachRenderable : List Stmt → Bool
  | [] => true
  | s :: ss => s.renderable && (!s.isExpr || ss.isEmpty) && Stmt.eachRenderable ss

end

def Program.renderable (p : Program) : Bool := Stmt.eachRenderable p.statements

/-- Lists of tokens with commas between them. -/
def commaTokens : List (List Token) → List Token
  | [] => []
  | ts :: tss => ts ++ tss.flatMap (Kind.comma.token :: ·)

theorem parameterTokens_eq (xs : List Identifier) :
    parameterTokens xs = commaTokens (xs.map fun x => [x.token]) := by
  cases xs with
  | nil => rfl
  | cons x xs => simp [parameterTokens, commaTokens, List.flatMap_map]

mutual

/-- The tokens that a tree is rendered with. -/
def Expr.renderTokens : Expr → List Token
  | .ident x => [x.token]
  | .int t _ => [t]
  | .bool t _ => [t]
  | .unary t _ e => Kind.lparen.token :: (t :: e.renderTokens ++ [Kind.rparen.token])
  | .binary t l _ r =>
    Kind.lparen.token :: (l.renderTokens ++ t :: r.renderTokens ++ [Kind.rparen.token])
  | .cond t c b none => t :: (c.renderTokens ++ b.renderTokens)
  | .cond t c b (some a) =>
    t :: (c.renderTokens ++ (b.renderTokens ++ Kind.elseWord.token :: a.renderTokens))
  | .function t xs b =>
    t :: Kind.lparen.token :: (parameterTokens xs ++ Kind.rparen.token :: b.renderTokens)
  | .call t f es =>
    f.renderTokens ++ t :: (commaTokens (Expr.renderTokensEach es) ++ [Kind.rparen.token])

def Expr.renderTokensEach : List Expr → List (List Token)
  | [] => []
  | e :: es => e.renderTokens :: Expr.renderTokensEach es

def Stmt.renderTokens : Stmt → List Token
  | .letStmt t x e =>
    t :: x.token :: Kind.assign.token :: (e.renderTokens ++ [Kind.semicolon.token])
  | .returnStmt t e => t :: (e.renderTokens ++ [Kind.semicolon.token])
  | .expr _ e => e.renderTokens
  | .block b => b.renderTokens

def Block.renderTokens : Block → List Token
  | ⟨t, ss⟩ => t :: (Stmt.renderTokensAll ss ++ [Kind.rbrace.token])

def Stmt.renderTokensAll : List Stmt → List Token
  | [] => []
  | s :: ss => s.renderTokens ++ Stmt.renderTokensAll ss

end

def Program.renderTokens (p : Program) : List Token := Stmt.renderTokensAll p.statements

/-! ## Texts that spell tokens -/

/-- The text spells the tokens, and each of them is spelled in a way that its kind allows. -/
structure Spells (ts : List Token) (text : String) : Prop where
  spaced : Spaced ts text
  spelled : ∀ t ∈ ts, t.Spelled

theorem IsBlank.append (h : IsBlank s) (h' : IsBlank s') : IsBlank (s ++ s') := by
  intro c hc
  rw [String.toList_append, List.mem_append] at hc
  exact hc.elim (h c) (h' c)

namespace Spells

theorem blank (hs : IsBlank s) (h : Spells ts text) : Spells ts (s ++ text) := by
  obtain ⟨hspaced, hspelled⟩ := h
  refine ⟨?_, hspelled⟩
  cases hspaced with
  | nil hs' => exact .nil (hs.append hs')
  | cons hs' hend h =>
    rw [← String.append_assoc, ← String.append_assoc]
    exact .cons (hs.append hs') hend h

theorem token (ht : t.Spelled) (hend : t.endsBefore text) (h : Spells ts text) :
    Spells (t :: ts) (t.literal ++ text) := by
  refine ⟨?_, List.forall_mem_cons.mpr ⟨ht, h.spelled⟩⟩
  have hspaced := Spaced.cons (s := "") (by decide) hend h.spaced
  rwa [String.empty_append] at hspaced

/-- A piece of text that spells a mark or a reserved word with blanks around it. -/
theorem piece {s : String} (k : Kind) (before after : String)
    (hend : k.token.endsBefore (after ++ text)) (h : Spells ts text)
    (hs : before ++ (k.text ++ after) = s := by decide) (hbefore : IsBlank before := by decide)
    (hafter : IsBlank after := by decide)
    (hk : k ∉ [Kind.illegal, .eof, .ident, .int] := by decide) :
    Spells (k.token :: ts) (s ++ text) := by
  rw [← hs, String.append_assoc, String.append_assoc]
  exact blank hbefore (token (spelled_token hk) hend (blank hafter h))

end Spells

/-- Any token ends before the text. -/
def Parted (text : String) : Prop := ∀ t : Token, t.endsBefore text

theorem parted_empty : Parted "" := by
  intro t
  unfold Token.endsBefore
  split <;> rfl

/-- A text that starts with neither a letter nor a digit nor an equals sign. -/
theorem parted_append (text : String)
    (hs : s.toList.head?.any (fun c => !isWordLetter c && !c.isDigit && c != '=') := by decide) :
    Parted (s ++ text) := by
  intro t
  cases hcs : s.toList with
  | nil =>
    rw [hcs] at hs
    cases hs
  | cons c cs =>
    have hhead : (s ++ text).toList.head? = some c := by
      rw [String.toList_append, hcs]
      rfl
    rw [hcs] at hs
    simp only [List.head?_cons, Option.any_some, Bool.and_eq_true, bne] at hs
    obtain ⟨⟨hletter, hdigit⟩, hequal⟩ := hs
    unfold Token.endsBefore
    rw [hhead]
    split <;> first | exact hletter | exact hdigit | exact hequal | rfl

/-- The text `s` spells the tokens `ts`, whatever is spelled after it, apart from it. -/
def Writes (ts : List Token) (s : String) : Prop :=
  ∀ ⦃ts' text⦄, Parted text → Spells ts' text → Spells (ts ++ ts') (s ++ text)

theorem Writes.token (ht : t.Spelled) : Writes [t] t.literal := fun _ _ htext h =>
  h.token ht (htext t)

/-- What is written with commas before it, after something else. -/
theorem Writes.append_commas (hs : Writes ts s) (h : List.Forall₂ Writes tss ss) :
    Writes (ts ++ tss.flatMap (Kind.comma.token :: ·)) (", ".intercalate (s :: ss)) := by
  induction h generalizing ts s with
  | nil => simpa using hs
  | @cons ts₁ s₁ tss ss hs₁ _ ih =>
    intro ts' text htext h
    have hcomma := (ih hs₁ htext h).piece (s := ", ") .comma "" " " rfl
    have hall := hs (parted_append _) hcomma
    simpa [String.intercalate_cons_cons, String.append_assoc] using hall

theorem Writes.commas (h : List.Forall₂ Writes tss ss) :
    Writes (commaTokens tss) (", ".intercalate ss) := by
  cases h with
  | nil =>
    intro ts' text _ h
    simpa [commaTokens] using h
  | cons hs h => exact hs.append_commas h

theorem Writes.parameters (hxs : ∀ x ∈ xs, x.WellFormed) :
    Writes (parameterTokens xs) (renderNames xs) := by
  rw [parameterTokens_eq, renderNames]
  refine .commas ?_
  induction xs with
  | nil => exact .nil
  | cons x xs ih =>
    have hx := hxs x (.head _)
    have hname : x.name = x.token.literal := by rw [hx.1]; rfl
    rw [List.map_cons, List.map_cons, hname]
    exact .cons (.token hx.spelled) (ih fun y hy => hxs y (.tail _ hy))

/-! ## Rendered trees -/

/-- A text of characters that are not equals signs does not go on with an exclamation mark. -/
theorem bang_endsBefore_append {f : Char → Bool} (hne : s.toList ≠ []) (hs : s.toList.all f)
    (text : String) (hf : f '=' = false := by decide) : Kind.bang.token.endsBefore (s ++ text) := by
  obtain ⟨c, cs, hcs⟩ := List.exists_cons_of_ne_nil hne
  have hc : f c := List.all_eq_true.mp hs c (hcs ▸ .head _)
  have hequal : (c == '=') = false := by
    rw [beq_eq_false_iff_ne]
    rintro rfl
    rw [hf] at hc
    cases hc
  show (!(s ++ text).toList.head?.any (· == '=')) = true
  rw [String.toList_append, hcs, List.cons_append, List.head?_cons, Option.any_some, hequal]
  rfl

theorem Expr.bang_endsBefore_render : ∀ e : Expr, e.WellFormed → ∀ text,
    Kind.bang.token.endsBefore (e.render ++ text)
  | .ident x, hw, text => by
    have hname : x.name = x.token.literal := by rw [hw.1]; rfl
    rw [Expr.render, hname]
    exact bang_endsBefore_append hw.2.2.1 hw.2.2.2.1 text
  | .int t _, hw, text => bang_endsBefore_append hw.2.1.1 hw.2.1.2 text
  | .bool t b, hw, text => by
    obtain rfl : t = _ := hw
    cases b <;> exact bang_endsBefore_append (f := (· != '=')) (by decide) (by decide) text
  | .unary .., _, text | .binary .., _, text | .cond _ _ _ none, _, text
  | .cond _ _ _ (some _), _, text => by
    simp only [Expr.render, String.append_assoc]
    exact bang_endsBefore_append (f := (· != '=')) (by decide) (by decide) _
  | .function .., hw, text => by
    obtain ⟨rfl, -⟩ := hw
    simp only [Expr.render, String.append_assoc]
    exact bang_endsBefore_append (f := (· != '=')) (by decide) (by decide) _
  | .call _ f _, hw, text => by
    simp only [Expr.render, String.append_assoc]
    exact f.bang_endsBefore_render hw.2.1 _

mutual

/-- A rendered tree spells its tokens. -/
theorem Expr.writes : ∀ e : Expr, e.WellFormed → e.renderable → Writes e.renderTokens e.render
  | .ident x, hw, _ => by
    have hname : x.name = x.token.literal := by rw [hw.1]; rfl
    rw [Expr.render, hname]
    exact .token hw.spelled
  | .int t _, hw, _ => by
    refine .token ?_
    rw [Token.Spelled, hw.1]
    exact hw.2.1
  | .bool t b, hw, _ => by
    refine .token ?_
    obtain rfl : t = _ := hw
    cases b <;> exact spelled_token (by decide)
  | .unary t op e, hw, hr => by
    obtain ⟨ht, rfl, hw⟩ := hw
    intro ts text _ h
    simp only [Expr.render, Expr.renderTokens, String.append_assoc, List.append_assoc,
      List.cons_append, List.nil_append]
    have he := e.writes hw hr (parted_append _) (h.piece (s := ")") .rparen "" "" rfl)
    refine .piece .lparen "" "" rfl ?_
    rcases ht with rfl | rfl
    · exact he.token (spelled_token (by decide)) (e.bang_endsBefore_render hw _)
    · exact he.token (spelled_token (by decide)) rfl
  | .binary t l op r, hw, hr => by
    obtain ⟨hop, ht, rfl, hwl, hwr⟩ := hw
    simp only [Expr.renderable, Bool.and_eq_true] at hr
    intro ts text _ h
    simp only [Expr.render, Expr.renderTokens, String.append_assoc, List.append_assoc,
      List.cons_append, List.nil_append]
    have hright := r.writes hwr hr.2 (parted_append _) (h.piece (s := ")") .rparen "" "" rfl)
    have hoperator := (hright.blank (s := " ") (by decide)).token
      (Token.spelled_of_mem_binaryOperators hop ht) (t.endsBefore_space _)
    exact .piece .lparen "" "" rfl
      (l.writes hwl hr.1 (parted_append _) (hoperator.blank (by decide)))
  | .cond t c b none, hw, hr => by
    obtain ⟨rfl, hwc, hwb⟩ := hw
    simp only [Expr.renderable, Bool.and_eq_true] at hr
    intro ts text _ h
    simp only [Expr.render, Expr.renderTokens, String.append_assoc, List.append_assoc,
      List.cons_append]
    have hb := b.writes_braced hwb hr.2 h
    exact .piece .ifWord "" " " (Token.endsBefore_space ..)
      (c.writes hwc hr.1.2 (parted_append _) (hb.blank (by decide)))
  | .cond t c b (some a), hw, hr => by
    obtain ⟨rfl, hwc, hwb, hwa⟩ := hw
    simp only [Expr.renderable, Bool.and_eq_true] at hr
    intro ts text _ h
    simp only [Expr.render, Expr.renderTokens, String.append_assoc, List.append_assoc,
      List.cons_append]
    have helse := (a.writes_braced hwa hr.2 h).piece (s := " else ") .elseWord " " " "
      (Token.endsBefore_space ..)
    have hb := b.writes_braced hwb hr.1.2 helse
    exact .piece .ifWord "" " " (Token.endsBefore_space ..)
      (c.writes hwc hr.1.1.2 (parted_append _) (hb.blank (by decide)))
  | .function t xs b, hw, hr => by
    obtain ⟨rfl, hxs, hwb⟩ := hw
    intro ts text _ h
    simp only [Expr.render, Expr.renderTokens, String.append_assoc, List.append_assoc,
      List.cons_append]
    have hb := (b.writes_braced hwb hr h).piece (s := ") ") .rparen "" " " rfl
    have hparameters := Writes.parameters hxs (parted_append _) hb
    exact (hparameters.piece (s := "(") .lparen "" "" rfl).token (spelled_token (by decide))
      ((parted_append _) _)
  | .call t f es, hw, hr => by
    obtain ⟨rfl, hwf, hwes⟩ := hw
    simp only [Expr.renderable, Bool.and_eq_true] at hr
    intro ts text _ h
    simp only [Expr.render, Expr.renderTokens, String.append_assoc, List.append_assoc,
      List.cons_append, List.nil_append]
    have harguments := Writes.commas (Expr.writes_each es hwes hr.2) (parted_append _)
      (h.piece (s := ")") .rparen "" "" rfl)
    exact f.writes hwf hr.1 (parted_append _) (harguments.piece .lparen "" "" rfl)

theorem Expr.writes_each : ∀ es : List Expr, Expr.EachWellFormed es → Expr.eachRenderable es →
    List.Forall₂ Writes (Expr.renderTokensEach es) (Expr.renderEach es)
  | [], _, _ => .nil
  | e :: es, hw, hr => by
    simp only [Expr.eachRenderable, Bool.and_eq_true] at hr
    exact .cons (e.writes hw.1 hr.1) (Expr.writes_each es hw.2 hr.2)

theorem Stmt.writes : ∀ s : Stmt, s.WellFormed → s.renderable → ∀ ⦃ts text⦄,
    (s.isExpr → Parted text) → Spells ts text → Spells (s.renderTokens ++ ts) (s.render ++ text)
  | .letStmt t x e, hw, hr, ts, text, _, h => by
    obtain ⟨rfl, hx, hw⟩ := hw
    have hname : x.name = x.token.literal := by rw [hx.1]; rfl
    simp only [Stmt.render, Stmt.renderTokens, String.append_assoc, List.append_assoc,
      List.cons_append, List.nil_append, hname]
    have he := e.writes hw hr (parted_append _) (h.piece (s := ";") .semicolon "" "" rfl)
    have hassign := he.piece (s := " = ") .assign " " " " (Token.endsBefore_space ..)
    have hlet := (hassign.token hx.spelled ((parted_append _) _)).blank (s := " ") (by decide)
    exact hlet.token (spelled_token (by decide)) (Token.endsBefore_space ..)
  | .returnStmt t e, hw, hr, ts, text, _, h => by
    obtain ⟨rfl, hw⟩ := hw
    simp only [Stmt.render, Stmt.renderTokens, String.append_assoc, List.append_assoc,
      List.cons_append, List.nil_append]
    have he := e.writes hw hr (parted_append _) (h.piece (s := ";") .semicolon "" "" rfl)
    exact (he.blank (s := " ") (by decide)).token (spelled_token (by decide))
      (Token.endsBefore_space ..)
  | .expr _ e, hw, hr, ts, text, htext, h => e.writes hw hr (htext rfl) h
  | .block b, hw, hr, ts, text, _, h => b.writes_braced hw hr h

theorem Block.writes_braced : ∀ b : Block, b.WellFormed → b.renderable → ∀ ⦃ts text⦄,
    Spells ts text → Spells (b.renderTokens ++ ts) (braced b.render ++ text)
  | ⟨t, ss⟩, hw, hr, ts, text, h => by
    obtain ⟨rfl, hws⟩ := hw
    simp only [braced, Block.render, Block.renderTokens, String.append_assoc, List.append_assoc,
      List.cons_append, List.nil_append]
    have hss := Stmt.writes_all ss hws hr (parted_append _)
      (h.piece (s := " \x7d") .rbrace " " "" rfl)
    exact hss.piece .lbrace "" " " rfl

theorem Stmt.writes_all : ∀ ss : List Stmt, Stmt.EachWellFormed ss → Stmt.eachRenderable ss →
    Writes (Stmt.renderTokensAll ss) (Stmt.renderAll ss)
  | [], _, _ => by
    intro ts text _ h
    simpa [Stmt.renderTokensAll, Stmt.renderAll] using h
  | s :: ss, hw, hr => by
    intro ts text htext h
    simp only [Stmt.eachRenderable, Bool.and_eq_true, Bool.or_eq_true, Bool.not_eq_true',
      List.isEmpty_iff] at hr
    obtain ⟨⟨hrs, hlast⟩, hrss⟩ := hr
    simp only [Stmt.renderAll, Stmt.renderTokensAll, String.append_assoc, List.append_assoc]
    refine s.writes hw.1 hrs (fun hexpr => ?_) (Stmt.writes_all ss hw.2 hrss htext h)
    obtain rfl : ss = [] := hlast.resolve_left (by simp [hexpr])
    simpa [Stmt.renderAll] using htext

end

/-- A rendered program spells its tokens. -/
theorem Program.spells_render {p : Program} (hw : p.WellFormed) (hr : p.renderable) :
    Spells p.renderTokens p.render := by
  have hspells := Stmt.writes_all p.statements hw hr parted_empty ⟨.nil (by decide), nofun⟩
  rwa [List.append_nil, String.append_empty] at hspells

end MonkeyLang
