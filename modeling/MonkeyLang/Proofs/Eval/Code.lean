import MonkeyLang.Eval

/-!
# Code and its parts

`Code` is whatever the evaluator runs, `Code.Child` one step to code that runs as part of it in the
same scope, and `Code.Part` any number of steps: everything outside deeper function literals.
-/

namespace MonkeyLang

/-- Code that is evaluated. -/
inductive Code where
  | expr (e : Expr)
  | stmt (s : Stmt)
  | block (b : Block)
  | program (p : Program)

/-- The site of a child, or the site itself for a step that does not descend. -/
def Site.descend (σ : Site) : Option Nat → Site
  | none => σ
  | some i => σ.child i

namespace Code

/-- The value of some code, given a way to run functions. -/
def eval (call : Closure → List Value → Eval Value) : Code → Place → Eval Value
  | expr e, here => e.eval call here
  | stmt s, here => s.eval call here
  | block b, here => b.eval call here
  | program p, here => p.evalWith call here

/-- `Child c i d`: the code `d` runs as part of `c`, in the same scope, at position `i` below it.
The body of a function literal is no child of it. -/
inductive Child : Code → Option Nat → Code → Prop where
  | unary : Child (expr (.unary t op e)) (some 0) (expr e)
  | left : Child (expr (.binary t l op r)) (some 0) (expr l)
  | right : Child (expr (.binary t l op r)) (some 1) (expr r)
  | condition : Child (expr (.cond t e b alt)) (some 0) (expr e)
  | consequence : Child (expr (.cond t e b alt)) (some 1) (block b)
  | alternative : Child (expr (.cond t e b (some alt))) (some 2) (block alt)
  | callee : Child (expr (.call t f es)) (some 0) (expr f)
  | argument : es[i]? = some e → Child (expr (.call t f es)) (some (i + 1)) (expr e)
  | letValue : Child (stmt (.letStmt t x e)) none (expr e)
  | returnValue : Child (stmt (.returnStmt t e)) none (expr e)
  | exprValue : Child (stmt (.expr t e)) none (expr e)
  | blockBody : Child (stmt (.block b)) none (block b)
  | statement : ss[i]? = some s → Child (block ⟨t, ss⟩) (some i) (stmt s)
  | programStatement : ss[i]? = some s → Child (program ⟨ss⟩) (some i) (stmt s)

theorem Child.unique (h : Child c i d) (h' : Child c i d') : d = d' := by
  cases h with
  | argument he =>
    cases h' with
    | argument he' => rw [Option.some_inj.mp (he.symm.trans he')]
  | statement hs =>
    cases h' with
    | statement hs' => rw [Option.some_inj.mp (hs.symm.trans hs')]
  | programStatement hs =>
    cases h' with
    | programStatement hs' => rw [Option.some_inj.mp (hs.symm.trans hs')]
  | _ => cases h'; rfl

/-- A step that does not descend is the only one. -/
theorem Child.not_descends (h : Child c none d) : ¬Child c (some i) d' := by
  cases h <;> exact nofun

theorem Child.sizeOf_lt (h : Child c i d) : sizeOf d < sizeOf c := by
  cases h with
  | argument he =>
    have := List.sizeOf_lt_of_mem (List.mem_of_getElem? he)
    simp only [expr.sizeOf_spec, Expr.call.sizeOf_spec]
    omega
  | statement hs =>
    have := List.sizeOf_lt_of_mem (List.mem_of_getElem? hs)
    simp only [stmt.sizeOf_spec, block.sizeOf_spec, Block.mk.sizeOf_spec]
    omega
  | programStatement hs =>
    have := List.sizeOf_lt_of_mem (List.mem_of_getElem? hs)
    simp only [stmt.sizeOf_spec, program.sizeOf_spec, Program.mk.sizeOf_spec]
    omega
  | letValue | returnValue | exprValue | blockBody =>
    simp only [stmt.sizeOf_spec, expr.sizeOf_spec, block.sizeOf_spec, Stmt.letStmt.sizeOf_spec,
      Stmt.returnStmt.sizeOf_spec, Stmt.expr.sizeOf_spec, Stmt.block.sizeOf_spec]
    omega
  | _ =>
    simp only [expr.sizeOf_spec, block.sizeOf_spec, Expr.unary.sizeOf_spec,
      Expr.binary.sizeOf_spec, Expr.cond.sizeOf_spec, Expr.call.sizeOf_spec, Option.some.sizeOf_spec]
    omega

/-- Induction over code by its children. -/
theorem induction {P : Code → Prop} (h : ∀ c, (∀ i d, Child c i d → P d) → P c) (c : Code) : P c :=
  h c fun _ d _ => Code.induction h d
termination_by sizeOf c
decreasing_by exact Child.sizeOf_lt ‹_›

/-- Code that runs as part of other code, outside deeper function literals. -/
inductive Part (c : Code) : Code → Prop where
  | refl : Part c c
  | step : Part c d → Child d i e → Part c e

/-- Code binds a name if it is the name of a `let` outside deeper function literals. -/
def Binds (c : Code) (name : String) : Prop :=
  ∃ t x e, c.Part (stmt (.letStmt t x e)) ∧ x.name = name

theorem Part.trans {c d e : Code} (hcd : c.Part d) (hde : d.Part e) : c.Part e := by
  induction hde with
  | refl => exact hcd
  | step _ hs ih => exact ih.step hs

theorem Binds.of_child {c d : Code} (hc : Child c i d) (hd : d.Binds name) : c.Binds name := by
  obtain ⟨t, x, e, hp, hn⟩ := hd
  exact ⟨t, x, e, (Part.refl.step hc).trans hp, hn⟩

end Code

end MonkeyLang
