import MonkeyLang.Proofs.Eval.Budget
import MonkeyLang.Proofs.Eval.Pairing
import MonkeyLang.Proofs.Session

/-!
# A program and a function body

The statements of a program are run in the scope of the program, and those of a function body in a
scope of the call, within the one that the function was made in. Where that is a new scope at the top,
the two come to the same (`program_agrees_call`): all scopes of the call are one level deeper, above a
scope that stays without bindings.
-/

namespace MonkeyLang

/-- The call of a function literal without parameters. -/
def Block.called (b : Block) (function paren : Token) : Expr := .call paren (.function function [] b) []

/-- Calling a function literal is running a new function. -/
theorem Block.eval_called (call : Closure → List Value → Eval Value) (b : Block)
    (function paren : Token) (here : Place) (s : Store) :
    ∃ t, t.heap = s.heap ∧ (b.called function paren).eval call here s =
      call ⟨[], b, here.scope, here.site.child 0⟩ [] t := by
  have hfunction : Eval.Quiet (Expr.eval call (.function function [] b) (here.child 0)) fun _ =>
      .closure ⟨[], b, here.scope, here.site.child 0⟩ := by
    rw [Expr.eval.eq_def]
    exact Eval.Quiet.bind (Eval.quiet_note _ _ _) fun _ => Eval.quiet_pure _
  obtain ⟨t₁, ht₁, hheap₁⟩ := Eval.quiet_note .evaluator .trace
    (fun _ => "Evaluating expression: " ++ (b.called function paren).render) s
  obtain ⟨t₂, ht₂, hheap₂⟩ := hfunction t₁
  refine ⟨t₂, hheap₂.trans hheap₁, ?_⟩
  rw [Expr.eval.eq_def, Eval.bind_apply, ht₁, Option.bind_some, called]
  dsimp only
  rw [Eval.andThen, Eval.bind_apply, ht₂, Expr.evalEach]
  rfl

/-- The first run makes its scopes from `N` on. The second runs one level deeper: it makes its own
after a scope `M`, which nothing is bound in. -/
def Pairing.deeper (N M : ScopeId) : Pairing :=
  .ofNew N (M + 1) (some M) fun _ h => Option.mem_some.mp h ▸ Nat.lt_succ_self M

/-- A new scope at the top and one in such a scope. -/
theorem Heap.paired_deeper (h₁ h₂ : Heap) :
    (h₁.push {}).Paired (.deeper h₁.size h₂.size) 1
      ((h₂.push {}).push { outer := some h₂.size }) := by
  have hstart : h₁.Paired (.deeper h₁.size h₂.size) 0 (h₂.push {}) := by
    refine ⟨rfl, size_push .., fun a b hab => ?_, fun g hg => ?_⟩
    · obtain hab | ⟨k, hk, -⟩ := hab
      · exact hab.elim
      · cases hk
    · cases hg
      rw [scope?_push, if_pos rfl]
  exact hstart.push ⟨.ground rfl (Nat.lt_succ_self _), .nil⟩

/-- The statements of a program in a new scope at the top, and the call of them as a function body in
another one: the call nests one deeper. -/
theorem Stmt.rel_called (n : Nat) (ss : List Stmt) (σ τ : Site) (function paren brace : Token)
    (s t : Store) :
    Option.Rel (fun x y => x.1.Resembles y.1 ∧ y.2.heap.scope? t.heap.size = some {})
      ((Program.mk ss).evalWith (Closure.callWithin .whenUnreachable n) ⟨s.heap.size, σ⟩
        { s with heap := s.heap.push {} })
      ((Block.called ⟨brace, ss⟩ function paren).eval (Closure.callWithin .whenUnreachable (n + 1))
        ⟨t.heap.size, τ⟩ { t with heap := t.heap.push {} }) := by
  obtain ⟨s', f, hs', -, hprogram⟩ := Program.evalWith_apply (Closure.callWithin .whenUnreachable n)
    ⟨ss⟩ ⟨s.heap.size, σ⟩ { s with heap := s.heap.push {} }
  obtain ⟨t', ht', hcalled⟩ := Block.eval_called (Closure.callWithin .whenUnreachable (n + 1))
    ⟨brace, ss⟩ function paren ⟨t.heap.size, τ⟩ { t with heap := t.heap.push {} }
  obtain ⟨t'', g, -, ht'', hg, hcall⟩ := Closure.callWithin_succ .whenUnreachable n
    ⟨[], ⟨brace, ss⟩, t.heap.size, τ.child 0⟩ [] t'
  have hsize : t'.heap.size = t.heap.size + 1 := by rw [ht', Heap.size_push]
  have hscope : t''.heap = (t.heap.push {}).push { outer := some t.heap.size } := by
    rw [ht'', ht']
    rfl
  let P := Pairing.deeper s.heap.size t.heap.size
  have hstart : (paired P s.heap.size (t.heap.size + 1)).heaps (1 : Nat) s'.heap t''.heap :=
    ⟨P.rel_new Nat.one_pos, by rw [hs', hscope]; exact Heap.paired_deeper s.heap t.heap⟩
  have hcode : ∀ k st, ss[k]? = some st → (paired P s.heap.size (t.heap.size + 1)).code (.stmt st)
      (σ.child (0 + k)) ((τ.child 0).child (0 + k)) := fun _ _ _ => trivial
  have hrun := Simulation.runs_stmts (paired_calls P .whenUnreachable n) ss hcode _
    (.data trivial : Value.Paired P 1 .null .null) s' t'' hstart
  rw [hprogram, hcalled, hcall, Block.eval, hsize]
  refine rel_map hrun ?_
  rintro ⟨v, u⟩ ⟨v', u'⟩ ⟨w, -, ⟨-, H⟩, hv⟩
  have halike := hv.landed.alike
  refine ⟨⟨halike.type, halike.render⟩, ?_⟩
  rw [hg, hsize, Heap.scope?_leave_of_ne _ _ _ (Nat.succ_ne_self _)]
  exact H.ground _ rfl

/-! ## Termination -/

/-- In a new scope at the top the code comes to a value, and that scope ends as `top`. -/
def Code.YieldsAlone (c : Code) (σ : Site) (s : Store) (v : Value) (top : Option Scope) : Prop :=
  ∃ E t u, Eval.newScope none s = some (E, t) ∧ c.Yields ⟨E, σ⟩ t v u ∧ u.heap.scope? E = top

theorem Code.YieldsAlone.unique {c : Code} (h : c.YieldsAlone σ s v top)
    (h' : c.YieldsAlone σ s v' top') : v = v' ∧ top = top' := by
  obtain ⟨E, t, u, hE, hc, rfl⟩ := h
  obtain ⟨E', t', u', hE', hc', rfl⟩ := h'
  cases hE.symm.trans hE'
  obtain ⟨rfl, rfl⟩ := hc.unique hc'
  exact ⟨rfl, rfl⟩

section
variable {ss : List Stmt} {s : Store} {v : Value}

/-- If the program ends, so does the call. -/
theorem Code.YieldsAlone.called (h : (Code.program ⟨ss⟩).YieldsAlone σ s v top) (τ : Site)
    (function paren brace : Token) (t : Store) :
    ∃ v', (Code.expr (Block.called ⟨brace, ss⟩ function paren)).YieldsAlone τ t v' (some {}) ∧
      v.Resembles v' := by
  obtain ⟨E, s', u, hE, ⟨n, hn⟩, -⟩ := h
  cases hE
  have hrel := Stmt.rel_called n ss σ τ function paren brace s t
  generalize hp : Program.evalWith _ _ _ _ = p, hq : Expr.eval _ _ _ _ = q at hrel
  cases hp.symm.trans hn
  cases hrel with
  | some h => exact ⟨_, ⟨_, _, _, rfl, ⟨n + 1, hq⟩, h.2⟩, h.1⟩

/-- If the call ends, so does the program. -/
theorem Code.YieldsAlone.of_called
    (h : (Code.expr (Block.called ⟨brace, ss⟩ function paren)).YieldsAlone τ s v top) (σ : Site)
    (t : Store) : ∃ v' top', (Code.program ⟨ss⟩).YieldsAlone σ t v' top' := by
  obtain ⟨E, s', u, hE, ⟨n, hn⟩, -⟩ := h
  cases hE
  have hn := Code.eval_mono .whenUnreachable (Nat.le_succ n) _ _ _ _ hn
  have hrel := Stmt.rel_called n ss σ τ function paren brace t s
  generalize hp : Program.evalWith _ _ _ _ = p, hq : Expr.eval _ _ _ _ = q at hrel
  cases hq.symm.trans hn
  cases hrel with
  | some h => exact ⟨_, _, _, _, _, rfl, ⟨n, hp⟩, rfl⟩

end

/-- Statements agree as a program and as a function body. In new scopes at the top, the program ends
exactly if the call does; the two values are of one variant with one text, and the call leaves its
scope at the top without bindings. -/
theorem program_agrees_call (ss : List Stmt) (σ τ : Site) (function paren brace : Token)
    (s t : Store) :
    ((∃ v top, (Code.program ⟨ss⟩).YieldsAlone σ s v top) ↔
      ∃ v top, (Code.expr (Block.called ⟨brace, ss⟩ function paren)).YieldsAlone τ t v top) ∧
    ∀ v top v' top', (Code.program ⟨ss⟩).YieldsAlone σ s v top →
      (Code.expr (Block.called ⟨brace, ss⟩ function paren)).YieldsAlone τ t v' top' →
      v.Resembles v' ∧ top' = some {} := by
  refine ⟨⟨fun ⟨v, top, h⟩ => ?_, fun ⟨v, top, h⟩ => h.of_called σ s⟩, fun v top v' top' h h' => ?_⟩
  · obtain ⟨v', h', -⟩ := h.called τ function paren brace t
    exact ⟨v', _, h'⟩
  · obtain ⟨u, hu, hv⟩ := h.called τ function paren brace t
    obtain ⟨rfl, rfl⟩ := hu.unique h'
    exact ⟨hv, rfl⟩

/-- Statements that return a function which has the scope of a call. -/
def returningFunction : List Stmt :=
  (parse "let make = fn(n) \x7b fn() \x7b n \x7d \x7d; return make(1); 5").1.statements

theorem program_agrees_call_returningFunction :
    ∃ v top v', v.render = "fn() \x7b\nn\n\x7d" ∧
      (Code.program ⟨returningFunction⟩).YieldsAlone ⟨0, []⟩ {} v top ∧
      (Code.expr (Block.called ⟨⟨.lbrace, "\x7b"⟩, returningFunction⟩ ⟨.fnWord, "fn"⟩
        ⟨.lparen, "("⟩)).YieldsAlone ⟨0, []⟩ {} v' (some {}) ∧ v.Resembles v' := by
  have hrender : ((Code.program ⟨returningFunction⟩).eval (Closure.callWithin .whenUnreachable 1)
      ⟨0, ⟨0, []⟩⟩ ⟨Heap.push {} {}, {}⟩).map (·.1.render) = some "fn() \x7b\nn\n\x7d" := by
    decide +kernel
  obtain ⟨⟨v, u⟩, heval, hv⟩ := Option.map_eq_some_iff.mp hrender
  have hprogram : (Code.program ⟨returningFunction⟩).YieldsAlone ⟨0, []⟩ {} v (u.heap.scope? 0) :=
    ⟨_, _, _, rfl, ⟨1, heval⟩, rfl⟩
  have hagree := program_agrees_call returningFunction ⟨0, []⟩ ⟨0, []⟩ ⟨.fnWord, "fn"⟩ ⟨.lparen, "("⟩
    ⟨.lbrace, "\x7b"⟩ {} {}
  obtain ⟨v', top, hcall⟩ := hagree.1.mp ⟨v, _, hprogram⟩
  obtain ⟨hsame, rfl⟩ := hagree.2 _ _ _ _ hprogram hcall
  exact ⟨v, _, v', hv, hprogram, hcall, hsame⟩

end MonkeyLang
