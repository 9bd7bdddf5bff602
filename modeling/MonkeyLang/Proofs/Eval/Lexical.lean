import Mathlib.Logic.Relation
import MonkeyLang.Proofs.Eval.Code

/-!
# Where code lies in a program

`Program.Lies` says which function literals some code of a program lies inside, innermost first. The
site of code tells them (`Program.Lies.unique`): the few pieces of code that share a site lie beside
each other, from a statement over its expression to the body of the literal that this may be.
-/

namespace MonkeyLang

/-- A function literal, by its site. -/
structure Literal where
  parameters : List Identifier
  body : Block
  site : Site

/-- The names that calls of a literal may bind in their scopes. -/
def Literal.Names (L : Literal) (name : String) : Prop :=
  (∃ x ∈ L.parameters, x.name = name) ∨ (Code.block L.body).Binds name

/-- The literal that a function came from. -/
def Closure.literal (c : Closure) : Literal := ⟨c.parameters, c.body, c.site⟩

/-- `Lies p σ₀ nest c σ`: in the program `p` with its root at `σ₀` the code `c` at the site `σ` lies
inside the literals `nest`. -/
inductive Program.Lies (p : Program) (σ₀ : Site) : List Literal → Code → Site → Prop
  | root : Lies p σ₀ [] (.program p) σ₀
  | child : p.Lies σ₀ nest c σ → c.Child i d → p.Lies σ₀ nest d (σ.descend i)
  | body : p.Lies σ₀ nest (.expr (.function t xs b)) σ → p.Lies σ₀ (⟨xs, b, σ⟩ :: nest) (.block b) σ

variable {p : Program} {σ₀ : Site}

/-- Code within a literal is part of its body. -/
theorem Program.Lies.part (h : p.Lies σ₀ (L :: nest) c σ) : (Code.block L.body).Part c := by
  generalize hn : L :: nest = nest' at h
  induction h with
  | root => cases hn
  | child _ hc ih => exact (ih hn).step hc
  | body => cases hn; exact .refl

/-! ## Code of one site -/

/-- Two pieces of code, with the literals around them, of one site `σ`. -/
inductive Beside (σ : Site) : List Literal × Code → List Literal × Code → Prop
  | child : c.Child none d → Beside σ (nest, c) (nest, d)
  | body : Beside σ (nest, .expr (.function t xs b)) (⟨xs, b, σ⟩ :: nest, .block b)

theorem Beside.unique (h : Beside σ a b) (h' : Beside σ a b') : b = b' := by
  cases h with
  | child hc =>
    cases h' with
    | child hc' => rw [hc.unique hc']
    | body => cases hc
  | body =>
    cases h' with
    | child hc => cases hc
    | body => rfl

theorem Beside.not_descends (h : Beside σ a b) : ¬a.2.Child (some i) d := by
  cases h with
  | child hc => exact hc.not_descends
  | body => exact nofun

theorem Beside.sizeOf_lt (h : Beside σ a b) : sizeOf b.2 < sizeOf a.2 := by
  cases h with
  | child hc => exact hc.sizeOf_lt
  | body =>
    simp only [Code.block.sizeOf_spec, Code.expr.sizeOf_spec, Expr.function.sizeOf_spec]
    omega

/-- The first code of its site: the root, or code that a step descends to. -/
inductive Program.Starts (p : Program) (σ₀ : Site) : List Literal × Code → Site → Prop
  | root : p.Starts σ₀ ([], .program p) σ₀
  | descend : p.Lies σ₀ nest c σ → c.Child (some i) d → p.Starts σ₀ (nest, d) (σ.child i)

theorem Program.Lies.exists_starts (h : p.Lies σ₀ nest c σ) :
    ∃ a, p.Starts σ₀ a σ ∧ Relation.ReflTransGen (Beside σ) a (nest, c) := by
  induction h with
  | root => exact ⟨_, .root, .refl⟩
  | @child _ _ _ i _ h hc ih =>
    cases i with
    | none =>
      obtain ⟨a, ha, hr⟩ := ih
      exact ⟨a, ha, hr.tail (.child hc)⟩
    | some i => exact ⟨_, .descend h hc, .refl⟩
  | body _ ih =>
    obtain ⟨a, ha, hr⟩ := ih
    exact ⟨a, ha, hr.tail .body⟩

theorem Program.Lies.length_le (h : p.Lies σ₀ nest c σ) : σ₀.path.length ≤ σ.path.length := by
  induction h with
  | root => exact Nat.le_refl _
  | @child _ _ _ i _ _ _ ih =>
    cases i with
    | none => exact ih
    | some i => exact Nat.le_succ_of_le ih
  | body _ ih => exact ih

theorem Site.child_inj {σ τ : Site} (h : σ.child i = τ.child j) : i = j ∧ σ = τ := by
  cases σ; cases τ
  simp_all [Site.child]

/-- A site has one first code, if whatever shares the site above does so on one way. -/
theorem Program.Starts.unique (h : p.Starts σ₀ a σ) (h' : p.Starts σ₀ b σ') (hσ : σ' = σ)
    (hlinear : ∀ τ i nest c nest' c', σ = Site.child τ i → p.Lies σ₀ nest c τ →
      p.Lies σ₀ nest' c' τ → Relation.ReflTransGen (Beside τ) (nest, c) (nest', c') ∨
        Relation.ReflTransGen (Beside τ) (nest', c') (nest, c)) : a = b := by
  have hroot : ∀ {nest c τ i}, p.Lies σ₀ nest c τ → σ₀ ≠ Site.child τ i := by
    intro nest c τ i hl heq
    have := hl.length_le
    rw [heq] at this
    exact Nat.not_succ_le_self _ this
  cases h with
  | root =>
    cases h' with
    | root => rfl
    | descend hl _ => exact absurd hσ.symm (hroot hl)
  | descend hl hc =>
    cases h' with
    | root => exact absurd hσ (hroot hl)
    | descend hl' hc' =>
      obtain ⟨rfl, rfl⟩ := Site.child_inj hσ
      rcases hlinear _ _ _ _ _ _ rfl hl hl' with hs | hs
      · rcases hs.cases_head with heq | ⟨x, hx, -⟩
        · cases heq
          rw [hc.unique hc']
        · exact absurd hc hx.not_descends
      · rcases hs.cases_head with heq | ⟨x, hx, -⟩
        · cases heq
          rw [hc.unique hc']
        · exact absurd hc' hx.not_descends

/-- Of two pieces of code of one site, one leads to the other. -/
theorem Program.Lies.linear (h : p.Lies σ₀ nest c σ) (h' : p.Lies σ₀ nest' c' σ) :
    Relation.ReflTransGen (Beside σ) (nest, c) (nest', c') ∨
      Relation.ReflTransGen (Beside σ) (nest', c') (nest, c) := by
  generalize hn : σ.path.length = n
  induction n using Nat.strongRecOn generalizing σ nest c nest' c' with
  | ind n ih =>
    obtain ⟨a, ha, hr⟩ := h.exists_starts
    obtain ⟨b, hb, hr'⟩ := h'.exists_starts
    have hab : a = b := by
      refine ha.unique hb rfl fun τ i _ _ _ _ hσ hl hl' => ih _ ?_ hl hl' rfl
      rw [← hn, hσ]
      exact Nat.lt_succ_self _
    subst hab
    exact hr.total_of_right_unique (fun _ _ _ => Beside.unique) hr'

theorem Beside.sizeOf_le (h : Relation.ReflTransGen (Beside σ) a b) : sizeOf b.2 ≤ sizeOf a.2 := by
  induction h with
  | refl => exact Nat.le_refl _
  | tail _ hs ih => exact Nat.le_trans (Nat.le_of_lt hs.sizeOf_lt) ih

theorem Beside.eq_of_code (h : Relation.ReflTransGen (Beside σ) (nest, c) (nest', c)) :
    nest = nest' := by
  rcases h.cases_head with heq | ⟨a, ha, hr⟩
  · cases heq
    rfl
  · have hle : sizeOf c ≤ sizeOf a.2 := sizeOf_le hr
    exact absurd ha.sizeOf_lt (Nat.not_lt.mpr hle)

/-- The site of code tells which literals it lies inside. -/
theorem Program.Lies.unique (h : p.Lies σ₀ nest c σ) (h' : p.Lies σ₀ nest' c σ) : nest = nest' :=
  (h.linear h').elim Beside.eq_of_code fun hr => (Beside.eq_of_code hr).symm

end MonkeyLang
