import MonkeyLang.Proofs.Eval.Shift
import MonkeyLang.Proofs.Parser.Append
import MonkeyLang.Session

/-!
# A session and a script agree

Texts that end with a statement can be run one after the other or joined to one text
(`session_agrees_script`). The joined text is read as the statements of its parts, one after the other
(`parse_intercalate`), and each part runs as its statements do in the joined text, for neither the site
of code nor the names of scopes make a difference (`run_evalAll`). A signal ends the joined text where
it ends the part.
-/

namespace MonkeyLang

/-! ## Statements one after the other -/

theorem Eval.andThen_assoc (x : Eval Value) (f g : Value → Eval Value) :
    Eval.andThen (Eval.andThen x f) g = Eval.andThen x fun v => Eval.andThen (f v) g := by
  unfold Eval.andThen
  rw [bind_assoc]
  refine bind_congr fun v => ?_
  cases hv : v.isSignal with
  | true => simp [hv]
  | false => simp

theorem Eval.andThen_congr {x : Eval Value} {f g : Value → Eval Value}
    (h : ∀ v, v.isSignal = false → f v = g v) : Eval.andThen x f = Eval.andThen x g := by
  unfold Eval.andThen
  refine bind_congr fun v => ?_
  cases hv : v.isSignal with
  | true => rfl
  | false => exact h v hv

theorem Stmt.evalAll_append (call : Closure → List Value → Eval Value) (ss ss' : List Stmt)
    (here : Place) (i : Nat) {v : Value} (hv : v.isSignal = false) :
    evalAll call (ss ++ ss') here i v =
      Eval.andThen (evalAll call ss here i v) (evalAll call ss' here (i + ss.length)) := by
  induction ss generalizing i v with
  | nil =>
    rw [List.nil_append, evalAll, Eval.andThen, pure_bind, if_neg (by simp [hv])]
    rfl
  | cons s ss ih =>
    rw [List.cons_append, evalAll, evalAll, Eval.andThen_assoc]
    refine Eval.andThen_congr fun u hu => ?_
    rw [ih (i + 1) hu, List.length_cons, Nat.add_right_comm, Nat.add_assoc]

theorem Stmt.evalAll_last (call : Closure → List Value → Eval Value) (hss : ss ≠ []) (here : Place)
    (i : Nat) (v v' : Value) : evalAll call ss here i v = evalAll call ss here i v' := by
  obtain ⟨s, ss, rfl⟩ := List.exists_cons_of_ne_nil hss
  rw [evalAll, evalAll]

/-! ## Sessions -/

namespace Session

/-- The value of a name in one scope alone. -/
def binding? (s : Session) (scope : ScopeId) (name : String) : Option Value :=
  (s.store.heap.scope? scope).bind (·.get? name)

/-- Whether a text that is run in a scope ends early, in an error or through a `return` at the top
level. -/
def endsEarly (n : Nat) (scope : ScopeId) (source : String) (s : Session) : Bool :=
  match s.parse source with
  | (.error _, _) => false
  | (.ok program, s) =>
    (Stmt.evalAll (Closure.callWithin .whenUnreachable n) program.statements ⟨scope, s.newText.1⟩ 0
      .null s.store).any (·.1.isSignal)

/-- Runs texts one after the other in a scope, up to the first that ends early. Gives the value of
the last text that parsed, and `last` if there was none. -/
def runUntil (n : Nat) (scope : ScopeId) (last : Value) :
    List String → Session → Option (Value × Session)
  | [], s => some (last, s)
  | source :: rest, s =>
    match s.run n scope source with
    | none => none
    | some (.error _, t) => runUntil n scope last rest t
    | some (.ok v, t) =>
      if s.endsEarly n scope source then some (v, t) else runUntil n scope v rest t

variable (s : Session)

theorem parse_of_noErrors (h : (MonkeyLang.parse source).2 = []) :
    ∃ log, s.parse source =
      (.ok (MonkeyLang.parse source).1, { s with store := { s.store with log } }) := by
  obtain ⟨ss, ts', hread⟩ := reads_of_parse h
  obtain ⟨hprogram, herrors⟩ := Parser.program_of_reads hread s.store.log
  rw [parse_of_reads hread, Session.parse]
  simp only [hprogram, herrors]
  exact ⟨_, rfl⟩

theorem parse_of_errors (h : (MonkeyLang.parse source).2 ≠ []) :
    ∃ e log, s.parse source = (.error e, { s with store := { s.store with log } }) := by
  have herrors : ¬((Parser.ofLexer (.ofString source) s.store.log).program.2.errors.isEmpty) := by
    intro hempty
    obtain ⟨ss, ts', hread⟩ := Parser.reads_of_program s.store.log (by simpa using hempty)
    exact h (by rw [parse_of_reads hread])
  rw [Session.parse]
  simp only [herrors]
  exact ⟨_, _, rfl⟩

/-- A text that does not parse changes nothing but the log. -/
theorem run_of_errors (n : Nat) (scope : ScopeId) (h : (MonkeyLang.parse source).2 ≠ []) :
    ∃ e t, s.run n scope source = some (.error e, t) ∧ t.store.heap = s.store.heap := by
  obtain ⟨e, log, hparse⟩ := s.parse_of_errors h
  rw [run, hparse]
  exact ⟨e, _, rfl, rfl⟩

/-- The run of a text that parses is that of its statements. -/
theorem run_of_noErrors (n : Nat) (scope : ScopeId) (h : (MonkeyLang.parse source).2 = []) :
    ∃ (u : Store) (f : Value → Store → Session), u.heap = s.store.heap ∧
      (∀ v t, (f v t).store.heap = t.heap) ∧
      s.run n scope source = (Stmt.evalAll (Closure.callWithin .whenUnreachable n)
        (MonkeyLang.parse source).1.statements ⟨scope, { text := s.texts }⟩ 0 .null u).map
          (fun r => (.ok r.1.landed, f r.1 r.2)) ∧
      s.endsEarly n scope source = (Stmt.evalAll (Closure.callWithin .whenUnreachable n)
        (MonkeyLang.parse source).1.statements ⟨scope, { text := s.texts }⟩ 0 .null u).any
          (·.1.isSignal) := by
  obtain ⟨log, hparse⟩ := s.parse_of_noErrors h
  obtain ⟨u, f, hu, hf, heval⟩ := Program.evalWith_apply (Closure.callWithin .whenUnreachable n)
    (MonkeyLang.parse source).1 ⟨scope, { text := s.texts }⟩ { s.store with log }
  refine ⟨u, fun v t => ⟨f v t, s.texts + 1⟩, hu, hf, ?_, ?_⟩
  · rw [run, hparse]
    simp only [newText, eval, Program.eval, heval, Option.map_map]
    rfl
  · have hlog := (Closure.logFree_callWithin .whenUnreachable n).evalAll
      (MonkeyLang.parse source).1.statements ⟨scope, { text := s.texts }⟩ 0 .null
      (s := { s.store with log }) hu.symm
    rw [endsEarly, hparse]
    dsimp only [newText]
    generalize Stmt.evalAll _ _ _ _ _ _ = p, Stmt.evalAll _ _ _ _ _ u = q at hlog
    cases hlog with
    | none => rfl
    | some h => exact congrArg Value.isSignal h.2

end Session

/-! ## The session and the script -/

/-- Values of one variant with one text. -/
def Value.Resembles (v w : Value) : Prop := v.type = w.type ∧ v.render = w.render

theorem Value.Shifted.resembles (h : Value.Shifted b₁ b₂ w v₁ v₂) : v₁.Resembles v₂ :=
  ⟨h.alike.type, h.alike.render⟩

/-- The texts that parse. -/
def parsing (texts : List String) : List String := texts.filter fun text => (parse text).2.isEmpty

/-- The run of one text is in step with that of its statements, wherever they stand. -/
theorem run_evalAll (n i : Nat) (σ : Site) {s : Session} {t : Store} {w : Nat}
    (hparse : (parse text).2 = []) (hw : 0 < w) (H : s.store.heap.Shifted b₁ b₂ w t.heap) :
    Option.Rel (fun x y => s.endsEarly n b₁ text = y.1.isSignal ∧ ∃ v w', x.1 = .ok v ∧ 0 < w' ∧
        x.2.store.heap.Shifted b₁ b₂ w' y.2.heap ∧ v.Shifted b₁ b₂ w' y.1.landed)
      (s.run n b₁ text)
      (Stmt.evalAll (Closure.callWithin .whenUnreachable n) (parse text).1.statements ⟨b₂, σ⟩ i .null
        t) := by
  obtain ⟨u, f, hu, hf, hrun, hearly⟩ := s.run_of_noErrors n b₁ hparse
  have hcode : ∀ k st, (parse text).1.statements[k]? = some st → (shifted b₁ b₂ 0).code (.stmt st)
      (Site.child ⟨s.texts, []⟩ (0 + k)) (σ.child (i + k)) := fun _ _ _ => trivial
  have hstep := Simulation.runs_stmts (shifted_calls .whenUnreachable n) _ hcode w
    (.data trivial : Value.Shifted b₁ b₂ w .null .null) u t ⟨hw, hu ▸ H⟩
  rw [hrun, hearly]
  generalize Stmt.evalAll _ _ _ _ _ u = p, Stmt.evalAll _ _ _ _ _ t = q at hstep
  cases hstep with
  | none => exact .none
  | some h =>
    obtain ⟨w', -, ⟨hw', H'⟩, hv⟩ := h
    exact .some ⟨hv.alike.isSignal, _, w', rfl, hw', by rw [hf]; exact H', hv.landed⟩

/-- Running texts one after the other is in step with running the statements of those that parse. -/
theorem runUntil_evalAll (n i : Nat) (σ : Site) {s : Session} {t : Store} {last₁ last₂ : Value}
    {w : Nat}
    (htexts : ∀ text ∈ texts, (parse text).2 = [] → Standalone text) (hw : 0 < w)
    (H : s.store.heap.Shifted b₁ b₂ w t.heap) (hlast : last₁.Shifted b₁ b₂ w last₂)
    (hsignal : last₂.isSignal = false) :
    Option.Rel (fun x y => ∃ w', 0 < w' ∧ x.2.store.heap.Shifted b₁ b₂ w' y.2.heap ∧
        x.1.Shifted b₁ b₂ w' y.1.landed)
      (s.runUntil n b₁ last₁ texts)
      (Stmt.evalAll (Closure.callWithin .whenUnreachable n) (statementsOf (parsing texts))
        ⟨b₂, σ⟩ i last₂ t) := by
  induction texts generalizing s t last₁ last₂ w i with
  | nil => exact .some ⟨w, hw, H, (last₂.landed_eq_self hsignal).symm ▸ hlast⟩
  | cons text texts ih =>
    obtain ⟨htext, htexts⟩ := List.forall_mem_cons.mp htexts
    by_cases hparse : (parse text).2 = []
    · have hcons : statementsOf (parsing (text :: texts)) =
          (parse text).1.statements ++ statementsOf (parsing texts) := by
        rw [parsing, List.filter_cons_of_pos (by simpa using hparse)]
        rfl
      have hstep := run_evalAll n i σ hparse hw H
      rw [hcons, Stmt.evalAll_append _ _ _ _ _ hsignal,
        Stmt.evalAll_last _ (htext hparse).statements_ne_nil _ _ last₂ .null, Eval.andThen,
        Eval.bind_apply, Session.runUntil]
      generalize s.run n b₁ text = p, Stmt.evalAll _ _ _ _ _ t = q at hstep
      cases hstep with
      | none => exact .none
      | @some x y h =>
        obtain ⟨outcome, s'⟩ := x
        obtain ⟨v', t'⟩ := y
        obtain ⟨hearly, v, w', rfl, hw', H', hv⟩ := h
        rw [Option.bind_some, hearly]
        dsimp only at hv ⊢
        cases hsig : v'.isSignal with
        | true => exact .some ⟨w', hw', H', hv⟩
        | false =>
          rw [v'.landed_eq_self hsig] at hv
          exact ih _ htexts hw' H' hv hsig
    · have hskip : parsing (text :: texts) = parsing texts :=
        List.filter_cons_of_neg (by simpa using hparse)
      obtain ⟨e, s', hrun, hheap⟩ := s.run_of_errors n b₁ hparse
      rw [hskip, Session.runUntil, hrun]
      exact ih i htexts hw (hheap ▸ H) hlast hsignal

/-- A session and a script agree. Texts that are run one after the other in a new scope, up to the
first that ends early, come to the same as those of them that parse, joined line by line and run in
another new scope. One run has a result exactly if the other has, the two values are of one variant
with one text, and so are the values of each name in the two scopes. -/
theorem session_agrees_script (n : Nat) (s₁ s₂ : Session) (texts : List String)
    (htexts : ∀ text ∈ texts, (parse text).2 = [] → Standalone text) :
    Option.Rel
      (fun x y => ∃ v, y.1 = .ok v ∧ x.1.Resembles v ∧ ∀ name,
        Option.Rel Value.Resembles (x.2.binding? s₁.newScope.1 name) (y.2.binding? s₂.newScope.1 name))
      (s₁.newScope.2.runUntil n s₁.newScope.1 .null texts)
      (s₂.newScope.2.run n s₂.newScope.1 ("\n".intercalate (parsing texts))) := by
  have hsources : ∀ text ∈ parsing texts, Standalone text := fun text h => by
    obtain ⟨hmem, hparse⟩ := List.mem_filter.mp h
    exact htexts text hmem (by simpa using hparse)
  have hscript := parse_intercalate hsources
  have hparse : (parse ("\n".intercalate (parsing texts))).2 = [] := by rw [hscript]
  obtain ⟨u, f, hu, hf, hrun, -⟩ := s₂.newScope.2.run_of_noErrors n s₂.newScope.1 hparse
  have hstart : s₁.newScope.2.store.heap.Shifted s₁.newScope.1 s₂.newScope.1 1 u.heap :=
    hu ▸ Heap.Shifted.push (w := 0) ⟨rfl, rfl, nofun⟩ ⟨.none, .nil⟩
  have hstep := runUntil_evalAll n 0 ⟨s₂.newScope.2.texts, []⟩ htexts Nat.one_pos hstart
    (.data trivial : Value.Shifted _ _ 1 .null .null) rfl
  rw [hrun, hscript]
  generalize Session.runUntil _ _ _ _ _ = p, Stmt.evalAll _ _ _ _ _ _ = q at hstep
  cases hstep with
  | none => exact .none
  | some h =>
    obtain ⟨w, hw, H, hv⟩ := h
    refine .some ⟨_, rfl, hv.resembles, fun name => ?_⟩
    obtain ⟨c₁, c₂, hc₁, hc₂, hc⟩ := H.scope 0 hw
    rw [Nat.add_zero] at hc₁ hc₂
    rw [Session.binding?, Session.binding?, hf, hc₁, hc₂]
    exact rel_mono (hc.get? name) fun _ _ h => h.resembles

/-- A function that uses a later binding, a text that does not parse, and a text that ends early. -/
def laterBinding : List String :=
  ["let f = fn() \x7b x; \x7d;", "let = 5;", "let x = 5;", "return f();", "let x = 6;"]

theorem session_agrees_script_laterBinding :
    (∀ text ∈ laterBinding, (parse text).2 = [] → Standalone text) ∧
      ∃ x y v, (Session.newScope {}).2.runUntil 2 (Session.newScope {}).1 .null laterBinding =
          some x ∧
        (Session.newScope {}).2.run 2 (Session.newScope {}).1
          ("\n".intercalate (parsing laterBinding)) = some y ∧
        x.1.render = "5" ∧ y.1 = .ok v ∧ x.1.Resembles v ∧
        ∀ name, Option.Rel Value.Resembles (x.2.binding? (Session.newScope {}).1 name)
          (y.2.binding? (Session.newScope {}).1 name) := by
  have htexts : ∀ text ∈ laterBinding, (parse text).2 = [] → Standalone text := by decide +kernel
  have hvalue : ((Session.newScope {}).2.runUntil 2 (Session.newScope {}).1 .null
      laterBinding).map (·.1.render) = some "5" := by decide +kernel
  have hagree := session_agrees_script 2 {} {} laterBinding htexts
  obtain ⟨x, hx, hrender⟩ := Option.map_eq_some_iff.mp hvalue
  rw [hx] at hagree
  generalize Session.run _ _ _ _ = q at hagree ⊢
  cases hagree with
  | some h =>
    obtain ⟨v, hv, hsame, hbindings⟩ := h
    exact ⟨htexts, x, _, v, hx, rfl, hrender, hv, hsame, hbindings⟩

end MonkeyLang
