import MonkeyLang.Proofs.Parser.Recording

/-!
# Errors of the attempts at statements

A statement that cannot be read is dropped, and the statements after it are read from the token that is
current then. However deep in an expression the error is, it is the only one that the attempt leaves
besides those of the attempts in its blocks (`Parser.Attempt.Accounted`), and every attempt starts on a
token of its own: so there are at most as many errors and statements as tokens (`parse_attempts`).

All productions keep to this (`Parser.Accounts`): each adds the errors of the attempts that it makes,
and one of its own if it fails; the statements in the blocks of what it reads are those that came of the
attempts; and an attempt is made with a token in hand.
-/

namespace MonkeyLang

/-! ## The statements of a tree -/

mutual

/-- The number of statements in an expression, at any depth. -/
@[simp] def Expr.nested : Expr → Nat
  | .ident _ | .int .. | .bool .. => 0
  | .unary _ _ e => e.nested
  | .binary _ l _ r => l.nested + r.nested
  | .cond _ c b none => c.nested + b.nested
  | .cond _ c b (some a) => c.nested + (b.nested + a.nested)
  | .function _ _ b => b.nested
  | .call _ f es => f.nested + Expr.nestedEach es

@[simp] def Expr.nestedEach : List Expr → Nat
  | [] => 0
  | e :: es => e.nested + Expr.nestedEach es

/-- The number of statements inside of a statement, which does not count itself. -/
@[simp] def Stmt.nested : Stmt → Nat
  | .letStmt _ _ e | .returnStmt _ e | .expr _ e => e.nested
  | .block b => b.nested

@[simp] def Block.nested : Block → Nat
  | ⟨_, ss⟩ => Stmt.countAll ss

/-- The number of some statements and of those inside of them. -/
@[simp] def Stmt.countAll : List Stmt → Nat
  | [] => 0
  | s :: ss => s.nested + 1 + Stmt.countAll ss

end

/-- The number of statements at all depths. -/
def Program.statementCount (p : Program) : Nat := Stmt.countAll p.statements

theorem Stmt.countAll_append (ss ss' : List Stmt) :
    Stmt.countAll (ss ++ ss') = Stmt.countAll ss + Stmt.countAll ss' := by
  induction ss with
  | nil => simp
  | cons s ss ih => simp [ih, Nat.add_assoc]

mutual

/-- The statements in the blocks of an expression, but not those inside of them. -/
@[simp] def Expr.inner : Expr → List Stmt
  | .ident _ | .int .. | .bool .. => []
  | .unary _ _ e => e.inner
  | .binary _ l _ r => l.inner ++ r.inner
  | .cond _ c b none => c.inner ++ b.statements
  | .cond _ c b (some a) => c.inner ++ (b.statements ++ a.statements)
  | .function _ _ b => b.statements
  | .call _ f es => f.inner ++ Expr.innerEach es

@[simp] def Expr.innerEach : List Expr → List Stmt
  | [] => []
  | e :: es => e.inner ++ Expr.innerEach es

end

/-- The statements in the blocks of a statement, but not those inside of them. -/
@[simp] def Stmt.inner : Stmt → List Stmt
  | .letStmt _ _ e | .returnStmt _ e | .expr _ e => e.inner
  | .block b => b.statements

mutual

theorem Expr.countAll_inner : ∀ e : Expr, Stmt.countAll e.inner = e.nested
  | .ident _ | .int .. | .bool .. => rfl
  | .unary _ _ e => e.countAll_inner
  | .binary _ l _ r => by simp [Stmt.countAll_append, l.countAll_inner, r.countAll_inner]
  | .cond _ c ⟨_, _⟩ none => by simp [Stmt.countAll_append, c.countAll_inner]
  | .cond _ c ⟨_, _⟩ (some ⟨_, _⟩) => by simp [Stmt.countAll_append, c.countAll_inner]
  | .function _ _ ⟨_, _⟩ => rfl
  | .call _ f es => by simp [Stmt.countAll_append, f.countAll_inner, Expr.countAll_innerEach es]

theorem Expr.countAll_innerEach : ∀ es : List Expr,
    Stmt.countAll (Expr.innerEach es) = Expr.nestedEach es
  | [] => rfl
  | e :: es => by simp [Stmt.countAll_append, e.countAll_inner, Expr.countAll_innerEach es]

end

theorem Stmt.countAll_inner (s : Stmt) : Stmt.countAll s.inner = s.nested := by
  cases s with
  | letStmt _ _ e | returnStmt _ e | expr _ e => exact e.countAll_inner
  | block b =>
    obtain ⟨_, _⟩ := b
    rfl

namespace Parser

/-! ## What an attempt leaves -/

namespace Attempt

/-- The statements that came of some attempts. -/
def yields (as : List Attempt) : List Stmt := as.filterMap (·.statement?)

/-- The errors that were recorded from the start of an attempt to its end. -/
def messages (a : Attempt) : List ParseError := a.after.errors.toList.drop a.before.errors.size

/-- The outcome of the statement that was attempted. -/
def outcome (a : Attempt) : Outcome Stmt :=
  match a.statement? with
  | some s => .done s a.after
  | none => .failed a.after

/-- What holds of an attempt, and of those in its blocks. -/
structure Accounted (a : Attempt) : Prop where
  /-- The parser has tried to read a statement. -/
  ran : ∃ n, Parser.statement n a.before = a.outcome
  /-- Errors from before are kept. -/
  kept : a.after.errors.toList = a.before.errors.toList ++ a.messages
  /-- After the errors of the attempts in its blocks comes one of its own if it was dropped, and none
  if it was not. -/
  own : ∃ es : List ParseError, a.messages = a.inside.flatMap messages ++ es ∧
    es.length = if a.statement?.isSome then 0 else 1
  /-- The statements in its blocks are those that came of the attempts there. -/
  blocks : ∀ s, a.statement? = some s → yields a.inside = s.inner

mutual

/-- The attempts that were made in the meantime, and then the attempt itself. -/
def withInside : Attempt → List Attempt
  | ⟨p, q, s, inside⟩ => all inside ++ [⟨p, q, s, inside⟩]

/-- Some attempts and those that were made in the meantime, in the order in which they were over. -/
def all : List Attempt → List Attempt
  | [] => []
  | a :: as => a.withInside ++ all as

end

theorem all_append (as as' : List Attempt) : all (as ++ as') = all as ++ all as' := by
  induction as with
  | nil => rfl
  | cons a as ih => rw [List.cons_append, all, ih, all, List.append_assoc]

theorem all_singleton (a : Attempt) : all [a] = all a.inside ++ [a] := by
  obtain ⟨p, q, s, inside⟩ := a
  exact List.append_nil _

theorem forall_mem_all_append {P : Attempt → Prop} :
    (∀ a ∈ all (as ++ as'), P a) ↔ (∀ a ∈ all as, P a) ∧ ∀ a ∈ all as', P a := by
  rw [all_append, List.forall_mem_append]

theorem forall_mem_all_singleton {P : Attempt → Prop} :
    (∀ b ∈ all [a], P b) ↔ (∀ b ∈ all a.inside, P b) ∧ P a := by
  rw [all_singleton, List.forall_mem_append, List.forall_mem_singleton]

theorem messages_eq {p q : Parser} (h : q.errors.toList = p.errors.toList ++ es) :
    messages ⟨p, q, s, as⟩ = es := by
  rw [messages, h, ← Array.length_toList, List.drop_left]

mutual

/-- Each error and each statement belongs to an attempt of its own. -/
theorem length_messages_le : ∀ a : Attempt, (∀ b ∈ a.withInside, b.Accounted) →
    a.messages.length + Stmt.countAll a.statement?.toList ≤ a.withInside.length
  | ⟨p, q, s?, inside⟩, h => by
    rw [withInside, List.forall_mem_append, List.forall_mem_singleton] at h
    obtain ⟨hinside, ⟨-, -, ⟨es, hes, hlength⟩, hblocks⟩⟩ := h
    have hle := length_messages_all_le inside hinside
    rw [hes, withInside, List.length_append, List.length_append, hlength]
    cases s? with
    | none => exact Nat.add_le_add_right (Nat.le_trans (Nat.le_add_right _ _) hle) 1
    | some s =>
      rw [hblocks s rfl, s.countAll_inner] at hle
      exact Nat.add_le_add_right hle 1

theorem length_messages_all_le : ∀ as : List Attempt, (∀ a ∈ all as, a.Accounted) →
    (as.flatMap messages).length + Stmt.countAll (yields as) ≤ (all as).length
  | [], _ => Nat.le_refl _
  | a :: as, h => by
    rw [all, List.forall_mem_append] at h
    have ha := length_messages_le a h.1
    have has := length_messages_all_le as h.2
    have hyields : yields (a :: as) = a.statement?.toList ++ yields as := by
      simp only [yields, List.filterMap_cons]
      cases a.statement? <;> rfl
    rw [hyields, Stmt.countAll_append, List.flatMap_cons, List.length_append, all,
      List.length_append]
    omega

end

end Attempt

/-! ## What a production leaves -/

/-- The tokens after the current one. -/
def ahead (p : Parser) : Nat := p.tokens.tail.length

/-- From `p` to `q` the attempts `as` were made, which may use `room` of the tokens. Their errors were
recorded, and then `es`. -/
structure Spans (room : Nat) (p : Parser) (as : List Attempt) (es : List ParseError) (q : Parser) :
    Prop where
  errors : q.errors.toList = p.errors.toList ++ (as.flatMap (·.messages) ++ es)
  suffix : q.tokens <:+ p.tokens
  tokens : (Attempt.all as).length + ahead q ≤ room

theorem Spans.trans (h : Spans room p as [] q) (h' : Spans (ahead q) q as' es q') :
    Spans room p (as ++ as') es q' := by
  refine ⟨?_, h'.suffix.trans h.suffix, ?_⟩
  · simp [h'.errors, h.errors]
  · have := h.tokens
    have := h'.tokens
    rw [Attempt.all_append, List.length_append]
    omega

/-- An attempt takes one token more, and its errors are all that was recorded in the meantime. -/
theorem Spans.attempt (h : Spans (ahead p) p as es q) :
    Spans (ahead p + 1) p [⟨p, q, s, as⟩] [] q := by
  refine ⟨?_, h.suffix, ?_⟩
  · rw [List.flatMap_singleton, Attempt.messages_eq h.errors, List.append_nil]
    exact h.errors
  · rw [Attempt.all_singleton, List.length_append]
    have : (Attempt.all as).length + ahead q ≤ ahead p := h.tokens
    show (Attempt.all as).length + 1 + ahead q ≤ ahead p + 1
    omega

theorem Spans.accounted (h : Spans room p as es q)
    (hran : statement n p = (⟨p, q, s?, as⟩ : Attempt).outcome)
    (hes : es.length = if s?.isSome then 0 else 1)
    (hblocks : ∀ s, s? = some s → Attempt.yields as = s.inner) :
    (⟨p, q, s?, as⟩ : Attempt).Accounted := by
  have hmessages : Attempt.messages ⟨p, q, s?, as⟩ = as.flatMap (·.messages) ++ es :=
    Attempt.messages_eq h.errors
  refine ⟨⟨n, hran⟩, ?_, ⟨es, hmessages, hes⟩, hblocks⟩
  rw [hmessages]
  exact h.errors

/-- Nothing was attempted. -/
theorem spans_nil {p q : Parser} (he : q.errors.toList = p.errors.toList ++ es)
    (hts : q.tokens <:+ p.tokens) : Spans (ahead p) p [] es q := by
  refine ⟨he, hts, ?_⟩
  have := hts.length_le
  simp [Attempt.all, ahead]
  omega

/-- Each attempt that the production makes is accounted for. If `k` are the statements that were read
before, then `held a` are those when it is done with `a`. A failure leaves one error of its own. What the
attempts may use of the tokens is `room`. -/
structure Accounts (room : Parser → Nat) (k : List Stmt) (x : Recording α) (held : α → List Stmt) :
    Prop where
  each : ∀ p, ∀ a ∈ Attempt.all (x p).1, a.Accounted
  spans : ∀ p, (x p).2.Sat True
    (fun a q => Spans (room p) p (x p).1 [] q ∧ held a = k ++ Attempt.yields (x p).1)
    fun q => ∃ e, Spans (room p) p (x p).1 [e] q

namespace Accounts

variable {room : Parser → Nat} {k : List Stmt}

theorem outOfBudget : Accounts room k (Recording.lift Parser.outOfBudget : Recording α) held :=
  ⟨fun _ => nofun, fun _ => trivial⟩

theorem pure {a : α} (h : held a = k) : Accounts ahead k (Pure.pure a) held :=
  ⟨fun _ => nofun, fun _ => ⟨spans_nil (List.append_nil _).symm List.suffix_rfl, by
    rw [h]; exact (List.append_nil k).symm⟩⟩

theorem fail (e : ParseError) :
    Accounts ahead k (Recording.lift (Parser.fail e) : Recording α) held :=
  ⟨fun _ => nofun, fun _ => ⟨e, spans_nil (Array.toList_push ..) List.suffix_rfl⟩⟩

/-- A production that makes no attempts. -/
theorem lift {x : Production α} (h : ∀ p, (x p).Sat True
    (fun _ q => q.errors = p.errors ∧ q.tokens <:+ p.tokens)
    fun q => ∃ e, q.errors = p.errors.push e ∧ q.tokens <:+ p.tokens) :
    Accounts ahead k (Recording.lift x) fun _ => k := by
  refine ⟨fun _ => nofun, fun p => (h p).mono (fun _ q hq => ?_) fun q ⟨e, he, hts⟩ => ?_⟩
  · exact ⟨spans_nil (by rw [hq.1, List.append_nil]) hq.2, (List.append_nil k).symm⟩
  · exact ⟨e, spans_nil (by rw [he, Array.toList_push]) hts⟩

theorem currentToken : Accounts ahead k (Recording.lift Parser.currentToken) fun _ => k :=
  lift fun _ => ⟨rfl, List.suffix_rfl⟩

theorem nextKind : Accounts ahead k (Recording.lift Parser.nextKind) fun _ => k :=
  lift fun _ => ⟨rfl, List.suffix_rfl⟩

theorem note : Accounts ahead k (Recording.lift (Parser.note level message)) fun _ => k :=
  lift fun _ => ⟨rfl, List.suffix_rfl⟩

theorem skip : Accounts ahead k (Recording.lift Parser.skip) fun _ => k :=
  lift fun p => ⟨errors_advance p, List.tail_suffix _⟩

theorem expect (kind : Kind) :
    Accounts ahead k (Recording.lift (Parser.expect kind)) fun _ => k := by
  refine lift fun p => ?_
  rw [sat_expect]
  split
  · exact ⟨errors_advance p, List.tail_suffix _⟩
  · exact ⟨_, rfl, List.suffix_rfl⟩

theorem skipIf (kind : Kind) :
    Accounts ahead k (Recording.lift (Parser.skipIf kind)) fun _ => k := by
  refine lift fun p => ?_
  rw [sat_skipIf]
  split
  · exact ⟨errors_advance p, List.tail_suffix _⟩
  · exact ⟨rfl, List.suffix_rfl⟩

theorem bind {x : Recording β} {f : β → Recording α} {held' : β → List Stmt}
    (hx : Accounts room k x held') (hf : ∀ b, Accounts ahead (held' b) (f b) held) :
    Accounts room k (x >>= f) held := by
  constructor
  · intro p
    have hp := hx.each p
    rw [Recording.bind_apply]
    generalize x p = r at hp ⊢
    obtain ⟨as, ⟨b, q⟩ | q | _⟩ := r
    · exact Attempt.forall_mem_all_append.mpr ⟨hp, (hf b).each q⟩
    · exact hp
    · exact hp
  · intro p
    have hp := hx.spans p
    rw [Recording.bind_apply]
    generalize x p = r at hp ⊢
    obtain ⟨as, ⟨b, q⟩ | q | _⟩ := r
    · obtain ⟨hspans, hheld⟩ := hp
      refine ((hf b).spans q).mono (fun a q' h => ⟨hspans.trans h.1, ?_⟩) fun q' ⟨e, h⟩ =>
        ⟨e, hspans.trans h⟩
      rw [h.2, hheld, List.append_assoc, Attempt.yields, Attempt.yields, Attempt.yields,
        List.filterMap_append]
    · exact hp
    · trivial

theorem ite [Decidable c] {x y : Recording α} (h : Accounts room k x held)
    (h' : Accounts room k y held) : Accounts room k (if c then x else y) held := by
  split
  · exact h
  · exact h'

/-- The current token pays for an attempt at a statement. -/
theorem attempt (h : Accounts ahead [] (Recording.statement n) fun s => [] ++ s.inner) :
    Accounts (fun p => ahead p + 1) k (Recording.attempt (Recording.statement n))
      fun s => k ++ s.toList := by
  have hplain : ∀ p, (Recording.statement n p).2 = Parser.statement n p := fun p =>
    congrFun (Recording.plain_statement n) p
  constructor
  · intro p
    have hran := hplain p
    have heach := h.each p
    have hspans := h.spans p
    rw [Recording.attempt]
    generalize Recording.statement n p = r at hran heach hspans ⊢
    obtain ⟨as, ⟨s, q⟩ | q | _⟩ := r
    · obtain ⟨hq, hheld⟩ := hspans
      have hown : (⟨p, q, some s, as⟩ : Attempt).Accounted :=
        hq.accounted hran.symm rfl fun _ hs => Option.some_inj.mp hs ▸ hheld.symm
      exact Attempt.forall_mem_all_singleton.mpr ⟨heach, hown⟩
    · obtain ⟨e, hq⟩ := hspans
      have hown : (⟨p, q, none, as⟩ : Attempt).Accounted :=
        hq.accounted hran.symm rfl fun s hs => absurd hs.symm (Option.some_ne_none s)
      exact Attempt.forall_mem_all_singleton.mpr ⟨heach, hown⟩
    · exact heach
  · intro p
    have hspans := h.spans p
    rw [Recording.attempt]
    generalize Recording.statement n p = r at hspans ⊢
    obtain ⟨as, ⟨s, q⟩ | q | _⟩ := r
    · exact ⟨hspans.1.attempt, rfl⟩
    · obtain ⟨e, hq⟩ := hspans
      exact ⟨hq.attempt, rfl⟩
    · trivial

/-- Where the next production starts, the token that it starts on is no longer ahead. -/
theorem skipThen {x : Recording α} (h : Accounts (·.tokens.length) k x held) :
    Accounts ahead k (Recording.lift Parser.skip >>= fun _ => x) held := by
  have hstart : ∀ {p : Parser} {as es q}, Spans p.advance.tokens.length p.advance as es q →
      Spans (ahead p) p as es q := fun {p} _ _ _ hq =>
    ⟨errors_advance p ▸ hq.errors, hq.suffix.trans (List.tail_suffix _), hq.tokens⟩
  refine ⟨fun p => h.each p.advance, fun p => ?_⟩
  exact (h.spans p.advance).mono (fun a q hq => ⟨hstart hq.1, hq.2⟩) fun q ⟨e, hq⟩ => ⟨e, hstart hq⟩

/-- A list of statements: unless it is over, the current token is one of the text. -/
theorem unlessOver {ends : Token → Prop} [DecidablePred ends] {x : Recording α} {a : α}
    (hends : ∀ t, t.kind = .eof → ends t) (ha : held a = k)
    (h : Accounts (fun p => ahead p + 1) k x held) : Accounts (·.tokens.length) k
      (Recording.lift Parser.currentToken >>= fun t => if ends t then Pure.pure a else x) held := by
  have hstart : ∀ p, (Recording.lift Parser.currentToken >>= fun t =>
      if ends t then Pure.pure a else x) p = if ends p.current then ([], .done a p) else x p := by
    intro p
    rw [Recording.bind_apply]
    show ([] ++ _, _) = _
    split <;> rfl
  refine ⟨fun p => ?_, fun p => ?_⟩
  · rw [hstart]
    split
    · nofun
    · exact h.each p
  · rw [hstart]
    split
    · have hnil := spans_nil (List.append_nil p.errors.toList).symm p.tokens.suffix_rfl
      exact ⟨⟨hnil.errors, hnil.suffix, hnil.tokens.trans (by simp [ahead])⟩, by
        rw [ha]; exact (List.append_nil k).symm⟩
    · next hgo =>
      have hlength : ahead p + 1 = p.tokens.length := by
        cases hts : p.tokens with
        | nil => exact absurd (hends _ (by rw [current, hts]; rfl)) hgo
        | cons t ts => simp [ahead, hts]
      rw [← hlength]
      exact h.spans p

theorem integer : Accounts ahead k (Recording.lift Parser.integer) fun e => k ++ e.inner := by
  rw [Parser.integer, Recording.lift_bind]
  refine bind currentToken fun t => ?_
  split
  · exact pure (List.append_nil k)
  · exact fail _

theorem moreParameters (n : Nat) :
    Accounts ahead k (Recording.lift (Parser.moreParameters n)) fun _ => k := by
  induction n with
  | zero => exact outOfBudget
  | succ n ih =>
    simp only [Parser.moreParameters, Recording.lift_bind, Recording.lift_ite, Recording.lift_pure]
    refine bind (skipIf .comma) fun b => ite ?_ ?_
    · exact bind (expect .ident) fun _ => bind currentToken fun t => bind ih fun xs => pure rfl
    · exact bind (expect .rparen) fun _ => pure rfl

theorem parameters (n : Nat) : Accounts ahead k (Recording.lift (Parser.parameters n)) fun _ => k := by
  simp only [Parser.parameters, Recording.lift_bind, Recording.lift_ite, Recording.lift_pure]
  refine bind (skipIf .rparen) fun b => ite (pure rfl) ?_
  exact bind (expect .ident) fun _ => bind currentToken fun t =>
    bind (moreParameters n) fun xs => pure rfl

mutual

theorem expression (power : Precedence) (k : List Stmt) :
    ∀ n, Accounts ahead k (Recording.expression n power) fun e => k ++ e.inner
  | 0 => outOfBudget
  | n + 1 => by
    rw [Recording.expression]
    exact bind (operand k n) fun l => operators power l k n
termination_by structural n => n

theorem operators (power : Precedence) (l : Expr) (k : List Stmt) :
    ∀ n, Accounts ahead (k ++ l.inner) (Recording.operators n power l) fun e => k ++ e.inner
  | 0 => outOfBudget
  | n + 1 => by
    rw [Recording.operators]
    refine bind nextKind fun kind => ite (bind skip fun _ => ite ?_ ?_) (pure rfl)
    · exact bind (callOf l k n) fun l' => operators power l' k n
    · exact bind (binary l k n) fun l' => operators power l' k n
termination_by structural n => n

theorem operand (k : List Stmt) : ∀ n, Accounts ahead k (Recording.operand n) fun e => k ++ e.inner
  | 0 => outOfBudget
  | n + 1 => by
    rw [Recording.operand]
    refine bind currentToken fun t => bind note fun _ => ?_
    cases t.kind with
    | ident | trueWord | falseWord => exact pure (List.append_nil k)
    | int => exact integer
    | bang | minus => exact unary k n
    | lparen => exact group k n
    | ifWord => exact conditional k n
    | fnWord => exact functionLiteral k n
    | _ => exact fail _
termination_by structural n => n

theorem unary (k : List Stmt) : ∀ n, Accounts ahead k (Recording.unary n) fun e => k ++ e.inner
  | 0 => outOfBudget
  | n + 1 => by
    rw [Recording.unary]
    exact bind currentToken fun t => bind skip fun _ => bind (expression _ k n) fun e =>
      pure (by simp)
termination_by structural n => n

theorem binary (l : Expr) (k : List Stmt) :
    ∀ n, Accounts ahead (k ++ l.inner) (Recording.binary n l) fun e => k ++ e.inner
  | 0 => outOfBudget
  | n + 1 => by
    rw [Recording.binary]
    exact bind currentToken fun t => bind skip fun _ => bind (expression _ _ n) fun e =>
      pure (by simp)
termination_by structural n => n

theorem group (k : List Stmt) : ∀ n, Accounts ahead k (Recording.group n) fun e => k ++ e.inner
  | 0 => outOfBudget
  | n + 1 => by
    rw [Recording.group]
    exact bind skip fun _ => bind (expression _ k n) fun e => bind (expect .rparen) fun _ =>
      pure rfl
termination_by structural n => n

theorem conditional (k : List Stmt) : ∀ n, Accounts ahead k (Recording.conditional n) fun e => k ++ e.inner
  | 0 => outOfBudget
  | n + 1 => by
    rw [Recording.conditional]
    refine bind note fun _ => bind currentToken fun t => bind (expect .lparen) fun _ =>
      bind skip fun _ => bind (expression _ k n) fun c => bind (expect .rparen) fun _ =>
      bind (expect .lbrace) fun _ => bind (block _ n) fun b => bind (skipIf .elseWord) fun _ => ?_
    refine ite ?_ (pure (by simp))
    exact bind (expect .lbrace) fun _ => bind (block _ n) fun a => pure (by simp)
termination_by structural n => n

theorem functionLiteral (k : List Stmt) :
    ∀ n, Accounts ahead k (Recording.functionLiteral n) fun e => k ++ e.inner
  | 0 => outOfBudget
  | n + 1 => by
    rw [Recording.functionLiteral]
    exact bind note fun _ => bind currentToken fun t => bind (expect .lparen) fun _ =>
      bind (parameters n) fun xs => bind (expect .lbrace) fun _ =>
      bind (block k n) fun b => pure (by simp)
termination_by structural n => n

theorem callOf (f : Expr) (k : List Stmt) :
    ∀ n, Accounts ahead (k ++ f.inner) (Recording.callOf n f) fun e => k ++ e.inner
  | 0 => outOfBudget
  | n + 1 => by
    rw [Recording.callOf]
    refine bind currentToken fun t => bind (skipIf .rparen) fun _ => ite (pure (by simp)) ?_
    exact bind skip fun _ => bind (expression _ _ n) fun e => bind (moreArguments _ n) fun es =>
      pure (by simp)
termination_by structural n => n

theorem moreArguments (k : List Stmt) :
    ∀ n, Accounts ahead k (Recording.moreArguments n) fun es => k ++ Expr.innerEach es
  | 0 => outOfBudget
  | n + 1 => by
    rw [Recording.moreArguments]
    refine bind (skipIf .comma) fun _ => ite ?_ ?_
    · exact bind skip fun _ => bind (expression _ k n) fun e => bind (moreArguments _ n) fun es =>
        pure (by simp)
    · exact bind (expect .rparen) fun _ => pure (by simp)
termination_by structural n => n

theorem block (k : List Stmt) : ∀ n, Accounts ahead k (Recording.block n) fun b => k ++ b.statements
  | 0 => outOfBudget
  | n + 1 => by
    rw [Recording.block]
    exact bind note fun _ => bind currentToken fun t => skipThen
      (bind (blockStatements k n) fun ss => pure (by simp))
termination_by structural n => n

theorem blockStatements (k : List Stmt) : ∀ n,
    Accounts (·.tokens.length) k (Recording.blockStatements n) fun ss => k ++ ss
  | 0 => outOfBudget
  | n + 1 => by
    rw [Recording.blockStatements]
    refine unlessOver (fun _ h => .inr h) (by simp) (bind (attempt (statement [] n)) fun s => ?_)
    exact skipThen (bind (blockStatements _ n) fun ss =>
      pure (by simp))
termination_by structural n => n

theorem statement (k : List Stmt) : ∀ n, Accounts ahead k (Recording.statement n) fun s => k ++ s.inner
  | 0 => outOfBudget
  | n + 1 => by
    rw [Recording.statement]
    refine bind currentToken fun t => ?_
    cases t.kind with
    | letWord => exact letStatement k n
    | returnWord => exact returnStatement k n
    | lbrace => exact bind (block k n) fun b => pure (by simp)
    | _ => exact bind (expression _ k n) fun e => bind (skipIf .semicolon) fun _ => pure (by simp)
termination_by structural n => n

theorem letStatement (k : List Stmt) :
    ∀ n, Accounts ahead k (Recording.letStatement n) fun s => k ++ s.inner
  | 0 => outOfBudget
  | n + 1 => by
    rw [Recording.letStatement]
    exact bind note fun _ => bind currentToken fun t => bind (expect .ident) fun _ =>
      bind currentToken fun x => bind (expect .assign) fun _ => bind skip fun _ =>
      bind (expression _ k n) fun e => bind (skipIf .semicolon) fun _ => pure (by simp)
termination_by structural n => n

theorem returnStatement (k : List Stmt) :
    ∀ n, Accounts ahead k (Recording.returnStatement n) fun s => k ++ s.inner
  | 0 => outOfBudget
  | n + 1 => by
    rw [Recording.returnStatement]
    exact bind note fun _ => bind currentToken fun t => bind skip fun _ =>
      bind (expression _ k n) fun e => bind (skipIf .semicolon) fun _ => pure (by simp)
termination_by structural n => n

end

theorem programStatements (k : List Stmt) : ∀ n,
    Accounts (·.tokens.length) k (Recording.programStatements n) fun ss => k ++ ss
  | 0 => outOfBudget
  | n + 1 => by
    rw [Recording.programStatements]
    refine unlessOver (fun _ h => h) (by simp) (bind (attempt (statement [] n)) fun s => ?_)
    have hrest : Accounts ahead (k ++ s.toList)
        (do Recording.lift Parser.skip; let ss ← Recording.programStatements n; Pure.pure (s.toList ++ ss))
        fun ss => k ++ ss :=
      skipThen (bind (programStatements _ n) fun ss =>
        pure (by simp))
    cases s with
    | none => exact hrest
    | some s => exact bind note fun _ => hrest

end Accounts

end Parser

open MonkeyLang.Parser in
/-- Errors do not cascade: the errors and the statements at all depths are at most as many as the tokens
of the text. The statements of the text are those that came of the attempts at them, its errors are those
that the attempts have left, and each attempt, at any depth, that is dropped has left exactly one error
besides those of the attempts in its blocks, and each one that yields a statement none. -/
theorem parse_attempts (source : String) :
    (parse source).2.length + (parse source).1.statementCount ≤
        (Lexer.ofString source).tokens.length ∧
      Attempt.yields (attempts source) = (parse source).1.statements ∧
      (attempts source).flatMap Attempt.messages = (parse source).2 ∧
      ∀ a ∈ Attempt.all (attempts source), a.Accounted := by
  let p := ofLexer (.ofString source)
  obtain ⟨ss, q, hrun, hss, -, herrors⟩ := p.exists_attempts
  have hparse : parse source = (⟨ss⟩, q.errors.toList) := by rw [← hss, ← herrors]; rfl
  have haccounts := Accounts.programStatements [] p.budget
  have heach := haccounts.each p.begun
  have hspans := haccounts.spans p.begun
  rw [hrun] at heach hspans
  obtain ⟨hspans, hyields⟩ := hspans
  have hyields : ss = Attempt.yields p.attempts := hyields
  have herrors : q.errors.toList = p.attempts.flatMap Attempt.messages := by
    rw [hspans.errors, (level_begun p).2, errors_ofLexer]
    exact List.append_nil _
  have hle := Attempt.length_messages_all_le p.attempts heach
  have htokens : (Attempt.all p.attempts).length + ahead q ≤ p.tokens.length := hspans.tokens
  rw [← herrors, ← hyields] at hle
  rw [tokens_ofLexer] at htokens
  rw [hparse]
  exact ⟨hle.trans (Nat.le_of_add_right_le htokens), hyields.symm, herrors.symm, heach⟩

/-- Every token can be an error. -/
example : (parse ")))").2.length = (Lexer.ofString ")))").tokens.length := by decide +kernel

end MonkeyLang
