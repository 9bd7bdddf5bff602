import MonkeyLang.Proofs.Parser.Outcome
import MonkeyLang.Proofs.Token.Spelled

/-!
# What a parse still needs

Where the parser stands is described by a stack of needs, the most urgent first. Each token is met by
the first need that has a use for it, and is then gone: the need is replaced by what it asks for next.
Needs without a use for the token, such as an optional semicolon, are dropped. `Need.advance` does this
for one token and `Need.run` for some.

As long as no token has been refused, all needs can be met: `Need.finish` spells tokens that do
(`Need.run_finish`). This does not hold of every stack. The parenthesis after `if` or `fn` would go on
with an expression, were one to come before it; but it is always the most urgent need, if it is one
(`Need.Open`).
-/

namespace MonkeyLang

/-- Something that a parse may still need. -/
inductive Need where
  | token (k : Kind)
  | operand
  /-- Operators that bind tighter than `power`, with what belongs to them. -/
  | operators (power : Precedence)
  | semicolon
  /-- The other branch of a conditional. -/
  | alternative
  | parameters | moreParameters | arguments | moreArguments
  | statement
  /-- The statements of a block, and its closing brace. -/
  | block
  | program
deriving DecidableEq

namespace Need

/-- What an expression needs whose operators all bind tighter than `power`. -/
def expression (power : Precedence) : List Need := [operand, operators power]

/-- A token of some kind asks for nothing more. -/
def ofToken (k : Kind) (t : Token) : Except ParseError (List Need) :=
  if t.kind = k then .ok [] else .error (.unexpected k t.kind)

/-- What the first token of an operand asks for. -/
def ofOperand (t : Token) : Except ParseError (List Need) :=
  match t.kind with
  | .ident | .trueWord | .falseWord => .ok []
  | .int => if (integer? t.literal).isSome then .ok [] else .error (.integerRange t.literal)
  | .bang | .minus => .ok (expression .unary)
  | .lparen => .ok (expression .lowest ++ [token .rparen])
  | .ifWord =>
    .ok (token .lparen :: expression .lowest ++ [token .rparen, token .lbrace, block, alternative])
  | .fnWord => .ok [token .lparen, parameters, token .lbrace, block]
  | k => .error (.noOperand k)

/-- What the first token of a statement asks for. -/
def ofStatement (t : Token) : Except ParseError (List Need) :=
  match t.kind with
  | .letWord => .ok (token .ident :: token .assign :: expression .lowest ++ [semicolon])
  | .returnWord => .ok (expression .lowest ++ [semicolon])
  | .lbrace => .ok [block]
  | _ => (· ++ [operators .lowest, semicolon]) <$> ofOperand t

/-- What comes of a need when a token is there; nothing if the need has no use for the token and may
be dropped. -/
def on : Need → Token → Option (Except ParseError (List Need))
  | token k, t => some (ofToken k t)
  | operand, t => some (ofOperand t)
  | operators power, t =>
    if power < .ofKind t.kind then
      if t.kind = .lparen then some (.ok [arguments, operators power])
      else some (.ok (expression (.ofKind t.kind) ++ [operators power]))
    else none
  | semicolon, t => if t.kind = .semicolon then some (.ok []) else none
  | alternative, t => if t.kind = .elseWord then some (.ok [token .lbrace, block]) else none
  | parameters, t =>
    if t.kind = .rparen then some (.ok [])
    else some ((· ++ [moreParameters]) <$> ofToken .ident t)
  | moreParameters, t =>
    if t.kind = .comma then some (.ok [token .ident, moreParameters])
    else some (ofToken .rparen t)
  | arguments, t =>
    if t.kind = .rparen then some (.ok [])
    else some ((· ++ [operators .lowest, moreArguments]) <$> ofOperand t)
  | moreArguments, t =>
    if t.kind = .comma then some (.ok (expression .lowest ++ [moreArguments]))
    else some (ofToken .rparen t)
  | statement, t => some (ofStatement t)
  | block, t =>
    if t.kind = .rbrace then some (.ok [])
    else if t.kind = .eof then none
    else some ((· ++ [block]) <$> ofStatement t)
  | program, t => if t.kind = .eof then none else some ((· ++ [program]) <$> ofStatement t)

/-- What is needed after one more token. -/
def advance : List Need → Token → Except ParseError (List Need)
  | [], _ => .ok []
  | g :: K, t =>
    match g.on t with
    | none => advance K t
    | some r => (· ++ K) <$> r

/-- What is needed after some tokens. -/
def run (K : List Need) (ts : List Token) : Except ParseError (List Need) := ts.foldlM advance K

theorem run_append (K : List Need) (ts us : List Token) :
    run K (ts ++ us) = run K ts >>= fun K' => run K' us := List.foldlM_append

theorem run_cons (K : List Need) (t : Token) (ts : List Token) :
    run K (t :: ts) = advance K t >>= fun K' => run K' ts := rfl

theorem run_nil (ts : List Token) : run [] ts = .ok [] := by
  induction ts with
  | nil => rfl
  | cons t ts ih => exact ih

/-- A token that the first need has a use for. -/
theorem run_of_ok {g : Need} (h : g.on t = some (.ok l)) :
    run (g :: K) (t :: ts) = run (l ++ K) ts := by
  rw [run_cons, advance, h]
  rfl

theorem exists_append_eof (ts : List Token) : ∃ us, ts ++ [.eof] = firstOf ts :: us := by
  cases ts <;> exact ⟨_, rfl⟩

/-- The first need has no use for the next token. -/
theorem run_of_none {g : Need} (h : g.on (firstOf ts) = none) :
    run (g :: K) (ts ++ [.eof]) = run K (ts ++ [.eof]) := by
  obtain ⟨us, hus⟩ := exists_append_eof ts
  rw [hus, run_cons, run_cons, advance, h]

/-- The first need refuses the next token. -/
theorem run_of_error {g : Need} (h : g.on (firstOf ts) = some (.error e)) :
    run (g :: K) (ts ++ [.eof]) = .error e := by
  obtain ⟨us, hus⟩ := exists_append_eof ts
  rw [hus, run_cons, advance, h]
  rfl

/-- The first need starts with another one. -/
theorem run_of_then {g g' : Need} (h' : g'.on (firstOf ts) = some r)
    (h : g.on (firstOf ts) = some ((· ++ l) <$> r)) :
    run (g :: K) (ts ++ [.eof]) = run (g' :: (l ++ K)) (ts ++ [.eof]) := by
  obtain ⟨us, hus⟩ := exists_append_eof ts
  rw [hus, run_cons, run_cons, advance, advance, h, h']
  cases r with
  | error e => rfl
  | ok l' => exact congrArg (run · _) (List.append_assoc ..)

end Need

/-! ## Errors name the token that is refused -/

/-- The message says what is wrong with the token. -/
def ParseError.Names (e : ParseError) (t : Token) : Prop :=
  e.message = "no prefix parse function for " ++ t.kind.name ++ " found" ∨
    (∃ k : Kind, e.message =
      "expected next token to be " ++ k.name ++ ", got " ++ t.kind.name ++ " instead") ∨
    t.kind = .int ∧ e.message = "could not parse \"" ++ t.literal ++ "\" as integer"

namespace Need

theorem names_of_ofToken (h : ofToken k t = .error e) : e.Names t := by
  unfold ofToken at h
  split at h
  · cases h
  · cases h
    exact .inr (.inl ⟨k, rfl⟩)

theorem names_of_ofOperand (h : ofOperand t = .error e) : e.Names t := by
  unfold ofOperand at h
  split at h
  case h_4 hk =>
    split at h
    · cases h
    · cases h
      exact .inr (.inr ⟨hk, rfl⟩)
  all_goals cases h
  exact .inl rfl

theorem names_of_map {r : Except ParseError (List Need)} {f : List Need → List Need}
    (h : f <$> r = .error e) (hr : r = .error e → e.Names t) : e.Names t := by
  cases r with
  | error e' => cases h; exact hr rfl
  | ok l => cases h

theorem names_of_ofStatement (h : ofStatement t = .error e) : e.Names t := by
  unfold ofStatement at h
  split at h
  · cases h
  · cases h
  · cases h
  · exact names_of_map h names_of_ofOperand

theorem names_of_on {g : Need} (h : g.on t = some (.error e)) : e.Names t := by
  cases g <;> simp only [on] at h
  case token => exact names_of_ofToken (Option.some.inj h)
  case operand => exact names_of_ofOperand (Option.some.inj h)
  case statement => exact names_of_ofStatement (Option.some.inj h)
  all_goals split at h
  case operators.isTrue => split at h <;> cases h
  case parameters.isFalse => exact names_of_map (Option.some.inj h) names_of_ofToken
  case moreParameters.isFalse => exact names_of_ofToken (Option.some.inj h)
  case moreArguments.isFalse => exact names_of_ofToken (Option.some.inj h)
  case arguments.isFalse => exact names_of_map (Option.some.inj h) names_of_ofOperand
  case program.isFalse => exact names_of_map (Option.some.inj h) names_of_ofStatement
  case block.isFalse =>
    split at h
    · cases h
    · exact names_of_map (Option.some.inj h) names_of_ofStatement
  all_goals cases h

theorem names_of_advance (h : advance K t = .error e) : e.Names t := by
  induction K with
  | nil => cases h
  | cons g K ih =>
    rw [advance] at h
    split at h
    · exact ih h
    · next hg => exact names_of_map h fun hr => names_of_on (hr ▸ hg)

/-- An error comes with the token that was refused, and with what was needed there. -/
theorem exists_of_run_error (h : run K ts = .error e) :
    ∃ us t vs K', ts = us ++ t :: vs ∧ run K us = .ok K' ∧ advance K' t = .error e := by
  induction ts generalizing K with
  | nil => cases h
  | cons t ts ih =>
    rw [run_cons] at h
    cases hK : advance K t with
    | error e' =>
      rw [hK] at h
      cases h
      exact ⟨[], t, ts, K, rfl, rfl, hK⟩
    | ok K₁ =>
      rw [hK] at h
      obtain ⟨us, u, vs, K', rfl, hus, hu⟩ := ih h
      exact ⟨t :: us, u, vs, K', rfl, by rw [run_cons, hK]; exact hus, hu⟩

/-! ## Needs can be met -/

/-- The need may stand below others. -/
def rests : Need → Bool
  | token k => k ∈ [Kind.rparen, .lbrace, .ident, .assign]
  | statement | program => false
  | _ => true

/-- Needs that may stand below others, with the whole program at the end. -/
inductive Below : List Need → Prop
  | program : Below [program]
  | cons : rests g → Below K → Below (g :: K)

/-- What is needed at some place of a text. An opening parenthesis is the most urgent need. -/
inductive Open : List Need → Prop
  | below : Below K → Open K
  | lparen : Below K → Open (token .lparen :: K)

/-- A need may ask for these. -/
def Opens (l : List Need) : Prop :=
  l.all rests ∨ ∃ l', l = token .lparen :: l' ∧ l'.all rests

theorem Opens.append (hl : Opens l) (hl' : l'.all rests) : Opens (l ++ l') := by
  rcases hl with hl | ⟨l, rfl, hl⟩
  · exact .inl (by rw [List.all_append, hl, hl']; rfl)
  · exact .inr ⟨l ++ l', rfl, by rw [List.all_append, hl, hl']; rfl⟩

theorem Below.append (h : Below K) (hl : l.all rests) : Below (l ++ K) := by
  induction l with
  | nil => exact h
  | cons g l ih =>
    obtain ⟨hg, hl⟩ := Bool.and_eq_true_iff.mp hl
    exact .cons hg (ih hl)

theorem Below.opens (h : Below K) (hl : Opens l) : Open (l ++ K) := by
  rcases hl with hl | ⟨l, rfl, hl⟩
  · exact .below (h.append hl)
  · exact .lparen (h.append hl)

theorem of_ofToken (h : ofToken k t = .ok l) : l = [] ∧ t.kind = k := by
  unfold ofToken at h
  split at h
  · next hk =>
    cases h
    exact ⟨rfl, hk⟩
  · cases h

/-- A token that starts an operand is legal. -/
theorem opens_of_ofOperand (h : ofOperand t = .ok l) : Opens l ∧ t.kind ≠ .illegal := by
  unfold ofOperand at h
  split at h
  case h_4 hk =>
    split at h
    · cases h
      exact ⟨.inl rfl, by simp [hk]⟩
    · cases h
  all_goals cases h
  all_goals refine ⟨?_, by simp [*]⟩
  all_goals first | exact .inl rfl | exact .inr ⟨_, rfl, rfl⟩

theorem opens_of_map {r : Except ParseError (List Need)} (h : (· ++ l') <$> r = .ok l)
    (hl' : l'.all rests) (hr : ∀ l, r = .ok l → Opens l ∧ p) : Opens l ∧ p := by
  cases r with
  | error e => cases h
  | ok l₁ =>
    cases h
    exact ⟨(hr _ rfl).1.append hl', (hr _ rfl).2⟩

theorem opens_of_ofStatement (h : ofStatement t = .ok l) : Opens l ∧ t.kind ≠ .illegal := by
  unfold ofStatement at h
  split at h
  case h_4 => exact opens_of_map h rfl fun l => opens_of_ofOperand
  all_goals
    cases h
    exact ⟨.inl rfl, by simp [*]⟩

theorem opens_of_on {g : Need} (hg : g = token .lparen ∨ g.rests) (h : g.on t = some (.ok l)) :
    Opens l ∧ t.kind ≠ .illegal := by
  have hnil : ∀ {k}, k ≠ .illegal → ofToken k t = .ok l → Opens l ∧ t.kind ≠ .illegal := by
    intro k hk h
    obtain ⟨rfl, rfl⟩ := of_ofToken h
    exact ⟨.inl rfl, hk⟩
  cases g <;> simp only [on] at h
  case token k =>
    refine hnil (fun hill => ?_) (Option.some.inj h)
    rcases hg with hg | hg
    · cases hg
      cases hill
    · exact absurd (hill ▸ hg) (by decide)
  case operand => exact opens_of_ofOperand (Option.some.inj h)
  case statement => rcases hg with hg | hg <;> cases hg
  case program => rcases hg with hg | hg <;> cases hg
  all_goals split at h
  case operators.isTrue hpower =>
    have hill : t.kind ≠ .illegal := fun hill => Nat.not_lt_zero _ (hill ▸ hpower)
    split at h
    all_goals
      cases h
      exact ⟨.inl rfl, hill⟩
  case parameters.isFalse =>
    exact opens_of_map (Option.some.inj h) rfl fun l h => by
      obtain ⟨rfl, hk⟩ := of_ofToken h
      exact ⟨.inl rfl, by simp [hk]⟩
  case moreParameters.isFalse => exact hnil (k := .rparen) nofun (Option.some.inj h)
  case moreArguments.isFalse => exact hnil (k := .rparen) nofun (Option.some.inj h)
  case arguments.isFalse =>
    exact opens_of_map (Option.some.inj h) rfl fun l => opens_of_ofOperand
  case block.isFalse =>
    split at h
    · cases h
    · exact opens_of_map (Option.some.inj h) rfl fun l => opens_of_ofStatement
  all_goals cases h
  all_goals exact ⟨.inl rfl, by simp [*]⟩

theorem exists_of_map {r : Except ParseError (List Need)} (h : (· ++ K) <$> r = .ok K') :
    ∃ l, r = .ok l ∧ K' = l ++ K := by
  cases r with
  | error e => cases h
  | ok l =>
    cases h
    exact ⟨l, rfl, rfl⟩

/-- What is needed stays open up to the end of the text, and no illegal token is met. -/
theorem Open.advance (h : Open K) (ht : t.kind ≠ .eof) (h' : Need.advance K t = .ok K') :
    Open K' ∧ t.kind ≠ .illegal := by
  have hstep : ∀ {g K}, Below K → (g = token .lparen ∨ g.rests) →
      (g.on t = none → Open K' ∧ t.kind ≠ .illegal) → Need.advance (g :: K) t = .ok K' →
      Open K' ∧ t.kind ≠ .illegal := by
    intro g K hK hg hnone h'
    rw [Need.advance] at h'
    split at h'
    · exact hnone ‹_›
    · next hon =>
      obtain ⟨l, rfl, rfl⟩ := exists_of_map h'
      obtain ⟨hl, hill⟩ := opens_of_on hg hon
      exact ⟨hK.opens hl, hill⟩
  have hbelow : ∀ {K}, Below K → Need.advance K t = .ok K' → Open K' ∧ t.kind ≠ .illegal := by
    intro K hK h'
    induction hK with
    | program =>
      simp only [Need.advance, on, if_neg ht] at h'
      obtain ⟨_, hprogram, rfl⟩ := exists_of_map h'
      obtain ⟨l, hstatement, rfl⟩ := exists_of_map hprogram
      obtain ⟨hl, hill⟩ := opens_of_ofStatement hstatement
      rw [List.append_nil]
      exact ⟨Below.program.opens hl, hill⟩
    | cons hg hK ih =>
      refine hstep hK (.inr hg) (fun hnone => ih ?_) h'
      rwa [Need.advance, hnone] at h'
  cases h with
  | below hK => exact hbelow hK h'
  | lparen hK =>
    refine hstep hK (.inl rfl) (fun hnone => ?_) h'
    cases hnone

theorem Open.run (h : Open K) (hts : ∀ t ∈ ts, t.kind ≠ .eof) (h' : Need.run K ts = .ok K') :
    Open K' ∧ ∀ t ∈ ts, t.kind ≠ .illegal := by
  induction ts generalizing K with
  | nil =>
    cases h'
    exact ⟨h, nofun⟩
  | cons t ts ih =>
    rw [run_cons] at h'
    cases hK : Need.advance K t with
    | error e => rw [hK] at h'; cases h'
    | ok K₁ =>
      rw [hK] at h'
      obtain ⟨hopen, hill⟩ := h.advance (hts t (.head _)) hK
      obtain ⟨hopen', hills⟩ := ih hopen (fun t ht => hts t (.tail _ ht)) h'
      exact ⟨hopen', List.forall_mem_cons.mpr ⟨hill, hills⟩⟩

/-- A name. -/
def someName : Token := ⟨.ident, "x"⟩

/-- Tokens that meet a need. -/
def finish : Need → List Token
  | token .ident | operand => [someName]
  | token k => [k.token]
  | operators _ | alternative | program => []
  | semicolon => [Kind.semicolon.token]
  | parameters | moreParameters | arguments | moreArguments => [Kind.rparen.token]
  | statement => [someName, Kind.semicolon.token]
  | block => [Kind.rbrace.token]

/-- The tokens that meet the needs below start neither with an operator nor with `else`. -/
theorem Below.firstOf_finish (h : Below K) :
    Precedence.ofKind (kindOf (K.flatMap finish)) = .lowest ∧
      kindOf (K.flatMap finish) ≠ .elseWord := by
  induction h with
  | program => decide
  | @cons g K hg _ ih =>
    cases g with
    | token k =>
      cases k <;> first | exact ⟨rfl, ne_of_beq_false rfl⟩ | exact absurd hg (by decide)
    | operators | alternative => exact ih
    | statement | program => cases hg
    | _ => exact ⟨rfl, ne_of_beq_false rfl⟩

theorem Below.run_finish (h : Below K) : run K (K.flatMap finish ++ [.eof]) = .ok [] := by
  induction h with
  | program => rfl
  | @cons g K hg hK ih =>
    rw [List.flatMap_cons]
    obtain ⟨hlowest, helse⟩ := hK.firstOf_finish
    cases g with
    | statement | program => cases hg
    | operators power =>
      have hstop : ¬power < .ofKind (kindOf (K.flatMap finish)) := hlowest ▸ Nat.not_lt_zero _
      have hnone : (operators power).on (firstOf (K.flatMap finish)) = none := if_neg hstop
      exact (run_of_none hnone).trans ih
    | alternative =>
      have hnone : alternative.on (firstOf (K.flatMap finish)) = none := if_neg helse
      exact (run_of_none hnone).trans ih
    | token k => cases k <;> exact ih
    | _ => exact ih

/-- Whatever is needed can be met. -/
theorem Open.run_finish (h : Open K) : Need.run K (K.flatMap finish ++ [.eof]) = .ok [] := by
  cases h with
  | below h => exact h.run_finish
  | lparen h => exact h.run_finish

theorem spelled_finish {g : Need} (hg : g = token .lparen ∨ g.rests) :
    ∀ t ∈ g.finish, t.Spelled := by
  have hname : someName.Spelled := ⟨by decide, by decide, by decide⟩
  cases g with
  | token k =>
    have hk : k ∈ [Kind.lparen, .rparen, .lbrace, .ident, .assign] := by
      rcases hg with hg | hg
      · cases hg
        decide
      · exact List.mem_cons_of_mem _ (of_decide_eq_true hg)
    simp only [List.mem_cons, List.not_mem_nil, or_false] at hk
    rcases hk with rfl | rfl | rfl | rfl | rfl
    all_goals first | exact List.forall_mem_singleton.mpr rfl | exact List.forall_mem_singleton.mpr hname
  | statement | program => rcases hg with hg | hg <;> cases hg
  | operand => exact List.forall_mem_singleton.mpr hname
  | operators | alternative => exact nofun
  | _ => exact List.forall_mem_singleton.mpr rfl

theorem Open.spelled_finish (h : Open K) : ∀ t ∈ K.flatMap finish, t.Spelled := by
  have hbelow : ∀ {K}, Below K → ∀ t ∈ K.flatMap finish, t.Spelled := by
    intro K hK
    induction hK with
    | program => exact nofun
    | cons hg _ ih =>
      rw [List.flatMap_cons, List.forall_mem_append]
      exact ⟨Need.spelled_finish (.inr hg), ih⟩
  cases h with
  | below h => exact hbelow h
  | lparen h =>
    rw [List.flatMap_cons, List.forall_mem_append]
    exact ⟨Need.spelled_finish (.inl rfl), hbelow h⟩

end Need

end MonkeyLang
