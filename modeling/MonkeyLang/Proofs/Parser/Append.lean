import MonkeyLang.Proofs.Parser.Accepts
import MonkeyLang.Proofs.Token.Boundary

/-!
# Texts one after the other

A text with as many opening as closing braces that ends with a semicolon is over with its last
statement: whatever follows it, the same statements are read from it (`readsAll_of_balanced`). Inside
of a construct the text can end only in a block that it leaves open, since no construct ends with a
semicolon and every other one is incomplete there.
-/

namespace MonkeyLang

/-- Statements one after the other, with anything after them. -/
inductive ReadsAll : List Token → List Stmt → List Token → Prop where
  | nil : ReadsAll ts [] ts
  | cons : t.kind ≠ .eof → Reads .statement (t :: ts) s ts₁ → ReadsAll ts₁ ss ts' →
    ReadsAll (t :: ts) (s :: ss) ts'

theorem ReadsAll.program (h : ReadsAll ts ss ts₁) (h' : Reads .program ts₁ ss' ts') :
    Reads .program ts (ss ++ ss') ts' := by
  induction h with
  | nil => exact h'
  | cons hk hs _ ih => exact .program hk hs (ih h')

/-- The blocks that a token opens, less those that it closes. -/
def Token.rise (t : Token) : Int :=
  if t.kind = .lbrace then 1 else if t.kind = .rbrace then -1 else 0

/-- The blocks that are open after some tokens and were not before. -/
def depth : List Token → Int
  | [] => 0
  | t :: ts => t.rise + depth ts

theorem depth_eq (ts : List Token) :
    depth ts = ts.countP (·.kind = .lbrace) - ts.countP (·.kind = .rbrace) := by
  induction ts with
  | nil => rfl
  | cons t ts ih =>
    rw [depth, ih, List.countP_cons, List.countP_cons, Token.rise]
    split
    · next h => simp [h]; omega
    split
    · next h => simp [h]; omega
    · next h h' => simp [h, h']

/-- The tokens of a whole text, or what is left of them, that ends with a semicolon. -/
def Concluded (ts : List Token) : Prop := Whole ts ∧ ∀ t ∈ ts.getLast?, t.kind = .semicolon

theorem Concluded.of_suffix (h : Concluded ts) (hs : ts' <:+ ts) : Concluded ts' := by
  obtain ⟨us, rfl⟩ := hs
  refine ⟨fun t ht => h.1 t (List.mem_append_right _ ht), fun t ht => h.2 t ?_⟩
  rw [List.getLast?_append, Option.mem_def.mp ht]
  rfl

/-- Of a concluded text, either nothing is left, since there was nothing or the text ends with more
than `d` blocks open, or more is left, `d` blocks are open there, and `T` holds whatever comes after
the text. -/
def Carries (d : Int) (ts ts' : List Token) (T : List Token → Prop) : Prop :=
  Concluded ts → ts' <:+ ts ∧ (ts' = [] ∧ (ts = [] ∨ d < depth ts) ∨
    ts' ≠ [] ∧ depth ts = d + depth ts' ∧ ∀ us, T us)

/-- The same of a statement, which may end with the text. -/
def Finishes (ts ts' : List Token) (T : List Token → Prop) : Prop :=
  Concluded ts → ts' <:+ ts ∧
    (ts' = [] ∧ 0 < depth ts ∨ depth ts = depth ts' ∧ ∀ us, T us)

theorem kindOf_append (h : ts ≠ []) (us : List Token) : kindOf (ts ++ us) = kindOf ts := by
  obtain ⟨t, ts, rfl⟩ := List.exists_cons_of_ne_nil h
  rfl

theorem dropSemicolon_append (h : ts ≠ []) (us : List Token) :
    dropSemicolon (ts ++ us) = dropSemicolon ts ++ us := by
  rw [dropSemicolon, dropSemicolon, kindOf_append h, List.tail_append_of_ne_nil h]
  split <;> rfl

theorem dropSemicolon_suffix (ts : List Token) : dropSemicolon ts <:+ ts := by
  unfold dropSemicolon
  split
  · exact List.tail_suffix ts
  · exact List.suffix_rfl

theorem depth_dropSemicolon (ts : List Token) : depth (dropSemicolon ts) = depth ts := by
  unfold dropSemicolon
  split
  · next hk =>
    cases ts with
    | nil => rfl
    | cons t ts =>
      have hrise : t.rise = 0 := by rw [Token.rise, show t.kind = .semicolon from hk]; rfl
      rw [List.tail_cons, depth, hrise, Int.zero_add]
  · rfl

namespace Carries

theorem refl (h : ts ≠ [] → ∀ us, T us) : Carries 0 ts ts T := by
  refine fun _ => ⟨List.suffix_rfl, ?_⟩
  by_cases hts : ts = []
  · exact .inl ⟨hts, .inl hts⟩
  · exact .inr ⟨hts, (Int.zero_add _).symm, h hts⟩

theorem map (h : Carries d ts ts' T) (hT : ts' ≠ [] → ∀ us, T us → T' us) :
    Carries d ts ts' T' := fun hc =>
  (h hc).imp_right (Or.imp_right fun ⟨hne, hd, h⟩ => ⟨hne, hd, fun us => hT hne us (h us)⟩)

theorem cons (hk : t.kind ≠ .semicolon) (h : ts ≠ [] → Carries d ts ts' T) :
    Carries (t.rise + d) (t :: ts) ts' T := by
  intro hc
  -- the text does not end with this token
  have hts : ts ≠ [] := by
    rintro rfl
    exact hk (hc.2 t rfl)
  obtain ⟨hs, h⟩ := h hts (hc.of_suffix (List.suffix_cons t ts))
  refine ⟨hs.trans (List.suffix_cons t ts), ?_⟩
  rcases h with ⟨hnil, hd⟩ | ⟨hne, hd, hT⟩
  · exact .inl ⟨hnil, .inr (Int.add_lt_add_left (hd.resolve_left hts) _)⟩
  · exact .inr ⟨hne, by rw [depth, hd, Int.add_assoc], hT⟩

theorem plain (hk : t.kind = k) (h : ts ≠ [] → Carries d ts ts' T)
    (hp : k ∉ [.semicolon, .lbrace, .rbrace] := by decide) : Carries d (t :: ts) ts' T := by
  subst hk
  simp only [List.mem_cons, List.not_mem_nil, or_false, not_or] at hp
  have hrise : t.rise = 0 := (if_neg hp.2.1).trans (if_neg hp.2.2)
  have hcons := cons hp.1 h
  rwa [hrise, Int.zero_add] at hcons

theorem lbrace (hk : t.kind = .lbrace) (h : Carries (-1) ts ts' T) : Carries 0 (t :: ts) ts' T := by
  have hrise : t.rise = 1 := if_pos hk
  have hcons := cons (by rw [hk]; decide) fun _ => h
  rwa [hrise] at hcons

theorem rbrace (hk : t.kind = .rbrace) (h : ∀ us, T us) : Carries (-1) (t :: ts) ts T := by
  have hrise : t.rise = -1 := by rw [Token.rise, hk]; rfl
  have hcons := cons (t := t) (by rw [hk]; decide) fun _ => show Carries 0 ts ts T from refl fun _ => h
  rwa [hrise] at hcons

theorem comp (h : Carries d₁ ts ts₁ T₁) (h' : Carries d₂ ts₁ ts' T₂)
    (hT : ts' ≠ [] → ∀ us, T₁ us → T₂ us → T us) (hd : d₁ + d₂ = d := by rfl)
    (hd₂ : d₂ ≤ 0 := by decide) : Carries d ts ts' T := by
  intro hc
  obtain ⟨hs, hfirst⟩ := h hc
  obtain ⟨hs', hthen⟩ := h' (hc.of_suffix hs)
  refine ⟨hs'.trans hs, ?_⟩
  rcases hfirst with ⟨rfl, hopen⟩ | ⟨hne, hdepth, hT₁⟩
  · exact .inl ⟨List.suffix_nil.mp hs', hopen.imp_right fun h => by omega⟩
  rcases hthen with ⟨hnil, hopen⟩ | ⟨hne', hdepth', hT₂⟩
  · have hlt := hopen.resolve_left hne
    exact .inl ⟨hnil, .inr (by omega)⟩
  · exact .inr ⟨hne', by omega, fun us => hT hne' us (hT₁ us) (hT₂ us)⟩

theorem both (h : Carries d₁ ts ts₁ T₁) (h' : Carries d₂ ts₁ ts' T₂) (hd : d₁ + d₂ = d := by rfl)
    (hd₂ : d₂ ≤ 0 := by decide) : Carries d ts ts' fun us => T₁ us ∧ T₂ us :=
  h.comp h' (fun _ _ h h' => ⟨h, h'⟩) hd hd₂

theorem finishes (h : Carries 0 ts ts' T) (hts : ts ≠ []) : Finishes ts ts' T := by
  intro hc
  obtain ⟨hs, hopen | ⟨-, hdepth, hT⟩⟩ := h hc
  · exact ⟨hs, .inl ⟨hopen.1, hopen.2.resolve_left hts⟩⟩
  · exact ⟨hs, .inr ⟨hdepth.trans (Int.zero_add _), hT⟩⟩

theorem dropSemicolon (h : Carries 0 ts ts₁ T) (hts : ts ≠ [])
    (hT : ∀ us, dropSemicolon (ts₁ ++ us) = dropSemicolon ts₁ ++ us → T us → T' us) :
    Finishes ts (dropSemicolon ts₁) T' := by
  intro hc
  obtain ⟨hs, ⟨rfl, hopen⟩ | ⟨hne, hdepth, hTs⟩⟩ := h hc
  · exact ⟨hs, .inl ⟨rfl, hopen.resolve_left hts⟩⟩
  · refine ⟨(dropSemicolon_suffix ts₁).trans hs, .inr ⟨?_, fun us => ?_⟩⟩
    · rw [depth_dropSemicolon, hdepth, Int.zero_add]
    · exact hT us (dropSemicolon_append hne us) (hTs us)

end Carries

theorem Finishes.comp (h : Finishes ts ts₁ T₁) (h' : Carries (-1) ts₁ ts' T₂)
    (hT : ∀ us, T₁ us → T₂ us → T us) : Carries (-1) ts ts' T := by
  intro hc
  obtain ⟨hs, hfirst⟩ := h hc
  obtain ⟨hs', hthen⟩ := h' (hc.of_suffix hs)
  refine ⟨hs'.trans hs, ?_⟩
  rcases hfirst with ⟨rfl, hopen⟩ | ⟨hdepth, hT₁⟩
  · exact .inl ⟨List.suffix_nil.mp hs', .inr (by omega)⟩
  rcases hthen with ⟨hnil, hopen⟩ | ⟨hne', hdepth', hT₂⟩
  · refine .inl ⟨hnil, .inr ?_⟩
    rcases hopen with rfl | hopen
    · rw [hdepth]; decide
    · omega
  · exact .inr ⟨hne', by omega, fun us => hT us (hT₁ us) (hT₂ us)⟩

/-- What a parse without errors tells of a concluded text. -/
def Goal.Carries : (g : Goal) → List Token → g.Result → List Token → Prop
  | .program, ts, ss, _ => Concluded ts → depth ts = 0 → ∀ us, ReadsAll (ts ++ us) ss us
  | .statement, ts, s, ts' => Finishes ts ts' fun us => Reads .statement (ts ++ us) s (ts' ++ us)
  | .statements, ts, ss, ts' =>
    MonkeyLang.Carries (-1) ts ts' fun us => Reads .statements (ts ++ us) ss (ts' ++ us)
  | g, ts, a, ts' => MonkeyLang.Carries 0 ts ts' fun us => Reads g (ts ++ us) a (ts' ++ us)

theorem not_mem_of_lt {power : Precedence} (h : power < .ofKind k) :
    k ∉ [.semicolon, .lbrace, .rbrace] := by
  intro hk
  simp only [List.mem_cons, List.not_mem_nil, or_false] at hk
  rcases hk with rfl | rfl | rfl <;> exact Nat.not_lt_zero _ h

theorem Reads.carries (h : Reads g ts a ts') : g.Carries ts a ts' := by
  induction h with
  | noParameters ht => exact .plain ht fun _ => .refl fun _ us => .noParameters ht
  | parameters ht _ ih => exact .plain ht fun _ => ih.map fun _ us h => .parameters ht h
  | lastParameter ht => exact .plain ht fun _ => .refl fun _ us => .lastParameter ht
  | nextParameter ht hu _ ih =>
    exact .plain ht fun _ => .plain hu fun _ => ih.map fun _ us h => .nextParameter ht hu h
  | expression _ _ ih ih' => exact ih.comp ih' fun _ us h h' => .expression h h'
  | stop h => exact .refl fun hne us => .stop (kindOf_append hne us ▸ h)
  | binary h ht _ _ ih ih' =>
    exact .plain rfl (fun _ => ih.comp ih' fun _ us hr he => .binary h ht hr he) (not_mem_of_lt h)
  | callEmpty h ht hu _ ih =>
    exact .plain ht fun _ => .plain hu fun _ => ih.map fun _ us he => .callEmpty h ht hu he
  | call h ht hk _ _ _ ih ih' ih'' =>
    refine .plain ht fun hne => ih.comp (ih'.both ih'')
      fun _ us ha hs => .call h ht ?_ ha hs.1 hs.2
    exact fun hr => hk ((kindOf_append hne us).symm.trans hr)
  | ident ht => exact .plain ht fun _ => .refl fun _ us => .ident ht
  | int ht hn => exact .plain ht fun _ => .refl fun _ us => .int ht hn
  | true ht => exact .plain ht fun _ => .refl fun _ us => .true ht
  | false ht => exact .plain ht fun _ => .refl fun _ us => .false ht
  | unary ht _ ih =>
    refine .plain rfl (fun _ => ih.map fun _ us h => .unary ht h) ?_
    rcases ht with ht | ht <;> rw [ht] <;> decide
  | group ht _ hu ih =>
    exact .plain ht fun _ => ih.comp (.plain hu fun _ => .refl fun _ us => trivial)
      fun _ us h _ => .group ht h hu
  | cond ht hu _ hv hw _ hk ih ih' =>
    refine .plain ht fun _ => .plain hu fun _ => ih.comp (.plain hv fun _ => .lbrace hw ih')
      fun hne us h h' => .cond ht hu h hv hw h' ?_
    rwa [kindOf_append hne]
  | condElse ht hu _ hv hw _ hx hy _ ih ih' ih'' =>
    exact .plain ht fun _ => .plain hu fun _ => ih.comp (.plain hv fun _ => .lbrace hw
      (ih'.both (.plain hx fun _ => .lbrace hy ih'')))
      fun _ us h hs => .condElse ht hu h hv hw hs.1 hx hy hs.2
  | function ht hu _ hw _ ih ih' =>
    exact .plain ht fun _ => .plain hu fun _ => ih.comp (.lbrace hw ih')
      fun _ us h h' => .function ht hu h hw h'
  | lastArgument ht => exact .plain ht fun _ => .refl fun _ us => .lastArgument ht
  | nextArgument ht _ _ ih ih' =>
    exact .plain ht fun _ => ih.comp ih' fun _ us h h' => .nextArgument ht h h'
  | @endOfStatements ts hk =>
    intro hc
    cases ts with
    | nil => exact ⟨List.suffix_rfl, .inl ⟨rfl, .inl rfl⟩⟩
    | cons t ts =>
      replace hk : t.kind = .rbrace := hk.resolve_right (hc.1 t (.head _))
      exact Carries.rbrace hk (fun us => .endOfStatements (.inl hk)) hc
  | statements hk hk' _ _ ih ih' => exact ih.comp ih' fun us h h' => .statements hk hk' h h'
  | letStmt ht hu hv _ ih =>
    refine Carries.dropSemicolon (.plain ht fun _ => .plain hu fun _ => .plain hv fun _ => ih)
      (List.cons_ne_nil _ _) fun us hdrop h => ?_
    exact hdrop ▸ .letStmt ht hu hv h
  | returnStmt ht _ ih =>
    refine Carries.dropSemicolon (.plain ht fun _ => ih) (List.cons_ne_nil _ _) fun us hdrop h => ?_
    exact hdrop ▸ .returnStmt ht h
  | blockStmt ht _ ih =>
    exact Carries.finishes (.lbrace ht (ih.map fun _ us h => .blockStmt ht h)) (List.cons_ne_nil _ _)
  | exprStmt hlet hreturn hbrace _ ih =>
    refine Carries.dropSemicolon ih (List.cons_ne_nil _ _) fun us hdrop h => ?_
    exact hdrop ▸ .exprStmt hlet hreturn hbrace h
  | @endOfProgram ts hk =>
    intro hc _ us
    cases ts with
    | nil => exact .nil
    | cons t ts => exact absurd hk (hc.1 t (.head _))
  | program hk _ _ ih ih' =>
    intro hc hdepth us
    obtain ⟨hs, ⟨-, hopen⟩ | ⟨heq, hstmt⟩⟩ := ih hc
    · omega
    · exact .cons hk (hstmt us) (ih' (hc.of_suffix hs) (heq.symm.trans hdepth) us)

/-- The statements of a text that is balanced and concluded are read whatever comes after it. -/
theorem readsAll_of_balanced (h : Reads .program ts ss ts') (hc : Concluded ts)
    (hdepth : depth ts = 0) (us : List Token) : ReadsAll (ts ++ us) ss us :=
  h.carries hc hdepth us

/-! ## Joined texts -/

/-- A text that parses, with as many opening as closing braces and a semicolon as its last token. -/
structure Standalone (source : String) : Prop where
  parses : (parse source).2 = []
  braces : (Lexer.ofString source).tokens.countP (·.kind = .lbrace) =
    (Lexer.ofString source).tokens.countP (·.kind = .rbrace)
  semicolon : (Lexer.ofString source).tokens.getLast?.map (·.kind) = some .semicolon

instance : Decidable (Standalone source) :=
  decidable_of_iff (_ ∧ _ ∧ _) ⟨fun ⟨h, h', h''⟩ => ⟨h, h', h''⟩, fun ⟨h, h', h''⟩ => ⟨h, h', h''⟩⟩

namespace Standalone

theorem reads (h : Standalone source) :
    Reads .program (Lexer.ofString source).tokens (parse source).1.statements [] := by
  have hw : Whole (Lexer.ofString source).tokens := fun t => Lexer.kind_ne_eof
  obtain ⟨ss, ts', hread⟩ := reads_of_parse h.parses
  rw [parse_of_reads hread]
  exact hread.eq_nil hw ▸ hread

theorem readsAll (h : Standalone source) (us : List Token) :
    ReadsAll ((Lexer.ofString source).tokens ++ us) (parse source).1.statements us := by
  refine readsAll_of_balanced h.reads ⟨fun t => Lexer.kind_ne_eof, fun t ht => ?_⟩ ?_ us
  · have hlast := h.semicolon
    rw [Option.mem_def.mp ht] at hlast
    exact Option.some.inj hlast
  · rw [depth_eq, h.braces, Int.sub_self]

theorem statements_ne_nil (h : Standalone source) : (parse source).1.statements ≠ [] := by
  intro hnil
  have hread := h.readsAll []
  rw [hnil] at hread
  generalize heq : (Lexer.ofString source).tokens ++ [] = ts at hread
  cases hread with
  | nil =>
    have hlast := h.semicolon
    rw [(List.append_nil _).symm.trans heq] at hlast
    cases hlast

end Standalone

/-- The statements of texts one after the other. -/
def statementsOf (sources : List String) : List Stmt :=
  sources.flatMap fun source => (parse source).1.statements

/-- The program of texts that are joined line by line is that of their statements. -/
theorem parse_intercalate (h : ∀ source ∈ sources, Standalone source) :
    parse ("\n".intercalate sources) = (⟨statementsOf sources⟩, []) := by
  suffices h : Reads .program (Lexer.ofString ("\n".intercalate sources)).tokens
      (statementsOf sources) [] from parse_of_reads h
  induction sources with
  | nil =>
    rw [String.intercalate_nil]
    exact .endOfProgram rfl
  | cons source rest ih =>
    obtain ⟨hsource, hrest⟩ := List.forall_mem_cons.mp h
    cases rest with
    | nil =>
      rw [String.intercalate_singleton, statementsOf, List.flatMap_singleton]
      exact hsource.reads
    | cons source' rest =>
      rw [String.intercalate_cons_cons, Lexer.tokens_append_newline]
      exact (hsource.readsAll _).program (ih hrest)

end MonkeyLang
