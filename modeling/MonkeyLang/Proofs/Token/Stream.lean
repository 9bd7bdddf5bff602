import MonkeyLang.Proofs.Token.Lexer
import MonkeyLang.Proofs.Token.Separate

/-!
# Two ways to ask for a token

A reader is asked for its next token by `Lexer.next`, which gives the end of the text again and again,
or by `Lexer.next?`, which gives it once. Whatever the requests are and in whatever order they come, both
take from the same tokens (`Lexer.answers_share_tokens`): what is given are the tokens of the text and
then nothing but its end, and only an end that `next?` gave counts for `next?`.

`ask_of_not_ended` is what one request does. `Answers` is the account of any number of them: the tokens
given are those that the reader has lost, and the reader has ended if one of the answers says so.
-/

namespace MonkeyLang

namespace Lexer

/-- The ways to ask for a token, `Lexer.next` and `Lexer.next?`. -/
inductive Request where
  | next | next?
deriving DecidableEq, Repr

/-- What a request gives, and the reader after it. -/
def ask (l : Lexer) : Request → Option Token × Lexer
  | .next => (some l.next.1, l.next.2)
  | .next? => l.next?

/-- Some requests, one after the other, and what each of them gives. -/
def answers : List Request → Lexer → List (Request × Option Token)
  | [], _ => []
  | q :: qs, l => (q, (l.ask q).1) :: answers qs (l.ask q).2

/-- The reader after some requests. -/
def after : List Request → Lexer → Lexer
  | [], l => l
  | q :: qs, l => after qs (l.ask q).2

/-- The tokens that some answers give. -/
def given (as : List (Request × Option Token)) : List Token := as.filterMap (·.2)

/-- The answer by which `next?` gives the end of the text. -/
def lastAnswer : Request × Option Token := (.next?, some .eof)

/-- Asking by `next?` until it gives nothing: the tokens that it gives before, and the reader then. -/
inductive Collects : Lexer → List Token → Lexer → Prop where
  | stop : l.next? = (none, l') → Collects l [] l'
  | take : l.next? = (some t, l') → Collects l' ts l'' → Collects l (t :: ts) l''

/-- A reader whose `next?` has given the end of the text has nothing left to read. -/
def Spent (l : Lexer) : Prop := l.ended → l.unread = []

theorem Spent.tokens_eq_nil {l : Lexer} (hl : l.Spent) (h : l.ended) : l.tokens = [] := by
  rw [tokens, lexemes, hl h]
  rfl

/-! ## One request -/

/-- Once it has given the end of the text, `next?` gives nothing. -/
theorem next?_of_ended {l : Lexer} (h : l.ended) : l.next? = (none, l) := if_pos h

/-- Any other request gives the first of the tokens that are left, or the end of the text if none is,
and an end that `next?` gives is noted. -/
theorem ask_of_not_ended {l : Lexer} (hl : l.Spent) (q : Request) (h : ¬(q = .next? ∧ l.ended)) :
    ∃ l', l.ask q = (some (l.tokens.head?.getD .eof), l') ∧ l'.tokens = l.tokens.tail ∧
      (l'.ended ↔ l.ended ∨ q = .next? ∧ l.tokens = []) ∧ l'.Spent ∧ l'.size = l.size := by
  cases hts : l.tokens with
  | nil =>
    have hlexeme := lexeme?_of_tokens_eq_nil hts
    cases q with
    | next =>
      refine ⟨{ l with unread := [], offset := l.size }, ?_, rfl, by simp, fun _ => rfl, rfl⟩
      rw [ask, next, hlexeme]
      rfl
    | next? =>
      refine ⟨{ unread := [], offset := l.size, ended := true }, ?_, rfl, by simp, fun _ => rfl, rfl⟩
      rw [ask, next?, if_neg fun hended => h ⟨rfl, hended⟩, hlexeme]
      rfl
  | cons t ts =>
    obtain ⟨x, l', hlexeme, rfl, hts', hended', hsize⟩ := lexeme?_of_tokens_eq_cons hts
    have hended : ¬l.ended := fun hended => by
      rw [hl.tokens_eq_nil hended] at hts
      cases hts
    refine ⟨l', ?_, hts', by simp [hended', hended], fun h => absurd h (hended' ▸ hended), hsize⟩
    cases q with
    | next =>
      rw [ask, next, hlexeme]
      rfl
    | next? =>
      rw [ask, next?, if_neg hended, hlexeme]
      rfl

/-! ## Any number of requests -/

/-- How the answers of a reader relate it to the reader afterwards. -/
structure Answers (l : Lexer) (as : List (Request × Option Token)) (l' : Lexer) : Prop where
  given_eq : given as = l.tokens.take (given as).length ++
    List.replicate ((given as).length - l.tokens.length) .eof
  tokens_eq : l'.tokens = l.tokens.drop (given as).length
  count_add : as.count lastAnswer + l.ended.toNat = l'.ended.toNat
  spent : l'.Spent
  size_eq : l'.size = l.size

theorem answers_nil {l : Lexer} (hl : l.Spent) : l.Answers [] l :=
  ⟨by simp [given], rfl, Nat.zero_add _, hl, rfl⟩

/-- The first answer is `none` for a reader that has ended. -/
theorem Answers.cons_none {l : Lexer} (H : l.Answers as l') : l.Answers ((.next?, none) :: as) l' := by
  refine ⟨H.given_eq, H.tokens_eq, ?_, H.spent, H.size_eq⟩
  rw [List.count_cons_of_ne (by decide)]
  exact H.count_add

theorem given_cons (q : Request) (t : Token) (as : List (Request × Option Token)) :
    given ((q, some t) :: as) = t :: given as := rfl

/-- The tokens of a text give its end only after all of them. -/
theorem head?_getD_eq_eof (l : Lexer) : l.tokens.head?.getD .eof = .eof ↔ l.tokens = [] := by
  cases hts : l.tokens with
  | nil => simp
  | cons t ts =>
    have hkind : t.kind ≠ .eof := kind_ne_eof (hts ▸ List.mem_cons_self)
    refine iff_of_false (fun h => hkind ?_) (List.cons_ne_nil t ts)
    rw [show t = .eof from h]
    rfl

theorem take_append_eof (ts : List Token) (n : Nat) :
    ts.take (n + 1) ++ List.replicate (n + 1 - ts.length) .eof =
      ts.head?.getD .eof :: (ts.tail.take n ++ List.replicate (n - ts.tail.length) .eof) := by
  cases ts <;> simp [List.replicate_succ]

/-- The first answer is a token. -/
theorem Answers.cons_some {l l₁ l' : Lexer} (hl : ¬(q = .next? ∧ l.ended))
    (htokens : l₁.tokens = l.tokens.tail) (hended : l₁.ended ↔ l.ended ∨ q = .next? ∧ l.tokens = [])
    (hsize : l₁.size = l.size) (H : l₁.Answers as l') :
    l.Answers ((q, some (l.tokens.head?.getD .eof)) :: as) l' := by
  obtain ⟨hgiven, htokens', hcount, hspent, hsize'⟩ := H
  refine ⟨?_, ?_, ?_, hspent, hsize'.trans hsize⟩
  · rw [given_cons, List.length_cons, take_append_eof, ← htokens, ← hgiven]
  · rw [htokens', htokens, given_cons, List.length_cons, List.drop_tail]
  · -- this answer ends the reader if it is the last one of `next?`
    have hlast : (q, some (l.tokens.head?.getD .eof)) = lastAnswer ↔ q = .next? ∧ l.tokens = [] := by
      rw [lastAnswer, Prod.mk.injEq, Option.some.injEq, head?_getD_eq_eof]
    have hstep : (if (q, some (l.tokens.head?.getD .eof)) = lastAnswer then 1 else 0) +
        l.ended.toNat = l₁.ended.toNat := by
      by_cases hnow : q = .next? ∧ l.tokens = []
      · have hbefore : l.ended = false := by simpa [hnow.1] using hl
        have hafter : l₁.ended = true := hended.mpr (.inr hnow)
        rw [if_pos (hlast.mpr hnow), hbefore, hafter]
        rfl
      · rw [if_neg (mt hlast.mp hnow), Nat.zero_add]
        exact congrArg Bool.toNat (Bool.eq_iff_iff.mpr (hended.trans (or_iff_left hnow)).symm)
    rw [List.count_cons, ← hcount, ← hstep, Nat.add_assoc]
    simp only [beq_iff_eq]

theorem answers_after {l : Lexer} (hl : l.Spent) (qs : List Request) :
    l.Answers (l.answers qs) (l.after qs) := by
  induction qs generalizing l with
  | nil => exact answers_nil hl
  | cons q qs ih =>
    rw [answers, after]
    by_cases h : q = .next? ∧ l.ended
    · obtain ⟨rfl, hended⟩ := h
      rw [ask, next?_of_ended hended]
      exact (ih hl).cons_none
    · obtain ⟨l₁, hask, htokens, hended, hspent, hsize⟩ := ask_of_not_ended hl q h
      rw [hask]
      exact (ih hspent).cons_some h htokens hended hsize

/-- A request gives nothing exactly if it is `next?` of a reader that has ended. -/
theorem ask_eq_none_iff {l : Lexer} (hl : l.Spent) :
    (l.ask q).1 = none ↔ q = .next? ∧ l.ended := by
  by_cases h : q = .next? ∧ l.ended
  · refine iff_of_true ?_ h
    rw [h.1, ask, next?_of_ended h.2]
  · obtain ⟨l', hask, -⟩ := ask_of_not_ended hl q h
    refine iff_of_false ?_ h
    rw [hask]
    exact Option.some_ne_none _

theorem Answers.mem_iff {l : Lexer} (H : l.Answers as l') (hl : l.ended = false) :
    lastAnswer ∈ as ↔ l'.ended := by
  have hcount := H.count_add
  rw [← List.count_pos_iff]
  cases h : l'.ended <;> simp_all

/-- An answer in the middle, and the request that it answers. -/
theorem exists_of_answers {l : Lexer} (h : l.answers qs = before ++ (q, a) :: later) :
    ∃ qs', before = l.answers qs' ∧ a = ((l.after qs').ask q).1 := by
  induction before generalizing l qs with
  | nil =>
    cases qs with
    | nil => cases h
    | cons p qs =>
      cases h
      exact ⟨[], rfl, rfl⟩
  | cons b before ih =>
    cases qs with
    | nil => cases h
    | cons p qs =>
      rw [answers, List.cons_append] at h
      obtain ⟨rfl, hlater⟩ := List.cons.inj h
      obtain ⟨qs', rfl, ha⟩ := ih hlater
      exact ⟨p :: qs', rfl, ha⟩

/-! ## Collecting the rest -/

theorem Collects.unique (h : Collects l ts l') (h' : Collects l us l'') : ts = us ∧ l' = l'' := by
  induction h generalizing us with
  | stop hnone =>
    cases h' with
    | stop hnone' => exact ⟨rfl, congrArg Prod.snd (hnone.symm.trans hnone')⟩
    | take hsome => cases hnone.symm.trans hsome
  | take hsome _ ih =>
    cases h' with
    | stop hnone => cases hsome.symm.trans hnone
    | take hsome' h' =>
      cases hsome.symm.trans hsome'
      obtain ⟨rfl, rfl⟩ := ih h'
      exact ⟨rfl, rfl⟩

theorem collects_of_ended {l : Lexer} (hl : l.Spent) (h : l.ended) : Collects l [] l.toEnd := by
  refine .stop ?_
  rw [next?_of_ended h]
  obtain ⟨unread, offset, ended⟩ := l
  obtain rfl : unread = [] := hl h
  obtain rfl : ended = true := h
  rfl

theorem toEnd_congr {l l' : Lexer} (h : l'.size = l.size) : l'.toEnd = l.toEnd := by
  rw [toEnd, toEnd, h]

theorem collects_rest {l : Lexer} (hl : l.Spent) : Collects l l.rest l.toEnd := by
  by_cases hended : l.ended
  · rw [rest, if_pos hended]
    exact collects_of_ended hl hended
  rw [rest, if_neg hended]
  generalize hts : l.tokens = ts
  induction ts generalizing l with
  | nil =>
    obtain ⟨l', hask, -, hended', hspent, hsize⟩ := ask_of_not_ended hl .next? fun h => hended h.2
    rw [hts] at hask
    rw [← toEnd_congr hsize]
    exact .take hask (collects_of_ended hspent (hended'.mpr (.inr ⟨rfl, hts⟩)))
  | cons t ts ih =>
    obtain ⟨l', hask, htokens, hended', hspent, hsize⟩ := ask_of_not_ended hl .next? fun h => hended h.2
    rw [hts] at hask htokens
    have hgoes : ¬l'.ended := fun h => by simp_all
    rw [← toEnd_congr hsize]
    exact .take hask (ih hspent hgoes htokens)

/-- Tokens may be asked for in both ways and in any order. What is given are the tokens of the text, and
after the last of them the end of the text only. Nothing is given to `next?`, and to it alone, if it has
given the end before, which it does once at most, however often `next` has given it. And then to ask by
`next?` for the rest comes to an end: it gives the tokens that were not given yet, and the end of the
text unless it was given by `next?` before. -/
theorem answers_share_tokens (source : String) (requests : List Request) :
    let l := ofString source
    let answers := l.answers requests
    let n := (given answers).length
    given answers = l.tokens.take n ++ List.replicate (n - l.tokens.length) .eof ∧
      (∀ t ∈ l.tokens, t.kind ≠ .eof) ∧
      (∀ before q a later, answers = before ++ (q, a) :: later →
        (a = none ↔ q = .next? ∧ lastAnswer ∈ before)) ∧
      answers.count lastAnswer ≤ 1 ∧
      (l.after requests).rest =
        l.tokens.drop n ++ (if lastAnswer ∈ answers then [] else [.eof]) ∧
      ∀ ts l', (l.after requests).Collects ts l' ↔
        ts = (l.after requests).rest ∧ l' = (l.after requests).toEnd := by
  intro l as n
  have hl : l.Spent := nofun
  have H := answers_after hl requests
  refine ⟨H.given_eq, fun t => kind_ne_eof, fun before q a later has => ?_, ?_, ?_,
    fun ts l' => ⟨fun h => ?_, ?_⟩⟩
  · obtain ⟨qs, rfl, rfl⟩ := exists_of_answers has
    have H' := answers_after hl qs
    rw [ask_eq_none_iff H'.spent, H'.mem_iff rfl]
  · have hcount : as.count lastAnswer + 0 = _ := H.count_add
    have hle := (l.after requests).ended.toNat_le
    omega
  · have hmem := H.mem_iff rfl
    rw [rest, H.tokens_eq]
    by_cases hended : (l.after requests).ended
    · have hnil := H.tokens_eq ▸ H.spent.tokens_eq_nil hended
      rw [if_pos hended, if_pos (hmem.mpr hended), hnil, List.append_nil]
    · rw [if_neg hended, if_neg fun h => hended (hmem.mp h)]
  · exact h.unique (collects_rest H.spent)
  · rintro ⟨rfl, rfl⟩
    exact collects_rest H.spent

/-- The end is given by `next` and still by `next?`. -/
example : (ofString "a").answers [.next, .next, .next?, .next, .next?] =
    [(.next, some ⟨.ident, "a"⟩), (.next, some .eof), (.next?, some .eof), (.next, some .eof),
      (.next?, none)] := by decide +kernel

end Lexer

end MonkeyLang
