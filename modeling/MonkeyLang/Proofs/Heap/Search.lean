import Mathlib.Order.WellFounded
import Mathlib.Data.Prod.Lex
import MonkeyLang.Proofs.Heap.Reachability

/-!
# Searching the scopes in any order

`Heap.Search` is a search with a stack of scopes to go on with: it takes the scope on top and puts
those that it leads to in its place, in whatever order they come, unless the scope was seen before.
Whichever order that is, the search ends, for each step either sees one more scope of the heap or
shortens the stack; and it ends with the target on top exactly if a path leads there
(`Heap.Search.Valid.verdict`). So all these searches agree with `Heap.reaches`, which goes through
the scopes in layers (`Heap.reaches_iff_links`).
-/

namespace MonkeyLang

open Relation (ReflTransGen)

namespace Heap

/-- A step of the graph of scopes: to the scope around, or to the scope that a function bound here
was made in. -/
def Links (h : Heap) (a b : ScopeId) : Prop :=
  ∃ s, h.scope? a = some s ∧ (s.outer = some b ∨ ∃ x c, (x, Value.closure c) ∈ s.bindings ∧ c.scope = b)

theorem scopeOf?_eq_some {v : Value} : scopeOf? v = some a ↔ ∃ c, v = .closure c ∧ c.scope = a := by
  cases v <;> simp [scopeOf?]

theorem mem_next_iff_links {h : Heap} : b ∈ h.next a ↔ h.Links a b := by
  rw [mem_next, Links]
  simp only [scopeOf?_eq_some, Prod.exists]
  constructor
  · rintro ⟨s, hs, ho | ⟨x, v, hx, c, rfl, hc⟩⟩
    · exact ⟨s, hs, .inl ho⟩
    · exact ⟨s, hs, .inr ⟨x, c, hx, hc⟩⟩
  · rintro ⟨s, hs, ho | ⟨x, c, hx, hc⟩⟩
    · exact ⟨s, hs, .inl ho⟩
    · exact ⟨s, hs, .inr ⟨x, .closure c, hx, c, rfl, hc⟩⟩

theorem path_iff_links {h : Heap} : h.Path a b ↔ ReflTransGen h.Links a b := by
  have hlinks : (fun a b => b ∈ h.next a) = h.Links :=
    funext fun a => funext fun b => propext mem_next_iff_links
  rw [Path, hlinks]

/-- A search under way: the scopes to go on with, the next one first, and the scopes seen. -/
structure Search where
  pending : List ScopeId
  seen : Std.TreeSet ScopeId

namespace Search

/-- A search that starts at the scope of a function. -/
def start (v : Value) : Search := ⟨(scopeOf? v).toList, {}⟩

/-- One round of a search. The scopes that a scope leads to may come in any order. -/
inductive Step (h : Heap) (target : ScopeId) : Search → Search → Prop
  | skip {S : Std.TreeSet ScopeId} : a ≠ target → a ∈ S → Step h target ⟨a :: rest, S⟩ ⟨rest, S⟩
  | visit {S : Std.TreeSet ScopeId} : a ≠ target → a ∉ S → List.Perm found (h.next a) →
    Step h target ⟨a :: rest, S⟩ ⟨found ++ rest, S.insert a⟩

variable {h : Heap} {target : ScopeId} {v : Value}

/-- A search can go on as long as there is a scope to go on with that is not the target. -/
theorem exists_step (ha : a ≠ target) (rest : List ScopeId) (S : Std.TreeSet ScopeId) :
    ∃ q, Step h target ⟨a :: rest, S⟩ q := by
  by_cases hs : a ∈ S
  · exact ⟨_, .skip ha hs⟩
  · exact ⟨_, .visit ha hs (.refl _)⟩

/-! ## Every search ends -/

/-- The scopes not seen yet, and the scopes to go on with. -/
def rank (h : Heap) (q : Search) : Nat ×ₗ Nat := toLex (h.unseen q.seen, q.pending.length)

theorem Step.rank_lt (hs : Step h target q q') : rank h q' < rank h q := by
  rw [rank, rank, Prod.Lex.toLex_lt_toLex]
  cases hs with
  | skip => exact .inr ⟨rfl, Nat.lt_succ_self _⟩
  | @visit a found rest seen _ hnew hperm =>
    have hle : ∀ c ∈ seen, c ∈ seen.insert a := fun c hc => Std.TreeSet.mem_insert.mpr (.inr hc)
    by_cases ha : a < h.size
    · exact .inl (unseen_lt hle ha hnew Std.TreeSet.mem_insert_self)
    · -- a scope that does not exist leads nowhere and does not count
      have hfound : found = [] := by
        refine List.eq_nil_iff_forall_not_mem.mpr fun b hb => ha ?_
        exact (Leads.of_mem_next (hperm.mem_iff.mp hb)).lt_size
      have hunseen : h.unseen (seen.insert a) = h.unseen seen := by
        refine List.countP_congr fun c hc => ?_
        have hca : a ≠ c := fun heq => ha (heq ▸ List.mem_range.mp hc)
        rw [Std.TreeSet.contains_insert]
        simp [hca]
      exact .inr ⟨hunseen, by simp [hfound]⟩

theorem wellFounded_step (h : Heap) (target : ScopeId) : WellFounded (flip (Step h target)) :=
  Subrelation.wf (fun hs => Step.rank_lt hs) (InvImage.wf (rank h) wellFounded_lt)

/-! ## What it finds -/

/-- What holds throughout a search: all scopes to go on with are reached, whatever the scopes seen
lead to is seen or still to come, and the target was not seen. -/
structure Valid (h : Heap) (target : ScopeId) (v : Value) (q : Search) : Prop where
  reached : ∀ a ∈ q.pending, ∃ r, scopeOf? v = some r ∧ h.Path r a
  closed : ∀ a ∈ q.seen, ∀ b ∈ h.next a, b ∈ q.pending ∨ b ∈ q.seen
  fresh : target ∉ q.seen
  start : ∀ r, scopeOf? v = some r → r ∈ q.pending ∨ r ∈ q.seen

theorem valid_start (h : Heap) (target : ScopeId) (v : Value) : (start v).Valid h target v where
  reached _ ha := ⟨_, Option.mem_toList.mp ha, .refl⟩
  closed _ ha := absurd ha Std.TreeSet.not_mem_emptyc
  fresh := Std.TreeSet.not_mem_emptyc
  start _ hr := .inl (Option.mem_toList.mpr hr)

theorem Valid.step (hq : q.Valid h target v) (hs : Step h target q q') : q'.Valid h target v := by
  obtain ⟨hreached, hclosed, hfresh, hstart⟩ := hq
  cases hs with
  | @skip a rest seen hne hmem =>
    have hcover : ∀ c, c ∈ a :: rest ∨ c ∈ seen → c ∈ rest ∨ c ∈ seen := by
      rintro c (hc | hc)
      · rcases List.mem_cons.mp hc with rfl | hc
        · exact .inr hmem
        · exact .inl hc
      · exact .inr hc
    exact ⟨fun c hc => hreached c (List.mem_cons_of_mem a hc),
      fun c hc b hb => hcover b (hclosed c hc b hb), hfresh, fun r hr => hcover r (hstart r hr)⟩
  | @visit a found rest seen hne hnew hperm =>
    have hseen : ∀ c, c ∈ seen.insert a ↔ c = a ∨ c ∈ seen := fun c => by
      rw [Std.TreeSet.mem_insert, Std.compare_eq_iff_eq, eq_comm]
    have hcover : ∀ c, c ∈ a :: rest ∨ c ∈ seen → c ∈ found ++ rest ∨ c ∈ seen.insert a := by
      rintro c (hc | hc)
      · rcases List.mem_cons.mp hc with rfl | hc
        · exact .inr ((hseen c).mpr (.inl rfl))
        · exact .inl (List.mem_append_right _ hc)
      · exact .inr ((hseen c).mpr (.inr hc))
    refine ⟨fun c hc => ?_, fun c hc b hb => ?_, fun ht => ?_, fun r hr => hcover r (hstart r hr)⟩
    · rcases List.mem_append.mp hc with hc | hc
      · obtain ⟨r, hr, hp⟩ := hreached a List.mem_cons_self
        exact ⟨r, hr, hp.tail (hperm.mem_iff.mp hc)⟩
      · exact hreached c (List.mem_cons_of_mem a hc)
    · rcases (hseen c).mp hc with rfl | hc
      · exact .inl (List.mem_append_left _ (hperm.mem_iff.mpr hb))
      · exact hcover b (hclosed c hc b hb)
    · exact ((hseen target).mp ht).elim (fun heq => hne heq.symm) hfresh

theorem Valid.run (hq : q.Valid h target v) (hs : ReflTransGen (Step h target) q q') :
    q'.Valid h target v := by
  induction hs with
  | refl => exact hq
  | tail _ hs ih => exact ih.step hs

/-- A search that can not go on has the target on top, which is reached, or nothing to go on with,
and then it is not reached. -/
theorem Valid.verdict (hq : q.Valid h target v) (hend : ∀ q', ¬Step h target q q') :
    (q.pending.head? = some target ∧ h.reaches v target = true) ∨
      (q.pending = [] ∧ h.reaches v target = false) := by
  obtain ⟨pending, seen⟩ := q
  cases pending with
  | cons a pending =>
    by_cases ha : a = target
    · subst ha
      exact .inl ⟨rfl, reaches_iff.mpr (hq.reached a List.mem_cons_self)⟩
    · obtain ⟨q', hs⟩ := exists_step (h := h) ha pending seen
      exact absurd hs (hend q')
  | nil =>
    refine .inr ⟨rfl, Bool.eq_false_iff.mpr fun hr => ?_⟩
    obtain ⟨r, hr, hp⟩ := reaches_iff.mp hr
    refine not_path_of_closed (P := (· ∈ seen)) (fun a ha b hb => ?_) ?_ hq.fresh hp
    · exact (hq.closed a ha b hb).resolve_left List.not_mem_nil
    · exact (hq.start r hr).resolve_left List.not_mem_nil

end Search

/-- The same scopes, with their bindings in another order. -/
def Reordered (h h' : Heap) : Prop :=
  ∀ a, Option.Rel (fun s s' => s.outer = s'.outer ∧ s.bindings.Perm s'.bindings) (h.scope? a)
    (h'.scope? a)

theorem Reordered.links {h h' : Heap} (H : h.Reordered h') : h.Links a b ↔ h'.Links a b := by
  have ha := H a
  unfold Links
  generalize h.scope? a = o, h'.scope? a = o' at ha
  cases ha with
  | none => simp
  | some hs => simp [hs.1, hs.2.mem_iff]

/-- The search for a scope finds it exactly if the value is a function and the scope is the one that
the function was made in or any number of steps further. A search that looks at the scopes in another
order always ends, with the same answer; and the order of the bindings makes no difference. -/
theorem reaches_iff_links (h : Heap) (v : Value) (target : ScopeId) :
    (h.reaches v target = true ↔ ∃ c, v = .closure c ∧ ReflTransGen h.Links c.scope target) ∧
      WellFounded (flip (Search.Step h target)) ∧
      (∀ q, ReflTransGen (Search.Step h target) (.start v) q → (∀ q', ¬Search.Step h target q q') →
        (q.pending.head? = some target ∧ h.reaches v target = true) ∨
          (q.pending = [] ∧ h.reaches v target = false)) ∧
      ∀ h', h.Reordered h' → h'.reaches v target = h.reaches v target := by
  have hiff : ∀ h : Heap, h.reaches v target = true ↔
      ∃ c, v = .closure c ∧ ReflTransGen h.Links c.scope target := fun h => by
    simp only [reaches_iff, scopeOf?_eq_some, path_iff_links]
    constructor
    · rintro ⟨_, ⟨c, hv, rfl⟩, hp⟩
      exact ⟨c, hv, hp⟩
    · rintro ⟨c, hv, hp⟩
      exact ⟨_, ⟨c, hv, rfl⟩, hp⟩
  refine ⟨hiff h, Search.wellFounded_step h target, fun q hrun hend => ?_, fun h' H => ?_⟩
  · exact ((Search.valid_start h target v).run hrun).verdict hend
  · have hlinks : h.Links = h'.Links :=
      funext fun a => funext fun b => propext H.links
    rw [Bool.eq_iff_iff, hiff, hiff, hlinks]

/-- The function `fn() { }`, made in a scope. -/
def emptyFunction (a : ScopeId) : Closure := ⟨[], ⟨⟨.lbrace, "\x7b"⟩, []⟩, a, ⟨0, []⟩⟩

/-- Two scopes, the second within the first, and in the first a number and a function made in the
second. -/
def cyclic (bindings : List (String × Value)) : Heap := ⟨#[⟨none, bindings⟩, ⟨some 0, []⟩]⟩

/-- A function of the first scope leads to the second, in either order of the bindings, and a search
finds this out in one round. -/
theorem reaches_iff_links_cyclic :
    let h := cyclic [("n", .int 1), ("f", .closure (emptyFunction 1))]
    let h' := cyclic [("f", .closure (emptyFunction 1)), ("n", .int 1)]
    let v : Value := .closure (emptyFunction 0)
    let q : Search := ⟨[1] ++ [], ({} : Std.TreeSet ScopeId).insert 0⟩
    ReflTransGen h.Links 0 1 ∧ h.reaches v 1 = true ∧
      ReflTransGen (Search.Step h 1) (.start v) q ∧ (∀ q', ¬Search.Step h 1 q q') ∧
      q.pending.head? = some 1 ∧ h.Reordered h' ∧ h'.reaches v 1 = true := by
  intro h h' v q
  have hlinks : ReflTransGen h.Links 0 1 :=
    .single ⟨_, rfl, .inr ⟨"f", emptyFunction 1, .tail _ (.head _), rfl⟩⟩
  have hrun : ReflTransGen (Search.Step h 1) (.start v) q :=
    .single (.visit (by decide) Std.TreeSet.not_mem_emptyc (.refl _))
  have hend : ∀ q', ¬Search.Step h 1 q q' := by
    intro q' hs
    change Search.Step h 1 ⟨1 :: [], _⟩ q' at hs
    cases hs with
    | skip hne | visit hne => exact hne rfl
  have hreordered : h.Reordered h' := fun
    | 0 => .some ⟨rfl, .swap ..⟩
    | 1 => .some ⟨rfl, .refl _⟩
    | _ + 2 => .none
  obtain ⟨hiff, -, hfinished, horder⟩ := reaches_iff_links h v 1
  have hreaches : h.reaches v 1 = true := hiff.mpr ⟨emptyFunction 0, rfl, hlinks⟩
  have hhead := (hfinished q hrun hend).resolve_right fun hno => by simp [hreaches] at hno
  exact ⟨hlinks, hreaches, hrun, hend, hhead.1, hreordered, (horder h' hreordered).trans hreaches⟩

end Heap

end MonkeyLang
