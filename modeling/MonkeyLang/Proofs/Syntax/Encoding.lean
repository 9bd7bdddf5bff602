import MonkeyLang.Proofs.Json.Written
import MonkeyLang.Syntax.Encoding

/-!
# Trees as JSON and back

A tree is read back from its JSON value, the depth of which is budget enough (`Program.ofJson?_toJson`),
and so from each text of that value. Hence no text is one of two programs (`Program.eq_of_written`).
-/

namespace MonkeyLang

open Json

/-! ## Access -/

namespace Json

attribute [simp] string? array?

@[simp] theorem field?_object_cons (key k : String) (x : Json) (fs : List (String × Json)) :
    (object ((k, x) :: fs)).field? key = if key = k then some x else (object fs).field? key := by
  by_cases h : key = k <;> simp [field?, List.lookup_cons, h, beq_false_of_ne]

@[simp] theorem int64?_toInt (n : Int64) : (int n.toInt).int64? = some n :=
  toInt64?_eq_some_iff.mpr rfl

/-- The parts of a form are two levels further down. -/
theorem depth_tagged_le_iff {form : String} {parts : List (String × Json)} {n : Nat} :
    (tagged form parts).depth ≤ n + 1 ↔ depthOfFields parts < n := by
  simp only [tagged, depth, depthOfFields]
  omega

end Json

/-! ## Reading a tree back -/

@[simp] theorem Token.ofJson?_toJson (t : Token) : Token.ofJson? t.toJson = some t := by
  simp [Token.ofJson?, Token.toJson, Kind.ofName?_name]

@[simp] theorem Identifier.ofJson?_toJson (id : Identifier) :
    Identifier.ofJson? id.toJson = some id := by
  simp [Identifier.ofJson?, Identifier.toJson]

@[simp] theorem Identifier.mapM_ofJson?_toJson (ids : List Identifier) :
    ids.mapM (Identifier.ofJson? ∘ (·.toJson)) = some ids := by
  induction ids with
  | nil => rfl
  | cons id ids ih => simp [ih]

/-! The parts that are read of each form. -/

section
variable (n : Nat) (t : Token)

namespace Expr

theorem ofJsonWithin_ident (id : Identifier) :
    ofJsonWithin (n + 1) (ident id).toJson = (do
      let id ← Identifier.ofJson? id.toJson
      pure (ident id)) := rfl

theorem ofJsonWithin_int (k : Int64) :
    ofJsonWithin (n + 1) (int t k).toJson = (do
      let t ← Token.ofJson? t.toJson
      let k ← (Json.int k.toInt).int64?
      pure (int t k)) := rfl

theorem ofJsonWithin_bool (b : Bool) :
    ofJsonWithin (n + 1) (bool t b).toJson = (do
      let t ← Token.ofJson? t.toJson
      pure (bool t b)) := rfl

theorem ofJsonWithin_unary (op : String) (e : Expr) :
    ofJsonWithin (n + 1) (unary t op e).toJson = (do
      let t ← Token.ofJson? t.toJson
      let e ← ofJsonWithin n e.toJson
      pure (unary t op e)) := rfl

theorem ofJsonWithin_binary (l : Expr) (op : String) (r : Expr) :
    ofJsonWithin (n + 1) (binary t l op r).toJson = (do
      let t ← Token.ofJson? t.toJson
      let l ← ofJsonWithin n l.toJson
      let r ← ofJsonWithin n r.toJson
      pure (binary t l op r)) := rfl

theorem ofJsonWithin_cond_none (c : Expr) (b : Block) :
    ofJsonWithin (n + 1) (cond t c b none).toJson = (do
      let t ← Token.ofJson? t.toJson
      let c ← ofJsonWithin n c.toJson
      let b ← Block.ofJsonWithin n b.toJson
      pure (cond t c b none)) := rfl

/-- A block is not taken for a missing one. -/
theorem ofJsonWithin_cond_some (c : Expr) (b a : Block) :
    ofJsonWithin (n + 1) (cond t c b (some a)).toJson = (do
      let t ← Token.ofJson? t.toJson
      let c ← ofJsonWithin n c.toJson
      let b ← Block.ofJsonWithin n b.toJson
      let a ← Block.ofJsonWithin n a.toJson
      pure (cond t c b (some a))) := by
  cases a
  rfl

theorem ofJsonWithin_function (ids : List Identifier) (b : Block) :
    ofJsonWithin (n + 1) (function t ids b).toJson = (do
      let t ← Token.ofJson? t.toJson
      let ids ← (ids.map (·.toJson)).mapM Identifier.ofJson?
      let b ← Block.ofJsonWithin n b.toJson
      pure (function t ids b)) := rfl

theorem ofJsonWithin_call (f : Expr) (es : List Expr) :
    ofJsonWithin (n + 1) (call t f es).toJson = (do
      let t ← Token.ofJson? t.toJson
      let f ← ofJsonWithin n f.toJson
      let es ← (eachToJson es).mapM (ofJsonWithin n)
      pure (call t f es)) := rfl

end Expr

namespace Stmt

theorem ofJsonWithin_letStmt (id : Identifier) (e : Expr) :
    ofJsonWithin (n + 1) (letStmt t id e).toJson = (do
      let t ← Token.ofJson? t.toJson
      let id ← Identifier.ofJson? id.toJson
      let e ← Expr.ofJsonWithin n e.toJson
      pure (letStmt t id e)) := rfl

theorem ofJsonWithin_returnStmt (e : Expr) :
    ofJsonWithin (n + 1) (returnStmt t e).toJson = (do
      let t ← Token.ofJson? t.toJson
      let e ← Expr.ofJsonWithin n e.toJson
      pure (returnStmt t e)) := rfl

theorem ofJsonWithin_expr (e : Expr) :
    ofJsonWithin (n + 1) (expr t e).toJson = (do
      let t ← Token.ofJson? t.toJson
      let e ← Expr.ofJsonWithin n e.toJson
      pure (expr t e)) := rfl

theorem ofJsonWithin_block (b : Block) :
    ofJsonWithin (n + 1) (block b).toJson = (do
      let b ← Block.ofJsonWithin n b.toJson
      pure (block b)) := rfl

end Stmt

theorem Block.ofJsonWithin_mk (ss : List Stmt) :
    ofJsonWithin (n + 1) (Block.mk t ss).toJson = (do
      let t ← Token.ofJson? t.toJson
      let ss ← (Stmt.eachToJson ss).mapM (Stmt.ofJsonWithin n)
      pure ⟨t, ss⟩) := rfl

end

mutual

theorem Expr.ofJsonWithin_toJson : (e : Expr) → {n : Nat} → e.toJson.depth ≤ n →
    Expr.ofJsonWithin n e.toJson = some e
  | .ident id, n + 1, _ => by simp [Expr.ofJsonWithin_ident]
  | .int t k, n + 1, _ => by simp [Expr.ofJsonWithin_int]
  | .bool t b, n + 1, _ => by simp [Expr.ofJsonWithin_bool]
  | .unary t op e, n + 1, hn => by
    simp only [Expr.toJson, Json.depth_tagged_le_iff, Json.depthOfFields, Nat.max_lt] at hn
    have he := e.ofJsonWithin_toJson (Nat.le_of_lt hn.2.2.1)
    simp [Expr.ofJsonWithin_unary, he]
  | .binary t l op r, n + 1, hn => by
    simp only [Expr.toJson, Json.depth_tagged_le_iff, Json.depthOfFields, Nat.max_lt] at hn
    obtain ⟨-, hl, -, hr, -⟩ := hn
    simp [Expr.ofJsonWithin_binary, l.ofJsonWithin_toJson (Nat.le_of_lt hl),
      r.ofJsonWithin_toJson (Nat.le_of_lt hr)]
  | .cond t c b none, n + 1, hn => by
    simp only [Expr.toJson, Json.depth_tagged_le_iff, Json.depthOfFields, Nat.max_lt] at hn
    obtain ⟨-, hc, hb, -⟩ := hn
    simp [Expr.ofJsonWithin_cond_none, c.ofJsonWithin_toJson (Nat.le_of_lt hc),
      b.ofJsonWithin_toJson (Nat.le_of_lt hb)]
  | .cond t c b (some a), n + 1, hn => by
    simp only [Expr.toJson, Json.depth_tagged_le_iff, Json.depthOfFields, Nat.max_lt, Block.toJson?] at hn
    obtain ⟨-, hc, hb, ha, -⟩ := hn
    simp [Expr.ofJsonWithin_cond_some, c.ofJsonWithin_toJson (Nat.le_of_lt hc),
      b.ofJsonWithin_toJson (Nat.le_of_lt hb), a.ofJsonWithin_toJson (Nat.le_of_lt ha)]
  | .function t ids b, n + 1, hn => by
    simp only [Expr.toJson, Json.depth_tagged_le_iff, Json.depthOfFields, Nat.max_lt] at hn
    obtain ⟨-, -, hb, -⟩ := hn
    simp [Expr.ofJsonWithin_function, b.ofJsonWithin_toJson (Nat.le_of_lt hb)]
  | .call t f es, n + 1, hn => by
    simp only [Expr.toJson, Json.depth_tagged_le_iff, Json.depthOfFields, Nat.max_lt, Json.depth] at hn
    obtain ⟨-, hf, hes, -⟩ := hn
    have hes := Expr.mapM_ofJsonWithin_toJson es (Nat.le_of_lt (Nat.lt_of_succ_lt hes))
    simp [Expr.ofJsonWithin_call, f.ofJsonWithin_toJson (Nat.le_of_lt hf), hes]

theorem Expr.mapM_ofJsonWithin_toJson : (es : List Expr) → {n : Nat} →
    Json.depthOfItems (Expr.eachToJson es) ≤ n →
    (Expr.eachToJson es).mapM (Expr.ofJsonWithin n) = some es
  | [], _, _ => rfl
  | e :: es, n, hn => by
    simp only [Expr.eachToJson, Json.depthOfItems, Nat.max_le] at hn
    simp [Expr.eachToJson, e.ofJsonWithin_toJson hn.1, Expr.mapM_ofJsonWithin_toJson es hn.2]

theorem Stmt.ofJsonWithin_toJson : (s : Stmt) → {n : Nat} → s.toJson.depth ≤ n →
    Stmt.ofJsonWithin n s.toJson = some s
  | .letStmt t id e, n + 1, hn => by
    simp only [Stmt.toJson, Json.depth_tagged_le_iff, Json.depthOfFields, Nat.max_lt] at hn
    obtain ⟨-, -, he, -⟩ := hn
    simp [Stmt.ofJsonWithin_letStmt, e.ofJsonWithin_toJson (Nat.le_of_lt he)]
  | .returnStmt t e, n + 1, hn => by
    simp only [Stmt.toJson, Json.depth_tagged_le_iff, Json.depthOfFields, Nat.max_lt] at hn
    obtain ⟨-, he, -⟩ := hn
    simp [Stmt.ofJsonWithin_returnStmt, e.ofJsonWithin_toJson (Nat.le_of_lt he)]
  | .expr t e, n + 1, hn => by
    simp only [Stmt.toJson, Json.depth_tagged_le_iff, Json.depthOfFields, Nat.max_lt] at hn
    obtain ⟨-, he, -⟩ := hn
    simp [Stmt.ofJsonWithin_expr, e.ofJsonWithin_toJson (Nat.le_of_lt he)]
  | .block b, n + 1, hn => by
    simp only [Stmt.toJson, Json.depth, Json.depthOfFields] at hn
    have hb := b.ofJsonWithin_toJson (n := n) (by omega)
    simp [Stmt.ofJsonWithin_block, hb]

theorem Stmt.mapM_ofJsonWithin_toJson : (ss : List Stmt) → {n : Nat} →
    Json.depthOfItems (Stmt.eachToJson ss) ≤ n →
    (Stmt.eachToJson ss).mapM (Stmt.ofJsonWithin n) = some ss
  | [], _, _ => rfl
  | s :: ss, n, hn => by
    simp only [Stmt.eachToJson, Json.depthOfItems, Nat.max_le] at hn
    simp [Stmt.eachToJson, s.ofJsonWithin_toJson hn.1, Stmt.mapM_ofJsonWithin_toJson ss hn.2]

theorem Block.ofJsonWithin_toJson : (b : Block) → {n : Nat} → b.toJson.depth ≤ n →
    Block.ofJsonWithin n b.toJson = some b
  | ⟨t, ss⟩, n + 1, hn => by
    simp only [Block.toJson, Json.depth, Json.depthOfFields] at hn
    have hss := Stmt.mapM_ofJsonWithin_toJson ss (n := n) (by omega)
    simp [Block.ofJsonWithin_mk, hss]

end

namespace Program

theorem ofJson?_toJson (p : Program) : Program.ofJson? p.toJson = some p := by
  have hdepth : Json.depthOfItems (Stmt.eachToJson p.statements) ≤ p.toJson.depth := by
    simp only [Program.toJson, Json.depth, Json.depthOfFields]
    omega
  rw [Program.toJson] at hdepth ⊢
  simp [Program.ofJson?, Stmt.mapM_ofJsonWithin_toJson _ hdepth]

/-- Whatever its layout, a text of a program gives the program back. -/
theorem ofJson?_of_written {p : Program} (h : p.toJson.Written text) :
    (Json.read? text).bind Program.ofJson? = some p := by
  rw [read?_of_written h]
  exact p.ofJson?_toJson

/-- No text is one of two programs. -/
theorem eq_of_written {p q : Program} (hp : p.toJson.Written text) (hq : q.toJson.Written text) :
    p = q :=
  Option.some.inj ((ofJson?_of_written hp).symm.trans (ofJson?_of_written hq))

/-- The compact and the pretty text of a program are texts of its value, and reading them gives the
program back; so no two programs have the same text. -/
theorem json_faithful (p q : Program) :
    (p.toJson.Written p.toJson.compact ∧
      (Json.read? p.toJson.compact).bind Program.ofJson? = some p) ∧
    (p.toJson.Written p.toJson.pretty ∧
      (Json.read? p.toJson.pretty).bind Program.ofJson? = some p) ∧
    (p.toJson.compact = q.toJson.compact ↔ p = q) ∧
    (p.toJson.pretty = q.toJson.pretty ↔ p = q) := by
  have hcompact := written_compact p.toJson
  have hpretty := written_pretty p.toJson
  refine ⟨⟨hcompact, ofJson?_of_written hcompact⟩, ⟨hpretty, ofJson?_of_written hpretty⟩,
    ⟨fun h => ?_, congrArg fun p : Program => p.toJson.compact⟩,
    ⟨fun h => ?_, congrArg fun p : Program => p.toJson.pretty⟩⟩
  · exact eq_of_written hcompact (h ▸ written_compact q.toJson)
  · exact eq_of_written hpretty (h ▸ written_pretty q.toJson)

end Program

end MonkeyLang
