import Mathlib.Data.List.Forall2
import MonkeyLang.Json.Read

/-!
# JSON texts and their reading

`Json.Written` is the grammar of the texts that a value can be laid out in: blanks may stand between
the tokens, and everything else is fixed. The reader gets the value back from each of them
(`Json.read?_of_written`), and the compact and the pretty form are two of them.
-/

namespace MonkeyLang.Json

/-! ## The grammar -/

/-- Nothing but blanks. -/
def Read.Blank (cs : List Char) : Prop := ∀ c ∈ cs, isBlank c

instance (cs : List Char) : Decidable (Read.Blank cs) :=
  decidable_of_iff (cs.all Read.isBlank) List.all_eq_true

@[simp] theorem Read.blank_nil : Blank [] := fun _ h => absurd h List.not_mem_nil

theorem Read.Blank.append (hw : Blank w) (hw' : Blank w') : Blank (w ++ w') :=
  List.forall_mem_append.mpr ⟨hw, hw'⟩

open Read (Blank)

/-- What a text can hold: a value or a field, or all the items or fields that are left up to the
closing bracket. -/
inductive Part where
  | value (j : Json)
  | field (f : String × Json)
  | items (x : Json) (xs : List Json)
  | fields (f : String × Json) (fs : List (String × Json))

/-- The texts that a part is written as. -/
inductive Part.Written : Part → List Char → Prop where
  | null : Written (.value .null) "null".toList
  | bool (b : Bool) : Written (.value (.bool b)) (if b then "true" else "false").toList
  | int (n : Int) : Written (.value (.int n)) (toString n).toList
  | string (s : String) : Written (.value (.string s)) (quote s).toList
  | noItems : Blank w → Written (.value (.array [])) ('[' :: (w ++ [']']))
  | array : Blank w → Written (.items x xs) cs →
    Written (.value (.array (x :: xs))) ('[' :: (w ++ cs))
  | lastItem : Written (.value x) cs → Blank w → Written (.items x []) (cs ++ (w ++ [']']))
  | item : Written (.value x) cs → Blank w → Blank w' → Written (.items y ys) ds →
    Written (.items x (y :: ys)) (cs ++ (w ++ ',' :: (w' ++ ds)))
  | noFields : Blank w → Written (.value (.object [])) ('\x7b' :: (w ++ ['\x7d']))
  | object : Blank w → Written (.fields f fs) cs →
    Written (.value (.object (f :: fs))) ('\x7b' :: (w ++ cs))
  | field (key : String) : Blank w → Blank w' → Written (.value x) cs →
    Written (.field (key, x)) ((quote key).toList ++ (w ++ ':' :: (w' ++ cs)))
  | lastField : Written (.field f) cs → Blank w → Written (.fields f []) (cs ++ (w ++ ['\x7d']))
  | moreFields : Written (.field f) cs → Blank w → Blank w' → Written (.fields g fs) ds →
    Written (.fields f (g :: fs)) (cs ++ (w ++ ',' :: (w' ++ ds)))

/-- The texts of a value, which may stand between blanks. -/
def Written (j : Json) (text : String) : Prop :=
  ∃ w cs w', Blank w ∧ (Part.value j).Written cs ∧ Blank w' ∧ text.toList = w ++ (cs ++ w')

/-! ## Strings -/

namespace Read

theorem hex4?_hexByte {n : Nat} (hn : n < 32) :
    hex4? '0' '0' (Text.hexDigit (n / 16)) (Text.hexDigit (n % 16)) = some n := by
  have hzero : Text.hexValue? '0' = some 0 := by decide
  rw [hex4?, hzero, Text.hexValue?_hexDigit (by omega), Text.hexValue?_hexDigit (by omega)]
  simp only [Option.bind_eq_bind, Option.bind_some, Option.pure_def, Option.some.injEq]
  omega

/-- Reading undoes the escape of a character. -/
theorem stringTail_escape (acc : List Char) (c : Char) (cs : List Char) :
    stringTail acc (escape c ++ cs) = stringTail (c :: acc) cs := by
  unfold escape escape?
  split
  iterate 7 rfl
  split
  next hc =>
    have hbyte : c.toNat.toUInt8.toNat = c.toNat := by
      rw [Nat.toUInt8_eq, UInt8.toNat_ofNat']
      omega
    have hvalid : c.toNat.isValidChar := c.valid
    simp only [Option.getD_some, Text.hexByte, hbyte, List.cons_append, List.nil_append]
    rw [stringTail, hex4?_hexByte hc]
    simp only [if_pos hvalid, Char.ofNat_toNat]
  next hc =>
    simp only [Option.getD_none, List.singleton_append]
    rw [stringTail, if_neg hc] <;> simp_all

theorem stringTail_flatMap_escape (acc cs rest : List Char) :
    stringTail acc (cs.flatMap escape ++ '"' :: rest) =
      some (String.ofList (acc.reverse ++ cs), rest) := by
  induction cs generalizing acc with
  | nil => simp [stringTail]
  | cons c cs ih =>
    rw [List.flatMap_cons, List.append_assoc, stringTail_escape, ih]
    simp

/-- A quoted string is read back, whatever follows it. -/
theorem stringTail_quote (s : String) : ∃ cs, (quote s).toList = '"' :: cs ∧
    ∀ rest, stringTail [] (cs ++ rest) = some (s, rest) := by
  refine ⟨s.toList.flatMap escape ++ ['"'], by simp [quote], fun rest => ?_⟩
  rw [List.append_assoc, List.singleton_append, stringTail_flatMap_escape]
  simp

/-! ## Blanks -/

theorem skipBlanks_append (hw : Blank w) (cs : List Char) :
    skipBlanks (w ++ cs) = skipBlanks cs :=
  List.dropWhile_append_of_pos hw

theorem skipBlanks_cons (hc : isBlank c = false) (cs : List Char) :
    skipBlanks (c :: cs) = c :: cs := by
  simp [skipBlanks, hc]

theorem exists_blank_append (cs : List Char) : ∃ w, Blank w ∧ w ++ skipBlanks cs = cs :=
  ⟨cs.takeWhile isBlank, List.all_eq_true.mp List.all_takeWhile, List.takeWhile_append_dropWhile⟩

theorem value_append (n : Nat) (hw : Blank w) (cs : List Char) :
    value n (w ++ cs) = value n cs := by
  cases n with
  | zero => rfl
  | succ n => rw [value, value, skipBlanks_append hw]

theorem items_append (n : Nat) (hw : Blank w) (cs : List Char) :
    items n (w ++ cs) = items n cs := by
  cases n with
  | zero => rfl
  | succ n => rw [items, items, value_append n hw]

theorem fields_append (n : Nat) (hw : Blank w) (cs : List Char) :
    fields n (w ++ cs) = fields n cs := by
  cases n with
  | zero => rfl
  | succ n => rw [fields, fields, skipBlanks_append hw]

/-! ## Numbers -/

/-- No decimal digit comes first. -/
def NoDigit (cs : List Char) : Prop := ∀ c ∈ cs.head?, Text.isDecimalDigit c = false

theorem noDigit_cons (hc : Text.isDecimalDigit c = false) (cs : List Char) : NoDigit (c :: cs) :=
  fun _ h => Option.some.inj h ▸ hc

theorem Blank.noDigit_append (hw : Blank w) (hcs : NoDigit cs) : NoDigit (w ++ cs) := by
  cases w with
  | nil => exact hcs
  | cons b w =>
    have hb := hw b List.mem_cons_self
    simp only [isBlank, Bool.or_eq_true, beq_iff_eq] at hb
    rcases hb with ((rfl | rfl) | rfl) | rfl <;> exact noDigit_cons rfl _

theorem nat_toDigits (n : Nat) (hrest : NoDigit rest) :
    nat (Nat.toDigits 10 n ++ rest) = some (n, rest) := by
  have hdigits : ∀ c ∈ Nat.toDigits 10 n, Text.isDecimalDigit c = true := fun c hc =>
    Text.isDecimalDigit_of_mem_toDigits hc
  have hstop : rest.takeWhile Text.isDecimalDigit = [] ∧
      rest.dropWhile Text.isDecimalDigit = rest := by
    cases rest with
    | nil => exact ⟨rfl, rfl⟩
    | cons c rest => simp [hrest c rfl]
  rw [nat, List.takeWhile_append_of_pos hdigits, List.dropWhile_append_of_pos hdigits, hstop.1,
    hstop.2, List.append_nil, Text.decimalValue_toDigits]
  exact if_neg (by simp)

/-- A text that starts with a digit is read as a number. -/
theorem value_of_digit (k : Nat) (hd : Text.isDecimalDigit d) (cs : List Char) :
    value (k + 1) (d :: cs) = (nat (d :: cs)).map fun (n, cs) => (.int n, cs) := by
  have hne : ∀ c, Text.isDecimalDigit c = false → d ≠ c := by
    rintro c hc rfl
    exact absurd hd (by simp [hc])
  have hblank : isBlank d = false := by
    simp [isBlank, hne ' ' rfl, hne '\t' rfl, hne '\n' rfl, hne '\r' rfl]
  rw [value, skipBlanks_cons hblank]
  split
  iterate 7 next heq => exact absurd (List.head_eq_of_cons_eq heq) (hne _ rfl)
  rfl

theorem value_int (k : Nat) (n : Int) (hrest : NoDigit rest) :
    value (k + 1) ((toString n).toList ++ rest) = some (.int n, rest) := by
  rw [Int.toString_eq_repr, Int.repr_eq_if]
  split
  next hn =>
    obtain ⟨d, ds, hds⟩ := List.exists_cons_of_ne_nil (Nat.toDigits_ne_nil (b := 10) (n := n.toNat))
    have hd : Text.isDecimalDigit d :=
      Text.isDecimalDigit_of_mem_toDigits (hds ▸ List.mem_cons_self)
    rw [Nat.toList_repr, hds, List.cons_append, value_of_digit k hd, ← List.cons_append, ← hds,
      nat_toDigits n.toNat hrest]
    simp only [Option.map_some, Int.toNat_of_nonneg hn]
  next hn =>
    have hread : nat (Nat.toDigits 10 (-n).toNat ++ rest) = some ((-n).toNat, rest) :=
      nat_toDigits _ hrest
    have hneg : -((-n).toNat : Int) = n := by omega
    rw [String.toList_append, Nat.toList_repr]
    change value (k + 1) ('-' :: (Nat.toDigits 10 (-n).toNat ++ rest)) = _
    rw [value, skipBlanks_cons rfl]
    simp only [hread, Option.map_some, hneg]

/-! ## Items and fields -/

theorem items_skipBlanks (n : Nat) (cs : List Char) : items n (skipBlanks cs) = items n cs := by
  obtain ⟨w, hw, hcs⟩ := exists_blank_append cs
  rw [← items_append n hw, hcs]

theorem fields_skipBlanks (n : Nat) (cs : List Char) : fields n (skipBlanks cs) = fields n cs := by
  obtain ⟨w, hw, hcs⟩ := exists_blank_append cs
  rw [← fields_append n hw, hcs]

/-- An array that has items. -/
theorem value_array (h : items n cs = some (xs, rest)) :
    value (n + 1) ('[' :: cs) = some (.array xs, rest) := by
  have hopen : ∀ ds, skipBlanks cs = ']' :: ds → False := by
    intro ds hds
    rw [← items_skipBlanks, hds] at h
    rcases n with - | - | n <;> cases h
  -- by `hopen` this is not the branch of the empty array
  rw [value, skipBlanks_cons rfl]
  simp only [items_skipBlanks, h, Option.map_some]

/-- An object that has fields. -/
theorem value_object (h : fields n cs = some (fs, rest)) :
    value (n + 1) ('\x7b' :: cs) = some (.object fs, rest) := by
  have hopen : ∀ ds, skipBlanks cs = '\x7d' :: ds → False := by
    intro ds hds
    rw [← fields_skipBlanks, hds] at h
    cases n <;> cases h
  rw [value, skipBlanks_cons rfl]
  simp only [fields_skipBlanks, h, Option.map_some]

theorem value_noItems (n : Nat) (hw : Blank w) (rest : List Char) :
    value (n + 1) ('[' :: (w ++ ']' :: rest)) = some (.array [], rest) := by
  rw [value, skipBlanks_cons rfl]
  simp only [skipBlanks_append hw, skipBlanks_cons (c := ']') rfl]

theorem value_noFields (n : Nat) (hw : Blank w) (rest : List Char) :
    value (n + 1) ('\x7b' :: (w ++ '\x7d' :: rest)) = some (.object [], rest) := by
  rw [value, skipBlanks_cons rfl]
  simp only [skipBlanks_append hw, skipBlanks_cons (c := '\x7d') rfl]

theorem items_last (h : value n cs = some (x, w ++ ']' :: rest)) (hw : Blank w) :
    items (n + 1) cs = some ([x], rest) := by
  rw [items, h]
  simp only [skipBlanks_append hw, skipBlanks_cons (c := ']') rfl]

theorem items_cons (h : value n cs = some (x, w ++ ',' :: ds)) (hw : Blank w)
    (hds : items n ds = some (xs, rest)) : items (n + 1) cs = some (x :: xs, rest) := by
  rw [items, h]
  simp only [skipBlanks_append hw, skipBlanks_cons (c := ',') rfl, hds, Option.map_some]

/-- A field and what follows it. -/
def field (n : Nat) (cs : List Char) : Option ((String × Json) × List Char) :=
  match skipBlanks cs with
  | '"' :: cs =>
    match stringTail [] cs with
    | none => none
    | some (key, cs) =>
      match skipBlanks cs with
      | ':' :: cs => (value n cs).map fun (x, cs) => ((key, x), cs)
      | _ => none
  | _ => none

theorem field_of_value (hkey : stringTail [] cs = some (key, w ++ ':' :: ds)) (hw : Blank w)
    (h : value n ds = some (x, rest)) : field n ('"' :: cs) = some ((key, x), rest) := by
  rw [field, skipBlanks_cons rfl]
  simp only [hkey, skipBlanks_append hw, skipBlanks_cons (c := ':') rfl, h, Option.map_some]

/-- Fields are read one by one. -/
theorem fields_succ (n : Nat) (cs : List Char) : fields (n + 1) cs =
    match field n cs with
    | none => none
    | some (f, cs) =>
      match skipBlanks cs with
      | '\x7d' :: cs => some ([f], cs)
      | ',' :: cs => (fields n cs).map fun (fs, cs) => (f :: fs, cs)
      | _ => none := by
  rw [fields, field]
  repeat' split
  all_goals simp_all

theorem fields_last (h : field n cs = some (f, w ++ '\x7d' :: rest)) (hw : Blank w) :
    fields (n + 1) cs = some ([f], rest) := by
  rw [fields_succ, h]
  simp only [skipBlanks_append hw, skipBlanks_cons (c := '\x7d') rfl]

theorem fields_cons (h : field n cs = some (f, w ++ ',' :: ds)) (hw : Blank w)
    (hds : fields n ds = some (fs, rest)) : fields (n + 1) cs = some (f :: fs, rest) := by
  rw [fields_succ, h]
  simp only [skipBlanks_append hw, skipBlanks_cons (c := ',') rfl, hds, Option.map_some]

end Read

/-! ## Reading -/

open Read (NoDigit noDigit_cons)

/-- A text is read back as a part within any budget above its length, whatever follows it; only a digit
would belong to a number before it. -/
def Part.ReadBack (cs : List Char) : Part → Prop
  | value j => ∀ n, cs.length < n → ∀ rest, NoDigit rest →
    Read.value n (cs ++ rest) = some (j, rest)
  | field f => ∀ n, cs.length < n → ∀ rest, NoDigit rest →
    Read.field n (cs ++ rest) = some (f, rest)
  | items x xs => ∀ n, cs.length < n → ∀ rest, Read.items n (cs ++ rest) = some (x :: xs, rest)
  | fields f fs => ∀ n, cs.length < n → ∀ rest, Read.fields n (cs ++ rest) = some (f :: fs, rest)

theorem Part.Written.readBack {part : Part} (h : part.Written cs) : part.ReadBack cs := by
  -- a bracket, a comma or a colon stands beside each smaller part, which pays for the step down
  induction h with
  | null =>
    intro n hn rest _
    obtain ⟨n, rfl⟩ := Nat.exists_eq_succ_of_ne_zero (Nat.ne_zero_of_lt hn)
    rfl
  | bool b =>
    intro n hn rest _
    obtain ⟨n, rfl⟩ := Nat.exists_eq_succ_of_ne_zero (Nat.ne_zero_of_lt hn)
    cases b <;> rfl
  | int k =>
    intro n hn rest hrest
    obtain ⟨n, rfl⟩ := Nat.exists_eq_succ_of_ne_zero (Nat.ne_zero_of_lt hn)
    exact Read.value_int n k hrest
  | string s =>
    intro n hn rest _
    obtain ⟨n, rfl⟩ := Nat.exists_eq_succ_of_ne_zero (Nat.ne_zero_of_lt hn)
    obtain ⟨cs, hcs, hread⟩ := Read.stringTail_quote s
    rw [hcs]
    exact congrArg (Option.map _) (hread rest)
  | noItems hw =>
    intro n hn rest _
    obtain ⟨n, rfl⟩ := Nat.exists_eq_succ_of_ne_zero (Nat.ne_zero_of_lt hn)
    rw [List.cons_append, List.append_assoc]
    exact Read.value_noItems n hw rest
  | array hw _ ih =>
    intro n hn rest _
    obtain ⟨n, rfl⟩ := Nat.exists_eq_succ_of_ne_zero (Nat.ne_zero_of_lt hn)
    rw [List.length_cons, List.length_append] at hn
    rw [List.cons_append, List.append_assoc]
    exact Read.value_array ((Read.items_append n hw _).trans (ih n (by omega) rest))
  | lastItem _ hw ih =>
    intro n hn rest
    obtain ⟨n, rfl⟩ := Nat.exists_eq_succ_of_ne_zero (Nat.ne_zero_of_lt hn)
    simp only [List.length_append, List.length_singleton] at hn
    simp only [List.append_assoc, List.singleton_append]
    exact Read.items_last (ih n (by omega) _ (hw.noDigit_append (noDigit_cons rfl rest))) hw
  | item _ hw hw' _ ihx ihxs =>
    intro n hn rest
    obtain ⟨n, rfl⟩ := Nat.exists_eq_succ_of_ne_zero (Nat.ne_zero_of_lt hn)
    simp only [List.length_append, List.length_cons] at hn
    simp only [List.append_assoc, List.cons_append]
    exact Read.items_cons (ihx n (by omega) _ (hw.noDigit_append (noDigit_cons rfl _))) hw
      ((Read.items_append n hw' _).trans (ihxs n (by omega) rest))
  | noFields hw =>
    intro n hn rest _
    obtain ⟨n, rfl⟩ := Nat.exists_eq_succ_of_ne_zero (Nat.ne_zero_of_lt hn)
    rw [List.cons_append, List.append_assoc]
    exact Read.value_noFields n hw rest
  | object hw _ ih =>
    intro n hn rest _
    obtain ⟨n, rfl⟩ := Nat.exists_eq_succ_of_ne_zero (Nat.ne_zero_of_lt hn)
    rw [List.length_cons, List.length_append] at hn
    rw [List.cons_append, List.append_assoc]
    exact Read.value_object ((Read.fields_append n hw _).trans (ih n (by omega) rest))
  | field key hw hw' _ ih =>
    intro n hn rest hrest
    simp only [List.length_append, List.length_cons] at hn
    obtain ⟨ds, hds, hread⟩ := Read.stringTail_quote key
    simp only [hds, List.append_assoc, List.cons_append]
    exact Read.field_of_value (hread _) hw
      ((Read.value_append n hw' _).trans (ih n (by omega) rest hrest))
  | lastField _ hw ih =>
    intro n hn rest
    obtain ⟨n, rfl⟩ := Nat.exists_eq_succ_of_ne_zero (Nat.ne_zero_of_lt hn)
    simp only [List.length_append, List.length_singleton] at hn
    simp only [List.append_assoc, List.singleton_append]
    exact Read.fields_last (ih n (by omega) _ (hw.noDigit_append (noDigit_cons rfl rest))) hw
  | moreFields _ hw hw' _ ihf ihfs =>
    intro n hn rest
    obtain ⟨n, rfl⟩ := Nat.exists_eq_succ_of_ne_zero (Nat.ne_zero_of_lt hn)
    simp only [List.length_append, List.length_cons] at hn
    simp only [List.append_assoc, List.cons_append]
    exact Read.fields_cons (ihf n (by omega) _ (hw.noDigit_append (noDigit_cons rfl _))) hw
      ((Read.fields_append n hw' _).trans (ihfs n (by omega) rest))

/-- The reader gets a value back from each of its texts. -/
theorem read?_of_written (h : j.Written text) : read? text = some j := by
  obtain ⟨w, cs, w', hw, hcs, hw', htext⟩ := h
  have hrest : NoDigit w' := by
    rw [← List.append_nil w']
    exact hw'.noDigit_append fun _ h => nomatch h
  have hlength : cs.length < text.length + 1 := by
    rw [← String.length_toList, htext, List.length_append, List.length_append]
    omega
  have hskip : Read.skipBlanks w' = [] := by
    rw [← List.append_nil w', Read.skipBlanks_append hw']
    rfl
  rw [read?, htext, Read.value_append _ hw, hcs.readBack _ hlength w' hrest]
  simp [hskip]

/-! ## The compact and the pretty form -/

/-- Texts with commas between them, up to the closing bracket: one statement for items and fields. -/
theorem Part.Written.intercalate {one : α → Part} {row : α → List α → Part} {closing : Char}
    (hlast : ∀ {x cs w}, (one x).Written cs → Blank w → (row x []).Written (cs ++ (w ++ [closing])))
    (hmore : ∀ {x y ys cs ds w w'}, (one x).Written cs → Blank w → Blank w' →
      (row y ys).Written ds → (row x (y :: ys)).Written (cs ++ (w ++ ',' :: (w' ++ ds))))
    {sep : String} (hsep : sep.toList = ',' :: w) (hw : Blank w) (hw' : Blank w')
    (hx : (one x).Written s.toList) (h : List.Forall₂ (fun y s => (one y).Written s.toList) ys ss) :
    (row x ys).Written ((sep.intercalate (s :: ss)).toList ++ (w' ++ [closing])) := by
  induction h generalizing x s with
  | nil =>
    rw [String.intercalate_singleton]
    exact hlast hx hw'
  | cons hy _ ih =>
    rw [String.intercalate_cons_cons, String.toList_append, String.toList_append, hsep]
    simpa using hmore hx Read.blank_nil hw (ih hy)

section
variable {sep : String} (hsep : sep.toList = ',' :: w) (hw : Blank w) (hw₀ : Blank w₀)
  (hw' : Blank w')
include hsep hw hw₀ hw'

theorem Part.Written.array_intercalate
    (h : List.Forall₂ (fun x s => (Part.value x).Written s.toList) xs ss) :
    (value (.array xs)).Written
      ('[' :: (w₀ ++ ((sep.intercalate ss).toList ++ (w' ++ [']'])))) := by
  cases h with
  | nil => simpa using Written.noItems (hw₀.append hw')
  | cons hx hxs => exact .array hw₀ (.intercalate .lastItem .item hsep hw hw' hx hxs)

theorem Part.Written.object_intercalate
    (h : List.Forall₂ (fun f s => (Part.field f).Written s.toList) fs ss) :
    (value (.object fs)).Written
      ('\x7b' :: (w₀ ++ ((sep.intercalate ss).toList ++ (w' ++ ['\x7d'])))) := by
  cases h with
  | nil => simpa using Written.noFields (hw₀.append hw')
  | cons hf hfs => exact .object hw₀ (.intercalate .lastField .moreFields hsep hw hw' hf hfs)

end

mutual

theorem written_value_compact : (j : Json) → (Part.value j).Written j.compact.toList
  | .null => .null
  | .bool b => .bool b
  | .int n => .int n
  | .string s => .string s
  | .array xs => by
    have hcomma : ",".toList = [','] := rfl
    simpa [compact] using Part.Written.array_intercalate hcomma Read.blank_nil Read.blank_nil
      Read.blank_nil (written_compactItems xs)
  | .object fs => by
    have hcomma : ",".toList = [','] := rfl
    simpa [compact] using Part.Written.object_intercalate hcomma Read.blank_nil Read.blank_nil
      Read.blank_nil (written_compactFields fs)

theorem written_compactItems : (xs : List Json) →
    List.Forall₂ (fun x s => (Part.value x).Written s.toList) xs (compactItems xs)
  | [] => .nil
  | x :: xs => .cons (written_value_compact x) (written_compactItems xs)

theorem written_compactFields : (fs : List (String × Json)) →
    List.Forall₂ (fun f s => (Part.field f).Written s.toList) fs (compactFields fs)
  | [] => .nil
  | (key, x) :: fs => by
    refine .cons ?_ (written_compactFields fs)
    simpa using Part.Written.field key Read.blank_nil Read.blank_nil (written_value_compact x)

end

section
variable {indent : String} (hindent : Blank indent.toList)
include hindent

theorem blank_line : Blank ("\n" ++ indent).toList := by
  rw [String.toList_append]
  exact .append (by decide) hindent

theorem blank_inner : Blank (indent ++ "  ").toList := by
  rw [String.toList_append]
  exact hindent.append (by decide)

/-- Items on lines of their own stand between blanks. -/
theorem toList_onLines (ss : List String) : ∃ w₀ w', Blank w₀ ∧ Blank w' ∧
    ∀ opening closing, (onLines indent opening closing ss).toList = opening.toList ++ (w₀ ++
      ((("," ++ ("\n" ++ indent ++ "  ")).intercalate ss).toList ++ (w' ++ closing.toList))) := by
  cases ss with
  | nil => exact ⟨[], [], Read.blank_nil, Read.blank_nil, fun _ _ => by simp [onLines]⟩
  | cons s ss =>
    refine ⟨("\n" ++ indent ++ "  ").toList, ("\n" ++ indent).toList, ?_, blank_line hindent,
      fun _ _ => by simp [onLines]⟩
    rw [String.append_assoc]
    exact blank_line (blank_inner hindent)

end

mutual

theorem written_prettyAt {indent : String} (hindent : Blank indent.toList) :
    (j : Json) → (Part.value j).Written (j.prettyAt indent).toList
  | .array xs => by
    obtain ⟨w₀, w', hw₀, hw', hlines⟩ := toList_onLines hindent (prettyItems (indent ++ "  ") xs)
    rw [prettyAt, hlines]
    exact .array_intercalate (by simp) (blank_line (blank_inner hindent)) hw₀ hw'
      (written_prettyItems (blank_inner hindent) xs)
  | .object fs => by
    obtain ⟨w₀, w', hw₀, hw', hlines⟩ := toList_onLines hindent (prettyFields (indent ++ "  ") fs)
    rw [prettyAt, hlines]
    exact .object_intercalate (by simp) (blank_line (blank_inner hindent)) hw₀ hw'
      (written_prettyFields (blank_inner hindent) fs)
  | .null => written_value_compact .null
  | .bool b => written_value_compact (.bool b)
  | .int n => written_value_compact (.int n)
  | .string s => written_value_compact (.string s)

theorem written_prettyItems {indent : String} (hindent : Blank indent.toList) :
    (xs : List Json) →
      List.Forall₂ (fun x s => (Part.value x).Written s.toList) xs (prettyItems indent xs)
  | [] => .nil
  | x :: xs => .cons (written_prettyAt hindent x) (written_prettyItems hindent xs)

theorem written_prettyFields {indent : String} (hindent : Blank indent.toList) :
    (fs : List (String × Json)) →
      List.Forall₂ (fun f s => (Part.field f).Written s.toList) fs (prettyFields indent fs)
  | [] => .nil
  | (key, x) :: fs => by
    refine .cons ?_ (written_prettyFields hindent fs)
    have hspace : Blank [' '] := by decide
    simpa using Part.Written.field key Read.blank_nil hspace (written_prettyAt hindent x)

end

theorem written_compact (j : Json) : j.Written j.compact :=
  ⟨[], _, [], Read.blank_nil, written_value_compact j, Read.blank_nil, by simp⟩

theorem written_pretty (j : Json) : j.Written j.pretty := by
  have hindent : Blank "".toList := Read.blank_nil
  exact ⟨[], _, [], Read.blank_nil, written_prettyAt hindent j, Read.blank_nil, by simp [pretty]⟩

end MonkeyLang.Json
