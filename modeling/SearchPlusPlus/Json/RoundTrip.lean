import SearchPlusPlus.Json.Parser
import SearchPlusPlus.Json.Serializer
import Mathlib.Tactic.IntervalCases

/-!
# Parsing what the serializer wrote

`parse_write`: on the text of a well-formed value the parser succeeds, at any indent, and stops
right after it. The value it returns is `reread v`, the value with every double replaced by what
its printed text reads as; a value without doubles is its own `reread` (`reread_of_noDoubles`),
so for these the two directions are inverse to each other (`parse_serialize`,
`parse_serializePretty`).

The proof follows the parser: digits and numbers, string escapes, and then one statement for each
of the three mutually recursive loops, by recursion on the value.
-/

namespace Spp.Json

variable [LibcDecimal]

/-! ### Decimal numerals -/

omit [LibcDecimal] in
theorem digitChar_toNat {d : ℕ} (h : d < 10) : (Nat.digitChar d).toNat = 48 + d := by
  interval_cases d <;> rfl

omit [LibcDecimal] in
theorem decimal_of_lt {n : ℕ} (h : n < 10) : decimal n = [UInt8.ofNat (48 + n)] := by
  rw [decimal, Nat.toDigits_of_lt_base h, List.map_singleton, digitChar_toNat h]

omit [LibcDecimal] in
theorem decimal_of_le {n : ℕ} (h : 10 ≤ n) :
    decimal n = decimal (n / 10) ++ [UInt8.ofNat (48 + n % 10)] := by
  rw [decimal, Nat.toDigits_of_base_le (by decide) h, List.map_append, List.map_singleton,
    digitChar_toNat (Nat.mod_lt _ (by decide))]
  rfl

omit [LibcDecimal] in
theorem digitByte_toNat {d : ℕ} (h : d < 10) : (UInt8.ofNat (48 + d)).toNat = 48 + d := by
  rw [UInt8.toNat_ofNat']
  omega

omit [LibcDecimal] in
theorem isDigit_iff {c : UInt8} : isDigit c = true ↔ 48 ≤ c.toNat ∧ c.toNat ≤ 57 := by
  simp [isDigit, UInt8.le_iff_toNat_le]

omit [LibcDecimal] in
theorem isDigit_digitByte {d : ℕ} (h : d < 10) : isDigit (UInt8.ofNat (48 + d)) = true := by
  rw [isDigit_iff, digitByte_toNat h]
  omega

omit [LibcDecimal] in
theorem isDigit_of_mem_decimal (n : ℕ) : ∀ c ∈ decimal n, isDigit c = true := by
  induction n using Nat.strongRecOn with
  | ind n ih =>
    rcases Nat.lt_or_ge n 10 with h | h
    · rw [decimal_of_lt h]
      intro c hc
      rw [List.mem_singleton.1 hc]
      exact isDigit_digitByte h
    · rw [decimal_of_le h]
      intro c hc
      rcases List.mem_append.1 hc with hc | hc
      · exact ih _ (by omega) c hc
      · rw [List.mem_singleton.1 hc]
        exact isDigit_digitByte (Nat.mod_lt _ (by decide))

omit [LibcDecimal] in
/-- The first digit, which is zero only in the numeral of zero. -/
theorem decimal_eq_cons (n : ℕ) :
    ∃ c ds, decimal n = c :: ds ∧ isDigit c = true ∧ (c = 48 → ds = []) := by
  induction n using Nat.strongRecOn with
  | ind n ih =>
    rcases Nat.lt_or_ge n 10 with h | h
    · exact ⟨_, [], decimal_of_lt h, isDigit_digitByte h, fun _ ↦ rfl⟩
    · obtain ⟨c, ds, heq, hdig, hzero⟩ := ih (n / 10) (by omega)
      refine ⟨c, ds ++ [UInt8.ofNat (48 + n % 10)], by rw [decimal_of_le h, heq]; rfl, hdig, ?_⟩
      intro hc
      -- A leading zero would make the shorter numeral zero, but it stands for `n / 10 ≥ 1`.
      exfalso
      have hds := hzero hc
      subst hc hds
      rcases Nat.lt_or_ge (n / 10) 10 with h' | h'
      · rw [decimal_of_lt h'] at heq
        have := congrArg UInt8.toNat (List.cons.inj heq).1
        rw [digitByte_toNat h'] at this
        simp at this
        omega
      · have hlen := congrArg List.length heq
        obtain ⟨c', ds', heq', -⟩ := ih (n / 10 / 10) (by omega)
        rw [decimal_of_le h', heq'] at hlen
        simp at hlen

omit [LibcDecimal] in
theorem digitsValue_append_singleton (ds : Bytes) (c : UInt8) :
    digitsValue (ds ++ [c]) = 10 * digitsValue ds + (c.toNat - 48) := by
  simp [digitsValue]

omit [LibcDecimal] in
/-- A numeral has the value it was printed from. -/
theorem digitsValue_decimal (n : ℕ) : digitsValue (decimal n) = n := by
  induction n using Nat.strongRecOn with
  | ind n ih =>
    rcases Nat.lt_or_ge n 10 with h | h
    · rw [decimal_of_lt h, ← List.nil_append [_], digitsValue_append_singleton, digitByte_toNat h]
      simp [digitsValue]
    · rw [decimal_of_le h, digitsValue_append_singleton, ih _ (by omega),
        digitByte_toNat (Nat.mod_lt _ (by decide))]
      omega

/-! ### Numbers -/

/-- What may follow a number without being read as part of it. -/
def Delimits (rest : Bytes) : Prop :=
  ∀ c ∈ rest.head?, isDigit c = false ∧ c ≠ 46 ∧ c ≠ 101 ∧ c ≠ 69

omit [LibcDecimal] in
theorem delimits_nil : Delimits [] := by simp [Delimits]

omit [LibcDecimal] in
theorem delimits_cons {c : UInt8} (h : isDigit c = false ∧ c ≠ 46 ∧ c ≠ 101 ∧ c ≠ 69)
    (rest : Bytes) : Delimits (c :: rest) := by
  simpa [Delimits] using h

omit [LibcDecimal] in
theorem dropWhile_isDigit {ds rest : Bytes} (hds : ∀ c ∈ ds, isDigit c = true)
    (hrest : Delimits rest) : (ds ++ rest).dropWhile isDigit = rest := by
  rw [List.dropWhile_append_of_pos hds]
  cases rest with
  | nil => rfl
  | cons c rest => rw [List.dropWhile_cons_of_neg (by simp [(hrest c rfl).1])]

omit [LibcDecimal] in
theorem scanIntPart_decimal (n m : ℕ) {rest : Bytes} (hrest : Delimits rest) :
    scanIntPart n (decimal m ++ rest) = .ok rest := by
  obtain ⟨c, ds, heq, hdig, hzero⟩ := decimal_eq_cons m
  have hall := isDigit_of_mem_decimal m
  rw [heq] at hall ⊢
  rw [List.cons_append, scanIntPart]
  by_cases hc : c = 48
  · rw [if_pos hc, hzero hc]
    rfl
  · rw [if_neg hc, if_pos hdig, ← List.cons_append, dropWhile_isDigit hall hrest]

omit [LibcDecimal] in
theorem scanFraction_of_delimits (n : ℕ) {rest : Bytes} (hrest : Delimits rest) :
    scanFraction n rest = .ok (false, rest) := by
  cases rest with
  | nil => rfl
  | cons c rest => rw [scanFraction, if_neg (hrest c rfl).2.1]

omit [LibcDecimal] in
theorem scanExponent_of_delimits (n : ℕ) {rest : Bytes} (hrest : Delimits rest) :
    scanExponent n rest = .ok (false, rest) := by
  cases rest with
  | nil => rfl
  | cons c rest =>
    obtain ⟨-, -, he, hE⟩ := hrest c rfl
    rw [scanExponent, if_neg (by simp [he, hE])]

omit [LibcDecimal] in
theorem take_token (tok rest : Bytes) :
    (tok ++ rest).take ((tok ++ rest).length - rest.length) = tok := by
  simp

omit [LibcDecimal] in
theorem tokenValue_decimalInt (i : ℤ) : tokenValue (decimalInt i) = i := by
  by_cases hneg : i < 0
  · rw [decimalInt, if_pos hneg, tokenValue, if_pos rfl, digitsValue_decimal]
    omega
  · obtain ⟨c, ds, heq, hdig, -⟩ := decimal_eq_cons i.natAbs
    have hc : c ≠ 45 := by rintro rfl; simp [isDigit] at hdig
    have hval := digitsValue_decimal i.natAbs
    rw [heq] at hval
    rw [decimalInt, if_neg hneg, heq, tokenValue, if_neg hc, hval]
    omega

omit [LibcDecimal] in
theorem fromChars_decimalInt (i : Int64) : fromChars (decimalInt i.toInt) = some i := by
  have hlo := i.le_toInt
  have hhi := i.toInt_lt
  rw [fromChars, tokenValue_decimalInt, if_pos (by omega), Int64.ofInt_toInt]

omit [LibcDecimal] in
theorem skipMinus_decimalInt (i : ℤ) (rest : Bytes) :
    skipMinus (decimalInt i ++ rest) = decimal i.natAbs ++ rest := by
  by_cases hneg : i < 0
  · rw [decimalInt, if_pos hneg]
    rfl
  · obtain ⟨c, ds, heq, hdig, -⟩ := decimal_eq_cons i.natAbs
    have hc : c ≠ 45 := by rintro rfl; simp [isDigit] at hdig
    rw [decimalInt, if_neg hneg, heq, List.cons_append, skipMinus, if_neg hc]

/-- **Integers**: the parser reads the printed integer and stops at the delimiter. -/
theorem parseNumber_decimalInt (n : ℕ) (i : Int64) {rest : Bytes} (hrest : Delimits rest) :
    parseNumber n (decimalInt i.toInt ++ rest) = .ok (.int i, rest) := by
  rw [parseNumber, skipMinus_decimalInt]
  simp only [scanIntPart_decimal n _ hrest, scanFraction_of_delimits n hrest,
    scanExponent_of_delimits n hrest, bind, Except.bind, take_token, fromChars_decimalInt]
  rfl

/-! ### Strings -/

omit [LibcDecimal] in
theorem hexValue_hexDigit {d : ℕ} (h : d < 16) : hexValue (hexDigit d) = some d := by
  interval_cases d <;> rfl

omit [LibcDecimal] in
/-- One escaped byte is read back as that byte. -/
theorem parseStringBody_escapeByte (n : ℕ) (out : Bytes) (c : UInt8) (rest : Bytes) :
    parseStringBody n out (escapeByte c ++ rest) = parseStringBody n (out ++ [c]) rest := by
  unfold escapeByte
  split_ifs with h1 h2 h3 h4 h5 h6 h7 h8
  all_goals try (subst c; rfl)
  · have hlt : c.toNat < 32 := UInt8.lt_iff_toNat_lt.1 h8
    have hquad : hexQuad 48 48 (hexDigit (c.toNat / 16)) (hexDigit (c.toNat % 16)) =
        some c.toNat := by
      have h48 : hexValue 48 = some 0 := rfl
      simp only [hexQuad, h48, hexValue_hexDigit (show c.toNat / 16 < 16 by omega),
        hexValue_hexDigit (show c.toNat % 16 < 16 by omega), bind, Option.bind, pure]
      congr 1
      omega
    have hutf : utf8 c.toNat = [c] := by
      rw [utf8, if_pos (by omega), UInt8.ofNat_toNat]
    have h117 : unescape 117 = none := by decide
    rw [parseStringBody.eq_def]
    simp only [List.cons_append, List.nil_append, h117, hquad, hutf]
    simp
  · rw [List.singleton_append, parseStringBody.eq_def]
    simp only [h8, h1, h2, if_false]

omit [LibcDecimal] in
theorem parseStringBody_escapeString (n : ℕ) (s rest : Bytes) (out : Bytes) :
    parseStringBody n out (escapeString s ++ 34 :: rest) = .ok (out ++ s, rest) := by
  induction s generalizing out with
  | nil =>
    rw [escapeString, List.flatMap_nil, List.nil_append, parseStringBody.eq_def]
    simp
  | cons c s ih =>
    rw [escapeString, List.flatMap_cons, List.append_assoc, parseStringBody_escapeByte]
    rw [← escapeString, ih, List.append_assoc, List.singleton_append]

omit [LibcDecimal] in
/-- **Strings**: a written string of any bytes is read back. -/
theorem parseStringInto_write (n : ℕ) (s rest : Bytes) :
    parseStringInto n (writeEscapedString s ++ rest) = .ok (s, rest) := by
  have htext : writeEscapedString s ++ rest = 34 :: (escapeString s ++ 34 :: rest) := by
    simp [writeEscapedString]
  rw [htext, parseStringInto, if_pos rfl, parseStringBody_escapeString, List.nil_append]

/-! ### White space -/

omit [LibcDecimal] in
theorem skipWs_appendIndent (depth indent : ℕ) (s : Bytes) :
    skipWs (appendIndent depth indent ++ s) = skipWs s := by
  rw [appendIndent]
  split
  · rfl
  · rw [skipWs, skipWs, List.dropWhile_append_of_pos]
    intro c hc
    rcases List.mem_cons.1 hc with rfl | hc
    · rfl
    · rw [List.eq_of_mem_replicate hc]
      rfl

omit [LibcDecimal] in
theorem skipWs_cons {c : UInt8} (h : isWs c = false) (s : Bytes) : skipWs (c :: s) = c :: s :=
  List.dropWhile_cons_of_neg (by simp [h])

/-! ### What a double reads back as -/

/-- The printed text of a finite double is read as one number, up to its delimiter. -/
def PrintsAs (d : F64) (v : JsonValue) : Prop :=
  ∀ n rest, Delimits rest → parseNumber n (LibcDecimal.formatG17 d ++ rest) = .ok (v, rest)

/-- What a written double is read back as: null unless it is finite. -/
def rereadDouble (d : F64) : JsonValue :=
  if d.isFinite then
    match parseNumber 0 (LibcDecimal.formatG17 d) with
    | .ok (v, _) => v
    | .error _ => .null
  else .null

mutual
/-- The value a written value is read back as. -/
def reread : JsonValue → JsonValue
  | .double d => rereadDouble d
  | .array a => .array (rereadElems a)
  | .object o => .object (rereadMembers o)
  | v => v

/-- `reread` on elements. -/
def rereadElems : List JsonValue → List JsonValue
  | [] => []
  | v :: vs => reread v :: rereadElems vs

/-- `reread` on members. -/
def rereadMembers : List (Bytes × JsonValue) → List (Bytes × JsonValue)
  | [] => []
  | (k, v) :: o => (k, reread v) :: rereadMembers o
end

mutual
/-- Every finite double in the value prints as a number. -/
def DoublesPrint : JsonValue → Prop
  | .double d => d.isFinite → ∃ v, PrintsAs d v
  | .array a => DoublesPrintElems a
  | .object o => DoublesPrintMembers o
  | _ => True

/-- `DoublesPrint` on elements. -/
def DoublesPrintElems : List JsonValue → Prop
  | [] => True
  | v :: vs => DoublesPrint v ∧ DoublesPrintElems vs

/-- `DoublesPrint` on members. -/
def DoublesPrintMembers : List (Bytes × JsonValue) → Prop
  | [] => True
  | (_, v) :: o => DoublesPrint v ∧ DoublesPrintMembers o
end

theorem rereadDouble_of_printsAs {d : F64} {v : JsonValue} (hfin : d.isFinite = true)
    (h : PrintsAs d v) : rereadDouble d = v := by
  have := h 0 [] delimits_nil
  rw [List.append_nil] at this
  rw [rereadDouble, if_pos hfin, this]

/-- Something that reads as a number starts with a minus sign or a digit. -/
theorem starts_of_parseNumber {n : ℕ} {s rest : Bytes} {v : JsonValue}
    (h : parseNumber n s = .ok (v, rest)) : ∃ c tl, s = c :: tl ∧ (c = 45 ∨ isDigit c = true) := by
  cases s with
  | nil => simp [parseNumber, skipMinus, scanIntPart, bind, Except.bind] at h
  | cons c tl =>
    refine ⟨c, tl, rfl, ?_⟩
    by_contra hc
    obtain ⟨hminus, hdig⟩ := not_or.1 hc
    have h48 : c ≠ 48 := by rintro rfl; exact hdig rfl
    simp [parseNumber, skipMinus, hminus, scanIntPart, hdig, h48, bind, Except.bind] at h

theorem starts_of_printsAs {d : F64} {v : JsonValue} (h : PrintsAs d v) :
    ∃ c tl, LibcDecimal.formatG17 d = c :: tl ∧ (c = 45 ∨ isDigit c = true) := by
  have := h 0 [] delimits_nil
  rw [List.append_nil] at this
  exact starts_of_parseNumber this

/-! ### What follows a value, and what a value starts with -/

omit [LibcDecimal] in
theorem delimits_appendIndent (depth indent : ℕ) {rest : Bytes} (h : Delimits rest) :
    Delimits (appendIndent depth indent ++ rest) := by
  rw [appendIndent]
  split
  · exact h
  · exact delimits_cons (by decide) _

theorem delimits_writeElems (indent : ℕ) (vs : List JsonValue) (depth : ℕ) {rest : Bytes}
    (h : Delimits rest) : Delimits (writeElems indent vs depth false ++ rest) := by
  cases vs with
  | nil => rwa [writeElems, List.nil_append]
  | cons v vs =>
    rw [writeElems]
    exact delimits_cons (by decide) _

theorem delimits_writeMembers (indent : ℕ) (o : List (Bytes × JsonValue)) (depth : ℕ)
    {rest : Bytes} (h : Delimits rest) :
    Delimits (writeMembers indent o depth false ++ rest) := by
  rcases o with - | ⟨⟨k, v⟩, o⟩
  · rwa [writeMembers, List.nil_append]
  · rw [writeMembers]
    exact delimits_cons (by decide) _

omit [LibcDecimal] in
theorem isWs_of_number {c : UInt8} (h : c = 45 ∨ isDigit c = true) :
    isWs c = false ∧ c ≠ 34 ∧ c ≠ 123 ∧ c ≠ 91 ∧ c ≠ 93 ∧ c ≠ 116 ∧ c ≠ 102 ∧ c ≠ 110 := by
  rcases h with rfl | h
  · decide
  · have hne : ∀ d : UInt8, isDigit d = false → c ≠ d := by
      rintro d hd rfl
      simp [h] at hd
    simp only [isWs, Bool.or_eq_false_iff, decide_eq_false_iff_not]
    refine ⟨⟨⟨⟨?_, ?_⟩, ?_⟩, ?_⟩, ?_, ?_, ?_, ?_, ?_, ?_, ?_⟩ <;> exact hne _ (by decide)

omit [LibcDecimal] in
theorem starts_decimalInt (i : ℤ) :
    ∃ c tl, decimalInt i = c :: tl ∧ (c = 45 ∨ isDigit c = true) := by
  rw [decimalInt]
  split
  · exact ⟨45, _, rfl, Or.inl rfl⟩
  · obtain ⟨c, ds, heq, hdig, -⟩ := decimal_eq_cons i.natAbs
    exact ⟨c, ds, heq, Or.inr hdig⟩

/-- A written value starts with neither white space nor a closing bracket. -/
theorem write_eq_cons (indent : ℕ) {v : JsonValue} (hv : DoublesPrint v) (depth : ℕ) :
    ∃ c tl, write indent v depth = c :: tl ∧ isWs c = false ∧ c ≠ 93 := by
  have hnum : ∀ {s : Bytes}, (∃ c tl, s = c :: tl ∧ (c = 45 ∨ isDigit c = true)) →
      ∃ c tl, s = c :: tl ∧ isWs c = false ∧ c ≠ 93 := by
    rintro s ⟨c, tl, rfl, hc⟩
    obtain ⟨hws, -, -, -, hne, -⟩ := isWs_of_number hc
    exact ⟨c, tl, rfl, hws, hne⟩
  cases v with
  | null => exact ⟨110, _, rfl, by decide⟩
  | bool b => cases b <;> exact ⟨_, _, rfl, by decide⟩
  | int i => exact hnum (starts_decimalInt _)
  | double d =>
    rw [write, writeDouble]
    split
    · next hfin =>
      obtain ⟨v, hv⟩ := hv hfin
      exact hnum (starts_of_printsAs hv)
    · exact ⟨110, _, rfl, by decide⟩
  | string s => exact ⟨34, _, rfl, by decide⟩
  | array a => cases a <;> exact ⟨91, _, rfl, by decide⟩
  | object o => rcases o with - | ⟨⟨k, v⟩, o⟩ <;> exact ⟨123, _, rfl, by decide⟩

/-- A value that starts like a number is read as one. -/
theorem parseValue_number (n fuel : ℕ) {s : Bytes}
    (h : ∃ c tl, s = c :: tl ∧ (c = 45 ∨ isDigit c = true)) (rest : Bytes) :
    parseValue n (fuel + 1) (s ++ rest) = parseNumber n (s ++ rest) := by
  obtain ⟨c, tl, rfl, hc⟩ := h
  obtain ⟨hws, h34, h123, h91, -, h116, h102, h110⟩ := isWs_of_number hc
  rw [List.cons_append, parseValue]
  simp [skipWs_cons hws, h34, h123, h91, h116, h102, h110, hc]

/-! ### The round trip -/

theorem skipWs_write (indent : ℕ) {v : JsonValue} (hv : DoublesPrint v) (depth : ℕ)
    (rest : Bytes) : skipWs (write indent v depth ++ rest) = write indent v depth ++ rest := by
  obtain ⟨c, tl, heq, hws, -⟩ := write_eq_cons indent hv depth
  rw [heq, List.cons_append, skipWs_cons hws]

theorem write_length_pos (indent : ℕ) {v : JsonValue} (hv : DoublesPrint v) (depth : ℕ) :
    0 < (write indent v depth).length := by
  obtain ⟨c, tl, heq, -⟩ := write_eq_cons indent hv depth
  rw [heq]
  exact Nat.succ_pos _

mutual
/-- **A written value is read back**, whatever the indent, when the fuel covers its text. -/
theorem parse_write (n indent : ℕ) : ∀ (v : JsonValue) (depth fuel : ℕ) (rest : Bytes),
    v.WellFormed → DoublesPrint v → Delimits rest → 2 * (write indent v depth).length ≤ fuel →
    parseValue n fuel (write indent v depth ++ rest) = .ok (reread v, rest)
  | v, depth, 0, rest, _, hd, _, hf => by
    have := write_length_pos indent hd depth
    omega
  | .null, _, fuel + 1, rest, _, _, _, _ => by
    rw [parseValue]
    rfl
  | .bool b, _, fuel + 1, rest, _, _, _, _ => by
    rw [parseValue]
    cases b <;> rfl
  | .int i, depth, fuel + 1, rest, _, _, hrest, _ => by
    rw [write, parseValue_number n fuel (starts_decimalInt _), parseNumber_decimalInt n i hrest]
    rfl
  | .double d, depth, fuel + 1, rest, _, hd, hrest, _ => by
    rw [write, writeDouble, reread]
    split
    · next hfin =>
      obtain ⟨v, hv⟩ := hd hfin
      rw [parseValue_number n fuel (starts_of_printsAs hv), hv n rest hrest,
        rereadDouble_of_printsAs hfin hv]
    · next hfin =>
      rw [rereadDouble, if_neg hfin, parseValue]
      rfl
  | .string s, depth, fuel + 1, rest, _, _, _, _ => by
    have hcons : writeEscapedString s ++ rest = 34 :: (escapeString s ++ [34] ++ rest) := rfl
    have hstr := parseStringInto_write n s rest
    rw [hcons] at hstr
    rw [write, hcons, parseValue]
    simp only [skipWs_cons (show isWs 34 = false by decide), hstr, bind, Except.bind, if_true]
    rfl
  | .array [], _, fuel + 1, rest, _, _, _, _ => by
    rw [parseValue]
    rfl
  | .array (v :: vs), depth, fuel + 1, rest, hwf, hd, hrest, hf => by
    have hskip : skipWs (writeElems indent (v :: vs) depth true ++
        (appendIndent depth indent ++ 93 :: rest)) =
        write indent v (depth + 1) ++ (writeElems indent vs depth false ++
          (appendIndent depth indent ++ 93 :: rest)) := by
      rw [writeElems, if_pos rfl, List.nil_append, List.append_assoc, List.append_assoc,
        skipWs_appendIndent, skipWs_write indent hd.1]
    have helems := parse_writeElems n indent v vs depth fuel [] rest hwf.1 hwf.2 hd.1 hd.2 (by
      simp [write, writeElems] at hf
      omega)
    obtain ⟨c, tl, heq, -, hne⟩ := write_eq_cons indent hd.1 (depth + 1)
    have htext : write indent (.array (v :: vs)) depth ++ rest =
        91 :: (writeElems indent (v :: vs) depth true ++
          (appendIndent depth indent ++ 93 :: rest)) := by
      simp [write]
    rw [htext, parseValue]
    simp only [skipWs_cons (show isWs 91 = false by decide), hskip]
    rw [heq] at helems ⊢
    simpa [hne, reread, rereadElems] using helems
  | .object [], _, fuel + 1, rest, _, _, _, _ => by
    rw [parseValue]
    rfl
  | .object ((k, v) :: o), depth, fuel + 1, rest, hwf, hd, hrest, hf => by
    have htext : write indent (.object ((k, v) :: o)) depth ++ rest =
        123 :: (writeMembers indent ((k, v) :: o) depth true ++
          (appendIndent depth indent ++ 125 :: rest)) := by
      simp [write]
    have hskip : skipWs (writeMembers indent ((k, v) :: o) depth true ++
        (appendIndent depth indent ++ 125 :: rest)) =
        writeEscapedString k ++ (58 :: ((if 0 < indent then [32] else []) ++
          (write indent v (depth + 1) ++ (writeMembers indent o depth false ++
          (appendIndent depth indent ++ 125 :: rest))))) := by
      simp only [writeMembers, if_true, List.nil_append, List.append_assoc, List.cons_append,
        skipWs_appendIndent]
      rfl
    have hmem := parse_writeMembers n indent k v o depth fuel []
      (skipWs (writeMembers indent ((k, v) :: o) depth true ++
        (appendIndent depth indent ++ 125 :: rest))) rest (by rw [hskip]; rfl) (by simp) hwf.1
      hwf.2.1 hwf.2.2 hd.1 hd.2 (by
        simp [write, writeMembers, writeEscapedString] at hf
        omega)
    rw [hskip] at hmem
    rw [htext, parseValue]
    simp only [skipWs_cons (show isWs 123 = false by decide), hskip]
    simpa [reread, rereadMembers, writeEscapedString] using hmem

/-- The elements from one on, up to the closing bracket, are read back. -/
theorem parse_writeElems (n indent : ℕ) : ∀ (v : JsonValue) (vs : List JsonValue)
    (depth fuel : ℕ) (arr : JsonArray) (rest : Bytes),
    v.WellFormed → JsonValue.WellFormedElems vs → DoublesPrint v → DoublesPrintElems vs →
    2 * ((write indent v (depth + 1)).length + (writeElems indent vs depth false).length + 1) ≤
      fuel →
    parseElems n fuel arr (write indent v (depth + 1) ++ (writeElems indent vs depth false ++
      (appendIndent depth indent ++ 93 :: rest))) =
      .ok (.array (arr ++ (reread v :: rereadElems vs)), rest)
  | v, vs, depth, 0, arr, rest, _, _, _, _, hf => by omega
  | v, [], depth, fuel + 1, arr, rest, hwf, _, hd, _, hf => by
    rw [writeElems, List.nil_append, parseElems, parse_write n indent v (depth + 1) fuel _ hwf hd
      (delimits_appendIndent _ _ (delimits_cons (by decide) _)) (by omega)]
    simp [bind, Except.bind, skipWs_appendIndent, skipWs_cons (show isWs 93 = false by decide),
      rereadElems]
  | v, v' :: vs, depth, fuel + 1, arr, rest, hwf, hwfs, hd, hds, hf => by
    rw [parseElems, parse_write n indent v (depth + 1) fuel _ hwf hd
      (delimits_writeElems _ _ _ (delimits_appendIndent _ _ (delimits_cons (by decide) _)))
      (by omega)]
    have htail := parse_writeElems n indent v' vs depth fuel (arr ++ [reread v]) rest hwfs.1
      hwfs.2 hds.1 hds.2 (by
        have := write_length_pos indent hd (depth + 1)
        simp [writeElems] at hf
        omega)
    simp only [bind, Except.bind, writeElems, Bool.false_eq_true, if_false, List.append_assoc,
      List.cons_append, List.nil_append, skipWs_cons (show isWs 44 = false by decide),
      skipWs_appendIndent, skipWs_write indent hds.1]
    rw [htail]
    simp [rereadElems]

/-- The members from one on, up to the closing brace, are read back. -/
theorem parse_writeMembers (n indent : ℕ) : ∀ (k : Bytes) (v : JsonValue)
    (o : List (Bytes × JsonValue)) (depth fuel : ℕ) (obj : JsonObject) (s rest : Bytes),
    skipWs s = writeEscapedString k ++ (58 :: ((if 0 < indent then [32] else []) ++
      (write indent v (depth + 1) ++ (writeMembers indent o depth false ++
      (appendIndent depth indent ++ 125 :: rest))))) →
    (∀ q ∈ obj, ∀ p ∈ (k, v) :: o, q.1 < p.1) → Assoc.Sorted ((k, v) :: o) →
    v.WellFormed → JsonValue.WellFormedMembers o → DoublesPrint v → DoublesPrintMembers o →
    2 * ((write indent v (depth + 1)).length + (writeMembers indent o depth false).length + 1) ≤
      fuel →
    parseMembers n fuel obj s =
      .ok (.object (obj ++ ((k, reread v) :: rereadMembers o)), rest)
  | k, v, o, depth, 0, obj, s, rest, _, _, _, _, _, _, _, hf => by omega
  | k, v, o, depth, fuel + 1, obj, s, rest, hs, hlt, hsorted, hwf, hwfs, hd, hds, hf => by
    have hspace : skipWs ((if 0 < indent then [32] else []) ++ (write indent v (depth + 1) ++
        (writeMembers indent o depth false ++ (appendIndent depth indent ++ 125 :: rest)))) =
        write indent v (depth + 1) ++ (writeMembers indent o depth false ++
          (appendIndent depth indent ++ 125 :: rest)) := by
      split
      · exact skipWs_write indent hd _ _
      · exact skipWs_write indent hd _ _
    have hdel : Delimits (writeMembers indent o depth false ++
        (appendIndent depth indent ++ 125 :: rest)) :=
      delimits_writeMembers _ _ _ (delimits_appendIndent _ _ (delimits_cons (by decide) _))
    have hval := parse_write n indent v (depth + 1) fuel _ hwf hd hdel (by omega)
    have hins : Assoc.insert k (reread v) obj = obj ++ [(k, reread v)] :=
      Assoc.insert_eq_append fun q hq ↦ hlt q hq (k, v) List.mem_cons_self
    rw [parseMembers, hs, parseStringInto_write]
    simp only [bind, Except.bind, skipWs_cons (show isWs 58 = false by decide), hspace, hval, hins]
    match o, hlt, hsorted, hwfs, hds, hf with
    | [], _, _, _, _, _ =>
      simp [writeMembers, skipWs_appendIndent, skipWs_cons (show isWs 125 = false by decide),
        rereadMembers]
    | (k', v') :: o, hlt, hsorted, hwfs, hds, hf =>
      obtain ⟨hlt', hsorted'⟩ := Assoc.sorted_cons.1 hsorted
      have htail := parse_writeMembers n indent k' v' o depth fuel (obj ++ [(k, reread v)])
        (appendIndent (depth + 1) indent ++ (writeEscapedString k' ++
          (58 :: ((if 0 < indent then [32] else []) ++ (write indent v' (depth + 1) ++
          (writeMembers indent o depth false ++ (appendIndent depth indent ++ 125 :: rest)))))))
        rest (by rw [skipWs_appendIndent]; rfl) ?_ hsorted' hwfs.1 hwfs.2 hds.1 hds.2 (by
          have := write_length_pos indent hd (depth + 1)
          simp [writeMembers] at hf
          omega)
      · simp only [writeMembers, Bool.false_eq_true, if_false, List.append_assoc,
          List.cons_append, List.nil_append, skipWs_cons (show isWs 44 = false by decide)]
        rw [htail]
        simp [rereadMembers]
      · intro q hq p hp
        rcases List.mem_append.1 hq with hq | hq
        · exact hlt q hq p (List.mem_cons_of_mem _ hp)
        · rw [List.mem_singleton.1 hq]
          exact hlt' p hp
end

/-- **Parsing pretty-printed text** gives the value back. -/
theorem parse_serializePretty {v : JsonValue} (hwf : v.WellFormed) (hd : DoublesPrint v)
    (indent : ℕ) : parse (serializePretty v indent) = .ok (reread v) := by
  have h := parse_write (serializePretty v indent).length indent v 0
    (parseFuel (serializePretty v indent).length) [] hwf hd delimits_nil
    (by rw [parseFuel, serializePretty]; omega)
  have hskip := skipWs_write indent hd 0 []
  rw [List.append_nil] at h hskip
  rw [parse, serializePretty, hskip]
  rw [serializePretty] at h
  simp only [h, bind, Except.bind]
  rfl

/-- **Parsing serialized text** gives the value back. -/
theorem parse_serialize {v : JsonValue} (hwf : v.WellFormed) (hd : DoublesPrint v) :
    parse (serialize v) = .ok (reread v) :=
  parse_serializePretty hwf hd 0

/-! ### Values without doubles -/

mutual
/-- No double occurs in the value. -/
def NoDoubles : JsonValue → Prop
  | .double _ => False
  | .array a => NoDoublesElems a
  | .object o => NoDoublesMembers o
  | _ => True

/-- `NoDoubles` on elements. -/
def NoDoublesElems : List JsonValue → Prop
  | [] => True
  | v :: vs => NoDoubles v ∧ NoDoublesElems vs

/-- `NoDoubles` on members. -/
def NoDoublesMembers : List (Bytes × JsonValue) → Prop
  | [] => True
  | (_, v) :: o => NoDoubles v ∧ NoDoublesMembers o
end

mutual
theorem NoDoubles.reread_eq : ∀ {v : JsonValue}, NoDoubles v → DoublesPrint v ∧ reread v = v
  | .null, _ | .bool _, _ | .int _, _ | .string _, _ => ⟨trivial, rfl⟩
  | .array a, h => by
    obtain ⟨hp, heq⟩ := noDoublesElems_reread_eq h
    exact ⟨hp, by rw [reread, heq]⟩
  | .object o, h => by
    obtain ⟨hp, heq⟩ := noDoublesMembers_reread_eq h
    exact ⟨hp, by rw [reread, heq]⟩

theorem noDoublesElems_reread_eq : ∀ {vs : List JsonValue}, NoDoublesElems vs →
    DoublesPrintElems vs ∧ rereadElems vs = vs
  | [], _ => ⟨trivial, rfl⟩
  | v :: vs, h => by
    obtain ⟨hp, heq⟩ := NoDoubles.reread_eq h.1
    obtain ⟨hps, heqs⟩ := noDoublesElems_reread_eq h.2
    exact ⟨⟨hp, hps⟩, by rw [rereadElems, heq, heqs]⟩

theorem noDoublesMembers_reread_eq : ∀ {o : List (Bytes × JsonValue)}, NoDoublesMembers o →
    DoublesPrintMembers o ∧ rereadMembers o = o
  | [], _ => ⟨trivial, rfl⟩
  | (k, v) :: o, h => by
    obtain ⟨hp, heq⟩ := NoDoubles.reread_eq h.1
    obtain ⟨hps, heqs⟩ := noDoublesMembers_reread_eq h.2
    exact ⟨⟨hp, hps⟩, by rw [rereadMembers, heq, heqs]⟩
end

/-- **Without doubles, parsing inverts pretty-printing**; no assumption on the C library. -/
theorem parse_serializePretty_of_noDoubles {v : JsonValue} (hwf : v.WellFormed)
    (hv : NoDoubles v) (indent : ℕ) : parse (serializePretty v indent) = .ok v := by
  rw [parse_serializePretty hwf hv.reread_eq.1, hv.reread_eq.2]

/-- **Without doubles, parsing inverts serializing.** -/
theorem parse_serialize_of_noDoubles {v : JsonValue} (hwf : v.WellFormed) (hv : NoDoubles v) :
    parse (serialize v) = .ok v :=
  parse_serializePretty_of_noDoubles hwf hv 0

/-- **The JSON round trip**: a value without doubles is read back from its text, compact or
indented. -/
theorem parse_of_written {v : JsonValue} (hwf : v.WellFormed) (hv : NoDoubles v) :
    parse (serialize v) = .ok v ∧ ∀ indent, parse (serializePretty v indent) = .ok v :=
  ⟨parse_serialize_of_noDoubles hwf hv, parse_serializePretty_of_noDoubles hwf hv⟩

/-- A value of every kind but doubles, with a key and a string that need escapes. -/
def sampleValue : JsonValue :=
  .object [([34, 10], .string [92, 0, 255]),
    (str "a", .array [.null, .bool true, .int (-9223372036854775808), .object []])]

omit [LibcDecimal] in
theorem parse_of_written_sample :
    @parse .integral (@serialize .integral sampleValue) = .ok sampleValue ∧
      ∀ indent, @parse .integral (@serializePretty .integral sampleValue indent) =
        .ok sampleValue :=
  @parse_of_written .integral sampleValue
    ⟨by decide, trivial, ⟨trivial, trivial, trivial, ⟨by decide, trivial⟩, trivial⟩, trivial⟩
    ⟨trivial, ⟨trivial, trivial, trivial, trivial, trivial⟩, trivial⟩

/-! ### Arrays and objects of strings -/

omit [LibcDecimal] in
theorem wellFormedElems_iff {vs : List JsonValue} :
    JsonValue.WellFormedElems vs ↔ ∀ v ∈ vs, v.WellFormed := by
  induction vs with
  | nil => exact iff_of_true trivial (by simp)
  | cons v vs ih => exact (and_congr_right' ih).trans List.forall_mem_cons.symm

theorem doublesPrintElems_iff {vs : List JsonValue} :
    DoublesPrintElems vs ↔ ∀ v ∈ vs, DoublesPrint v := by
  induction vs with
  | nil => exact iff_of_true trivial (by simp)
  | cons v vs ih => exact (and_congr_right' ih).trans List.forall_mem_cons.symm

theorem rereadElems_eq_map (vs : List JsonValue) : rereadElems vs = vs.map reread := by
  induction vs with
  | nil => rfl
  | cons v vs ih => rw [rereadElems, ih, List.map_cons]

/-- The object of a string map. -/
def ofStrings (m : SortedMap Bytes Bytes) : JsonValue :=
  .object (m.toList.map fun p ↦ (p.1, .string p.2))

omit [LibcDecimal] in
theorem ofStrings_wellFormed (m : SortedMap Bytes Bytes) : (ofStrings m).WellFormed := by
  refine ⟨List.pairwise_map.2 m.sorted, ?_⟩
  induction m.toList with
  | nil => trivial
  | cons p l ih => exact ⟨trivial, ih⟩

omit [LibcDecimal] in
theorem ofStrings_noDoubles (m : SortedMap Bytes Bytes) : NoDoubles (ofStrings m) := by
  rw [ofStrings, NoDoubles]
  induction m.toList with
  | nil => trivial
  | cons p l ih => exact ⟨trivial, ih⟩

/-- **Objects of strings** survive the round trip. -/
theorem parse_serialize_ofStrings (m : SortedMap Bytes Bytes) :
    parse (serialize (ofStrings m)) = .ok (ofStrings m) :=
  parse_serialize_of_noDoubles (ofStrings_wellFormed m) (ofStrings_noDoubles m)

omit [LibcDecimal] in
theorem findString_ofStrings (m : SortedMap Bytes Bytes) (k : Bytes) :
    (ofStrings m).findString k = m.find? k := by
  have hfind : ∀ l : List (Bytes × Bytes),
      Assoc.find? k (l.map fun p ↦ (p.1, JsonValue.string p.2)) =
        (Assoc.find? k l).map JsonValue.string := by
    intro l
    induction l with
    | nil => rfl
    | cons p l ih =>
      rw [List.map_cons, Assoc.find?_cons, Assoc.find?_cons, ih]
      split <;> rfl
  have heq : (ofStrings m).find k = (m.find? k).map JsonValue.string := hfind m.toList
  rw [JsonValue.findString, heq]
  cases m.find? k <;> rfl

end Spp.Json
