import SearchPlusPlus.Json.RoundTrip
import Mathlib.Data.List.DropRight
import Mathlib.Data.List.TakeWhile

/-!
# The grammar of the parser

The RFC 8259 grammar over bytes, as relations between a text and the value it stands for, and the
proof that the parser accepts exactly the texts it derives, with the value derived
(`parse_iff_derives`).

* Soundness goes by induction on the fuel: what a function consumed is a derivation.
* Completeness goes by recursion on the derivation. A derivation may put white space anywhere
  between tokens, while the parser has always skipped all of it, so the statements speak about
  inputs that agree up to leading white space.

The grammar of numbers decides where a token ends; that `strtod` reads the whole token is the one
thing asked of the C library (`ReadsNumbers`), and only completeness needs it.
-/

namespace Spp.Json

/-! ### Tokens -/

/-- White space. -/
def Ws (w : Bytes) : Prop := ∀ c ∈ w, isWs c = true

theorem Ws.append {w w' : Bytes} (h : Ws w) (h' : Ws w') : Ws (w ++ w') :=
  fun c hc ↦ (List.mem_append.1 hc).elim (h c) (h' c)

/-- A non-empty run of digits. -/
def Digits (ds : Bytes) : Prop := ds ≠ [] ∧ ∀ c ∈ ds, isDigit c = true

/-- `0|[1-9][0-9]*`. -/
def IntDigits (ds : Bytes) : Prop := ds = [48] ∨ Digits ds ∧ ds.head? ≠ some 48

/-- `-?`. -/
def Sign (s : Bytes) : Prop := s = [] ∨ s = [45]

/-- `(.[0-9]+)?`. -/
def Fraction (s : Bytes) : Prop := s = [] ∨ ∃ ds, Digits ds ∧ s = 46 :: ds

/-- `([eE][+-]?[0-9]+)?`. -/
def Exponent (s : Bytes) : Prop :=
  s = [] ∨ ∃ e sign ds, (e = 101 ∨ e = 69) ∧ (sign = [] ∨ sign = [43] ∨ sign = [45]) ∧
    Digits ds ∧ s = e :: (sign ++ ds)

/-- The token of a number, by its parts. -/
structure NumberToken where
  sign : Bytes
  digits : Bytes
  fraction : Bytes
  exponent : Bytes
  sign_ok : Sign sign
  digits_ok : IntDigits digits
  fraction_ok : Fraction fraction
  exponent_ok : Exponent exponent

/-- The text of a token. -/
def NumberToken.text (t : NumberToken) : Bytes :=
  t.sign ++ (t.digits ++ (t.fraction ++ t.exponent))

/-- The integer before the fraction. -/
def NumberToken.intValue (t : NumberToken) : ℤ :=
  if t.sign = [] then digitsValue t.digits else -(digitsValue t.digits : ℤ)

/-- The token has neither fraction nor exponent, and its value fits a `std::int64_t`. -/
def NumberToken.IsInt64 (t : NumberToken) : Prop :=
  t.fraction = [] ∧ t.exponent = [] ∧
    -9223372036854775808 ≤ t.intValue ∧ t.intValue ≤ 9223372036854775807

instance (t : NumberToken) : Decidable t.IsInt64 :=
  inferInstanceAs (Decidable (_ ∧ _ ∧ _ ∧ _))

/-- The escapes of one character, with what they stand for. -/
def simpleEscapes : List (UInt8 × UInt8) :=
  [(34, 34), (92, 92), (47, 47), (98, 8), (102, 12), (110, 10), (114, 13), (116, 9)]

/-- The inside of a string literal, and the bytes it stands for. -/
inductive Chars : Bytes → Bytes → Prop
  | nil : Chars [] []
  | plain {c : UInt8} {t out : Bytes} (hctl : 32 ≤ c) (hquote : c ≠ 34) (hslash : c ≠ 92)
      (h : Chars t out) : Chars (c :: t) (c :: out)
  | escape {e b : UInt8} {t out : Bytes} (he : (e, b) ∈ simpleEscapes) (h : Chars t out) :
      Chars (92 :: e :: t) (b :: out)
  | unicode {a b c d : UInt8} {cp : ℕ} {t out : Bytes} (hcp : hexQuad a b c d = some cp)
      (h : Chars t out) : Chars (92 :: 117 :: a :: b :: c :: d :: t) (utf8 cp ++ out)

/-- A string literal. -/
def StringText (t out : Bytes) : Prop := ∃ body, Chars body out ∧ t = 34 :: (body ++ [34])

variable [LibcDecimal]

/-- The value of a number token: an integer when it is one and fits 64 bits, else a double. -/
def NumberToken.value (t : NumberToken) : JsonValue :=
  if t.IsInt64 then .int (Int64.ofInt t.intValue) else .double (LibcDecimal.strtod t.text).1

/-! ### Values -/

mutual
/-- A value and its text, without white space around it. -/
inductive ValueText : Bytes → JsonValue → Prop
  | nullLit : ValueText (str "null") .null
  | trueLit : ValueText (str "true") (.bool true)
  | falseLit : ValueText (str "false") (.bool false)
  | number (t : NumberToken) : ValueText t.text t.value
  | string {t out : Bytes} (h : StringText t out) : ValueText t (.string out)
  | emptyArray {w : Bytes} (hw : Ws w) : ValueText (91 :: (w ++ [93])) (.array [])
  | array {t : Bytes} {vs : List JsonValue} (h : ElemsText t vs) :
      ValueText (91 :: (t ++ [93])) (.array vs)
  | emptyObject {w : Bytes} (hw : Ws w) : ValueText (123 :: (w ++ [125])) (.object [])
  | object {t : Bytes} {ms : List (Bytes × JsonValue)} (h : MembersText t ms) :
      ValueText (123 :: (t ++ [125])) (mkObject ms)

/-- One or more values, separated by commas. -/
inductive ElemsText : Bytes → List JsonValue → Prop
  | one {w t w' : Bytes} {v : JsonValue} (hw : Ws w) (h : ValueText t v) (hw' : Ws w') :
      ElemsText (w ++ (t ++ w')) [v]
  | more {w t w' ts : Bytes} {v : JsonValue} {vs : List JsonValue} (hw : Ws w)
      (h : ValueText t v) (hw' : Ws w') (hs : ElemsText ts vs) :
      ElemsText (w ++ (t ++ (w' ++ 44 :: ts))) (v :: vs)

/-- One or more members, separated by commas, in the order they are written. -/
inductive MembersText : Bytes → List (Bytes × JsonValue) → Prop
  | one {w tk w₁ w₂ t w' k : Bytes} {v : JsonValue} (hw : Ws w) (hk : StringText tk k)
      (hw₁ : Ws w₁) (hw₂ : Ws w₂) (h : ValueText t v) (hw' : Ws w') :
      MembersText (w ++ (tk ++ (w₁ ++ 58 :: (w₂ ++ (t ++ w'))))) [(k, v)]
  | more {w tk w₁ w₂ t w' k ts : Bytes} {v : JsonValue} {ms : List (Bytes × JsonValue)}
      (hw : Ws w) (hk : StringText tk k) (hw₁ : Ws w₁) (hw₂ : Ws w₂) (h : ValueText t v)
      (hw' : Ws w') (hs : MembersText ts ms) :
      MembersText (w ++ (tk ++ (w₁ ++ 58 :: (w₂ ++ (t ++ (w' ++ 44 :: ts)))))) ((k, v) :: ms)
end

/-- **The grammar**: a value with white space around it. -/
def Derives (s : Bytes) (v : JsonValue) : Prop :=
  ∃ w t w', Ws w ∧ ValueText t v ∧ Ws w' ∧ s = w ++ (t ++ w')

/-- `strtod` reads number tokens to their end. -/
def ReadsNumbers : Prop :=
  ∀ t : NumberToken, (LibcDecimal.strtod t.text).2 = t.text.length

/-! ### Numbers: soundness -/

omit [LibcDecimal] in
theorem takeWhile_isDigit (s : Bytes) : ∀ c ∈ s.takeWhile isDigit, isDigit c = true :=
  fun _ hc ↦ List.mem_takeWhile_imp hc

omit [LibcDecimal] in
/-- What a run of digits leaves, and that the run is one. -/
theorem digits_takeWhile {s : Bytes} (h : startsDigit s = true) :
    Digits (s.takeWhile isDigit) := by
  cases s with
  | nil => simp [startsDigit] at h
  | cons c rest =>
    refine ⟨?_, takeWhile_isDigit _⟩
    have hc : isDigit c = true := h
    rw [List.takeWhile_cons_of_pos hc]
    exact List.cons_ne_nil _ _

omit [LibcDecimal] in
theorem scanIntPart_sound {n : ℕ} {s rest : Bytes} (h : scanIntPart n s = .ok rest) :
    ∃ ds, IntDigits ds ∧ s = ds ++ rest := by
  cases s with
  | nil => simp [scanIntPart] at h
  | cons c tl =>
    rw [scanIntPart] at h
    split_ifs at h with hzero hdig
    · cases h
      exact ⟨[48], Or.inl rfl, by rw [hzero]; rfl⟩
    · cases h
      refine ⟨(c :: tl).takeWhile isDigit, Or.inr ⟨digits_takeWhile hdig, ?_⟩,
        List.takeWhile_append_dropWhile.symm⟩
      rw [List.takeWhile_cons_of_pos hdig]
      simpa using hzero

omit [LibcDecimal] in
theorem scanFraction_sound {n : ℕ} {s rest : Bytes} {b : Bool}
    (h : scanFraction n s = .ok (b, rest)) :
    ∃ fr, Fraction fr ∧ s = fr ++ rest ∧ (b = false ↔ fr = []) := by
  cases s with
  | nil =>
    cases h
    exact ⟨[], Or.inl rfl, rfl, by simp⟩
  | cons c tl =>
    rw [scanFraction] at h
    split_ifs at h with hdot hdig
    · cases h
      refine ⟨46 :: tl.takeWhile isDigit, Or.inr ⟨_, digits_takeWhile hdig, rfl⟩, ?_, by simp⟩
      rw [hdot, List.cons_append, List.takeWhile_append_dropWhile]
    · cases h
      exact ⟨[], Or.inl rfl, rfl, by simp⟩

omit [LibcDecimal] in
theorem skipExponentSign_sound (s : Bytes) :
    ∃ sign, (sign = [] ∨ sign = [43] ∨ sign = [45]) ∧ s = sign ++ skipExponentSign s := by
  cases s with
  | nil => exact ⟨[], Or.inl rfl, rfl⟩
  | cons c tl =>
    rw [skipExponentSign]
    split_ifs with hc
    · exact ⟨[c], Or.inr (hc.imp (congrArg ([·])) (congrArg ([·]))), rfl⟩
    · exact ⟨[], Or.inl rfl, rfl⟩

omit [LibcDecimal] in
theorem scanExponent_sound {n : ℕ} {s rest : Bytes} {b : Bool}
    (h : scanExponent n s = .ok (b, rest)) :
    ∃ ex, Exponent ex ∧ s = ex ++ rest ∧ (b = false ↔ ex = []) := by
  cases s with
  | nil =>
    cases h
    exact ⟨[], Or.inl rfl, rfl, by simp⟩
  | cons c tl =>
    rw [scanExponent] at h
    simp only at h
    split_ifs at h with he hdig
    · cases h
      obtain ⟨sign, hsign, htl⟩ := skipExponentSign_sound tl
      refine ⟨c :: (sign ++ (skipExponentSign tl).takeWhile isDigit),
        Or.inr ⟨c, sign, _, he, hsign, digits_takeWhile hdig, rfl⟩, ?_, by simp⟩
      rw [List.cons_append, List.append_assoc, List.takeWhile_append_dropWhile, ← htl]
    · cases h
      exact ⟨[], Or.inl rfl, rfl, by simp⟩

omit [LibcDecimal] in
theorem skipMinus_sound (s : Bytes) : ∃ sign, Sign sign ∧ s = sign ++ skipMinus s := by
  cases s with
  | nil => exact ⟨[], Or.inl rfl, rfl⟩
  | cons c tl =>
    rw [skipMinus]
    split_ifs with hc
    · exact ⟨[45], Or.inr rfl, by rw [hc]; rfl⟩
    · exact ⟨[], Or.inl rfl, rfl⟩

omit [LibcDecimal] in
/-- The first digit of an integer part is not a minus sign. -/
theorem tokenValue_intDigits {ds : Bytes} (h : IntDigits ds) : tokenValue ds = digitsValue ds := by
  have hne : ds.head? ≠ some 45 := by
    rcases h with rfl | ⟨⟨-, hdig⟩, -⟩
    · decide
    · intro hhead
      have := hdig 45 (List.mem_of_head? hhead)
      simp [isDigit] at this
  cases ds with
  | nil => rfl
  | cons c tl => rw [tokenValue, if_neg (by simpa using hne)]

omit [LibcDecimal] in
/-- `std::from_chars` on a token without fraction and exponent. -/
theorem fromChars_text (t : NumberToken) (hf : t.fraction = []) (he : t.exponent = []) :
    fromChars t.text = if t.IsInt64 then some (Int64.ofInt t.intValue) else none := by
  have hvalue : tokenValue t.text = t.intValue := by
    rw [NumberToken.text, NumberToken.intValue, hf, he]
    rcases t.sign_ok with hs | hs
    · simp [hs, tokenValue_intDigits t.digits_ok]
    · simp [hs, tokenValue]
  simp only [fromChars, hvalue, NumberToken.IsInt64, hf, he, true_and]

/-- **Numbers**: what `ParseNumber` consumes is a token, and it returns its value. -/
theorem parseNumber_sound {n : ℕ} {s rest : Bytes} {v : JsonValue}
    (h : parseNumber n s = .ok (v, rest)) :
    ∃ t : NumberToken, s = t.text ++ rest ∧ v = t.value := by
  obtain ⟨sign, hsign, hs⟩ := skipMinus_sound s
  simp only [parseNumber, bind, Except.bind] at h
  split at h
  · exact absurd h (by simp)
  next afterInt hint =>
  split at h
  · exact absurd h (by simp)
  next p hfrac =>
  obtain ⟨hasFraction, afterFraction⟩ := p
  simp only at h
  split at h
  · exact absurd h (by simp)
  next p hexp =>
  obtain ⟨hasExponent, rest'⟩ := p
  obtain ⟨ds, hds, hs'⟩ := scanIntPart_sound hint
  obtain ⟨fr, hfr, hs'', hbf⟩ := scanFraction_sound hfrac
  obtain ⟨ex, hex, hs''', hbe⟩ := scanExponent_sound hexp
  let t : NumberToken := ⟨sign, ds, fr, ex, hsign, hds, hfr, hex⟩
  have htext : s = t.text ++ rest' := by
    rw [hs, hs', hs'', hs''']
    simp [t, NumberToken.text]
  have htake : s.take (s.length - rest'.length) = t.text := by
    rw [htext]
    exact take_token _ _
  have hdouble : ∀ {what}, tokenDouble n what t.text rest' = .ok (v, rest) → ¬t.IsInt64 →
      rest' = rest ∧ v = t.value := by
    intro what hd hint
    rw [tokenDouble] at hd
    simp only at hd
    split_ifs at hd
    cases hd
    exact ⟨rfl, (if_neg hint).symm⟩
  simp only [htake] at h
  have key : rest' = rest ∧ v = t.value := by
    split_ifs at h with hfloat
    · refine hdouble h fun hi ↦ ?_
      rcases Bool.or_eq_true _ _ ▸ hfloat with hb | hb
      · rw [hbf.2 hi.1] at hb
        cases hb
      · rw [hbe.2 hi.2.1] at hb
        cases hb
    · obtain ⟨hf, he⟩ := Bool.or_eq_false_iff.1 (Bool.not_eq_true _ ▸ hfloat)
      rw [fromChars_text t (hbf.1 hf) (hbe.1 he)] at h
      by_cases hi : t.IsInt64
      · simp only [if_pos hi] at h
        cases h
        exact ⟨rfl, (if_pos hi).symm⟩
      · simp only [if_neg hi] at h
        exact hdouble h hi
  exact ⟨t, by rw [htext, key.1], key.2⟩

/-! ### Strings and values: soundness -/

omit [LibcDecimal] in
theorem mem_simpleEscapes {e b : UInt8} : (e, b) ∈ simpleEscapes ↔ unescape e = some b := by
  rw [unescape]
  split_ifs <;> simp_all [simpleEscapes, eq_comm]

omit [LibcDecimal] in
/-- **Strings**: what the loop of `ParseStringInto` consumes, and what it appends. -/
theorem parseStringBody_sound {n : ℕ} {out s res rest : Bytes}
    (h : parseStringBody n out s = .ok (res, rest)) :
    ∃ body read, Chars body read ∧ s = body ++ 34 :: rest ∧ res = out ++ read := by
  fun_induction parseStringBody n out s with
  | case3 out rest' =>
    cases h
    exact ⟨[], [], .nil, rfl, (List.append_nil _).symm⟩
  | case5 out esc rest' b hesc _ _ ih =>
    obtain ⟨body, read, hb, rfl, rfl⟩ := ih h
    exact ⟨92 :: esc :: body, b :: read, .escape (mem_simpleEscapes.2 hesc) hb, rfl, by simp⟩
  | case6 out a b c d rest' cp hcp _ _ _ ih =>
    obtain ⟨body, read, hb, rfl, rfl⟩ := ih h
    exact ⟨92 :: 117 :: a :: b :: c :: d :: body, utf8 cp ++ read, .unicode hcp hb, rfl, by simp⟩
  | case10 out c rest' hctl hquote hslash ih =>
    obtain ⟨body, read, hb, rfl, rfl⟩ := ih h
    exact ⟨c :: body, c :: read, .plain (UInt8.not_lt.1 hctl) hquote hslash hb, rfl, by simp⟩
  | _ => cases h

omit [LibcDecimal] in
theorem parseStringInto_sound {n : ℕ} {s out rest : Bytes}
    (h : parseStringInto n s = .ok (out, rest)) : ∃ t, StringText t out ∧ s = t ++ rest := by
  cases s with
  | nil => cases h
  | cons c tl =>
    rw [parseStringInto] at h
    split_ifs at h with hc
    obtain ⟨body, read, hb, rfl, rfl⟩ := parseStringBody_sound h
    exact ⟨34 :: (body ++ [34]), ⟨body, hb, rfl⟩, by rw [hc]; simp⟩

omit [LibcDecimal] in
/-- Skipped white space can be put back. -/
theorem skipWs_sound (s : Bytes) : ∃ w, Ws w ∧ s = w ++ skipWs s :=
  ⟨s.takeWhile isWs, fun _ hc ↦ List.mem_takeWhile_imp hc, List.takeWhile_append_dropWhile.symm⟩

omit [LibcDecimal] in
theorem consumeLiteral_sound {lit s rest : Bytes} (h : consumeLiteral lit s = some rest) :
    s = lit ++ rest := by
  rw [consumeLiteral] at h
  split_ifs at h with hpre
  cases h
  exact (List.prefix_iff_eq_append.1 (List.isPrefixOf_iff_prefix.1 hpre)).symm

theorem ElemsText.ws_append {w t : Bytes} {vs : List JsonValue} (hw : Ws w) (h : ElemsText t vs) :
    ElemsText (w ++ t) vs := by
  cases h with
  | one hw₀ h hw' =>
    rw [← List.append_assoc]
    exact .one (hw.append hw₀) h hw'
  | more hw₀ h hw' hs =>
    rw [← List.append_assoc]
    exact .more (hw.append hw₀) h hw' hs

theorem MembersText.ws_append {w t : Bytes} {ms : List (Bytes × JsonValue)} (hw : Ws w)
    (h : MembersText t ms) : MembersText (w ++ t) ms := by
  cases h with
  | one hw₀ hk hw₁ hw₂ h hw' =>
    rw [← List.append_assoc]
    exact .one (hw.append hw₀) hk hw₁ hw₂ h hw'
  | more hw₀ hk hw₁ hw₂ h hw' hs =>
    rw [← List.append_assoc]
    exact .more (hw.append hw₀) hk hw₁ hw₂ h hw' hs

/-- What each of the three value functions consumes, with the value it returns. -/
structure Sound (n fuel : ℕ) : Prop where
  value : ∀ {s v rest}, parseValue n fuel s = .ok (v, rest) →
    ∃ w t, Ws w ∧ ValueText t v ∧ s = w ++ (t ++ rest)
  elems : ∀ {arr s v rest}, parseElems n fuel arr s = .ok (v, rest) →
    ∃ t vs, ElemsText t vs ∧ v = .array (arr ++ vs) ∧ s = t ++ 93 :: rest
  members : ∀ {obj s v rest}, parseMembers n fuel obj s = .ok (v, rest) →
    ∃ t ms, MembersText t ms ∧ v = .object (ms.foldl (fun o p ↦ Assoc.insert p.1 p.2 o) obj) ∧
      s = t ++ 125 :: rest

theorem parseValue_sound {n fuel : ℕ} (ih : Sound n fuel) {s rest : Bytes} {v : JsonValue}
    (h : parseValue n (fuel + 1) s = .ok (v, rest)) :
    ∃ w t, Ws w ∧ ValueText t v ∧ s = w ++ (t ++ rest) := by
  obtain ⟨w, hw, hs⟩ := skipWs_sound s
  suffices ∃ t, ValueText t v ∧ skipWs s = t ++ rest by
    obtain ⟨t, ht, hskip⟩ := this
    exact ⟨w, t, hw, ht, by rw [← hskip]; exact hs⟩
  rw [parseValue] at h
  simp only at h
  split at h
  · cases h
  next c tl hskip =>
  rw [hskip] at h ⊢
  split_ifs at h with hquote hbrace hbracket hbool hnull hnum
  · simp only [bind, Except.bind] at h
    split at h
    · cases h
    next p hp =>
    cases h
    obtain ⟨t, ht, heq⟩ := parseStringInto_sound hp
    exact ⟨t, .string ht, heq⟩
  · subst hbrace
    obtain ⟨w', hw', hs'⟩ := skipWs_sound tl
    split at h
    · next tl' hskip' =>
      cases h
      rw [hskip'] at hs'
      exact ⟨123 :: (w' ++ [125]), .emptyObject hw', by rw [hs']; simp⟩
    · obtain ⟨t, ms, ht, rfl, hs''⟩ := ih.members h
      rw [hs''] at hs'
      exact ⟨123 :: (w' ++ t ++ [125]), .object (ht.ws_append hw'), by rw [hs']; simp⟩
  · subst hbracket
    obtain ⟨w', hw', hs'⟩ := skipWs_sound tl
    split at h
    · next tl' hskip' =>
      cases h
      rw [hskip'] at hs'
      exact ⟨91 :: (w' ++ [93]), .emptyArray hw', by rw [hs']; simp⟩
    · obtain ⟨t, vs, ht, rfl, hs''⟩ := ih.elems h
      rw [hs''] at hs'
      exact ⟨91 :: (w' ++ t ++ [93]), .array (ht.ws_append hw'), by rw [hs']; simp⟩
  · split at h
    · next hlit =>
      cases h
      exact ⟨_, .trueLit, consumeLiteral_sound hlit⟩
    · split at h
      · next hlit =>
        cases h
        exact ⟨_, .falseLit, consumeLiteral_sound hlit⟩
      · cases h
  · split at h
    · next hlit =>
      cases h
      exact ⟨_, .nullLit, consumeLiteral_sound hlit⟩
    · cases h
  · obtain ⟨t, heq, rfl⟩ := parseNumber_sound h
    exact ⟨t.text, .number t, heq⟩

theorem parseElems_sound {n fuel : ℕ} (ih : Sound n fuel) {arr : JsonArray} {s rest : Bytes}
    {v : JsonValue} (h : parseElems n (fuel + 1) arr s = .ok (v, rest)) :
    ∃ t vs, ElemsText t vs ∧ v = .array (arr ++ vs) ∧ s = t ++ 93 :: rest := by
  simp only [parseElems, bind, Except.bind] at h
  split at h
  · cases h
  next p hp =>
  obtain ⟨elem, s₁⟩ := p
  obtain ⟨w, t, hw, ht, rfl⟩ := ih.value hp
  obtain ⟨w', hw', hs₁⟩ := skipWs_sound s₁
  simp only at h
  split at h
  · next tl hskip =>
    obtain ⟨w₂, hw₂, htl⟩ := skipWs_sound tl
    obtain ⟨ts, vs, hts, rfl, hs₂⟩ := ih.elems h
    refine ⟨_, elem :: vs, .more hw ht hw' (hts.ws_append hw₂), by simp, ?_⟩
    rw [hs₁, hskip, htl, hs₂]
    simp
  · next tl hskip =>
    cases h
    refine ⟨_, [elem], .one hw ht hw', rfl, ?_⟩
    rw [hs₁, hskip]
    simp
  · cases h

theorem parseMembers_sound {n fuel : ℕ} (ih : Sound n fuel) {obj : JsonObject} {s rest : Bytes}
    {v : JsonValue} (h : parseMembers n (fuel + 1) obj s = .ok (v, rest)) :
    ∃ t ms, MembersText t ms ∧ v = .object (ms.foldl (fun o p ↦ Assoc.insert p.1 p.2 o) obj) ∧
      s = t ++ 125 :: rest := by
  obtain ⟨w, hw, hs⟩ := skipWs_sound s
  simp only [parseMembers, bind, Except.bind] at h
  split at h
  · cases h
  next p hp =>
  obtain ⟨key, s₁⟩ := p
  obtain ⟨tk, hk, hskip⟩ := parseStringInto_sound hp
  obtain ⟨w₁, hw₁, hs₁⟩ := skipWs_sound s₁
  simp only at h
  split at h
  · next tl hcolon =>
    obtain ⟨w₂, hw₂, htl⟩ := skipWs_sound tl
    split at h
    · cases h
    next p hval =>
    obtain ⟨val, s₂⟩ := p
    obtain ⟨w₃, t, hw₃, ht, hs₂⟩ := ih.value hval
    obtain ⟨w', hw', hs₃⟩ := skipWs_sound s₂
    have hstart : s = w ++ (tk ++ (w₁ ++ 58 :: (w₂ ++ w₃ ++ (t ++ (w' ++ skipWs s₂))))) := by
      rw [← hs₃, List.append_assoc w₂, ← hs₂, ← htl, ← hcolon, ← hs₁, ← hskip, ← hs]
    simp only at h
    split at h
    · next tl' hcomma =>
      obtain ⟨ts, ms, hts, rfl, hs₄⟩ := ih.members h
      refine ⟨_, (key, val) :: ms, .more hw hk hw₁ (hw₂.append hw₃) ht hw' hts, rfl, ?_⟩
      rw [hstart, hcomma, hs₄]
      simp
    · next tl' hclose =>
      cases h
      refine ⟨_, [(key, val)], .one hw hk hw₁ (hw₂.append hw₃) ht hw', rfl, ?_⟩
      rw [hstart, hclose]
      simp
    · cases h
  · cases h

/-- **Soundness** of the three value functions, by induction on the fuel. -/
theorem sound (n fuel : ℕ) : Sound n fuel := by
  induction fuel with
  | zero =>
    refine { value := fun h ↦ ?_, elems := fun h ↦ ?_, members := fun h ↦ ?_ }
    · simp [parseValue] at h
    · simp [parseElems] at h
    · simp [parseMembers] at h
  | succ fuel ih => exact ⟨parseValue_sound ih, parseElems_sound ih, parseMembers_sound ih⟩

/-- **Soundness**: an accepted text is derivable, with the value returned. -/
theorem derives_of_parse {s : Bytes} {v : JsonValue} (h : parse s = .ok v) : Derives s v := by
  obtain ⟨w₀, hw₀, hs⟩ := skipWs_sound s
  simp only [parse, bind, Except.bind] at h
  split at h
  · cases h
  next p hp =>
  obtain ⟨v', rest⟩ := p
  obtain ⟨w, t, hw, ht, hskip⟩ := (sound _ _).value hp
  obtain ⟨w', hw', hrest⟩ := skipWs_sound rest
  simp only at h
  split at h
  · next hend =>
    cases h
    rw [hend, List.append_nil] at hrest
    refine ⟨w₀ ++ w, t, w', hw₀.append hw, ht, hw', ?_⟩
    rw [List.append_assoc, ← hrest, ← hskip, ← hs]
  · cases h

/-! ### Numbers: completeness -/

omit [LibcDecimal] in
theorem startsDigit_of_delimits {rest : Bytes} (h : Delimits rest) :
    startsDigit rest = false ∧ rest.head? ≠ some 46 := by
  cases rest with
  | nil => exact ⟨rfl, by simp⟩
  | cons c rest => exact ⟨(h c rfl).1, by simpa using (h c rfl).2.1⟩

omit [LibcDecimal] in
theorem startsDigit_exponent {ex rest : Bytes} (hex : Exponent ex) (h : Delimits rest) :
    startsDigit (ex ++ rest) = false ∧ (ex ++ rest).head? ≠ some 46 := by
  rcases hex with rfl | ⟨e, sign, ds, he, -, -, rfl⟩
  · exact startsDigit_of_delimits h
  · rcases he with rfl | rfl
    · exact ⟨rfl, by simp⟩
    · exact ⟨rfl, by simp⟩

omit [LibcDecimal] in
theorem startsDigit_fraction {fr ex rest : Bytes} (hfr : Fraction fr) (hex : Exponent ex)
    (h : Delimits rest) : startsDigit (fr ++ (ex ++ rest)) = false := by
  rcases hfr with rfl | ⟨ds, -, rfl⟩
  · exact (startsDigit_exponent hex h).1
  · rfl

omit [LibcDecimal] in
theorem startsDigit_digits {ds : Bytes} (hds : Digits ds) (r : Bytes) :
    startsDigit (ds ++ r) = true := by
  obtain ⟨hne, hall⟩ := hds
  cases ds with
  | nil => exact absurd rfl hne
  | cons c ds => exact hall c List.mem_cons_self

omit [LibcDecimal] in
theorem dropWhile_digits {ds r : Bytes} (hds : Digits ds) (hr : startsDigit r = false) :
    (ds ++ r).dropWhile isDigit = r := by
  rw [List.dropWhile_append_of_pos hds.2]
  cases r with
  | nil => rfl
  | cons c r =>
    have hc : isDigit c = false := hr
    rw [List.dropWhile_cons_of_neg (by simp [hc])]

omit [LibcDecimal] in
theorem scanIntPart_complete (n : ℕ) {ds r : Bytes} (hds : IntDigits ds)
    (hr : startsDigit r = false) : scanIntPart n (ds ++ r) = .ok r := by
  rcases hds with rfl | ⟨hds, hzero⟩
  · rfl
  · have hdrop := dropWhile_digits hds hr
    have hstart := startsDigit_digits hds r
    cases ds with
    | nil => exact absurd rfl hds.1
    | cons c ds =>
      have hc : isDigit c = true := hstart
      rw [List.cons_append] at hdrop ⊢
      rw [scanIntPart, if_neg (by simpa using hzero), if_pos hc, hdrop]

omit [LibcDecimal] in
theorem scanFraction_complete (n : ℕ) {fr r : Bytes} (hfr : Fraction fr)
    (hr : startsDigit r = false ∧ r.head? ≠ some 46) :
    scanFraction n (fr ++ r) = .ok (!decide (fr = []), r) := by
  rcases hfr with rfl | ⟨ds, hds, rfl⟩
  · cases r with
    | nil => rfl
    | cons c r => exact if_neg (by simpa using hr.2)
  · rw [List.cons_append, scanFraction, if_pos rfl, if_pos (startsDigit_digits hds r),
      dropWhile_digits hds hr.1]
    rfl

omit [LibcDecimal] in
theorem skipExponentSign_complete {sign ds : Bytes}
    (hsign : sign = [] ∨ sign = [43] ∨ sign = [45]) (hds : Digits ds) (r : Bytes) :
    skipExponentSign (sign ++ (ds ++ r)) = ds ++ r := by
  rcases hsign with rfl | rfl | rfl
  · obtain ⟨hne, hall⟩ := hds
    cases ds with
    | nil => exact absurd rfl hne
    | cons c ds =>
      have hc : isDigit c = true := hall c List.mem_cons_self
      exact if_neg (by rintro (rfl | rfl) <;> simp [isDigit] at hc)
  · rfl
  · rfl

omit [LibcDecimal] in
theorem scanExponent_complete (n : ℕ) {ex rest : Bytes} (hex : Exponent ex)
    (hrest : Delimits rest) : scanExponent n (ex ++ rest) = .ok (!decide (ex = []), rest) := by
  rcases hex with rfl | ⟨e, sign, ds, he, hsign, hds, rfl⟩
  · exact scanExponent_of_delimits n hrest
  · rw [List.cons_append, List.append_assoc, scanExponent, if_pos he]
    simp only [skipExponentSign_complete hsign hds, startsDigit_digits hds, if_true,
      dropWhile_digits hds (startsDigit_of_delimits hrest).1]
    rfl

omit [LibcDecimal] in
theorem skipMinus_complete {sign ds : Bytes} (hsign : Sign sign) (hds : IntDigits ds)
    (r : Bytes) : skipMinus (sign ++ (ds ++ r)) = ds ++ r := by
  rcases hsign with rfl | rfl
  · rcases hds with rfl | ⟨⟨hne, hall⟩, -⟩
    · rfl
    · cases ds with
      | nil => exact absurd rfl hne
      | cons c ds =>
        have hc : isDigit c = true := hall c List.mem_cons_self
        exact if_neg (by rintro rfl; simp [isDigit] at hc)
  · rfl

/-- **Numbers**: a token is read whole, up to its delimiter. -/
theorem parseNumber_complete (hread : ReadsNumbers) (n : ℕ) (t : NumberToken) {rest : Bytes}
    (hrest : Delimits rest) : parseNumber n (t.text ++ rest) = .ok (t.value, rest) := by
  have hskip : skipMinus (t.text ++ rest) =
      t.digits ++ (t.fraction ++ (t.exponent ++ rest)) := by
    rw [← skipMinus_complete t.sign_ok t.digits_ok]
    simp [NumberToken.text]
  have htake : (t.text ++ rest).take ((t.text ++ rest).length - rest.length) = t.text :=
    take_token _ _
  have hdouble : ∀ what, ¬t.IsInt64 → tokenDouble n what t.text rest = .ok (t.value, rest) := by
    intro what hint
    rw [tokenDouble, NumberToken.value, if_neg hint]
    exact if_pos (hread t)
  simp only [parseNumber, hskip, scanIntPart_complete n t.digits_ok
      (startsDigit_fraction t.fraction_ok t.exponent_ok hrest),
    scanFraction_complete n t.fraction_ok (startsDigit_exponent t.exponent_ok hrest),
    scanExponent_complete n t.exponent_ok hrest, htake, bind, Except.bind]
  split_ifs with hfloat
  · refine hdouble _ fun hi ↦ ?_
    simp [hi.1, hi.2.1] at hfloat
  · have hparts : t.fraction = [] ∧ t.exponent = [] := by simpa using hfloat
    rw [fromChars_text t hparts.1 hparts.2]
    by_cases hi : t.IsInt64
    · simp only [if_pos hi, NumberToken.value]
    · simp only [if_neg hi]
      exact hdouble _ hi

/-! ### Strings and values: completeness -/

omit [LibcDecimal] in
theorem parseStringBody_complete (n : ℕ) {body read : Bytes} (h : Chars body read)
    (rest : Bytes) (out : Bytes) :
    parseStringBody n out (body ++ 34 :: rest) = .ok (out ++ read, rest) := by
  induction h generalizing out with
  | nil =>
    rw [List.nil_append, parseStringBody.eq_def]
    simp
  | @plain c t read hctl hquote hslash _ ih =>
    rw [List.cons_append, parseStringBody.eq_def]
    simp only [UInt8.not_lt.2 hctl, hquote, hslash, if_false, ih]
    simp
  | @escape e b t read he _ ih =>
    rw [List.cons_append, List.cons_append, parseStringBody.eq_def]
    simp only [mem_simpleEscapes.1 he, ih]
    simp
  | @unicode a b c d cp t read hcp _ ih =>
    have h117 : unescape 117 = none := by decide
    rw [parseStringBody.eq_def]
    simp only [List.cons_append, h117, hcp, ih]
    simp

omit [LibcDecimal] in
theorem parseStringInto_complete (n : ℕ) {t out : Bytes} (h : StringText t out) (rest : Bytes) :
    parseStringInto n (t ++ rest) = .ok (out, rest) := by
  obtain ⟨body, hbody, rfl⟩ := h
  have := parseStringBody_complete n hbody rest []
  rw [List.nil_append] at this
  rw [List.cons_append, parseStringInto, if_pos rfl, List.append_assoc, List.singleton_append, this]

omit [LibcDecimal] in
theorem skipWs_append {w : Bytes} (hw : Ws w) (s : Bytes) : skipWs (w ++ s) = skipWs s :=
  List.dropWhile_append_of_pos hw

omit [LibcDecimal] in
theorem skipWs_skipWs (s : Bytes) : skipWs (skipWs s) = skipWs s :=
  List.dropWhile_idempotent isWs s

omit [LibcDecimal] in
theorem delimits_ws {w rest : Bytes} (hw : Ws w) (hrest : Delimits rest) :
    Delimits (w ++ rest) := by
  cases w with
  | nil => exact hrest
  | cons c w =>
    have hc : isWs c = true := hw c List.mem_cons_self
    refine delimits_cons ?_ _
    simp only [isWs, Bool.or_eq_true, decide_eq_true_eq] at hc
    rcases hc with ((rfl | rfl) | rfl) | rfl <;> decide

omit [LibcDecimal] in
theorem NumberToken.starts (t : NumberToken) :
    ∃ c tl, t.text = c :: tl ∧ (c = 45 ∨ isDigit c = true) := by
  rcases t.sign_ok with hs | hs
  · rcases t.digits_ok with hd | ⟨⟨hne, hall⟩, -⟩
    · exact ⟨48, _, by rw [text, hs, hd]; rfl, Or.inr rfl⟩
    · obtain ⟨c, ds, hcons⟩ := List.exists_cons_of_ne_nil hne
      exact ⟨c, _, by rw [text, hs, hcons]; rfl, Or.inr (hall c (by rw [hcons]; simp))⟩
  · exact ⟨45, _, by rw [text, hs]; rfl, Or.inl rfl⟩

/-- A value starts with a byte that is neither white space nor a closing bracket. -/
theorem ValueText.starts {t : Bytes} {v : JsonValue} (h : ValueText t v) :
    ∃ c tl, t = c :: tl ∧ isWs c = false ∧ c ≠ 93 := by
  cases h with
  | nullLit => exact ⟨110, str "ull", rfl, rfl, by decide⟩
  | trueLit => exact ⟨116, str "rue", rfl, rfl, by decide⟩
  | falseLit => exact ⟨102, str "alse", rfl, rfl, by decide⟩
  | number t =>
    obtain ⟨c, tl, heq, hc⟩ := t.starts
    obtain ⟨hws, -, -, -, hne, -⟩ := isWs_of_number hc
    exact ⟨c, tl, heq, hws, hne⟩
  | string h =>
    obtain ⟨body, -, rfl⟩ := h
    exact ⟨34, _, rfl, rfl, by decide⟩
  | emptyArray _ | array _ => exact ⟨91, _, rfl, rfl, by decide⟩
  | emptyObject _ | object _ => exact ⟨123, _, rfl, rfl, by decide⟩

/-- White space before a value is all there is to skip. -/
theorem ValueText.skipWs {w t : Bytes} {v : JsonValue} (h : ValueText t v) (hw : Ws w)
    (r : Bytes) : skipWs (w ++ (t ++ r)) = t ++ r := by
  obtain ⟨c, tl, rfl, hc, -⟩ := h.starts
  rw [skipWs_append hw, List.cons_append, skipWs_cons hc]

theorem ElemsText.starts {t : Bytes} {vs : List JsonValue} (h : ElemsText t vs) (r : Bytes) :
    ∃ c tl, skipWs (t ++ r) = c :: tl ∧ c ≠ 93 := by
  cases h with
  | one hw h hw' =>
    obtain ⟨c, tl, heq, -, hc⟩ := h.starts
    rw [List.append_assoc, List.append_assoc, h.skipWs hw, heq]
    exact ⟨c, _, rfl, hc⟩
  | more hw h hw' hs =>
    obtain ⟨c, tl, heq, -, hc⟩ := h.starts
    rw [List.append_assoc, List.append_assoc, h.skipWs hw, heq]
    exact ⟨c, _, rfl, hc⟩

theorem MembersText.starts {t : Bytes} {ms : List (Bytes × JsonValue)} (h : MembersText t ms)
    (r : Bytes) : ∃ tl, skipWs (t ++ r) = 34 :: tl := by
  cases h with
  | one hw hk hw₁ hw₂ h hw' =>
    obtain ⟨body, -, rfl⟩ := hk
    rw [List.append_assoc, skipWs_append hw]
    exact ⟨_, skipWs_cons rfl _⟩
  | more hw hk hw₁ hw₂ h hw' hs =>
    obtain ⟨body, -, rfl⟩ := hk
    rw [List.append_assoc, skipWs_append hw]
    exact ⟨_, skipWs_cons rfl _⟩

omit [LibcDecimal] in
/-- White space before a string is all there is to skip. -/
theorem StringText.skipWs {w t out : Bytes} (h : StringText t out) (hw : Ws w) (r : Bytes) :
    skipWs (w ++ (t ++ r)) = t ++ r := by
  obtain ⟨body, -, rfl⟩ := h
  rw [skipWs_append hw, List.cons_append, skipWs_cons rfl]

/-- `ParseValue` starts by skipping white space. -/
theorem parseValue_congr (n fuel : ℕ) {s s' : Bytes} (h : skipWs s = skipWs s') :
    parseValue n (fuel + 1) s = parseValue n (fuel + 1) s' := by
  rw [parseValue, parseValue, h]

/-- The empty object, whatever follows. -/
theorem parseValue_emptyObject (n fuel : ℕ) {w s rest : Bytes} (hw : Ws w)
    (hs : skipWs s = 123 :: (w ++ 125 :: rest)) :
    parseValue n (fuel + 1) s = .ok (.object [], rest) := by
  rw [parseValue, hs]
  simp only [skipWs_append hw, skipWs_cons (show isWs 125 = false by decide)]
  rfl

/-- An object with members, whatever follows. -/
theorem parseValue_object (n fuel : ℕ) {t s rest : Bytes} {ms : List (Bytes × JsonValue)}
    {v : JsonValue} (h : MembersText t ms) (hs : skipWs s = 123 :: (t ++ 125 :: rest))
    (hmembers : parseMembers n fuel [] (skipWs (t ++ 125 :: rest)) = .ok (v, rest)) :
    parseValue n (fuel + 1) s = .ok (v, rest) := by
  obtain ⟨tl, heq⟩ := h.starts (125 :: rest)
  rw [heq] at hmembers
  rw [parseValue, hs]
  simp only [heq]
  simpa using hmembers

mutual
/-- **Completeness** of `ParseValue`: a derived text is read up to its end. -/
theorem parseValue_complete (hread : ReadsNumbers) (n : ℕ) : ∀ {t : Bytes} {v : JsonValue},
    ValueText t v → ∀ (fuel : ℕ) (s rest : Bytes), skipWs s = t ++ rest → Delimits rest →
      2 * t.length ≤ fuel → parseValue n fuel s = .ok (v, rest)
  | t, v, h, 0, s, rest, _, _, hf => by
    obtain ⟨c, tl, rfl, -⟩ := h.starts
    simp at hf
  | _, _, .nullLit, fuel + 1, s, rest, hs, _, _ => by
    rw [parseValue, hs]
    rfl
  | _, _, .trueLit, fuel + 1, s, rest, hs, _, _ => by
    rw [parseValue, hs]
    rfl
  | _, _, .falseLit, fuel + 1, s, rest, hs, _, _ => by
    rw [parseValue, hs]
    rfl
  | _, _, .number t, fuel + 1, s, rest, hs, hrest, _ => by
    have hskip : skipWs s = skipWs (t.text ++ rest) := by rw [← hs, skipWs_skipWs]
    rw [parseValue_congr n fuel hskip, parseValue_number n fuel t.starts,
      parseNumber_complete hread n t hrest]
  | _, _, .string h, fuel + 1, s, rest, hs, _, _ => by
    have hstr := parseStringInto_complete n h rest
    obtain ⟨body, -, rfl⟩ := h
    rw [parseValue, hs]
    rw [List.cons_append] at hstr ⊢
    simp only [hstr, bind, Except.bind, if_true]
  | _, _, .emptyArray hw, fuel + 1, s, rest, hs, _, _ => by
    rw [parseValue, hs]
    simp only [List.cons_append, List.append_assoc, skipWs_append hw, List.nil_append,
      skipWs_cons (show isWs 93 = false by decide)]
    rfl
  | _, _, .array h, fuel + 1, s, rest, hs, _, hf => by
    obtain ⟨c, tl, heq, hc⟩ := h.starts (93 :: rest)
    have helems := parseElems_complete hread n h fuel [] (skipWs (_ ++ 93 :: rest)) rest
      (skipWs_skipWs _) (by
        simp only [List.length_cons, List.length_append, List.length_nil] at hf
        omega)
    rw [heq] at helems
    rw [parseValue, hs]
    simp only [List.cons_append, List.append_assoc, List.nil_append, heq]
    simpa [hc] using helems
  | _, _, .emptyObject hw, fuel + 1, s, rest, hs, _, _ =>
    parseValue_emptyObject n fuel hw (by simpa using hs)
  | _, _, .object h, fuel + 1, s, rest, hs, _, hf =>
    parseValue_object n fuel h (by simpa using hs) (parseMembers_complete hread n h fuel [] _ rest
      (skipWs_skipWs _) (by
        simp only [List.length_cons, List.length_append, List.length_nil] at hf
        omega))

/-- Completeness of the loop of `ParseArray`. -/
theorem parseElems_complete (hread : ReadsNumbers) (n : ℕ) : ∀ {t : Bytes} {vs : List JsonValue},
    ElemsText t vs → ∀ (fuel : ℕ) (arr : JsonArray) (s rest : Bytes),
      skipWs s = skipWs (t ++ 93 :: rest) → 2 * t.length < fuel →
      parseElems n fuel arr s = .ok (.array (arr ++ vs), rest)
  | _, _, _, 0, _, _, _, _, hf => absurd hf (Nat.not_lt_zero _)
  | _, _, .one hw h hw', fuel + 1, arr, s, rest, hs, hf => by
    have hdel : Delimits (93 :: rest) := delimits_cons (by decide) _
    rw [List.append_assoc, List.append_assoc, h.skipWs hw] at hs
    rw [parseElems, parseValue_complete hread n h fuel s _ hs (delimits_ws hw' hdel) (by
      simp only [List.length_append] at hf
      omega)]
    simp only [bind, Except.bind, skipWs_append hw', skipWs_cons (show isWs 93 = false by decide)]
  | _, _, .more hw h hw' hts, fuel + 1, arr, s, rest, hs, hf => by
    have hdel : ∀ r, Delimits (44 :: r) := delimits_cons (by decide)
    simp only [List.append_assoc, List.cons_append] at hs
    rw [h.skipWs hw] at hs
    simp only [List.length_append, List.length_cons] at hf
    rw [parseElems, parseValue_complete hread n h fuel s _ hs (delimits_ws hw' (hdel _)) (by omega)]
    simp only [bind, Except.bind, skipWs_append hw', skipWs_cons (show isWs 44 = false by decide)]
    rw [parseElems_complete hread n hts fuel _ _ rest (skipWs_skipWs _) (by omega),
      List.append_assoc, List.singleton_append]

/-- Completeness of the loop of `ParseObject`. -/
theorem parseMembers_complete (hread : ReadsNumbers) (n : ℕ) :
    ∀ {t : Bytes} {ms : List (Bytes × JsonValue)}, MembersText t ms →
      ∀ (fuel : ℕ) (obj : JsonObject) (s rest : Bytes),
        skipWs s = skipWs (t ++ 125 :: rest) → 2 * t.length < fuel →
        parseMembers n fuel obj s =
          .ok (.object (ms.foldl (fun o p ↦ Assoc.insert p.1 p.2 o) obj), rest)
  | _, _, _, 0, _, _, _, _, hf => absurd hf (Nat.not_lt_zero _)
  | _, _, .one hw hk hw₁ hw₂ h hw', fuel + 1, obj, s, rest, hs, hf => by
    have hdel : Delimits (125 :: rest) := delimits_cons (by decide) _
    simp only [List.append_assoc, List.cons_append] at hs
    rw [hk.skipWs hw] at hs
    simp only [List.length_append, List.length_cons] at hf
    have hval := h.skipWs hw₂
    rw [parseMembers, hs, parseStringInto_complete n hk]
    simp only [bind, Except.bind, skipWs_append hw₁, skipWs_cons (show isWs 58 = false by decide)]
    rw [parseValue_complete hread n h fuel _ _ (by rw [skipWs_skipWs, hval])
      (delimits_ws hw' hdel) (by omega)]
    simp only [skipWs_append hw', skipWs_cons (show isWs 125 = false by decide), List.foldl_cons,
      List.foldl_nil]
  | _, _, .more hw hk hw₁ hw₂ h hw' hts, fuel + 1, obj, s, rest, hs, hf => by
    have hdel : ∀ r, Delimits (44 :: r) := delimits_cons (by decide)
    simp only [List.append_assoc, List.cons_append] at hs
    rw [hk.skipWs hw] at hs
    simp only [List.length_append, List.length_cons] at hf
    have hval := h.skipWs hw₂
    rw [parseMembers, hs, parseStringInto_complete n hk]
    simp only [bind, Except.bind, skipWs_append hw₁, skipWs_cons (show isWs 58 = false by decide)]
    rw [parseValue_complete hread n h fuel _ _ (by rw [skipWs_skipWs, hval])
      (delimits_ws hw' (hdel _)) (by omega)]
    simp only [skipWs_append hw', skipWs_cons (show isWs 44 = false by decide), List.foldl_cons]
    exact parseMembers_complete hread n hts fuel _ _ rest rfl (by omega)
end

/-- **Completeness**: a derivable text is accepted, with the value derived. -/
theorem parse_of_derives (hread : ReadsNumbers) {s : Bytes} {v : JsonValue} (h : Derives s v) :
    parse s = .ok v := by
  obtain ⟨w, t, w', hw, ht, hw', rfl⟩ := h
  have hdel : Delimits w' := by
    have := delimits_ws hw' delimits_nil
    rwa [List.append_nil] at this
  have hval := parseValue_complete hread (w ++ (t ++ w')).length ht
    (parseFuel (w ++ (t ++ w')).length) (skipWs (w ++ (t ++ w'))) w'
    (by rw [skipWs_skipWs, ht.skipWs hw]) hdel (by
      rw [parseFuel]
      simp only [List.length_append]
      omega)
  have hend : skipWs w' = [] := by
    have := skipWs_append hw' []
    rwa [List.append_nil] at this
  simp only [parse, hval, hend, bind, Except.bind]

/-- An object is read up to its closing brace, whatever follows. -/
theorem parseValue_objectText (hread : ReadsNumbers) (n : ℕ) {tl : Bytes} {v : JsonValue}
    (h : ValueText (123 :: tl) v) {fuel : ℕ} (rest : Bytes) (hf : 2 * (123 :: tl).length ≤ fuel) :
    parseValue n fuel (123 :: tl ++ rest) = .ok (v, rest) := by
  obtain ⟨fuel, rfl⟩ := Nat.exists_eq_succ_of_ne_zero (show fuel ≠ 0 by
    rw [List.length_cons] at hf
    omega)
  have hskip : skipWs (123 :: tl ++ rest) = 123 :: (tl ++ rest) := skipWs_cons rfl _
  generalize hs : 123 :: tl = s at h hf hskip ⊢
  cases h with
  | emptyObject hw =>
    obtain ⟨-, rfl⟩ := List.cons.inj hs
    exact parseValue_emptyObject n fuel hw (by simpa using hskip)
  | @object t ms hm =>
    obtain ⟨-, rfl⟩ := List.cons.inj hs
    refine parseValue_object n fuel hm (by simpa using hskip) ?_
    refine parseMembers_complete hread n hm fuel [] _ rest (skipWs_skipWs _) ?_
    simp only [List.length_cons, List.length_append, List.length_nil] at hf
    omega
  | number t =>
    obtain ⟨c, tl', heq, hc⟩ := t.starts
    rw [heq] at hs
    obtain ⟨rfl, -⟩ := List.cons.inj hs
    rcases hc with hc | hc <;> cases hc
  | string h =>
    obtain ⟨body, -, rfl⟩ := h
    cases hs
  | nullLit | trueLit | falseLit | emptyArray _ | array _ => cases hs

/-- **Writing an object is prefix free**: no proper prefix of its text is accepted. -/
theorem parse_prefix_writeObject (hread : ReadsNumbers) {v : JsonValue} (hwf : v.WellFormed)
    (hd : DoublesPrint v) (hobj : ∃ o, v = .object o) (indent : ℕ) {text : Bytes}
    (hpre : text <+: serializePretty v indent) (hne : text ≠ serializePretty v indent)
    (u : JsonValue) : parse text ≠ .ok u := by
  intro hu
  obtain ⟨w, t, w', hw, ht, hw', rfl⟩ := derives_of_parse hu
  obtain ⟨y, hy⟩ := hpre
  obtain ⟨o, rfl⟩ := hobj
  -- The text starts with its opening brace, so there is no white space before the value.
  obtain ⟨c, tl, rfl, hc, -⟩ := ht.starts
  have hstart : ∃ body, serializePretty (.object o) indent = 123 :: body := by
    rcases o with - | ⟨p, o⟩
    · exact ⟨_, rfl⟩
    · exact ⟨_, rfl⟩
  obtain ⟨body, hbody⟩ := hstart
  have hwnil : w = [] := by
    cases w with
    | nil => rfl
    | cons b w =>
      rw [hbody] at hy
      have hb : b = 123 := (List.cons.inj hy).1
      have := hw b List.mem_cons_self
      rw [hb] at this
      cases this
  subst hwnil
  have hhead : c = 123 := by
    rw [hbody] at hy
    exact (List.cons.inj hy).1
  subst hhead
  set n := (serializePretty (.object o) indent).length
  have hlen : (123 :: tl).length ≤ n := by
    have := congrArg List.length hy
    simp only [List.length_append, List.nil_append] at this
    omega
  have hwhole := parse_write n indent (.object o) 0 (parseFuel n) [] hwf hd delimits_nil
    (by rw [parseFuel]; change 2 * n ≤ _; omega)
  have hpart := parseValue_objectText hread n ht (w' ++ y) (by rw [parseFuel]; omega :
    2 * (123 :: tl).length ≤ parseFuel n)
  -- Both read the same bytes, so nothing is left after the value.
  have htext : 123 :: tl ++ (w' ++ y) = write indent (.object o) 0 := by
    rw [← List.append_assoc]
    exact hy
  rw [List.append_nil] at hwhole
  rw [htext, hwhole] at hpart
  have hrest : w' ++ y = [] := (Prod.mk.inj (Except.ok.inj hpart)).2.symm
  rw [List.append_eq_nil_iff] at hrest
  refine hne ?_
  rw [← hy, hrest.2, List.append_nil]

/-- **The parser accepts exactly its grammar**, with the value of the derivation. -/
theorem parse_iff_derives (hread : ReadsNumbers) (s : Bytes) (v : JsonValue) :
    parse s = .ok v ↔ Derives s v :=
  ⟨derives_of_parse, parse_of_derives hread⟩

/-! ### Parsed values -/

mutual

theorem ValueText.wellFormed : ∀ {t : Bytes} {v : JsonValue}, ValueText t v → v.WellFormed
  | _, _, .nullLit | _, _, .trueLit | _, _, .falseLit | _, _, .string _ => trivial
  | _, _, .number t => by
    rw [NumberToken.value]
    split_ifs <;> exact trivial
  | _, _, .emptyArray _ => trivial
  | _, _, .array h => h.wellFormed
  | _, _, .emptyObject _ => ⟨Assoc.sorted_nil, trivial⟩
  | _, _, .object h => JsonValue.wellFormed_mkObject h.wellFormed

theorem ElemsText.wellFormed : ∀ {t : Bytes} {vs : List JsonValue}, ElemsText t vs →
    JsonValue.WellFormedElems vs
  | _, _, .one _ h _ => ⟨h.wellFormed, trivial⟩
  | _, _, .more _ h _ hs => ⟨h.wellFormed, hs.wellFormed⟩

theorem MembersText.wellFormed : ∀ {t : Bytes} {ms : List (Bytes × JsonValue)},
    MembersText t ms → ∀ p ∈ ms, p.2.WellFormed
  | _, _, .one _ _ _ _ h _ => List.forall_mem_singleton.2 h.wellFormed
  | _, _, .more _ _ _ _ h _ hs => List.forall_mem_cons.2 ⟨h.wellFormed, hs.wellFormed⟩

end

/-- The objects of a parsed value are maps. -/
theorem wellFormed_of_parse {s : Bytes} {v : JsonValue} (h : parse s = .ok v) : v.WellFormed := by
  obtain ⟨w, t, w', -, ht, -⟩ := derives_of_parse h
  exact ht.wellFormed

omit [LibcDecimal] in
theorem parse_iff_derives_sample :
    @parse .integral (str "[1, {}]") = .ok (.array [.int 1, .object []]) ↔
      @Derives .integral (str "[1, {}]") (.array [.int 1, .object []]) :=
  @parse_iff_derives .integral (fun _ ↦ rfl) (str "[1, {}]") (.array [.int 1, .object []])

end Spp.Json
