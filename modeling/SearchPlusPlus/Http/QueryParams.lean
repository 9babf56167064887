import SearchPlusPlus.Http.HttpParser

/-!
# Query parameters

`UrlDecode` and `HttpRequest::QueryParams`. A query is split at its ampersands and each piece at
its first equals sign before anything is decoded, so what is encoded may hold both
(`queryParams_of_encoded`).
-/

namespace Spp.Http

open Analyze Substring

/-- `hexval`. -/
def hexval (h : UInt8) : Option UInt8 :=
  if 48 ≤ h ∧ h ≤ 57 then some (h - 48)
  else if 97 ≤ h ∧ h ≤ 102 then some (h - 97 + 10)
  else if 65 ≤ h ∧ h ≤ 70 then some (h - 65 + 10)
  else none

/-- The byte of an escape that starts with `c` and goes on with the first two bytes of `s`. -/
def escapedByte (c : UInt8) (s : Bytes) : Option UInt8 :=
  match s with
  | h :: l :: _ =>
    if c = 37 then do
      let hi ← hexval h
      let lo ← hexval l
      some ((hi <<< 4) ||| lo)
    else none
  | _ => none

/-- The loop of `UrlDecode`; `skip` counts the bytes that an escape has used up. -/
def urlDecodeLoop : ℕ → Bytes → Bytes
  | _, [] => []
  | skip + 1, _ :: s => urlDecodeLoop skip s
  | 0, c :: s =>
    if c = 43 then 32 :: urlDecodeLoop 0 s
    else
      match escapedByte c s with
      | some b => b :: urlDecodeLoop 2 s
      | none => c :: urlDecodeLoop 0 s

/-- `UrlDecode`. -/
def urlDecode (s : Bytes) : Bytes := urlDecodeLoop 0 s

/-- What a piece of the query adds. -/
def addParam (out : SortedMap Bytes Bytes) (pair : Bytes) : SortedMap Bytes Bytes :=
  match find pair [61] 0 with
  | none => out.insert (urlDecode pair) []
  | some eq => out.insert (urlDecode (pair.take eq)) (urlDecode (pair.drop (eq + 1)))

/-- The loop of `QueryParams`. Every round takes a byte, so the length of the query is fuel
enough. -/
def queryParamsLoop : ℕ → Bytes → SortedMap Bytes Bytes → SortedMap Bytes Bytes
  | 0, _, out => out
  | fuel + 1, q, out =>
    if q = [] then out
    else
      match find q [38] 0 with
      | none => addParam out q
      | some amp => queryParamsLoop fuel (q.drop (amp + 1)) (addParam out (q.take amp))

/-- `QueryParams`. -/
def HttpRequest.queryParams (req : HttpRequest) : SortedMap Bytes Bytes :=
  queryParamsLoop req.query.length req.query .empty

/-- Plus signs and escapes of either case; a percent sign without two digits stays. -/
example : urlDecode (str "a+b%2F%2f%4") = str "a b//%4" := by decide

/-! ### What is encoded -/

/-- A hexadecimal digit of either case. -/
def HexDigit (n : ℕ) (h : UInt8) : Prop :=
  (str "0123456789abcdef")[n]? = some h ∨ (str "0123456789ABCDEF")[n]? = some h

/-- The encodings of a byte: a letter or digit is its own, a space may be a plus sign. -/
inductive EncodedByte : UInt8 → Bytes → Prop
  | plain {c : UInt8} (hc : isTokenChar c = true) : EncodedByte c [c]
  | plus : EncodedByte 32 [43]
  | escape {c h l : UInt8} (hc : isTokenChar c = false) (hh : HexDigit (c.toNat / 16) h)
      (hl : HexDigit (c.toNat % 16) l) : EncodedByte c [37, h, l]

/-- The encodings of a byte string. -/
inductive Encoded : Bytes → Bytes → Prop
  | nil : Encoded [] []
  | cons {c : UInt8} {s e es : Bytes} (h : EncodedByte c e) (hs : Encoded s es) :
      Encoded (c :: s) (e ++ es)

/-- The encodings of a key and its value. -/
def EncodedPair (p : Bytes × Bytes) (e : Bytes) : Prop :=
  ∃ key value, Encoded p.1 key ∧ Encoded p.2 value ∧ e = key ++ 61 :: value

/-- The encodings of a list of keys and values. -/
def EncodedQuery (pairs : List (Bytes × Bytes)) (query : Bytes) : Prop :=
  ∃ pieces, List.Forall₂ EncodedPair pairs pieces ∧ query = [38].intercalate pieces

/-! ### Decoding -/

theorem hexval_of_hexDigit {n : ℕ} {h : UInt8} (hh : HexDigit n h) :
    hexval h = some (UInt8.ofNat n) ∧ isTokenChar h = true := by
  have hall : ∀ i : Fin 16, ∀ digits ∈ [str "0123456789abcdef", str "0123456789ABCDEF"],
      ∀ d ∈ digits[i.val]?, hexval d = some (UInt8.ofNat i) ∧ isTokenChar d = true := by
    decide +kernel
  rcases hh with hh | hh
  · obtain ⟨hn, -⟩ := List.getElem?_eq_some_iff.1 hh
    exact hall ⟨n, hn⟩ _ (by simp) h hh
  · obtain ⟨hn, -⟩ := List.getElem?_eq_some_iff.1 hh
    exact hall ⟨n, hn⟩ _ (by simp) h hh

theorem nibbles_or (c : UInt8) :
    (UInt8.ofNat (c.toNat / 16) <<< 4) ||| UInt8.ofNat (c.toNat % 16) = c := by
  have hall : ∀ i : Fin 256, (UInt8.ofNat ((UInt8.ofFin i).toNat / 16) <<< 4) |||
      UInt8.ofNat ((UInt8.ofFin i).toNat % 16) = UInt8.ofFin i := by
    decide +kernel
  exact hall c.toFin

/-- **One encoded byte** is decoded. -/
theorem urlDecodeLoop_encodedByte {c : UInt8} {e : Bytes} (h : EncodedByte c e) (rest : Bytes) :
    urlDecodeLoop 0 (e ++ rest) = c :: urlDecodeLoop 0 rest := by
  cases h with
  | plain hc =>
    have hplus : c ≠ 43 := fun heq ↦ by rw [heq] at hc; cases hc
    have hpercent : c ≠ 37 := fun heq ↦ by rw [heq] at hc; cases hc
    have hnone : escapedByte c rest = none := by
      rcases rest with - | ⟨h, - | ⟨l, rest⟩⟩
      · rfl
      · rfl
      · exact if_neg hpercent
    rw [List.singleton_append, urlDecodeLoop, if_neg hplus, hnone]
  | plus => rfl
  | @escape _ h l hc hh hl =>
    have hbyte : escapedByte 37 (h :: l :: rest) = some c := by
      rw [escapedByte, if_pos rfl, (hexval_of_hexDigit hh).1, (hexval_of_hexDigit hl).1]
      exact congrArg some (nibbles_or c)
    show urlDecodeLoop 0 (37 :: h :: l :: rest) = _
    rw [urlDecodeLoop, if_neg (by decide), hbyte]
    rfl

theorem urlDecode_of_encoded {s e : Bytes} (h : Encoded s e) : urlDecode e = s := by
  induction h with
  | nil => rfl
  | cons h _ ih =>
    rw [urlDecode, urlDecodeLoop_encodedByte h]
    exact congrArg (_ :: ·) ih

/-- What is encoded has neither of the two separators. -/
theorem not_mem_encoded {s e : Bytes} (h : Encoded s e) {d : UInt8} (hd : isTokenChar d = false)
    (hplus : d ≠ 43) (hpercent : d ≠ 37) : d ∉ e := by
  have htoken : ∀ {c : UInt8}, isTokenChar c = true → d ≠ c := fun hc heq ↦ by
    rw [heq, hc] at hd
    cases hd
  induction h with
  | nil => exact List.not_mem_nil
  | cons h _ ih =>
    refine fun hmem ↦ (List.mem_append.1 hmem).elim ?_ ih
    cases h with
    | plain hc => exact fun hmem ↦ htoken hc (List.mem_singleton.1 hmem)
    | plus => exact fun hmem ↦ hplus (List.mem_singleton.1 hmem)
    | escape _ hh hl =>
      intro hmem
      simp only [List.mem_cons, List.not_mem_nil, or_false] at hmem
      rcases hmem with heq | heq | heq
      · exact hpercent heq
      · exact htoken (hexval_of_hexDigit hh).2 heq
      · exact htoken (hexval_of_hexDigit hl).2 heq

/-! ### Splitting -/

theorem addParam_of_encoded {p : Bytes × Bytes} {e : Bytes} (h : EncodedPair p e)
    (out : SortedMap Bytes Bytes) : addParam out e = out.insert p.1 p.2 := by
  obtain ⟨key, value, hkey, hvalue, rfl⟩ := h
  have hfind : find (key ++ 61 :: value) [61] 0 = some key.length := by
    rw [find_zero]
    exact locate_singleton_append (not_mem_encoded hkey rfl (by decide) (by decide)) value
  have hdrop : (key ++ 61 :: value).drop (key.length + 1) = value := by
    rw [← List.drop_drop, List.drop_left, List.drop_one, List.tail_cons]
  rw [addParam, hfind]
  dsimp only
  rw [List.take_left, hdrop, urlDecode_of_encoded hkey, urlDecode_of_encoded hvalue]

/-- A piece is not empty and has no ampersand. -/
theorem EncodedPair.piece {p : Bytes × Bytes} {e : Bytes} (h : EncodedPair p e) :
    e ≠ [] ∧ (38 : UInt8) ∉ e := by
  obtain ⟨key, value, hkey, hvalue, rfl⟩ := h
  refine ⟨by simp, fun hmem ↦ ?_⟩
  rcases List.mem_append.1 hmem with hmem | hmem
  · exact not_mem_encoded hkey rfl (by decide) (by decide) hmem
  · rcases List.mem_cons.1 hmem with heq | hmem
    · cases heq
    · exact not_mem_encoded hvalue rfl (by decide) (by decide) hmem

/-- **The loop** adds the pairs one after the other. -/
theorem queryParamsLoop_of_encoded {pairs : List (Bytes × Bytes)} {pieces : List Bytes}
    (h : List.Forall₂ EncodedPair pairs pieces) : ∀ (fuel : ℕ) (out : SortedMap Bytes Bytes),
      ([38].intercalate pieces).length ≤ fuel →
      queryParamsLoop fuel ([38].intercalate pieces) out =
        pairs.foldl (fun out p ↦ out.insert p.1 p.2) out := by
  induction h with
  | nil =>
    intro fuel out _
    cases fuel with
    | zero => rfl
    | succ fuel => rfl
  | @cons p e pairs pieces hp hpairs ih =>
    intro fuel out hfuel
    obtain ⟨hne, hamp⟩ := hp.piece
    have hlen : 0 < e.length := List.length_pos_iff.2 hne
    cases hpairs with
    | nil =>
      rw [List.intercalate_singleton] at hfuel ⊢
      obtain ⟨fuel, rfl⟩ := Nat.exists_eq_add_of_le' (hlen.trans_le hfuel)
      have hnone : find e [38] 0 = none := by
        rw [find_zero]
        exact locate_singleton_eq_none_iff.2 hamp
      rw [queryParamsLoop, if_neg hne, hnone]
      exact addParam_of_encoded hp out
    | @cons p' e' pairs pieces hp' hpairs =>
      have hsplit : [38].intercalate (e :: e' :: pieces) =
          e ++ 38 :: [38].intercalate (e' :: pieces) := by
        rw [List.intercalate_cons_cons, List.append_assoc]
        rfl
      rw [hsplit, List.length_append, List.length_cons] at hfuel
      obtain ⟨fuel, rfl⟩ := Nat.exists_eq_add_of_le' (show 1 ≤ fuel by omega)
      have hfind : find (e ++ 38 :: [38].intercalate (e' :: pieces)) [38] 0 = some e.length := by
        rw [find_zero]
        exact locate_singleton_append hamp _
      have hdrop : (e ++ 38 :: [38].intercalate (e' :: pieces)).drop (e.length + 1) =
          [38].intercalate (e' :: pieces) := by
        rw [← List.drop_drop, List.drop_left, List.drop_one, List.tail_cons]
      rw [hsplit, queryParamsLoop, if_neg (by simp), hfind]
      dsimp only
      rw [List.take_left, hdrop, addParam_of_encoded hp, List.foldl_cons]
      exact ih fuel _ (by omega)

/-- **Decoding inverts encoding**: the parameters of an encoded query are the pairs that were
encoded. -/
theorem queryParams_of_encoded {pairs : List (Bytes × Bytes)} {req : HttpRequest}
    (hkeys : (pairs.map Prod.fst).Nodup) (hquery : EncodedQuery pairs req.query)
    (key value : Bytes) : req.queryParams.find? key = some value ↔ (key, value) ∈ pairs := by
  obtain ⟨pieces, hpieces, heq⟩ := hquery
  rw [HttpRequest.queryParams, heq, queryParamsLoop_of_encoded hpieces _ _ le_rfl,
    SortedMap.find?_foldl_insert_iff hkeys]
  simp

/-- An empty value, and an escape at the end of one. -/
theorem queryParams_of_encoded_sample :
    ({ query := str "a=&b+=%26" } : HttpRequest).queryParams.find? (str "b ") = some (str "&") ↔
      (str "b ", str "&") ∈ [(str "a", []), (str "b ", str "&")] := by
  have ha : Encoded (str "a") (str "a") := .cons (.plain rfl) .nil
  have hb : Encoded (str "b ") (str "b+") := .cons (.plain rfl) (.cons .plus .nil)
  have hamp : Encoded (str "&") (str "%26") :=
    .cons (.escape rfl (Or.inl (by decide)) (Or.inl (by decide))) .nil
  refine queryParams_of_encoded (by decide) ⟨[str "a=", str "b+=%26"], ?_, by decide⟩ _ _
  exact .cons ⟨_, _, ha, .nil, by decide⟩ (.cons ⟨_, _, hb, hamp, by decide⟩ .nil)

end Spp.Http
