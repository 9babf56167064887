import SearchPlusPlus.Http.HttpServer
import SearchPlusPlus.Json.Grammar

/-!
# Error bodies

`MakeError` of the server puts the message of an error between quotes as it is. The body is JSON
with the message under `error.reason` exactly if no byte of the message would have to be escaped
(`reports_iff`), and of the messages of the parser only that of an unsupported version has bytes of
the client in it (`errorBody_reports_iff`).
-/

namespace Spp.Json

/-- Bytes that stand for themselves in a string literal. -/
def Plain (w : Bytes) : Prop := ∀ c ∈ w, 32 ≤ c ∧ c ≠ 34 ∧ c ≠ 92

instance (w : Bytes) : Decidable (Plain w) :=
  List.decidableBAll (fun c ↦ 32 ≤ c ∧ c ≠ 34 ∧ c ≠ 92) w

/-! ### Strings in a text -/

/-- A string is somewhere in a value. -/
inductive HasString (s : Bytes) : JsonValue → Prop
  | string : HasString s (.string s)
  | elem {v : JsonValue} {a : List JsonValue} (hv : v ∈ a) (h : HasString s v) :
      HasString s (.array a)
  | member {k : Bytes} {v : JsonValue} {o : List (Bytes × JsonValue)} (hv : (k, v) ∈ o)
      (h : HasString s v) : HasString s (.object o)

theorem length_utf8_le (cp : ℕ) : (utf8 cp).length ≤ 3 := by
  rw [utf8]
  split_ifs
  · exact Nat.le_add_left 1 2
  · exact Nat.le_add_left 2 1
  · exact le_rfl

/-- Escapes take more bytes than they stand for. -/
theorem Chars.length_le {body out : Bytes} (h : Chars body out) : out.length ≤ body.length := by
  induction h with
  | nil => exact le_rfl
  | plain _ _ _ _ ih => exact Nat.succ_le_succ ih
  | escape _ _ ih => exact (Nat.succ_le_succ ih).trans (Nat.le_succ _)
  | @unicode a b c d cp t out _ _ ih =>
    have hutf8 := length_utf8_le cp
    simp only [List.length_append, List.length_cons]
    omega

/-- Only bytes that stand for themselves stand for as many. -/
theorem Chars.plain_of_length_le {body out : Bytes} (h : Chars body out)
    (hlen : body.length ≤ out.length) : Plain body := by
  induction h with
  | nil => exact fun c hc ↦ absurd hc List.not_mem_nil
  | plain hctl hquote hslash _ ih =>
    exact List.forall_mem_cons.2 ⟨⟨hctl, hquote, hslash⟩, ih (Nat.le_of_succ_le_succ hlen)⟩
  | escape _ h _ =>
    have := h.length_le
    simp only [List.length_cons] at hlen
    omega
  | @unicode a b c d cp t out _ h _ =>
    have hle := h.length_le
    have hutf8 := length_utf8_le cp
    simp only [List.length_append, List.length_cons] at hlen
    omega

theorem chars_of_plain {w : Bytes} (h : Plain w) : Chars w w := by
  induction w with
  | nil => exact .nil
  | cons c w ih =>
    obtain ⟨⟨hctl, hquote, hslash⟩, hw⟩ := List.forall_mem_cons.1 h
    exact .plain hctl hquote hslash (ih hw)

theorem mem_of_mem_foldl_insert {p : Bytes × JsonValue} {ms : List (Bytes × JsonValue)} :
    ∀ {o : JsonObject}, p ∈ ms.foldl (fun o p ↦ Assoc.insert p.1 p.2 o) o → p ∈ o ∨ p ∈ ms := by
  induction ms with
  | nil => exact fun h ↦ .inl h
  | cons q ms ih =>
    intro o h
    rcases ih h with h | h
    · rcases Assoc.mem_insert h with rfl | h
      · exact .inr List.mem_cons_self
      · exact .inl h
    · exact .inr (List.mem_cons_of_mem q h)

theorem exists_of_hasString_array {s : Bytes} {a : List JsonValue}
    (h : HasString s (.array a)) : ∃ v ∈ a, HasString s v := by
  cases h with
  | elem hv h => exact ⟨_, hv, h⟩

theorem exists_of_hasString_object {s : Bytes} {o : JsonObject} (h : HasString s (.object o)) :
    ∃ p ∈ o, HasString s p.2 := by
  cases h with
  | member hv h => exact ⟨_, hv, h⟩

section Length

variable [LibcDecimal] {s : Bytes}

mutual

/-- A string takes more bytes to write than it has. -/
theorem ValueText.length_le : ∀ {t : Bytes} {v : JsonValue}, ValueText t v → HasString s v →
    s.length + 2 ≤ t.length
  | _, _, .nullLit, h => by cases h
  | _, _, .trueLit, h => by cases h
  | _, _, .falseLit, h => by cases h
  | _, _, .number t, h => by
    rw [NumberToken.value] at h
    split_ifs at h <;> cases h
  | _, _, .string ht, h => by
    cases h
    obtain ⟨body, hbody, rfl⟩ := ht
    have := hbody.length_le
    simp only [List.length_cons, List.length_append, List.length_nil]
    omega
  | _, _, .emptyArray _, h => by
    obtain ⟨v, hv, -⟩ := exists_of_hasString_array h
    exact absurd hv List.not_mem_nil
  | _, _, .array ht, h => by
    obtain ⟨v, hv, h⟩ := exists_of_hasString_array h
    have := ht.length_le v hv h
    simp only [List.length_cons, List.length_append, List.length_nil]
    omega
  | _, _, .emptyObject _, h => by
    obtain ⟨p, hp, -⟩ := exists_of_hasString_object h
    exact absurd hp List.not_mem_nil
  | _, _, .object ht, h => by
    obtain ⟨p, hp, h⟩ := exists_of_hasString_object h
    have := ht.length_le p ((mem_of_mem_foldl_insert hp).resolve_left List.not_mem_nil) h
    simp only [List.length_cons, List.length_append, List.length_nil]
    omega

theorem ElemsText.length_le : ∀ {t : Bytes} {vs : List JsonValue}, ElemsText t vs →
    ∀ v ∈ vs, HasString s v → s.length + 2 ≤ t.length
  | _, _, .one _ ht _ => List.forall_mem_singleton.2 fun h ↦ by
    have := ht.length_le h
    simp only [List.length_append]
    omega
  | _, _, .more _ ht _ hs => List.forall_mem_cons.2
    ⟨fun h ↦ by
      have := ht.length_le h
      simp only [List.length_append, List.length_cons]
      omega, fun v hv h ↦ by
      have := hs.length_le v hv h
      simp only [List.length_append, List.length_cons]
      omega⟩

theorem MembersText.length_le : ∀ {t : Bytes} {ms : List (Bytes × JsonValue)}, MembersText t ms →
    ∀ p ∈ ms, HasString s p.2 → s.length + 2 ≤ t.length
  | _, _, .one _ _ _ _ ht _ => List.forall_mem_singleton.2 fun h ↦ by
    have := ht.length_le h
    simp only [List.length_append, List.length_cons]
    omega
  | _, _, .more _ _ _ _ ht _ hs => List.forall_mem_cons.2
    ⟨fun h ↦ by
      have := ht.length_le h
      simp only [List.length_append, List.length_cons]
      omega, fun p hp h ↦ by
      have := hs.length_le p hp h
      simp only [List.length_append, List.length_cons]
      omega⟩

end

end Length

/-! ### One step of the parser -/

section Step

variable [LibcDecimal] {n fuel : ℕ}

/-- The rest of an object after some members: more of them, or its end. -/
def Closes (n fuel : ℕ) (obj : JsonObject) (s : Bytes) (v : JsonValue) (r : Bytes) : Prop :=
  (∃ rest, skipWs s = 44 :: rest ∧ parseMembers n fuel obj rest = .ok (v, r)) ∨
    skipWs s = 125 :: r ∧ v = .object obj

/-- What closes an object is not empty, and a string in it is shorter. -/
theorem Closes.bound {obj : JsonObject} {s r : Bytes} {v : JsonValue}
    (h : Closes n fuel obj s v r) : r.length < s.length ∧
      ∃ o, v = .object o ∧ ∀ p ∈ o, p ∈ obj ∨ ∀ x, HasString x p.2 → x.length + 4 ≤ s.length := by
  have hskip : (skipWs s).length ≤ s.length := (List.dropWhile_sublist _).length_le
  rcases h with ⟨rest, hcomma, hmembers⟩ | ⟨hend, rfl⟩
  · obtain ⟨t, ms, ht, rfl, rfl⟩ := (sound n fuel).members hmembers
    rw [hcomma] at hskip
    simp only [List.length_cons, List.length_append] at hskip
    refine ⟨by omega, _, rfl, fun p hp ↦ (mem_of_mem_foldl_insert hp).imp_right fun hp x hx ↦ ?_⟩
    have := ht.length_le p hp hx
    omega
  · rw [hend, List.length_cons] at hskip
    exact ⟨hskip, obj, rfl, fun p hp ↦ .inl hp⟩

theorem closes_comma {obj : JsonObject} {s r : Bytes} {v : JsonValue} :
    Closes n fuel obj (44 :: s) v r ↔ parseMembers n fuel obj s = .ok (v, r) := by
  have hskip : skipWs (44 :: s) = 44 :: s := rfl
  rw [Closes, hskip]
  simp

/-- A member, and what comes behind it. -/
theorem parseMembers_eq_ok_iff {obj : JsonObject} {key s r : Bytes} {v : JsonValue}
    (hkey : Plain key) :
    parseMembers n (fuel + 1) obj (34 :: (key ++ 34 :: 58 :: s)) = .ok (v, r) ↔
      ∃ val s₁, parseValue n fuel (skipWs s) = .ok (val, s₁) ∧
        Closes n fuel (Assoc.insert key val obj) s₁ v r := by
  have hstring : parseStringInto n (skipWs (34 :: (key ++ 34 :: 58 :: s))) =
      .ok (key, 58 :: s) := by
    have := parseStringBody_complete n (chars_of_plain hkey) (58 :: s) []
    rw [List.nil_append] at this
    exact this
  have hcolon : skipWs (58 :: s) = 58 :: s := rfl
  rw [parseMembers, hstring]
  simp only [bind, Except.bind, hcolon]
  cases hval : parseValue n fuel (skipWs s) with
  | error e => simp
  | ok p =>
    obtain ⟨val, s₁⟩ := p
    simp only [Except.ok.injEq, Prod.mk.injEq]
    constructor
    · intro h
      refine ⟨val, s₁, ⟨rfl, rfl⟩, ?_⟩
      split at h
      · exact .inl ⟨_, ‹_›, h⟩
      · cases h
        exact .inr ⟨‹_›, rfl⟩
      · cases h
    · rintro ⟨_, _, ⟨rfl, rfl⟩, ⟨rest, hskip, h⟩ | ⟨hskip, rfl⟩⟩
      · simp only [hskip]
        exact h
      · simp only [hskip]

theorem parseValue_string_eq_ok_iff {s r : Bytes} {v : JsonValue} :
    parseValue n (fuel + 1) (34 :: s) = .ok (v, r) ↔
      ∃ out, parseStringBody n [] s = .ok (out, r) ∧ v = .string out := by
  have hstep : parseValue n (fuel + 1) (34 :: s) =
      (parseStringBody n [] s).bind fun p ↦ .ok (.string p.1, p.2) := by
    rw [parseValue]
    rfl
  rw [hstep]
  cases parseStringBody n [] s with
  | error e => simp [Except.bind]
  | ok p =>
    obtain ⟨out, rest⟩ := p
    simp only [Except.bind, Except.ok.injEq, Prod.mk.injEq]
    constructor
    · rintro ⟨rfl, rfl⟩
      exact ⟨out, ⟨rfl, rfl⟩, rfl⟩
    · rintro ⟨_, ⟨rfl, rfl⟩, rfl⟩
      exact ⟨rfl, rfl⟩

theorem parseValue_object_eq {s : Bytes} :
    parseValue n (fuel + 1) (123 :: 34 :: s) = parseMembers n fuel [] (34 :: s) := by
  rw [parseValue]
  rfl

theorem parse_eq_ok_iff {c : UInt8} {s : Bytes} {v : JsonValue} (hc : isWs c = false) :
    parse (c :: s) = .ok v ↔
      ∃ rest, parseValue (c :: s).length (parseFuel (c :: s).length) (c :: s) = .ok (v, rest) ∧
        skipWs rest = [] := by
  have hskip : skipWs (c :: s) = c :: s :=
    List.dropWhile_cons_of_neg (by rw [hc]; exact Bool.false_ne_true)
  rw [parse, hskip]
  dsimp only
  cases parseValue (c :: s).length (parseFuel (c :: s).length) (c :: s) with
  | error e => simp [bind, Except.bind]
  | ok p =>
    obtain ⟨v', rest⟩ := p
    simp only [bind, Except.bind, Except.ok.injEq, Prod.mk.injEq]
    constructor
    · intro h
      split at h
      · cases h
        exact ⟨rest, ⟨rfl, rfl⟩, ‹_›⟩
      · cases h
    · rintro ⟨_, ⟨rfl, rfl⟩, hnil⟩
      simp only [hnil]

end Step

end Spp.Json

namespace Spp.Http

open Json Substring

/-- `MakeError`. -/
def makeError (status : ℕ) (reason : Bytes) : HttpResponse where
  status := status
  body := str "\x7b\"error\":\x7b\"type\":\"bad_request\",\"reason\":\"" ++ reason ++
    str "\"\x7d\x7d"

theorem hasString_of_findString {v : JsonValue} {key x : Bytes} (h : v.findString key = some x) :
    HasString x v := by
  rw [JsonValue.findString] at h
  split at h
  · rename_i s hfind
    obtain rfl := Option.some.inj h
    cases v with
    | object o => exact .member (Assoc.mem_of_find? hfind) .string
    | _ => cases hfind
  · cases h

section Reports

variable [LibcDecimal]

/-- A body is JSON with a message under `error.reason`. -/
def Reports (body message : Bytes) : Prop :=
  ∃ v inner, parse body = .ok v ∧ v.find (str "error") = some inner ∧
    inner.findString (str "reason") = some message

/-- The members in front of the reason, with the reason read. -/
def reasonMembers (out : Bytes) : JsonObject :=
  Assoc.insert (str "reason") (.string out)
    (Assoc.insert (str "type") (.string (str "bad_request")) [])

/-- What the parser makes of the body of an error. -/
theorem exists_parse_makeError_iff (status : ℕ) (message : Bytes) :
    ∃ n k, ∀ v, parse (makeError status message).body = .ok v ↔
      ∃ out r₁ inner r₂ r₃, parseStringBody n [] (message ++ [34, 125, 125]) = .ok (out, r₁) ∧
        Closes n (k + 1) (reasonMembers out) r₁ inner r₂ ∧
        Closes n (k + 4) [(str "error", inner)] r₂ v r₃ ∧ skipWs r₃ = [] := by
  have hbody : (makeError status message).body =
      123 :: 34 :: (str "error" ++ 34 :: 58 :: 123 :: 34 :: (str "type" ++ 34 :: 58 :: 34 ::
        (str "bad_request" ++ 34 :: 44 :: 34 :: (str "reason" ++ 34 :: 58 :: 34 ::
          (message ++ [34, 125, 125]))))) := by
    simp only [makeError, List.append_assoc]
    rfl
  have hplain : Plain (str "error") ∧ Plain (str "type") ∧ Plain (str "bad_request") ∧
      Plain (str "reason") := by decide
  obtain ⟨herror, htype, hrequest, hreason⟩ := hplain
  have hws : ∀ s : Bytes, skipWs (123 :: s) = 123 :: s ∧ skipWs (34 :: s) = 34 :: s ∧
      skipWs (44 :: s) = 44 :: s := fun s ↦ ⟨rfl, rfl, rfl⟩
  rw [hbody]
  generalize hn : List.length (123 :: 34 :: (str "error" ++ _)) = n
  obtain ⟨k, hk⟩ : ∃ k, parseFuel n = k + 6 := by
    refine Nat.exists_eq_add_of_le' ?_
    rw [parseFuel, ← hn]
    simp only [List.length_cons]
    omega
  refine ⟨n, k, fun v ↦ ?_⟩
  rw [parse_eq_ok_iff rfl, hn, hk, parseValue_object_eq]
  simp only [parseMembers_eq_ok_iff herror, (hws _).1, (hws _).2.1, parseValue_object_eq,
    parseMembers_eq_ok_iff htype, parseValue_string_eq_ok_iff]
  have hread : ∀ rest, parseStringBody n [] (str "bad_request" ++ 34 :: rest) =
      .ok (str "bad_request", rest) := fun rest ↦
    parseStringBody_complete n (chars_of_plain hrequest) rest []
  simp only [hread, Except.ok.injEq, Prod.mk.injEq, and_assoc, exists_and_left, exists_eq_left',
    closes_comma, parseMembers_eq_ok_iff hreason, (hws _).2.1, parseValue_string_eq_ok_iff]
  constructor
  · rintro ⟨r₃, ⟨inner, r₂, ⟨_, rfl, _, r₁, ⟨out, hout, rfl⟩, hinner⟩, houter⟩, hend⟩
    exact ⟨out, r₁, hout, inner, r₂, hinner, r₃, houter, hend⟩
  · rintro ⟨out, r₁, hout, inner, r₂, hinner, r₃, houter, hend⟩
    exact ⟨r₃, ⟨inner, r₂, ⟨_, rfl, _, r₁, ⟨out, hout, rfl⟩, hinner⟩, houter⟩, hend⟩

/-- **The body reports the message** exactly if it has nothing to escape. -/
theorem reports_iff (status : ℕ) (message : Bytes) :
    Reports (makeError status message).body message ↔ Plain message := by
  obtain ⟨n, k, hparse⟩ := exists_parse_makeError_iff status message
  constructor
  · rintro ⟨v, found, hv, herror, hreason⟩
    obtain ⟨out, r₁, inner, r₂, r₃, hout, hinner, houter, -⟩ := (hparse v).1 hv
    obtain ⟨body, read, hchars, hsplit, rfl⟩ := parseStringBody_sound hout
    have hlen := congrArg List.length hsplit
    simp only [List.length_append, List.length_cons, List.length_nil] at hlen
    obtain ⟨hlt₁, o₁, rfl, ho₁⟩ := hinner.bound
    obtain ⟨hlt₂, o₂, rfl, ho₂⟩ := houter.bound
    -- A later `error` or `reason` has no room for a string as long as the message.
    have hfound : found = .object o₁ := by
      rcases ho₂ _ (Assoc.mem_of_find? herror) with hmem | hshort
      · exact (Prod.mk.inj (List.mem_singleton.1 hmem)).2
      · have := hshort _ (hasString_of_findString hreason)
        omega
    subst hfound
    obtain ⟨w, hw, hstring⟩ : ∃ w, (str "reason", w) ∈ o₁ ∧ w = .string message := by
      rw [JsonValue.findString] at hreason
      split at hreason
      · rename_i x hfind
        obtain rfl := Option.some.inj hreason
        exact ⟨_, Assoc.mem_of_find? hfind, rfl⟩
      · cases hreason
    subst hstring
    have hread : message = out := by
      rcases ho₁ _ hw with hmem | hshort
      · rcases Assoc.mem_insert hmem with heq | hmem
        · exact JsonValue.string.inj (Prod.mk.inj heq).2
        · rcases Assoc.mem_insert hmem with heq | hmem
          · exact absurd (Prod.mk.inj heq).1 (by decide)
          · exact absurd hmem List.not_mem_nil
      · have := hshort message .string
        omega
    subst hread
    have hle := hchars.length_le
    have hbody : body = message := by
      have := congrArg (List.take message.length) hsplit
      rw [List.take_left, List.take_append_of_le_length hle] at this
      rw [this, List.take_of_length_le (by omega)]
    exact hbody ▸ hchars.plain_of_length_le (by omega)
  · intro hplain
    have hout : parseStringBody n [] (message ++ [34, 125, 125]) = .ok (message, [125, 125]) :=
      parseStringBody_complete n (chars_of_plain hplain) [125, 125] []
    refine ⟨.object [(str "error", .object (reasonMembers message))],
      .object (reasonMembers message), (hparse _).2
        ⟨message, _, _, [125], [], hout, .inr ⟨rfl, rfl⟩, .inr ⟨rfl, rfl⟩, rfl⟩, rfl, ?_⟩
    rw [JsonValue.findString, JsonValue.find, reasonMembers, Assoc.find?_insert_self]

/-! ### The messages of the parser -/

/-- The version in the request line of a head that has one, when the line is not too long. -/
def HasVersion (limits : ParseLimits) (buf version : Bytes) : Prop :=
  ∃ e method target, locate (crlf ++ crlf) buf = some e ∧
    (requestLine (buf.take e)).length ≤ limits.maxRequestLine ∧
      splitRequestLine (requestLine (buf.take e)) = some (method, target, version)

omit [LibcDecimal] in
theorem bodyLength_message {limits : ParseLimits} {headers : SortedMap Bytes Bytes} {e : HttpError}
    (h : bodyLength limits headers = .error e) : Plain e.message := by
  rw [bodyLength] at h
  cases hvalue : headers.find? (str "content-length") with
  | none =>
    rw [hvalue] at h
    change (if _ then _ else _) = _ at h
    split_ifs at h
    obtain rfl := Except.error.inj h
    decide
  | some value =>
    rw [hvalue] at h
    cases hn : fromChars value with
    | none =>
      simp only [hn] at h
      obtain rfl := Except.error.inj h
      decide
    | some n =>
      simp only [hn] at h
      split_ifs at h
      · obtain rfl := Except.error.inj h
        decide
      · obtain rfl := Except.error.inj h
        decide
      · obtain rfl := Except.error.inj h
        decide
      · cases h

omit [LibcDecimal] in
/-- A message has something to escape only if the version has. -/
theorem plain_message_iff {limits : ParseLimits} {buf : Bytes} {e : HttpError}
    (h : tryParseRequest limits buf = .error e) :
    Plain e.message ↔ ∀ version, HasVersion limits buf version → Plain version := by
  -- Where there is no version to read, the message is one of the source's own.
  have hown : Plain e.message → (∀ version, ¬HasVersion limits buf version) →
      (Plain e.message ↔ ∀ version, HasVersion limits buf version → Plain version) :=
    fun hplain hnone ↦ ⟨fun _ version hv ↦ absurd hv (hnone version), fun _ ↦ hplain⟩
  cases hend : locate (crlf ++ crlf) buf with
  | none =>
    rw [tryParseRequest, find_zero, hend] at h
    dsimp only at h
    split_ifs at h
    obtain rfl := ParseResult.error.inj h
    refine hown (by decide) ?_
    rintro version ⟨i, method, target, hi, -⟩
    cases hend.symm.trans hi
  | some i =>
    have hhead : parseHead limits (buf.take i) = .error e := by
      rw [tryParseRequest_eq limits hend] at h
      cases hhead : parseHead limits (buf.take i) with
      | error err =>
        rw [hhead] at h
        exact congrArg _ (ParseResult.error.inj h)
      | ok out =>
        rw [hhead] at h
        dsimp only at h
        split_ifs at h
    have hversion : ∀ {version}, HasVersion limits buf version →
        (requestLine (buf.take i)).length ≤ limits.maxRequestLine ∧ ∃ method target,
          splitRequestLine (requestLine (buf.take i)) = some (method, target, version) := by
      rintro version ⟨i', method, target, hi, hshort, hsplit⟩
      obtain rfl := Option.some.inj (hend.symm.trans hi)
      exact ⟨hshort, method, target, hsplit⟩
    rw [parseHead] at hhead
    split_ifs at hhead with hlong
    · obtain rfl := Except.error.inj hhead
      exact hown (by decide) fun version hv ↦ absurd (hversion hv).1 (not_le.2 hlong)
    rw [readRequestLine] at hhead
    cases hsplit : splitRequestLine (requestLine (buf.take i)) with
    | none =>
      rw [hsplit] at hhead
      obtain rfl := Except.error.inj hhead
      refine hown (by decide) fun version hv ↦ ?_
      obtain ⟨-, method, target, hsome⟩ := hversion hv
      cases hsplit.symm.trans hsome
    | some parts =>
      obtain ⟨method, target, version⟩ := parts
      have hiff : (∀ version, HasVersion limits buf version → Plain version) ↔ Plain version := by
        refine ⟨fun hall ↦ hall version ⟨i, method, target, hend, not_lt.1 hlong, hsplit⟩, ?_⟩
        intro hplain version' hv
        obtain ⟨-, method', target', hsome⟩ := hversion hv
        cases hsplit.symm.trans hsome
        exact hplain
      rw [hiff]
      rw [hsplit] at hhead
      dsimp only at hhead
      split_ifs at hhead with hsupported
      · have hplain : Plain version := by
          rw [isSupported, Bool.or_eq_true, decide_eq_true_iff, decide_eq_true_iff] at hsupported
          rcases hsupported with rfl | rfl <;> decide
        refine iff_of_true ?_ hplain
        change ((headerLines (buf.take i)).foldlM readHeader .empty >>= _) = _ at hhead
        rw [foldlM_readHeader] at hhead
        split_ifs at hhead
        · obtain rfl := Except.error.inj hhead
          decide
        · change (bodyLength limits (headersOf (headerLines (buf.take i))) >>= _) = _ at hhead
          cases hbody : bodyLength limits (headersOf (headerLines (buf.take i))) with
          | ok n =>
            rw [hbody] at hhead
            cases hhead
          | error e' =>
            rw [hbody] at hhead
            obtain rfl := Except.error.inj hhead
            exact bodyLength_message hbody
      · obtain rfl := Except.error.inj hhead
        have hstarts : Plain (str "unsupported HTTP version: ") := by decide
        exact ⟨fun h c hc ↦ h c (List.mem_append_right _ hc), fun h ↦
          List.forall_mem_append.2 ⟨hstarts, h⟩⟩

/-- **The body of an error reports it** exactly if the version of the request, where the request
line is read as far, has nothing to escape. -/
theorem errorBody_reports_iff {limits : ParseLimits} {buf : Bytes} {e : HttpError}
    (h : tryParseRequest limits buf = .error e) :
    Reports (makeError e.status e.message).body e.message ↔
      ∀ version, HasVersion limits buf version → Plain version := by
  rw [reports_iff, plain_message_iff h]

end Reports

theorem errorBody_reports_iff_sample :
    @Reports .integral (makeError 505 (str "unsupported HTTP version: HTTP/2")).body
        (str "unsupported HTTP version: HTTP/2") ↔
      ∀ version, HasVersion {} (str "GET / HTTP/2\r\n\r\n") version → Plain version := by
  have h : tryParseRequest {} (str "GET / HTTP/2\r\n\r\n") =
      .error ⟨505, str "unsupported HTTP version: HTTP/2"⟩ := rfl
  exact @errorBody_reports_iff .integral {} _ ⟨505, str "unsupported HTTP version: HTTP/2"⟩ h

/-- A quote in the version ends the string that the message is put in. -/
theorem not_errorBody_reports : ¬∀ (limits : ParseLimits) (buf : Bytes) (e : HttpError),
    tryParseRequest limits buf = .error e →
      @Reports .integral (makeError e.status e.message).body e.message := by
  intro h
  have hparse : tryParseRequest {} (str "GET / \"\r\n\r\n") =
      .error ⟨505, str "unsupported HTTP version: \""⟩ := rfl
  have hplain := (@reports_iff .integral 505 (str "unsupported HTTP version: \"")).1
    (h {} _ ⟨505, str "unsupported HTTP version: \""⟩ hparse)
  exact absurd hplain (by decide)

end Spp.Http
