import SearchPlusPlus.Http.HttpServer
import SearchPlusPlus.Json.RoundTrip

/-!
# Request framing

A request written to the wire, with whatever may follow it there, is parsed to itself
(`tryParseRequest_serialise`): its lines, the end of its head and the length of its body are found
where they were put, even when the body or what follows has line ends of its own.
-/

namespace Spp.Http

open Substring

/-! ### Messages -/

/-- A header as it is written. -/
def headerLine (header : Bytes × Bytes) : Bytes := header.1 ++ str ": " ++ header.2

/-- The decimal numerals of a number. -/
def IsNumeral (s : Bytes) (n : ℕ) : Prop :=
  s ≠ [] ∧ (∀ c ∈ s, Json.isDigit c = true) ∧ Json.digitsValue s = n

/-- A request that can be written to the wire under some limits. -/
structure Message (limits : ParseLimits) where
  method : Bytes
  target : Bytes
  version : Bytes
  headers : List (Bytes × Bytes)
  body : Bytes
  method_plain : ∀ c ∈ method, c ≠ 32 ∧ c ≠ 13 ∧ c ≠ 10
  target_plain : ∀ c ∈ target, c ≠ 32 ∧ c ≠ 13 ∧ c ≠ 10
  supported : version = str "HTTP/1.0" ∨ version = str "HTTP/1.1"
  names_plain : ∀ h ∈ headers, ∀ c ∈ h.1, c ≠ 58 ∧ c ≠ 13 ∧ c ≠ 10
  values_plain : ∀ h ∈ headers, ∀ c ∈ h.2, c ≠ 13 ∧ c ≠ 10
  values_trimmed : ∀ h ∈ headers, ∀ c, h.2.head? = some c ∨ h.2.getLast? = some c →
    isSpaceTab c = false
  names_nodup : (headers.map fun h ↦ toLower h.1).Nodup
  no_transfer_encoding : ∀ h ∈ headers, toLower h.1 ≠ str "transfer-encoding"
  announced : ∀ h ∈ headers, toLower h.1 = str "content-length" → IsNumeral h.2 body.length
  unannounced : (∀ h ∈ headers, toLower h.1 ≠ str "content-length") → body = []
  line_le : method.length + 1 + target.length + 1 + version.length ≤ limits.maxRequestLine
  body_le : body.length ≤ limits.maxBody

namespace Message

variable {limits : ParseLimits} (m : Message limits)

/-- The request line. -/
def requestLine : Bytes := m.method ++ str " " ++ m.target ++ str " " ++ m.version

/-- The bytes of a request. -/
def serialise : Bytes :=
  m.requestLine ++ crlf ++ m.headers.flatMap (fun h ↦ headerLine h ++ crlf) ++ crlf ++ m.body

/-- The request without its body, up to the blank line. -/
def head : Bytes := joinLines m.requestLine (m.headers.map headerLine)

theorem serialise_eq : m.serialise = m.head ++ (crlf ++ crlf ++ m.body) := by
  have hshift : ∀ hs : List (Bytes × Bytes), crlf ++ hs.flatMap (fun h ↦ headerLine h ++ crlf) =
      (hs.map headerLine).flatMap (crlf ++ ·) ++ crlf := by
    intro hs
    induction hs with
    | nil => rfl
    | cons h hs ih =>
      rw [List.flatMap_cons, List.append_assoc, ih, List.map_cons, List.flatMap_cons]
      simp only [List.append_assoc]
  rw [serialise, head, joinLines, List.append_assoc m.requestLine, hshift]
  simp only [List.append_assoc]

/-! ### Its lines -/

theorem cr_notMem_version : 13 ∉ m.version := by
  rcases m.supported with h | h <;> rw [h] <;> decide

theorem cr_notMem_requestLine : 13 ∉ m.requestLine := by
  simp only [requestLine, List.mem_append, not_or]
  exact ⟨⟨⟨⟨fun h ↦ (m.method_plain _ h).2.1 rfl, by decide⟩,
    fun h ↦ (m.target_plain _ h).2.1 rfl⟩, by decide⟩, m.cr_notMem_version⟩

theorem headerLine_plain {h : Bytes × Bytes} (hh : h ∈ m.headers) :
    headerLine h ≠ [] ∧ 13 ∉ headerLine h := by
  simp only [headerLine, List.mem_append, not_or]
  refine ⟨fun hnil ↦ ?_, ⟨fun hc ↦ (m.names_plain h hh _ hc).2.1 rfl, by decide⟩,
    fun hc ↦ (m.values_plain h hh _ hc).1 rfl⟩
  obtain ⟨hnil, -⟩ := List.append_eq_nil_iff.1 hnil
  exact absurd (List.append_eq_nil_iff.1 hnil).2 (by decide)

theorem lines_head : lines m.head = m.requestLine :: m.headers.map headerLine :=
  lines_joinLines m.cr_notMem_requestLine
    (List.forall_mem_map.2 fun _ hh ↦ (m.headerLine_plain hh).2)

theorem locate_head (rest : Bytes) :
    locate (crlf ++ crlf) (m.head ++ (crlf ++ crlf ++ rest)) = some m.head.length :=
  locate_blank_line rest m.cr_notMem_requestLine
    (List.forall_mem_map.2 fun _ hh ↦ m.headerLine_plain hh)

/-- The first two spaces of the request line are those it was written with. -/
theorem splitRequestLine_eq :
    splitRequestLine m.requestLine = some (m.method, m.target, m.version) := by
  have hmethod : 32 ∉ m.method := fun h ↦ (m.method_plain _ h).1 rfl
  have htarget : 32 ∉ m.target := fun h ↦ (m.target_plain _ h).1 rfl
  have hline : m.requestLine = m.method ++ 32 :: (m.target ++ 32 :: m.version) := by
    rw [requestLine]
    simp only [List.append_assoc]
    rfl
  have hfirst : find m.requestLine (str " ") 0 = some m.method.length := by
    rw [find_zero, hline]
    exact locate_singleton_append hmethod _
  have hdrop : m.requestLine.drop (m.method.length + 1) = m.target ++ 32 :: m.version := by
    rw [hline, ← List.drop_drop, List.drop_left]
    rfl
  have hsecond : find m.requestLine (str " ") (m.method.length + 1) =
      some (m.target.length + (m.method.length + 1)) := by
    rw [find, hdrop]
    exact congrArg (Option.map _) (locate_singleton_append htarget _)
  have hrest : m.requestLine.drop (m.target.length + (m.method.length + 1) + 1) = m.version := by
    have hsum : m.target.length + (m.method.length + 1) + 1 =
        m.method.length + 1 + (m.target.length + 1) := by omega
    rw [hsum, ← List.drop_drop, hdrop, ← List.drop_drop, List.drop_left]
    rfl
  have hlen : m.target.length + (m.method.length + 1) - m.method.length - 1 = m.target.length := by
    omega
  rw [splitRequestLine, hfirst]
  dsimp only
  rw [hsecond]
  dsimp only
  rw [hrest, hdrop, hlen, List.take_left, hline, List.take_left]

/-- A header line is read as the header it was written for. -/
theorem headerOf_headerLine {h : Bytes × Bytes} (hh : h ∈ m.headers) :
    headerOf (headerLine h) = some (toLower h.1, h.2) := by
  have hname : 58 ∉ h.1 := fun hc ↦ (m.names_plain h hh _ hc).1 rfl
  have hline : headerLine h = h.1 ++ 58 :: 32 :: h.2 := by
    rw [headerLine, List.append_assoc]
    rfl
  have hcolon : find (headerLine h) (str ":") 0 = some h.1.length := by
    rw [find_zero, hline]
    exact locate_singleton_append hname _
  have hdrop : (headerLine h).drop (h.1.length + 1) = 32 :: h.2 := by
    rw [hline, ← List.drop_drop, List.drop_left]
    rfl
  have hltrim : lTrimAscii (32 :: h.2) = h.2 := by
    rw [lTrimAscii, List.dropWhile_cons_of_pos (by decide)]
    cases hvalue : h.2 with
    | nil => rfl
    | cons c s =>
      have hfirst := m.values_trimmed h hh c (.inl (by rw [hvalue]; rfl))
      rw [List.dropWhile_cons_of_neg (by rw [hfirst]; exact Bool.false_ne_true)]
  have hrtrim : rTrimAscii h.2 = h.2 := by
    refine List.rdropWhile_eq_self_iff.2 fun hne ↦ ?_
    rw [m.values_trimmed h hh (h.2.getLast hne) (.inr (List.getLast?_eq_some_getLast hne))]
    exact Bool.false_ne_true
  rw [headerOf, hcolon, Option.map_some, hdrop, hltrim, hrtrim, hline, List.take_left]

theorem filterMap_headerOf :
    (m.headers.map headerLine).filterMap headerOf = m.headers.map fun h ↦ (toLower h.1, h.2) := by
  rw [List.filterMap_map, ← List.filterMap_eq_map]
  exact List.filterMap_congr fun h hh ↦ m.headerOf_headerLine hh

/-- The headers are found under their names in lower case. -/
theorem find?_headersOf_iff (name value : Bytes) :
    (headersOf (m.headers.map headerLine)).find? name = some value ↔
      ∃ h ∈ m.headers, toLower h.1 = name ∧ h.2 = value := by
  have hnodup : ((m.headers.map fun h ↦ (toLower h.1, h.2)).map Prod.fst).Nodup := by
    rw [List.map_map]
    exact m.names_nodup
  rw [headersOf, filterMap_headerOf, SortedMap.find?_foldl_insert_iff hnodup]
  simp [eq_comm]

theorem bodyLength_headersOf :
    bodyLength limits (headersOf (m.headers.map headerLine)) = .ok m.body.length := by
  have hnone : (headersOf (m.headers.map headerLine)).find? (str "transfer-encoding") = none := by
    refine Option.eq_none_iff_forall_ne_some.2 fun value hvalue ↦ ?_
    obtain ⟨h, hh, hname, -⟩ := (m.find?_headersOf_iff _ _).1 hvalue
    exact m.no_transfer_encoding h hh hname
  have hbody := m.body_le
  rw [bodyLength, hnone]
  cases hlength : (headersOf (m.headers.map headerLine)).find? (str "content-length") with
  | none =>
    have hempty : m.body = [] := m.unannounced fun h hh hname ↦ by
      have := (m.find?_headersOf_iff (str "content-length") h.2).2 ⟨h, hh, hname, rfl⟩
      rw [hlength] at this
      cases this
    rw [hempty]
    rfl
  | some value =>
    obtain ⟨h, hh, hname, rfl⟩ := (m.find?_headersOf_iff _ _).1 hlength
    obtain ⟨hne, hdigits, hvalue⟩ := m.announced h hh hname
    have htake : h.2.takeWhile Json.isDigit = h.2 := List.takeWhile_eq_self_iff.2 hdigits
    have hsmall := limits.body_lt
    have hread : fromChars h.2 = some m.body.length := by
      rw [fromChars, htake, if_neg hne, hvalue, if_neg (by omega), if_pos rfl]
    simp only [hread]
    rw [if_neg (not_lt.2 hbody)]
    rfl

/-! ### The round trip -/

/-- The path and the query are what the first question mark separates. -/
theorem splitTarget_eq (target : Bytes) : splitTarget target =
    (target.takeWhile (· ≠ 63), (target.dropWhile (· ≠ 63)).drop 1) := by
  have hbyte : str "?" = [63] := by decide
  rw [splitTarget, find_zero, hbyte]
  cases hmark : locate [63] target with
  | none =>
    have hall : ∀ c ∈ target, decide (c ≠ 63) = true := fun c hc ↦
      decide_eq_true fun heq ↦ locate_singleton_eq_none_iff.1 hmark (heq ▸ hc)
    rw [List.takeWhile_eq_self_iff.2 hall, List.dropWhile_eq_nil_iff.2 hall]
    rfl
  | some i =>
    obtain ⟨hnot, hsplit⟩ := exists_append_of_locate_singleton hmark
    have hall : ∀ c ∈ target.take i, decide (c ≠ 63) = true := fun c hc ↦
      decide_eq_true fun heq ↦ hnot (heq ▸ hc)
    have hwhile : target.takeWhile (· ≠ 63) = target.take i ∧
        target.dropWhile (· ≠ 63) = 63 :: target.drop (i + 1) := by
      nth_rewrite 1 3 [hsplit]
      rw [List.takeWhile_append_of_pos hall, List.dropWhile_append_of_pos hall]
      simp
    rw [hwhile.1, hwhile.2]
    rfl

/-- The request that is parsed. -/
def request : HttpRequest where
  method := m.method
  target := m.target
  path := m.target.takeWhile (· ≠ 63)
  query := (m.target.dropWhile (· ≠ 63)).drop 1
  version := m.version
  headers := headersOf (m.headers.map headerLine)
  body := m.body

theorem parseHead_head :
    parseHead limits m.head = .ok ({ m.request with body := [] }, m.body.length) := by
  have hfirst : Http.requestLine m.head = m.requestLine := by
    rw [Http.requestLine, m.lines_head]
    rfl
  have hrest : headerLines m.head = m.headers.map headerLine := by
    rw [headerLines, m.lines_head]
    rfl
  have hlen : ¬limits.maxRequestLine < m.requestLine.length := by
    have hle := m.line_le
    have hline : m.requestLine.length =
        m.method.length + 1 + m.target.length + 1 + m.version.length := by
      simp only [requestLine, List.length_append]
      rfl
    omega
  have hsupported : isSupported m.version = true := by
    rcases m.supported with h | h <;> rw [h] <;> decide
  have hcolons : ¬∃ l ∈ m.headers.map headerLine, l ≠ [] ∧ headerOf l = none := by
    rintro ⟨l, hl, -, hnone⟩
    obtain ⟨h, hh, rfl⟩ := List.mem_map.1 hl
    rw [m.headerOf_headerLine hh] at hnone
    cases hnone
  rw [parseHead, hfirst, hrest, if_neg hlen, readRequestLine, m.splitRequestLine_eq]
  dsimp only
  rw [if_pos hsupported, splitTarget_eq]
  show ((m.headers.map headerLine).foldlM readHeader .empty >>= _) = _
  rw [foldlM_readHeader, if_neg hcolons]
  show (bodyLength limits (headersOf (m.headers.map headerLine)) >>= _) = _
  rw [m.bodyLength_headersOf]
  rfl

/-- **A request that was written is parsed to itself**, whatever follows it. -/
theorem tryParseRequest_serialise (trailing : Bytes) :
    ∃ req, tryParseRequest limits (m.serialise ++ trailing) =
        .complete m.serialise.length req ∧
      req.method = m.method ∧ req.target = m.target ∧ req.version = m.version ∧
      req.path = m.target.takeWhile (· ≠ 63) ∧
      req.query = (m.target.dropWhile (· ≠ 63)).drop 1 ∧ req.body = m.body ∧
      ∀ name value, req.headers.find? name = some value ↔
        ∃ h ∈ m.headers, toLower h.1 = name ∧ h.2 = value := by
  refine ⟨m.request, ?_, rfl, rfl, rfl, rfl, rfl, rfl, m.find?_headersOf_iff⟩
  have hbytes : m.serialise ++ trailing = m.head ++ (crlf ++ crlf ++ (m.body ++ trailing)) := by
    rw [m.serialise_eq]
    simp only [List.append_assoc]
  have hlength : m.serialise.length = m.head.length + 4 + m.body.length := by
    rw [m.serialise_eq, List.length_append, List.length_append]
    show _ + (4 + _) = _
    omega
  have hdrop : (m.head ++ (crlf ++ crlf ++ (m.body ++ trailing))).drop (m.head.length + 4) =
      m.body ++ trailing := by
    rw [← List.drop_drop, List.drop_left]
    rfl
  have henough : ¬(m.head ++ (crlf ++ crlf ++ (m.body ++ trailing))).length - (m.head.length + 4) <
      m.body.length := by
    simp only [List.length_append]
    show ¬_ + (4 + _) - _ < _
    omega
  rw [hbytes, tryParseRequest_eq limits (m.locate_head _), List.take_left, m.parseHead_head, hdrop,
    hlength]
  dsimp only
  rw [if_neg henough, List.take_left]
  rfl

end Message

theorem forall_mem_of_all {P : UInt8 → Prop} [DecidablePred P] {w : Bytes}
    (h : w.all (P ·) = true) : ∀ c ∈ w, P c :=
  fun c hc ↦ of_decide_eq_true (List.all_eq_true.1 h c hc)

/-- A request whose body is a blank line. -/
def blankMessage : Message {} where
  method := str "POST"
  target := str "/a?b"
  version := str "HTTP/1.1"
  headers := [(str "Content-Length", str "4")]
  body := crlf ++ crlf
  method_plain := forall_mem_of_all (by decide)
  target_plain := forall_mem_of_all (by decide)
  supported := .inr rfl
  names_plain := List.forall_mem_singleton.2 (forall_mem_of_all (by decide))
  values_plain := List.forall_mem_singleton.2 (forall_mem_of_all (by decide))
  values_trimmed := by
    rintro h hh c (hc | hc) <;> obtain rfl := List.mem_singleton.1 hh <;>
      obtain rfl := Option.some.inj hc <;> decide
  names_nodup := by decide
  no_transfer_encoding := by decide
  announced := by
    intro h hh _
    obtain rfl := List.mem_singleton.1 hh
    exact ⟨by decide, forall_mem_of_all (by decide), by decide⟩
  unannounced := fun h ↦ absurd rfl (h _ List.mem_cons_self)
  line_le := by decide
  body_le := by decide

theorem tryParseRequest_serialise_sample :
    ∃ req, tryParseRequest {} (blankMessage.serialise ++ crlf) =
        .complete blankMessage.serialise.length req ∧
      req.method = blankMessage.method ∧ req.target = blankMessage.target ∧
      req.version = blankMessage.version ∧
      req.path = blankMessage.target.takeWhile (· ≠ 63) ∧
      req.query = (blankMessage.target.dropWhile (· ≠ 63)).drop 1 ∧
      req.body = blankMessage.body ∧
      ∀ name value, req.headers.find? name = some value ↔
        ∃ h ∈ blankMessage.headers, toLower h.1 = name ∧ h.2 = value :=
  blankMessage.tryParseRequest_serialise crlf

end Spp.Http
