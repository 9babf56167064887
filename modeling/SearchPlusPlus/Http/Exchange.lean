import SearchPlusPlus.Http.ErrorBody
import SearchPlusPlus.Http.Framing
import SearchPlusPlus.Http.HttpServer
import SearchPlusPlus.Http.Router

/-!
# Exchanges

`SerializeResponse`, the rest of `HandleClient`, and the client of the tests. A response on the wire
is framed by its blank line (`locate_responseHead`), so the client gets the status and the body of
what was responded to its request, however the request is cut into reads (`exchange`).
-/

namespace Spp.Http

open Substring Json

/-! ### Responses -/

/-- `StatusText`. -/
def statusText : ℕ → Bytes
  | 200 => str "OK"
  | 201 => str "Created"
  | 204 => str "No Content"
  | 400 => str "Bad Request"
  | 401 => str "Unauthorized"
  | 403 => str "Forbidden"
  | 404 => str "Not Found"
  | 405 => str "Method Not Allowed"
  | 409 => str "Conflict"
  | 411 => str "Length Required"
  | 413 => str "Payload Too Large"
  | 414 => str "URI Too Long"
  | 500 => str "Internal Server Error"
  | 501 => str "Not Implemented"
  | 503 => str "Service Unavailable"
  | 505 => str "HTTP Version Not Supported"
  | _ => str "OK"

/-- A header of this name, in lower case, was set. -/
def HttpResponse.has (resp : HttpResponse) (name : Bytes) : Bool :=
  resp.headers.keys.any fun k ↦ toLower k = name

/-- `SerializeResponse`. -/
def serializeResponse (resp : HttpResponse) : Bytes :=
  str "HTTP/1.1 " ++ decimal resp.status ++ str " " ++ statusText resp.status ++ crlf ++
    resp.headers.toList.flatMap (fun h ↦ h.1 ++ str ": " ++ h.2 ++ crlf) ++
    (if resp.has (str "content-length") then []
      else str "Content-Length: " ++ decimal resp.body.length ++ crlf) ++
    (if resp.has (str "content-type") || resp.body = [] then []
      else str "Content-Type: application/json" ++ crlf) ++
    (if resp.has (str "connection") then [] else str "Connection: close" ++ crlf) ++
    crlf ++ resp.body

/-! ### The server -/

variable {H : Type}

/-- What `HandleClient` responds to a request. A handler may throw, with a text if it throws a
`std::exception`. -/
def respond (routes : List (Route H)) (call : H → HttpRequest → Except (Option Bytes) HttpResponse)
    (req : HttpRequest) : HttpResponse :=
  match dispatch routes req with
  | .error resp => resp
  | .ok (handler, req) =>
    match call handler req with
    | .ok resp => resp
    | .error (some what) => makeError 500 what
    | .error none => makeError 500 (str "unknown handler error")

/-- `HandleClient`: what it writes to a client, if anything, given the reads up to the end. -/
def handleClient (opts : HttpServerOptions) (routes : List (Route H))
    (call : H → HttpRequest → Except (Option Bytes) HttpResponse) (reads : List Bytes) :
    Option Bytes :=
  match receive opts [] reads with
  | .request req => some (serializeResponse (respond routes call req))
  | .failed e => some (serializeResponse (makeError e.status e.message))
  | .closed => none

/-! ### The client -/

/-- `MakeRequest`. -/
def makeRequest (method path body : Bytes) : Bytes :=
  method ++ str " " ++ path ++ str " HTTP/1.1" ++ crlf ++ str "Host: 127.0.0.1" ++ crlf ++
    str "Connection: close" ++ crlf ++ str "Content-Type: application/json" ++ crlf ++
    str "Content-Length: " ++ decimal body.length ++ crlf ++ crlf ++ body

/-- `std::isspace`. -/
def isSpace (c : UInt8) : Bool := c = 32 || (9 ≤ c && c ≤ 13)

/-- The digits that `std::atoi` reads. -/
def leadingDigits (s : Bytes) : ℕ := digitsValue (s.takeWhile isDigit)

/-- `std::atoi` of a number that is an `int`. -/
def atoi (s : Bytes) : ℤ :=
  match s.dropWhile isSpace with
  | [] => 0
  | c :: rest =>
    if c = 45 then -(leadingDigits rest : ℤ)
    else if c = 43 then leadingDigits rest
    else leadingDigits (c :: rest)

/-- `SplitResponse`. -/
def splitResponse (raw : Bytes) : Option (ℤ × Bytes) := do
  let firstSpace ← find raw (str " ") 0
  let secondSpace ← find raw (str " ") (firstSpace + 1)
  let status := atoi ((raw.drop (firstSpace + 1)).take (secondSpace - firstSpace - 1))
  let bodySep ← find raw (crlf ++ crlf) 0
  some (status, raw.drop (bodySep + 4))

/-! ### The frame of a response -/

section Frame

variable {resp : HttpResponse}

/-- No header has a carriage return, which would end its line. -/
def HttpResponse.Plain (resp : HttpResponse) : Prop :=
  ∀ h ∈ resp.headers.toList, 13 ∉ h.1 ∧ 13 ∉ h.2

/-- The headers that are written: those that were set, and those that are needed besides. -/
def HttpResponse.written (resp : HttpResponse) : List (Bytes × Bytes) :=
  resp.headers.toList ++
    (if resp.has (str "content-length") then []
      else [(str "Content-Length", decimal resp.body.length)]) ++
    (if resp.has (str "content-type") || resp.body = [] then []
      else [(str "Content-Type", str "application/json")]) ++
    (if resp.has (str "connection") then [] else [(str "Connection", str "close")])

/-- The status line. -/
def statusLine (status : ℕ) : Bytes :=
  str "HTTP/1.1 " ++ decimal status ++ str " " ++ statusText status

/-- A response up to its blank line. -/
def responseHead (resp : HttpResponse) : Bytes :=
  joinLines (statusLine resp.status) (resp.written.map headerLine)

theorem crlf_append_flatMap (hs : List (Bytes × Bytes)) (rest : Bytes) :
    crlf ++ (hs.flatMap (fun h ↦ h.1 ++ str ": " ++ h.2 ++ crlf) ++ rest) =
      (hs.map headerLine).flatMap (crlf ++ ·) ++ (crlf ++ rest) := by
  induction hs generalizing rest with
  | nil => rfl
  | cons h hs ih =>
    have hline : h.1 ++ str ": " ++ h.2 = headerLine h := rfl
    rw [List.flatMap_cons, List.map_cons, List.flatMap_cons, List.append_assoc, List.append_assoc,
      ih, hline]
    simp only [List.append_assoc]

/-- **A response is its head, a blank line and its body.** -/
theorem serializeResponse_eq (resp : HttpResponse) :
    serializeResponse resp = responseHead resp ++ (crlf ++ crlf ++ resp.body) := by
  have hwritten : serializeResponse resp = statusLine resp.status ++
      (crlf ++ (resp.written.flatMap (fun h ↦ h.1 ++ str ": " ++ h.2 ++ crlf) ++
        (crlf ++ resp.body))) := by
    rw [serializeResponse, HttpResponse.written]
    simp only [List.flatMap_append, List.append_assoc, statusLine]
    split_ifs <;> simp [str, crlf]
  rw [hwritten, crlf_append_flatMap, responseHead, joinLines]
  simp only [List.append_assoc]

theorem cr_notMem_decimal (n : ℕ) : (13 : UInt8) ∉ decimal n := fun h ↦
  absurd (isDigit_of_mem_decimal n _ h) (by decide)

theorem space_notMem_decimal (n : ℕ) : (32 : UInt8) ∉ decimal n := fun h ↦
  absurd (isDigit_of_mem_decimal n _ h) (by decide)

theorem cr_notMem_statusText (status : ℕ) : (13 : UInt8) ∉ statusText status := by
  unfold statusText
  split <;> decide

theorem cr_notMem_statusLine (status : ℕ) : (13 : UInt8) ∉ statusLine status := by
  simp only [statusLine, List.mem_append, not_or]
  exact ⟨⟨⟨by decide, cr_notMem_decimal status⟩, by decide⟩, cr_notMem_statusText status⟩

theorem HttpResponse.Plain.written (h : resp.Plain) :
    ∀ p ∈ resp.written, 13 ∉ p.1 ∧ 13 ∉ p.2 := by
  intro p hp
  have hlength : (13 : UInt8) ∉ str "Content-Length" := by decide
  simp only [HttpResponse.written, List.mem_append] at hp
  rcases hp with ((hp | hp) | hp) | hp
  · exact h p hp
  · split_ifs at hp
    · cases hp
    · obtain rfl := List.mem_singleton.1 hp
      exact ⟨hlength, cr_notMem_decimal _⟩
  · split_ifs at hp
    · cases hp
    · obtain rfl := List.mem_singleton.1 hp
      exact ⟨by decide, by decide⟩
  · split_ifs at hp
    · cases hp
    · obtain rfl := List.mem_singleton.1 hp
      exact ⟨by decide, by decide⟩

theorem headerLine_plain {p : Bytes × Bytes} (hp : 13 ∉ p.1 ∧ 13 ∉ p.2) :
    headerLine p ≠ [] ∧ 13 ∉ headerLine p := by
  simp only [headerLine, List.mem_append, not_or]
  refine ⟨?_, ⟨hp.1, by decide⟩, hp.2⟩
  simp [str]

/-- The first blank line of a response is the one behind its head. -/
theorem locate_responseHead (h : resp.Plain) :
    locate (crlf ++ crlf) (serializeResponse resp) = some (responseHead resp).length := by
  rw [serializeResponse_eq]
  refine locate_blank_line _ (cr_notMem_statusLine _) (List.forall_mem_map.2 fun p hp ↦ ?_)
  exact headerLine_plain (h.written p hp)

theorem atoi_decimal (n : ℕ) : atoi (decimal n) = n := by
  obtain ⟨c, rest, hcons, hc, -⟩ := decimal_eq_cons n
  have hall := isDigit_of_mem_decimal n
  have hvalue := digitsValue_decimal n
  rw [hcons] at hall hvalue ⊢
  have hspace : isSpace c = false := by
    simp only [isDigit, Bool.and_eq_true, decide_eq_true_eq] at hc
    simp [isSpace]
    grind
  have hsign : c ≠ 45 ∧ c ≠ 43 := by
    constructor <;> rintro rfl <;> cases hc
  rw [atoi, List.dropWhile_cons_of_neg (by simp [hspace])]
  dsimp only
  rw [if_neg hsign.1, if_neg hsign.2, leadingDigits, List.takeWhile_eq_self_iff.2 hall, hvalue]

/-- **The client reads what was sent**: the status, and everything behind the head as the body. -/
theorem splitResponse_serializeResponse (h : resp.Plain) :
    splitResponse (serializeResponse resp) = some ((resp.status : ℤ), resp.body) := by
  have hversion : (32 : UInt8) ∉ str "HTTP/1.1" := by decide
  have hwire : ∃ rest, serializeResponse resp =
      str "HTTP/1.1" ++ 32 :: (decimal resp.status ++ 32 :: rest) := by
    refine ⟨statusText resp.status ++ (resp.written.map headerLine).flatMap (crlf ++ ·) ++
      (crlf ++ crlf ++ resp.body), ?_⟩
    rw [serializeResponse_eq, responseHead, joinLines, statusLine]
    simp [str]
  obtain ⟨rest, hwire⟩ := hwire
  have hfirst : find (serializeResponse resp) (str " ") 0 = some 8 := by
    rw [find_zero, hwire]
    exact locate_singleton_append hversion _
  have hdrop : (serializeResponse resp).drop 9 = decimal resp.status ++ 32 :: rest := by
    rw [hwire]
    rfl
  have hsecond : find (serializeResponse resp) (str " ") 9 =
      some ((decimal resp.status).length + 9) := by
    rw [find, hdrop]
    exact congrArg (Option.map (· + 9))
      (locate_singleton_append (space_notMem_decimal resp.status) rest)
  have htake : ((serializeResponse resp).drop 9).take ((decimal resp.status).length + 9 - 8 - 1) =
      decimal resp.status := by
    have hlen : (decimal resp.status).length + 9 - 8 - 1 = (decimal resp.status).length := by omega
    rw [hdrop, hlen, List.take_left]
  have hbody : (serializeResponse resp).drop ((responseHead resp).length + 4) = resp.body := by
    rw [serializeResponse_eq, ← List.drop_drop, List.drop_left]
    rfl
  have hsep : find (serializeResponse resp) (crlf ++ crlf) 0 = some (responseHead resp).length := by
    rw [find_zero, locate_responseHead h]
  simp only [splitResponse, hfirst, hsecond, hsep, Option.bind_eq_bind, Option.bind_some,
    Nat.reduceAdd, htake, hbody, atoi_decimal]

end Frame

/-! ### Exchanges -/

section Exchange

variable {opts : HttpServerOptions} {limits : ParseLimits} {method path body : Bytes}

/-- The headers of `MakeRequest` that do not depend on the body. -/
def fixedHeaders : List (Bytes × Bytes) :=
  [(str "Host", str "127.0.0.1"), (str "Connection", str "close"),
    (str "Content-Type", str "application/json")]

/-- The headers of `MakeRequest`. -/
def requestHeaders (body : Bytes) : List (Bytes × Bytes) :=
  fixedHeaders ++ [(str "Content-Length", decimal body.length)]

/-- A method or a path that can stand in a request line. -/
def Word (w : Bytes) : Prop := ∀ c ∈ w, c ≠ 32 ∧ c ≠ 13 ∧ c ≠ 10

theorem isNumeral_decimal (n : ℕ) : IsNumeral (decimal n) n := by
  obtain ⟨c, rest, hcons, -⟩ := decimal_eq_cons n
  exact ⟨hcons ▸ List.cons_ne_nil _ _, isDigit_of_mem_decimal n, digitsValue_decimal n⟩

theorem forall_mem_requestHeaders {P : Bytes × Bytes → Prop} (h : ∀ p ∈ fixedHeaders, P p)
    (hlength : P (str "Content-Length", decimal body.length)) : ∀ p ∈ requestHeaders body, P p :=
  List.forall_mem_append.2 ⟨h, List.forall_mem_singleton.2 hlength⟩

theorem forall_mem_fixedHeaders {P : Bytes × Bytes → Prop} (hhost : P (str "Host", str "127.0.0.1"))
    (hconn : P (str "Connection", str "close"))
    (htype : P (str "Content-Type", str "application/json")) : ∀ p ∈ fixedHeaders, P p :=
  List.forall_mem_cons.2 ⟨hhost, List.forall_mem_cons.2 ⟨hconn, List.forall_mem_singleton.2 htype⟩⟩

/-- The names of the headers, in lower case. -/
theorem names_requestHeaders (body : Bytes) :
    (requestHeaders body).map (fun h ↦ toLower h.1) =
      [str "host", str "connection", str "content-type", str "content-length"] := by
  show [toLower (str "Host"), toLower (str "Connection"), toLower (str "Content-Type"),
    toLower (str "Content-Length")] = _
  decide

theorem plain_of_mem_decimal {n : ℕ} {c : UInt8} (h : c ∈ decimal n) :
    c ≠ 13 ∧ c ≠ 10 ∧ isSpaceTab c = false := by
  have hdigit := isDigit_of_mem_decimal n c h
  simp only [isDigit, Bool.and_eq_true, decide_eq_true_eq] at hdigit
  simp only [isSpaceTab, Bool.or_eq_false_iff, decide_eq_false_iff_not]
  grind

/-- The values of the headers have no line end and no space. -/
theorem values_requestHeaders (body : Bytes) :
    ∀ p ∈ requestHeaders body, ∀ c ∈ p.2, c ≠ 13 ∧ c ≠ 10 ∧ isSpaceTab c = false :=
  forall_mem_requestHeaders
    (forall_mem_fixedHeaders (forall_mem_of_all (by decide)) (forall_mem_of_all (by decide))
      (forall_mem_of_all (by decide))) fun _ hc ↦ plain_of_mem_decimal hc

theorem announced_requestHeaders (body : Bytes) :
    ∀ p ∈ requestHeaders body, toLower p.1 = str "content-length" →
      IsNumeral p.2 body.length := by
  have hfixed : ∀ p ∈ fixedHeaders, toLower p.1 ≠ str "content-length" := by decide
  exact forall_mem_requestHeaders (fun p hp h ↦ absurd h (hfixed p hp))
    fun _ ↦ isNumeral_decimal _

theorem names_plain_requestHeaders (body : Bytes) :
    ∀ p ∈ requestHeaders body, ∀ c ∈ p.1, c ≠ 58 ∧ c ≠ 13 ∧ c ≠ 10 :=
  forall_mem_requestHeaders
    (forall_mem_fixedHeaders (forall_mem_of_all (by decide)) (forall_mem_of_all (by decide))
      (forall_mem_of_all (by decide)))
    (show ∀ c ∈ str "Content-Length", _ from forall_mem_of_all (by decide))

theorem values_plain_requestHeaders (body : Bytes) :
    ∀ p ∈ requestHeaders body, ∀ c ∈ p.2, c ≠ 13 ∧ c ≠ 10 := fun p hp c hc ↦
  ⟨(values_requestHeaders body p hp c hc).1, (values_requestHeaders body p hp c hc).2.1⟩

theorem values_trimmed_requestHeaders (body : Bytes) :
    ∀ p ∈ requestHeaders body, ∀ c, p.2.head? = some c ∨ p.2.getLast? = some c →
      isSpaceTab c = false := fun p hp c hc ↦
  (values_requestHeaders body p hp c
    (hc.elim List.mem_of_mem_head? List.mem_of_getLast?)).2.2

theorem names_nodup_requestHeaders (body : Bytes) :
    ((requestHeaders body).map fun h ↦ toLower h.1).Nodup := by
  rw [names_requestHeaders]
  decide

theorem no_transfer_encoding_requestHeaders (body : Bytes) :
    ∀ p ∈ requestHeaders body, toLower p.1 ≠ str "transfer-encoding" :=
  forall_mem_requestHeaders (by decide)
    (show toLower (str "Content-Length") ≠ _ from by decide)

theorem exists_length_requestHeaders {body : Bytes}
    (h : ∀ p ∈ requestHeaders body, toLower p.1 ≠ str "content-length") : body = [] :=
  absurd (show toLower (str "Content-Length") = _ from by decide)
    (h _ (List.mem_append_right _ List.mem_cons_self))

theorem supported_current :
    str "HTTP/1.1" = str "HTTP/1.0" ∨ str "HTTP/1.1" = str "HTTP/1.1" := Or.inr rfl

/-- The request of the client. -/
def clientMessage (hmethod : Word method) (hpath : Word path)
    (hline : method.length + 1 + path.length + 9 ≤ limits.maxRequestLine)
    (hbody : body.length ≤ limits.maxBody) : Message limits where
  method := method
  target := path
  version := str "HTTP/1.1"
  headers := requestHeaders body
  body := body
  method_plain := hmethod
  target_plain := hpath
  supported := supported_current
  names_plain := names_plain_requestHeaders body
  values_plain := values_plain_requestHeaders body
  values_trimmed := values_trimmed_requestHeaders body
  names_nodup := names_nodup_requestHeaders body
  no_transfer_encoding := no_transfer_encoding_requestHeaders body
  announced := announced_requestHeaders body
  unannounced := exists_length_requestHeaders
  line_le := hline
  body_le := hbody

theorem serialise_clientMessage (hmethod : Word method) (hpath : Word path)
    (hline : method.length + 1 + path.length + 9 ≤ limits.maxRequestLine)
    (hbody : body.length ≤ limits.maxBody) :
    (clientMessage hmethod hpath hline hbody).serialise = makeRequest method path body := by
  simp [Message.serialise, Message.requestLine, clientMessage, makeRequest, requestHeaders,
    fixedHeaders, headerLine, str]

theorem Message.length_serialise (m : Message limits) :
    m.serialise.length = m.head.length + 4 + m.body.length := by
  rw [m.serialise_eq, List.length_append, List.length_append]
  show _ + (4 + _) = _
  omega

/-- **A whole request is received**, however it was cut, if its head is within the limit. -/
theorem Message.receive_of_isCut (m : Message opts.parseLimits) {reads : List Bytes}
    (hhead : m.head.length + 4 ≤ opts.parseLimits.head + 1)
    (htotal : m.serialise.length ≤ opts.maxTotalRequestBytes) (hcut : IsCut m.serialise reads) :
    receive opts [] reads = .request m.request := by
  have he : locate (crlf ++ crlf) m.serialise = some m.head.length := by
    rw [m.serialise_eq]
    exact m.locate_head m.body
  have hrun := (receive_of_lt he htotal (p := []) hcut.flatten_eq
    (Nat.zero_lt_succ _)).resolve_right fun h ↦ by omega
  have hlen := m.length_serialise
  have hdrop : m.serialise.drop (m.head.length + 4) = m.body := by
    rw [m.serialise_eq, ← List.drop_drop, List.drop_left]
    rfl
  have htake : m.serialise.take m.head.length = m.head := by rw [m.serialise_eq, List.take_left]
  rw [hrun, settled, settle, htake, m.parseHead_head]
  dsimp only
  rw [if_neg (by omega), hdrop, List.take_length]
  rfl

theorem length_makeRequest (method path body : Bytes) :
    (makeRequest method path body).length =
      method.length + path.length + (decimal body.length).length + 100 + body.length := by
  simp [makeRequest, str, crlf]
  omega

variable {routes : List (Route H)}
  {call : H → HttpRequest → Except (Option Bytes) HttpResponse}

/-- A response without headers. -/
theorem plain_of_empty {resp : HttpResponse} (h : resp.headers = .empty) : resp.Plain := by
  intro p hp
  rw [h] at hp
  cases hp

theorem plain_respond (hplain : ∀ handler req resp, call handler req = .ok resp → resp.Plain)
    (req : HttpRequest) : (respond routes call req).Plain := by
  rw [respond]
  rcases dispatchLoop_spec req routes false with
    ⟨r, captured, -, hdispatch, -⟩ | ⟨-, hdispatch⟩
  · rw [dispatch, hdispatch]
    dsimp only
    cases hcall : call r.handler { req with pathParams := captured } with
    | ok resp => exact hplain _ _ _ hcall
    | error what =>
      cases what with
      | none => exact plain_of_empty rfl
      | some what => exact plain_of_empty rfl
  · rw [dispatch, hdispatch]
    dsimp only
    refine plain_of_empty ?_
    rw [notDispatched]
    split_ifs <;> rfl

/-- **The client gets the response to its request**: however the request is cut into reads, the
handler is called with the method, the path, the query and the body that were sent, and the client
reads the status and the body of what is responded. -/
theorem exchange (hmethod : Word method) (hpath : Word path)
    (hline : method.length + 1 + path.length + 9 ≤ opts.parseLimits.maxRequestLine)
    (hbody : body.length ≤ opts.parseLimits.maxBody)
    (hheaders : (decimal body.length).length + 89 ≤ opts.parseLimits.maxHeadersTotal)
    (htotal : (makeRequest method path body).length ≤ opts.maxTotalRequestBytes)
    (hplain : ∀ handler req resp, call handler req = .ok resp → resp.Plain)
    {reads : List Bytes} (hcut : IsCut (makeRequest method path body) reads) :
    ∃ req wire, handleClient opts routes call reads = some wire ∧
      req.method = method ∧ req.path = path.takeWhile (· ≠ 63) ∧
      req.query = (path.dropWhile (· ≠ 63)).drop 1 ∧ req.body = body ∧
      splitResponse wire = some (((respond routes call req).status : ℤ),
        (respond routes call req).body) := by
  have hserialise := serialise_clientMessage hmethod hpath hline hbody
  have hlen := (clientMessage hmethod hpath hline hbody).length_serialise
  rw [hserialise, length_makeRequest] at hlen
  have hreceive : receive opts [] reads =
      .request (clientMessage hmethod hpath hline hbody).request := by
    refine Message.receive_of_isCut _ ?_ (hserialise ▸ htotal) (hserialise ▸ hcut)
    have hsame : (clientMessage hmethod hpath hline hbody).body.length = body.length := rfl
    show _ ≤ opts.parseLimits.maxRequestLine + opts.parseLimits.maxHeadersTotal + 1
    omega
  refine ⟨(clientMessage hmethod hpath hline hbody).request, _, ?_, rfl, rfl, rfl, rfl,
    splitResponse_serializeResponse (plain_respond hplain _)⟩
  rw [handleClient, hreceive]

end Exchange

end Spp.Http
