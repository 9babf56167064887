import Mathlib.Data.List.DropRight
import SearchPlusPlus.Analyze.Analyzer
import SearchPlusPlus.Json.Parser
import SearchPlusPlus.Lib.Substring

/-!
# HTTP requests

`TryParseRequest`, which parses the bytes received so far from their beginning each time it is
called. Positions are offsets into these bytes, as in the source.
-/

namespace Spp.Http

open Substring

/-- `HttpRequest`. -/
structure HttpRequest where
  method : Bytes := []
  target : Bytes := []
  path : Bytes := []
  query : Bytes := []
  version : Bytes := []
  headers : SortedMap Bytes Bytes := .empty
  body : Bytes := []
  pathParams : SortedMap Bytes Bytes := .empty
  deriving DecidableEq

/-- `HttpResponse`. -/
structure HttpResponse where
  status : ℕ := 200
  headers : SortedMap Bytes Bytes := .empty
  body : Bytes := []
  deriving DecidableEq

/-- `ParseLimits`. The code adds the first two, so the sum is a `std::size_t`. -/
structure ParseLimits where
  maxRequestLine : ℕ := 8 * 1024
  maxHeadersTotal : ℕ := 32 * 1024
  maxBody : ℕ := 16 * 1024 * 1024
  head_lt : maxRequestLine + maxHeadersTotal < 18446744073709551616 := by decide
  body_lt : maxBody < 18446744073709551616 := by decide

/-- The most bytes that a head without an end may have. -/
def ParseLimits.head (limits : ParseLimits) : ℕ := limits.maxRequestLine + limits.maxHeadersTotal

/-- What an error is reported with. -/
structure HttpError where
  status : ℕ
  message : Bytes
  deriving DecidableEq

/-- `ParseResult`, with the request on `kComplete`. -/
inductive ParseResult where
  | complete (consumed : ℕ) (req : HttpRequest)
  | needMore
  | error (e : HttpError)
  deriving DecidableEq

/-! ### Helpers -/

/-- The line end. -/
def crlf : Bytes := [13, 10]

/-- `ToLower`. -/
def toLower (s : Bytes) : Bytes := s.map Analyze.asciiLower

/-- Space or tab. -/
def isSpaceTab (c : UInt8) : Bool := c = 32 || c = 9

/-- `RTrimAscii`. -/
def rTrimAscii (s : Bytes) : Bytes := s.rdropWhile isSpaceTab

/-- `LTrimAscii`. -/
def lTrimAscii (s : Bytes) : Bytes := s.dropWhile isSpaceTab

/-- The loop of `FindCrlf`. -/
def findCrlfLoop (sv : Bytes) : ℕ → ℕ → Option ℕ
  | 0, _ => none
  | fuel + 1, start =>
    if start < sv.length then
      match find sv [13] start with
      | none => none
      | some pos => if sv[pos + 1]? = some 10 then some pos else findCrlfLoop sv fuel (pos + 1)
    else none

/-- `FindCrlf`. Every round starts behind the one before. -/
def findCrlf (sv : Bytes) (start : ℕ) : Option ℕ := findCrlfLoop sv sv.length start

/-- `std::from_chars` to a `std::uint64_t`, when it reads the whole string. -/
def fromChars (s : Bytes) : Option ℕ :=
  let digits := s.takeWhile Json.isDigit
  if digits = [] then none
  else if 18446744073709551616 ≤ Json.digitsValue digits then none
  else if digits.length = s.length then some (Json.digitsValue digits)
  else none

/-! ### Steps -/

/-- Method, target and version of a request line: what its first two spaces separate. -/
def splitRequestLine (rl : Bytes) : Option (Bytes × Bytes × Bytes) :=
  match find rl (str " ") 0 with
  | none => none
  | some sp1 =>
    match find rl (str " ") (sp1 + 1) with
    | none => none
    | some sp2 =>
      some (rl.take sp1, (rl.drop (sp1 + 1)).take (sp2 - sp1 - 1), rl.drop (sp2 + 1))

/-- The path and the query of a target. -/
def splitTarget (target : Bytes) : Bytes × Bytes :=
  match find target (str "?") 0 with
  | none => (target, [])
  | some qmark => (target.take qmark, target.drop (qmark + 1))

/-- The versions that are supported. -/
def isSupported (version : Bytes) : Bool := version = str "HTTP/1.1" || version = str "HTTP/1.0"

/-- Step 2 on the request line itself. -/
def readRequestLine (rl : Bytes) : Except HttpError HttpRequest :=
  match splitRequestLine rl with
  | none => .error ⟨400, str "malformed request line"⟩
  | some (method, target, version) =>
    if isSupported version then
      let (path, query) := splitTarget target
      .ok { method, target, path, query, version }
    else .error ⟨505, str "unsupported HTTP version: " ++ version⟩

/-- Step 2: where the request line ends, and what it says. -/
def parseRequestLine (limits : ParseLimits) (buf : Bytes) (headersEnd : ℕ) :
    Except HttpError (ℕ × HttpRequest) :=
  match findCrlf buf 0 with
  | none => .error ⟨400, str "missing request line"⟩
  | some firstCrlf =>
    if headersEnd < firstCrlf then .error ⟨400, str "missing request line"⟩
    else if limits.maxRequestLine < firstCrlf then .error ⟨414, str "request line too long"⟩
    else do
      let out ← readRequestLine (buf.take firstCrlf)
      .ok (firstCrlf, out)

/-- The name, in lower case, and the value of a header line. -/
def headerOf (line : Bytes) : Option (Bytes × Bytes) :=
  (find line (str ":") 0).map fun colon ↦
    (toLower (line.take colon), rTrimAscii (lTrimAscii (line.drop (colon + 1))))

/-- The body of the loop of step 3. -/
def readHeader (headers : SortedMap Bytes Bytes) (line : Bytes) :
    Except HttpError (SortedMap Bytes Bytes) :=
  if line = [] then .ok headers
  else
    match headerOf line with
    | none => .error ⟨400, str "missing ':' in header"⟩
    | some (name, value) => .ok (headers.insert name value)

/-- The loop of step 3. -/
def parseHeadersLoop (buf : Bytes) (headersEnd : ℕ) :
    ℕ → ℕ → SortedMap Bytes Bytes → Except HttpError (SortedMap Bytes Bytes)
  | 0, _, headers => .ok headers
  | fuel + 1, pos, headers =>
    if pos < headersEnd then
      match findCrlf buf pos with
      | none => .error ⟨400, str "malformed header line"⟩
      | some stop =>
        if headersEnd < stop then .error ⟨400, str "malformed header line"⟩
        else do
          let headers ← readHeader headers ((buf.drop pos).take (stop - pos))
          parseHeadersLoop buf headersEnd fuel (stop + 2) headers
    else .ok headers

/-- Step 3. Every line takes up a byte. -/
def parseHeaders (buf : Bytes) (headersEnd pos : ℕ) : Except HttpError (SortedMap Bytes Bytes) :=
  parseHeadersLoop buf headersEnd buf.length pos .empty

/-- Step 4, up to the length of the body. -/
def bodyLength (limits : ParseLimits) (headers : SortedMap Bytes Bytes) : Except HttpError ℕ := do
  let bodyLen ←
    match headers.find? (str "content-length") with
    | none => .ok 0
    | some s =>
      match fromChars s with
      | none => .error ⟨400, str "invalid content-length"⟩
      | some n => if limits.maxBody < n then .error ⟨413, str "body too large"⟩ else .ok n
  if (headers.find? (str "transfer-encoding")).isSome then
    .error ⟨411, str "transfer-encoding not supported (use Content-Length)"⟩
  else .ok bodyLen

/-- The part of `TryParseRequest` that reads the head, with the length of the body. -/
def readHead (limits : ParseLimits) (buf : Bytes) (headersEnd : ℕ) :
    Except HttpError (HttpRequest × ℕ) := do
  let (firstCrlf, out) ← parseRequestLine limits buf headersEnd
  let headers ← parseHeaders buf headersEnd (firstCrlf + 2)
  let bodyLen ← bodyLength limits headers
  .ok ({ out with headers }, bodyLen)

/-- `TryParseRequest`. -/
def tryParseRequest (limits : ParseLimits) (buf : Bytes) : ParseResult :=
  match find buf (crlf ++ crlf) 0 with
  | none =>
    if limits.head < buf.length then .error ⟨400, str "headers too large"⟩ else .needMore
  | some headersEnd =>
    let bodyStart := headersEnd + 4
    match readHead limits buf headersEnd with
    | .error e => .error e
    | .ok (out, bodyLen) =>
      if buf.length - bodyStart < bodyLen then .needMore
      else
        .complete (bodyStart + bodyLen) { out with body := (buf.drop bodyStart).take bodyLen }

end Spp.Http
