import SearchPlusPlus.Http.Exchange
import SearchPlusPlus.Http.QueryParams
import SearchPlusPlus.Index.WriterRun
import SearchPlusPlus.Lib.Threads
import SearchPlusPlus.Query.QueryParser
import SearchPlusPlus.Query.Ranker
import SearchPlusPlus.Query.Searcher
import SearchPlusPlus.Server.RequestBody

/-!
# The handlers of the server

`SearchServer::Impl` as programs: what `Start`, `Stop` and the handlers of requests do, in calls on
the root directory, the registered writers and the linear rankers (`ServerOp`). Each of these takes
a lock for as long as it lasts, so a call is atomic; between two calls other requests may come.

`serverWorld` says what the calls do. The methods of a writer do what they do to its directory, and
none is called without a registered writer. What the calls on the root directory return is left
open.
-/

namespace Spp.Server

open Http Index Json Query Store

/-! ### Calls -/

/-- The calls that handlers make. -/
inductive ServerOp where
  /-- `create_directories` on the root. -/
  | createRoot
  /-- The directories that `directory_iterator` finds in the root. -/
  | listDirectories
  /-- The names in `writers_`. -/
  | listWriters
  /-- `GetWriter`, or `writers_.count`: is a writer registered? -/
  | getWriter (name : Bytes)
  /-- `std::filesystem::exists`. -/
  | directoryExists (name : Bytes)
  | createDirectories (name : Bytes)
  /-- `IndexWriter::Open`, and the registration of the writer. In between only its own request
  knows the writer. -/
  | openWriter (name : Bytes) (initial : Option Schema)
  | addDocument (name : Bytes) (doc : Document) (rawJson : Bytes)
  | refresh (name : Bytes)
  /-- `Close`, after which the writer is no longer registered. -/
  | close (name : Bytes)
  | currentReader (name : Bytes)
  | getLinearRanker (name : Bytes)
  | setLinearRanker (name : Bytes) (r : LinearRanker)
  /-- What the language says nothing about. -/
  | undefinedBehaviour

/-- What a call returns. -/
def ServerOp.Reply : ServerOp → Type
  | .createRoot | .createDirectories _ | .openWriter .. | .addDocument .. => Expected Unit
  | .listDirectories | .listWriters => List Bytes
  | .getWriter _ | .directoryExists _ => Bool
  | .refresh _ => Expected Generation
  | .close _ | .setLinearRanker .. => Unit
  | .currentReader _ => Option IndexReader
  | .getLinearRanker _ => Option LinearRanker
  | .undefinedBehaviour => Empty

/-- A method of the server: it ends in a value or an error `ε`. -/
abbrev ServerMethod (ε α : Type) : Type := Method ServerOp ServerOp.Reply ε Unit α

/-- A single call. -/
def call {ε : Type} (op : ServerOp) : ServerMethod ε op.Reply := Method.perform op

section Handlers

open Method

variable [LibcDecimal]

/-! ### Responses -/

/-- `JsonResponse`. -/
def jsonResponse (status : ℕ) (v : JsonValue) : HttpResponse where
  status := status
  headers := SortedMap.empty.insert (str "Content-Type") (str "application/json")
  body := serialize v

/-- The index that a request names. -/
def pathIndex (req : HttpRequest) : Except HttpResponse Bytes :=
  match req.pathParams.find? (str "index") with
  | none => .error (errorJson 400 (str "bad_request") (str "missing index name"))
  | some name => .ok name

/-- What the handlers start with, but for `Health` and `CreateIndex`. -/
def knownIndex (req : HttpRequest) : ServerMethod HttpResponse Bytes := do
  let name ← done (pathIndex req)
  let known : Bool ← call (.getWriter name)
  if known then pure name else fail (errorJson 404 (str "not_found") (str "no such index"))

/-! ### Indexes and documents -/

/-- `Health`. -/
def health : ServerMethod HttpResponse HttpResponse :=
  pure (jsonResponse 200 (mkObject [(str "status", .string (str "ok"))]))

/-- The directory exists and a writer is registered for it. -/
def alreadyExists (name : Bytes) : ServerMethod HttpResponse Bool := do
  let found : Bool ← call (.directoryExists name)
  if found then call (.getWriter name) else pure false

/-- What `CreateIndex` does for a name that passes. -/
def makeIndex (name : Bytes) (schema : Schema) : ServerMethod HttpResponse HttpResponse := do
  let made : Expected Unit ← call (.createDirectories name)
  match made with
  | .error e => fail (errorJson 500 (str "io_error") e.message)
  | .ok () =>
    let opened : Expected Unit ← call (.openWriter name (some schema))
    match opened with
    | .error e => fail (errorJson 500 (str "internal") e.message)
    | .ok () =>
      pure (jsonResponse 200 (mkObject
        [(str "acknowledged", .bool true), (str "index", .string name)]))

/-- `CreateIndex`. -/
def createIndex (req : HttpRequest) : ServerMethod HttpResponse HttpResponse := do
  let name ← done (indexName req)
  let schema ← done (createdSchema req.body)
  let taken ← alreadyExists name
  if taken then fail (errorJson 409 (str "already_exists") (str "index already exists"))
  else makeIndex name schema

/-- `PostDoc`. -/
def postDoc (req : HttpRequest) : ServerMethod HttpResponse HttpResponse := do
  let name ← knownIndex req
  let doc ← done (readDocument req.body)
  let added : Expected Unit ← call (.addDocument name doc req.body)
  match added with
  | .error e => fail (errorJson 400 (str "bad_request") e.message)
  | .ok () =>
    pure (jsonResponse 201 (mkObject
      [(str "result", .string (str "created")), (str "_id", .string doc.id),
        (str "_index", .string name)]))

/-- `Refresh`. -/
def refresh (req : HttpRequest) : ServerMethod HttpResponse HttpResponse := do
  let name ← knownIndex req
  let refreshed : Expected Generation ← call (.refresh name)
  match refreshed with
  | .error e => fail (errorJson 500 (str "internal") e.message)
  | .ok gen =>
    pure (jsonResponse 200 (mkObject
      [(str "refreshed", .bool true), (str "generation", .int (UInt64.toInt64 gen))]))

/-! ### Rankers -/

/-- `GetLtr`. -/
def getLtr (req : HttpRequest) : ServerMethod HttpResponse HttpResponse := do
  let name ← knownIndex req
  let ranker : Option LinearRanker ← call (.getLinearRanker name)
  match ranker with
  | none =>
    pure (jsonResponse 200 (mkObject
      [(str "available", .array [.string (str "bm25"), .string (str "catboost")])]))
  | some r =>
    pure (jsonResponse 200 (mkObject
      [(str "linear", r.toJson),
        (str "available",
          .array [.string (str "bm25"), .string (str "catboost"), .string (str "linear")])]))

/-- The ranker in the body of a request. -/
def readRanker (body : Bytes) : Except HttpResponse LinearRanker := do
  let v ← parseBody body
  match LinearRanker.fromJson v with
  | .ok r => .ok r
  | .error e => .error (errorJson 400 (str "bad_request") e.message)

/-- `PutLtrLinear`. -/
def putLtrLinear (req : HttpRequest) : ServerMethod HttpResponse HttpResponse := do
  let name ← knownIndex req
  let r ← done (readRanker req.body)
  call (.setLinearRanker name r)
  pure (jsonResponse 200 (mkObject
    [(str "acknowledged", .bool true), (str "ranker", .string (str "linear"))]))

/-! ### Searches -/

/-- `std::stoul`, of 64 bits: none if it throws. A minus sign negates the value it has read. -/
def stoul (s : Bytes) : Option ℕ :=
  let s := s.dropWhile isSpace
  let neg : Bool := s.head? = some 45
  let signed : Bool := neg || s.head? = some 43
  let ds := (if signed then s.tail else s).takeWhile isDigit
  let v := digitsValue ds
  if ds = [] ∨ 18446744073709551616 ≤ v then none
  else some (if neg then (18446744073709551616 - v) % 18446744073709551616 else v)

/-- The number under a parameter, cut off at a limit. -/
def limitedParam (params : SortedMap Bytes Bytes) (key : Bytes) (unset limit : ℕ) :
    Except HttpResponse ℕ :=
  match params.find? key with
  | none => .ok unset
  | some text =>
    match stoul text with
    | none => .error (errorJson 400 (str "bad_request")
        (str "invalid '" ++ key ++ str "' parameter"))
    | some n => .ok (min n limit)

/-- `size`. -/
def sizeParam (params : SortedMap Bytes Bytes) : Except HttpResponse ℕ :=
  limitedParam params (str "size") 10 1000

/-- `top_n`. -/
def topNParam (params : SortedMap Bytes Bytes) : Except HttpResponse ℕ :=
  limitedParam params (str "top_n") 1000 100000

/-- `default_field`: without it, the first text field that is not the id. -/
def defaultField (params : SortedMap Bytes Bytes) (schema : Schema) : Bytes :=
  match params.find? (str "default_field") with
  | some field => field
  | none =>
    let first := schema.fields.find? fun f ↦ f.name ≠ Schema.kIdField ∧ f.type = .text
    let field := (first.map (·.name)).getD []
    if field = [] then Schema.kIdField else field

/-- The query of a request. -/
def readQuery (params : SortedMap Bytes Bytes) (field : Bytes) : Except HttpResponse QueryAst :=
  match Query.parse ((params.find? (str "q")).getD []) field with
  | .ok q => .ok q
  | .error e => .error (errorJson 400 (str "bad_request") e.message)

section Scores

variable {R : Type} [Arith R]

/-- The ranker that the parameters `rerank` and `ranker` ask for. -/
def chooseRanker (name : Bytes) (params : SortedMap Bytes Bytes) :
    ServerMethod HttpResponse (Option (FeatureVector R → R)) :=
  let asked := params.find? (str "rerank")
  let kind := (params.find? (str "ranker")).getD (str "bm25")
  if (asked = some (str "true") ∨ asked = some (str "1")) ∧ kind ≠ str "bm25" then
    if kind = str "linear" then do
      let ranker : Option LinearRanker ← call (.getLinearRanker name)
      match ranker with
      | none => fail (errorJson 400 (str "bad_request")
          (str "no linear ranker configured — PUT /:index/_ltr/linear first"))
      | some r => pure (some r.score)
    else if kind = str "catboost" then pure (some catboostRanker)
    else fail (errorJson 400 (str "bad_request") (str "unknown ranker kind"))
  else pure none

/-- The object of a hit. Its stored fields are left out if they do not parse. -/
def hitJson (toF64 : R → F64) (h : Hit R) : JsonValue :=
  let source := if h.storedFieldsJson = [] then [] else
    match Json.parse h.storedFieldsJson with
    | .ok v => [(str "_source", v)]
    | .error _ => []
  mkObject ([(str "_id", .string h.id), (str "_score", .double (toF64 h.score))] ++ source)

/-- The document of a result. -/
def searchJson (toF64 : R → F64) (result : SearchResult R) : JsonValue :=
  mkObject
    [(str "total", .int (Int64.ofNat result.totalHits)),
      (str "hits", .array (result.hits.map (hitJson toF64)))]

variable [SortByKey] [SortByScore]

/-- The end of `Search`. There is nothing to return where `Searcher::Search` is undefined. -/
def searchReader (toF64 : R → F64) (reader : IndexReader) (q : QueryAst)
    (opts : SearchOptions R) : ServerMethod HttpResponse HttpResponse :=
  match Query.search reader q opts with
  | some result => pure (jsonResponse 200 (searchJson toF64 result))
  | none => do
    let never : Empty ← call .undefinedBehaviour
    never.elim

/-- `Search`. A slot is waited for before the parameters are read, which nothing here depends on. -/
def search (toF64 : R → F64) (req : HttpRequest) : ServerMethod HttpResponse HttpResponse := do
  let name ← knownIndex req
  let current : Option IndexReader ← call (.currentReader name)
  match current with
  | none => fail (errorJson 503 (str "unavailable") (str "no reader yet"))
  | some reader =>
    let params := req.queryParams
    let size ← done (sizeParam params)
    let field := defaultField params reader.schema
    let q ← done (readQuery params field)
    let rerankTopN ← done (topNParam params)
    let ranker ← chooseRanker name params
    searchReader toF64 reader q { size, defaultField := field, rerankTopN, ranker }

/-- The handler of a route. -/
def handle (toF64 : R → F64) (h : Handler) (req : HttpRequest) :
    ServerMethod HttpResponse HttpResponse :=
  match h with
  | .health => health
  | .createIndex => createIndex req
  | .postDoc => postDoc req
  | .refresh => refresh req
  | .search => search toF64 req
  | .getLtr => getLtr req
  | .putLtrLinear => putLtrLinear req

end Scores

end Handlers

/-! ### Start and Stop -/

section Tasks

open Method

/-- The loop of `Start`. A directory whose index cannot be opened is skipped. -/
def openAll : List Bytes → ServerMethod Status Unit
  | [] => pure ()
  | name :: names => do
    let _ ← call (.openWriter name none)
    openAll names

/-- `Start`, up to the HTTP server. -/
def start : ServerMethod Status Unit := do
  let made : Expected Unit ← call .createRoot
  done made
  let names : List Bytes ← call .listDirectories
  openAll names

/-- The loop of `Stop`. -/
def closeAll : List Bytes → ServerMethod Status Unit
  | [] => pure ()
  | name :: names => do
    let _ ← call (.refresh name)
    call (.close name)
    closeAll names

/-- `Stop`, once the HTTP server has stopped. -/
def stop : ServerMethod Status Unit := do
  let names : List Bytes ← call .listWriters
  closeAll names

/-- What a server does: it starts, answers requests, and stops. -/
inductive Task where
  | start
  | request (req : HttpRequest)
  | stop

/-- What a task ends with. -/
inductive Answer where
  | response (resp : HttpResponse)
  | done (r : Expected Unit)

variable [LibcDecimal] {R : Type} [Arith R] [SortByKey] [SortByScore]

/-- The response of a handler, whichever way it ends. -/
def responseOf : Except HttpResponse HttpResponse → HttpResponse
  | .ok resp => resp
  | .error resp => resp

/-- What a request is answered with: what `Dispatch` makes of it. -/
def answerRequest (toF64 : R → F64) (req : HttpRequest) :
    Prog ServerOp ServerOp.Reply HttpResponse :=
  match dispatch routes req with
  | .error resp => .ret resp
  | .ok (h, req') => (handle toF64 h req' ()).bind fun r ↦ .ret (responseOf r.1)

/-- The program of a task. -/
def Task.program (toF64 : R → F64) : Task → Prog ServerOp ServerOp.Reply Answer
  | .start => (Server.start ()).bind fun r ↦ .ret (.done r.1)
  | .request req => (answerRequest toF64 req).bind fun resp ↦ .ret (.response resp)
  | .stop => (Server.stop ()).bind fun r ↦ .ret (.done r.1)

end Tasks

/-! ### The root directory -/

section World

variable [LibcDecimal]

/-- The directories of the indexes with the registered writers, and the linear rankers. -/
structure Root where
  index : Bytes → WriterState
  rankers : Bytes → Option LinearRanker

namespace Root

/-- No index was made. -/
def start : Root := ⟨fun _ ↦ .start, fun _ ↦ none⟩

def put (s : Root) (name : Bytes) (x : WriterState) : Root :=
  { s with index := Function.update s.index name x }

/-- A crash leaves the files. -/
def lost (s : Root) : Root := ⟨fun name ↦ ⟨none, (s.index name).disk⟩, fun _ ↦ none⟩

/-- What a call may return, and leave. A writer that is opened takes the place of the one that was
registered. -/
def Replies (F : Faults) (s s' : Root) : (op : ServerOp) → op.Reply → Prop
  | .listWriters, r => ∃ names : List Bytes, r = names ∧
    (∀ name, name ∈ names ↔ (s.index name).writer.isSome) ∧ s' = s
  | .getWriter name, known => known = (s.index name).writer.isSome ∧ s' = s
  | .openWriter name initial, r => ∃ x,
    WriterStep F ⟨none, (s.index name).disk⟩ (.opened initial (Except.isOk (r : Expected Unit))) x ∧
      s' = s.put name (if Except.isOk (r : Expected Unit) then x
        else ⟨(s.index name).writer, x.disk⟩)
  | .addDocument name doc rawJson, r => ∃ x,
    WriterStep F (s.index name) (.added doc rawJson (Except.isOk (r : Expected Unit))) x ∧
      s' = s.put name x
  | .refresh name, r => ∃ x,
    WriterStep F (s.index name) (.refreshed (Except.isOk (r : Expected Generation))) x ∧
      (∀ gen, (r : Expected Generation) = .ok gen → x.writer.map (·.currentGen) = some gen) ∧
      s' = s.put name x
  | .close name, _ => ∃ x, WriterStep F (s.index name) .closed x ∧ s' = s.put name x
  | .currentReader name, reader =>
    reader = (s.index name).writer.map (·.publishedReader) ∧ s' = s
  | .getLinearRanker name, ranker => ranker = s.rankers name ∧ s' = s
  | .setLinearRanker name r, _ => s' = { s with rankers := Function.update s.rankers name (some r) }
  | .createRoot, _ | .listDirectories, _ | .directoryExists _, _ | .createDirectories _, _
  | .undefinedBehaviour, _ => s' = s

/-- What a crash in the middle of a call leaves of the files. -/
def CutOff (F : Faults) (s s' : Root) : ServerOp → Prop
  | .openWriter name initial => ∃ d,
    (IndexWriter.open initial ()).Stops (files F.quiet) (s.index name).disk d ∧
      s' = s.put name ⟨none, d⟩
  | .addDocument name doc rawJson => ∃ x,
    WriterStep F (s.index name) (.addCut doc rawJson) x ∧ s' = s.put name x
  | .refresh name => ∃ x, WriterStep F (s.index name) .refreshCut x ∧ s' = s.put name x
  | _ => s' = s

end Root

/-- What the calls of the server do. -/
def serverWorld (F : Faults) : World ServerOp ServerOp.Reply Root where
  returns op s r s' := s.Replies F s' op r
  stops op s s' := s.CutOff F s' op

/-- A server before its first start. -/
def newServer : Threads ServerOp ServerOp.Reply Answer Root := ⟨Root.start, fun _ ↦ none, 0⟩

end World

end Spp.Server
