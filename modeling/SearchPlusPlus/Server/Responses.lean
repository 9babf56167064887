import SearchPlusPlus.Http.ErrorBody
import SearchPlusPlus.Query.Candidates
import SearchPlusPlus.Server.DocQuality
import SearchPlusPlus.Server.Handlers

/-!
# What requests are answered with

The paths through the handlers. A handler refuses a request, and then no call that changes an index
has succeeded, or it is `Done` with it (`handle_cases`): what it called and what came back is then
fixed by the request and the response, but for the look at the directory in `CreateIndex`. So it is
for every request that a thread of the server answers, whatever the other threads do
(`answered_accounts`). What a call leaves that fails is up to the writer.
-/

namespace Spp.Server

open Http Index Json Query Store Method

/-- A call that succeeded, of those that change an index or its ranker. A directory that is made
changes neither. -/
def Effective : Sigma ServerOp.Reply → Prop
  | ⟨.openWriter .., r⟩ => Except.isOk (r : Expected Unit) = true
  | ⟨.addDocument .., r⟩ => Except.isOk (r : Expected Unit) = true
  | ⟨.refresh _, r⟩ => Except.isOk (r : Expected Generation) = true
  | ⟨.setLinearRanker .., _⟩ => True
  | _ => False

/-- A call and its reply. -/
def reply (op : ServerOp) (r : op.Reply) : Sigma ServerOp.Reply := ⟨op, r⟩

variable [LibcDecimal]

/-- A response that refuses a request. -/
def Refusal (resp : HttpResponse) : Prop :=
  ∃ status ∈ [400, 404, 409, 500, 503], ∃ type reason, resp = errorJson status type reason

variable {req : HttpRequest} {name body : Bytes} {resp : HttpResponse}

/-! ### Refusals -/

theorem refusal_errorJson {status : ℕ} (type reason : Bytes)
    (h : status ∈ [400, 404, 409, 500, 503]) : Refusal (errorJson status type reason) :=
  ⟨status, h, type, reason, rfl⟩

theorem refusal_pathIndex (h : pathIndex req = .error resp) : Refusal resp := by
  rw [pathIndex] at h
  split at h
  · obtain rfl := Except.error.inj h
    exact refusal_errorJson _ _ (by decide)
  · cases h

theorem refusal_indexName (h : indexName req = .error resp) : Refusal resp := by
  rw [indexName] at h
  split at h
  · obtain rfl := Except.error.inj h
    exact refusal_errorJson _ _ (by decide)
  · dsimp only at h
    split_ifs at h
    obtain rfl := Except.error.inj h
    exact refusal_errorJson _ _ (by decide)

theorem refusal_parseBody (h : parseBody body = .error resp) : Refusal resp := by
  rw [parseBody] at h
  split at h
  · cases h
  · obtain rfl := Except.error.inj h
    exact refusal_errorJson _ _ (by decide)

/-- What is read from a body is refused if the body is. -/
theorem refusal_bind {α : Type} {f : JsonValue → Except HttpResponse α}
    (h : (parseBody body >>= f) = .error resp) (hf : ∀ v, f v = .error resp → Refusal resp) :
    Refusal resp := by
  cases hv : parseBody body with
  | error e =>
    rw [hv] at h
    obtain rfl := Except.error.inj h
    exact refusal_parseBody hv
  | ok v =>
    rw [hv] at h
    exact hf v h

theorem refusal_createdSchema (h : createdSchema body = .error resp) : Refusal resp := by
  refine refusal_bind h fun v hv ↦ ?_
  split at hv
  · split at hv
    · cases hv
    · obtain rfl := Except.error.inj hv
      exact refusal_errorJson _ _ (by decide)
  · obtain rfl := Except.error.inj hv
    exact refusal_errorJson _ _ (by decide)

theorem refusal_readDocument (h : readDocument body = .error resp) : Refusal resp := by
  refine refusal_bind h fun v hv ↦ ?_
  split at hv
  · cases hv
  · obtain rfl := Except.error.inj hv
    exact refusal_errorJson _ _ (by decide)

theorem refusal_readRanker (h : readRanker body = .error resp) : Refusal resp := by
  refine refusal_bind h fun v hv ↦ ?_
  split at hv
  · cases hv
  · obtain rfl := Except.error.inj hv
    exact refusal_errorJson _ _ (by decide)

theorem refusal_limitedParam {params : SortedMap Bytes Bytes} {key : Bytes} {unset limit : ℕ}
    (h : limitedParam params key unset limit = .error resp) : Refusal resp := by
  rw [limitedParam] at h
  split at h
  · cases h
  · split at h
    · obtain rfl := Except.error.inj h
      exact refusal_errorJson _ _ (by decide)
    · cases h

theorem refusal_readQuery {params : SortedMap Bytes Bytes} {field : Bytes}
    (h : readQuery params field = .error resp) : Refusal resp := by
  rw [readQuery] at h
  split at h
  · cases h
  · obtain rfl := Except.error.inj h
    exact refusal_errorJson _ _ (by decide)

/-! ### Paths -/

section Paths

variable {R : Type} [Arith R] {toF64 : R → F64} {l : List (Sigma ServerOp.Reply)}
  {r : Except HttpResponse HttpResponse}

/-- What a handler calls and responds when it does what it is asked for. -/
inductive Done [SortByKey] [SortByScore] (toF64 : R → F64) (req : HttpRequest) :
    Handler → List (Sigma ServerOp.Reply) → HttpResponse → Prop
  | health : Done toF64 req .health []
      (jsonResponse 200 (mkObject [(str "status", .string (str "ok"))]))
  | created {name : Bytes} {schema : Schema} {checks : List (Sigma ServerOp.Reply)}
      (hname : indexName req = .ok name) (hschema : createdSchema req.body = .ok schema)
      (hchecks : Prog.Follows (alreadyExists name ()) checks (.ret (.ok false, ()))) :
      Done toF64 req .createIndex
        (checks ++ [reply (.createDirectories name) (Except.ok () : Expected Unit),
          reply (.openWriter name (some schema)) (Except.ok () : Expected Unit)])
        (jsonResponse 200 (mkObject
          [(str "acknowledged", .bool true), (str "index", .string name)]))
  | posted {name : Bytes} {doc : Document} (hname : pathIndex req = .ok name)
      (hdoc : readDocument req.body = .ok doc) :
      Done toF64 req .postDoc
        [reply (.getWriter name) true,
          reply (.addDocument name doc req.body) (Except.ok () : Expected Unit)]
        (jsonResponse 201 (mkObject
          [(str "result", .string (str "created")), (str "_id", .string doc.id),
            (str "_index", .string name)]))
  | refreshed {name : Bytes} {gen : Generation} (hname : pathIndex req = .ok name) :
      Done toF64 req .refresh
        [reply (.getWriter name) true, reply (.refresh name) (Except.ok gen : Expected Generation)]
        (jsonResponse 200 (mkObject
          [(str "refreshed", .bool true), (str "generation", .int (UInt64.toInt64 gen))]))
  | noRanker {name : Bytes} (hname : pathIndex req = .ok name) :
      Done toF64 req .getLtr
        [reply (.getWriter name) true,
          reply (.getLinearRanker name) (none : Option LinearRanker)]
        (jsonResponse 200 (mkObject
          [(str "available", .array [.string (str "bm25"), .string (str "catboost")])]))
  | ranker {name : Bytes} {r : LinearRanker} (hname : pathIndex req = .ok name) :
      Done toF64 req .getLtr
        [reply (.getWriter name) true, reply (.getLinearRanker name) (some r)]
        (jsonResponse 200 (mkObject
          [(str "linear", r.toJson),
            (str "available", .array
              [.string (str "bm25"), .string (str "catboost"), .string (str "linear")])]))
  | rankerPut {name : Bytes} {r : LinearRanker} (hname : pathIndex req = .ok name)
      (hr : readRanker req.body = .ok r) :
      Done toF64 req .putLtrLinear
        [reply (.getWriter name) true, reply (.setLinearRanker name r) ()]
        (jsonResponse 200 (mkObject
          [(str "acknowledged", .bool true), (str "ranker", .string (str "linear"))]))
  | searched {name : Bytes} {reader : IndexReader} {size rerankTopN : ℕ} {q : QueryAst}
      {ranker : Option (FeatureVector R → R)} {result : SearchResult R}
      {choice : List (Sigma ServerOp.Reply)} (hname : pathIndex req = .ok name)
      (hsize : sizeParam req.queryParams = .ok size)
      (hq : readQuery req.queryParams (defaultField req.queryParams reader.schema) = .ok q)
      (htop : topNParam req.queryParams = .ok rerankTopN)
      (hchoice : Prog.Follows (chooseRanker name req.queryParams ()) choice
        (.ret (.ok ranker, ())))
      (hresult : Query.search reader q
        { size, defaultField := defaultField req.queryParams reader.schema, rerankTopN, ranker } =
          some result) :
      Done toF64 req .search
        (reply (.getWriter name) true :: reply (.currentReader name) (some reader) :: choice)
        (jsonResponse 200 (searchJson toF64 result))

/-- A path that ends in a refusal, and no call on it was effective. -/
structure Refused {α : Type} (l : List (Sigma ServerOp.Reply)) (b : Except HttpResponse α × Unit) :
    Prop where
  refusal : ∃ e, Refusal e ∧ b = (.error e, ())
  still : ∀ c ∈ l, ¬Effective c

theorem refused_fail {α : Type} {e : HttpResponse} {b : Except HttpResponse α × Unit}
    (h : Prog.Follows ((fail e : ServerMethod HttpResponse α) ()) l (.ret b)) (he : Refusal e) :
    Refused l b := by
  obtain ⟨rfl, rfl⟩ := follows_fail.1 h
  exact ⟨⟨e, he, rfl⟩, by simp⟩

theorem Refused.cons {α : Type} {b : Except HttpResponse α × Unit} {c : Sigma ServerOp.Reply}
    (h : Refused l b) (hc : ¬Effective c) : Refused (c :: l) b :=
  ⟨h.refusal, List.forall_mem_cons.2 ⟨hc, h.still⟩⟩

theorem Refused.append {α : Type} {b : Except HttpResponse α × Unit}
    {l' : List (Sigma ServerOp.Reply)} (h : Refused l' b) (hl : ∀ c ∈ l, ¬Effective c) :
    Refused (l ++ l') b :=
  ⟨h.refusal, fun c hc ↦ (List.mem_append.1 hc).elim (hl c) (h.still c)⟩

/-- What is computed is refused or goes on. -/
theorem follows_done {α β : Type} {x : Except HttpResponse α} {f : α → ServerMethod HttpResponse β}
    {b : Except HttpResponse β × Unit} (h : Prog.Follows ((done x >>= f) ()) l (.ret b))
    (hx : ∀ e, x = .error e → Refusal e) :
    Refused l b ∨ ∃ a, x = .ok a ∧ Prog.Follows (f a ()) l (.ret b) := by
  rcases follows_done_bind.1 h with hgo | ⟨e, he, rfl, rfl⟩
  · exact Or.inr hgo
  · exact Or.inl ⟨⟨e, hx e he, rfl⟩, by simp⟩

/-- A handler refuses at once, or has found the writer. -/
theorem follows_knownIndex {β : Type} {f : Bytes → ServerMethod HttpResponse β}
    {b : Except HttpResponse β × Unit} (h : Prog.Follows ((knownIndex req >>= f) ()) l (.ret b)) :
    Refused l b ∨ ∃ name l', pathIndex req = .ok name ∧
      l = reply (.getWriter name) true :: l' ∧ Prog.Follows (f name ()) l' (.ret b) := by
  obtain ⟨⟨x, ⟨⟩⟩, l₁, l₂, rfl, hknown, hrest⟩ := Prog.follows_bind.1 h
  rcases follows_done hknown fun e ↦ refusal_pathIndex with
    ⟨⟨e, he, hx⟩, hstill⟩ | ⟨name, hname, hlookup⟩
  · cases hx
    obtain ⟨rfl, rfl⟩ := Prog.follows_ret.1 hrest
    rw [List.append_nil]
    exact Or.inl ⟨⟨e, he, rfl⟩, hstill⟩
  obtain ⟨(known : Bool), l', rfl, hfound⟩ := follows_perform_bind.1 hlookup
  cases known with
  | false =>
    rw [if_neg Bool.false_ne_true] at hfound
    obtain ⟨rfl, hx⟩ := follows_fail.1 hfound
    cases hx
    obtain ⟨rfl, rfl⟩ := Prog.follows_ret.1 hrest
    exact Or.inl ⟨⟨_, refusal_errorJson _ _ (by decide), rfl⟩, by simp [Effective]⟩
  | true =>
    rw [if_pos rfl] at hfound
    obtain ⟨rfl, hx⟩ := follows_pure.1 hfound
    cases hx
    exact Or.inr ⟨name, l₂, hname, rfl, hrest⟩

omit [LibcDecimal] in
/-- What `CreateIndex` looks at. -/
theorem follows_alreadyExists {name : Bytes} {x : Except HttpResponse Bool × Unit}
    (h : Prog.Follows (alreadyExists name ()) l (.ret x)) :
    ∃ taken, x = (.ok taken, ()) ∧ ∀ c ∈ l, ¬Effective c := by
  obtain ⟨(found : Bool), l', rfl, hrest⟩ := follows_perform_bind.1 h
  cases found with
  | false =>
    obtain ⟨rfl, rfl⟩ := follows_pure.1 hrest
    exact ⟨false, rfl, by simp [Effective]⟩
  | true =>
    obtain ⟨(taken : Bool), l'', rfl, hend⟩ := Prog.follows_call.1 hrest
    obtain ⟨rfl, rfl⟩ := Prog.follows_ret.1 hend
    exact ⟨taken, rfl, by simp [Effective]⟩

/-- A ranker is chosen, or the request refused. -/
theorem follows_chooseRanker {name : Bytes} {params : SortedMap Bytes Bytes}
    {x : Except HttpResponse (Option (FeatureVector R → R)) × Unit}
    (h : Prog.Follows (chooseRanker name params ()) l (.ret x)) :
    Refused l x ∨ ∃ ranker, x = (.ok ranker, ()) ∧ ∀ c ∈ l, ¬Effective c := by
  rw [chooseRanker] at h
  split_ifs at h with hasked hlinear hcatboost
  · obtain ⟨(ranker : Option LinearRanker), l', rfl, hrest⟩ := follows_perform_bind.1 h
    cases ranker with
    | none =>
      refine Or.inl ((refused_fail hrest ?_).cons (by simp [Effective]))
      exact refusal_errorJson _ _ (by decide)
    | some r =>
      obtain ⟨rfl, rfl⟩ := follows_pure.1 hrest
      exact Or.inr ⟨_, rfl, by simp [Effective]⟩
  · obtain ⟨rfl, rfl⟩ := follows_pure.1 h
    exact Or.inr ⟨_, rfl, by simp⟩
  · exact Or.inl (refused_fail h (refusal_errorJson _ _ (by decide)))
  · obtain ⟨rfl, rfl⟩ := follows_pure.1 h
    exact Or.inr ⟨_, rfl, by simp⟩

variable [SortByKey] [SortByScore]

/-- What `PostDoc` does. -/
theorem postDoc_cases (h : Prog.Follows (postDoc req ()) l (.ret (r, ()))) :
    Refused l (r, ()) ∨ Done toF64 req .postDoc l (responseOf r) := by
  rcases follows_knownIndex h with hrefused | ⟨name, l', hname, rfl, hbody⟩
  · exact Or.inl hrefused
  rcases follows_done hbody fun e ↦ refusal_readDocument with hrefused | ⟨doc, hdoc, hadd⟩
  · exact Or.inl (hrefused.cons (by simp [reply, Effective]))
  obtain ⟨(added : Expected Unit), l'', rfl, hend⟩ := follows_perform_bind.1 hadd
  cases added with
  | error e =>
    refine Or.inl (((refused_fail hend ?_).cons ?_).cons ?_)
    · exact refusal_errorJson _ _ (by decide)
    · simp [Effective, Except.isOk, Except.toBool]
    · simp [reply, Effective]
  | ok _ =>
    obtain ⟨rfl, hr⟩ := follows_pure.1 hend
    cases hr
    exact Or.inr (.posted hname hdoc)

/-- What `CreateIndex` does. -/
theorem createIndex_cases (h : Prog.Follows (createIndex req ()) l (.ret (r, ()))) :
    Refused l (r, ()) ∨ Done toF64 req .createIndex l (responseOf r) := by
  rcases follows_done h fun e ↦ refusal_indexName with hrefused | ⟨name, hname, hbody⟩
  · exact Or.inl hrefused
  rcases follows_done hbody fun e ↦ refusal_createdSchema with hrefused | ⟨schema, hschema, hmake⟩
  · exact Or.inl hrefused
  obtain ⟨⟨x, ⟨⟩⟩, checks, l', rfl, hchecks, hrest⟩ := Prog.follows_bind.1 hmake
  obtain ⟨taken, hx, hstill⟩ := follows_alreadyExists hchecks
  cases hx
  cases taken with
  | true =>
    refine Or.inl ((refused_fail (l := l') hrest ?_).append hstill)
    exact refusal_errorJson _ _ (by decide)
  | false =>
    obtain ⟨(made : Expected Unit), l₁, rfl, hopen⟩ := follows_perform_bind.1 hrest
    cases made with
    | error e =>
      refine Or.inl (((refused_fail hopen ?_).cons (by simp [Effective])).append hstill)
      exact refusal_errorJson _ _ (by decide)
    | ok _ =>
      obtain ⟨(opened : Expected Unit), l₂, rfl, hend⟩ := follows_perform_bind.1 hopen
      cases opened with
      | error e =>
        refine Or.inl ((((refused_fail hend ?_).cons ?_).cons (by simp [Effective])).append hstill)
        · exact refusal_errorJson _ _ (by decide)
        · simp [Effective, Except.isOk, Except.toBool]
      | ok _ =>
        obtain ⟨rfl, hr⟩ := follows_pure.1 hend
        cases hr
        exact Or.inr (.created hname hschema hchecks)

/-- What `Refresh` does. -/
theorem refresh_cases (h : Prog.Follows (refresh req ()) l (.ret (r, ()))) :
    Refused l (r, ()) ∨ Done toF64 req .refresh l (responseOf r) := by
  rcases follows_knownIndex h with hrefused | ⟨name, l', hname, rfl, hbody⟩
  · exact Or.inl hrefused
  obtain ⟨(refreshed : Expected Generation), l'', rfl, hend⟩ := follows_perform_bind.1 hbody
  cases refreshed with
  | error e =>
    refine Or.inl (((refused_fail hend ?_).cons ?_).cons (by simp [reply, Effective]))
    · exact refusal_errorJson _ _ (by decide)
    · simp [Effective, Except.isOk, Except.toBool]
  | ok gen =>
    obtain ⟨rfl, hr⟩ := follows_pure.1 hend
    cases hr
    exact Or.inr (.refreshed hname)

/-- What `GetLtr` does. -/
theorem getLtr_cases (h : Prog.Follows (getLtr req ()) l (.ret (r, ()))) :
    Refused l (r, ()) ∨ Done toF64 req .getLtr l (responseOf r) := by
  rcases follows_knownIndex h with hrefused | ⟨name, l', hname, rfl, hbody⟩
  · exact Or.inl hrefused
  obtain ⟨(ranker : Option LinearRanker), l'', rfl, hend⟩ := follows_perform_bind.1 hbody
  cases ranker with
  | none =>
    obtain ⟨rfl, hr⟩ := follows_pure.1 hend
    cases hr
    exact Or.inr (.noRanker hname)
  | some ranker =>
    obtain ⟨rfl, hr⟩ := follows_pure.1 hend
    cases hr
    exact Or.inr (.ranker hname)

/-- What `PutLtrLinear` does. -/
theorem putLtrLinear_cases (h : Prog.Follows (putLtrLinear req ()) l (.ret (r, ()))) :
    Refused l (r, ()) ∨ Done toF64 req .putLtrLinear l (responseOf r) := by
  rcases follows_knownIndex h with hrefused | ⟨name, l', hname, rfl, hbody⟩
  · exact Or.inl hrefused
  rcases follows_done hbody fun e ↦ refusal_readRanker with hrefused | ⟨ranker, hranker, hset⟩
  · exact Or.inl (hrefused.cons (by simp [reply, Effective]))
  obtain ⟨⟨⟩, l'', rfl, hend⟩ := follows_perform_bind.1 hset
  obtain ⟨rfl, hr⟩ := follows_pure.1 hend
  cases hr
  exact Or.inr (.rankerPut hname hranker)

/-- A search that is answered has a result. -/
theorem follows_searchReader {reader : IndexReader} {q : QueryAst} {opts : SearchOptions R}
    (h : Prog.Follows (searchReader toF64 reader q opts ()) l (.ret (r, ()))) :
    ∃ result, Query.search reader q opts = some result ∧ l = [] ∧
      r = .ok (jsonResponse 200 (searchJson toF64 result)) := by
  cases hresult : Query.search reader q opts with
  | some result =>
    rw [searchReader, hresult] at h
    obtain ⟨rfl, hr⟩ := follows_pure.1 h
    cases hr
    exact ⟨result, rfl, rfl, rfl⟩
  | none =>
    rw [searchReader, hresult] at h
    obtain ⟨never, -⟩ := follows_perform_bind.1 h
    exact never.elim

/-- What `Search` does. -/
theorem search_cases (h : Prog.Follows (search toF64 req ()) l (.ret (r, ()))) :
    Refused l (r, ()) ∨ Done toF64 req .search l (responseOf r) := by
  have hknown : ∀ name, ¬Effective (reply (.getWriter name) true) := by simp [reply, Effective]
  rcases follows_knownIndex h with hrefused | ⟨name, l', hname, rfl, hbody⟩
  · exact Or.inl hrefused
  obtain ⟨(current : Option IndexReader), l₁, rfl, hparams⟩ := follows_perform_bind.1 hbody
  have hstill : ¬Effective ⟨.currentReader name, current⟩ := by simp [Effective]
  cases current with
  | none =>
    refine Or.inl (((refused_fail hparams ?_).cons hstill).cons (hknown name))
    exact refusal_errorJson _ _ (by decide)
  | some reader =>
    rcases follows_done hparams fun e ↦ refusal_limitedParam with hrefused | ⟨size, hsize, hquery⟩
    · exact Or.inl ((hrefused.cons hstill).cons (hknown name))
    rcases follows_done hquery fun e ↦ refusal_readQuery with hrefused | ⟨q, hq, htops⟩
    · exact Or.inl ((hrefused.cons hstill).cons (hknown name))
    rcases follows_done htops fun e ↦ refusal_limitedParam with hrefused | ⟨top, htop, hrank⟩
    · exact Or.inl ((hrefused.cons hstill).cons (hknown name))
    obtain ⟨⟨x, ⟨⟩⟩, choice, l₂, rfl, hchoice, hend⟩ := Prog.follows_bind.1 hrank
    rcases follows_chooseRanker hchoice with hrefused | ⟨ranker, hx, -⟩
    · obtain ⟨⟨e, he, hx⟩, hchoices⟩ := hrefused
      cases hx
      obtain ⟨rfl, hr⟩ := Prog.follows_ret.1 hend
      cases hr
      rw [List.append_nil]
      exact Or.inl (((Refused.mk ⟨e, he, rfl⟩ hchoices).cons hstill).cons (hknown name))
    · cases hx
      obtain ⟨result, hresult, rfl, rfl⟩ := follows_searchReader hend
      rw [List.append_nil]
      exact Or.inr (.searched hname hsize hq htop hchoice hresult)

/-- **A handler** refuses a request, or is done with it. -/
theorem handle_cases {handler : Handler}
    (h : Prog.Follows (handle toF64 handler req ()) l (.ret (r, ()))) :
    Refused l (r, ()) ∨ Done toF64 req handler l (responseOf r) := by
  cases handler with
  | health =>
    obtain ⟨rfl, hr⟩ := follows_pure.1 h
    cases hr
    exact Or.inr .health
  | createIndex => exact createIndex_cases h
  | postDoc => exact postDoc_cases h
  | refresh => exact refresh_cases h
  | search => exact search_cases h
  | getLtr => exact getLtr_cases h
  | putLtrLinear => exact putLtrLinear_cases h

omit [SortByKey] [SortByScore] in
/-- A writer is found. -/
theorem follows_knownIndex_bind {β : Type} {f : Bytes → ServerMethod HttpResponse β}
    {b : Except HttpResponse β × Unit} (hname : pathIndex req = .ok name)
    (h : Prog.Follows (f name ()) l (.ret b)) :
    Prog.Follows ((knownIndex req >>= f) ()) (reply (.getWriter name) true :: l) (.ret b) := by
  refine Prog.follows_bind.2 ⟨(.ok name, ()), [reply (.getWriter name) true], l, rfl, ?_, h⟩
  refine follows_done_bind.2 (Or.inl ⟨name, hname, ?_⟩)
  exact follows_perform_bind.2 ⟨true, [], rfl, follows_pure.2 ⟨rfl, rfl⟩⟩

/-- **There is a path for all that a handler may do.** -/
theorem Done.follows {handler : Handler} (h : Done toF64 req handler l resp) :
    Prog.Follows (handle toF64 handler req ()) l (.ret (.ok resp, ())) := by
  cases h with
  | health => exact follows_pure.2 ⟨rfl, rfl⟩
  | created hname hschema hchecks =>
    refine follows_done_bind.2 (Or.inl ⟨_, hname, follows_done_bind.2 (Or.inl ⟨_, hschema, ?_⟩)⟩)
    refine Prog.follows_bind.2 ⟨_, _, _, rfl, hchecks, ?_⟩
    refine follows_perform_bind.2 ⟨Except.ok (), _, rfl, ?_⟩
    exact follows_perform_bind.2 ⟨Except.ok (), _, rfl, follows_pure.2 ⟨rfl, rfl⟩⟩
  | posted hname hdoc =>
    refine follows_knownIndex_bind hname (follows_done_bind.2 (Or.inl ⟨_, hdoc, ?_⟩))
    exact follows_perform_bind.2 ⟨Except.ok (), _, rfl, follows_pure.2 ⟨rfl, rfl⟩⟩
  | @refreshed name gen hname =>
    refine follows_knownIndex_bind hname ?_
    exact follows_perform_bind.2 ⟨Except.ok gen, _, rfl, follows_pure.2 ⟨rfl, rfl⟩⟩
  | noRanker hname =>
    refine follows_knownIndex_bind hname ?_
    exact follows_perform_bind.2 ⟨none, _, rfl, follows_pure.2 ⟨rfl, rfl⟩⟩
  | @ranker name r hname =>
    refine follows_knownIndex_bind hname ?_
    exact follows_perform_bind.2 ⟨some r, _, rfl, follows_pure.2 ⟨rfl, rfl⟩⟩
  | rankerPut hname hr =>
    refine follows_knownIndex_bind hname (follows_done_bind.2 (Or.inl ⟨_, hr, ?_⟩))
    exact follows_perform_bind.2 ⟨(), _, rfl, follows_pure.2 ⟨rfl, rfl⟩⟩
  | @searched name reader size top q ranker result choice hname hsize hq htop hchoice hresult =>
    refine follows_knownIndex_bind hname (follows_perform_bind.2 ⟨some reader, _, rfl, ?_⟩)
    refine follows_done_bind.2 (Or.inl ⟨_, hsize, follows_done_bind.2 (Or.inl ⟨_, hq, ?_⟩)⟩)
    refine follows_done_bind.2 (Or.inl ⟨_, htop, ?_⟩)
    refine Prog.follows_bind.2 ⟨_, choice, [], (List.append_nil _).symm, hchoice, ?_⟩
    show Prog.Follows (searchReader _ _ _ _ ()) _ _
    rw [searchReader, hresult]
    exact follows_pure.2 ⟨rfl, rfl⟩

theorem Done.follows_program {req' : HttpRequest} {handler : Handler}
    (hroute : dispatch routes req = .ok (handler, req')) (h : Done toF64 req' handler l resp) :
    Prog.Follows (Task.program toF64 (.request req)) l (.ret (.response resp)) := by
  refine Prog.follows_bind.2 ⟨resp, l, [], (List.append_nil l).symm, ?_, .refl _⟩
  rw [answerRequest, hroute]
  exact Prog.follows_bind.2 ⟨_, l, [], (List.append_nil l).symm, h.follows, .refl _⟩

/-- **What accounts for a response**: no route takes the request, or it was refused and no call that
changes an index succeeded, or its handler is done with it. -/
def Accounts (toF64 : R → F64) (req : HttpRequest) (l : List (Sigma ServerOp.Reply))
    (resp : HttpResponse) : Prop :=
  (dispatch routes req = .error resp ∧ l = []) ∨
    ∃ handler req', dispatch routes req = .ok (handler, req') ∧
      (Refusal resp ∧ (∀ c ∈ l, ¬Effective c) ∨ Done toF64 req' handler l resp)

/-- What a request is answered with. -/
theorem answerRequest_cases (h : Prog.Follows (answerRequest toF64 req) l (.ret resp)) :
    Accounts toF64 req l resp := by
  rw [answerRequest] at h
  split at h
  · next resp' hdispatch =>
    obtain ⟨rfl, rfl⟩ := Prog.follows_ret.1 h
    exact Or.inl ⟨hdispatch, rfl⟩
  · next handler req' hdispatch =>
    obtain ⟨⟨r, ⟨⟩⟩, l', l'', rfl, hhandle, hend⟩ := Prog.follows_bind.1 h
    obtain ⟨rfl, rfl⟩ := Prog.follows_ret.1 hend
    rw [List.append_nil]
    refine Or.inr ⟨handler, req', hdispatch, (handle_cases hhandle).imp_left fun hrefused ↦ ?_⟩
    obtain ⟨⟨e, he, hr⟩, hstill⟩ := hrefused
    cases hr
    exact ⟨he, hstill⟩

end Paths

/-! ### Threads -/

section Answers

variable {W R : Type} [Arith R] [SortByKey] [SortByScore] {toF64 : R → F64}
  {M : World ServerOp ServerOp.Reply W} {lost : W → W}
  {s₀ s s' : Threads ServerOp ServerOp.Reply Answer W}
  {es es' : List (ThreadEvent Task ServerOp ServerOp.Reply Answer)} {k : ℕ} {req : HttpRequest}
  {resp : HttpResponse}

/-- The calls of a request that is answered lead to its response. -/
theorem follows_answerRequest (h : Run (ThreadStep M lost (Task.program toF64)) s₀ es s)
    (hstart : ∀ k, s₀.running k = none)
    (h' : Run (ThreadStep M lost (Task.program toF64)) s es' s')
    (ha : Answered es' k (.request req) (.response resp)) :
    Prog.Follows (answerRequest toF64 req) (callsOf k es') (.ret resp) := by
  have hthrough := follows_of_answered h hstart h' ha
  obtain ⟨resp', l, l', hcalls, hanswer, hend⟩ := Prog.follows_bind.1 hthrough
  obtain ⟨rfl, heq⟩ := Prog.follows_ret.1 hend
  cases heq
  rwa [hcalls, List.append_nil]

end Answers

section Samples

/-- A request for an index, and one for a document. -/
def createTitles : HttpRequest where
  method := str "PUT"
  path := str "/a"
  body := @serialize .integral qualityIndex

def postTitle : HttpRequest where
  method := str "POST"
  path := str "/a/_doc"
  body := @serialize .integral qualityPost

/-- A request to the index. -/
def routed (req : HttpRequest) : HttpRequest :=
  { req with pathParams := SortedMap.empty.insert (str "index") (str "a") }

/-- What `CreateIndex` calls, and what it responds. -/
def createCalls : List (Sigma ServerOp.Reply) :=
  [reply (.directoryExists (str "a")) false,
    reply (.createDirectories (str "a")) (Except.ok () : Expected Unit),
    reply (.openWriter (str "a") (some titleSchema)) (Except.ok () : Expected Unit)]

def titlesCreated : HttpResponse :=
  @jsonResponse .integral 200 (mkObject
    [(str "acknowledged", .bool true), (str "index", .string (str "a"))])

def noSuchIndex : HttpResponse :=
  @errorJson .integral 404 (str "not_found") (str "no such index")

section Programs

omit [LibcDecimal]

variable {R : Type} [Arith R] [SortByKey] [SortByScore] (toF64 : R → F64)

theorem follows_createTitles : Prog.Follows (@Task.program .integral R _ _ _ toF64
    (.request createTitles)) createCalls (.ret (.response titlesCreated)) := by
  let _ := LibcDecimal.integral
  have hchecks : Prog.Follows (alreadyExists (str "a") ())
      [reply (.directoryExists (str "a")) false] (.ret (.ok false, ())) :=
    follows_perform_bind.2 ⟨false, [], rfl, follows_pure.2 ⟨rfl, rfl⟩⟩
  have hname : indexName (routed createTitles) = .ok (str "a") := rfl
  have hdone : Done toF64 (routed createTitles) .createIndex createCalls titlesCreated :=
    .created hname createdSchema_qualityIndex hchecks
  exact hdone.follows_program rfl

/-- A document that comes too early. -/
theorem follows_postTitle_early : Prog.Follows (@Task.program .integral R _ _ _ toF64
    (.request postTitle)) [reply (.getWriter (str "a")) false]
      (.ret (.response noSuchIndex)) := by
  let _ := LibcDecimal.integral
  refine Prog.follows_bind.2 ⟨_, _, [], (List.append_nil _).symm, ?_, .refl _⟩
  refine Prog.follows_bind.2 ⟨(.error _, ()), _, [], (List.append_nil _).symm, ?_, .refl _⟩
  refine Prog.follows_bind.2 ⟨(.error _, ()), _, [], (List.append_nil _).symm, ?_, .refl _⟩
  refine follows_done_bind.2 (Or.inl ⟨str "a", rfl, ?_⟩)
  exact follows_perform_bind.2 ⟨false, [], rfl, follows_fail.2 ⟨rfl, rfl⟩⟩

end Programs

/-- An index is created. -/
theorem returning_createCalls {F : Faults} {C : Root → Sigma ServerOp.Reply → Prop}
    {x : WriterState} (hstep : WriterStep F .start (.opened (some titleSchema) true) x)
    (hcond : ∀ c ∈ createCalls, C Root.start c) :
    Returning (serverWorld F) C Root.start createCalls (Root.start.put (str "a") x) := by
  rw [createCalls, List.forall_mem_cons, List.forall_mem_cons, List.forall_mem_singleton] at hcond
  obtain ⟨hexists, hdirectory, hopen⟩ := hcond
  refine .call rfl hexists (.call rfl hdirectory ?_)
  exact .call ⟨x, hstep, (if_pos rfl).symm ▸ rfl⟩ hopen (.refl _)

/-- Two requests that overlap: a document comes before its index is there. -/
def overlapping : List (ThreadEvent Task ServerOp ServerOp.Reply Answer) :=
  [.started 0 (.request createTitles), .started 1 (.request postTitle),
      .called 1 (.getWriter (str "a")) false] ++
    createCalls.map (fun c ↦ .called 0 c.1 c.2) ++
    [.ended 1 (.response noSuchIndex), .ended 0 (.response titlesCreated)]

omit [LibcDecimal] in
theorem exists_overlapping : ∃ s, Run (ThreadStep (@serverWorld .integral Faults.none) Root.lost
    (@Task.program .integral ℝ _ mergeSortByKey mergeSortByScore fun _ ↦ ⟨0⟩)) newServer
      overlapping s := by
  let _ := LibcDecimal.integral
  let _ := mergeSortByKey
  let _ := mergeSortByScore
  obtain ⟨t, -, hopen⟩ := step_opened Faults.none titleSchema
  have hfind : Returning (serverWorld Faults.none) (fun _ _ ↦ True) Root.start
      [reply (.getWriter (str "a")) false] Root.start := .call ⟨rfl, rfl⟩ trivial (.refl _)
  have hmake := returning_createCalls (C := fun _ _ ↦ True) hopen fun _ _ ↦ trivial
  set program := Task.program fun _ : ℝ ↦ (⟨0⟩ : F64)
  -- Both start, the second looks for the index, and the first makes it.
  let s₁ : Threads ServerOp ServerOp.Reply Answer Root := ⟨Root.start, Function.update
    (Function.update (fun _ ↦ none) 0 (some (program (.request createTitles)))) 1
    (some (program (.request postTitle))), 2⟩
  have hstart : Run (StepUnder (serverWorld Faults.none) Root.lost program fun _ _ ↦ True) newServer
      [.started 0 (.request createTitles), .started 1 (.request postTitle)] s₁ :=
    (Run.single (StepUnder.first newServer _)).step (StepUnder.first _ _)
  have hone : s₁.running 1 = some (program (.request postTitle)) := rfl
  obtain ⟨p₁, hp₁, hlook⟩ := hfind.goesOn (k := 1) (m := []) (s := s₁) rfl hone
    (follows_postTitle_early _)
  let s₂ : Threads ServerOp ServerOp.Reply Answer Root :=
    { s₁ with world := Root.start, running := Function.update s₁.running 1 (some p₁) }
  have hzero : s₂.running 0 = some (program (.request createTitles)) := rfl
  obtain ⟨p₀, hp₀, hcreate⟩ := hmake.goesOn (k := 0) (m := []) (s := s₂) rfl hzero
    (follows_createTitles _)
  obtain rfl : p₀ = .ret (.response titlesCreated) := by
    cases hp₀
    rfl
  obtain rfl : p₁ = .ret (.response noSuchIndex) := by
    cases hp₁
    rfl
  have hrun := (hstart.trans hlook).trans hcreate
  have hend := (hrun.step (.last (k := 1) rfl)).step (.last (k := 0) rfl)
  exact ⟨_, hend.mono fun _ _ _ h ↦ h.step⟩

end Samples

end Spp.Server
