import SearchPlusPlus.Index.Recovery
import SearchPlusPlus.Server.Responses

/-!
# An index behind the server

What the threads of the server do to one index is a run of its writer, as long as it is not opened
again while it is open (`durable_of_served`): `PostDoc` hands documents over as the writer wants
them (`loggable_readDocument`), and a crash of the server is one of the writer. So whatever requests
do in between, a document whose `POST` was answered 201 is found after every crash and restart
(`posted_found`).
-/

namespace Spp.Server

open Http Index Json Method Query Store

/-! ### Documents that are handed over -/

/-- Routing a request leaves its body. -/
theorem body_of_dispatch {req req' : HttpRequest} {handler : Handler}
    (h : dispatch routes req = .ok (handler, req')) : req'.body = req.body := by
  rcases dispatchLoop_spec req routes false with ⟨r, captured, -, hok, -⟩ | ⟨-, herror⟩
  · cases hok.symm.trans h
    rfl
  · cases herror.symm.trans h

section Posted

variable [LibcDecimal] {body : Bytes} {doc : Document}

theorem id_readMember (doc : Document) (p : Bytes × JsonValue) :
    (readMember doc p).id = doc.id := by
  rw [readMember]
  split_ifs
  · rfl
  · split
    · rfl
    · rw [readValue, readField]
      split_ifs
      · rfl
      · split <;> rfl

theorem id_postedDocument (obj : JsonObject) :
    (postedDocument obj).id = ((JsonValue.object obj).findString Schema.kIdField).getD [] :=
  List.foldlRecOn (motive := fun doc : Document ↦
      doc.id = ((JsonValue.object obj).findString Schema.kIdField).getD []) obj readMember rfl
    fun doc hdoc p _ ↦ (id_readMember doc p).trans hdoc

/-- The id is no field. -/
theorem find?_id_postedDocument {obj : JsonObject} (hobj : Assoc.Sorted obj) :
    (postedDocument obj).fields.find? Schema.kIdField = none := by
  have hother : ∀ doc p, p.1 ≠ Schema.kIdField →
      (readMember doc p).fields.find? Schema.kIdField = doc.fields.find? Schema.kIdField := by
    intro doc p hp
    rw [readMember]
    split_ifs
    · rfl
    · split
      · rfl
      · rw [readValue, readField]
        split_ifs
        · rfl
        · split
          · exact SortedMap.find?_insert_of_ne _ (Ne.symm hp) _
          · rfl
  refine (Assoc.foldl_part (fun doc : Document ↦ doc.fields.find? Schema.kIdField)
    Schema.kIdField (fun _ old ↦ old) hother (fun doc v ↦ ?_) hobj _).trans ?_
  · have hid : (Schema.kIdField, v).1 = str "_id" := rfl
    rw [readMember, if_pos hid]
  · cases Assoc.find? Schema.kIdField obj <;> rfl

/-- **`PostDoc` hands over** what a writer can log. -/
theorem loggable_readDocument (h : readDocument body = .ok doc) : Loggable doc body := by
  rw [readDocument, parseBody] at h
  cases hparse : Json.parse body with
  | error e =>
    rw [hparse] at h
    cases h
  | ok v =>
    rw [hparse] at h
    cases v with
    | object obj =>
      cases h
      exact ⟨find?_id_postedDocument (wellFormed_of_parse hparse).1,
        fun _ ↦ ⟨obj, hparse, id_postedDocument obj⟩⟩
    | null | bool | int | double | string | array => cases h

/-- The documents that a call hands over are read from the body. -/
def HandsOver : ServerOp → Prop
  | .addDocument _ doc rawJson => readDocument rawJson = .ok doc
  | _ => True

end Posted

section Calls

variable [LibcDecimal]

theorem calls_knownIndex (req : HttpRequest) {β : Type} {f : Bytes → ServerMethod HttpResponse β}
    (hf : ∀ name, (f name ()).Calls HandsOver) : ((knownIndex req >>= f) ()).Calls HandsOver := by
  refine calls_bind (calls_done_bind fun name _ ↦ calls_perform_bind trivial fun known ↦ ?_)
    fun name _ ↦ hf name
  split_ifs <;> trivial

theorem calls_postDoc (req : HttpRequest) : (postDoc req ()).Calls HandsOver := by
  refine calls_knownIndex req fun name ↦ calls_done_bind fun doc hdoc ↦
    calls_perform_bind hdoc fun added ↦ ?_
  cases (added : Expected Unit) <;> trivial

theorem calls_createIndex (req : HttpRequest) : (createIndex req ()).Calls HandsOver := by
  refine calls_done_bind fun name _ ↦ calls_done_bind fun schema _ ↦ calls_bind ?_ ?_
  · refine calls_perform_bind trivial fun found ↦ ?_
    cases (found : Bool) with
    | false => trivial
    | true => exact ⟨trivial, fun _ ↦ trivial⟩
  · intro taken _
    split_ifs
    · trivial
    · refine calls_perform_bind trivial fun made ↦ ?_
      cases (made : Expected Unit) with
      | error e => trivial
      | ok _ =>
        refine calls_perform_bind trivial fun opened ↦ ?_
        cases (opened : Expected Unit) <;> trivial

theorem calls_openAll (names : List Bytes) : (openAll names ()).Calls HandsOver := by
  induction names with
  | nil => trivial
  | cons name names ih => exact calls_perform_bind trivial fun _ ↦ ih

theorem calls_closeAll (names : List Bytes) : (closeAll names ()).Calls HandsOver := by
  induction names with
  | nil => trivial
  | cons name names ih =>
    exact calls_perform_bind trivial fun _ ↦ calls_perform_bind trivial fun _ ↦ ih

variable {R : Type} [Arith R] [SortByKey] [SortByScore]

theorem calls_searchReader (toF64 : R → F64) (reader : IndexReader) (q : QueryAst)
    (opts : SearchOptions R) : (searchReader toF64 reader q opts ()).Calls HandsOver := by
  rw [searchReader]
  cases Query.search reader q opts with
  | some result => trivial
  | none => exact ⟨trivial, fun never ↦ never.elim⟩

theorem calls_search (toF64 : R → F64) (req : HttpRequest) :
    (search toF64 req ()).Calls HandsOver := by
  refine calls_knownIndex req fun name ↦ calls_perform_bind trivial fun current ↦ ?_
  cases (current : Option IndexReader) with
  | none => trivial
  | some reader =>
    refine calls_done_bind fun size _ ↦ calls_done_bind fun q _ ↦ calls_done_bind fun top _ ↦
      calls_bind ?_ fun ranker _ ↦ ?_
    · rw [chooseRanker]
      split_ifs
      · refine calls_perform_bind trivial fun ranker ↦ ?_
        cases (ranker : Option LinearRanker) <;> trivial
      · trivial
      · trivial
      · trivial
    · exact calls_searchReader toF64 reader q _

theorem calls_handle (toF64 : R → F64) (handler : Handler) (req : HttpRequest) :
    (handle toF64 handler req ()).Calls HandsOver := by
  cases handler with
  | health => trivial
  | createIndex => exact calls_createIndex req
  | postDoc => exact calls_postDoc req
  | refresh =>
    refine calls_knownIndex req fun name ↦ calls_perform_bind trivial fun refreshed ↦ ?_
    cases (refreshed : Expected Generation) <;> trivial
  | search => exact calls_search toF64 req
  | getLtr =>
    refine calls_knownIndex req fun name ↦ calls_perform_bind trivial fun ranker ↦ ?_
    cases (ranker : Option LinearRanker) <;> trivial
  | putLtrLinear =>
    exact calls_knownIndex req fun name ↦ calls_done_bind fun r _ ↦
      calls_perform_bind trivial fun _ ↦ trivial

/-- **What the server hands over** is what `PostDoc` read from a body. -/
theorem calls_program (toF64 : R → F64) (task : Task) :
    (Task.program toF64 task).Calls HandsOver := by
  cases task with
  | start =>
    refine Prog.Calls.bind ?_ fun _ ↦ trivial
    exact calls_perform_bind trivial fun made ↦ calls_done_bind fun _ _ ↦
      calls_perform_bind trivial fun names ↦ calls_openAll names
  | request req =>
    refine Prog.Calls.bind ?_ fun _ ↦ trivial
    rw [answerRequest]
    split
    · trivial
    · exact (calls_handle toF64 _ _).bind fun _ ↦ trivial
  | stop =>
    refine Prog.Calls.bind ?_ fun _ ↦ trivial
    exact calls_perform_bind trivial fun names ↦ calls_closeAll names

end Calls

/-! ### The history of an index -/

section History

variable [LibcDecimal] (name : Bytes)

/-- What a call is to the writer of an index, once it has returned. -/
def calledEvent : (op : ServerOp) → op.Reply → Option WriterEvent
  | .openWriter n initial, r =>
    if n = name then some (.opened initial (Except.isOk (r : Expected Unit))) else none
  | .addDocument n doc rawJson, r =>
    if n = name then some (.added doc rawJson (Except.isOk (r : Expected Unit))) else none
  | .refresh n, r =>
    if n = name then some (.refreshed (Except.isOk (r : Expected Generation))) else none
  | .close n, _ => if n = name then some .closed else none
  | _, _ => none

/-- What a crash is to it, in the middle of a call or between two. -/
def cutEvent : Option ServerOp → WriterEvent
  | some (.openWriter n _) => if n = name then .openCut else .crashed
  | some (.addDocument n doc rawJson) => if n = name then .addCut doc rawJson else .crashed
  | some (.refresh n) => if n = name then .refreshCut else .crashed
  | _ => .crashed

/-- What an event of the server is to the writer of an index, if anything. -/
def indexEvent : ThreadEvent Task ServerOp ServerOp.Reply Answer → Option WriterEvent
  | .called _ op r => calledEvent name op r
  | .crashed cut => some (cutEvent name cut)
  | _ => none

/-- What happens to the writer of an index. -/
def indexEvents (es : List (ThreadEvent Task ServerOp ServerOp.Reply Answer)) : List WriterEvent :=
  es.filterMap (indexEvent name)

variable {name} {F : Faults} {s s' : Root}

omit [LibcDecimal] in
@[simp] theorem Root.index_put_self (s : Root) (x : WriterState) :
    (s.put name x).index name = x := Function.update_self ..

omit [LibcDecimal] in
theorem Root.index_put_of_ne (s : Root) {n : Bytes} (x : WriterState) (h : n ≠ name) :
    (s.put n x).index name = s.index name := Function.update_of_ne h.symm ..

omit [LibcDecimal] in
@[simp] theorem Root.index_lost (s : Root) : s.lost.index name = ⟨none, (s.index name).disk⟩ := rfl

/-- Between steps of another index, this one stays as it was. -/
theorem index_put {n : Bytes} {x : WriterState} {e : WriterEvent}
    (hstep : n = name → WriterStep F (s.index name) e x) :
    ((if n = name then some e else none) = none ∧ (s.put n x).index name = s.index name) ∨
      ∃ g, (if n = name then some e else none) = some g ∧
        WriterStep F (s.index name) g ((s.put n x).index name) := by
  by_cases hn : n = name
  · rw [if_pos hn]
    subst hn
    exact Or.inr ⟨e, rfl, (Root.index_put_self s x).symm ▸ hstep rfl⟩
  · rw [if_neg hn]
    exact Or.inl ⟨rfl, Root.index_put_of_ne s x hn⟩

/-- An `Open` that fails leaves no writer. -/
theorem writer_of_notOpened {x y : WriterState} {initial : Option Schema} {ok : Bool}
    (h : WriterStep F x (.opened initial ok) y) (hok : ¬ok = true) : y.writer = none := by
  cases h with
  | @opened _ r d _ hret =>
    cases r with
    | ok w => exact absurd rfl hok
    | error e => rfl

/-- **A call is a step of the index** it is about, unless it opens an index that is open. -/
theorem called_index {op : ServerOp} {r : op.Reply} (h : s.Replies F s' op r)
    (halone : ∀ initial ok, calledEvent name op r = some (.opened initial ok) →
      (s.index name).writer = none) :
    (calledEvent name op r = none ∧ s'.index name = s.index name) ∨
      ∃ g, calledEvent name op r = some g ∧ WriterStep F (s.index name) g (s'.index name) := by
  cases op with
  | openWriter n initial =>
    obtain ⟨x, hstep, rfl⟩ := h
    refine index_put fun hn ↦ ?_
    subst hn
    have hnone := halone _ _ (if_pos rfl)
    have hstate : (⟨none, (s.index n).disk⟩ : WriterState) = s.index n := by
      rw [← hnone]
    rw [hstate] at hstep
    split_ifs with hok
    · exact hstep
    · rw [hnone, ← writer_of_notOpened hstep hok]
      exact hstep
  | addDocument n doc rawJson =>
    obtain ⟨x, hstep, rfl⟩ := h
    exact index_put fun hn ↦ hn ▸ hstep
  | refresh n =>
    obtain ⟨x, hstep, -, rfl⟩ := h
    exact index_put fun hn ↦ hn ▸ hstep
  | close n =>
    obtain ⟨x, hstep, rfl⟩ := h
    exact index_put fun hn ↦ hn ▸ hstep
  | listWriters =>
    obtain ⟨-, -, -, rfl⟩ := h
    exact Or.inl ⟨rfl, rfl⟩
  | getWriter | currentReader | getLinearRanker =>
    obtain ⟨-, rfl⟩ := h
    exact Or.inl ⟨rfl, rfl⟩
  | createRoot | listDirectories | directoryExists | createDirectories | setLinearRanker
  | undefinedBehaviour =>
    obtain rfl := h
    exact Or.inl ⟨rfl, rfl⟩

/-- An index is opened, or a crash comes in the middle of that. -/
def Opens : WriterEvent → Prop
  | .opened .. | .openCut => True
  | _ => False

/-- A crash in the middle of a call for another index is one of this index between two calls. -/
theorem lost_put {n : Bytes} {x : WriterState} {g : WriterEvent}
    (hstep : n = name → WriterStep F (s.index name) g ⟨none, x.disk⟩) :
    WriterStep F (s.index name) (if n = name then g else .crashed)
      ((s.put n x).lost.index name) := by
  rw [Root.index_lost]
  by_cases hn : n = name
  · subst hn
    rw [if_pos rfl, Root.index_put_self]
    exact hstep rfl
  · rw [if_neg hn, Root.index_put_of_ne s x hn]
    exact .crashed

/-- **A crash is one of every index**. -/
theorem cut_index {op : ServerOp} (h : s.CutOff F s' op)
    (halone : Opens (cutEvent name (some op)) → (s.index name).writer = none) :
    WriterStep F (s.index name) (cutEvent name (some op)) (s'.lost.index name) := by
  cases op with
  | openWriter n initial =>
    obtain ⟨d, hstop, rfl⟩ := h
    refine lost_put fun hn ↦ ?_
    subst hn
    have hopens : Opens (cutEvent n (some (.openWriter n initial))) := by
      rw [cutEvent, if_pos rfl]
      trivial
    exact .openCut (halone hopens) hstop
  | addDocument n doc rawJson =>
    obtain ⟨x, hstep, rfl⟩ := h
    refine lost_put fun hn ↦ ?_
    subst hn
    cases hstep with
    | addCut _ _ hw hstop => exact .addCut doc rawJson hw hstop
  | refresh n =>
    obtain ⟨x, hstep, rfl⟩ := h
    refine lost_put fun hn ↦ ?_
    subst hn
    cases hstep with
    | refreshCut hw hstop => exact .refreshCut hw hstop
  | close | getWriter | currentReader | getLinearRanker | setLinearRanker | createRoot
  | listDirectories | listWriters | directoryExists | createDirectories | undefinedBehaviour =>
    obtain rfl := h
    exact .crashed

/-- What is handed over is promised. -/
theorem promised_calledEvent {op : ServerOp} {r : op.Reply} {g : WriterEvent}
    (h : HandsOver op) (hg : calledEvent name op r = some g) : g.Promised := by
  cases op with
  | addDocument n doc rawJson =>
    rw [calledEvent] at hg
    split_ifs at hg
    obtain rfl := Option.some.inj hg
    exact loggable_readDocument h
  | openWriter | refresh | close =>
    rw [calledEvent] at hg
    split_ifs at hg
    obtain rfl := Option.some.inj hg
    trivial
  | getWriter | currentReader | getLinearRanker | setLinearRanker | createRoot
  | listDirectories | listWriters | directoryExists | createDirectories | undefinedBehaviour =>
    cases hg

theorem promised_cutEvent {op : ServerOp} (h : HandsOver op) :
    (cutEvent name (some op)).Promised := by
  cases op with
  | addDocument n doc rawJson =>
    rw [cutEvent]
    split_ifs
    · exact loggable_readDocument h
    · trivial
  | openWriter | refresh =>
    rw [cutEvent]
    split_ifs <;> trivial
  | close | getWriter | currentReader | getLinearRanker | setLinearRanker | createRoot
  | listDirectories | listWriters | directoryExists | createDirectories | undefinedBehaviour =>
    trivial

/-! ### Runs of the server -/

variable {R : Type} [Arith R] [SortByKey] [SortByScore] {toF64 : R → F64}
  {t t' : Threads ServerOp ServerOp.Reply Answer Root}
  {e : ThreadEvent Task ServerOp ServerOp.Reply Answer}
  {es es' : List (ThreadEvent Task ServerOp ServerOp.Reply Answer)}

/-- What is asked of a step of an index: it is not opened while it is open, sizes fit, and nothing
is logged behind a torn record. -/
structure Orderly (s : WriterState) (g : WriterEvent) : Prop where
  alone : Opens g → s.writer = none
  fits : StepFits s g
  logSafe : LogSafe s g

variable (F toF64 name) in
/-- The steps of a server in which no file operation fails, as long as those of one index are
orderly. -/
structure ServedStep (t : Threads ServerOp ServerOp.Reply Answer Root)
    (e : ThreadEvent Task ServerOp ServerOp.Reply Answer)
    (t' : Threads ServerOp ServerOp.Reply Answer Root) : Prop where
  step : ThreadStep (serverWorld F.quiet) Root.lost (Task.program toF64) t e t'
  orderly : ∀ g, indexEvent name e = some g → Orderly (t.world.index name) g

/-- **Every step of the server** is one of the index, or leaves it as it was. -/
theorem ServedStep.durable (h : ServedStep name F toF64 t e t') (hcalls : t.Calls HandsOver) :
    (indexEvent name e = none ∧ t'.world.index name = t.world.index name) ∨
      ∃ g, indexEvent name e = some g ∧
        DurableStep F (t.world.index name) g (t'.world.index name) := by
  have hdurable : ∀ g, indexEvent name e = some g → g.Promised →
      WriterStep F.quiet (t.world.index name) g (t'.world.index name) →
        ∃ g, indexEvent name e = some g ∧
          DurableStep F (t.world.index name) g (t'.world.index name) := fun g hg hpromised hstep ↦
    ⟨g, hg, hstep, hpromised, (h.orderly g hg).fits, (h.orderly g hg).logSafe⟩
  have horderly := h.orderly
  cases h.step with
  | started | ended => exact Or.inl ⟨rfl, rfl⟩
  | called hk hret =>
    refine (called_index hret fun initial ok hg ↦ (horderly _ hg).alone trivial).imp_right ?_
    rintro ⟨g, hg, hstep⟩
    exact hdurable g hg (promised_calledEvent (hcalls _ _ hk).1 hg) hstep
  | crashed => exact Or.inr (hdurable _ rfl trivial .crashed)
  | cutOff hk hstop =>
    refine Or.inr (hdurable _ rfl (promised_cutEvent (hcalls _ _ hk).1) ?_)
    exact cut_index hstop (horderly _ rfl).alone

/-- **What the server does to an index is a run of its writer.** -/
theorem durable_of_served (h : Run (ServedStep name F toF64) newServer es t) :
    Run (DurableStep F) .start (indexEvents name es) (t.world.index name) := by
  have hcalls : newServer.Calls HandsOver := by rintro k p ⟨⟩
  refine (h.with_invariant (I := Threads.Calls HandsOver) hcalls ?_).part
    (fun t ↦ t.world.index name) (indexEvent name) fun t e t' hstep ↦ hstep.1.durable hstep.2
  exact fun t e t' hcalls hstep ↦ hstep.step.calls (calls_program toF64) hcalls

/-- What a served request asks of its calls. -/
def OrderlyCall (name : Bytes) (s : Root) (c : Sigma ServerOp.Reply) : Prop :=
  ∀ g, calledEvent name c.1 c.2 = some g → Orderly (s.index name) g

theorem ServedStep.of_under (h : StepUnder (serverWorld F.quiet) Root.lost (Task.program toF64)
    (OrderlyCall name) t e t') : ServedStep name F toF64 t e t' where
  step := h.step
  orderly g hg := by
    cases e with
    | called k op r => exact h.call k op r rfl g hg
    | crashed cut => exact absurd rfl (h.returned cut)
    | started | ended => cases hg

/-- A task that nothing comes in between. -/
theorem served_of_returning {x y : Root} {task : Task} {l : List (Sigma ServerOp.Reply)}
    {a : Answer} {k : ℕ} (h : Returning (serverWorld F.quiet) (OrderlyCall name) x l y)
    (hp : (Task.program toF64 task).Follows l (.ret a)) :
    Run (ServedStep name F toF64) ⟨x, fun _ ↦ none, k⟩ (served k task l a)
      ⟨y, fun _ ↦ none, k + 1⟩ :=
  (h.answered (s := ⟨x, fun _ ↦ none, k⟩) rfl hp).mono fun _ _ _ ↦ .of_under

omit [LibcDecimal] [SortByKey] [SortByScore] in
/-- A document that `PostDoc` has added was handed over by a call that returned. -/
theorem mem_indexEvents {k : ℕ} {doc : Document} {rawJson : Bytes}
    (h : reply (.addDocument name doc rawJson) (Except.ok () : Expected Unit) ∈ callsOf k es) :
    .added doc rawJson true ∈ indexEvents name es :=
  List.mem_filterMap.2 ⟨_, mem_callsOf.1 h, if_pos rfl⟩

/-- Only `PostDoc` answers 201. -/
theorem Accounts.posted_of_created {req req' : HttpRequest} {handler : Handler}
    {l : List (Sigma ServerOp.Reply)} {resp : HttpResponse} (h : Accounts toF64 req l resp)
    (hroute : dispatch routes req = .ok (handler, req')) (hname : pathIndex req' = .ok name)
    (hresp : resp.status = 201) :
    ∃ doc, readDocument req.body = .ok doc ∧
      reply (.addDocument name doc req.body) (Except.ok () : Expected Unit) ∈ l := by
  rcases h with ⟨herror, -⟩ | ⟨handler', req'', hok, hcases⟩
  · cases herror.symm.trans hroute
  obtain ⟨rfl, rfl⟩ := Prod.mk.inj (Except.ok.inj (hok.symm.trans hroute))
  rcases hcases with ⟨⟨status, hstatus, type, reason, rfl⟩, -⟩ | hdone
  · obtain rfl : status = 201 := hresp
    exact absurd hstatus (by decide)
  · have hbody := body_of_dispatch hroute
    cases hdone with
    | posted hname' hdoc =>
      obtain rfl := Except.ok.inj (hname'.symm.trans hname)
      rw [hbody] at hdoc ⊢
      exact ⟨_, hdoc, by simp⟩
    | health | created | refreshed | noRanker | ranker | rankerPut | searched => cases hresp

/-- **Posted documents are found**: whatever the threads of the server do, and however often it is
killed and started again, a writer of the index has every document whose `POST` was answered 201, in
a segment or in memory. -/
theorem posted_found {w : IndexWriter} {k : ℕ} {req req' : HttpRequest} {handler : Handler}
    {resp : HttpResponse} (h : Run (ServedStep name F toF64) newServer es t)
    (ha : Answered es k (.request req) (.response resp)) (hresp : resp.status = 201)
    (hroute : dispatch routes req = .ok (handler, req')) (hname : pathIndex req' = .ok name)
    (hw : (t.world.index name).writer = some w) :
    ∃ doc, readDocument req.body = .ok doc ∧
      (doc.id ∈ w.sealedSegments.flatMap (·.ids) ∨ doc.id ∈ w.mutableSegment.docIds) := by
  have hrun := h.mono fun _ _ _ hstep ↦ hstep.step
  have haccounts := answerRequest_cases (follows_answerRequest .start (fun _ ↦ rfl) hrun ha)
  obtain ⟨doc, hdoc, hadded⟩ := haccounts.posted_of_created hroute hname hresp
  obtain ⟨L, hkept, hfinds⟩ := exists_finding (durable_of_served h)
  exact ⟨doc, hdoc, hkept.finds hw (hfinds doc req.body (mem_indexEvents hadded))⟩

end History

/-! ### A server that is killed -/

section Samples

theorem exact_titleSchema : ∀ f ∈ titleSchema.fields, @FieldMapping.Exact .integral f := by
  intro f hf
  simp only [titleSchema, List.mem_cons, List.not_mem_nil, or_false] at hf
  rcases hf with rfl | rfl
  · exact IndexWriter.exact_integral rfl (.inl rfl)
  · exact IndexWriter.exact_integral rfl (.inl rfl)

/-- An index of titles is made and given a document. -/
theorem recoverable_titles {doc : Document} {body : Bytes}
    (hdoc : @readDocument .integral body = .ok doc) (hid : doc.id ≠ [])
    (hlen : (@logRecord .integral doc body).length < 2 ^ 32) : ∃ w w' t d, Translog.Usable t ∧
      w'.translog = some t ∧ w'.schema = titleSchema ∧
      w'.mutableSegment = @MutableSegment.accept .integral (.new titleSchema) doc ∧
      Whole (Disk.content d kTranslogName) ∧
      @RecoverableStep .integral Faults.none .start (.opened (some titleSchema) true)
        ⟨some w, @newDisk .integral titleSchema⟩ ∧
      @RecoverableStep .integral Faults.none ⟨some w, @newDisk .integral titleSchema⟩
        (.added doc body true) ⟨some w', d⟩ := by
  let _ := LibcDecimal.integral
  obtain ⟨t, ht, hopened⟩ := durable_opened Faults.none titleSchema
  have hopen := hopened.recoverable_opened <| by
    rintro _ ⟨⟩
    exact ⟨exact_titleSchema, by decide⟩
  have haccepts : (MutableSegment.new titleSchema).addDocument doc =
      .ok ((MutableSegment.new titleSchema).accept doc, 0) := if_neg hid
  obtain ⟨t', ht', hadded⟩ :=
    durable_added Faults.none ht (loggable_readDocument hdoc) hlen haccepts
  have hadd := hadded.recoverable_added <| by
    rintro _ ⟨⟩
    exact (by decide : (0 : ℕ) ≠ kNoMoreDocs)
  have hwhole : Whole ((IndexWriter.logged (newDisk titleSchema)
      (record (logRecord doc body))).content kTranslogName) := by
    rw [IndexWriter.logged, Disk.content_put, content_newDisk]
    exact whole_nil.append hlen
  exact ⟨_, _, t', _, ht', rfl, rfl, rfl, hwhole, hopen, hadd⟩

/-- An index that is made, given a document, and opened again. -/
theorem exists_titles : ∃ w₁ w₂ w₃ d₁ d₂,
    @RecoverableStep .integral Faults.none .start (.opened (some titleSchema) true) ⟨some w₁, d₁⟩ ∧
      @RecoverableStep .integral Faults.none ⟨some w₁, d₁⟩ (.added qualityDoc postTitle.body true)
        ⟨some w₂, d₂⟩ ∧
      @RecoverableStep .integral Faults.none ⟨none, d₂⟩ (.opened none true)
        ⟨some w₃, touched d₂⟩ := by
  let _ := LibcDecimal.integral
  obtain ⟨w₁, w₂, -, d, -, -, -, -, -, hopen, hadd⟩ :=
    recoverable_titles readDocument_qualityPost (by decide) (by decide +kernel)
  -- What is founded can be opened.
  have hrun := (Run.single hopen).step hadd
  obtain ⟨L, hrec⟩ := exists_recoverable hrun
  obtain ⟨schema, hfounded⟩ := hrec.founded.resolve_left fun h ↦ Option.some_ne_none _ h.2
  obtain ⟨L', hrec'⟩ := exists_recoverable (hrun.step (.of_crash _ _))
  have hfounded' : Founded ⟨none, _⟩ schema :=
    ⟨hfounded.exact, hfounded.hasId, hfounded.file, by rintro _ ⟨⟩⟩
  obtain ⟨t₃, w₃, -, hreopen⟩ := hrec'.reopens Faults.none rfl hfounded'
  exact ⟨w₁, w₂, w₃, _, d, hopen, hadd, hreopen⟩

/-- What `PostDoc` calls, and what it responds. -/
def postCalls : List (Sigma ServerOp.Reply) :=
  [reply (.getWriter (str "a")) true,
    reply (.addDocument (str "a") qualityDoc postTitle.body) (Except.ok () : Expected Unit)]

def titlePosted : HttpResponse :=
  @jsonResponse .integral 201 (mkObject
    [(str "result", .string (str "created")), (str "_id", .string (str "a")),
      (str "_index", .string (str "a"))])

/-- What `Start` calls. -/
def startCalls : List (Sigma ServerOp.Reply) :=
  [reply .createRoot (Except.ok () : Expected Unit), reply .listDirectories [str "a"],
    reply (.openWriter (str "a") none) (Except.ok () : Expected Unit)]

/-- An index is made and given a document; the server is killed, and started again. -/
def killed : List (ThreadEvent Task ServerOp ServerOp.Reply Answer) :=
  served 0 (.request createTitles) createCalls (.response titlesCreated) ++
    served 1 (.request postTitle) postCalls (.response titlePosted) ++ [.crashed none] ++
    served 2 .start startCalls (.done (.ok ()))

section Returns

variable [LibcDecimal] {F : Faults} {s : Root} {x : WriterState}

/-- A step of the index that is made by a call. -/
theorem orderlyCall_of_step {op : ServerOp} {r : op.Reply} {g : WriterEvent}
    (hstep : RecoverableStep F (s.index (str "a")) g x)
    (halone : Opens g → (s.index (str "a")).writer = none)
    (hg : calledEvent (str "a") op r = some g) : OrderlyCall (str "a") s ⟨op, r⟩ := by
  intro g' hg'
  obtain rfl := Option.some.inj (hg.symm.trans hg')
  exact ⟨halone, hstep.fits, hstep.logSafe⟩

theorem orderlyCall_of_none {op : ServerOp} {r : op.Reply}
    (hnone : calledEvent (str "a") op r = none) : OrderlyCall (str "a") s ⟨op, r⟩ := by
  intro g hg
  cases hnone.symm.trans hg

theorem returning_createCalls_orderly
    (hstep : RecoverableStep F .start (.opened (some titleSchema) true) x) :
    Returning (serverWorld F.quiet) (OrderlyCall (str "a")) Root.start createCalls
      (Root.start.put (str "a") x) := by
  refine returning_createCalls hstep.step ?_
  rw [createCalls, List.forall_mem_cons, List.forall_mem_cons, List.forall_mem_singleton]
  exact ⟨orderlyCall_of_none rfl, orderlyCall_of_none rfl,
    orderlyCall_of_step hstep (fun _ ↦ rfl) rfl⟩

theorem returning_postCalls {w : IndexWriter} (hw : (s.index (str "a")).writer = some w)
    (hstep : RecoverableStep F (s.index (str "a")) (.added qualityDoc postTitle.body true) x) :
    Returning (serverWorld F.quiet) (OrderlyCall (str "a")) s postCalls (s.put (str "a") x) := by
  have hknown : true = (s.index (str "a")).writer.isSome := by rw [hw, Option.isSome_some]
  refine .call ⟨hknown, rfl⟩ (orderlyCall_of_none rfl) ?_
  exact .call ⟨x, hstep.step, rfl⟩ (orderlyCall_of_step hstep False.elim rfl) (.refl _)

theorem returning_startCalls (hnone : (s.index (str "a")).writer = none)
    (hstep : RecoverableStep F (s.index (str "a")) (.opened none true) x) :
    Returning (serverWorld F.quiet) (OrderlyCall (str "a")) s startCalls (s.put (str "a") x) := by
  have hclosed : (⟨none, (s.index (str "a")).disk⟩ : WriterState) = s.index (str "a") := by
    rw [← hnone]
  refine .call rfl (orderlyCall_of_none rfl) (.call rfl (orderlyCall_of_none rfl) ?_)
  refine .call ⟨x, hclosed ▸ hstep.step, (if_pos rfl).symm ▸ rfl⟩ ?_ (.refl _)
  exact orderlyCall_of_step hstep (fun _ ↦ hnone) rfl

end Returns

section Programs

variable {R : Type} [Arith R] [SortByKey] [SortByScore] (toF64 : R → F64)

theorem follows_postTitle : Prog.Follows (@Task.program .integral R _ _ _ toF64
    (.request postTitle)) postCalls (.ret (.response titlePosted)) := by
  let _ := LibcDecimal.integral
  have hname : pathIndex (routed postTitle) = .ok (str "a") := rfl
  have hdone : Done toF64 (routed postTitle) .postDoc postCalls titlePosted :=
    .posted hname readDocument_qualityPost
  exact hdone.follows_program rfl

theorem follows_start : Prog.Follows (@Task.program .integral R _ _ _ toF64 .start) startCalls
    (.ret (.done (.ok ()))) := by
  let _ := LibcDecimal.integral
  refine Prog.follows_bind.2 ⟨(.ok (), ()), _, [], (List.append_nil _).symm, ?_, .refl _⟩
  refine follows_perform_bind.2 ⟨Except.ok (), _, rfl, ?_⟩
  refine follows_done_bind.2 (Or.inl ⟨(), rfl, ?_⟩)
  refine follows_perform_bind.2 ⟨[str "a"], _, rfl, ?_⟩
  exact follows_perform_bind.2 ⟨Except.ok (), [], rfl, follows_pure.2 ⟨rfl, rfl⟩⟩

theorem exists_killed : ∃ t w, Run (@ServedStep .integral (str "a") Faults.none R _ _ _ toF64)
    newServer killed t ∧ (t.world.index (str "a")).writer = some w := by
  let _ := LibcDecimal.integral
  obtain ⟨w₁, w₂, w₃, d₁, d₂, hopen, hadd, hreopen⟩ := exists_titles
  set s₁ := Root.start.put (str "a") ⟨some w₁, d₁⟩
  set s₂ := s₁.put (str "a") ⟨some w₂, d₂⟩
  have hindex₁ : s₁.index (str "a") = ⟨some w₁, d₁⟩ := Root.index_put_self ..
  have hindex₂ : s₂.lost.index (str "a") = ⟨none, d₂⟩ := by
    rw [Root.index_lost, Root.index_put_self]
  have hcreated : Run (ServedStep (str "a") Faults.none toF64) newServer
      (served 0 (.request createTitles) createCalls (.response titlesCreated))
      ⟨s₁, fun _ ↦ none, 1⟩ :=
    served_of_returning (returning_createCalls_orderly hopen) (follows_createTitles toF64)
  have hposted : Run (ServedStep (str "a") Faults.none toF64) ⟨s₁, fun _ ↦ none, 1⟩
      (served 1 (.request postTitle) postCalls (.response titlePosted)) ⟨s₂, fun _ ↦ none, 2⟩ :=
    served_of_returning (returning_postCalls (congrArg _ hindex₁) (hindex₁ ▸ hadd))
      (follows_postTitle toF64)
  have hcrashed : ServedStep (str "a") Faults.none toF64 ⟨s₂, fun _ ↦ none, 2⟩ (.crashed none)
      ⟨s₂.lost, fun _ ↦ none, 2⟩ := by
    refine ⟨.crashed, ?_⟩
    rintro g ⟨⟩
    have hcrash := RecoverableStep.of_crash Faults.none (s₂.index (str "a"))
    exact ⟨False.elim, hcrash.fits, hcrash.logSafe⟩
  have hstarted : Run (ServedStep (str "a") Faults.none toF64) ⟨s₂.lost, fun _ ↦ none, 2⟩
      (served 2 .start startCalls (.done (.ok ())))
      ⟨s₂.lost.put (str "a") ⟨some w₃, touched d₂⟩, fun _ ↦ none, 3⟩ :=
    served_of_returning (returning_startCalls (congrArg _ hindex₂) (hindex₂ ▸ hreopen))
      (follows_start toF64)
  exact ⟨_, w₃, ((hcreated.trans hposted).step hcrashed).trans hstarted,
    congrArg _ (Root.index_put_self ..)⟩

end Programs

theorem posted_found_sample : ∃ t w,
    Run (@ServedStep .integral (str "a") Faults.none ℝ _ mergeSortByKey mergeSortByScore
      fun _ ↦ ⟨0⟩) newServer killed t ∧ (t.world.index (str "a")).writer = some w ∧
    ∃ doc, @readDocument .integral postTitle.body = .ok doc ∧
      (doc.id ∈ w.sealedSegments.flatMap (@SegmentReader.ids .integral) ∨
        doc.id ∈ w.mutableSegment.docIds) := by
  let _ := LibcDecimal.integral
  let _ := mergeSortByKey
  let _ := mergeSortByScore
  obtain ⟨t, w, h, hw⟩ := exists_killed fun _ : ℝ ↦ (⟨0⟩ : F64)
  have hanswered : Answered killed 1 (.request postTitle) (.response titlePosted) :=
    ⟨by simp [killed, served], by simp [killed, served]⟩
  have hname : pathIndex (routed postTitle) = .ok (str "a") := rfl
  exact ⟨t, w, h, hw, posted_found h hanswered rfl rfl hname hw⟩

end Samples

end Spp.Server
