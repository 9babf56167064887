import SearchPlusPlus.Index.LedgerRun

/-!
# What survives a crash

An acknowledged document is found after every restart (`acked_found`): a `Refresh` lists a segment
before it truncates the log, and `Open` replays what the log has. This fails once a record is
appended to a torn one, which nothing removes (`not_acked_found`).
-/

namespace Spp.Index

open Json Store

variable [LibcDecimal]

/-! ### Acknowledged documents -/

/-- The documents that are handed over are promised to be such. -/
def WriterEvent.Promised : WriterEvent → Prop
  | .added doc rawJson _ | .addCut doc rawJson => Loggable doc rawJson
  | _ => True

/-- No crash. -/
def WriterEvent.Returned : WriterEvent → Prop
  | .openCut | .addCut .. | .refreshCut | .crashed => False
  | _ => True

/-- The steps of an index in which crashes come between file operations or cut them off, and no
operation fails, as long as sizes fit and nothing is appended to a torn record. -/
structure DurableStep (F : Faults) (s : WriterState) (e : WriterEvent) (s' : WriterState) :
    Prop where
  step : WriterStep F.quiet s e s'
  promised : e.Promised
  fits : StepFits s e
  logSafe : LogSafe s e

section Acked

variable {L L' : Ledger} {e : WriterEvent} {id : Bytes}

/-- A document of this id would be found, by a restart and in the writer there is. -/
structure Ledger.Finds (L : Ledger) (id : Bytes) : Prop where
  kept : id ∈ L.shelves.flatten.map (·.id) ∨ id ∈ L.log.filterMap replayedId
  held : ∀ docs, L.pending = some docs → id ∈ L.shelves.flatten.map (·.id) ∨ id ∈ docs.map (·.id)

/-- What is on a shelf is found. -/
theorem Ledger.Finds.of_shelved (h : id ∈ L.shelves.flatten.map (·.id)) : L.Finds id :=
  ⟨Or.inl h, fun _ _ ↦ Or.inl h⟩

theorem Ledger.Finds.of_log {log : List Bytes} (h : L.Finds id)
    (hsub : L.log.filterMap replayedId ⊆ log.filterMap replayedId) :
    Ledger.Finds { L with log } id :=
  ⟨h.kept.imp_right (hsub ·), h.held⟩

theorem Ledger.Finds.of_crash (h : L.Finds id) : Ledger.Finds { L with pending := none } id where
  kept := h.kept
  held := by rintro _ ⟨⟩

/-- A shelf more holds what was pending. -/
theorem Ledger.Finds.shelved {docs : List Document} (h : L.Finds id)
    (hdocs : L.pending = some docs) : id ∈ (L.shelves ++ [docs]).flatten.map (·.id) := by
  rw [List.flatten_append, List.flatten_singleton, List.map_append, List.mem_append]
  exact h.held docs hdocs

theorem replayedIds_append (recs recs' : List Bytes) :
    recs.filterMap replayedId ⊆ (recs ++ recs').filterMap replayedId := by
  rw [List.filterMap_append]
  exact List.subset_append_left ..

/-- **What is found stays found.** -/
theorem LedgerStep.finds (hstep : LedgerStep False L e L') (h : L.Finds id) : L'.Finds id := by
  cases hstep with
  | opened =>
    refine ⟨h.kept, ?_⟩
    rintro _ ⟨⟩
    rw [map_id_replayedDocs]
    exact h.kept
  | notOpened | openCut | refused | notSealed | idle => exact h
  | notLogged hloose | notTruncated hloose => exact hloose.elim
  | rejected _ _ hlog =>
    obtain rfl := hlog.resolve_left not_false
    exact h.of_log (replayedIds_append _ _)
  | @accepted docs doc rawJson log hdocs _ hlog =>
    obtain rfl := hlog.resolve_left not_false
    refine ⟨(h.of_log (replayedIds_append _ _)).kept, ?_⟩
    rintro _ ⟨⟩
    rw [List.map_append, List.mem_append]
    exact (h.held docs hdocs).imp_right Or.inl
  | addCut hlog =>
    rcases hlog.resolve_left not_false with rfl | rfl
    · exact h.of_crash
    · exact (h.of_log (replayedIds_append _ _)).of_crash
  | shelved hdocs | savedCut hdocs | truncatedCut hdocs => exact .of_shelved (h.shelved hdocs)
  | sealCut | closed | crashed => exact h.of_crash

/-- An acknowledged document is found. -/
theorem LedgerStep.finds_added {doc : Document} {rawJson : Bytes} (h : Loggable doc rawJson)
    (hstep : LedgerStep False L (.added doc rawJson true) L') : L'.Finds doc.id := by
  cases hstep with
  | @accepted docs _ _ log hdocs hid hlog =>
    obtain rfl := hlog.resolve_left not_false
    constructor
    · refine Or.inr (List.mem_filterMap.2
        ⟨_, List.mem_append_right _ (List.mem_singleton_self _), ?_⟩)
      rw [replayedId_logRecord h, if_neg hid]
    · rintro _ ⟨⟩
      rw [List.map_append]
      exact Or.inr (List.mem_append_right _ (List.mem_singleton_self _))

theorem finds_of_run {es : List WriterEvent}
    (h : Run (fun L e L' ↦ LedgerStep False L e L' ∧ e.Promised) {} es L) :
    ∀ doc rawJson, .added doc rawJson true ∈ es → L.Finds doc.id := by
  refine h.invariant_events (I := fun es L ↦
    ∀ doc rawJson, .added doc rawJson true ∈ es → L.Finds doc.id) (by simp) ?_
  rintro es L e L' ih ⟨hstep, hpromised⟩ doc rawJson hmem
  rcases List.mem_append.1 hmem with hmem | hmem
  · exact hstep.finds (ih doc rawJson hmem)
  · obtain rfl := List.mem_singleton.1 hmem
    exact hstep.finds_added hpromised

end Acked

section Found

variable {F : Faults} {es : List WriterEvent} {s : WriterState} {w : IndexWriter} {L : Ledger}

/-- A run has a ledger, and what was acknowledged is found in it. -/
theorem exists_finding (h : Run (DurableStep F) .start es s) :
    ∃ L, Kept False s L ∧ ∀ doc rawJson, .added doc rawJson true ∈ es → L.Finds doc.id := by
  obtain ⟨L, hrun, hkept, -⟩ := exists_ledger False (DurableStep F) (fun _ e _ ↦ e.Promised)
    (fun _ _ _ _ h ↦ ⟨F.quiet, h.step, h.fits, Or.inl (savesManifest_quiet F),
      Or.inr ⟨F.quiet_quiet, h.logSafe⟩⟩)
    (fun _ _ _ _ _ _ _ h ↦ h.promised) (kept_start False) WriterState.ready_start h
  exact ⟨L, hkept, finds_of_run hrun⟩

/-- The manifest lists the segments of the writer. -/
theorem Kept.listed {loose : Prop} (h : Kept loose s L) (hw : s.writer = some w) :
    Manifest.ofDisk s.disk = .ok (manifestOf w.currentGen w.sealedSegments) := by
  obtain ⟨docs, -, hkeeps⟩ := h.writer w hw
  exact hkeeps.manifest

/-- The writer has what is found, in a segment or in memory. -/
theorem Kept.finds {loose : Prop} {id : Bytes} (h : Kept loose s L) (hw : s.writer = some w)
    (hfinds : L.Finds id) :
    id ∈ w.sealedSegments.flatMap (·.ids) ∨ id ∈ w.mutableSegment.docIds := by
  obtain ⟨docs, hdocs, hkeeps⟩ := h.writer w hw
  rw [flatMap_ids hkeeps.segments, hkeeps.pending]
  exact hfinds.held docs hdocs

/-- **Acknowledged documents are durable**: the writer of any later state, one just opened
included, has each of them in a segment that the manifest lists or in memory. -/
theorem acked_found {F : Faults} {es : List WriterEvent} {s : WriterState} {w : IndexWriter}
    (h : Run (DurableStep F) .start es s) (hw : s.writer = some w) :
    Manifest.ofDisk s.disk = .ok (manifestOf w.currentGen w.sealedSegments) ∧
      ∀ doc rawJson, .added doc rawJson true ∈ es →
        doc.id ∈ w.sealedSegments.flatMap (·.ids) ∨ doc.id ∈ w.mutableSegment.docIds := by
  obtain ⟨L, hkept, hfinds⟩ := exists_finding h
  exact ⟨hkept.listed hw, fun doc rawJson hmem ↦ hkept.finds hw (hfinds doc rawJson hmem)⟩

end Found

/-! ### A torn record -/

/-- A crash in `AddDocument` leaves the first `n` bytes of its record. -/
def LeavesBytes (n : ℕ) (s : WriterState) (e : WriterEvent) (s' : WriterState) : Prop :=
  ∀ doc rawJson, e = .addCut doc rawJson →
    s'.disk = IndexWriter.logged s.disk ((record (logRecord doc rawJson)).take n)

/-- Acknowledged documents would be found, where these are the crashes in `AddDocument`. -/
def FindsAcked (n : ℕ) : Prop :=
  ∀ (F : Faults) (es : List WriterEvent) (s : WriterState) (w : IndexWriter),
    Run (fun s e s' ↦ WriterStep F.quiet s e s' ∧ e.Promised ∧ LeavesBytes n s e s') .start es s →
      s.writer = some w → ∀ doc rawJson, .added doc rawJson true ∈ es →
        doc.id ∈ w.sealedSegments.flatMap (·.ids) ∨ doc.id ∈ w.mutableSegment.docIds

section Torn

variable {F : Faults} {w : IndexWriter} {t : Translog}

/-- A crash in `Append` is one in `AddDocument`. -/
theorem stops_addDocument (ht : w.translog = some t) {doc : Document} {rawJson : Bytes}
    {d d' : Disk} (h : (Translog.append (logRecord doc rawJson) t).Stops (files F) d d') :
    (IndexWriter.addDocument doc rawJson w).Stops (files F) d d' := by
  show Prog.Stops _ (Prog.bind _ _) _ _
  refine Prog.stops_bind_of_returns (a := (.ok w, w)) ⟨rfl, rfl⟩ ?_
  show Prog.Stops _ (Method.andThen _ (.ok w, w)) _ _
  rw [Method.andThen, ht]
  exact Prog.stops_bind _ (Prog.stops_bind _ h)

/-- A crash between the two writes of a record. -/
theorem stops_addDocument_header (ht : w.translog = some t) (husable : t.Usable) (doc : Document)
    (rawJson : Bytes) (d : Disk) :
    (IndexWriter.addDocument doc rawJson w).Stops (files F) d
      (IndexWriter.logged d (recordHeader (logRecord doc rawJson))) := by
  obtain ⟨⟨path, n, closed⟩, hsink, rfl, rfl⟩ := husable
  obtain ⟨sink, bytes⟩ := t
  obtain rfl : sink = _ := hsink
  exact stops_addDocument ht (Or.inr (Or.inr ⟨.ok (), _, Or.inl rfl, Prog.stops_start _ _⟩))

/-- A crash in the second of them, with `k` bytes of the payload written. -/
theorem stops_addDocument_torn (htorn : F.torn) (ht : w.translog = some t) (husable : t.Usable)
    {doc : Document} {rawJson : Bytes} (hne : logRecord doc rawJson ≠ []) (k : ℕ) (d : Disk) :
    (IndexWriter.addDocument doc rawJson w).Stops (files F) d
      (IndexWriter.logged d
        (recordHeader (logRecord doc rawJson) ++ (logRecord doc rawJson).take k)) := by
  obtain ⟨⟨path, n, closed⟩, hsink, rfl, rfl⟩ := husable
  obtain ⟨sink, bytes⟩ := t
  obtain rfl : sink = _ := hsink
  have hsecond : IndexWriter.logged d
      (recordHeader (logRecord doc rawJson) ++ (logRecord doc rawJson).take k) =
      IndexWriter.logged (IndexWriter.logged d (recordHeader (logRecord doc rawJson)))
        ((logRecord doc rawJson).take k) := by
    rw [IndexWriter.logged, IndexWriter.logged, IndexWriter.logged, Disk.content_put, Disk.put_put,
      List.append_assoc]
  refine stops_addDocument ht (Or.inr (Or.inr ⟨.ok (), _, Or.inl rfl, ?_⟩))
  rw [hsecond]
  generalize logRecord doc rawJson = payload at hne ⊢
  cases payload with
  | nil => exact absurd rfl hne
  | cons => exact Or.inr (Or.inl ⟨htorn, k, rfl⟩)

omit [LibcDecimal] in
theorem take_record (p : Bytes) (k : ℕ) : (record p).take (4 + k) = recordHeader p ++ p.take k := by
  have hhdr : (recordHeader p).length = 4 := by simp [recordHeader]
  rw [record, ← hhdr, List.take_length_add_append]

omit [LibcDecimal] in
/-- A torn record takes the next one for the rest of its payload. -/
theorem records_torn_append {p q : Bytes} {n : ℕ} (hlen : p.length < 2 ^ 32) (h4 : 4 ≤ n)
    (hlong : n + q.length < p.length) : records ((record p).take n ++ record q) = [] := by
  obtain ⟨k, rfl⟩ := Nat.exists_eq_add_of_le h4
  have hhdr : (recordHeader p).length = 4 := by simp [recordHeader]
  have hbytes : ((record p).take (4 + k) ++ record q).length = 4 + k + (4 + q.length) := by
    rw [List.length_append, List.length_take, record_length, record_length]
    omega
  have htake : ((record p).take (4 + k) ++ record q).take 4 = recordHeader p := by
    rw [take_record, List.append_assoc, ← hhdr, List.take_left]
  rw [records_eq_nil_iff (by omega), htake, unpackLE_recordHeader hlen, hbytes]
  omega

end Torn

/-! ### A new index -/

section New

variable {schema : Schema} {t : Translog}

/-- The files of a new index. -/
def newDisk (schema : Schema) : Disk :=
  touched (IndexWriter.noFiles.put kSchemaFilename schema.toText)

theorem content_newDisk (schema : Schema) : (newDisk schema).content kTranslogName = [] := by
  rw [newDisk, touched, Disk.content_put, Disk.content, Disk.put_of_ne _ (by decide)]
  rfl

theorem durable_opened (F : Faults) (schema : Schema) :
    ∃ t, Translog.Usable t ∧ DurableStep F .start (.opened (some schema) true)
      ⟨some (IndexWriter.fresh schema t), newDisk schema⟩ := by
  obtain ⟨t, ht, hopen⟩ := step_opened F.quiet schema
  exact ⟨t, ht, hopen, trivial, .of_not_refresh (by simp) (by simp),
    .of_not_add (by simp) (by simp)⟩

/-- A document is added behind whole records. -/
theorem durable_added_whole (F : Faults) {s : WriterState} {w : IndexWriter}
    (hw : s.writer = some w) (hready : s.Ready) (ht : w.translog = some t) (husable : t.Usable)
    (hwhole : Whole (s.disk.content kTranslogName)) {doc : Document} {rawJson : Bytes}
    {seg : MutableSegment} {n : ℕ} (hloggable : Loggable doc rawJson)
    (hlen : (logRecord doc rawJson).length < 2 ^ 32)
    (hadd : w.mutableSegment.addDocument doc = .ok (seg, n)) :
    ∃ t', Translog.Usable t' ∧ DurableStep F s (.added doc rawJson true)
      ⟨some { w with translog := some t', mutableSegment := seg },
        IndexWriter.logged s.disk (record (logRecord doc rawJson))⟩ := by
  obtain ⟨t', ht', hstep⟩ := step_added F.quiet hw hready ht husable hadd
  refine ⟨t', ht', hstep, hloggable, .of_not_refresh (by simp) (by simp), ?_⟩
  rintro _ _ (he | ⟨_, he⟩) <;> cases he
  exact ⟨hlen, hwhole.unread_eq⟩

/-- Its first document. -/
theorem durable_added (F : Faults) (ht : t.Usable) {doc : Document} {rawJson : Bytes}
    {seg : MutableSegment} {n : ℕ} (hloggable : Loggable doc rawJson)
    (hlen : (logRecord doc rawJson).length < 2 ^ 32)
    (hadd : (MutableSegment.new schema).addDocument doc = .ok (seg, n)) :
    ∃ t', Translog.Usable t' ∧ DurableStep F ⟨some (IndexWriter.fresh schema t), newDisk schema⟩
      (.added doc rawJson true)
      ⟨some { IndexWriter.fresh schema t with translog := some t', mutableSegment := seg },
        IndexWriter.logged (newDisk schema) (record (logRecord doc rawJson))⟩ := by
  have hwhole : Whole ((newDisk schema).content kTranslogName) := by
    rw [content_newDisk]
    exact whole_nil
  exact durable_added_whole F rfl (ht.ready rfl _) rfl ht hwhole hloggable hlen hadd

end New

section Samples

omit [LibcDecimal]

/-- A new index of `sampleSchema`. -/
def freshDisk : Disk :=
  touched (IndexWriter.noFiles.put kSchemaFilename (@Schema.toText .integral sampleSchema))

/-- A document whose record is longer than the buffer of `fwrite`. -/
def longDoc : Document := { sampleDoc with id := List.replicate 5000 97 }

theorem loggable_sampleDoc : @Loggable .integral sampleDoc [] :=
  @Loggable.mk .integral _ _ (by decide +kernel) fun h ↦ absurd rfl h

theorem loggable_longDoc : @Loggable .integral longDoc [] :=
  @Loggable.mk .integral _ _ (by decide +kernel) fun h ↦ absurd rfl h

theorem shortRecord_sampleDoc : (@logRecord .integral sampleDoc []).length < 2 ^ 32 := by
  decide +kernel

/-- The first 4096 bytes of its record and that of `sampleDoc` are no whole record. -/
theorem longRecord_longDoc : (@logRecord .integral longDoc []).length < 2 ^ 32 ∧
    4096 + (@logRecord .integral sampleDoc []).length <
      (@logRecord .integral longDoc []).length := by
  decide +kernel

/-- The record of `sampleDoc` stands for it. -/
theorem replayRecords_sample : @replayRecords .integral [@logRecord .integral sampleDoc []]
    (.new sampleSchema) = .ok sampleSegment := by
  let _ := LibcDecimal.integral
  have hlogged : logRecord sampleDoc [] = docToJson sampleDoc := if_pos rfl
  have hdoc : docFromJson (docToJson sampleDoc) = .ok sampleDoc :=
    docFromJson_docToJson loggable_sampleDoc.noId (by decide)
  rw [hlogged, replayRecords, hdoc]
  exact bind_eq_ok.2 ⟨_, addDocument_sample, rfl⟩

/-- An index that was never refreshed: the writer has what its log makes. -/
theorem reopened_sample (F : Faults) {d : Disk} {recs : List Bytes} {seg : MutableSegment}
    (hother : ∀ n ∈ [kSchemaFilename, kManifestName], d n = freshDisk n)
    (hlog : records (d.content kTranslogName) = recs)
    (hseg : @replayRecords .integral recs (.new sampleSchema) = .ok seg) :
    ∃ t, Translog.Usable t ∧ @WriterStep .integral F ⟨none, d⟩ (.opened none true)
      ⟨some { IndexWriter.fresh sampleSchema t with mutableSegment := seg }, touched d⟩ := by
  let _ := LibcDecimal.integral
  have hschema : d kSchemaFilename = some sampleSchema.toText := by
    rw [hother _ (by decide), freshDisk, touched, Disk.put_of_ne _ (by decide), Disk.put_self]
  have hmanifest : d kManifestName = none := by
    rw [hother _ (by decide), freshDisk, touched, Disk.put_of_ne _ (by decide),
      Disk.put_of_ne _ (by decide)]
    rfl
  have hof : ∀ t, IndexWriter.ofDisk d sampleSchema t =
      .ok { IndexWriter.fresh sampleSchema t with mutableSegment := seg } := by
    intro t
    have hm : Manifest.ofDisk d = .ok {} := by rw [Manifest.ofDisk, hmanifest]
    refine bind_eq_ok.2 ⟨IndexWriter.fresh sampleSchema t, bind_eq_ok.2 ⟨_, hm, rfl⟩, ?_⟩
    rw [hlog]
    exact bind_eq_ok.2 ⟨seg, hseg, rfl⟩
  obtain ⟨t, w, ht, hw, hstep⟩ := step_reopened F (s := ⟨none, d⟩) rfl
    (schemaFound_sample none hschema) fun t ↦ ⟨_, hof t⟩
  cases (hof t).symm.trans hw
  exact ⟨t, ht, hstep⟩

/-- Appending changes the log only. -/
theorem agreeOff_logged (d : Disk) (b : Bytes) :
    AgreeOff [kTranslogName] d (IndexWriter.logged d b) :=
  agreeOff_put (List.mem_singleton_self _) d _

theorem agree_of_agreeOff_log {d d' : Disk} (h : AgreeOff [kTranslogName] d d') :
    ∀ n ∈ [kSchemaFilename, kManifestName], d' n = d n :=
  fun n hn ↦ h n fun hlog ↦ absurd hn (List.mem_singleton.1 hlog ▸ (by decide))

theorem content_freshDisk : freshDisk.content kTranslogName = [] :=
  @content_newDisk .integral sampleSchema

/-- A new index, and a document. -/
theorem durable_sample (F : Faults) :
    ∃ t, Translog.Usable t ∧
      Run (fun s e s' ↦ @DurableStep .integral F s e s' ∧ e.Returned ∧
          ∀ w, s.writer = some w → w.mutableSegment.docCount ≠ kNoMoreDocs) .start
        [.opened (some sampleSchema) true, .added sampleDoc [] true]
        ⟨some (sampleWriter t), sampleDisk⟩ := by
  let _ := LibcDecimal.integral
  obtain ⟨t₁, ht₁, hopen⟩ := durable_opened F sampleSchema
  obtain ⟨t, ht, hadd⟩ := durable_added F ht₁ loggable_sampleDoc shortRecord_sampleDoc
    addDocument_sample
  have hroom : ∀ w, WriterState.start.writer = some w →
      w.mutableSegment.docCount ≠ kNoMoreDocs := by
    rintro _ ⟨⟩
  have hroom' : ∀ w, some (IndexWriter.fresh sampleSchema t₁) = some w →
      w.mutableSegment.docCount ≠ kNoMoreDocs := by
    rintro _ ⟨⟩
    exact (by decide : (0 : ℕ) ≠ kNoMoreDocs)
  exact ⟨t, ht, (Run.single ⟨hopen, trivial, hroom⟩).step ⟨hadd, trivial, hroom'⟩⟩

/-- What a crash leaves of the record of `longDoc` behind that of `sampleDoc`, once `fwrite` has
flushed its buffer. -/
def tornDisk : Disk :=
  IndexWriter.logged sampleDisk ((record (@logRecord .integral longDoc [])).take 4096)

theorem content_sampleDisk :
    sampleDisk.content kTranslogName = record (@logRecord .integral sampleDoc []) := by
  rw [sampleDisk, IndexWriter.logged, Disk.content_put]
  exact congrArg (· ++ _) content_freshDisk

theorem agreeOff_sampleDisk : AgreeOff [kTranslogName] freshDisk sampleDisk :=
  agreeOff_logged freshDisk _

/-- A document, another one that a crash cuts off, and the restart. -/
theorem acked_found_sample :
    ∃ t, Run (@DurableStep .integral tornWrites) .start [.opened (some sampleSchema) true,
        .added sampleDoc [] true, .addCut longDoc [], .opened none true]
        ⟨some (sampleWriter t), touched tornDisk⟩ ∧
      @Manifest.ofDisk .integral (touched tornDisk) = .ok (manifestOf 0 []) ∧
      ∀ doc rawJson, .added doc rawJson true ∈ [WriterEvent.opened (some sampleSchema) true,
          .added sampleDoc [] true, .addCut longDoc [], .opened none true] →
        doc.id ∈ ([] : List SegmentReader).flatMap (@SegmentReader.ids .integral) ∨
          doc.id ∈ sampleSegment.docIds := by
  let _ := LibcDecimal.integral
  obtain ⟨t, ht, hrun⟩ := durable_sample tornWrites
  -- The log has a whole record, so another may be begun.
  have hcut : DurableStep tornWrites ⟨some (sampleWriter t), sampleDisk⟩ (.addCut longDoc [])
      ⟨none, tornDisk⟩ := by
    refine ⟨.addCut longDoc [] rfl ?_, loggable_longDoc, .of_not_refresh (by simp) (by simp), ?_⟩
    · rw [tornDisk, take_record _ 4092]
      exact stops_addDocument_torn trivial rfl ht (logRecord_ne_nil longDoc []) 4092 sampleDisk
    · rintro _ _ (h | ⟨_, h⟩) <;> cases h
      refine ⟨longRecord_longDoc.1, ?_⟩
      have hwhole := whole_nil.append shortRecord_sampleDoc
      rw [List.nil_append] at hwhole
      show unread (sampleDisk.content kTranslogName) = []
      rw [content_sampleDisk]
      exact hwhole.unread_eq
  -- What it leaves is skipped by the replay.
  have hlog : records (tornDisk.content kTranslogName) = [logRecord sampleDoc []] := by
    have hne : (record (logRecord longDoc [])).take 4096 ≠ record (logRecord longDoc []) := by
      intro h
      have hlen := congrArg List.length h
      rw [List.length_take, record_length] at hlen
      have hlong := longRecord_longDoc.2
      omega
    rw [tornDisk, IndexWriter.logged, Disk.content_put, content_sampleDisk,
      records_record_append shortRecord_sampleDoc,
      records_of_starts longRecord_longDoc.1 (List.take_prefix _ _) hne]
  obtain ⟨t', -, hopen⟩ := reopened_sample tornWrites.quiet
    (agree_of_agreeOff_log (agreeOff_sampleDisk.trans (agreeOff_logged _ _))) hlog
    replayRecords_sample
  have hopen' : DurableStep tornWrites ⟨none, tornDisk⟩ (.opened none true)
      ⟨some (sampleWriter t'), touched tornDisk⟩ :=
    ⟨hopen, trivial, .of_not_refresh (by simp) (by simp), .of_not_add (by simp) (by simp)⟩
  have hrun' := ((hrun.mono fun _ _ _ h ↦ h.1).step hcut).step hopen'
  exact ⟨t', hrun', @acked_found .integral _ _ _ _ hrun' rfl⟩

/-- The first `n` bytes of a record and an acknowledged document behind them: the next writer does
not have it. -/
theorem not_findsAcked {F : Faults} {n : ℕ} (h4 : 4 ≤ n) (hn : n ≤ 4096)
    (hstop : ∀ t, Translog.Usable t →
      (@IndexWriter.addDocument .integral longDoc [] (IndexWriter.fresh sampleSchema t)).Stops
        (files F.quiet) freshDisk
        (IndexWriter.logged freshDisk ((record (@logRecord .integral longDoc [])).take n))) :
    ¬@FindsAcked .integral n := by
  let _ := LibcDecimal.integral
  intro hall
  set p := logRecord longDoc [] with hp
  set q := logRecord sampleDoc [] with hq
  set d₁ := IndexWriter.logged freshDisk ((record p).take n) with hd₁
  set d₂ := IndexWriter.logged (touched d₁) (record q) with hd₂
  have hlog₁ : d₁.content kTranslogName = (record p).take n := by
    rw [hd₁, IndexWriter.logged, Disk.content_put]
    rfl
  have hlog₂ : d₂.content kTranslogName = (record p).take n ++ record q := by
    rw [hd₂, IndexWriter.logged, Disk.content_put, touched, Disk.content_put, hlog₁]
  have hoff₁ : AgreeOff [kTranslogName] freshDisk d₁ := agreeOff_logged _ _
  have hoff₂ : AgreeOff [kTranslogName] freshDisk d₂ :=
    (hoff₁.trans (agreeOff_put (List.mem_singleton_self _) _ _)).trans (agreeOff_logged _ _)
  have hlong : n + q.length < p.length :=
    (Nat.add_le_add_right hn _).trans_lt longRecord_longDoc.2
  -- The torn record.
  obtain ⟨t, ht, hopen⟩ := step_opened F.quiet sampleSchema
  have hcut : WriterStep F.quiet ⟨some (IndexWriter.fresh sampleSchema t), freshDisk⟩
      (.addCut longDoc []) ⟨none, d₁⟩ := .addCut longDoc [] rfl (hstop t ht)
  -- The document behind it.
  have hrecords₁ : records (d₁.content kTranslogName) = [] := by
    rw [hlog₁]
    refine records_of_starts longRecord_longDoc.1 (List.take_prefix _ _) fun h ↦ ?_
    have hlen := congrArg List.length h
    rw [List.length_take, record_length] at hlen
    omega
  obtain ⟨t₁, ht₁, hopen₁⟩ := reopened_sample F.quiet (agree_of_agreeOff_log hoff₁) hrecords₁ rfl
  have hready : WriterState.Ready ⟨some (IndexWriter.fresh sampleSchema t₁), touched d₁⟩ :=
    ht₁.ready rfl d₁
  obtain ⟨t₂, -, hadd⟩ := step_added F.quiet rfl hready rfl ht₁ addDocument_sample
  -- The restart does not find it.
  have hrecords₂ : records (d₂.content kTranslogName) = [] := by
    rw [hlog₂]
    exact records_torn_append longRecord_longDoc.1 h4 hlong
  obtain ⟨t₃, -, hopen₃⟩ := reopened_sample F.quiet (agree_of_agreeOff_log hoff₂) hrecords₂ rfl
  have hnone : ∀ {s e s'}, (∀ doc rawJson, e ≠ .addCut doc rawJson) → LeavesBytes n s e s' :=
    fun hne doc rawJson he ↦ absurd he (hne doc rawJson)
  have htorn : Run
      (fun s e s' ↦ WriterStep F.quiet s e s' ∧ e.Promised ∧ LeavesBytes n s e s') .start
      [.opened (some sampleSchema) true, .addCut longDoc []] ⟨none, d₁⟩ := by
    refine (Run.single ⟨hopen, trivial, hnone (by rintro _ _ ⟨⟩)⟩).step ⟨hcut, loggable_longDoc, ?_⟩
    rintro _ _ ⟨⟩
    rfl
  have hrun := ((htorn.step ⟨hopen₁, trivial, hnone (by rintro _ _ ⟨⟩)⟩).step
    ⟨hadd, loggable_sampleDoc, hnone (by rintro _ _ ⟨⟩)⟩).step
    ⟨.crashed, trivial, hnone (by rintro _ _ ⟨⟩)⟩ |>.step
    ⟨hopen₃, trivial, hnone (by rintro _ _ ⟨⟩)⟩
  rcases hall _ _ _ _ hrun rfl sampleDoc [] (by simp) with h | h <;> cases h

/-- Not where a crash comes between the two writes of a record, nor where it comes once `fwrite` has
flushed its buffer. -/
theorem not_acked_found : ¬@FindsAcked .integral 4 ∧ ¬@FindsAcked .integral 4096 := by
  let _ := LibcDecimal.integral
  constructor
  · refine not_findsAcked (F := Faults.none) le_rfl (by decide) fun t ht ↦ ?_
    rw [take_record _ 0, List.take_zero, List.append_nil]
    exact stops_addDocument_header rfl ht longDoc [] freshDisk
  · refine not_findsAcked (F := tornWrites) (by decide) le_rfl fun t ht ↦ ?_
    rw [take_record _ 4092]
    exact stops_addDocument_torn trivial rfl ht (logRecord_ne_nil longDoc []) 4092 freshDisk

end Samples

/-! ### Copies of a document -/

/-- The call of `AddDocument` an event is, if it is one. -/
def WriterEvent.call : WriterEvent → Option (Document × Bytes)
  | .added doc rawJson _ | .addCut doc rawJson => some (doc, rawJson)
  | _ => none

/-- The calls of `AddDocument` that were made. -/
def addCalls (es : List WriterEvent) : List (Document × Bytes) := es.filterMap WriterEvent.call

/-- A document of this id comes from the call: it was handed over, or replayed from its record. -/
def ComesFrom (id : Bytes) (call : Document × Bytes) : Prop :=
  id = call.1.id ∨ replayedId (logRecord call.1 call.2) = some id

/-- The documents come from different calls, in order. -/
abbrev Copies (ids : List Bytes) (calls : List (Document × Bytes)) : Prop :=
  List.SublistForall₂ ComesFrom ids calls

section Copies

variable {L L' : Ledger} {e : WriterEvent} {ids ids' : List Bytes}
  {calls calls' : List (Document × Bytes)}

theorem Copies.append (h : Copies ids calls) (h' : Copies ids' calls') :
    Copies (ids ++ ids') (calls ++ calls') := by
  obtain ⟨l, hl, hsub⟩ := List.sublistForall₂_iff.1 h
  obtain ⟨l', hl', hsub'⟩ := List.sublistForall₂_iff.1 h'
  exact List.sublistForall₂_iff.2 ⟨l ++ l', List.rel_append hl hl', hsub.append hsub'⟩

theorem Copies.length_le (h : Copies ids calls) : ids.length ≤ calls.length := by
  obtain ⟨l, hl, hsub⟩ := List.sublistForall₂_iff.1 h
  exact hl.length_eq.trans_le hsub.length_le

/-- The first of the documents. -/
theorem Copies.left (h : Copies (ids ++ ids') calls) : Copies ids calls := by
  obtain ⟨l, hl, hsub⟩ := List.sublistForall₂_iff.1 h
  have htake := List.forall₂_take ids.length hl
  rw [List.take_left] at htake
  exact List.sublistForall₂_iff.2 ⟨_, htake, (List.take_sublist _ _).trans hsub⟩

/-- A call may leave no document. -/
theorem Copies.called (h : Copies ids calls) (call : Document × Bytes) :
    Copies ids (calls ++ [call]) := by
  have hnone : Copies [] [call] := .nil
  have happend := h.append hnone
  rwa [List.append_nil] at happend

/-- What a record stands for comes from the call that logged it. -/
theorem copies_logRecord (doc : Document) (rawJson : Bytes) :
    Copies ([logRecord doc rawJson].filterMap replayedId) [(doc, rawJson)] := by
  rw [List.filterMap_cons]
  cases h : replayedId (logRecord doc rawJson) with
  | none => exact .nil
  | some id => exact .cons (Or.inr h) .nil

omit [LibcDecimal] in
theorem addCalls_append (es : List WriterEvent) (e : WriterEvent) :
    addCalls (es ++ [e]) = addCalls es ++ e.call.toList := by
  rw [addCalls, List.filterMap_append, List.filterMap_cons]
  cases e.call <;> rfl

/-- Every document, on the shelves and in the log or in memory, comes from a call of its own. -/
structure Ledger.Accounts (L : Ledger) (calls : List (Document × Bytes)) : Prop where
  kept : Copies (L.shelves.flatten.map (·.id) ++ L.log.filterMap replayedId) calls
  held : ∀ docs, L.pending = some docs →
    Copies (L.shelves.flatten.map (·.id) ++ docs.map (·.id)) calls

namespace Ledger.Accounts

theorem called (h : L.Accounts calls) (call : Document × Bytes) : L.Accounts (calls ++ [call]) :=
  ⟨Copies.called h.kept call, fun docs hdocs ↦ Copies.called (h.held docs hdocs) call⟩

theorem crashed (h : L.Accounts calls) : Ledger.Accounts { L with pending := none } calls :=
  ⟨h.kept, by rintro _ ⟨⟩⟩

/-- The record of a call is behind the log. -/
theorem logged (h : L.Accounts calls) (doc : Document) (rawJson : Bytes) :
    Ledger.Accounts { L with log := L.log ++ [logRecord doc rawJson] }
      (calls ++ [(doc, rawJson)]) := by
  refine ⟨?_, (h.called _).held⟩
  rw [List.filterMap_append, ← List.append_assoc]
  exact Copies.append h.kept (copies_logRecord doc rawJson)

/-- The document of a call is in memory. -/
theorem accepted {docs : List Document} (h : L.Accounts calls) (hdocs : L.pending = some docs)
    (doc : Document) (rawJson : Bytes) : Ledger.Accounts
      { L with log := L.log ++ [logRecord doc rawJson], pending := some (docs ++ [doc]) }
      (calls ++ [(doc, rawJson)]) := by
  refine ⟨(h.logged doc rawJson).kept, ?_⟩
  rintro _ ⟨⟩
  rw [List.map_append, ← List.append_assoc]
  exact Copies.append (h.held docs hdocs) (.cons (Or.inl rfl) .nil)

/-- Once the log is empty the shelves hold everything. -/
theorem shelved {docs : List Document} {pending : Option (List Document)} (h : L.Accounts calls)
    (hdocs : L.pending = some docs) (hpending : pending = none ∨ pending = some []) :
    Ledger.Accounts { shelves := L.shelves ++ [docs], log := [], pending } calls := by
  have hall : Copies ((L.shelves ++ [docs]).flatten.map (·.id) ++ []) calls := by
    rw [List.flatten_append, List.flatten_singleton, List.map_append, List.append_nil]
    exact h.held docs hdocs
  refine ⟨hall, fun docs' hdocs' ↦ ?_⟩
  rcases hpending with rfl | rfl
  · cases hdocs'
  · cases hdocs'
    exact hall

end Ledger.Accounts

/-- No crash comes between the rename of a manifest and the truncation of the log. -/
def Ledger.Commits (L : Ledger) (e : WriterEvent) (L' : Ledger) : Prop :=
  e = .refreshCut → L'.shelves.length = L.shelves.length ∨ L'.log = []

/-- **Every step accounts for the documents.** -/
theorem LedgerStep.accounts (hstep : LedgerStep False L e L') (hcommits : L.Commits e L')
    (h : L.Accounts calls) : L'.Accounts (calls ++ e.call.toList) := by
  have hsame : L.Accounts (calls ++ []) := by rwa [List.append_nil]
  cases hstep with
  | opened =>
    refine ⟨hsame.kept, ?_⟩
    rintro _ ⟨⟩
    rw [map_id_replayedDocs]
    exact hsame.kept
  | notOpened | openCut | notSealed | idle => exact hsame
  | refused => exact h.called _
  | notLogged hloose | notTruncated hloose => exact hloose.elim
  | @rejected docs doc rawJson log _ _ hlog =>
    obtain rfl := hlog.resolve_left not_false
    exact h.logged doc rawJson
  | @accepted docs doc rawJson log hdocs _ hlog =>
    obtain rfl := hlog.resolve_left not_false
    exact h.accepted hdocs doc rawJson
  | @addCut doc rawJson log hlog =>
    rcases hlog.resolve_left not_false with rfl | rfl
    · exact (h.called _).crashed
    · exact (h.logged doc rawJson).crashed
  | shelved hdocs => exact hsame.shelved hdocs (Or.inr rfl)
  | truncatedCut hdocs => exact hsame.shelved hdocs (Or.inl rfl)
  | @savedCut docs hdocs =>
    -- This crash comes where none may, unless there was nothing in the log.
    have hempty : L.log = [] := (hcommits rfl).resolve_left fun hlen ↦ by
      rw [List.length_append, List.length_singleton] at hlen
      omega
    rw [hempty]
    exact hsame.shelved hdocs (Or.inl rfl)
  | sealCut | closed | crashed => exact hsame.crashed

theorem accounts_of_run {es : List WriterEvent}
    (h : Run (fun L e L' ↦ LedgerStep False L e L' ∧ L.Commits e L') {} es L) :
    L.Accounts (addCalls es) := by
  refine h.invariant_events (I := fun es L ↦ L.Accounts (addCalls es)) ⟨.nil, by rintro _ ⟨⟩⟩ ?_
  rintro es L e L' ih ⟨hstep, hcommits⟩
  rw [addCalls_append]
  exact hstep.accounts hcommits ih

end Copies

/-- The steps of an index in which nothing fails, as long as sizes fit, nothing is appended to a
torn record, and no crash in `Refresh` comes between the rename of the manifest and the truncation
of the log. -/
structure CommittedStep (F : Faults) (s : WriterState) (e : WriterEvent) (s' : WriterState) :
    Prop where
  step : WriterStep F.quiet s e s'
  fits : StepFits s e
  logSafe : LogSafe s e
  commits : e = .refreshCut →
    s'.disk kManifestName = s.disk kManifestName ∨ s'.disk.content kTranslogName = []

theorem CommittedStep.commits_ledger {F : Faults} {s s' : WriterState} {e : WriterEvent}
    {L L' : Ledger} {loose : Prop} (h : CommittedStep F s e s') (hkept : Kept loose s L)
    (hkept' : Kept loose s' L') : L.Commits e L' := by
  intro he
  rcases h.commits he with hsame | hempty
  · left
    obtain ⟨m, hm, -, hshelves⟩ := hkept.manifest
    obtain ⟨m', hm', -, hshelves'⟩ := hkept'.manifest
    rw [Manifest.ofDisk_congr hsame, hm] at hm'
    obtain rfl := Except.ok.inj hm'
    exact hshelves'.length_eq.symm.trans hshelves.length_eq
  · right
    rw [← hkept'.log, hempty]
    rfl

/-- **No document is published twice**: those of the published reader come from different calls. -/
theorem published_once {F : Faults} {es : List WriterEvent} {s : WriterState} {w : IndexWriter}
    (h : Run (CommittedStep F) .start es s) (hw : s.writer = some w) :
    Copies w.publishedReader.ids (addCalls es) ∧
      w.publishedReader.totalDocCount ≤ (addCalls es).length := by
  obtain ⟨L, hrun, hkept, -⟩ := exists_ledger False (CommittedStep F) Ledger.Commits
    (fun _ _ _ _ h ↦ ⟨F.quiet, h.step, h.fits, Or.inl (savesManifest_quiet F),
      Or.inr ⟨F.quiet_quiet, h.logSafe⟩⟩)
    (fun _ _ _ _ _ hkept hkept' h ↦ h.commits_ledger hkept hkept') (kept_start False)
    WriterState.ready_start h
  obtain ⟨docs, hdocs, hkeeps⟩ := hkept.writer w hw
  have hpublished := hkeeps.published.resolve_left not_false
  have haccounts := accounts_of_run hrun
  have hids : w.publishedReader.ids = L.shelves.flatten.map (·.id) := by
    rw [IndexReader.ids, hpublished, flatMap_ids hkeeps.segments]
  have hcopies : Copies (L.shelves.flatten.map (·.id)) (addCalls es) := Copies.left haccounts.kept
  refine ⟨hids ▸ hcopies, ?_⟩
  have hcount : w.publishedReader.totalDocCount ≤ L.shelves.flatten.length := by
    rw [IndexReader.totalDocCount, hpublished, sum_docCount hkeeps.segments]
    exact Nat.mod_le _ _
  exact hcount.trans ((List.length_map ..).symm.trans_le hcopies.length_le)

/-! ### A crash before the truncation -/

section Saved

variable {w : IndexWriter} {t : Translog} {d : Disk}

/-- A crash in what `Refresh` does with a segment it sealed. -/
theorem stops_refresh {F : Faults} {r : SegmentReader} {d₁ d' : Disk} (ht : w.translog = some t)
    (hseal : (IndexWriter.sealCurrentSegment w).Returns (files F) d (.ok (some r), w.counted) d₁)
    (h : (IndexWriter.publishSegment t r w.counted).Stops (files F) d₁ d') :
    (IndexWriter.refresh w).Stops (files F) d d' := by
  refine Prog.stops_bind_of_returns (a := (.ok w, w)) ⟨rfl, rfl⟩ ?_
  show Prog.Stops _ (Method.andThen _ (.ok w, w)) _ _
  rw [Method.andThen, ht]
  exact Prog.stops_bind_of_returns hseal h

/-- A crash once the segment is sealed. -/
theorem stops_refresh_sealed (F : Faults) (ht : w.translog = some t)
    (hpending : w.mutableSegment.docCount ≠ 0)
    (hopens : ∀ d₁, Holds w.nextFiles d₁ → ∃ r, SegmentReader.openDisk d₁ w.nextStem = .ok r) :
    ∃ r d₁, w.Sealed Faults.none d d₁ r ∧ (IndexWriter.refresh w).Stops (files F) d d₁ := by
  obtain ⟨r, d₁, hseal, hs⟩ := returns_sealCurrentSegment (d := d) F hpending hopens
  exact ⟨r, d₁, hs, stops_refresh ht hseal (Prog.stops_start _ _)⟩

/-- A crash once the manifest is saved. -/
theorem stops_refresh_saved (F : Faults) (ht : w.translog = some t)
    (hpending : w.mutableSegment.docCount ≠ 0)
    (hopens : ∀ d₁, Holds w.nextFiles d₁ → ∃ r, SegmentReader.openDisk d₁ w.nextStem = .ok r) :
    ∃ r d₁ d₂, w.Sealed Faults.none d d₁ r ∧ Published (w.nextManifest r) d₁ d₂ ∧
      (IndexWriter.refresh w).Stops (files F) d d₂ := by
  obtain ⟨r, d₁, hseal, hs⟩ := returns_sealCurrentSegment (d := d) F hpending hopens
  obtain ⟨d₂, hsave, hp⟩ := returns_saveManifest (d := d₁) F (w.withSealed r) (w.nextManifest r)
  -- Behind the seal the writer knows the segment, and saves the manifest.
  refine ⟨r, d₁, d₂, hs, hp, stops_refresh ht hseal ?_⟩
  refine Prog.stops_bind_of_returns (a := (.ok w.counted, w.counted)) ⟨rfl, rfl⟩ ?_
  refine Prog.stops_bind_of_returns (a := (.ok (), w.withSealed r)) ⟨rfl, rfl⟩ ?_
  exact Prog.stops_bind_of_returns hsave (Prog.stops_start _ _)

/-- Saving a manifest leaves the sealed segment alone. -/
theorem IndexWriter.Sealed.holds_published {F : Faults} {m : Manifest} {d₁ d₂ : Disk}
    {r : SegmentReader} (hs : w.Sealed F d d₁ r) (hp : Published m d₁ d₂) :
    Holds w.nextFiles d₂ := by
  intro p hmem
  have hsub := ((sealBuffers w.mutableSegment w.nextStem).2.toList_names w.nextStem).subset
  have hname : p.1 ∈ segmentNames w.nextStem := hsub (List.mem_map_of_mem hmem)
  have hnames : ∀ n ∈ [kManifestTmpName, kManifestName], n.take 4 ≠ str "seg-" := by decide
  rw [hp.agree _ fun h ↦ not_mem_segmentNames (hnames _ h) hname]
  exact hs.holds p hmem

end Saved

section Samples

omit [LibcDecimal]

/-- The segment that is sealed for `sampleDoc` has one document. -/
theorem docCount_sealed_sample {w : IndexWriter} {d d₁ : Disk} {r : SegmentReader}
    (hs : w.Sealed Faults.none d d₁ r) (hseg : w.mutableSegment = sampleSegment) :
    r.docCount = 1 := by
  have hholds := hs.holds
  rw [IndexWriter.nextFiles, hseg] at hholds
  obtain ⟨r', hr', hagrees⟩ := openDisk_sampleSegment hholds
  have hr := hs.reader.resolve_right fun h ↦ h.1
  cases hr.symm.trans hr'
  exact hagrees.docCount

/-- The writer of an index whose manifest lists `sampleDoc` and whose log has it still. -/
theorem reopened_saved (F : Faults) {t : Translog} {r : SegmentReader} {d₁ d₂ : Disk}
    (hs : (sampleWriter t).Sealed Faults.none sampleDisk d₁ r)
    (hp : @Published .integral ((sampleWriter t).nextManifest r) d₁ d₂) :
    ∃ w t' r', Translog.Usable t' ∧ w.translog = some t' ∧ w.mutableSegment = sampleSegment ∧
      w.sealedSegments = [r'] ∧ r'.docCount = 1 ∧
      @WriterStep .integral F ⟨none, d₂⟩ (.opened none true) ⟨some w, touched d₂⟩ := by
  let _ := LibcDecimal.integral
  have hother : ∀ n, n ∉ [kManifestTmpName, kManifestName] →
      n ∉ segmentNames (sampleWriter t).nextStem → d₂ n = sampleDisk n := fun n hn hn' ↦
    (hp.agree n hn).trans (hs.agree_segment n hn')
  have hschema : d₂ kSchemaFilename = some sampleSchema.toText := by
    rw [hother _ (by decide) (not_mem_segmentNames (by decide)), sampleDisk, IndexWriter.logged,
      Disk.put_of_ne _ (by decide), touched, Disk.put_of_ne _ (by decide), Disk.put_self]
  have hlog : records (d₂.content kTranslogName) = [logRecord sampleDoc []] := by
    have hsame : d₂.content kTranslogName = record (logRecord sampleDoc []) := by
      rw [Disk.content, hother _ (by decide) (not_mem_segmentNames (by decide)), ← Disk.content,
        sampleDisk, IndexWriter.logged, Disk.content_put]
      exact congrArg (· ++ _) content_freshDisk
    have hrecord := records_record_append shortRecord_sampleDoc []
    rwa [List.append_nil, ← hsame] at hrecord
  have hm : Manifest.ofDisk d₂ = .ok ((sampleWriter t).nextManifest r) := by
    rw [Manifest.ofDisk, hp.manifest]
    refine Manifest.ofText_toText fun ms hms ↦ ?_
    obtain rfl := List.mem_singleton.1 hms
    exact hs.reader_eq.2
  obtain ⟨r', hr', hagrees⟩ : ∃ r', SegmentReader.openDisk d₂ r.stem = .ok r' ∧
      Agrees r' sampleSegment := by
    rw [hs.reader_eq.1]
    exact openDisk_sampleSegment (hs.holds_published hp)
  have hof : ∀ t', ∃ w, IndexWriter.ofDisk d₂ sampleSchema t' = .ok w ∧ w.translog = some t' ∧
      w.mutableSegment = sampleSegment ∧ w.sealedSegments = [r'] := by
    intro t'
    have hsegs : ((sampleWriter t).nextManifest r).segments.mapM
        (fun ms ↦ SegmentReader.openDisk d₂ ms.stem) = .ok [r'] := by
      show ([_].mapM _) = _
      rw [List.mapM_cons]
      exact bind_eq_ok.2 ⟨r', hr', rfl⟩
    refine ⟨_, bind_eq_ok.2 ⟨_, bind_eq_ok.2 ⟨_, hm, bind_eq_ok.2 ⟨_, hsegs, rfl⟩⟩,
      bind_eq_ok.2 ⟨_, ?_, rfl⟩⟩, rfl, rfl, rfl⟩
    rw [hlog]
    exact replayRecords_sample
  obtain ⟨t', w, ht', hw, hstep⟩ := step_reopened F (s := ⟨none, d₂⟩) rfl
    (schemaFound_sample none hschema) fun t' ↦ (hof t').imp fun _ h ↦ h.1
  obtain ⟨w', hw', hlog', hseg, hsealed⟩ := hof t'
  cases hw.symm.trans hw'
  exact ⟨w, t', r', ht', hlog', hseg, hsealed, hagrees.docCount, hstep⟩

theorem storable_sampleSegment : sampleSegment.Storable :=
  ⟨by decide +kernel, by decide +kernel⟩

/-- A `Refresh` that publishes the document. -/
theorem durable_refreshed_sample (F : Faults) {t : Translog} {d₀ : Disk}
    (hready : WriterState.Ready ⟨some (sampleWriter t), d₀⟩) :
    ∃ w d, @DurableStep .integral F ⟨some (sampleWriter t), d₀⟩ (.refreshed true) ⟨some w, d⟩ ∧
      w.publishedReader.segments.length = 1 := by
  let _ := LibcDecimal.integral
  have hopens : ∀ d, Holds (sampleWriter t).nextFiles d →
      ∃ r, SegmentReader.openDisk d (sampleWriter t).nextStem = .ok r :=
    fun d hd ↦ sampleSegment_opens hd
  obtain ⟨r, t', d₁, d₂, -, -, -, href⟩ := step_refreshed F.quiet rfl hready (Option.some_ne_none t)
    sampleSegment_ne_zero fun d _ ↦ hopens d
  refine ⟨_, _, ⟨href, trivial, ⟨?_, ?_⟩, .of_not_add (by simp) (by simp)⟩, rfl⟩
  · rintro _ ⟨⟩ -
    refine ⟨fun _ ↦ (by decide : (0 : UInt64).toNat + 1 < 2 ^ 64), ?_⟩
    rintro ⟨⟩
  · rintro _ ⟨⟩ -
    exact storable_sampleSegment

/-- A new index, a document, and a `Refresh` that publishes it. -/
theorem refreshed_sample (F : Faults) :
    ∃ w d, Run (fun s e s' ↦ @DurableStep .integral F s e s' ∧ e.Returned ∧
          ∀ w, s.writer = some w → w.mutableSegment.docCount ≠ kNoMoreDocs) .start
        [.opened (some sampleSchema) true, .added sampleDoc [] true, .refreshed true] ⟨some w, d⟩ ∧
      w.publishedReader.segments.length = 1 := by
  let _ := LibcDecimal.integral
  obtain ⟨t, ht, hrun⟩ := durable_sample F
  obtain ⟨w, d, hstep, hlen⟩ :=
    durable_refreshed_sample F (ready_of_run (hrun.mono fun _ _ _ h ↦ h.1.step))
  refine ⟨w, d, hrun.step ⟨hstep, trivial, ?_⟩, hlen⟩
  rintro _ ⟨⟩
  exact (by decide : (1 : ℕ) ≠ kNoMoreDocs)

/-- What `Refresh` may do with `sampleDoc` pending. -/
theorem stepFits_sample {t : Translog} {d : Disk} {e : WriterEvent} (he : e ≠ .refreshed false) :
    StepFits ⟨some (sampleWriter t), d⟩ e := by
  constructor
  · rintro _ ⟨⟩ -
    exact ⟨fun _ ↦ (by decide : (0 : UInt64).toNat + 1 < 2 ^ 64), fun h ↦ absurd h he⟩
  · rintro _ ⟨⟩ -
    exact storable_sampleSegment

/-- A crash in `Refresh` behind the seal, the restart, and a `Refresh` that publishes. -/
theorem published_once_sample :
    ∃ w d, Run (@CommittedStep .integral Faults.none) .start [.opened (some sampleSchema) true,
        .added sampleDoc [] true, .refreshCut, .opened none true, .refreshed true] ⟨some w, d⟩ ∧
      w.publishedReader.segments.length = 1 ∧
      @Copies .integral (@IndexReader.ids .integral w.publishedReader) [(sampleDoc, [])] ∧
      w.publishedReader.totalDocCount ≤ 1 := by
  let _ := LibcDecimal.integral
  obtain ⟨t, -, hrun⟩ := durable_sample Faults.none
  obtain ⟨r, d₁, hs, hstop⟩ := stops_refresh_sealed (w := sampleWriter t) (d := sampleDisk)
    Faults.none.quiet rfl sampleSegment_ne_zero fun _ ↦ sampleSegment_opens
  have hoff : ∀ n ∈ [kSchemaFilename, kManifestName, kTranslogName], d₁ n = sampleDisk n := by
    intro n hn
    refine hs.agree_segment n (not_mem_segmentNames ?_)
    exact (by decide : ∀ n ∈ [kSchemaFilename, kManifestName, kTranslogName],
      n.take 4 ≠ str "seg-") n hn
  have hcut : CommittedStep Faults.none
      ⟨some (sampleWriter t), sampleDisk⟩ .refreshCut ⟨none, d₁⟩ :=
    ⟨.refreshCut rfl hstop, stepFits_sample (by rintro ⟨⟩), .of_not_add (by simp) (by simp),
      fun _ ↦ Or.inl (hoff _ (by decide))⟩
  -- The manifest is the old one, and the log has the record.
  have hlog : records (d₁.content kTranslogName) = [logRecord sampleDoc []] := by
    have hrecord := records_record_append shortRecord_sampleDoc []
    rw [List.append_nil] at hrecord
    rw [Disk.content, hoff _ (by decide), ← Disk.content, content_sampleDisk, hrecord]
    rfl
  obtain ⟨t', ht', hopen⟩ := reopened_sample Faults.none.quiet (d := d₁)
    (fun n hn ↦ (hoff n (List.mem_append_left [kTranslogName] hn)).trans
      (agree_of_agreeOff_log agreeOff_sampleDisk n hn)) hlog
    replayRecords_sample
  have hopen' : CommittedStep Faults.none ⟨none, d₁⟩ (.opened none true)
      ⟨some (sampleWriter t'), touched d₁⟩ :=
    ⟨hopen, .of_not_refresh (by simp) (by simp), .of_not_add (by simp) (by simp), by rintro ⟨⟩⟩
  have hready : WriterState.Ready ⟨some (sampleWriter t'), touched d₁⟩ := ht'.ready rfl d₁
  obtain ⟨w, d, hstep, hlen⟩ := durable_refreshed_sample Faults.none hready
  have hstep' : CommittedStep Faults.none ⟨some (sampleWriter t'), touched d₁⟩ (.refreshed true)
      ⟨some w, d⟩ := ⟨hstep.step, hstep.fits, hstep.logSafe, by rintro ⟨⟩⟩
  have hstart := hrun.mono fun s e s' h ↦ (⟨h.1.step, h.1.fits, h.1.logSafe, fun he ↦ by
    subst he; exact h.2.1.elim⟩ : CommittedStep Faults.none s e s')
  have hall := ((hstart.step hcut).step hopen').step hstep'
  exact ⟨w, d, hall, hlen, @published_once .integral _ _ _ _ hall rfl⟩

/-- A crash before the truncation: the restart replays what the manifest lists, and the next
`Refresh` publishes it again. -/
theorem not_published_once :
    ¬∀ (F : Faults) (es : List WriterEvent) (s : WriterState) (w : IndexWriter),
      Run (@WriterStep .integral F.quiet) .start (es ++ [.refreshed true]) s → s.writer = some w →
        w.publishedReader.totalDocCount ≤ (addCalls es).length := by
  let _ := LibcDecimal.integral
  intro hall
  obtain ⟨t, -, hrun⟩ := durable_sample Faults.none
  obtain ⟨r, d₁, d₂, hs, hp, hstop⟩ := stops_refresh_saved (w := sampleWriter t) (d := sampleDisk)
    Faults.none.quiet rfl sampleSegment_ne_zero fun _ ↦ sampleSegment_opens
  obtain ⟨w, t', r', ht', hlog, hseg, hsealed, hcount, hopen⟩ :=
    reopened_saved Faults.none.quiet hs hp
  have hcut := ((hrun.mono fun _ _ _ h ↦ h.1.step).step (.refreshCut rfl hstop)).step hopen
  obtain ⟨r₂, t₂, d₃, d₄, hs₂, -, -, href⟩ := step_refreshed Faults.none.quiet rfl
    (ready_of_run hcut) (hlog ▸ Option.some_ne_none t') (hseg ▸ sampleSegment_ne_zero) fun d _ hd ↦
      sampleSegment_opens (hseg ▸ hd)
  have hcount₂ := docCount_sealed_sample hs₂ hseg
  have hle := hall _ _ _ _ (hcut.step href) rfl
  have htwo : (w.committed r₂ t₂).published.publishedReader.totalDocCount = 2 := by
    show ((w.sealedSegments ++ [r₂]).map (·.docCount)).sum % 4294967296 = 2
    rw [hsealed]
    simp [hcount, hcount₂]
  have hcalls : (addCalls [.opened (some sampleSchema) true, .added sampleDoc [] true, .refreshCut,
      .opened none true]).length = 1 := rfl
  exact absurd ((htwo.symm.trans_le hle).trans_eq hcalls) (by decide)

end Samples

end Spp.Index
