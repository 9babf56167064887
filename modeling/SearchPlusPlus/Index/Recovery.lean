import SearchPlusPlus.Index.Durability

/-!
# Recovery

After any number of crashes an index can be opened (`recovers`): its schema is read back, every
segment that the manifest lists is opened, and the log has no more documents than a segment takes.
The writer has every acknowledged document. The index must have been created once: what a crash
leaves of a schema may be no schema.
-/

namespace Spp.Index

open Json Store

variable [LibcDecimal]

/-! ### The schema stays -/

/-- The index was created with a schema that is read back from its file. -/
structure Founded (s : WriterState) (schema : Schema) : Prop where
  exact : ∀ f ∈ schema.fields, f.Exact
  hasId : schema.hasField Schema.kIdField = true
  file : s.disk kSchemaFilename = some schema.toText
  writer : ∀ w, s.writer = some w → w.schema = schema ∨ w.schema = schema.readBack

section Moves

variable {F : Faults} {s s' : WriterState} {e : WriterEvent} {schema : Schema}
  {w : IndexWriter} {d d' : Disk}

/-- The schema is read back. -/
theorem Founded.schemaFound (h : Founded s schema) (initial : Option Schema) :
    SchemaFound initial s.disk (.ok schema.readBack) s.disk := by
  have hload : SchemaFound initial s.disk (Schema.ofText schema.toText) s.disk := .loaded h.file
  rwa [Schema.ofText_toText h.exact, if_pos h.hasId] at hload

theorem OpenCut.schemaFile_eq {initial : Option Schema} {text : Bytes} (h : OpenCut initial d d')
    (htext : d kSchemaFilename = some text) : d' kSchemaFilename = d kSchemaFilename := by
  rcases h with rfl | ⟨_, _, hnone, -, -, rfl⟩ | ⟨_, d₁, hfound, rfl⟩
  · rfl
  · cases htext.symm.trans hnone
  · rw [touched, d₁.put_of_ne (by decide)]
    cases hfound with
    | loaded | missing => rfl
    | written hnone => cases htext.symm.trans hnone

/-- `AddDocument` and `Refresh` keep the schema of the writer. -/
theorem IndexWriter.Added.schema_eq {doc : Document} {rawJson : Bytes} {res : Expected Unit}
    {w' : IndexWriter} (h : w.Added F doc rawJson d res w' d') : w'.schema = w.schema := by
  cases h <;> rfl

theorem IndexWriter.Refreshed.schema_eq {res : Expected Generation} {w' : IndexWriter}
    (h : w.Refreshed F d res w' d') : w'.schema = w.schema := by
  cases h <;> rfl

theorem ofDisk_schema {t : Translog} (h : IndexWriter.ofDisk d schema t = .ok w) :
    w.schema = schema := by
  obtain ⟨w₁, hw₁, h⟩ := bind_eq_ok.1 h
  obtain ⟨seg, -, h⟩ := bind_eq_ok.1 h
  obtain ⟨m, -, hw₁⟩ := bind_eq_ok.1 hw₁
  obtain ⟨rs, -, hw₁⟩ := bind_eq_ok.1 hw₁
  cases hw₁
  cases h
  rfl

/-- A `Refresh` writes no schema. -/
theorem IndexWriter.RefreshCut.schemaFile_eq (h : w.RefreshCut F d d') :
    d' kSchemaFilename = d kSchemaFilename := by
  refine h.leaves.other kSchemaFilename fun hmem ↦ ?_
  rcases List.mem_append.1 hmem with hmem | hmem
  · exact not_mem_segmentNames (by decide) hmem
  · exact absurd hmem (by decide)

/-- **No step touches the schema** of an index once it was created. -/
theorem WriterMove.founded (hmove : WriterMove F s e s') (h : Founded s schema) :
    Founded s' schema := by
  have hstill : ∀ {s' : WriterState}, s'.disk kSchemaFilename = s.disk kSchemaFilename →
      (∀ w, s'.writer = some w → w.schema = schema ∨ w.schema = schema.readBack) →
        Founded s' schema := fun hfile hwriter ↦ ⟨h.exact, h.hasId, hfile.trans h.file, hwriter⟩
  cases hmove with
  | @opened initial schema' d₁ t w hnone hfound _ hw =>
    have hcut : OpenCut initial s.disk (touched d₁) := Or.inr (Or.inr ⟨_, d₁, hfound, rfl⟩)
    refine hstill (hcut.schemaFile_eq h.file) ?_
    rintro _ ⟨⟩
    have hloaded := h.schemaFound initial
    rw [ofDisk_schema hw, Except.ok.inj (hloaded.unique hfound).1]
    exact Or.inr rfl
  | notOpened _ hcut | openCut _ hcut => exact hstill (hcut.schemaFile_eq h.file) (by rintro _ ⟨⟩)
  | added hw hadd =>
    refine hstill (hadd.cut.agree _ (by decide)) ?_
    rintro _ ⟨⟩
    rw [hadd.schema_eq]
    exact h.writer _ hw
  | addCut _ hcut => exact hstill (hcut.agree _ (by decide)) (by rintro _ ⟨⟩)
  | refreshed hw href =>
    refine hstill href.cut.schemaFile_eq ?_
    rintro _ ⟨⟩
    rw [href.schema_eq]
    exact h.writer _ hw
  | refreshCut _ hcut => exact hstill hcut.schemaFile_eq (by rintro _ ⟨⟩)
  | closed | crashed => exact hstill rfl (by rintro _ ⟨⟩)

/-! ### The segments stay -/

/-- Every segment that the manifest lists can be opened. -/
def Opens (s : WriterState) : Prop :=
  ∀ stem ∈ listedStems s.disk, ∃ r, SegmentReader.openDisk s.disk stem = .ok r

/-- The listed segments can all be opened. -/
theorem Opens.exists_readers (h : Opens s) {m : Manifest} (hm : Manifest.ofDisk s.disk = .ok m) :
    ∃ rs, (m.segments.mapM fun ms ↦ SegmentReader.openDisk s.disk ms.stem) = .ok rs := by
  have hsegs : ∀ l : List ManifestSegment, (∀ ms ∈ l, ms.stem ∈ listedStems s.disk) →
      ∃ rs, (l.mapM fun ms ↦ SegmentReader.openDisk s.disk ms.stem) = .ok rs := by
    intro l
    induction l with
    | nil => exact fun _ ↦ ⟨[], rfl⟩
    | cons ms l ih =>
      intro hl
      obtain ⟨r, hr⟩ := h ms.stem (hl ms List.mem_cons_self)
      obtain ⟨rs, hrs⟩ := ih fun ms' hms' ↦ hl ms' (List.mem_cons_of_mem _ hms')
      rw [List.mapM_cons]
      exact ⟨r :: rs, bind_eq_ok.2 ⟨r, hr, bind_eq_ok.2 ⟨rs, hrs, rfl⟩⟩⟩
  refine hsegs m.segments fun ms hms ↦ ?_
  rw [listedStems_of_ok hm]
  exact List.mem_map_of_mem hms

/-- Saving a manifest writes no file of a segment. -/
theorem Published.agree_segment {m : Manifest} {d₁ d₂ : Disk} (h : Published m d₁ d₂)
    {gen : Generation} {id : UInt32} {n : Bytes} (hn : n ∈ segmentNames (makeSegmentStem gen id)) :
    d₂ n = d₁ n := by
  have hnames : ∀ n' ∈ [kManifestTmpName, kManifestName], n'.take 4 ≠ str "seg-" := by decide
  exact h.agree n fun hmem ↦ not_mem_segmentNames (hnames n hmem) hn

/-- The files of the listed segments are as they were. -/
theorem Opens.still (hopens : Opens s) (hmove : WriterMove F s e s') (h : StemsGiven s)
    {stem : Bytes} (hstem : stem ∈ listedStems s.disk) :
    ∃ r, SegmentReader.openDisk s'.disk stem = .ok r := by
  rw [openDisk_congr fun n hn ↦ hmove.keeps h hstem hn]
  exact hopens stem hstem

/-- What a `Refresh` may leave of the manifest: it is as it was, or it lists one more segment, the
files of which are as they were sealed. -/
theorem IndexWriter.RefreshCut.manifest_cases {w : IndexWriter} {d : Disk}
    (h : w.RefreshCut F d d') : d' kManifestName = d kManifestName ∨
      ∃ r d₁, w.mutableSegment.docCount ≠ 0 ∧ w.Sealed F d d₁ r ∧
        d' kManifestName = some (w.nextManifest r).toText ∧
        ∀ n ∈ segmentNames w.nextStem, d' n = d₁ n := by
  cases h with
  | start => exact Or.inl rfl
  | sealing _ hoff => exact Or.inl (hoff _ (not_mem_segmentNames (by decide)))
  | saving _ hs hoff =>
    left
    rw [hoff _ (by decide), hs.agree_segment _ (not_mem_segmentNames (by decide))]
  | @saved r d₁ _ hpending hs hp =>
    exact Or.inr ⟨r, d₁, hpending, hs, hp.manifest, fun n hn ↦ hp.agree_segment hn⟩
  | @truncated r d₁ d₂ hpending hs hp =>
    refine Or.inr ⟨r, d₁, hpending, hs, ?_, fun n hn ↦ ?_⟩
    · rw [d₂.put_of_ne (by decide), hp.manifest]
    · rw [d₂.put_of_ne fun heq ↦ not_mem_segmentNames (by decide) (heq ▸ hn), hp.agree_segment hn]

/-- **What a step may leave of the manifest.** -/
theorem WriterMove.manifest_cases (hmove : WriterMove F s e s') :
    s'.disk kManifestName = s.disk kManifestName ∨
      ∃ w r d₁, s.writer = some w ∧ (e = .refreshCut ∨ ∃ ok, e = .refreshed ok) ∧
        w.mutableSegment.docCount ≠ 0 ∧ w.Sealed F s.disk d₁ r ∧
        s'.disk kManifestName = some (w.nextManifest r).toText ∧
        ∀ n ∈ segmentNames w.nextStem, s'.disk n = d₁ n := by
  cases hmove with
  | @opened initial schema d₁ t w hnone hfound _ hw =>
    have hcut : OpenCut initial s.disk (touched d₁) := Or.inr (Or.inr ⟨_, d₁, hfound, rfl⟩)
    exact Or.inl (hcut.agree kManifestName (by decide))
  | notOpened _ hcut | openCut _ hcut => exact Or.inl (hcut.agree kManifestName (by decide))
  | added _ hadd => exact Or.inl (hadd.cut.agree kManifestName (by decide))
  | addCut _ hcut => exact Or.inl (hcut.agree kManifestName (by decide))
  | refreshed hw href =>
    refine href.cut.manifest_cases.imp_right ?_
    rintro ⟨r, d₁, hnext⟩
    exact ⟨_, r, d₁, hw, Or.inr ⟨_, rfl⟩, hnext⟩
  | refreshCut hw hcut =>
    refine hcut.manifest_cases.imp_right ?_
    rintro ⟨r, d₁, hnext⟩
    exact ⟨_, r, d₁, hw, Or.inl rfl, hnext⟩
  | closed | crashed => exact Or.inl rfl

/-- **No step makes a listed segment unreadable.** -/
theorem WriterMove.opens (hmove : WriterMove F s e s') (hF : F.Quiet) (h : StemsGiven s)
    (hlisted : ∀ w, s.writer = some w →
      Manifest.ofDisk s.disk = .ok (manifestOf w.currentGen w.sealedSegments))
    (hopens : Opens s) : Opens s' := by
  intro stem hstem
  rcases hmove.manifest_cases with hm | ⟨w, r, d₁, hw, -, -, hs, hm, hfiles⟩
  · exact hopens.still hmove h (listedStems_congr hm ▸ hstem)
  rw [(ofDisk_nextManifest (h.writer w hw) hs hm).2, List.mem_append, List.mem_singleton] at hstem
  rcases hstem with hstem | rfl
  · refine hopens.still hmove h ?_
    rw [listedStems_of_ok (hlisted w hw), manifestOf, List.map_map]
    exact hstem
  · rw [openDisk_congr hfiles]
    exact ⟨r, hs.reader.resolve_right fun hf ↦ hF _ hf.1⟩

end Moves

/-! ### The log is no longer than a segment -/

/-- The segment in memory has an id left for a document that is to be logged. -/
def Ledger.RoomToLog (L : Ledger) (e : WriterEvent) : Prop :=
  ∀ doc rawJson, (e = .addCut doc rawJson ∨ ∃ ok, e = .added doc rawJson ok) →
    ∃ docs, L.pending = some docs ∧ docs.length ≠ kNoMoreDocs

/-- The log has as many documents as there are in memory, and a segment takes them all. -/
structure Ledger.Fits (L : Ledger) : Prop where
  log : (replayedDocs L.log).length ≤ kNoMoreDocs
  pending : ∀ docs, L.pending = some docs → docs.length = (replayedDocs L.log).length

theorem replayedDocs_logRecord_length {doc : Document} {rawJson : Bytes}
    (h : Loggable doc rawJson) :
    (replayedDocs [logRecord doc rawJson]).length = if doc.id = [] then 0 else 1 := by
  have hids := congrArg List.length (map_id_replayedDocs [logRecord doc rawJson])
  rw [List.length_map] at hids
  rw [hids, List.filterMap_cons, replayedId_logRecord h]
  split_ifs <;> rfl

/-- **Every step keeps the log short enough.** -/
theorem LedgerStep.fits {L L' : Ledger} {e : WriterEvent} (hstep : LedgerStep False L e L')
    (hpromised : e.Promised) (hroom : L.RoomToLog e) (h : L.Fits) : L'.Fits := by
  have hcrashed : ∀ {shelves}, Ledger.Fits { L with shelves, pending := none } :=
    ⟨h.log, by rintro _ ⟨⟩⟩
  have hempty : ∀ {shelves pending}, (∀ docs, pending = some docs → docs = []) →
      Ledger.Fits { shelves, log := [], pending } :=
    fun hdocs ↦ ⟨Nat.zero_le _, fun docs hp ↦ congrArg List.length (hdocs docs hp)⟩
  cases hstep with
  | opened =>
    refine ⟨h.log, ?_⟩
    rintro _ ⟨⟩
    rfl
  | notOpened | openCut | refused | notSealed | idle => exact h
  | notLogged hloose | notTruncated hloose => exact hloose.elim
  | @rejected docs doc rawJson log hdocs hrej hlog =>
    obtain rfl := hlog.resolve_left not_false
    obtain ⟨docs', hdocs', hleft⟩ := hroom doc rawJson (Or.inr ⟨_, rfl⟩)
    have hid : doc.id = [] := hrej.resolve_right fun hfull ↦
      hleft (Option.some.inj (hdocs'.symm.trans hdocs) ▸ hfull)
    have hsame : (replayedDocs (L.log ++ [logRecord doc rawJson])).length =
        (replayedDocs L.log).length := by
      rw [replayedDocs_append, List.length_append, replayedDocs_logRecord_length hpromised,
        if_pos hid]
      rfl
    exact ⟨hsame.trans_le h.log, fun docs hp ↦ (h.pending docs hp).trans hsame.symm⟩
  | @accepted docs doc rawJson log hdocs hid hlog =>
    obtain rfl := hlog.resolve_left not_false
    obtain ⟨docs', hdocs', hleft⟩ := hroom doc rawJson (Or.inr ⟨_, rfl⟩)
    obtain rfl := Option.some.inj (hdocs'.symm.trans hdocs)
    have hmore : (replayedDocs (L.log ++ [logRecord doc rawJson])).length =
        (replayedDocs L.log).length + 1 := by
      rw [replayedDocs_append, List.length_append, replayedDocs_logRecord_length hpromised,
        if_neg hid]
    have hlen := h.pending _ hdocs
    refine ⟨?_, ?_⟩
    · have hlog := h.log
      show (replayedDocs (L.log ++ [logRecord doc rawJson])).length ≤ kNoMoreDocs
      omega
    · rintro _ ⟨⟩
      rw [List.length_append, List.length_singleton, hlen]
      exact hmore.symm
  | @addCut doc rawJson log hlog =>
    rcases hlog.resolve_left not_false with rfl | rfl
    · exact hcrashed
    obtain ⟨docs, hdocs, hleft⟩ := hroom doc rawJson (Or.inl rfl)
    have hlen := h.pending docs hdocs
    refine ⟨?_, by rintro _ ⟨⟩⟩
    have hlog := h.log
    show (replayedDocs (L.log ++ [logRecord doc rawJson])).length ≤ kNoMoreDocs
    rw [replayedDocs_append, List.length_append, replayedDocs_logRecord_length hpromised]
    split_ifs <;> omega
  | shelved => exact hempty (by rintro _ ⟨⟩; rfl)
  | truncatedCut => exact hempty (by rintro _ ⟨⟩)
  | savedCut | sealCut | closed | crashed => exact hcrashed

/-- A log that is short enough is replayed. -/
theorem replayRecords_ok {schema : Schema} : ∀ {recs : List Bytes} {held : List Document},
    (held ++ replayedDocs recs).length ≤ kNoMoreDocs →
      replayRecords recs (.build schema held) = .ok (.build schema (held ++ replayedDocs recs))
  | [], held, _ => by
    rw [replayedDocs, List.filterMap_nil, List.append_nil]
    rfl
  | rec :: recs, held, hlen => by
    rw [replayedDocs, List.filterMap_cons, replayedDoc] at hlen ⊢
    rw [replayRecords]
    cases hdoc : docFromJson rec with
    | error e =>
      rw [hdoc] at hlen
      exact replayRecords_ok hlen
    | ok doc =>
      rw [hdoc] at hlen
      have hlen' : (held ++ [doc] ++ replayedDocs recs).length ≤ kNoMoreDocs := by
        rwa [List.append_assoc]
      have hfull : held.length ≠ kNoMoreDocs := by
        rw [List.length_append, List.length_append, List.length_singleton] at hlen'
        omega
      have hadd : (MutableSegment.build schema held).addDocument doc =
          .ok (.build schema (held ++ [doc]), held.length) := by
        rw [MutableSegment.addDocument, if_neg (id_ne_nil_of_docFromJson hdoc)]
        show (if held.length = kNoMoreDocs then _ else _) = _
        rw [if_neg hfull, ← MutableSegment.build_append_singleton]
        rfl
      refine bind_eq_ok.2 ⟨_, hadd, ?_⟩
      have hrest : replayRecords recs (.build schema (held ++ [doc])) = _ := replayRecords_ok hlen'
      rwa [List.append_assoc] at hrest

/-! ### Runs with crashes -/

/-- The steps of an index that was created without a crash: afterwards crashes may come between file
operations or cut them off, no operation fails, sizes fit, nothing is appended to a torn record, and
ids last. -/
structure RecoverableStep (F : Faults) (s : WriterState) (e : WriterEvent) (s' : WriterState) :
    Prop extends DurableStep F s e s' where
  room : ∀ w doc rawJson, (e = .addCut doc rawJson ∨ ∃ ok, e = .added doc rawJson ok) →
    s.writer = some w → w.mutableSegment.docCount ≠ kNoMoreDocs
  schema : ∀ schema ok, e = .opened (some schema) ok →
    (∀ f ∈ schema.fields, f.Exact) ∧ schema.hasField Schema.kIdField = true
  created : (e = .openCut ∨ ∃ initial, e = .opened initial false) → s.disk kSchemaFilename ≠ none

/-- What is known of an index in such a run. -/
structure Recoverable (es : List WriterEvent) (s : WriterState) (L : Ledger) : Prop where
  kept : Kept False s L
  ready : s.Ready
  fits : L.Fits
  opens : Opens s
  founded : s.disk kSchemaFilename = none ∧ s.writer = none ∨ ∃ schema, Founded s schema
  finds : ∀ doc rawJson, .added doc rawJson true ∈ es → L.Finds doc.id

section Runs

variable {F : Faults} {s s' : WriterState} {e : WriterEvent} {es : List WriterEvent} {L : Ledger}

/-- The first `Open` founds the index. -/
theorem RecoverableStep.founded (h : RecoverableStep F s e s') (hready : s.Ready)
    (hs : s.disk kSchemaFilename = none ∧ s.writer = none ∨ ∃ schema, Founded s schema) :
    s'.disk kSchemaFilename = none ∧ s'.writer = none ∨ ∃ schema, Founded s' schema := by
  have hmove := h.step.move hready
  rcases hs with ⟨hnone, hwriter⟩ | ⟨schema, hs⟩
  · cases hmove with
    | @opened initial schema d₁ t w _ hfound _ hw =>
      refine Or.inr ⟨schema, ?_⟩
      generalize hres : (Except.ok schema : Expected Schema) = res at hfound
      cases hfound with
      | loaded htext => cases htext.symm.trans hnone
      | missing => cases hres
      | written _ hgiven =>
        obtain rfl := Except.ok.inj hres
        obtain ⟨hexact, hid⟩ := h.schema schema true (hgiven ▸ rfl)
        refine ⟨hexact, hid, ?_, ?_⟩
        · show touched (s.disk.put kSchemaFilename schema.toText) kSchemaFilename = some _
          rw [touched, Disk.put_of_ne _ (by decide), Disk.put_self]
        · rintro _ ⟨⟩
          exact Or.inl (ofDisk_schema hw)
    | notOpened => exact absurd hnone (h.created (Or.inr ⟨_, rfl⟩))
    | openCut => exact absurd hnone (h.created (Or.inl rfl))
    | added hw | addCut hw | refreshed hw | refreshCut hw | closed hw => cases hwriter.symm.trans hw
    | crashed => exact Or.inl ⟨hnone, rfl⟩
  · exact Or.inr ⟨schema, hmove.founded hs⟩

/-- The documents in memory are as many as the writer counts. -/
theorem RecoverableStep.roomToLog (hstep : RecoverableStep F s e s') (h : Recoverable es s L) :
    L.RoomToLog e := by
  intro doc rawJson he
  have hwriter : ∃ w, s.writer = some w := by
    cases hstep.step.move h.ready with
    | added hw | addCut hw => exact ⟨_, hw⟩
    | opened | notOpened | openCut | refreshed | refreshCut | closed | crashed =>
      rcases he with he | ⟨_, he⟩ <;> cases he
  obtain ⟨w, hw⟩ := hwriter
  obtain ⟨docs, hdocs, hkeeps⟩ := h.kept.writer w hw
  exact ⟨docs, hdocs, hkeeps.docCount ▸ hstep.room w doc rawJson he hw⟩

/-- **Every step keeps the index recoverable.** -/
theorem RecoverableStep.recoverable (hstep : RecoverableStep F s e s') (h : Recoverable es s L) :
    ∃ L', LedgerStep False L e L' ∧ Recoverable (es ++ [e]) s' L' := by
  have hmove := hstep.step.move h.ready
  obtain ⟨L', hledger, hkept'⟩ := hmove.ledger h.kept hstep.fits (Or.inl (savesManifest_quiet F))
    (Or.inr ⟨F.quiet_quiet, hstep.logSafe⟩)
  refine ⟨L', hledger, hkept', hmove.ready h.ready,
    hledger.fits hstep.promised (hstep.roomToLog h) h.fits,
    hmove.opens F.quiet_quiet h.kept.stems (fun _ ↦ h.kept.listed) h.opens,
    hstep.founded h.ready h.founded, ?_⟩
  intro doc rawJson hmem
  rcases List.mem_append.1 hmem with hmem | hmem
  · exact hledger.finds (h.finds doc rawJson hmem)
  · obtain rfl := List.mem_singleton.1 hmem
    exact hledger.finds_added hstep.promised

theorem recoverable_start : Recoverable [] .start {} := by
  refine ⟨kept_start False, WriterState.ready_start, ⟨Nat.zero_le _, by rintro _ ⟨⟩⟩, ?_,
    Or.inl ⟨rfl, rfl⟩, by simp⟩
  rintro stem ⟨⟩

theorem exists_recoverable (h : Run (RecoverableStep F) .start es s) :
    ∃ L, Recoverable es s L := by
  refine h.invariant_events (I := fun es s ↦ ∃ L, Recoverable es s L) ⟨{}, recoverable_start⟩ ?_
  rintro es s e s' ⟨L, h⟩ hstep
  obtain ⟨L', -, h'⟩ := hstep.recoverable h
  exact ⟨L', h'⟩

/-- The writer of some files, part by part. -/
theorem IndexWriter.ofDisk_eq {d : Disk} {m : Manifest} {rs : List SegmentReader}
    {seg : MutableSegment} (hm : Manifest.ofDisk d = .ok m)
    (hrs : (m.segments.mapM fun ms ↦ SegmentReader.openDisk d ms.stem) = .ok rs) (schema : Schema)
    (hseg : replayRecords (records (d.content kTranslogName)) (.new schema) = .ok seg)
    (t : Translog) : IndexWriter.ofDisk d schema t = .ok
      { schema, mutableSegment := seg, translog := some t, sealedSegments := rs,
        currentGen := m.generation, nextSegmentId := 0, publishedReader := ⟨schema, rs⟩ } :=
  bind_eq_ok.2 ⟨_, bind_eq_ok.2 ⟨m, hm, bind_eq_ok.2 ⟨rs, hrs, rfl⟩⟩, bind_eq_ok.2 ⟨seg, hseg, rfl⟩⟩

/-- The whole log is replayed. -/
theorem Recoverable.replay (h : Recoverable es s L) (schema : Schema) :
    replayRecords (records (s.disk.content kTranslogName)) (.new schema) =
      .ok (.build schema (replayedDocs L.log)) := by
  rw [h.kept.log, ← MutableSegment.build_nil]
  exact replayRecords_ok h.fits.log

/-- The files of a recoverable index make a writer. -/
theorem Recoverable.exists_ofDisk (h : Recoverable es s L) (schema : Schema) (t : Translog) :
    ∃ w, IndexWriter.ofDisk s.disk schema t = .ok w := by
  obtain ⟨m, hm, -⟩ := h.kept.manifest
  obtain ⟨rs, hrs⟩ := h.opens.exists_readers hm
  exact ⟨_, IndexWriter.ofDisk_eq hm hrs schema (h.replay schema) t⟩

/-- A crash may come at any time. -/
theorem RecoverableStep.of_crash (F : Faults) (s : WriterState) :
    RecoverableStep F s .crashed ⟨none, s.disk⟩ where
  step := .crashed
  promised := trivial
  fits := .of_not_refresh (by simp) (by simp)
  logSafe := .of_not_add (by simp) (by simp)
  room := by simp
  schema := by simp
  created := by simp

/-- An index is opened, with a schema or without. -/
theorem DurableStep.recoverable_opened {initial : Option Schema}
    (h : DurableStep F s (.opened initial true) s')
    (hschema : ∀ schema, initial = some schema →
      (∀ f ∈ schema.fields, f.Exact) ∧ schema.hasField Schema.kIdField = true) :
    RecoverableStep F s (.opened initial true) s' where
  toDurableStep := h
  room := by simp
  schema := by
    rintro schema _ ⟨⟩
    exact hschema schema rfl
  created := by simp

/-- A document is added. -/
theorem DurableStep.recoverable_added {doc : Document} {rawJson : Bytes} {ok : Bool}
    (h : DurableStep F s (.added doc rawJson ok) s')
    (hroom : ∀ w, s.writer = some w → w.mutableSegment.docCount ≠ kNoMoreDocs) :
    RecoverableStep F s (.added doc rawJson ok) s' where
  toDurableStep := h
  room w _ _ _ := hroom w
  schema := by simp
  created := by simp

/-- A founded index can be opened. -/
theorem Recoverable.reopens {schema : Schema} (h : Recoverable es s L) (F : Faults)
    (hnone : s.writer = none) (hfounded : Founded s schema) :
    ∃ t w, IndexWriter.ofDisk s.disk schema.readBack t = .ok w ∧
      RecoverableStep F s (.opened none true) ⟨some w, touched s.disk⟩ := by
  obtain ⟨t, w, -, hw, hstep⟩ :=
    step_reopened F.quiet hnone (hfounded.schemaFound none) fun t ↦ h.exists_ofDisk _ t
  have hdurable : DurableStep F s (.opened none true) ⟨some w, touched s.disk⟩ :=
    ⟨hstep, trivial, .of_not_refresh (by simp) (by simp), .of_not_add (by simp) (by simp)⟩
  exact ⟨t, w, hw, hdurable.recoverable_opened (by rintro _ ⟨⟩)⟩

end Runs

/-- **An index recovers**: whatever crashed, the next `Open` succeeds, and the writer has every
acknowledged document. -/
theorem recovers {F : Faults} {es : List WriterEvent} {s : WriterState}
    (h : Run (RecoverableStep F) .start es s) (hcreated : s.disk kSchemaFilename ≠ none)
    (hnone : s.writer = none) :
    ∃ w, RecoverableStep F s (.opened none true) ⟨some w, touched s.disk⟩ ∧
      ∀ doc rawJson, .added doc rawJson true ∈ es →
        doc.id ∈ w.sealedSegments.flatMap (·.ids) ∨ doc.id ∈ w.mutableSegment.docIds := by
  obtain ⟨L, hrec⟩ := exists_recoverable h
  obtain ⟨schema, hfounded⟩ := hrec.founded.resolve_left fun hempty ↦ hcreated hempty.1
  obtain ⟨t, w, -, hopen⟩ := hrec.reopens F hnone hfounded
  refine ⟨w, hopen, fun doc rawJson hmem ↦ ?_⟩
  obtain ⟨L', hrec'⟩ := exists_recoverable (h.step hopen)
  exact hrec'.kept.finds rfl (hrec'.finds doc rawJson (List.mem_append_left _ hmem))

section Samples

omit [LibcDecimal]

/-- A new index, and a document. -/
theorem recoverable_sample : ∃ t, Run (@RecoverableStep .integral Faults.none) .start
    [.opened (some sampleSchema) true, .added sampleDoc [] true]
      ⟨some (sampleWriter t), sampleDisk⟩ := by
  let _ := LibcDecimal.integral
  obtain ⟨t₁, ht₁, hopen⟩ := durable_opened Faults.none sampleSchema
  obtain ⟨t, -, hadd⟩ := durable_added Faults.none ht₁ loggable_sampleDoc shortRecord_sampleDoc
    addDocument_sample
  refine ⟨t, (Run.single (hopen.recoverable_opened ?_)).step (hadd.recoverable_added ?_)⟩
  · rintro _ ⟨⟩
    exact ⟨IndexWriter.exact_sampleSchema, by decide⟩
  · rintro _ ⟨⟩
    exact (by decide : (0 : ℕ) ≠ kNoMoreDocs)

theorem recovers_sample :
    ∃ w, @RecoverableStep .integral Faults.none ⟨none, sampleDisk⟩ (.opened none true)
        ⟨some w, touched sampleDisk⟩ ∧
      ∀ doc rawJson, .added doc rawJson true ∈ [WriterEvent.opened (some sampleSchema) true,
          .added sampleDoc [] true, .crashed] →
        doc.id ∈ w.sealedSegments.flatMap (@SegmentReader.ids .integral) ∨
          doc.id ∈ w.mutableSegment.docIds := by
  let _ := LibcDecimal.integral
  obtain ⟨t, hrun⟩ := recoverable_sample
  refine recovers (hrun.step (RecoverableStep.of_crash Faults.none _)) ?_ rfl
  show sampleDisk kSchemaFilename ≠ none
  rw [sampleDisk, IndexWriter.logged, Disk.put_of_ne _ (by decide), touched,
    Disk.put_of_ne _ (by decide), Disk.put_self]
  exact Option.some_ne_none _

end Samples

end Spp.Index
