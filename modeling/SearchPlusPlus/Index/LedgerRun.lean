import SearchPlusPlus.Index.Ledger
import SearchPlusPlus.Index.SealedStems

/-!
# The writer keeps a ledger

A writer and its directory hold what a ledger says (`Kept`), and every step of the writer is a step
of the ledger (`WriterMove.ledger`): the manifest lists a segment for each shelf, and the segment
has the stored fields of its documents; the log holds the records; the segment in memory is the one
built from the pending documents. This needs sizes the formats can express, a log that does not end
in a torn record when something is appended, and a manifest that is saved without a failure.
-/

namespace Spp.Index

open Json Store

variable [LibcDecimal]

/-! ### Readers and documents -/

omit [LibcDecimal] in
/-- The sizes of stored documents that the file format can express. -/
structure MutableSegment.Storable (seg : MutableSegment) : Prop where
  blobs : ∀ b ∈ seg.storedBlobs, b.length < 2 ^ 32
  fdt : (seg.storedBlobs.flatMap storedEntry).length < 2 ^ 64

/-- The id in a stored blob, as a search reads it. -/
def storedId (blob : Bytes) : Bytes :=
  match parse blob with
  | .ok v => (v.findString Schema.kIdField).getD []
  | .error _ => []

theorem storedId_storedBlob (schema : Schema) (doc : Document) :
    storedId (MutableSegment.storedBlob schema doc) = doc.id := by
  simp only [storedId, MutableSegment.storedBlob, parse_serialize_ofStrings, findString_ofStrings,
    find?_storedFields, Option.getD_some]

/-- The ids of the documents of a segment, in order. -/
def SegmentReader.ids (r : SegmentReader) : List Bytes :=
  (List.range r.docCount).map fun i ↦ storedId (r.storedFields i)

/-- The ids of the documents of an index, in order. -/
def IndexReader.ids (r : IndexReader) : List Bytes := r.segments.flatMap (·.ids)

/-- A reader has the stored fields of these documents. -/
structure Stores (r : SegmentReader) (docs : List Document) : Prop where
  docCount : r.docCount = docs.length
  storedFields : ∃ schema, ∀ i doc, docs[i]? = some doc →
    r.storedFields i = MutableSegment.storedBlob schema doc

theorem Stores.ids_eq {r : SegmentReader} {docs : List Document} (h : Stores r docs) :
    r.ids = docs.map (·.id) := by
  obtain ⟨schema, hstored⟩ := h.storedFields
  refine List.ext_getElem (by simp [SegmentReader.ids, h.docCount]) fun i hi hi' ↦ ?_
  rw [List.length_map] at hi'
  rw [List.getElem_map, ← storedId_storedBlob schema docs[i], ← hstored i docs[i] (by simp)]
  simp [SegmentReader.ids]

theorem flatMap_ids {rs : List SegmentReader} {shelves : List (List Document)}
    (h : List.Forall₂ Stores rs shelves) :
    rs.flatMap (·.ids) = shelves.flatten.map (·.id) := by
  induction h with
  | nil => rfl
  | cons hr _ ih => rw [List.flatMap_cons, List.flatten_cons, List.map_append, hr.ids_eq, ih]

theorem sum_docCount {rs : List SegmentReader} {shelves : List (List Document)}
    (h : List.Forall₂ Stores rs shelves) :
    (rs.map (·.docCount)).sum = shelves.flatten.length := by
  induction h with
  | nil => rfl
  | cons hr _ ih =>
    rw [List.map_cons, List.sum_cons, List.flatten_cons, List.length_append, hr.docCount, ih]

section Reading

variable {schema : Schema} {docs : List Document} {stem : Bytes} {d d' : Disk} {r : SegmentReader}

omit [LibcDecimal] in
/-- The documents read from five files are the same with or without a quality file. -/
theorem openDisk_docs (h : SegmentReader.openDisk d stem = .ok r) :
    ∃ r', SegmentReader.ofDisk d stem = .ok r' ∧ r.stem = r'.stem ∧ r.docCount = r'.docCount ∧
      r.fdtBuf = r'.fdtBuf ∧ r.fdxOffsets = r'.fdxOffsets := by
  obtain ⟨reader, hreader, h⟩ := bind_eq_ok.1 h
  refine ⟨reader, hreader, ?_⟩
  cases hq : d (stem ++ kSegDocQualityExt) with
  | none =>
    rw [hq] at h
    obtain rfl := Except.ok.inj h
    exact ⟨rfl, rfl, rfl, rfl⟩
  | some dvq =>
    rw [hq] at h
    obtain ⟨⟨quality, _⟩, -, h⟩ := bind_eq_ok.1 h
    obtain rfl := Except.ok.inj h
    exact ⟨rfl, rfl, rfl, rfl⟩

/-- **The files of a sealed segment** hold its documents, if they can be opened at all. -/
theorem stores_of_holds (hlen : docs.length ≤ kNoMoreDocs)
    (hfits : (MutableSegment.build schema docs).Storable)
    (hholds : Holds ((sealBuffers (.build schema docs) stem).2.toList stem) d)
    (h : SegmentReader.openDisk d stem = .ok r ∨ SegmentReader.ofDisk d stem = .ok r) :
    r.stem = stem ∧ Stores r docs := by
  have hwf : (MutableSegment.build schema docs).WellFormed :=
    MutableSegment.build_wellFormed schema hlen
  have hdocs : r.stem = stem ∧ r.docCount = docs.length ∧
      r.fdtBuf = (MutableSegment.build schema docs).storedBlobs.flatMap storedEntry ∧
      r.fdxOffsets = offsetsFrom 0 (MutableSegment.build schema docs).storedBlobs := by
    rcases h with h | h
    · obtain ⟨r', h', hstem, hcount, hfdt, hfdx⟩ := openDisk_docs h
      rw [ofDisk_of_holds hholds] at h'
      rw [hstem, hcount, hfdt, hfdx]
      exact MutableSegment.parse_sealed_docs stem hwf (ParseFailure.mapError_eq_ok.1 h')
    · rw [ofDisk_of_holds hholds] at h
      exact MutableSegment.parse_sealed_docs stem hwf (ParseFailure.mapError_eq_ok.1 h)
  obtain ⟨hstem, hcount, hfdt, hfdx⟩ := hdocs
  refine ⟨hstem, hcount, schema, fun i doc hdoc ↦ ?_⟩
  have hblob : (MutableSegment.build schema docs).storedBlobs[i]? =
      some (MutableSegment.storedBlob schema doc) := by
    rw [MutableSegment.build, List.getElem?_map, hdoc, Option.map_some]
  exact storedFields_of_fdt hfdt hfdx hfits.fdt hblob (hfits.blobs _ (List.mem_of_getElem? hblob))

omit [LibcDecimal] in
theorem openDisk_congr (h : ∀ n ∈ segmentNames stem, d' n = d n) :
    SegmentReader.openDisk d' stem = SegmentReader.openDisk d stem := by
  simp only [segmentNames, List.map_cons, List.map_nil, List.forall_mem_cons] at h
  obtain ⟨hdoc, htim, hfdt, hfdx, hsi, hdvq, -⟩ := h
  simp only [SegmentReader.openDisk, SegmentReader.ofDisk, loadReply, hdoc, htim, hfdt, hfdx, hsi,
    hdvq]

end Reading

/-! ### The invariant -/

/-- What a listed segment is when it can be opened. -/
def Shelved (d : Disk) (ms : ManifestSegment) (docs : List Document) : Prop :=
  ∀ r, SegmentReader.openDisk d ms.stem = .ok r → Stores r docs ∧ ms.docCount = r.docCount

/-- A writer has sealed the shelves, and has these documents in memory. -/
structure IndexWriter.Keeps (loose : Prop) (w : IndexWriter) (d : Disk)
    (shelves : List (List Document)) (docs : List Document) : Prop where
  manifest : Manifest.ofDisk d = .ok (manifestOf w.currentGen w.sealedSegments)
  segments : List.Forall₂ Stores w.sealedSegments shelves
  pending : w.mutableSegment = .build w.schema docs
  length : docs.length ≤ kNoMoreDocs
  published : loose ∨ w.publishedReader.segments = w.sealedSegments

/-- **A writer and its directory keep a ledger.** -/
structure Kept (loose : Prop) (s : WriterState) (L : Ledger) : Prop where
  stems : StemsGiven s
  manifest : ∃ m, Manifest.ofDisk s.disk = .ok m ∧
    m.generation = UInt64.ofNat L.shelves.length ∧
      List.Forall₂ (Shelved s.disk) m.segments L.shelves
  log : records (s.disk.content kTranslogName) = L.log
  closed : s.writer = none → L.pending = none
  writer : ∀ w, s.writer = some w → ∃ docs, L.pending = some docs ∧
    w.Keeps loose s.disk L.shelves docs

theorem kept_start (loose : Prop) : Kept loose .start {} where
  stems := stemsGiven_start
  manifest := ⟨{}, rfl, rfl, .nil⟩
  log := rfl
  closed _ := rfl
  writer := by rintro _ ⟨⟩

/-! ### The steps -/

/-- The stored documents of a `Refresh` fit the format, and no counter is used up. -/
structure StepFits (s : WriterState) (e : WriterEvent) : Prop where
  counters : CountersLeft s e
  storable : ∀ w, s.writer = some w → (e = .refreshCut ∨ ∃ ok, e = .refreshed ok) →
    w.mutableSegment.Storable

/-- A record is appended to a log of whole records, and its length is one a header can hold. -/
def LogSafe (s : WriterState) (e : WriterEvent) : Prop :=
  ∀ doc rawJson, (e = .addCut doc rawJson ∨ ∃ ok, e = .added doc rawJson ok) →
    (logRecord doc rawJson).length < 2 ^ 32 ∧ unread (s.disk.content kTranslogName) = []

section Kinds

variable {s : WriterState} {e : WriterEvent}

omit [LibcDecimal] in
/-- Only a `Refresh` is asked to fit. -/
theorem StepFits.of_not_refresh (hcut : e ≠ .refreshCut) (href : ∀ ok, e ≠ .refreshed ok) :
    StepFits s e where
  counters w _ _ := by
    refine ⟨?_, fun he ↦ absurd he (href false)⟩
    rintro (he | ⟨ok, he⟩)
    · exact absurd he hcut
    · exact absurd he (href ok)
  storable w _ he := by
    rcases he with he | ⟨ok, he⟩
    · exact absurd he hcut
    · exact absurd he (href ok)

/-- Only an `AddDocument` is asked for room in the log. -/
theorem LogSafe.of_not_add (hcut : ∀ doc rawJson, e ≠ .addCut doc rawJson)
    (hadd : ∀ doc rawJson ok, e ≠ .added doc rawJson ok) : LogSafe s e := by
  rintro doc rawJson (he | ⟨ok, he⟩)
  · exact absurd he (hcut doc rawJson)
  · exact absurd he (hadd doc rawJson ok)

end Kinds

/-- No operation of `SaveManifest` fails. -/
def SavesManifest (F : Faults) : Prop :=
  (∀ m, ∀ a ∈ publishActions m, ¬F.fails (.act a)) ∧ ¬F.fails (.act .fsyncDirectory)

/-- A segment is added to the sealed ones only with a generation. -/
def Saves (s s' : WriterState) : Prop :=
  ∀ w w', s.writer = some w → s'.writer = some w' →
    w'.sealedSegments.length ≠ w.sealedSegments.length → w'.currentGen ≠ w.currentGen

/-- A step of the writer that is one of its ledger. -/
structure LedgerSafe (loose : Prop) (F : Faults) (s : WriterState) (e : WriterEvent)
    (s' : WriterState) : Prop where
  step : WriterStep F s e s'
  fits : StepFits s e
  saves : SavesManifest F ∨ Saves s s'
  log : loose ∨ F.Quiet ∧ LogSafe s e

section Steps

variable {F : Faults} {loose : Prop} {s s' : WriterState} {e : WriterEvent} {L : Ledger}
  {w : IndexWriter} {docs : List Document} {d₁ d' : Disk} {r : SegmentReader}

/-- What is listed is what it was as long as its files are. -/
theorem Kept.shelved (h : Kept loose s L)
    (hsame : ∀ stem ∈ listedStems s.disk, ∀ n ∈ segmentNames stem, d' n = s.disk n) :
    ∃ m, Manifest.ofDisk s.disk = .ok m ∧ m.generation = UInt64.ofNat L.shelves.length ∧
      List.Forall₂ (Shelved d') m.segments L.shelves := by
  obtain ⟨m, hm, hgen, hshelves⟩ := h.manifest
  refine ⟨m, hm, hgen, ?_⟩
  obtain ⟨hlen, hall⟩ := List.forall₂_iff_zip.1 hshelves
  refine List.forall₂_iff_zip.2 ⟨hlen, fun {ms docs} hmem r hr ↦ hall hmem r ?_⟩
  have hlisted : ms.stem ∈ listedStems s.disk := by
    rw [listedStems_of_ok hm]
    exact List.mem_map_of_mem (List.of_mem_zip hmem).1
  rwa [openDisk_congr (hsame _ hlisted)] at hr

theorem Kept.still (h : Kept loose s L) (hmove : WriterMove F s e s') :
    ∃ m, Manifest.ofDisk s.disk = .ok m ∧ m.generation = UInt64.ofNat L.shelves.length ∧
      List.Forall₂ (Shelved s'.disk) m.segments L.shelves :=
  h.shelved fun _ hstem _ hn ↦ hmove.keeps h.stems hstem hn

theorem Kept.manifest_of_same (h : Kept loose s L) (hmove : WriterMove F s e s')
    (hsame : s'.disk kManifestName = s.disk kManifestName) :
    ∃ m, Manifest.ofDisk s'.disk = .ok m ∧ m.generation = UInt64.ofNat L.shelves.length ∧
      List.Forall₂ (Shelved s'.disk) m.segments L.shelves := by
  rw [Manifest.ofDisk_congr hsame]
  exact h.still hmove

/-- A sealed segment has the pending documents, now and when it is opened later. -/
theorem shelved_sealed (hkeeps : w.Keeps loose s.disk L.shelves docs)
    (hfits : w.mutableSegment.Storable) (hs : w.Sealed F s.disk d₁ r)
    (hsame : ∀ n ∈ segmentNames w.nextStem, d' n = d₁ n) :
    Stores r docs ∧ Shelved d' { stem := r.stem, docCount := r.docCount } docs := by
  have hsub := ((sealBuffers w.mutableSegment w.nextStem).2.toList_names w.nextStem).subset
  have hholds : Holds w.nextFiles d' := fun p hp ↦ by
    rw [hsame _ (hsub (List.mem_map_of_mem hp))]
    exact hs.holds p hp
  have hholds₁ := hs.holds
  rw [IndexWriter.nextFiles, hkeeps.pending] at hholds hholds₁
  rw [hkeeps.pending] at hfits
  have hr := stores_of_holds hkeeps.length hfits hholds₁ (hs.reader.imp id And.right)
  refine ⟨hr.2, fun r' hr' ↦ ?_⟩
  rw [hr.1] at hr'
  have hstores := stores_of_holds hkeeps.length hfits hholds (Or.inl hr')
  exact ⟨hstores.2, hr.2.docCount.trans hstores.2.docCount.symm⟩

/-- The manifest lists one more segment, which has the pending documents. -/
theorem Kept.manifest_of_next (h : Kept loose s L) (hmove : WriterMove F s e s')
    (hw : s.writer = some w) (hkeeps : w.Keeps loose s.disk L.shelves docs)
    (hfits : w.mutableSegment.Storable) (hs : w.Sealed F s.disk d₁ r)
    (hnext : s'.disk kManifestName = some (w.nextManifest r).toText)
    (hsame : ∀ n ∈ segmentNames w.nextStem, s'.disk n = d₁ n) :
    Manifest.ofDisk s'.disk = .ok (w.nextManifest r) ∧
      (w.nextManifest r).generation = UInt64.ofNat (L.shelves ++ [docs]).length ∧
      List.Forall₂ (Shelved s'.disk) (w.nextManifest r).segments (L.shelves ++ [docs]) := by
  obtain ⟨m, hm, hgen, hstill⟩ := h.still hmove
  obtain rfl := Except.ok.inj (hkeeps.manifest.symm.trans hm)
  refine ⟨(ofDisk_nextManifest (h.stems.writer w hw) hs hnext).1, ?_, ?_⟩
  · have hgen' : w.currentGen = UInt64.ofNat L.shelves.length := hgen
    show w.currentGen + 1 = _
    rw [hgen', List.length_append, List.length_singleton, UInt64.ofNat_add]
    rfl
  · have hnew := (shelved_sealed hkeeps hfits hs hsame).2
    have happend := List.rel_append hstill (List.Forall₂.cons hnew .nil)
    simpa only [IndexWriter.nextManifest, manifestOf, List.map_append, List.map_cons, List.map_nil]
      using happend

/-- The segments that `Open` opens have the documents of the shelves. -/
theorem stores_of_mapM {l : List ManifestSegment} {d : Disk} {shelves : List (List Document)}
    (h : List.Forall₂ (Shelved d) l shelves) : ∀ {rs : List SegmentReader},
      (l.mapM fun ms ↦ SegmentReader.openDisk d ms.stem) = .ok rs →
        List.Forall₂ Stores rs shelves ∧
          l = rs.map fun r ↦ { stem := r.stem, docCount := r.docCount } := by
  induction h with
  | nil =>
    intro rs hrs
    obtain rfl : [] = rs := Except.ok.inj hrs
    exact ⟨.nil, rfl⟩
  | @cons ms docs l shelves hms _ ih =>
    intro rs hrs
    rw [List.mapM_cons] at hrs
    obtain ⟨r, hr, hrs⟩ := bind_eq_ok.1 hrs
    obtain ⟨rs', hrs', hrs⟩ := bind_eq_ok.1 hrs
    obtain rfl : r :: rs' = rs := Except.ok.inj hrs
    obtain ⟨hstores, hcount⟩ := hms r hr
    obtain ⟨hall, rfl⟩ := ih hrs'
    refine ⟨.cons hstores hall, ?_⟩
    rw [List.map_cons, (SegmentReader.openDisk_eq_ok hr).1, ← hcount]

/-- Finding the schema leaves the log alone, and so does the rest of `Open`. -/
theorem content_found {initial : Option Schema} {d : Disk} {res : Expected Schema}
    (h : SchemaFound initial d res d₁) :
    d₁.content kTranslogName = d.content kTranslogName := by
  have hlog := h.crash (C := fun d' ↦ d' kTranslogName = d kTranslogName) rfl
    fun _ x _ _ _ ↦ d.put_of_ne (by decide) x
  rw [Disk.content, hlog, Disk.content]

theorem OpenCut.content {initial : Option Schema} {d : Disk} (h : OpenCut initial d d') :
    d'.content kTranslogName = d.content kTranslogName := by
  rcases h with rfl | ⟨_, x, -, -, -, rfl⟩ | ⟨_, d₁, hfound, rfl⟩
  · rfl
  · rw [Disk.content, d.put_of_ne (by decide), Disk.content]
  · rw [touched, Disk.content_put, content_found hfound]

/-- **`Open`** finds the shelves, and replays the log. -/
theorem keeps_opened {initial : Option Schema} {schema : Schema} {t : Translog}
    (h : Kept loose s L) (hfound : SchemaFound initial s.disk (.ok schema) d₁)
    (hw : IndexWriter.ofDisk d₁ schema t = .ok w) :
    w.Keeps loose (touched d₁) L.shelves (replayedDocs L.log) := by
  have hother : ∀ n, n ≠ kSchemaFilename → d₁ n = s.disk n := fun n hn ↦
    hfound.crash (C := fun d ↦ d n = s.disk n) rfl fun _ x _ _ _ ↦ s.disk.put_of_ne hn x
  obtain ⟨_, -, -, hup⟩ := h.stems.manifest
  obtain ⟨m, hm, -, hshelves⟩ := h.shelved fun stem hstem n hn ↦ hother n fun heq ↦ by
    obtain ⟨g, i, rfl, -⟩ := hup stem hstem
    exact not_mem_segmentNames (by decide) (heq ▸ hn)
  obtain ⟨w₁, hw₁, hw⟩ := bind_eq_ok.1 hw
  obtain ⟨seg, hseg, hw⟩ := bind_eq_ok.1 hw
  obtain rfl := Except.ok.inj hw
  obtain ⟨m', hm', hw₁⟩ := bind_eq_ok.1 hw₁
  obtain ⟨rs, hrs, hw₁⟩ := bind_eq_ok.1 hw₁
  obtain rfl := Except.ok.inj hw₁
  rw [Manifest.ofDisk_congr (hother _ (by decide)), hm] at hm'
  obtain rfl := Except.ok.inj hm'
  obtain ⟨hstores, hlist⟩ := stores_of_mapM hshelves hrs
  rw [content_found hfound, h.log, ← MutableSegment.build_nil] at hseg
  obtain ⟨rfl, hlen⟩ := replayRecords_build (Nat.zero_le _) hseg
  refine ⟨?_, hstores, rfl, hlen, Or.inr rfl⟩
  have htouched : touched d₁ kManifestName = s.disk kManifestName := by
    rw [touched, d₁.put_of_ne (by decide), hother _ (by decide)]
  rw [Manifest.ofDisk_congr htouched, hm, manifestOf, ← hlist]

omit [LibcDecimal] in
/-- A record behind a log of whole records. -/
theorem records_logged {d : Disk} {payload : Bytes} (hlen : payload.length < 2 ^ 32)
    (hwhole : unread (d.content kTranslogName) = []) :
    records ((IndexWriter.logged d (record payload)).content kTranslogName) =
      records (d.content kTranslogName) ++ [payload] := by
  have hrecord := records_record_append hlen []
  rw [List.append_nil] at hrecord
  rw [IndexWriter.logged, Disk.content_put, records_append, hwhole, List.nil_append, hrecord]
  rfl

/-- What is cut off of a record is no record. -/
theorem records_addCut {d : Disk} {doc : Document} {rawJson : Bytes}
    (hcut : IndexWriter.AddCut F doc rawJson d d')
    (hlen : (logRecord doc rawJson).length < 2 ^ 32)
    (hwhole : unread (d.content kTranslogName) = []) :
    records (d'.content kTranslogName) = records (d.content kTranslogName) ∨
      records (d'.content kTranslogName) =
        records (d.content kTranslogName) ++ [logRecord doc rawJson] := by
  rcases hcut with rfl | ⟨b, ⟨hb, hleaves⟩, rfl⟩
  · exact Or.inl rfl
  by_cases hall : b = record (logRecord doc rawJson)
  · exact Or.inr (hall ▸ records_logged hlen hwhole)
  · refine Or.inl ?_
    rw [IndexWriter.logged, Disk.content_put, records_append, hwhole, List.nil_append,
      records_of_starts hlen hb hall, List.append_nil]

theorem IndexWriter.Keeps.congr (h : w.Keeps loose s.disk L.shelves docs)
    (hsame : d' kManifestName = s.disk kManifestName) : w.Keeps loose d' L.shelves docs :=
  { h with manifest := (Manifest.ofDisk_congr hsame).trans h.manifest }

theorem IndexWriter.Keeps.docCount (h : w.Keeps loose s.disk L.shelves docs) :
    w.mutableSegment.docCount = docs.length := by
  rw [h.pending]
  rfl

/-- `AddDocument` is a step of the ledger. -/
theorem Kept.added {w' : IndexWriter} {doc : Document} {rawJson : Bytes} {res : Expected Unit}
    (h : Kept loose s L) (hw : s.writer = some w) (hadd : w.Added F doc rawJson s.disk res w' d')
    (hlog : loose ∨ F.Quiet ∧ LogSafe s (.added doc rawJson res.isOk)) :
    ∃ L', LedgerStep loose L (.added doc rawJson res.isOk) L' ∧ L'.shelves = L.shelves ∧
      records (d'.content kTranslogName) = L'.log ∧
      ∃ docs, L'.pending = some docs ∧ w'.Keeps loose d' L.shelves docs := by
  obtain ⟨docs, hpending, hkeeps⟩ := h.writer w hw
  have hkeeps' := hkeeps.congr (hadd.cut.agree _ (by decide))
  have hwhole : loose ∨
      records ((IndexWriter.logged s.disk (record (logRecord doc rawJson))).content kTranslogName) =
        L.log ++ [logRecord doc rawJson] := by
    refine hlog.imp id fun hsafe ↦ ?_
    obtain ⟨hlen, hunread⟩ := hsafe.2 doc rawJson (Or.inr ⟨_, rfl⟩)
    rw [records_logged hlen hunread, h.log]
  cases hadd with
  | refused => exact ⟨L, .refused, rfl, h.log, docs, hpending, hkeeps⟩
  | @notLogged t b _ _ _ hf e =>
    have hloose : loose := hlog.elim id fun hsafe ↦ absurd hf.choose_spec.2 (hsafe.1 _)
    exact ⟨_, .notLogged hloose (records ((IndexWriter.logged s.disk b).content kTranslogName)),
      rfl, rfl, docs, hpending, { hkeeps' with }⟩
  | rejected _ _ hrej =>
    rw [hkeeps.pending] at hrej
    exact ⟨_, .rejected hpending (addDocument_build_error hrej) hwhole, rfl, rfl, docs, hpending,
      { hkeeps' with }⟩
  | accepted _ _ hseg =>
    rw [hkeeps.pending] at hseg
    obtain ⟨hid, hfull, rfl⟩ := addDocument_build hseg
    refine ⟨_, .accepted hpending hid hwhole, rfl, rfl, _, rfl, { hkeeps' with
      pending := rfl
      length := ?_ }⟩
    rw [List.length_append, List.length_singleton]
    exact lt_of_le_of_ne hkeeps.length hfull

/-- Once the manifest is saved the pending documents are on a shelf, whatever is done to the log. -/
theorem Kept.saved {o : Option IndexWriter} {d₂ : Disk} (h : Kept loose s L)
    (hmove : WriterMove F s e ⟨o, d'⟩) (hw : s.writer = some w)
    (hkeeps : w.Keeps loose s.disk L.shelves docs) (hfits : w.mutableSegment.Storable)
    (hs : w.Sealed F s.disk d₁ r) (hp : Published (w.nextManifest r) d₁ d₂)
    (hd' : d' = d₂ ∨ d' = d₂.put kTranslogName []) :
    Stores r docs ∧ Manifest.ofDisk d' = .ok (w.nextManifest r) ∧
      (w.nextManifest r).generation = UInt64.ofNat (L.shelves ++ [docs]).length ∧
      List.Forall₂ (Shelved d') (w.nextManifest r).segments (L.shelves ++ [docs]) := by
  have hother : ∀ n, n ≠ kTranslogName → d' n = d₂ n := by
    rcases hd' with rfl | rfl
    · exact fun _ _ ↦ rfl
    · exact fun n hn ↦ d₂.put_of_ne hn []
  have hsame : ∀ n ∈ segmentNames w.nextStem, d' n = d₁ n := by
    intro n hn
    rw [hother n fun heq ↦ not_mem_segmentNames (by decide) (heq ▸ hn)]
    refine hp.agree n fun hmem ↦ ?_
    have hnames : ∀ n' ∈ [kManifestTmpName, kManifestName], n'.take 4 ≠ str "seg-" := by decide
    exact not_mem_segmentNames (hnames n hmem) hn
  have hnext : d' kManifestName = some (w.nextManifest r).toText := by
    rw [hother _ (by decide), hp.manifest]
  exact ⟨(shelved_sealed hkeeps hfits hs hsame).1,
    h.manifest_of_next hmove hw hkeeps hfits hs hnext hsame⟩

/-- `Refresh` is a step of the ledger. -/
theorem Kept.refreshed {w' : IndexWriter} {res : Expected Generation} (h : Kept loose s L)
    (hmove : WriterMove F s e ⟨some w', d'⟩) (hw : s.writer = some w)
    (href : w.Refreshed F s.disk res w' d') (hfits : w.mutableSegment.Storable)
    (hsaves : SavesManifest F ∨ Saves s ⟨some w', d'⟩) (hquiet : loose ∨ F.Quiet) :
    ∃ L', LedgerStep loose L (.refreshed res.isOk) L' ∧
      (∃ m, Manifest.ofDisk d' = .ok m ∧ m.generation = UInt64.ofNat L'.shelves.length ∧
        List.Forall₂ (Shelved d') m.segments L'.shelves) ∧
      records (d'.content kTranslogName) = L'.log ∧
      ∃ docs, L'.pending = some docs ∧ w'.Keeps loose d' L'.shelves docs := by
  obtain ⟨docs, hpending, hkeeps⟩ := h.writer w hw
  have hsame := fun hm : d' kManifestName = s.disk kManifestName ↦ h.manifest_of_same hmove hm
  have hne : w.mutableSegment.docCount ≠ 0 → docs ≠ [] := by
    rintro hpend rfl
    exact hpend hkeeps.docCount
  have hunsaved : ∀ r, Saves s ⟨some (w.withSealed r), d'⟩ → False := fun r hs ↦
    hs w _ hw rfl (by simp [IndexWriter.withSealed]) rfl
  cases href with
  | refused => exact ⟨L, .notSealed, hsame rfl, h.log, docs, hpending, hkeeps⟩
  | idle _ hidle =>
    obtain rfl := List.length_eq_zero_iff.1 (hkeeps.docCount.symm.trans hidle)
    exact ⟨L, .idle hpending, hsame rfl, h.log, _, hpending,
      { hkeeps with published := Or.inr rfl }⟩
  | sealFailed _ _ hoff =>
    have hm := hoff kManifestName (not_mem_segmentNames (by decide))
    have hl := hoff kTranslogName (not_mem_segmentNames (by decide))
    refine ⟨L, .notSealed, hsame hm, ?_, docs, hpending, { hkeeps.congr hm with }⟩
    rw [Disk.content, hl, ← h.log, Disk.content]
  | saveFailed _ _ _ _ hf =>
    obtain ⟨a, ha, hf⟩ := hf
    exact (hsaves.elim (fun hsaves ↦ hsaves.1 _ a ha hf) (hunsaved _)).elim
  | syncFailed _ _ _ _ hf => exact (hsaves.elim (fun hsaves ↦ hsaves.2 hf) (hunsaved _)).elim
  | truncateFailed _ hpend hs hp _ hd' hf =>
    have hloose : loose := hquiet.elim id fun hF ↦ absurd hf.choose_spec.2 (hF _)
    obtain ⟨hstores, hm, hgen, hshelves⟩ := h.saved hmove hw hkeeps hfits hs hp hd'
    exact ⟨_, .notTruncated hloose hpending (hne hpend) (records (d'.content kTranslogName)),
      ⟨_, hm, hgen, hshelves⟩, rfl, [], rfl,
      { manifest := hm
        segments := List.rel_append hkeeps.segments (.cons hstores .nil)
        pending := (MutableSegment.build_nil w.schema).symm
        length := Nat.zero_le _
        published := Or.inl hloose }⟩
  | done _ hpend hs hp =>
    obtain ⟨hstores, hm, hgen, hshelves⟩ := h.saved hmove hw hkeeps hfits hs hp (Or.inr rfl)
    exact ⟨_, .shelved hpending (hne hpend), ⟨_, hm, hgen, hshelves⟩,
      by rw [Disk.content_put]; rfl, [], rfl,
      { manifest := hm
        segments := List.rel_append hkeeps.segments (.cons hstores .nil)
        pending := (MutableSegment.build_nil w.schema).symm
        length := Nat.zero_le _
        published := Or.inr rfl }⟩

/-- A crash in `Refresh` is a step of the ledger. -/
theorem Kept.refreshCut (h : Kept loose s L) (hmove : WriterMove F s e ⟨none, d'⟩)
    (hw : s.writer = some w) (hcut : w.RefreshCut F s.disk d')
    (hfits : w.mutableSegment.Storable) :
    ∃ L', LedgerStep loose L .refreshCut L' ∧ L'.pending = none ∧
      (∃ m, Manifest.ofDisk d' = .ok m ∧ m.generation = UInt64.ofNat L'.shelves.length ∧
        List.Forall₂ (Shelved d') m.segments L'.shelves) ∧
      records (d'.content kTranslogName) = L'.log := by
  obtain ⟨docs, hpending, hkeeps⟩ := h.writer w hw
  have hsame := fun hm : d' kManifestName = s.disk kManifestName ↦ h.manifest_of_same hmove hm
  have hne : w.mutableSegment.docCount ≠ 0 → docs ≠ [] := by
    rintro hpend rfl
    exact hpend hkeeps.docCount
  have hlog : d' kTranslogName = s.disk kTranslogName →
      records (d'.content kTranslogName) = L.log := fun hl ↦ by
    rw [Disk.content, hl, ← h.log, Disk.content]
  cases hcut with
  | start => exact ⟨_, .sealCut, rfl, hsame rfl, h.log⟩
  | sealing _ hoff =>
    exact ⟨_, .sealCut, rfl, hsame (hoff _ (not_mem_segmentNames (by decide))),
      hlog (hoff _ (not_mem_segmentNames (by decide)))⟩
  | saving _ hs hoff =>
    have hagree := hs.agree_segment
    refine ⟨_, .sealCut, rfl, hsame ?_, hlog ?_⟩
    · rw [hoff _ (by decide), hagree _ (not_mem_segmentNames (by decide))]
    · rw [hoff _ (by decide), hagree _ (not_mem_segmentNames (by decide))]
  | saved hpend hs hp =>
    obtain ⟨-, hm, hgen, hshelves⟩ := h.saved hmove hw hkeeps hfits hs hp (Or.inl rfl)
    refine ⟨_, .savedCut hpending (hne hpend), rfl, ⟨_, hm, hgen, hshelves⟩, hlog ?_⟩
    rw [hp.agree _ (by decide), hs.agree_segment _ (not_mem_segmentNames (by decide))]
  | truncated hpend hs hp =>
    obtain ⟨-, hm, hgen, hshelves⟩ := h.saved hmove hw hkeeps hfits hs hp (Or.inr rfl)
    exact ⟨_, .truncatedCut hpending (hne hpend), rfl, ⟨_, hm, hgen, hshelves⟩,
      by rw [Disk.content_put]; rfl⟩

/-- **Every step of the writer is a step of its ledger.** -/
theorem WriterMove.ledger (hmove : WriterMove F s e s') (h : Kept loose s L) (hfits : StepFits s e)
    (hsaves : SavesManifest F ∨ Saves s s') (hlog : loose ∨ F.Quiet ∧ LogSafe s e) :
    ∃ L', LedgerStep loose L e L' ∧ Kept loose s' L' := by
  have hstems := hmove.stemsGiven h.stems hfits.counters
  have hsame := fun hm ↦ h.manifest_of_same hmove hm
  cases hmove with
  | @opened initial schema d₁ t w hnone hfound _ hw =>
    have hcut : OpenCut initial s.disk (touched d₁) := Or.inr (Or.inr ⟨_, d₁, hfound, rfl⟩)
    have hkeeps := keeps_opened h hfound hw
    refine ⟨_, .opened (h.closed hnone), hstems, hsame (hcut.agree kManifestName (by decide)),
      ?_, ?_, ?_⟩
    · exact (congrArg records hcut.content).trans h.log
    · rintro ⟨⟩
    · rintro _ ⟨⟩
      exact ⟨_, rfl, hkeeps⟩
  | notOpened hnone hcut =>
    refine ⟨_, .notOpened (h.closed hnone), hstems, hsame (hcut.agree kManifestName (by decide)),
      ?_, fun _ ↦ h.closed hnone, by rintro _ ⟨⟩⟩
    exact (congrArg records hcut.content).trans h.log
  | openCut hnone hcut =>
    refine ⟨_, .openCut (h.closed hnone), hstems, hsame (hcut.agree kManifestName (by decide)), ?_,
      fun _ ↦ h.closed hnone, by rintro _ ⟨⟩⟩
    exact (congrArg records hcut.content).trans h.log
  | added hw hadd =>
    obtain ⟨L', hstep, hshelves, hlog', docs, hpending, hkeeps⟩ := h.added hw hadd hlog
    refine ⟨L', hstep, hstems, hshelves ▸ hsame (hadd.cut.agree kManifestName (by decide)),
      hlog', ?_, ?_⟩
    · rintro ⟨⟩
    · rintro _ ⟨⟩
      exact ⟨docs, hpending, hshelves ▸ hkeeps⟩
  | @addCut w d doc rawJson hw hcut =>
    have hrecords : loose ∨ records (d.content kTranslogName) = L.log ∨
        records (d.content kTranslogName) = L.log ++ [logRecord doc rawJson] := by
      refine hlog.imp id fun hsafe ↦ ?_
      obtain ⟨hlen, hwhole⟩ := hsafe.2 doc rawJson (Or.inl rfl)
      rw [← h.log]
      exact records_addCut hcut hlen hwhole
    exact ⟨_, .addCut hrecords, hstems, hsame (hcut.agree kManifestName (by decide)), rfl,
      fun _ ↦ rfl, by rintro _ ⟨⟩⟩
  | refreshed hw href =>
    have hstorable := hfits.storable _ hw (Or.inr ⟨_, rfl⟩)
    obtain ⟨L', hstep, hm, hlog', docs, hpending, hkeeps⟩ :=
      h.refreshed (.refreshed hw href) hw href hstorable hsaves (hlog.imp id And.left)
    refine ⟨L', hstep, hstems, hm, hlog', ?_, ?_⟩
    · rintro ⟨⟩
    · rintro _ ⟨⟩
      exact ⟨docs, hpending, hkeeps⟩
  | refreshCut hw hcut =>
    have hstorable := hfits.storable _ hw (Or.inl rfl)
    obtain ⟨L', hstep, hpending, hm, hlog'⟩ :=
      h.refreshCut (.refreshCut hw hcut) hw hcut hstorable
    exact ⟨L', hstep, hstems, hm, hlog', fun _ ↦ hpending, by rintro _ ⟨⟩⟩
  | closed => exact ⟨_, .closed, hstems, hsame rfl, h.log, fun _ ↦ rfl, by rintro _ ⟨⟩⟩
  | crashed => exact ⟨_, .crashed, hstems, hsame rfl, h.log, fun _ ↦ rfl, by rintro _ ⟨⟩⟩

/-! ### Runs -/

/-- **Every run of the writer is a run of its ledger**, and what is known of its steps is known
there. -/
theorem exists_ledger (loose : Prop) (step : WriterState → WriterEvent → WriterState → Prop)
    (P : Ledger → WriterEvent → Ledger → Prop) {es : List WriterEvent}
    (hsafe : ∀ s e s', s.Ready → step s e s' → ∃ F, LedgerSafe loose F s e s')
    (hP : ∀ s e s' L L', Kept loose s L → Kept loose s' L' → step s e s' → P L e L')
    {s₀ : WriterState} {L₀ : Ledger} (h₀ : Kept loose s₀ L₀) (hready₀ : s₀.Ready)
    (h : Run step s₀ es s) :
    ∃ L, Run (fun L e L' ↦ LedgerStep loose L e L' ∧ P L e L') L₀ es L ∧ Kept loose s L ∧
      s.Ready := by
  induction h with
  | start => exact ⟨L₀, .start, h₀, hready₀⟩
  | step _ hstep ih =>
    obtain ⟨L, hrun, hkept, hready⟩ := ih
    obtain ⟨F, hF⟩ := hsafe _ _ _ hready hstep
    have hmove := hF.step.move hready
    obtain ⟨L', hL, hkept'⟩ := hmove.ledger hkept hF.fits hF.saves hF.log
    exact ⟨L', hrun.step ⟨hL, hP _ _ _ _ _ hkept hkept' hstep⟩, hkept', hmove.ready hready⟩

theorem savesManifest_quiet (F : Faults) : SavesManifest F.quiet :=
  ⟨fun _ _ _ ↦ id, id⟩

end Steps

end Spp.Index
