import SearchPlusPlus.Index.Contents
import SearchPlusPlus.Query.Results
import SearchPlusPlus.Server.DocQuality

/-!
# Searching a live index

The reader that a writer has published is, in every state of a run, the reader of an index whose
segments were sealed from the documents on the shelves of the ledger (`Serves`). So a search finds
what was handed to `AddDocument`: with crashes, every accepted document that satisfies the query and
was followed by a successful `Refresh`, and nothing else (`search_finds`); without crashes, each of
them as often as it was added (`search_exact`).
-/

namespace Spp.Server

open Index Json Query Store

variable [LibcDecimal]

/-! ### Documents with the same texts -/

section Texts

omit [LibcDecimal]

variable {schema : Schema} {doc doc' : Document}

mutual

/-- What a query means depends on the tokens of the fields of the schema. -/
theorem satisfies_congr (h : ∀ f ∈ schema.fields, docTokens f doc' = docTokens f doc) :
    ∀ q : QueryAst, satisfies schema doc' q = satisfies schema doc q
  | .matchAll => rfl
  | .term field text => by
    show satisfiesTerm schema doc' field text = satisfiesTerm schema doc field text
    rw [satisfiesTerm, satisfiesTerm]
    cases hf : schema.getField? field with
    | none => rfl
    | some f =>
      have hmem : f ∈ schema.fields := List.mem_of_getElem? (getFieldId_of_getField? hf).1
      dsimp only
      rw [h f hmem]
  | .conjunction children => by
    show (!children.isEmpty && satisfiesEach schema doc' children) = _
    rw [satisfiesEach_congr h children]
    rfl
  | .disjunction children => satisfiesSome_congr h children

theorem satisfiesEach_congr (h : ∀ f ∈ schema.fields, docTokens f doc' = docTokens f doc) :
    ∀ qs : List QueryAst, satisfiesEach schema doc' qs = satisfiesEach schema doc qs
  | [] => rfl
  | q :: qs => by
    rw [satisfiesEach, satisfiesEach, satisfies_congr h q, satisfiesEach_congr h qs]

theorem satisfiesSome_congr (h : ∀ f ∈ schema.fields, docTokens f doc' = docTokens f doc) :
    ∀ qs : List QueryAst, satisfiesSome schema doc' qs = satisfiesSome schema doc qs
  | [] => rfl
  | q :: qs => by
    rw [satisfiesSome, satisfiesSome, satisfies_congr h q, satisfiesSome_congr h qs]

end

/-- Documents with the same texts are stored the same. -/
theorem storedFields_congr (hid : doc'.id = doc.id)
    (h : ∀ f ∈ schema.fields, fieldValue f doc' = fieldValue f doc) :
    storedFields schema doc' = storedFields schema doc := by
  refine SortedMap.ext_find? fun k ↦ ?_
  by_cases hk : k = Schema.kIdField
  · rw [hk, find?_storedFields, find?_storedFields, hid]
  · rw [find?_storedFields_of_ne schema _ hk, find?_storedFields_of_ne schema _ hk]
    split_ifs with hstored
    · obtain ⟨f, hf, -, rfl⟩ := hstored
      have hvalue := h f hf
      rwa [fieldValue, fieldValue, if_neg hk, if_neg hk] at hvalue
    · rfl

end Texts

/-- The record of a call keeps the texts that the schema asks for. -/
def KeepsText (schema : Schema) (call : Document × Bytes) : Prop :=
  ∀ kept, replayedDoc (logRecord call.1 call.2) = some kept →
    ∀ f ∈ schema.fields, fieldValue f kept = fieldValue f call.1

section Kept

variable {schema : Schema} {call : Document × Bytes} {doc : Document}

/-- The document of a call and what is replayed for it are stored the same, and satisfy the same
queries. -/
theorem KeepsText.same (h : KeepsText schema call) (hloggable : Loggable call.1 call.2)
    (hid : call.1.id ≠ []) (hstands : StandsFor call doc) :
    (doc.id, MutableSegment.storedBlob schema doc) =
        (call.1.id, MutableSegment.storedBlob schema call.1) ∧
      ∀ q, satisfies schema doc q = satisfies schema call.1 q := by
  rcases hstands with rfl | hreplayed
  · exact ⟨rfl, fun _ ↦ rfl⟩
  have hsame : doc.id = call.1.id := by
    have hreplayedId := replayedId_logRecord hloggable
    rw [if_neg hid, replayedId, hreplayed] at hreplayedId
    exact Option.some.inj hreplayedId
  refine ⟨?_, fun q ↦ satisfies_congr (fun f hf ↦ ?_) q⟩
  · rw [hsame, MutableSegment.storedBlob, storedFields_congr hsame (h doc hreplayed),
      ← MutableSegment.storedBlob]
  · rw [docTokens, h doc hreplayed f hf, ← docTokens]

/-- What `DocToJson` writes keeps all texts. -/
theorem keepsText_nil {doc : Document} (hno : doc.fields.find? Schema.kIdField = none)
    (hid : doc.id ≠ []) (schema : Schema) : KeepsText schema (doc, []) := by
  intro kept hkept f _
  rw [logRecord, if_pos rfl, replayedDoc, docFromJson_docToJson hno hid] at hkept
  obtain rfl := Option.some.inj hkept
  rfl

end Kept

/-! ### Segments without a stripe -/

section Stripes

variable {F : Faults} {s s' : WriterState} {e : WriterEvent} {w : IndexWriter} {d d' : Disk}

omit [LibcDecimal] in
theorem noStripes_of_agreeOff {names : List Bytes} (h : NoStripes d) (hoff : AgreeOff names d d')
    (hnames : ∀ n ∈ names, ¬kSegDocQualityExt <:+ n) : NoStripes d' := by
  intro stem
  rw [hoff _ fun hmem ↦ hnames _ hmem (List.suffix_append stem _)]
  exact h stem

omit [LibcDecimal] in
/-- The files of a segment without qualities are no quality files. -/
theorem nextFiles_not_stripe (hschema : w.mutableSegment.schema.storeDocQuality = false) :
    ∀ n ∈ w.nextFiles.map Prod.fst, ¬kSegDocQualityExt <:+ n := by
  -- The extensions end in different letters.
  have hext : ∀ ext ∈ [kSegPostingsExt, kSegTermsExt, kSegStoredExt, kSegStoredIdxExt, kSegInfoExt],
      ext.getLast? ≠ kSegDocQualityExt.getLast? ∧ ext ≠ [] := by decide
  intro n hn hsuffix
  have hmem : ∃ ext ∈ [kSegPostingsExt, kSegTermsExt, kSegStoredExt, kSegStoredIdxExt, kSegInfoExt],
      n = w.nextStem ++ ext := by
    simp only [IndexWriter.nextFiles, SegmentFiles.toList, sealBuffers, hschema] at hn
    simpa [eq_comm, or_comm, or_left_comm, or_assoc] using hn
  obtain ⟨ext, hmem, rfl⟩ := hmem
  obtain ⟨hlast, hne⟩ := hext ext hmem
  obtain ⟨stem, hstem⟩ := hsuffix
  have hboth := congrArg List.getLast? hstem
  rw [List.getLast?_append, List.getLast?_append] at hboth
  cases hget : ext.getLast? with
  | none => exact hne (List.getLast?_eq_none_iff.1 hget)
  | some b =>
    rw [hget] at hboth hlast
    exact hlast hboth.symm

/-- **No step writes a quality file** when the schema stores no qualities. -/
theorem noStripes_step (hstep : WriterStep F.quiet s e s') (hready : s.Ready)
    (hschema : ∀ w, s.writer = some w → w.mutableSegment.schema.storeDocQuality = false)
    (h : NoStripes s.disk) : NoStripes s'.disk := by
  have hunsafe : ∀ n ∈ unsafeNames, ¬kSegDocQualityExt <:+ n := by decide
  have hquiet := F.quiet_quiet
  have hlog : ∀ w, s.writer = some w → ∀ t, w.translog = some t → t.Attached :=
    fun w hw t ht ↦ (hready w hw t ht).1
  have hrefresh : ∀ w, s.writer = some w →
      ∀ n ∈ w.nextFiles.map Prod.fst ++ refreshedNames, ¬kSegDocQualityExt <:+ n := by
    intro w hw n hn
    rcases List.mem_append.1 hn with hn | hn
    · exact nextFiles_not_stripe (hschema w hw) n hn
    · exact (by decide : ∀ n ∈ refreshedNames, ¬kSegDocQualityExt <:+ n) n hn
  cases hstep with
  | opened _ hret =>
    have hoff := (writesOnly_open _ _ _).returns F.quiet.quiet_quiet hret
    exact noStripes_of_agreeOff h hoff hunsafe
  | openCut _ hstop =>
    have hoff := (writesOnly_open _ _ _).stops F.quiet.quiet_quiet hstop
    exact noStripes_of_agreeOff h hoff hunsafe
  | added doc rawJson hw hret =>
    have hoff := (writes_addDocument (hlog _ hw) doc rawJson _).returns hquiet hret
    exact noStripes_of_agreeOff h hoff (by decide)
  | addCut doc rawJson hw hstop =>
    have hoff := (writes_addDocument (hlog _ hw) doc rawJson _).stops hquiet hstop
    exact noStripes_of_agreeOff h hoff (by decide)
  | refreshed hw hret =>
    exact noStripes_of_agreeOff h ((writes_refresh _ _).returns hquiet hret) (hrefresh _ hw)
  | refreshCut hw hstop =>
    exact noStripes_of_agreeOff h ((writes_refresh _ _).stops hquiet hstop) (hrefresh _ hw)
  | closed hw hret =>
    exact noStripes_of_agreeOff h ((writesOnly_close _ _ _).returns hquiet hret) hunsafe
  | crashed => exact h

end Stripes

/-! ### What a writer serves -/

/-- The steps of a recoverable index whose schema is read back bit by bit and whose segments fit the
format. -/
structure LiveStep (F : Faults) (s : WriterState) (e : WriterEvent) (s' : WriterState) : Prop
    extends RecoverableStep F s e s' where
  reread : ∀ schema ok, e = .opened (some schema) ok → schema.readBack = schema
  encodable : ∀ w, s.writer = some w → (e = .refreshCut ∨ ∃ ok, e = .refreshed ok) →
    w.mutableSegment.Encodable

/-- The directory holds the segments of an index that has the documents on the shelves, and the
writer has published them. -/
structure Serves (s : WriterState) (L : Ledger) (ix : SealedIndex) : Prop where
  founded : Founded s ix.schema
  reread : ix.schema.readBack = ix.schema
  shelves : ix.segments.map (·.docs) = L.shelves
  listed : listedStems s.disk = ix.segments.map (·.reader.stem)
  opens : ∀ seg ∈ ix.segments, SegmentReader.openDisk s.disk seg.reader.stem = .ok seg.reader
  writer : ∀ w, s.writer = some w → w.sealedSegments = ix.segments.map (·.reader) ∧
    w.publishedReader = ix.reader
  stripes : ix.schema.storeDocQuality = false → NoStripes s.disk

section Serving

variable {F : Faults} {s s' : WriterState} {e : WriterEvent} {es : List WriterEvent}
  {L L' : Ledger} {ix : SealedIndex} {w : IndexWriter} {d₁ : Disk} {r : SegmentReader}

namespace Serves

theorem schema_eq (h : Serves s L ix) (hw : s.writer = some w) : w.schema = ix.schema := by
  rcases h.founded.writer w hw with hschema | hschema
  · exact hschema
  · rw [hschema, h.reread]

theorem docs_eq (h : Serves s L ix) : ix.docs = L.shelves.flatten := by
  rw [SealedIndex.docs, ← h.shelves, List.flatMap_def]

theorem mutableSegment_schema (h : Serves s L ix) (hkept : Kept False s L)
    (hw : s.writer = some w) : w.mutableSegment.schema = ix.schema := by
  obtain ⟨docs, -, hkeeps⟩ := hkept.writer w hw
  rw [hkeeps.pending, ← h.schema_eq hw]
  rfl

/-- The listed segments are opened as they were. -/
theorem still (h : Serves s L ix) (hmove : WriterMove F s e s') (hkept : Kept False s L) :
    ∀ seg ∈ ix.segments, SegmentReader.openDisk s'.disk seg.reader.stem = .ok seg.reader := by
  intro seg hseg
  have hstem : seg.reader.stem ∈ listedStems s.disk := by
    rw [h.listed]
    exact List.mem_map_of_mem (f := fun seg : SealedSegment ix.schema ↦ seg.reader.stem) hseg
  rw [openDisk_congr fun n hn ↦ hmove.keeps hkept.stems hstem hn]
  exact h.opens seg hseg

end Serves

theorem length_listedStems (h : Kept False s L) :
    (listedStems s.disk).length = L.shelves.length := by
  obtain ⟨m, hm, -, hshelved⟩ := h.manifest
  rw [listedStems_of_ok hm, List.length_map, hshelved.length_eq]

/-- The pending documents, once they are in the files of the next segment, are a sealed segment. -/
theorem exists_sealedSegment {docs : List Document} (hs : w.Sealed F.quiet s.disk d₁ r)
    (hpending : w.mutableSegment = .build ix.schema docs) (hids : ∀ doc ∈ docs, doc.id ≠ [])
    (hlen : docs.length ≤ kNoMoreDocs) (henc : w.mutableSegment.Encodable)
    (hstripes : ix.schema.storeDocQuality = false → NoStripes s.disk) :
    ∃ seg : SealedSegment ix.schema, seg.docs = docs ∧ seg.reader = r := by
  have haccepted := MutableSegment.acceptedDocs_eq_self hids hlen
  have hbuild : (MutableSegment.new ix.schema).addDocuments docs = w.mutableSegment := by
    rw [MutableSegment.addDocuments_new, haccepted, hpending]
  refine ⟨{
    docs
    stem := w.nextStem
    disk := d₁
    reader := r
    accepted := haccepted
    encodable := hbuild ▸ henc
    holds := hbuild ▸ hs.holds
    no_quality := fun hquality ↦ ?_
    opened := hs.reader.resolve_right fun hf ↦ F.quiet_quiet _ hf.1 }, rfl, rfl⟩
  have hschema : w.mutableSegment.schema.storeDocQuality = false := by
    rw [hpending]
    exact hquality
  exact noStripes_of_agreeOff (hstripes hquality) hs.agree (nextFiles_not_stripe hschema) w.nextStem

/-- What a step gives that leaves the manifest alone. -/
theorem Serves.unchanged (h : Serves s L ix) (hmove : WriterMove F.quiet s e s')
    (hledger : LedgerStep False L e L') (hkept : Kept False s L) (hkept' : Kept False s' L')
    (hstripes : ix.schema.storeDocQuality = false → NoStripes s'.disk)
    (hm : s'.disk kManifestName = s.disk kManifestName)
    (hwriter : ∀ w, s'.writer = some w → w.sealedSegments = ix.segments.map (·.reader) ∧
      w.publishedReader = ix.reader) : Serves s' L' ix := by
  have hlisted := listedStems_congr hm
  have hshelves : L'.shelves = L.shelves := by
    rcases hledger.shelves_cases with hsame | ⟨docs, -, hmore⟩
    · exact hsame
    · have hlen := length_listedStems hkept'
      rw [hlisted, length_listedStems hkept, hmore, List.length_append,
        List.length_singleton] at hlen
      omega
  exact {
    founded := hmove.founded h.founded
    reread := h.reread
    shelves := h.shelves.trans hshelves.symm
    listed := hlisted.trans h.listed
    opens := h.still hmove hkept
    writer := hwriter
    stripes := hstripes }

/-- **What a step gives that saves the next manifest**: the index has one more segment. -/
theorem Serves.extended (h : Serves s L ix) (hmove : WriterMove F.quiet s e s')
    (hledger : LedgerStep False L e L') (hkept : Kept False s L) (hkept' : Kept False s' L')
    (hstripes : ix.schema.storeDocQuality = false → NoStripes s'.disk) (hw : s.writer = some w)
    (hs : w.Sealed F.quiet s.disk d₁ r) (hids : L.All fun doc ↦ doc.id ≠ [])
    (henc : w.mutableSegment.Encodable)
    (hnext : s'.disk kManifestName = some (w.nextManifest r).toText)
    (hsame : ∀ n ∈ segmentNames w.nextStem, s'.disk n = d₁ n)
    (hwriter : ∀ w', s'.writer = some w' → w'.sealedSegments = w.sealedSegments ++ [r] ∧
      w'.publishedReader = ⟨w.schema, w.sealedSegments ++ [r]⟩) : ∃ ix, Serves s' L' ix := by
  obtain ⟨docs, hdocs, hkeeps⟩ := hkept.writer w hw
  have hstems := hkept.stems.writer w hw
  have hlisted := (ofDisk_nextManifest hstems hs hnext).2
  have hreaders := (h.writer w hw).1
  have hschema := h.schema_eq hw
  have hshelves : L'.shelves = L.shelves ++ [docs] := by
    rcases hledger.shelves_cases with hsame | ⟨docs', hdocs', hmore⟩
    · have hlen := length_listedStems hkept'
      rw [hlisted, hsame, List.length_append, List.length_singleton, IndexWriter.stems,
        List.length_map, hreaders, List.length_map, ← h.shelves, List.length_map] at hlen
      omega
    · rw [hmore, Option.some.inj (hdocs'.symm.trans hdocs)]
  obtain ⟨seg, hseg, hreader⟩ := exists_sealedSegment hs (hschema ▸ hkeeps.pending)
    (hids.held docs hdocs) hkeeps.length henc h.stripes
  have hstem : seg.reader.stem = w.nextStem := by rw [hreader, hs.reader_eq.1]
  refine ⟨{ schema := ix.schema, segments := ix.segments ++ [seg] }, ?_⟩
  have hall : (ix.segments ++ [seg]).map (·.reader) = w.sealedSegments ++ [r] := by
    rw [List.map_append, hreaders, ← hreader]
    rfl
  exact {
    founded := hmove.founded h.founded
    reread := h.reread
    shelves := by rw [hshelves, List.map_append, h.shelves, ← hseg]; rfl
    listed := by
      rw [hlisted, List.map_append, IndexWriter.stems, hreaders, List.map_map, ← hstem]
      rfl
    opens := by
      intro seg' hseg'
      rcases List.mem_append.1 hseg' with hseg' | hseg'
      · exact h.still hmove hkept seg' hseg'
      · rw [List.mem_singleton.1 hseg', hstem, openDisk_congr hsame, hreader]
        exact hs.reader.resolve_right fun hf ↦ F.quiet_quiet _ hf.1
    writer := by
      intro w' hw'
      obtain ⟨hsealed, hpublished⟩ := hwriter w' hw'
      rw [hsealed, hpublished, hschema, ← hall]
      exact ⟨rfl, rfl⟩
    stripes := hstripes }

omit [LibcDecimal] in
/-- The readers of some stems. -/
theorem mapM_readers {d : Disk} {l : List ManifestSegment} {rs : List SegmentReader}
    (hstems : l.map (·.stem) = rs.map (·.stem))
    (h : ∀ r ∈ rs, SegmentReader.openDisk d r.stem = .ok r) :
    (l.mapM fun ms ↦ SegmentReader.openDisk d ms.stem) = .ok rs := by
  have hmap : ∀ l : List ManifestSegment, (l.mapM fun ms ↦ SegmentReader.openDisk d ms.stem) =
      (l.map (·.stem)).mapM (SegmentReader.openDisk d) := fun l ↦ by
    rw [List.mapM_map]
    rfl
  have hopen := mapM_openDisk h
  rw [hmap, List.map_map] at hopen
  rw [hmap, hstems]
  exact hopen

theorem ofDisk_publishedReader {d : Disk} {schema : Schema} {t : Translog}
    (hw : IndexWriter.ofDisk d schema t = .ok w) :
    w.publishedReader = ⟨schema, w.sealedSegments⟩ := by
  obtain ⟨w₁, hw₁, hw⟩ := bind_eq_ok.1 hw
  obtain ⟨seg, -, hw⟩ := bind_eq_ok.1 hw
  obtain ⟨m, -, hw₁⟩ := bind_eq_ok.1 hw₁
  obtain ⟨rs, -, hw₁⟩ := bind_eq_ok.1 hw₁
  cases hw₁
  cases hw
  rfl

/-- A writer that was just opened serves what is listed. -/
theorem Serves.opened {t : Translog} (h : Serves s L ix)
    (hw : IndexWriter.ofDisk s.disk ix.schema t = .ok w) :
    w.sealedSegments = ix.segments.map (·.reader) ∧ w.publishedReader = ix.reader := by
  obtain ⟨w₁, hw₁, hw⟩ := bind_eq_ok.1 hw
  obtain ⟨seg, -, hw⟩ := bind_eq_ok.1 hw
  obtain ⟨m, hm, hw₁⟩ := bind_eq_ok.1 hw₁
  obtain ⟨rs, hrs, hw₁⟩ := bind_eq_ok.1 hw₁
  cases hw₁
  cases hw
  have hstems : m.segments.map (·.stem) = (ix.segments.map (·.reader)).map (·.stem) := by
    rw [← listedStems_of_ok hm, h.listed, List.map_map]
    rfl
  have hreaders := mapM_readers hstems fun r hr ↦ by
    obtain ⟨seg, hseg, rfl⟩ := List.mem_map.1 hr
    exact h.opens seg hseg
  obtain rfl := Except.ok.inj (hrs.symm.trans hreaders)
  exact ⟨rfl, rfl⟩

/-- **Every step serves an index**, once there is one. -/
theorem LiveStep.serves (hstep : LiveStep F s e s') (hready : s.Ready)
    (hledger : LedgerStep False L e L') (hkept : Kept False s L) (hkept' : Kept False s' L')
    (hids : L.All fun doc ↦ doc.id ≠ []) (h : Serves s L ix) : ∃ ix, Serves s' L' ix := by
  have hmove := hstep.step.move hready
  have hstripes : ix.schema.storeDocQuality = false → NoStripes s'.disk := fun hquality ↦
    noStripes_step hstep.step hready
      (fun w hw ↦ h.mutableSegment_schema hkept hw ▸ hquality) (h.stripes hquality)
  have hunchanged := fun hm hwriter ↦
    Exists.intro ix (h.unchanged hmove hledger hkept hkept' hstripes hm hwriter)
  have hquiet := F.quiet_quiet
  have hne : kManifestName ≠ kTranslogName := by decide
  -- What sealing leaves of the manifest, and what is done behind it of the segment.
  have hsealed : ∀ {w : IndexWriter} {d₁ : Disk} {r : SegmentReader},
      w.Sealed F.quiet s.disk d₁ r → d₁ kManifestName = s.disk kManifestName := fun hs ↦
    hs.agree _ fun hmem ↦ (nextFiles_safe _ hmem).2 rfl
  have hpublished : ∀ {w : IndexWriter} {d₁ d₂ : Disk} {r : SegmentReader},
      Published (w.nextManifest r) d₁ d₂ → ∀ n ∈ segmentNames w.nextStem,
        d₂ n = d₁ n ∧ d₂.put kTranslogName [] n = d₁ n := by
    intro w d₁ d₂ r hp n hn
    have hne : n ≠ kTranslogName := fun heq ↦ not_mem_segmentNames (by decide) (heq ▸ hn)
    rw [d₂.put_of_ne hne, hp.agree_segment hn]
    exact ⟨rfl, rfl⟩
  cases hmove with
  | @opened initial schema d₁ t w hnone hfound _ hw =>
    obtain ⟨hschema, rfl⟩ := (h.founded.schemaFound initial).unique hfound
    obtain rfl := Except.ok.inj hschema
    rw [h.reread] at hw
    refine hunchanged (s.disk.put_of_ne hne (s.disk.content kTranslogName)) ?_
    rintro _ ⟨⟩
    exact h.opened hw
  | notOpened _ hcut | openCut _ hcut =>
    exact hunchanged (hcut.agree _ (by decide)) (by rintro _ ⟨⟩)
  | added hw hadd =>
    refine hunchanged (hadd.cut.agree _ (by decide)) ?_
    have hsame := h.writer _ hw
    rintro _ ⟨⟩
    cases hadd with
    | refused | notLogged | rejected | accepted => exact hsame
  | addCut _ hcut => exact hunchanged (hcut.agree _ (by decide)) (by rintro _ ⟨⟩)
  | @refreshed w w' res d' hw href =>
    have henc := hstep.encodable w hw (Or.inr ⟨_, rfl⟩)
    have hsame := h.writer w hw
    cases href with
    | refused =>
      refine hunchanged rfl ?_
      rintro _ ⟨⟩
      exact hsame
    | idle =>
      refine hunchanged rfl ?_
      rintro _ ⟨⟩
      refine ⟨hsame.1, ?_⟩
      rw [IndexWriter.published, hsame.1, h.schema_eq hw]
      rfl
    | sealFailed _ _ hoff =>
      refine hunchanged (hoff _ (not_mem_segmentNames (by decide))) ?_
      rintro _ ⟨⟩
      exact hsame
    | saveFailed _ _ _ _ hf | truncateFailed _ _ _ _ _ _ hf =>
      obtain ⟨a, -, hf⟩ := hf
      exact absurd hf (hquiet _)
    | syncFailed _ _ _ _ hf => exact absurd hf (hquiet _)
    | @done r t d₁ d₂ _ _ hs hp _ =>
      refine h.extended (.refreshed hw (.done ‹_› ‹_› hs hp ‹_›)) hledger hkept hkept' hstripes hw
        hs hids henc ?_ (fun n hn ↦ (hpublished hp n hn).2) ?_
      · exact (d₂.put_of_ne hne []).trans hp.manifest
      · rintro _ ⟨⟩
        exact ⟨rfl, rfl⟩
  | @refreshCut w d' hw hcut =>
    have henc := hstep.encodable w hw (Or.inl rfl)
    have hmove := hstep.step.move hready
    cases hcut with
    | start => exact hunchanged rfl (by rintro _ ⟨⟩)
    | sealing _ hoff =>
      exact hunchanged (hoff _ (not_mem_segmentNames (by decide))) (by rintro _ ⟨⟩)
    | saving _ hs hoff =>
      exact hunchanged ((hoff _ (by decide)).trans (hsealed hs)) (by rintro _ ⟨⟩)
    | saved _ hs hp =>
      exact h.extended hmove hledger hkept hkept' hstripes hw hs hids henc hp.manifest
        (fun n hn ↦ (hpublished hp n hn).1) (by rintro _ ⟨⟩)
    | @truncated r d₁ d₂ _ hs hp =>
      exact h.extended hmove hledger hkept hkept' hstripes hw hs hids henc
        ((d₂.put_of_ne hne []).trans hp.manifest)
        (fun n hn ↦ (hpublished hp n hn).2) (by rintro _ ⟨⟩)
  | closed | crashed => exact hunchanged rfl (by rintro _ ⟨⟩)

/-- The first `Open` makes an index without segments. -/
theorem LiveStep.serves_start (hstep : LiveStep F .start e s') (hledger : LedgerStep False L e L')
    (hkept' : Kept False s' L') (hshelves : L.shelves = []) :
    s' = .start ∧ L'.shelves = [] ∨ ∃ ix, Serves s' L' ix := by
  have hnone : WriterState.start.writer = none := rfl
  have hfile : WriterState.start.disk kSchemaFilename = none := rfl
  have hmove := hstep.step.move WriterState.ready_start
  have hstripes := noStripes_step hstep.step WriterState.ready_start
    (fun w hw ↦ by cases hnone.symm.trans hw) fun _ ↦ rfl
  cases hmove with
  | @opened initial schema d₁ t w _ hfound _ hw =>
    refine Or.inr ⟨{ schema, segments := [] }, ?_⟩
    have hshelves' : L'.shelves = [] := by
      cases hledger with
      | opened => exact hshelves
    obtain ⟨docs, -, hkeeps⟩ := hkept'.writer w rfl
    have hsealed : w.sealedSegments = [] := by
      have hsegments := hkeeps.segments
      rw [hshelves'] at hsegments
      exact List.forall₂_nil_right_iff.1 hsegments
    have hlisted := length_listedStems hkept'
    rw [hshelves'] at hlisted
    generalize hres : (Except.ok schema : Expected Schema) = res at hfound
    cases hfound with
    | loaded htext => cases htext.symm.trans hfile
    | missing => cases hres
    | written _ hgiven =>
      obtain rfl := Except.ok.inj hres
      obtain ⟨hexact, hid⟩ := hstep.schema schema true (hgiven ▸ rfl)
      refine ⟨⟨hexact, hid, ?_, ?_⟩, hstep.reread schema true (hgiven ▸ rfl), hshelves'.symm,
        List.length_eq_zero_iff.1 hlisted, by simp, ?_, fun _ ↦ hstripes⟩
      · show touched (IndexWriter.noFiles.put kSchemaFilename schema.toText) kSchemaFilename = _
        rw [touched, Disk.put_of_ne _ (by decide), Disk.put_self]
      · rintro _ ⟨⟩
        exact Or.inl (ofDisk_schema hw)
      · rintro _ ⟨⟩
        refine ⟨hsealed, ?_⟩
        rw [ofDisk_publishedReader hw, hsealed]
        rfl
  | notOpened => exact absurd hfile (hstep.created (Or.inr ⟨_, rfl⟩))
  | openCut => exact absurd hfile (hstep.created (Or.inl rfl))
  | added hw | addCut hw | refreshed hw | refreshCut hw | closed hw => cases hnone.symm.trans hw
  | crashed =>
    refine Or.inl ⟨rfl, ?_⟩
    cases hledger with
    | crashed => exact hshelves

/-- **What a live index is** after some events. -/
structure Live (es : List WriterEvent) (s : WriterState) (L : Ledger) : Prop
    extends Recoverable es s L where
  contents : L.Contents es
  serves : s = .start ∧ L.shelves = [] ∨ ∃ ix, Serves s L ix

theorem LiveStep.live (hstep : LiveStep F s e s') (h : Live es s L) :
    ∃ L', LedgerStep False L e L' ∧ Live (es ++ [e]) s' L' := by
  obtain ⟨L', hledger, h'⟩ := hstep.recoverable h.toRecoverable
  refine ⟨L', hledger, h', hledger.contents hstep.promised
    (hstep.roomToLog h.toRecoverable) h.contents, ?_⟩
  rcases h.serves with ⟨rfl, hshelves⟩ | ⟨ix, hix⟩
  · exact hstep.serves_start hledger h'.kept hshelves
  · exact Or.inr (hstep.serves h.ready hledger h.kept h'.kept h.contents.ids hix)

theorem live_start : Live [] .start {} :=
  ⟨recoverable_start, Ledger.contents_start, Or.inl ⟨rfl, rfl⟩⟩

theorem exists_live (h : Run (LiveStep F) .start es s) : ∃ L, Live es s L := by
  refine h.invariant_events (I := fun es s ↦ ∃ L, Live es s L) ⟨{}, live_start⟩ ?_
  rintro es s e s' ⟨L, h⟩ hstep
  obtain ⟨L', -, h'⟩ := hstep.live h
  exact ⟨L', h'⟩

/-- Without crashes the ledger tallies. -/
theorem exists_live_tallies (h : Run (fun s e s' ↦ LiveStep F s e s' ∧ e.Returned) .start es s) :
    ∃ L, Live es s L ∧ L.Tallies es := by
  refine h.invariant_events (I := fun es s ↦ ∃ L, Live es s L ∧ L.Tallies es)
    ⟨{}, live_start, Ledger.tallies_start⟩ ?_
  rintro es s e s' ⟨L, h, htallies⟩ ⟨hstep, hreturned⟩
  obtain ⟨L', hledger, h'⟩ := hstep.live h
  exact ⟨L', h', hledger.tallies hreturned hstep.promised
    (hstep.roomToLog h.toRecoverable) htallies⟩

/-- A writer has published an index. -/
theorem Live.exists_serves (h : Live es s L) (hw : s.writer = some w) :
    ∃ ix, Serves s L ix ∧ w.publishedReader = ix.reader ∧ w.schema = ix.schema := by
  rcases h.serves with ⟨rfl, -⟩ | ⟨ix, hix⟩
  · cases hw
  · exact ⟨ix, hix, (hix.writer w hw).2, hix.schema_eq hw⟩

end Serving

/-! ### Searches -/

omit [LibcDecimal] in
/-- What stands for the same is filtered and read the same. -/
theorem filter_map_of_forall₂ {α β γ : Type*} {R : α → β → Prop} {l : List α} {m : List β}
    (h : List.Forall₂ R l m) {p : α → Bool} {p' : β → Bool} {f : α → γ} {f' : β → γ}
    (hsame : ∀ a ∈ l, ∀ b, R a b → p' b = p a ∧ f' b = f a) :
    (m.filter p').map f' = (l.filter p).map f := by
  induction h with
  | nil => rfl
  | @cons a b l m hab _ ih =>
    obtain ⟨hp, hf⟩ := hsame a List.mem_cons_self b hab
    have hrest := ih fun a ha ↦ hsame a (List.mem_cons_of_mem _ ha)
    rw [List.filter_cons, List.filter_cons, hp]
    split_ifs
    · rw [List.map_cons, List.map_cons, hf, hrest]
    · exact hrest

omit [LibcDecimal] in
/-- What was accepted before the last `Refresh` was accepted. -/
theorem acceptedCalls_refreshedPart (es : List WriterEvent) :
    (refreshedPart es).filterMap WriterEvent.acceptedCall ⊆ es.filterMap WriterEvent.acceptedCall :=
  ((List.rdropWhile_prefix _ es).sublist.filterMap _).subset

section Searches

variable {R : Type} [Arith R] [SortByKey] [SortByScore] {F : Faults} {es : List WriterEvent}
  {s : WriterState} {w : IndexWriter}

/-- What a search returns of a document. -/
def hitKey (schema : Schema) (doc : Document) : Bytes × Bytes :=
  (doc.id, MutableSegment.storedBlob schema doc)

/-- What a search returns, but for the scores. -/
def hitKeys (result : SearchResult R) : List (Bytes × Bytes) :=
  result.hits.map fun h ↦ (h.id, h.storedFieldsJson)

/-- A search of what a writer has published. -/
theorem Live.search {L : Ledger} (h : Live es s L) (hw : s.writer = some w) (q : QueryAst)
    (opts : SearchOptions R) (htop : 0 < opts.topN) :
    ∃ result, Query.search w.publishedReader q opts = some result ∧
      result.totalHits =
        (L.shelves.flatten.filter fun doc ↦ satisfies w.schema doc q).length ∧
      (result.totalHits ≤ opts.size → (hitKeys result).Perm
        ((L.shelves.flatten.filter fun doc ↦ satisfies w.schema doc q).map (hitKey w.schema))) := by
  obtain ⟨ix, hix, hreader, hschema⟩ := h.exists_serves hw
  obtain ⟨result, hresult⟩ := exists_search_sealed_iff.2 (Or.inl htop : _ ∨ ix.selected q = [])
  have hreturns := returnsMatches_of_search hresult
  rw [hreader, hschema, ← hix.docs_eq]
  exact ⟨result, hresult, hreturns.totalHits, hreturns.contents⟩

/-- **A search finds** every accepted document that satisfies the query and was followed by a
successful `Refresh`, unless its record loses a text, whatever crashed before or since; and nothing
that was not accepted or cut off. -/
theorem search_finds (h : Run (LiveStep F) .start es s) (hw : s.writer = some w) (q : QueryAst)
    (opts : SearchOptions R) (htop : 0 < opts.topN) :
    ∃ result, Query.search w.publishedReader q opts = some result ∧
      (result.totalHits ≤ opts.size →
        (∀ call ∈ (refreshedPart es).filterMap WriterEvent.acceptedCall, KeepsText w.schema call →
          satisfies w.schema call.1 q = true → hitKey w.schema call.1 ∈ hitKeys result) ∧
        ∀ key ∈ hitKeys result, ∃ call ∈ es.filterMap WriterEvent.offeredCall,
          ∃ doc, StandsFor call doc ∧ satisfies w.schema doc q = true ∧
            key = hitKey w.schema doc) := by
  obtain ⟨L, hlive⟩ := exists_live h
  obtain ⟨result, hresult, -, hperm⟩ := hlive.search hw q opts htop
  refine ⟨result, hresult, fun hsize ↦ ⟨fun call hcall hkeeps hsat ↦ ?_, fun key hkey ↦ ?_⟩⟩
  · obtain ⟨doc, hdoc, hstands⟩ := hlive.contents.visible call hcall
    obtain ⟨hloggable, hid⟩ := hlive.contents.loggable call (acceptedCalls_refreshedPart es hcall)
    obtain ⟨hsame, hsatisfies⟩ := hkeeps.same hloggable hid hstands
    refine (hperm hsize).symm.subset (List.mem_map.2 ⟨doc, ?_, hsame⟩)
    exact List.mem_filter.2 ⟨hdoc, (hsatisfies q).trans hsat⟩
  · obtain ⟨doc, hdoc, rfl⟩ := List.mem_map.1 ((hperm hsize).subset hkey)
    obtain ⟨hshelved, hsat⟩ := List.mem_filter.1 hdoc
    obtain ⟨call, hcall, hstands⟩ :=
      hlive.contents.sources.kept doc (List.mem_append_left _ hshelved)
    exact ⟨call, hcall, doc, hstands, hsat, rfl⟩

/-- **Without crashes a search is exact**: it counts the documents that satisfy the query among
those accepted before the last successful `Refresh`, and returns each as often as it was added. -/
theorem search_exact (h : Run (fun s e s' ↦ LiveStep F s e s' ∧ e.Returned) .start es s)
    (hw : s.writer = some w) (hkeeps : ∀ call ∈ (refreshedPart es).filterMap
      WriterEvent.acceptedCall, KeepsText w.schema call) (q : QueryAst) (opts : SearchOptions R)
    (htop : 0 < opts.topN) :
    ∃ result, Query.search w.publishedReader q opts = some result ∧
      result.totalHits = (((refreshedPart es).filterMap WriterEvent.acceptedCall).filter
        fun call ↦ satisfies w.schema call.1 q).length ∧
      (result.totalHits ≤ opts.size → (hitKeys result).Perm
        ((((refreshedPart es).filterMap WriterEvent.acceptedCall).filter
          fun call ↦ satisfies w.schema call.1 q).map fun call ↦ hitKey w.schema call.1)) := by
  obtain ⟨L, hlive, htallies⟩ := exists_live_tallies h
  obtain ⟨result, hresult, htotal, hperm⟩ := hlive.search hw q opts htop
  have hsame : ∀ call ∈ (refreshedPart es).filterMap WriterEvent.acceptedCall, ∀ doc,
      StandsFor call doc → satisfies w.schema doc q = satisfies w.schema call.1 q ∧
        hitKey w.schema doc = hitKey w.schema call.1 := by
    intro call hcall doc hstands
    obtain ⟨hloggable, hid⟩ := hlive.contents.loggable call (acceptedCalls_refreshedPart es hcall)
    obtain ⟨hkey, hsatisfies⟩ := (hkeeps call hcall).same hloggable hid hstands
    exact ⟨hsatisfies q, hkey⟩
  have hkeys := filter_map_of_forall₂ htallies.shelved hsame
  refine ⟨result, hresult, ?_, fun hsize ↦ ?_⟩
  · have hlen := congrArg List.length hkeys
    rw [List.length_map, List.length_map] at hlen
    rw [htotal, hlen]
  · rw [← hkeys]
    exact hperm hsize

end Searches

section Samples

omit [LibcDecimal]

/-- A new index, a document, and a `Refresh` that publishes it. -/
theorem live_sample :
    ∃ w d, Run (fun s e s' ↦ @LiveStep .integral Faults.none s e s' ∧ e.Returned) .start
        [.opened (some sampleSchema) true, .added sampleDoc [] true, .refreshed true]
        ⟨some w, d⟩ ∧ w.schema = sampleSchema := by
  let _ := LibcDecimal.integral
  obtain ⟨t, hrun⟩ := recoverable_sample
  have hbefore : Run (fun s e s' ↦ LiveStep Faults.none s e s' ∧ e.Returned) .start
      [.opened (some sampleSchema) true, .added sampleDoc [] true]
      ⟨some (sampleWriter t), sampleDisk⟩ := by
    refine (hrun.and_events (P := fun e ↦ e = .opened (some sampleSchema) true ∨
      e = .added sampleDoc [] true) (by simp)).mono ?_
    rintro s e s' ⟨hstep, rfl | rfl⟩
    · refine ⟨⟨hstep, ?_, ?_⟩, trivial⟩
      · rintro _ _ ⟨⟩
        exact readBack_sampleSchema
      · rintro _ _ (he | ⟨_, he⟩) <;> cases he
    · refine ⟨⟨hstep, ?_, ?_⟩, trivial⟩
      · rintro _ _ ⟨⟩
      · rintro _ _ (he | ⟨_, he⟩) <;> cases he
  obtain ⟨w, d, hstep, -⟩ := durable_refreshed_sample Faults.none
    (ready_of_run (hrun.mono fun _ _ _ h ↦ h.step))
  have hlast : LiveStep Faults.none ⟨some (sampleWriter t), sampleDisk⟩ (.refreshed true)
      ⟨some w, d⟩ := by
    refine ⟨⟨hstep, ?_, ?_, ?_⟩, ?_, ?_⟩
    · rintro _ _ _ (he | ⟨_, he⟩) <;> cases he
    · rintro _ _ ⟨⟩
    · rintro (he | ⟨_, he⟩) <;> cases he
    · rintro _ _ ⟨⟩
    · rintro _ ⟨⟩ _
      exact encodable_sampleSegment
  refine ⟨w, d, hbefore.step ⟨hlast, trivial⟩, ?_⟩
  generalize he : WriterEvent.refreshed true = e at hstep
  generalize hs : (⟨some w, d⟩ : WriterState) = s at hstep
  cases hstep.step.move (ready_of_run (hrun.mono fun _ _ _ h ↦ h.step)) with
  | refreshed hw href =>
    cases hs
    cases hw
    exact href.schema_eq
  | opened | notOpened | openCut | added | addCut | refreshCut | closed | crashed => cases he

/-- The document is found in it. -/
theorem search_finds_sample :
    ∃ (w : IndexWriter) (result : SearchResult ℝ),
      @Query.search ℝ _ mergeSortByKey w.publishedReader .matchAll .integral mergeSortByScore {} =
        some result ∧
      (result.totalHits ≤ 10 →
        (∀ call ∈ [(sampleDoc, [])], @KeepsText .integral w.schema call →
          satisfies w.schema call.1 .matchAll = true →
            @hitKey .integral w.schema call.1 ∈ hitKeys result) ∧
        ∀ key ∈ hitKeys result, ∃ call ∈ [(sampleDoc, [])],
          ∃ doc, @StandsFor .integral call doc ∧ satisfies w.schema doc .matchAll = true ∧
            key = @hitKey .integral w.schema doc) := by
  obtain ⟨w, d, hrun, -⟩ := live_sample
  obtain ⟨result, hresult, hkeys⟩ := @search_finds .integral ℝ _ mergeSortByKey mergeSortByScore
    Faults.none _ _ w (hrun.mono fun _ _ _ h ↦ h.1) rfl .matchAll {} (by decide)
  exact ⟨w, result, hresult, hkeys⟩

/-- It is the only one. -/
theorem search_exact_sample :
    ∃ (w : IndexWriter) (result : SearchResult ℝ),
      @Query.search ℝ _ mergeSortByKey w.publishedReader .matchAll .integral mergeSortByScore {} =
        some result ∧
      result.totalHits = ([(sampleDoc, ([] : Bytes))].filter fun call ↦
        satisfies w.schema call.1 .matchAll).length ∧
      (result.totalHits ≤ 10 → (hitKeys result).Perm
        (([(sampleDoc, ([] : Bytes))].filter fun call ↦ satisfies w.schema call.1 .matchAll).map
          fun call ↦ @hitKey .integral w.schema call.1)) := by
  let _ := LibcDecimal.integral
  obtain ⟨w, d, hrun, -⟩ := live_sample
  have hkeeps : ∀ call ∈ [(sampleDoc, ([] : Bytes))], KeepsText w.schema call := by
    rintro call hcall
    obtain rfl := List.mem_singleton.1 hcall
    exact keepsText_nil rfl (by decide) _
  obtain ⟨result, hresult, hkeys⟩ := @search_exact .integral ℝ _ mergeSortByKey mergeSortByScore
    Faults.none _ _ w hrun rfl hkeeps .matchAll {} (by decide)
  exact ⟨w, result, hresult, hkeys⟩

end Samples

end Spp.Server
