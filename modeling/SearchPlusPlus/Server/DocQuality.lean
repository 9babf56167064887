import SearchPlusPlus.Index.WriterRun
import SearchPlusPlus.Server.RequestBody

/-!
# The quality of documents over HTTP

`CreateIndex` hands the mappings of a request to `FromMappingsJson`, and nothing else of its body.
So the schema of an index that was created over HTTP never stores the quality of documents
(`storeDocQuality_createdSchema`), whatever the body asks for, and no segment of such an index has
a stripe for it (`not_servesQuality`).
-/

namespace Spp.Index

open Store

namespace Schema

variable {s s' : Schema}

theorem storeDocQuality_addField {m : FieldMapping} (h : s.addField m = .ok s') :
    s'.storeDocQuality = s.storeDocQuality := by
  rw [addField] at h
  split_ifs at h
  obtain rfl := Except.ok.inj h
  rfl

theorem storeDocQuality_addMappingJson {p : Bytes × Json.JsonValue}
    (h : s.addMappingJson p = .ok s') : s'.storeDocQuality = s.storeDocQuality := by
  obtain ⟨name, cfg⟩ := p
  cases cfg with
  | object o =>
    obtain ⟨m, -, h⟩ := bind_eq_ok.1 h
    exact storeDocQuality_addField h
  | null | bool | int | double | string | array => cases h

theorem storeDocQuality_foldlM {members : Json.JsonObject}
    (h : members.foldlM addMappingJson s = .ok s') : s'.storeDocQuality = s.storeDocQuality := by
  induction members generalizing s with
  | nil =>
    obtain rfl := Except.ok.inj h
    rfl
  | cons p members ih =>
    obtain ⟨s₁, hp, h⟩ := bind_eq_ok.1 h
    rw [ih h, storeDocQuality_addMappingJson hp]

/-- Mappings cannot ask for the quality of documents. -/
theorem storeDocQuality_fromMappingsJson {v : Json.JsonValue} (h : fromMappingsJson v = .ok s) :
    s.storeDocQuality = false := by
  cases v with
  | object members =>
    rw [fromMappingsJson] at h
    dsimp only at h
    split_ifs at h
    · obtain ⟨s₁, hid, h⟩ := bind_eq_ok.1 h
      rw [storeDocQuality_foldlM h, storeDocQuality_addField hid]
    · exact storeDocQuality_foldlM h
  | null | bool | int | double | string | array => cases h

end Schema

/-! ### Segments without a stripe -/

namespace SegmentReader

variable {d : Disk} {stem : Bytes} {r : SegmentReader}

theorem docQuality_ofDisk (h : ofDisk d stem = .ok r) : r.docQuality = [] := by
  obtain ⟨si, tim, doc, fdt, fdx, hparse⟩ := parse_of_ofDisk h
  obtain ⟨info, _, fields, fdxOffsets, -, -, -, rfl⟩ := parse_eq_ok hparse
  rfl

theorem docQuality_openDisk (hnone : d (stem ++ kSegDocQualityExt) = none)
    (h : openDisk d stem = .ok r) : r.docQuality = [] := by
  obtain ⟨reader, hreader, h⟩ := bind_eq_ok.1 h
  rw [hnone] at h
  obtain rfl := Except.ok.inj h
  exact docQuality_ofDisk hreader

end SegmentReader

/-- No file is a quality file. -/
def NoStripes (d : Disk) : Prop := ∀ stem, d (stem ++ kSegDocQualityExt) = none

theorem NoStripes.put {d : Disk} {name : Bytes} (h : NoStripes d)
    (hname : ¬kSegDocQualityExt <:+ name) (b : Bytes) : NoStripes (d.put name b) := fun stem ↦ by
  rw [d.put_of_ne fun heq ↦ hname ⟨stem, heq⟩]
  exact h stem

variable [LibcDecimal] {F : Faults}

/-- A writer that stores no quality, and its directory. -/
structure Stripeless (w : IndexWriter) (d : Disk) : Prop where
  schema : w.mutableSegment.schema.storeDocQuality = false
  readers : ∀ r ∈ w.sealedSegments, r.docQuality = []
  disk : NoStripes d

omit [LibcDecimal] in
/-- The files of its next segment are no quality file. -/
theorem Stripeless.nextFiles {w : IndexWriter} {d d₁ : Disk} (h : Stripeless w d)
    (hoff : AgreeOff (w.nextFiles.map Prod.fst) d d₁) :
    d₁ (w.nextStem ++ kSegDocQualityExt) = none := by
  rw [hoff _ ?_, h.disk]
  simp [IndexWriter.nextFiles, SegmentFiles.toList, sealBuffers, h.schema, kSegPostingsExt,
    kSegTermsExt, kSegStoredExt, kSegStoredIdxExt, kSegInfoExt, kSegDocQualityExt, str]

omit [LibcDecimal] in
/-- The next segment of such a writer is sealed without a stripe. -/
theorem Stripeless.sealed {w : IndexWriter} {d d₁ : Disk} {r : SegmentReader}
    (h : Stripeless w d) (hs : w.Sealed F d d₁ r) : r.docQuality = [] := by
  rcases hs.reader with hopen | ⟨-, hof⟩
  · exact SegmentReader.docQuality_openDisk (h.nextFiles hs.agree) hopen
  · exact SegmentReader.docQuality_ofDisk hof

theorem stripeless_opened {schema : Schema} (hschema : schema.storeDocQuality = false)
    {s : WriterState} {ok : Bool} (h : WriterStep F .start (.opened (some schema) ok) s) :
    ∀ w, s.writer = some w → Stripeless w s.disk := by
  intro w hw
  have hmove := h.move WriterState.ready_start
  cases hmove with
  | notOpened => cases hw
  | opened _ hfound _ hof =>
    obtain rfl := Option.some.inj hw
    have hwritten := SchemaFound.written (d := IndexWriter.noFiles) rfl
      (rfl : some schema = some schema)
    obtain ⟨hsame, rfl⟩ := hwritten.unique hfound
    obtain rfl := Except.ok.inj hsame
    rw [IndexWriter.ofDisk_of_unused (IndexWriter.unused_noFiles.put_schema _)] at hof
    obtain rfl := Except.ok.inj hof
    have hnone : NoStripes IndexWriter.noFiles := fun _ ↦ rfl
    refine ⟨hschema, fun r hr ↦ absurd hr List.not_mem_nil, ?_⟩
    exact (hnone.put (by decide) _).put (by decide) _

theorem Stripeless.added {w w' : IndexWriter} {d d' : Disk} {doc : Document} {rawJson : Bytes}
    {res : Expected Unit} (h : Stripeless w d) (hadd : w.Added F doc rawJson d res w' d') :
    Stripeless w' d' := by
  have hdisk : ∀ b, NoStripes (IndexWriter.logged d b) := fun b ↦ h.disk.put (by decide) _
  cases hadd with
  | refused => exact h
  | notLogged | rejected => exact ⟨h.schema, h.readers, hdisk _⟩
  | accepted _ _ hseg =>
    refine ⟨?_, h.readers, hdisk _⟩
    rw [MutableSegment.addDocument] at hseg
    split_ifs at hseg
    obtain ⟨rfl, -⟩ := Prod.mk.inj (Except.ok.inj hseg)
    exact h.schema

theorem Stripeless.refreshed {w w' : IndexWriter} {d d' : Disk} {res : Expected Generation}
    (h : Stripeless w d) (href : w.Refreshed F d res w' d') :
    ∀ r ∈ w'.sealedSegments, r.docQuality = [] := by
  have hsealed : ∀ {r d₁}, w.Sealed F d d₁ r → ∀ r' ∈ w.sealedSegments ++ [r], r'.docQuality = [] :=
    fun hs r' hr' ↦ (List.mem_append.1 hr').elim (h.readers r') fun hr' ↦ by
      rw [List.mem_singleton.1 hr']
      exact h.sealed hs
  cases href with
  | refused | idle | sealFailed => exact h.readers
  | saveFailed _ _ hs | syncFailed _ _ hs | truncateFailed _ _ hs | done _ _ hs => exact hsealed hs

end Spp.Index

namespace Spp.Server

open Index Json Store

section Sessions

variable [LibcDecimal]

/-- The `_quality` of a posted body, 0 when there is none. -/
def postedQuality (body : Bytes) : F32 :=
  match parse body with
  | .ok v => ((v.findNumber (str "_quality")).map F64.toF32).getD F32.zero
  | .error _ => F32.zero

variable (F : Faults)

/-- Bodies are posted, one after the other. -/
inductive Posted : WriterState → List Bytes → WriterState → Prop
  | nil (s : WriterState) : Posted s [] s
  | cons {s s' s'' : WriterState} {body : Bytes} {bodies : List Bytes} {doc : Document} {ok : Bool}
      (hdoc : readDocument body = .ok doc) (hstep : WriterStep F s (.added doc body ok) s')
      (h : Posted s' bodies s'') : Posted s (body :: bodies) s''

/-- The writer of an index once it was created in a new directory, some bodies were posted and it
was refreshed. -/
inductive Session (putBody : Bytes) (posts : List Bytes) : IndexWriter → Prop
  | intro {schema : Schema} {s₁ s₂ : WriterState} {w : IndexWriter} {d : Disk} {ok : Bool}
      (hschema : createdSchema putBody = .ok schema)
      (hopen : WriterStep F .start (.opened (some schema) true) s₁)
      (hposts : Posted F s₁ posts s₂)
      (href : WriterStep F s₂ (.refreshed ok) ⟨some w, d⟩) : Session putBody posts w

end Sessions

section Quality

variable [LibcDecimal] {F : Faults} {putBody : Bytes} {posts : List Bytes}

/-- A segment serves the qualities of its documents. -/
def ServesQuality (r : SegmentReader) (posts : List Bytes) : Prop :=
  r.hasDocQuality = true ∧
    ∀ (i : ℕ) (body : Bytes), posts[i]? = some body → r.docQualityOf i = postedQuality body

theorem storeDocQuality_createdSchema {schema : Schema} (h : createdSchema putBody = .ok schema) :
    schema.storeDocQuality = false := by
  rw [createdSchema] at h
  cases hbody : parseBody putBody with
  | error e =>
    rw [hbody] at h
    cases h
  | ok parsed =>
    simp only [hbody, bind, Except.bind] at h
    split at h
    · split at h
      · next hmappings =>
        obtain rfl := Except.ok.inj h
        exact Schema.storeDocQuality_fromMappingsJson hmappings
      · cases h
    · cases h

theorem Posted.stripeless {s s' : WriterState} (h : Posted F s posts s') (hready : s.Ready)
    (hs : ∀ w, s.writer = some w → Stripeless w s.disk) :
    s'.Ready ∧ ∀ w, s'.writer = some w → Stripeless w s'.disk := by
  induction h with
  | nil => exact ⟨hready, hs⟩
  | cons _ hstep _ ih =>
    have hmove := hstep.move hready
    refine ih (hmove.ready hready) fun w hw ↦ ?_
    cases hmove with
    | added hold hadd =>
      obtain rfl := Option.some.inj hw
      exact (hs _ hold).added hadd

theorem Session.docQuality_eq_nil {w : IndexWriter} (h : Session F putBody posts w) :
    ∀ r ∈ w.sealedSegments, r.docQuality = [] := by
  obtain ⟨hschema, hopen, hposts, href⟩ := h
  have hready := (hopen.move WriterState.ready_start).ready WriterState.ready_start
  obtain ⟨hready₂, hstripeless⟩ := hposts.stripeless hready
    (stripeless_opened (storeDocQuality_createdSchema hschema) hopen)
  cases href.move hready₂ with
  | refreshed hold href => exact (hstripeless _ hold).refreshed href

omit [LibcDecimal] in
theorem hasDocQuality_of_nil {r : SegmentReader} (h : r.docQuality = []) :
    r.hasDocQuality = false := by
  rw [SegmentReader.hasDocQuality, h]
  rfl

/-- **Quality is never served**: no segment of an index created over HTTP has a stripe. -/
theorem not_servesQuality {w : IndexWriter} (h : Session F putBody posts w) :
    ∀ r ∈ w.sealedSegments, ¬ServesQuality r posts := by
  rintro r hr ⟨hstripe, -⟩
  rw [hasDocQuality_of_nil (h.docQuality_eq_nil r hr)] at hstripe
  exact Bool.false_ne_true hstripe

/-- A document that is posted to a new index ends up in its only segment. -/
theorem exists_session (F : Faults) {schema : Schema} {body : Bytes} {doc : Document}
    (hschema : createdSchema putBody = .ok schema) (hdoc : readDocument body = .ok doc)
    (hid : doc.id ≠ []) (henc : (MutableSegment.build schema [doc]).Encodable) :
    ∃ w r, Session F putBody [body] w ∧ w.sealedSegments = [r] := by
  have hquality := storeDocQuality_createdSchema hschema
  obtain ⟨t, ht, hopen⟩ := step_opened F schema
  have hready := (hopen.move WriterState.ready_start).ready WriterState.ready_start
  have hbuild : (MutableSegment.new schema).accept doc = .build schema [doc] := by
    rw [← MutableSegment.build_nil, ← MutableSegment.build_append_singleton]
    rfl
  have hadd : (IndexWriter.fresh schema t).mutableSegment.addDocument doc =
      .ok (.build schema [doc], 0) := by
    show (MutableSegment.new schema).addDocument doc = _
    rw [MutableSegment.addDocument, if_neg hid, hbuild]
    rfl
  have hstep : ∃ t', Translog.Usable t' ∧ WriterStep F _ (.added doc body true) _ :=
    step_added F rfl hready rfl ht hadd
  obtain ⟨t', -, hadded⟩ := hstep
  have hposts := Posted.cons hdoc hadded (.nil _)
  obtain ⟨hready', hstripeless⟩ := hposts.stripeless hready (stripeless_opened hquality hopen)
  have hwf : (MutableSegment.build schema [doc]).WellFormed :=
    MutableSegment.build_wellFormed schema (show 1 ≤ kNoMoreDocs by decide)
  have hpending : (MutableSegment.build schema [doc]).docCount ≠ 0 := Nat.succ_ne_zero 0
  obtain ⟨r, t₂, d₁, d₂, -, -, -, href⟩ := step_refreshed F rfl hready' (Option.some_ne_none t')
    hpending fun d hoff hholds ↦ by
      obtain ⟨r, hr, -⟩ := openDisk_agrees hwf henc hholds fun _ ↦
        (hstripeless _ rfl).nextFiles hoff
      exact ⟨r, hr⟩
  exact ⟨_, r, .intro hschema hopen hposts href, rfl⟩

end Quality

/-- The body of a request for an index that stores the quality of documents. -/
def qualityIndex : JsonValue :=
  .object [
    (str "mappings", .object [(str "title", .object [
      (str "stored", .bool true), (str "type", .string (str "text"))])]),
    (str "store_doc_quality", .bool true)]

/-- The schema that is made of it. -/
def titleSchema : Schema where
  fields := [
    { name := Schema.kIdField, type := .keyword, stored := true, analyzer := str "keyword" },
    { name := str "title", stored := true }]
  name_ne_nil := by decide
  nodup_names := by decide
  length_le := by decide

/-- The body of a document with a quality. -/
def qualityPost : JsonValue :=
  .object [
    (str "_id", .string (str "a")), (str "_quality", .int 1), (str "title", .string (str "hello"))]

theorem parse_qualityIndex :
    @parse .integral (@serialize .integral qualityIndex) = .ok qualityIndex :=
  @parse_serialize_of_noDoubles .integral qualityIndex
    ⟨by decide, ⟨by decide, ⟨by decide, trivial, trivial, trivial⟩, trivial⟩, trivial, trivial⟩
    ⟨⟨⟨trivial, trivial, trivial⟩, trivial⟩, trivial, trivial⟩

theorem parse_qualityPost :
    @parse .integral (@serialize .integral qualityPost) = .ok qualityPost :=
  @parse_serialize_of_noDoubles .integral qualityPost
    ⟨by decide, trivial, trivial, trivial, trivial⟩ ⟨trivial, trivial, trivial, trivial⟩

/-- The document in it. -/
def qualityDoc : Document where
  id := str "a"
  fields := SortedMap.empty.insert (str "title") (str "hello")
  docQuality := some F32.one

theorem createdSchema_qualityIndex :
    @createdSchema .integral (@serialize .integral qualityIndex) = .ok titleSchema := by
  let _ := LibcDecimal.integral
  rw [createdSchema, parseBody, parse_qualityIndex]
  rfl

theorem readDocument_qualityPost :
    @readDocument .integral (@serialize .integral qualityPost) = .ok qualityDoc := by
  let _ := LibcDecimal.integral
  rw [readDocument, parseBody, parse_qualityPost]
  rfl

theorem exists_qualitySession :
    ∃ w r, @Session .integral Faults.none (@serialize .integral qualityIndex)
      [@serialize .integral qualityPost] w ∧ w.sealedSegments = [r] :=
  @exists_session .integral _ Faults.none _ _ _ createdSchema_qualityIndex readDocument_qualityPost
    (by decide)
    { names := by decide
      terms := by decide +kernel
      blobs := by decide +kernel
      tim := by decide +kernel
      doc := by decide +kernel
      fdt := by decide +kernel
      termCounts := by decide +kernel }

theorem not_servesQuality_sample :
    ∃ w, @Session .integral Faults.none (@serialize .integral qualityIndex)
        [@serialize .integral qualityPost] w ∧
      ∀ r ∈ w.sealedSegments, ¬@ServesQuality .integral r [@serialize .integral qualityPost] := by
  obtain ⟨w, r, h, -⟩ := exists_qualitySession
  exact ⟨w, h, @not_servesQuality .integral _ _ _ w h⟩

/-- An index that asks for the quality of documents, and a document with one. -/
theorem not_quality_served : ¬∀ (F : Faults) (putBody : Bytes) (posts : List Bytes)
    (w : IndexWriter),
    (∃ v, @parse .integral putBody = .ok v ∧ v.findBool (str "store_doc_quality") = some true) →
      @Session .integral F putBody posts w →
        ∀ r ∈ w.sealedSegments, @ServesQuality .integral r posts := by
  intro hall
  obtain ⟨w, r, h, hsealed⟩ := exists_qualitySession
  have hr : r ∈ w.sealedSegments := hsealed ▸ List.mem_singleton.2 rfl
  obtain ⟨hstripe, -⟩ := hall _ _ _ w ⟨qualityIndex, parse_qualityIndex, rfl⟩ h r hr
  rw [hasDocQuality_of_nil (@Session.docQuality_eq_nil .integral _ _ _ w h r hr)] at hstripe
  exact Bool.false_ne_true hstripe

end Spp.Server
