import SearchPlusPlus.Query.Candidates

/-!
# The documents of an index

What a query means for a document (`satisfies`), by the tokens of its fields and without any
segment. An index that was sealed and opened selects the documents that satisfy a query, wherever
they are (`mem_matching_posted`, `totalMatches_posted`), and a hit carries what was stored for its
document (`hit_posted`).
-/

namespace Spp.Query

open Index Analyze Store

/-! ### What a query means -/

section Meaning

variable (schema : Schema) (doc : Document)

/-- A text for a field: the document has all of its tokens there, and there are some. -/
def satisfiesTerm (field text : Bytes) : Bool :=
  match schema.getField? field with
  | none => false
  | some f =>
    let tokens := (analyzerForField f).analyze text
    tokens ≠ [] && tokens.all fun t ↦ t.text ∈ (docTokens f doc).map (·.text)

mutual

/-- What a query means for a document. An operator without children selects nothing. -/
def satisfies : QueryAst → Bool
  | .matchAll => true
  | .term field text => satisfiesTerm schema doc field text
  | .conjunction children => !children.isEmpty && satisfiesEach children
  | .disjunction children => satisfiesSome children

/-- All of some queries. -/
def satisfiesEach : List QueryAst → Bool
  | [] => true
  | q :: qs => satisfies q && satisfiesEach qs

/-- Any of some queries. -/
def satisfiesSome : List QueryAst → Bool
  | [] => false
  | q :: qs => satisfies q || satisfiesSome qs

end

variable {schema doc}

theorem satisfiesEach_iff {qs : List QueryAst} :
    satisfiesEach schema doc qs = true ↔ ∀ q ∈ qs, satisfies schema doc q = true := by
  induction qs with
  | nil => simp [satisfiesEach]
  | cons q qs ih => simp [satisfiesEach, ih]

theorem satisfiesSome_iff {qs : List QueryAst} :
    satisfiesSome schema doc qs = true ↔ ∃ q ∈ qs, satisfies schema doc q = true := by
  induction qs with
  | nil => simp [satisfiesSome]
  | cons q qs ih => simp [satisfiesSome, ih]

theorem satisfiesTerm_iff {field text : Bytes} {f : FieldMapping}
    (hf : schema.getField? field = some f) :
    satisfiesTerm schema doc field text = true ↔ (analyzerForField f).analyze text ≠ [] ∧
      ∀ t ∈ (analyzerForField f).analyze text, ∃ t' ∈ docTokens f doc, t'.text = t.text := by
  rw [satisfiesTerm, hf]
  simp only [ne_eq, Bool.and_eq_true, decide_eq_true_eq, List.all_eq_true, List.mem_map]

end Meaning

/-! ### Fields by name -/

section Fields

theorem getFieldId_of_getField? {schema : Schema} {name : Bytes} {f : FieldMapping}
    (h : schema.getField? name = some f) :
    schema.fields[schema.getFieldId name]? = some f ∧
      schema.getFieldId name < kInvalidFieldId := by
  rw [Schema.getField?, List.find?_eq_bind_findIdx?_getElem?] at h
  obtain ⟨i, hidx, hget⟩ := Option.bind_eq_some_iff.1 h
  rw [Schema.getFieldId, hidx]
  exact ⟨hget, (List.getElem?_eq_some_iff.1 hget).1.trans_le schema.length_le⟩

theorem getFieldId_of_getField?_none {schema : Schema} {name : Bytes}
    (h : schema.getField? name = none) : schema.getFieldId name = kInvalidFieldId := by
  rw [Schema.getField?, List.find?_eq_none] at h
  rw [Schema.getFieldId, List.findIdx?_eq_none_iff.2 fun f hf ↦ by simpa using h f hf]

variable {r : SegmentReader} {seg : MutableSegment}

theorem map_names_of_agrees (h : Agrees r seg) (hwf : seg.WellFormed) :
    r.fields.map (·.stats.name) = seg.schema.fields.map (·.name) := by
  refine List.ext_getElem? fun i ↦ ?_
  rw [List.getElem?_map, List.getElem?_map]
  cases hfm : seg.schema.fields[i]? with
  | none =>
    have hlen : r.fields.length ≤ i := h.fields_length ▸ List.getElem?_eq_none_iff.1 hfm
    rw [List.getElem?_eq_none hlen]
    rfl
  | some fm =>
    have hlt : i < seg.fieldData.length :=
      hwf.fieldData_length.symm ▸ (List.getElem?_eq_some_iff.1 hfm).1
    obtain ⟨fr, hfr, hname, -⟩ := h.stats i fm _ hfm (List.getElem?_eq_getElem hlt)
    have hget : r.fields[i]? = some fr := hfr
    rw [hget, Option.map_some, Option.map_some, hname]

/-- A name has the same id in a segment and in its schema. -/
theorem getFieldId_of_agrees (h : Agrees r seg) (hwf : seg.WellFormed) (name : Bytes) :
    r.getFieldId name = seg.schema.getFieldId name := by
  have hidx : (r.fields.findIdx? fun fr ↦ fr.stats.name = name) =
      seg.schema.fields.findIdx? fun f ↦ f.name = name := by
    have hmap := congrArg (List.findIdx? fun n ↦ decide (n = name)) (map_names_of_agrees h hwf)
    rwa [List.findIdx?_map, List.findIdx?_map] at hmap
  rw [SegmentReader.getFieldId, Schema.getFieldId, hidx]
  cases hi : seg.schema.fields.findIdx? fun f ↦ f.name = name with
  | none => rfl
  | some i =>
    have hlt : i < seg.schema.fields.length := (List.findIdx?_eq_some_iff_getElem.1 hi).1
    have hle := seg.schema.length_le
    rw [kInvalidFieldId] at hle
    exact Nat.mod_eq_of_lt (by omega)

end Fields

/-! ### The segments of an index -/

section Sealed

variable [LibcDecimal]

/-- A segment on disk: `SealSegment` wrote the documents that `AddDocument` accepted, and
`SegmentReader::Open` read them back. -/
structure SealedSegment (schema : Schema) where
  docs : List Document
  stem : Bytes
  disk : Disk
  reader : SegmentReader
  accepted : MutableSegment.acceptedDocs docs = docs
  encodable : ((MutableSegment.new schema).addDocuments docs).Encodable
  holds :
    Holds ((sealBuffers ((MutableSegment.new schema).addDocuments docs) stem).2.toList stem) disk
  /-- A quality file of another segment would be read as its own. -/
  no_quality : schema.storeDocQuality = false → disk (stem ++ kSegDocQualityExt) = none
  opened : SegmentReader.openDisk disk stem = .ok reader

/-- An index of such segments. -/
structure SealedIndex where
  schema : Schema
  segments : List (SealedSegment schema)

namespace SealedSegment

variable {schema : Schema} (seg : SealedSegment schema)

theorem addDocuments_eq :
    (MutableSegment.new schema).addDocuments seg.docs = .build schema seg.docs := by
  rw [MutableSegment.addDocuments_new, seg.accepted]

theorem wellFormed : (MutableSegment.build schema seg.docs).WellFormed :=
  MutableSegment.build_wellFormed schema
    (seg.accepted ▸ MutableSegment.acceptedDocs_length_le seg.docs)

theorem agrees : Agrees seg.reader (.build schema seg.docs) := by
  have henc := seg.encodable
  have hholds := seg.holds
  rw [seg.addDocuments_eq] at henc hholds
  obtain ⟨r, hopen, hagrees⟩ := openDisk_agrees seg.wellFormed henc hholds seg.no_quality
  obtain rfl := Except.ok.inj (seg.opened.symm.trans hopen)
  exact hagrees

/-- **Sealing and opening** the segment of some documents makes one. -/
theorem exists_sealThenOpen {docs : List Document} (stem : Bytes) {d : Disk}
    (haccepted : MutableSegment.acceptedDocs docs = docs)
    (henc : ((MutableSegment.new schema).addDocuments docs).Encodable)
    (hstale : schema.storeDocQuality = true ∨ d (stem ++ kSegDocQualityExt) = none) :
    ∃ seg : SealedSegment schema, seg.docs = docs ∧
      (run (sealThenOpen ((MutableSegment.new schema).addDocuments docs) stem ()) d).1.1 =
        .ok seg.reader := by
  have hseg : (MutableSegment.new schema).addDocuments docs = .build schema docs := by
    rw [MutableSegment.addDocuments_new, haccepted]
  have hwf : (MutableSegment.build schema docs).WellFormed :=
    MutableSegment.build_wellFormed schema
      (haccepted ▸ MutableSegment.acceptedDocs_length_le docs)
  have hwp : (sealThenOpen ((MutableSegment.new schema).addDocuments docs) stem).wp
      (files Faults.none) () (fun r _ _ ↦ ∃ seg : SealedSegment schema, seg.docs = docs ∧
        r = .ok seg.reader) (fun _ ↦ True) d := by
    refine Method.wp_bind.2 (wp_sealSegment _ stem (fun _ _ ↦ trivial) ?_ ?_)
    · intro d' hoff hholds
      have hquality : schema.storeDocQuality = false → d' (stem ++ kSegDocQualityExt) = none := by
        intro hq
        rw [hoff, (hstale.resolve_left (by simp [hq]))]
        simp [SegmentFiles.toList, sealBuffers, hseg, MutableSegment.build, hq, kSegPostingsExt,
          kSegTermsExt, kSegStoredExt, kSegStoredIdxExt, kSegInfoExt, kSegDocQualityExt, str]
      have hopen := openDisk_agrees hwf (hseg ▸ henc) (hseg ▸ hholds) hquality
      refine Method.seq_ok.2 (wp_open stem trivial ?_ ?_ ?_)
      · obtain ⟨r, hr, -⟩ := hopen
        exact ⟨⟨docs, stem, d', r, haccepted, henc, hholds, hquality, hr⟩, rfl, hr⟩
      · rintro ⟨_, _, h⟩
        exact h.elim
      · exact fun h ↦ h.elim
    · rintro ⟨_, _, h⟩
      exact h.elim
  exact (Method.wp_iff.1 hwp).1 _ _ _ (returns_run Faults.none _ d)

/-- The segment, with the posting lists of its documents. -/
def posted : PostedSegment := .ofSealed seg.agrees seg.wellFormed

theorem docCount_reader : seg.reader.docCount = seg.docs.length := seg.agrees.docCount

end SealedSegment

namespace SealedIndex

variable (ix : SealedIndex)

/-- The index as a reader has it. -/
def reader : IndexReader := { schema := ix.schema, segments := ix.segments.map (·.reader) }

/-- The index, with the posting lists of its documents. -/
def posted : PostedIndex := { schema := ix.schema, segments := ix.segments.map (·.posted) }

/-- The documents of an index. -/
def docs : List Document := ix.segments.flatMap (·.docs)

/-- The documents of an index that satisfy a query. -/
def selected (q : QueryAst) : List Document := ix.docs.filter fun doc ↦ satisfies ix.schema doc q

theorem length_selected_le (q : QueryAst) : (ix.selected q).length ≤ ix.docs.length :=
  List.length_filter_le _ _

/-- The document at a place. -/
def docAt (segmentIndex docId : ℕ) : Option Document :=
  ix.segments[segmentIndex]?.bind (·.docs[docId]?)

variable {ix} in
theorem mem_docs_of_docAt {i d : ℕ} {doc : Document} (h : ix.docAt i d = some doc) :
    doc ∈ ix.docs := by
  obtain ⟨seg, hseg, hdoc⟩ := Option.bind_eq_some_iff.1 h
  exact List.mem_flatMap.2 ⟨seg, List.mem_of_getElem? hseg, List.mem_of_getElem? hdoc⟩

theorem reader_posted : ix.posted.reader = ix.reader := by
  rw [PostedIndex.reader, posted, reader, List.map_map]
  rfl

end SealedIndex

/-! ### What a segment selects -/

variable {schema : Schema} (seg : SealedSegment schema)

/-- The documents with a term are those with a token that is it. -/
theorem mem_termDocs {i : ℕ} {f : FieldMapping} (hf : schema.fields[i]? = some f) (t : Token)
    {d : ℕ} : d ∈ termDocs seg.posted i t ↔
      ∃ doc, seg.docs[d]? = some doc ∧ ∃ t' ∈ docTokens f doc, t'.text = t.text := by
  have hfd : (MutableSegment.build schema seg.docs).fieldData[i]? =
      some (fieldDataOf f seg.docs) := by
    simp [MutableSegment.build, hf]
  have hpost := find?_fieldDataOf f seg.docs t.text
  rw [← exists_mem_postingsOf_iff]
  show (seg.reader.findTerm i t.text).isSome ∧
    d ∈ docsOf (PostedSegment.postingList (.build schema seg.docs) i t.text) ↔ _
  rw [PostedSegment.postingList, hfd]
  dsimp only
  rw [hpost]
  split_ifs at hpost ⊢ with hnil
  · rw [seg.agrees.findTerm_none i f _ t.text hf hfd hpost, hnil]
    simp
  · obtain ⟨te, hte, -⟩ := seg.agrees.findTerm_some i f _ t.text _ hf hfd hpost
    rw [hte]
    exact and_iff_right rfl

theorem mem_matching_term (field text : Bytes) {d : ℕ} :
    d ∈ matching seg.posted schema (.term field text) ↔
      ∃ doc, seg.docs[d]? = some doc ∧ satisfiesTerm schema doc field text = true := by
  have hid : seg.posted.reader.getFieldId field = schema.getFieldId field :=
    getFieldId_of_agrees seg.agrees seg.wellFormed field
  rw [matching, hid, Set.mem_ofPred_eq]
  cases hf : schema.getField? field with
  | none =>
    have hunsat : ∀ doc, satisfiesTerm schema doc field text = false := fun doc ↦ by
      rw [satisfiesTerm, hf]
    simp [getFieldId_of_getField?_none hf, hunsat]
  | some f =>
    obtain ⟨hget, hlt⟩ := getFieldId_of_getField? hf
    have hanalyzer : queryAnalyzer schema field = analyzerForField f := by rw [queryAnalyzer, hf]
    simp only [hanalyzer, mem_termDocs seg hget, satisfiesTerm_iff hf]
    constructor
    · rintro ⟨-, hne, hall⟩
      obtain ⟨t, ht⟩ := List.exists_mem_of_ne_nil _ hne
      obtain ⟨doc, hdoc, -⟩ := hall t ht
      refine ⟨doc, hdoc, hne, fun t ht ↦ ?_⟩
      obtain ⟨doc', hdoc', htok⟩ := hall t ht
      obtain rfl := Option.some.inj (hdoc.symm.trans hdoc')
      exact htok
    · rintro ⟨doc, hdoc, hne, hall⟩
      exact ⟨hlt.ne, hne, fun t ht ↦ ⟨doc, hdoc, hall t ht⟩⟩

omit [LibcDecimal] in
theorem mem_matchingAll_iff {qs : List QueryAst} {posted : PostedSegment} {T : Set ℕ} :
    T ∈ matchingAll posted schema qs ↔ ∃ q ∈ qs, matching posted schema q = T := by
  induction qs with
  | nil => simp [matchingAll]
  | cons q qs ih => simp [matchingAll, ih, eq_comm]

mutual

/-- **A segment selects** the documents that satisfy a query. -/
theorem mem_matching_posted {d : ℕ} : ∀ q : QueryAst,
    d ∈ matching seg.posted schema q ↔
      ∃ doc, seg.docs[d]? = some doc ∧ satisfies schema doc q = true
  | .matchAll => by
    have hlt : d ∈ matching seg.posted schema .matchAll ↔ d < seg.docs.length := by
      rw [← seg.docCount_reader]
      exact Iff.rfl
    simp [hlt, satisfies, List.getElem?_eq_some_iff]
  | .term field text => mem_matching_term seg field text
  | .conjunction children => by
    have hiff := mem_matching_of_mem (d := d) children
    show (children ≠ [] ∧ ∀ T ∈ matchingAll seg.posted schema children, d ∈ T) ↔ _
    simp only [mem_matchingAll_iff, forall_exists_index, and_imp, forall_apply_eq_imp_iff₂,
      satisfies, Bool.and_eq_true, satisfiesEach_iff]
    constructor
    · rintro ⟨hne, hall⟩
      obtain ⟨q, hq⟩ := List.exists_mem_of_ne_nil _ hne
      obtain ⟨doc, hdoc, -⟩ := (hiff q hq).1 (hall q hq)
      refine ⟨doc, hdoc, by simpa using hne, fun q hq ↦ ?_⟩
      obtain ⟨doc', hdoc', hsat⟩ := (hiff q hq).1 (hall q hq)
      obtain rfl := Option.some.inj (hdoc.symm.trans hdoc')
      exact hsat
    · rintro ⟨doc, hdoc, hne, hall⟩
      exact ⟨by simpa using hne, fun q hq ↦ (hiff q hq).2 ⟨doc, hdoc, hall q hq⟩⟩
  | .disjunction children => by
    have hiff := mem_matching_of_mem (d := d) children
    show (∃ T ∈ matchingAll seg.posted schema children, d ∈ T) ↔ _
    simp only [mem_matchingAll_iff, exists_exists_and_eq_and, satisfies, satisfiesSome_iff]
    constructor
    · rintro ⟨q, hq, hd⟩
      obtain ⟨doc, hdoc, hsat⟩ := (hiff q hq).1 hd
      exact ⟨doc, hdoc, q, hq, hsat⟩
    · rintro ⟨doc, hdoc, q, hq, hsat⟩
      exact ⟨q, hq, (hiff q hq).2 ⟨doc, hdoc, hsat⟩⟩

theorem mem_matching_of_mem {d : ℕ} : ∀ qs : List QueryAst, ∀ q ∈ qs,
    (d ∈ matching seg.posted schema q ↔
      ∃ doc, seg.docs[d]? = some doc ∧ satisfies schema doc q = true)
  | [] => fun _ hq ↦ absurd hq List.not_mem_nil
  | q :: qs => List.forall_mem_cons.2 ⟨mem_matching_posted q, mem_matching_of_mem qs⟩

end

variable (q : QueryAst)

/-- The documents that a segment selects, at their places. -/
theorem matchingDocs_posted : matchingDocs seg.posted schema q =
    (seg.docs.zipIdx.filter fun p ↦ satisfies schema p.1 q).map (·.2) := by
  have hidx : seg.docs.zipIdx.Pairwise fun a b ↦ a.2 < b.2 := by
    rw [← List.pairwise_map (f := Prod.snd), List.zipIdx_map_snd]
    exact List.pairwise_lt_range'
  refine pairwise_matchingDocs.eq_of_mem_iff (List.pairwise_map.2 (hidx.filter _)) fun d ↦ ?_
  rw [mem_matchingDocs, mem_matching_posted]
  simp only [List.mem_map, List.mem_filter, Prod.exists, List.mem_zipIdx_iff_getElem?,
    exists_eq_right]

omit [LibcDecimal] in
theorem map_fst_filter_zipIdx {α : Type} (l : List α) (sat : α → Bool) :
    (l.zipIdx.filter fun p ↦ sat p.1).map (·.1) = l.filter sat := by
  have hfilter := List.filter_map (f := Prod.fst) (p := sat) (l := l.zipIdx)
  rw [List.zipIdx_map_fst] at hfilter
  exact hfilter.symm

theorem docs_matchingDocs_posted : (matchingDocs seg.posted schema q).map (seg.docs[·]?) =
    (seg.docs.filter fun doc ↦ satisfies schema doc q).map some := by
  rw [matchingDocs_posted, List.map_map,
    ← map_fst_filter_zipIdx seg.docs fun doc ↦ satisfies schema doc q, List.map_map]
  refine List.map_congr_left fun p hp ↦ ?_
  exact List.mem_zipIdx_iff_getElem?.1 (List.mem_of_mem_filter hp)

/-! ### What an index selects -/

section Index

variable (ix : SealedIndex)

/-- The number of documents that a query selects does not depend on the segments they are in. -/
theorem totalMatches_posted : ix.posted.totalMatches q = (ix.selected q).length := by
  have hseg : ∀ seg : SealedSegment ix.schema, (matching seg.posted ix.schema q).ncard =
      (seg.docs.filter fun doc ↦ satisfies ix.schema doc q).length := fun seg ↦ by
    rw [← length_matchingDocs, ← List.length_map (seg.docs[·]?), docs_matchingDocs_posted,
      List.length_map]
  rw [PostedIndex.totalMatches, SealedIndex.selected, SealedIndex.docs, List.filter_flatMap,
    List.length_flatMap, SealedIndex.posted, List.map_map]
  exact congrArg List.sum (List.map_congr_left fun seg _ ↦ hseg seg)

variable {R : Type} [Arith R] (params : Bm25Params R)

/-- **The matching documents of an index**, in its order, are those that satisfy the query. -/
theorem docAt_matchingEntries :
    (matchingEntries ix.posted q params).map (fun e ↦ ix.docAt e.segmentIndex e.docId) =
      (ix.selected q).map some := by
  have hzip : ix.posted.segments.zipIdx = ix.segments.zipIdx.map (Prod.map (·.posted) id) :=
    List.zipIdx_map
  have hseg : ∀ p ∈ ix.segments.zipIdx,
      (matchingEntriesIn ix.posted q params p.1.posted p.2).map
          (fun e ↦ ix.docAt e.segmentIndex e.docId) =
        (p.1.docs.filter fun doc ↦ satisfies ix.schema doc q).map some := fun p hp ↦ by
    have hget := List.mem_zipIdx_iff_getElem?.1 hp
    rw [matchingEntriesIn, List.map_map, ← docs_matchingDocs_posted]
    refine List.map_congr_left fun d _ ↦ ?_
    show ix.docAt p.2 d = _
    rw [SealedIndex.docAt, hget, Option.bind_some]
  rw [matchingEntries, hzip, List.map_map, List.map_flatten, List.map_map, SealedIndex.selected,
    SealedIndex.docs, List.filter_flatMap, List.map_flatMap, List.flatMap_def]
  have hall := List.map_congr_left hseg
  conv_rhs => rw [← List.zipIdx_map_fst 0 ix.segments, List.map_map]
  exact congrArg List.flatten hall

theorem mem_matchingEntries_iff_docAt {i d : ℕ} :
    (∃ e ∈ matchingEntries ix.posted q params, e.segmentIndex = i ∧ e.docId = d) ↔
      ∃ doc, ix.docAt i d = some doc ∧ satisfies ix.schema doc q = true := by
  have hposted : ∀ {seg}, ix.segments[i]? = some seg →
      ix.posted.segments[i]? = some seg.posted := fun hseg ↦ by
    rw [SealedIndex.posted, List.getElem?_map, hseg, Option.map_some]
  constructor
  · rintro ⟨e, he, rfl, rfl⟩
    obtain ⟨_, hseg, hd, -⟩ := mem_matchingEntries.1 he
    rw [SealedIndex.posted, List.getElem?_map] at hseg
    obtain ⟨seg, hget, rfl⟩ := Option.map_eq_some_iff.1 hseg
    obtain ⟨doc, hdoc, hsat⟩ := (mem_matching_posted seg q).1 hd
    exact ⟨doc, by rw [SealedIndex.docAt, hget]; exact hdoc, hsat⟩
  · rintro ⟨doc, hdoc, hsat⟩
    obtain ⟨seg, hseg, hdoc⟩ := Option.bind_eq_some_iff.1 hdoc
    let e : ScoredEntry R :=
      { score := stage1Score ix.posted.reader (collectLeaves ix.schema q) params seg.reader d
        segmentIndex := i
        docId := d }
    have hd := (mem_matching_posted seg q).2 ⟨doc, hdoc, hsat⟩
    exact ⟨e, mem_matchingEntries.2 ⟨_, hposted hseg, hd, rfl⟩, rfl, rfl⟩

end Index

/-! ### What a hit carries -/

/-- A hit carries the id and the stored fields of the document at its place. -/
theorem hit_posted {R : Type} (ix : SealedIndex) {e : ScoredEntry R} {doc : Document}
    (hdoc : ix.docAt e.segmentIndex e.docId = some doc) : hit ix.reader e =
      { score := e.score, id := doc.id
        storedFieldsJson := MutableSegment.storedBlob ix.schema doc } := by
  obtain ⟨seg, hseg, hdoc⟩ := Option.bind_eq_some_iff.1 hdoc
  have hblob : (MutableSegment.build ix.schema seg.docs).storedBlobs[e.docId]? =
      some (MutableSegment.storedBlob ix.schema doc) := by
    rw [MutableSegment.build, List.getElem?_map, hdoc, Option.map_some]
  have hstored := seg.agrees.storedFields _ _ hblob
  have hget : ix.reader.segments[e.segmentIndex]? = some seg.reader := by
    rw [SealedIndex.reader, List.getElem?_map, hseg, Option.map_some]
  simp only [hit, hget, hstored, MutableSegment.storedBlob, Json.parse_serialize_ofStrings,
    Json.findString_ofStrings, find?_storedFields, Option.getD_some]

end Sealed

end Spp.Query
