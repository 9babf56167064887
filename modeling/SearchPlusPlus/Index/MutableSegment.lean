import SearchPlusPlus.Analyze.Analyzer
import SearchPlusPlus.Index.Document
import SearchPlusPlus.Index.Schema

/-!
# The in-memory segment

`MutableSegment::AddDocument` tokenises each field of a document and appends one posting per
distinct term to that term's list. Every step touches the data of one field only, so a document
is added by mapping over the fields.

The second half says what a segment holds after any sequence of documents: the postings of a
term are the documents with that term, in order (`postings_addDocuments`). The terms of a
document are described by `docTerms`, which never mentions the segment.
-/

namespace Spp.Index

open Analyze Json

/-- `Posting`. -/
structure Posting where
  docId : ℕ
  tf : UInt32
  firstPos : UInt16 := 0
  maxTokenWeight : F32 := F32.one
  deriving DecidableEq, Repr

/-- `PostingList`. -/
abbrev PostingList := List Posting

/-- `MutableFieldData`. -/
structure MutableFieldData where
  postings : SortedMap Bytes PostingList := .empty
  sumFieldLength : UInt64 := 0
  docCount : UInt32 := 0

/-- `MutableSegment`. -/
structure MutableSegment where
  schema : Schema
  fieldData : List MutableFieldData
  storedBlobs : List Bytes := []
  docIds : List Bytes := []
  docQuality : List F32 := []
  nextDocId : ℕ := 0

/-- `PerDocTermStats`. -/
structure PerDocTermStats where
  tf : UInt32 := 0
  firstPos : UInt16 := 0
  maxWeight : F32 := F32.zero
  deriving DecidableEq, Repr

/-- `AnalyzerForField`. -/
def analyzerForField (f : FieldMapping) : Analyzer :=
  match f.type with
  | .keyword => .keyword
  | .text => .standard

/-! ### Adding a document -/

/-- The text of a field: `_id` is read from the id. -/
def fieldValue (f : FieldMapping) (doc : Document) : Option Bytes :=
  if f.name = Schema.kIdField then some doc.id else doc.fields.find? f.name

/-- The weights of a field, consulted only when the field stores them. -/
def fieldWeights (f : FieldMapping) (doc : Document) : Option (List F32) :=
  if f.storeTokenWeights then doc.fieldTokenWeights.find? f.name else none

/-- The statistics of a term after one more token of it, at ordinal `pi`. -/
def tokenStats (weights : Option (List F32)) (pi : ℕ) (st : PerDocTermStats) : PerDocTermStats :=
  let st := if st.tf = 0 then
      { st with firstPos := if pi < 65535 then UInt16.ofNat pi else 65535 }
    else st
  let st := { st with tf := st.tf + 1 }
  match weights with
  | some ws =>
    let w := ws.getD pi F32.one
    if F32.lt st.maxWeight w then { st with maxWeight := w } else st
  | none => st

/-- The first pass over the tokens: tf, first position and greatest weight of each term. -/
def termStats (weights : Option (List F32)) (tokens : List Token) :
    SortedMap Bytes PerDocTermStats :=
  tokens.zipIdx.foldl
    (fun stats t ↦ stats.insert t.1.text (tokenStats weights t.2 ((stats.find? t.1.text).getD {})))
    .empty

/-- The posting of a document from the statistics of a term. -/
def toPosting (weights : Option (List F32)) (id : ℕ) (st : PerDocTermStats) : Posting :=
  { docId := id
    tf := st.tf
    firstPos := st.firstPos
    maxTokenWeight := if weights.isSome then st.maxWeight else F32.one }

/-- `pl.push_back(p)` for the list of a term, which exists from the first push on. -/
def pushPosting (postings : SortedMap Bytes PostingList) (term : Bytes) (p : Posting) :
    SortedMap Bytes PostingList :=
  postings.insert term ((postings.find? term).getD [] ++ [p])

/-- The round of the field loop of `AddDocument` for one field. -/
def indexField (doc : Document) (id : ℕ) (f : FieldMapping) (fd : MutableFieldData) :
    MutableFieldData :=
  match fieldValue f doc with
  | none => fd
  | some value =>
    let tokens := (analyzerForField f).analyze value
    if tokens = [] then fd
    else
      let weights := fieldWeights f doc
      let stats := termStats weights tokens
      { postings := stats.toList.foldl
          (fun postings p ↦ pushPosting postings p.1 (toPosting weights id p.2)) fd.postings
        sumFieldLength := fd.sumFieldLength + UInt64.ofNat tokens.length
        docCount := fd.docCount + 1 }

/-- The stored fields of a document: always `_id`, and every stored field it has. -/
def storedFields (schema : Schema) (doc : Document) : SortedMap Bytes Bytes :=
  schema.fields.foldl
    (fun stored f ↦
      if f.stored ∧ f.name ≠ Schema.kIdField then
        match doc.fields.find? f.name with
        | some value => stored.insert f.name value
        | none => stored
      else stored)
    (SortedMap.empty.insert Schema.kIdField doc.id)

/-- Every document has its id among its stored fields. -/
theorem find?_storedFields (schema : Schema) (doc : Document) :
    (storedFields schema doc).find? Schema.kIdField = some doc.id := by
  rw [storedFields]
  -- No round of the loop writes the id.
  refine List.foldlRecOn (motive := fun stored : SortedMap Bytes Bytes ↦
    stored.find? Schema.kIdField = some doc.id) _ _ (SortedMap.find?_insert_self ..)
    fun stored hstored f _ ↦ ?_
  split_ifs with hf
  · split
    · exact (SortedMap.find?_insert_of_ne _ (Ne.symm hf.2) _).trans hstored
    · exact hstored
  · exact hstored

namespace MutableSegment

/-- The constructor. -/
def new (schema : Schema) : MutableSegment :=
  { schema, fieldData := schema.fields.map fun _ ↦ {} }

/-- `doc_count`. -/
def docCount (seg : MutableSegment) : ℕ := seg.nextDocId

variable [LibcDecimal]

/-- The stored blob of a document. -/
def storedBlob (schema : Schema) (doc : Document) : Bytes :=
  serialize (ofStrings (storedFields schema doc))

/-- What `AddDocument` leaves when it accepts. -/
def accept (seg : MutableSegment) (doc : Document) : MutableSegment :=
  { schema := seg.schema
    fieldData := seg.schema.fields.zipWith (indexField doc seg.nextDocId) seg.fieldData
    storedBlobs := seg.storedBlobs ++ [storedBlob seg.schema doc]
    docIds := seg.docIds ++ [doc.id]
    docQuality :=
      if seg.schema.storeDocQuality then seg.docQuality ++ [doc.docQuality.getD F32.zero]
      else seg.docQuality
    nextDocId := seg.nextDocId + 1 }

/-- `AddDocument`: the segment after it, and the local id the document got. -/
def addDocument (seg : MutableSegment) (doc : Document) : Expected (MutableSegment × ℕ) :=
  if doc.id = [] then .error (.invalidArgument (str "document _id is empty"))
  else if seg.nextDocId = kNoMoreDocs then .error (.outOfRange (str "doc id space exhausted"))
  else .ok (seg.accept doc, seg.nextDocId)

/-- The segment after offering documents one after the other; a rejected one changes nothing. -/
def addDocuments (seg : MutableSegment) : List Document → MutableSegment
  | [] => seg
  | doc :: docs =>
    match seg.addDocument doc with
    | .ok (seg', _) => addDocuments seg' docs
    | .error _ => addDocuments seg docs

end MutableSegment

/-! ### What one document contributes -/

/-- The tokens of a field of a document. -/
def docTokens (f : FieldMapping) (doc : Document) : List Token :=
  match fieldValue f doc with
  | some value => (analyzerForField f).analyze value
  | none => []

/-- The posting a document contributes to the list of a term, if any. -/
def docPosting (f : FieldMapping) (doc : Document) (id : ℕ) (term : Bytes) : Option Posting :=
  ((termStats (fieldWeights f doc) (docTokens f doc)).find? term).map
    (toPosting (fieldWeights f doc) id)

theorem termStats_append_singleton (weights : Option (List F32)) (tokens : List Token)
    (t : Token) :
    termStats weights (tokens ++ [t]) = (termStats weights tokens).insert t.text
      (tokenStats weights tokens.length (((termStats weights tokens).find? t.text).getD {})) := by
  simp [termStats, List.zipIdx_append]

/-- A term has statistics when one of the tokens is it. -/
theorem termStats_isSome_iff (weights : Option (List F32)) (tokens : List Token) (term : Bytes) :
    ((termStats weights tokens).find? term).isSome ↔ ∃ t ∈ tokens, t.text = term := by
  induction tokens using List.reverseRecOn with
  | nil => simp [termStats]
  | append_singleton tokens t ih =>
    rw [termStats_append_singleton, SortedMap.find?_insert]
    split
    · next heq => exact ⟨fun _ ↦ ⟨t, by simp, heq.symm⟩, fun _ ↦ rfl⟩
    · next hne =>
      rw [ih]
      constructor
      · rintro ⟨t', ht', rfl⟩
        exact ⟨t', by simp [ht'], rfl⟩
      · rintro ⟨t', ht', rfl⟩
        rcases List.mem_append.1 ht' with ht' | ht'
        · exact ⟨t', ht', rfl⟩
        · rw [List.mem_singleton.1 ht'] at hne
          exact absurd rfl hne

theorem docPosting_isSome_iff {f : FieldMapping} {doc : Document} {id : ℕ} {term : Bytes} :
    (docPosting f doc id term).isSome ↔ ∃ t ∈ docTokens f doc, t.text = term := by
  rw [docPosting, Option.isSome_map, termStats_isSome_iff]

theorem docId_of_docPosting {f : FieldMapping} {doc : Document} {id : ℕ} {term : Bytes}
    {p : Posting} (h : docPosting f doc id term = some p) : p.docId = id := by
  obtain ⟨st, -, rfl⟩ := Option.map_eq_some_iff.1 h
  rfl

theorem find?_pushPostings (g : PerDocTermStats → Posting) (term : Bytes) :
    ∀ (l : List (Bytes × PerDocTermStats)), Assoc.Sorted l →
    ∀ postings : SortedMap Bytes PostingList,
      (l.foldl (fun postings p ↦ pushPosting postings p.1 (g p.2)) postings).find? term =
        match Assoc.find? term l with
        | some st => some ((postings.find? term).getD [] ++ [g st])
        | none => postings.find? term
  | [], _, postings => rfl
  | (t, st) :: l, hl, postings => by
    obtain ⟨hlt, hl'⟩ := Assoc.sorted_cons.1 hl
    rw [List.foldl_cons, find?_pushPostings g term l hl', Assoc.find?_cons]
    by_cases h : term = t
    · subst h
      rw [if_pos rfl, Assoc.find?_eq_none_of_lt hlt]
      exact SortedMap.find?_insert_self ..
    · rw [if_neg h, pushPosting, SortedMap.find?_insert_of_ne _ h]

/-- The lists after one document: its posting goes to the end of each of its terms' lists. -/
theorem find?_indexField (doc : Document) (id : ℕ) (f : FieldMapping) (fd : MutableFieldData)
    (term : Bytes) :
    (indexField doc id f fd).postings.find? term =
      match docPosting f doc id term with
      | some p => some ((fd.postings.find? term).getD [] ++ [p])
      | none => fd.postings.find? term := by
  have hnil : docTokens f doc = [] → docPosting f doc id term = none := by
    intro h
    rw [docPosting, h]
    rfl
  rw [indexField]
  split
  · next hv => rw [hnil (by rw [docTokens, hv])]
  · next value hv =>
    have htokens : docTokens f doc = (analyzerForField f).analyze value := by rw [docTokens, hv]
    simp only
    split_ifs with ht
    · rw [hnil (htokens.trans ht)]
    · rw [find?_pushPostings _ _ _ (SortedMap.sorted _), docPosting, htokens]
      change (match (termStats _ _).find? term with | some st => _ | none => _) = _
      cases (termStats (fieldWeights f doc) ((analyzerForField f).analyze value)).find? term <;>
        rfl

/-! ### What a segment holds -/

/-- The data of a field after some documents. -/
def fieldDataOf (f : FieldMapping) (docs : List Document) : MutableFieldData :=
  docs.zipIdx.foldl (fun fd p ↦ indexField p.1 p.2 f fd) {}

/-- The posting list of a term after some documents: what each contributes, in order. -/
def postingsOf (f : FieldMapping) (docs : List Document) (term : Bytes) : PostingList :=
  docs.zipIdx.filterMap fun p ↦ docPosting f p.1 p.2 term

theorem fieldDataOf_append_singleton (f : FieldMapping) (docs : List Document) (doc : Document) :
    fieldDataOf f (docs ++ [doc]) = indexField doc docs.length f (fieldDataOf f docs) := by
  simp [fieldDataOf, List.zipIdx_append]

theorem postingsOf_append_singleton (f : FieldMapping) (docs : List Document) (doc : Document)
    (term : Bytes) :
    postingsOf f (docs ++ [doc]) term =
      postingsOf f docs term ++ (docPosting f doc docs.length term).toList := by
  rw [postingsOf, List.zipIdx_append, List.filterMap_append]
  simp only [List.zipIdx_cons, List.zipIdx_nil, List.filterMap_cons, List.filterMap_nil,
    Nat.zero_add]
  rw [postingsOf]
  cases docPosting f doc docs.length term <;> rfl

/-- **The postings of a term** are the contributions of the documents; a term nobody contributed
to has no list. -/
theorem find?_fieldDataOf (f : FieldMapping) (docs : List Document) (term : Bytes) :
    (fieldDataOf f docs).postings.find? term =
      if postingsOf f docs term = [] then none else some (postingsOf f docs term) := by
  induction docs using List.reverseRecOn with
  | nil => rfl
  | append_singleton docs doc ih =>
    rw [fieldDataOf_append_singleton, find?_indexField, postingsOf_append_singleton, ih]
    cases docPosting f doc docs.length term with
    | none => simp
    | some p => by_cases h : postingsOf f docs term = [] <;> simp [h]

theorem mem_postingsOf {f : FieldMapping} {docs : List Document} {term : Bytes} {p : Posting} :
    p ∈ postingsOf f docs term ↔
      ∃ doc, docs[p.docId]? = some doc ∧ docPosting f doc p.docId term = some p := by
  rw [postingsOf, List.mem_filterMap]
  constructor
  · rintro ⟨⟨doc, i⟩, hmem, hp⟩
    rw [docId_of_docPosting hp]
    exact ⟨doc, List.mem_zipIdx_iff_getElem?.1 hmem, hp⟩
  · rintro ⟨doc, hdoc, hp⟩
    exact ⟨(doc, p.docId), List.mem_zipIdx_iff_getElem?.2 hdoc, hp⟩

/-- A posting list is in strictly increasing document order. -/
theorem postingsOf_pairwise (f : FieldMapping) (docs : List Document) (term : Bytes) :
    (postingsOf f docs term).Pairwise fun p q ↦ p.docId < q.docId := by
  rw [postingsOf, List.pairwise_filterMap]
  have hidx : docs.zipIdx.Pairwise fun a b ↦ a.2 < b.2 := by
    have := List.pairwise_lt_range' (s := 0) (n := docs.length)
    rw [← List.zipIdx_map_snd 0 docs] at this
    exact List.pairwise_map.1 this
  refine hidx.imp fun {a b} hab p hp q hq ↦ ?_
  rw [docId_of_docPosting hp, docId_of_docPosting hq]
  exact hab

/-- A document is in the list of a term when one of its tokens is the term. -/
theorem exists_mem_postingsOf_iff {f : FieldMapping} {docs : List Document} {term : Bytes}
    {id : ℕ} :
    (∃ p ∈ postingsOf f docs term, p.docId = id) ↔
      ∃ doc, docs[id]? = some doc ∧ ∃ t ∈ docTokens f doc, t.text = term := by
  constructor
  · rintro ⟨p, hp, rfl⟩
    obtain ⟨doc, hdoc, hpost⟩ := mem_postingsOf.1 hp
    exact ⟨doc, hdoc, docPosting_isSome_iff.1 (by rw [hpost]; rfl)⟩
  · rintro ⟨doc, hdoc, ht⟩
    have hsome : (docPosting f doc id term).isSome := docPosting_isSome_iff.2 ht
    obtain ⟨p, hp⟩ := Option.isSome_iff_exists.1 hsome
    have hid := docId_of_docPosting hp
    subst hid
    exact ⟨p, mem_postingsOf.2 ⟨doc, hdoc, hp⟩, rfl⟩

namespace MutableSegment

variable [LibcDecimal]

/-- The segment that holds exactly these documents. -/
def build (schema : Schema) (docs : List Document) : MutableSegment :=
  { schema
    fieldData := schema.fields.map fun f ↦ fieldDataOf f docs
    storedBlobs := docs.map (storedBlob schema)
    docIds := docs.map (·.id)
    docQuality :=
      if schema.storeDocQuality then docs.map fun d ↦ d.docQuality.getD F32.zero else []
    nextDocId := docs.length }

theorem build_nil (schema : Schema) : build schema [] = new schema := by
  simp [build, new, fieldDataOf]

theorem build_append_singleton (schema : Schema) (docs : List Document) (doc : Document) :
    build schema (docs ++ [doc]) = (build schema docs).accept doc := by
  have hzip : ∀ fs : List FieldMapping,
      fs.map (fun f ↦ fieldDataOf f (docs ++ [doc])) =
        fs.zipWith (indexField doc docs.length) (fs.map fun f ↦ fieldDataOf f docs) := by
    intro fs
    induction fs with
    | nil => rfl
    | cons f fs ih =>
      rw [List.map_cons, List.map_cons, List.zipWith_cons_cons, ih, fieldDataOf_append_singleton]
  simp only [build, accept, hzip, List.map_append, List.map_singleton, List.length_append,
    List.length_singleton]
  split <;> rfl

/-- The documents accepted out of those offered: the ones with an id, while ids last. -/
def acceptedDocs (docs : List Document) : List Document :=
  (docs.filter fun d ↦ d.id ≠ []).take kNoMoreDocs

theorem addDocuments_build (schema : Schema) (docs : List Document) :
    ∀ held : List Document, held.length ≤ kNoMoreDocs →
      (build schema held).addDocuments docs =
        build schema
          (held ++ (docs.filter fun d ↦ d.id ≠ []).take (kNoMoreDocs - held.length)) := by
  induction docs with
  | nil =>
    intro held _
    rw [List.filter_nil, List.take_nil, List.append_nil]
    rfl
  | cons doc docs ih =>
    intro held hheld
    have hnext : (build schema held).nextDocId = held.length := rfl
    by_cases hid : doc.id = []
    · simp only [addDocuments, addDocument, hid, if_true, ih held hheld]
      rw [List.filter_cons_of_neg (by simp [hid])]
    · by_cases hfull : held.length = kNoMoreDocs
      · simp only [addDocuments, addDocument, hid, hnext, hfull, if_true, if_false, ih held hheld,
          Nat.sub_self, List.take_zero]
      · have hlen : kNoMoreDocs - held.length = (kNoMoreDocs - (held.length + 1)) + 1 := by
          have := lt_of_le_of_ne hheld hfull
          omega
        simp only [addDocuments, addDocument, hid, hnext, hfull, if_false]
        rw [← build_append_singleton, ih (held ++ [doc]), List.filter_cons_of_pos (by simp [hid]),
          hlen, List.take_succ_cons, List.length_append, List.length_singleton, List.append_assoc]
        · rfl
        · rw [List.length_append, List.length_singleton]
          exact lt_of_le_of_ne hheld hfull

/-- **What a reachable segment holds**: the accepted documents, and nothing of the others. -/
theorem addDocuments_new (schema : Schema) (docs : List Document) :
    (new schema).addDocuments docs = build schema (acceptedDocs docs) := by
  rw [← build_nil, addDocuments_build schema docs [] (Nat.zero_le _)]
  rfl

omit [LibcDecimal] in
theorem acceptedDocs_length_le (docs : List Document) :
    (acceptedDocs docs).length ≤ kNoMoreDocs :=
  List.length_take_le ..

omit [LibcDecimal] in
/-- Documents with ids, no more than there are ids, are all accepted. -/
theorem acceptedDocs_eq_self {docs : List Document} (hid : ∀ d ∈ docs, d.id ≠ [])
    (hlen : docs.length ≤ kNoMoreDocs) : acceptedDocs docs = docs := by
  rw [acceptedDocs, List.filter_eq_self.2 (by simpa using hid), List.take_of_length_le hlen]

end MutableSegment

end Spp.Index
