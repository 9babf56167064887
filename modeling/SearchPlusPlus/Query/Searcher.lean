import SearchPlusPlus.Index.IndexWriter
import SearchPlusPlus.Lib.TopK
import SearchPlusPlus.Query.Build
import SearchPlusPlus.Query.Scoring

/-!
# The searcher

`Searcher::Search`: the documents of a query are scored by BM25 and the best of them kept in a
heap; a ranker may score these again by their features; they are sorted and their stored fields
read. The loop of a segment may go on after its last document if its bytes are not a segment's,
and the top of an empty heap may be looked at: `none` stands for both.
-/

namespace Spp.Query

open Index Analyze Arith

/-- `LeafTerm`; its idf is looked up by its key. -/
structure LeafTerm where
  fieldName : Bytes
  text : Bytes
  deriving DecidableEq, Repr

mutual

/-- `CollectLeaves`. -/
def collectLeaves (schema : Schema) : QueryAst → List LeafTerm
  | .matchAll => []
  | .term field text =>
    ((queryAnalyzer schema field).analyze text).map fun t ↦ { fieldName := field, text := t.text }
  | .conjunction children => collectAllLeaves schema children
  | .disjunction children => collectAllLeaves schema children

/-- The loop of `CollectLeaves` over children. -/
def collectAllLeaves (schema : Schema) : List QueryAst → List LeafTerm
  | [] => []
  | q :: qs => collectLeaves schema q ++ collectAllLeaves schema qs

end

/-- The id of the field of a leaf in a segment, and the entry of its term, if it has both. -/
def leafEntry (seg : SegmentReader) (l : LeafTerm) : Option (ℕ × TermEntry) :=
  let fieldId := seg.getFieldId l.fieldName
  if fieldId = kInvalidFieldId then none else (seg.findTerm fieldId l.text).map (fieldId, ·)

/-- `key_of`. -/
def keyOf (l : LeafTerm) : Bytes := l.fieldName ++ str ":" ++ l.text

/-- The document frequency of a leaf over the segments. -/
def globalDf (r : IndexReader) (l : LeafTerm) : UInt64 :=
  r.segments.foldl (fun df seg ↦
    match leafEntry seg l with
    | some (_, te) => df + te.df.toUInt64
    | none => df) 0

/-- The statistics of the fields of a name, in all segments. -/
def fieldsNamed (r : IndexReader) (name : Bytes) : List FieldStats :=
  (r.segments.flatMap (·.info.fields)).filter (·.name = name)

/-- `std::sort` by descending scores: some sorted permutation. -/
class SortByScore where
  sort : {R α : Type} → [LinearOrder R] → (α → R) → List α → List α
  perm : ∀ {R α : Type} [LinearOrder R] (score : α → R) (l : List α), (sort score l).Perm l
  sorted : ∀ {R α : Type} [LinearOrder R] (score : α → R) (l : List α),
    (sort score l).Pairwise fun a b ↦ score b ≤ score a

variable {R : Type} [Arith R]

/-- `idf_by_key`: the first leaf with a key sets its value. -/
def idfByKey (idf : UInt64 → UInt64 → R) (r : IndexReader) (leaves : List LeafTerm) :
    SortedMap Bytes R :=
  leaves.foldl (fun m l ↦
    if (m.find? (keyOf l)).isSome then m
    else m.insert (keyOf l) (idf (UInt64.ofNat r.totalDocCount) (globalDf r l))) .empty

/-- `avg_dl_by_field` at a name. -/
def avgDlByField (r : IndexReader) (name : Bytes) : R :=
  let sum := (fieldsNamed r name).foldl (fun n fs ↦ n + fs.sumFieldLength) (0 : UInt64)
  let n := (fieldsNamed r name).foldl (fun n fs ↦ n + fs.docCount.toUInt64) (0 : UInt64)
  if n = 0 then ofRat 0 else (ofRat sum.toNat : R) / ofRat n.toNat

/-- `SearchOptions`; a ranker is its `Score`. -/
structure SearchOptions (R : Type) [Arith R] where
  size : ℕ := 10
  defaultField : Bytes := []
  bm25 : Bm25Params R := {}
  rerankTopN : ℕ := 1000
  ranker : Option (FeatureVector R → R) := none
  collectFeatures : Bool := false

namespace SearchOptions

/-- `run_stage2`. -/
def runStage2 (opts : SearchOptions R) : Bool := opts.ranker.isSome || opts.collectFeatures

/-- `top_n`. -/
def topN (opts : SearchOptions R) : ℕ :=
  if opts.runStage2 then max opts.rerankTopN opts.size else opts.size

end SearchOptions

/-- `ScoredEntry`. -/
structure ScoredEntry (R : Type) where
  score : R
  segmentIndex : ℕ
  docId : ℕ

/-- Where an entry is in the index. -/
def ScoredEntry.index (e : ScoredEntry R) : ℕ ×ₗ ℕ := toLex (e.segmentIndex, e.docId)

/-- `ScoredEntryCmp`: the greatest entry by it is the top of the heap. -/
def scoredEntryCmp (a b : ScoredEntry R) : Bool :=
  if a.score ≠ b.score then b.score < a.score
  else if a.segmentIndex ≠ b.segmentIndex then b.segmentIndex < a.segmentIndex
  else b.docId < a.docId

/-- `Hit`. -/
structure Hit (R : Type) where
  score : R
  id : Bytes := []
  storedFieldsJson : Bytes := []

/-- `SearchResult`. -/
structure SearchResult (R : Type) where
  totalHits : ℕ := 0
  hits : List (Hit R) := []
  features : List (FeatureVector R) := []

/-! ### Stage 1 -/

/-- A new iterator over the postings of a term, when it finds a document. -/
def seekPosting (seg : SegmentReader) (fieldId : ℕ) (te : TermEntry)
    (hasPositions hasTokenWeights : Bool) (docId : ℕ) : Option TermIterator :=
  let res := (TermIterator.new (seg.postingBytes fieldId te) te.df te.totalTf hasPositions
    hasTokenWeights).advance docId
  if res.1 = docId then some res.2 else none

/-- The frequency stage 1 reads for a leaf in a document. -/
def stage1Freq (seg : SegmentReader) (docId : ℕ) (l : LeafTerm) : Option UInt32 :=
  (leafEntry seg l).bind fun (fieldId, te) ↦
    (seekPosting seg fieldId te false false docId).map fun it ↦ it.currentFreq

/-- The idf a leaf is given, among the leaves of a query. -/
def leafIdf (idf : UInt64 → UInt64 → R) (r : IndexReader) (leaves : List LeafTerm)
    (l : LeafTerm) : R :=
  ((idfByKey idf r leaves).find? (keyOf l)).getD (ofRat 0)

/-- A round of the loop over the leaves: the average stands for the length of the document. -/
def addLeafScore (r : IndexReader) (leaves : List LeafTerm) (params : Bm25Params R)
    (seg : SegmentReader) (docId : ℕ) (score : R) (l : LeafTerm) : R :=
  match stage1Freq seg docId l with
  | some tf =>
    let avg := avgDlByField r l.fieldName
    score + bm25Score (leafIdf bm25Idf r leaves l) tf avg avg params
  | none => score

/-- The score stage 1 gives to a document. -/
def stage1Score (r : IndexReader) (leaves : List LeafTerm) (params : Bm25Params R)
    (seg : SegmentReader) (docId : ℕ) : R :=
  leaves.foldl (addLeafScore r leaves params seg docId) (ofRat 0)

/-- The documents of the loop that calls `Next` until there are no more, if it ends after so many
rounds. -/
def nextDocs {σ : Type} [DocIdSetIterator σ] : ℕ → σ → Option (List ℕ)
  | 0, _ => none
  | rounds + 1, it =>
    let res := DocIdSetIterator.next it
    if res.1 = kNoMoreDocs then some [] else (nextDocs rounds res.2).map (res.1 :: ·)

section Search

variable [SortByKey] (r : IndexReader) (q : QueryAst)

/-- The documents the loop of a segment is at; one round for each document and one more end it. -/
def segmentDocs (seg : SegmentReader) : Option (List ℕ) :=
  @nextDocs Iter (Iter.dispatch q.depth) (seg.docCount + 1) (build seg r.schema q)

/-- The entries the loop of a segment makes. -/
def segmentEntries (params : Bm25Params R) (seg : SegmentReader) (segmentIndex : ℕ) :
    Option (List (ScoredEntry R)) :=
  (segmentDocs r q seg).map fun docs ↦ docs.map fun docId ↦
    { score := stage1Score r (collectLeaves r.schema q) params seg docId, segmentIndex, docId }

/-- The entries of all segments. -/
def stage1Entries (params : Bm25Params R) : Option (List (ScoredEntry R)) :=
  (r.segments.zipIdx.mapM fun p ↦ segmentEntries r q params p.1 p.2).map List.flatten

/-! ### Stage 2 -/

/-- What stage 2 collects for a leaf at a candidate. -/
def leafContextItem (leaves : List LeafTerm) (segment : Option SegmentReader) (docId : ℕ)
    (l : LeafTerm) : LeafContextItem R :=
  let avg := avgDlByField r l.fieldName
  let item : LeafContextItem R :=
    { idf := leafIdf bm25Idf r leaves l, avgFieldLen := avg, fieldLen := avg }
  match segment with
  | none => item
  | some seg =>
    let fieldId := seg.getFieldId l.fieldName
    if fieldId = kInvalidFieldId then item
    else
      let item := { item with fieldId }
      let item := match seg.field fieldId with
        | some fr => { item with boost := fr.stats.boost, positionDecay := fr.stats.positionDecay }
        | none => item
      match seg.findTerm fieldId l.text with
      | none => item
      | some te =>
        let hasPos := (seg.field fieldId).any (·.stats.hasPositions)
        let hasW := (seg.field fieldId).any (·.stats.hasTokenWeights)
        match seekPosting seg fieldId te hasPos hasW docId with
        | none => item
        | some it =>
          let item := { item with matched := true, tf := it.currentFreq }
          let item := if hasPos then { item with firstPos := it.currentPos } else item
          if hasW then { item with tokenWeight := it.currentWeight } else item

/-- The features of a candidate. -/
def candidateFeatures (params : Bm25Params R) (c : ScoredEntry R) : FeatureVector R :=
  let leaves := collectLeaves r.schema q
  let segment := r.segments[c.segmentIndex]?
  extractFeatures
    { segment
      docId := c.docId
      numQueryLeaves := leaves.length
      leaves := leaves.map (leafContextItem r leaves segment c.docId) } params

/-- A candidate with the score of the ranker, if there is one. -/
def rescore (opts : SearchOptions R) (c : ScoredEntry R) : ScoredEntry R :=
  match opts.ranker with
  | some score => { c with score := score (candidateFeatures r q opts.bm25 c) }
  | none => c

/-! ### Stage 3 -/

variable [LibcDecimal]

/-- A hit, with the stored fields of its document. -/
def hit (c : ScoredEntry R) : Hit R :=
  let stored := match r.segments[c.segmentIndex]? with
    | some seg => seg.storedFields c.docId
    | none => []
  let id := match Json.parse stored with
    | .ok v => (v.findString Schema.kIdField).getD []
    | .error _ => []
  { score := c.score, id, storedFieldsJson := stored }

variable [SortByScore]

/-- The pool of stage 1, in the order the heap is emptied. -/
def pool (opts : SearchOptions R) : Option (List (ScoredEntry R)) := do
  let entries ← stage1Entries r q opts.bm25
  TopK.offerAll ScoredEntry.score ScoredEntry.index opts.topN [] entries

/-- The candidates that are returned, in their order. -/
def ranked (opts : SearchOptions R) : Option (List (ScoredEntry R)) := do
  let candidates ← pool r q opts
  some ((SortByScore.sort ScoredEntry.score (candidates.map (rescore r q opts))).take opts.size)

/-- `Searcher::Search`. -/
def search (opts : SearchOptions R) : Option (SearchResult R) :=
  if r.segments = [] then some {}
  else do
    let entries ← stage1Entries r q opts.bm25
    let order ← ranked r q opts
    some
      { totalHits := entries.length
        hits := order.map (hit r)
        features := if opts.collectFeatures then order.map (candidateFeatures r q opts.bm25)
          else [] }

end Search

end Spp.Query
