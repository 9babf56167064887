import SearchPlusPlus.Query.LeafPostings
import SearchPlusPlus.Query.Results

/-!
# The stages of a search

What a search does with the documents that satisfy a query (`TwoStages`): stage 1 keeps the best
of them in its heap, stage 2 may score these again, and stage 3 returns the best of the pool, by
descending scores. Documents, scores and features stay aligned because each stage maps or permutes
entries, and a hit and its features are read at the place of its entry.

The features of a document are said without its segment's bytes: a leaf has the posting that the
document contributes to its term (`documentFeatures`), and stage 2 collects that
(`candidateFeatures_eq`).
-/

namespace Spp.Query

open Index TopK

variable {R : Type} [Arith R]

/-- In a list with descending scores, what is taken has the highest. -/
theorem score_le_of_mem_take {α : Type} {score : α → R} {l : List α}
    (hsorted : l.Pairwise fun a b ↦ score b ≤ score a) {k : ℕ} {a b : α} (ha : a ∈ l)
    (hleft : a ∉ l.take k) (hb : b ∈ l.take k) : score a ≤ score b := by
  rw [← List.take_append_drop k l] at ha hsorted
  have hdrop : a ∈ l.drop k := (List.mem_append.1 ha).resolve_left hleft
  exact (List.pairwise_append.1 hsorted).2.2 b hb a hdrop

/-! ### The features of a document -/

section Features

/-- The posting of a document in the list of a term is what it contributes to it. -/
theorem find?_postingsOf {docs : List Document} {d : ℕ} {doc : Document}
    (hdoc : docs[d]? = some doc) (f : FieldMapping) (term : Bytes) :
    (postingsOf f docs term).find? (·.docId = d) = docPosting f doc d term := by
  cases hp : docPosting f doc d term with
  | none =>
    refine List.find?_eq_none.2 fun p hmem ↦ ?_
    obtain ⟨doc', hdoc', hp'⟩ := mem_postingsOf.1 hmem
    rw [decide_eq_true_eq]
    rintro rfl
    obtain rfl := Option.some.inj (hdoc.symm.trans hdoc')
    cases hp.symm.trans hp'
  | some p =>
    have hid := docId_of_docPosting hp
    subst hid
    have hmem : p ∈ postingsOf f docs term := mem_postingsOf.2 ⟨doc, hdoc, hp⟩
    cases hfind : (postingsOf f docs term).find? (·.docId = p.docId) with
    | none => simpa using List.find?_eq_none.1 hfind p hmem
    | some p' =>
      obtain ⟨doc', hdoc', hp'⟩ := mem_postingsOf.1 (List.mem_of_find?_eq_some hfind)
      have hid' : p'.docId = p.docId := by simpa using List.find?_some hfind
      rw [hid'] at hdoc' hp'
      obtain rfl := Option.some.inj (hdoc.symm.trans hdoc')
      exact hp'.symm.trans hp

variable (r : IndexReader) (leaves : List LeafTerm) (schema : Schema) (doc : Document) (d : ℕ)

/-- What there is to collect for a leaf in a document: the mapping of its field, and of the
document's posting of its term what the field stores. -/
def documentItem (l : LeafTerm) : LeafContextItem R :=
  let avg := avgDlByField r l.fieldName
  let item : LeafContextItem R :=
    { idf := leafIdf bm25Idf r leaves l, avgFieldLen := avg, fieldLen := avg }
  match schema.getField? l.fieldName with
  | none => item
  | some f =>
    let item :=
      { item with
        fieldId := schema.getFieldId l.fieldName
        boost := f.boost
        positionDecay := f.positionDecay }
    match docPosting f doc d l.text with
    | none => item
    | some p =>
      { item with
        matched := true
        tf := p.tf
        firstPos := if F32.lt F32.zero f.positionDecay then p.firstPos else 0
        tokenWeight := if f.storeTokenWeights
          then dequantizeTokenWeight (quantizeTokenWeight p.maxTokenWeight) else F32.one }

variable {r leaves schema doc d}

/-- **Stage 2 collects** the item of the document. -/
theorem leafContextItem_eq [LibcDecimal] (seg : SealedSegment schema)
    (hdoc : seg.docs[d]? = some doc)
    (l : LeafTerm) : (leafContextItem r leaves (some seg.reader) d l : LeafContextItem R) =
      documentItem r leaves schema doc d l := by
  have hid : seg.reader.getFieldId l.fieldName = schema.getFieldId l.fieldName :=
    getFieldId_of_agrees seg.agrees seg.wellFormed l.fieldName
  have hd : d < kNoMoreDocs := by
    have hlt : d < seg.posted.reader.docCount :=
      seg.docCount_reader.symm ▸ (List.getElem?_eq_some_iff.1 hdoc).1
    exact hlt.trans_le seg.posted.docCount_le
  rw [leafContextItem, documentItem, hid]
  cases hf : schema.getField? l.fieldName with
  | none =>
    rw [getFieldId_of_getField?_none hf]
    rfl
  | some f =>
    obtain ⟨hget, hlt⟩ := getFieldId_of_getField? hf
    have hfd : (MutableSegment.build schema seg.docs).fieldData[schema.getFieldId l.fieldName]? =
        some (fieldDataOf f seg.docs) := by
      simp [MutableSegment.build, hget]
    have hpost := find?_fieldDataOf f seg.docs l.text
    have hlist : seg.posted.postings (schema.getFieldId l.fieldName) l.text =
        postingsOf f seg.docs l.text := by
      show PostedSegment.postingList (.build schema seg.docs) _ _ = _
      rw [PostedSegment.postingList, hfd]
      dsimp only
      rw [hpost]
      split_ifs with hnil
      · exact hnil.symm
      · rfl
    have hposting := find?_postingsOf hdoc f l.text
    obtain ⟨fr, hfr, -, -, -, hboost, hdecay, hpos, hweights⟩ := seg.agrees.stats _ _ _ hget hfd
    simp only [if_neg hlt.ne, hfr, Option.any_some, hpos, hweights, hboost, hdecay]
    cases hfind : seg.reader.findTerm (schema.getFieldId l.fieldName) l.text with
    | none =>
      have hnil : postingsOf f seg.docs l.text = [] := by
        by_contra hne
        rw [if_neg hne] at hpost
        obtain ⟨te, hte, -⟩ := seg.agrees.findTerm_some _ _ _ _ _ hget hfd hpost
        cases hfind.symm.trans hte
      rw [hnil, List.find?_nil] at hposting
      rw [← hposting]
    | some te =>
      have hfound : seg.posted.reader.findTerm _ _ = some te := hfind
      have hseek := seekPosting_posted hfound hd
      rw [hlist, hposting] at hseek
      have hfield : seg.posted.reader.field (schema.getFieldId l.fieldName) = some fr := hfr
      simp only [hfield, Option.any_some, hpos, hweights] at hseek
      rcases hseek with ⟨hnone, hseek⟩ | ⟨p, it, hsome, hseek, hshows⟩
      · have hseek' : seekPosting seg.reader _ te _ _ d = none := hseek
        simp only [hseek', hnone]
      · have hseek' : seekPosting seg.reader _ te _ _ d = some it := hseek
        simp only [hseek', hsome, hshows.freq, hshows.position, hshows.tokenWeight]
        cases F32.lt F32.zero f.positionDecay <;> cases f.storeTokenWeights <;> rfl

variable [LibcDecimal] (ix : SealedIndex) (q : QueryAst) (params : Bm25Params R)

/-- The features of a document at the place of an entry. -/
def documentFeatures (e : ScoredEntry R) (doc : Document) : FeatureVector R :=
  let leaves := collectLeaves ix.schema q
  extractFeatures
    { segment := ix.segments[e.segmentIndex]?.map (·.reader)
      docId := e.docId
      numQueryLeaves := leaves.length
      leaves := leaves.map (documentItem ix.reader leaves ix.schema doc e.docId) } params

theorem candidateFeatures_eq {e : ScoredEntry R} {doc : Document}
    (hdoc : ix.docAt e.segmentIndex e.docId = some doc) :
    candidateFeatures ix.reader q params e = documentFeatures ix q params e doc := by
  obtain ⟨seg, hseg, hdoc⟩ := Option.bind_eq_some_iff.1 hdoc
  have hreader : ix.reader.segments[e.segmentIndex]? = some seg.reader := by
    rw [SealedIndex.reader, List.getElem?_map, hseg, Option.map_some]
  have hitems : (collectLeaves ix.schema q).map
      (leafContextItem ix.reader (collectLeaves ix.schema q) (some seg.reader) e.docId) =
        (collectLeaves ix.schema q).map (documentItem (R := R) ix.reader
          (collectLeaves ix.schema q) ix.schema doc e.docId) :=
    List.map_congr_left fun l _ ↦ leafContextItem_eq seg hdoc l
  rw [documentFeatures, ← hitems, candidateFeatures, hreader, hseg]
  rfl

end Features

section Sealed

variable [LibcDecimal] [SortByKey] [SortByScore]

/-- The score of a candidate after stage 2: that of the ranker for the features of its document, if
there is one. -/
def Rescored (ix : SealedIndex) (q : QueryAst) (opts : SearchOptions R) (c e : ScoredEntry R) :
    Prop :=
  e.index = c.index ∧ ∃ doc, ix.docAt c.segmentIndex c.docId = some doc ∧
    e.score = opts.ranker.elim c.score fun rank ↦ rank (documentFeatures ix q opts.bm25 c doc)

/-- The entries of the matching documents, the pool of stage 1, the pool after stage 2, the entries
that are returned, and the result. -/
structure TwoStages (ix : SealedIndex) (q : QueryAst) (opts : SearchOptions R)
    (entries candidates finals order : List (ScoredEntry R)) (result : SearchResult R) :
    Prop where
  entries_eq : stage1Entries ix.reader q opts.bm25 = some entries
  entries_docs : entries.map (fun e ↦ ix.docAt e.segmentIndex e.docId) = (ix.selected q).map some
  entries_nodup : (entries.map (·.index)).Nodup
  totalHits : result.totalHits = entries.length
  pool_eq : pool ix.reader q opts = some candidates
  pool_length : candidates.length = min opts.topN result.totalHits
  pool_nodup : (candidates.map (·.index)).Nodup
  pool_subset : candidates ⊆ entries
  pool_best : ∀ e ∈ entries, e ∉ candidates → ∀ c ∈ candidates, e.score ≤ c.score
  rescored : List.Forall₂ (Rescored ix q opts) candidates finals
  order_eq : ranked ix.reader q opts = some order
  order_length : order.length = min opts.size result.totalHits
  order_nodup : (order.map (·.index)).Nodup
  order_subset : order ⊆ finals
  order_sorted : order.Pairwise fun a b ↦ b.score ≤ a.score
  order_best : ∀ c ∈ finals, c ∉ order → ∀ e ∈ order, c.score ≤ e.score
  /-- A hit carries the score of its entry, and the id and stored fields of the document there. -/
  hits : List.Forall₂ (fun e h ↦ ∃ doc, ix.docAt e.segmentIndex e.docId = some doc ∧
    h = { score := e.score, id := doc.id
          storedFieldsJson := MutableSegment.storedBlob ix.schema doc }) order result.hits
  features : opts.collectFeatures = true → List.Forall₂ (fun e fv ↦ ∃ doc,
    ix.docAt e.segmentIndex e.docId = some doc ∧ fv = documentFeatures ix q opts.bm25 e doc)
      order result.features

variable {ix : SealedIndex} {q : QueryAst} {opts : SearchOptions R}
  {candidates left : List (ScoredEntry R)}

section Places

omit [SortByKey] [SortByScore]

/-- A candidate is at the place of a document. -/
theorem exists_docAt_of_mem {e : ScoredEntry R} (h : e ∈ matchingEntries ix.posted q opts.bm25) :
    ∃ doc, ix.docAt e.segmentIndex e.docId = some doc := by
  have hmem := List.mem_map_of_mem (f := fun e ↦ ix.docAt e.segmentIndex e.docId) h
  rw [docAt_matchingEntries] at hmem
  obtain ⟨doc, -, hdoc⟩ := List.mem_map.1 hmem
  exact ⟨doc, hdoc.symm⟩

/-- The places of the pool differ. -/
theorem nodup_pool (hsplit : Split ScoredEntry.score ScoredEntry.index opts.topN
    (matchingEntries ix.posted q opts.bm25) candidates left) :
    (candidates.map (·.index)).Nodup := by
  have hentries : ((matchingEntries ix.posted q opts.bm25).map (·.index)).Nodup :=
    List.pairwise_map.2 (pairwise_matchingEntries.imp fun h ↦ h.ne)
  have hall := (hsplit.perm.map (·.index)).nodup_iff.2 hentries
  rw [List.map_append] at hall
  exact (List.nodup_append.1 hall).1

end Places

omit [SortByKey] [SortByScore] in
/-- **Stage 2** scores a candidate by the features of its document. -/
theorem rescored_rescore {c : ScoredEntry R} {doc : Document}
    (hdoc : ix.docAt c.segmentIndex c.docId = some doc) :
    Rescored ix q opts c (rescore ix.reader q opts c) := by
  refine ⟨rescore_index ix.reader c, doc, hdoc, ?_⟩
  rw [rescore]
  cases opts.ranker with
  | none => rfl
  | some rank => exact congrArg rank (candidateFeatures_eq ix q opts.bm25 hdoc)

/-- **The stages of a search** for some documents. -/
theorem twoStages_of_search (hsize : 0 < opts.size) :
    ∃ entries candidates finals order result, search ix.reader q opts = some result ∧
      TwoStages ix q opts entries candidates finals order result := by
  have hfilled : ∃ candidates, pool ix.posted.reader q opts = some candidates := exists_pool hsize
  obtain ⟨candidates, hpool⟩ := hfilled
  obtain ⟨left, hsplit⟩ := split_pool hpool
  have hranked : ranked ix.posted.reader q opts = _ := ranked_eq
  have hentries : stage1Entries ix.posted.reader q opts.bm25 = _ := stage1Entries_reader ..
  have hsearch : search ix.reader q opts = _ := search_sealed_eq
  have htotal : (ix.selected q).length = (matchingEntries ix.posted q opts.bm25).length := by
    rw [length_matchingEntries, totalMatches_posted]
  rw [hpool, Option.map_some] at hranked
  rw [ix.reader_posted] at hpool hranked hentries
  rw [hranked, Option.map_some] at hsearch
  have hsort := SortByScore.perm ScoredEntry.score (candidates.map (rescore ix.reader q opts))
  have hsorted := SortByScore.sorted ScoredEntry.score (candidates.map (rescore ix.reader q opts))
  generalize SortByScore.sort ScoredEntry.score (candidates.map (rescore ix.reader q opts)) = l
    at hsearch hranked hsort hsorted
  have hsub : l.take opts.size ⊆ candidates.map (rescore ix.reader q opts) := fun e he ↦
    hsort.subset (List.mem_of_mem_take he)
  have hlength : candidates.length = min opts.topN (ix.selected q).length := by
    rw [hsplit.length, htotal]
  have hplace : ∀ c ∈ candidates, ∃ doc, ix.docAt c.segmentIndex c.docId = some doc := fun c hc ↦
    exists_docAt_of_mem (hsplit.mem_iff.2 (.inl hc))
  have hdoc : ∀ e ∈ l.take opts.size, ∃ doc, ix.docAt e.segmentIndex e.docId = some doc := by
    intro e he
    obtain ⟨c, hc, rfl⟩ := List.mem_map.1 (hsub he)
    rw [rescore_segmentIndex, rescore_docId]
    exact hplace c hc
  refine ⟨matchingEntries ix.posted q opts.bm25, candidates,
    candidates.map (rescore ix.reader q opts), l.take opts.size, _, hsearch, ?_⟩
  exact
    { entries_eq := hentries
      entries_docs := docAt_matchingEntries q ix opts.bm25
      entries_nodup := List.pairwise_map.2 (pairwise_matchingEntries.imp fun h ↦ h.ne)
      totalHits := htotal
      pool_eq := hpool
      pool_length := hlength
      pool_nodup := nodup_pool hsplit
      pool_subset := fun c hc ↦ hsplit.mem_iff.2 (.inl hc)
      pool_best := fun e he hout c hc ↦
        hsplit.le e ((hsplit.mem_iff.1 he).resolve_left hout) c hc
      rescored := List.forall₂_map_right_iff.2 (List.forall₂_same.2 fun c hc ↦ by
        obtain ⟨doc, hdoc⟩ := hplace c hc
        exact rescored_rescore hdoc)
      order_eq := hranked
      order_length := by
        rw [List.length_take, hsort.length_eq, List.length_map, hlength, ← min_assoc,
          min_eq_left size_le_topN]
      order_nodup := by
        have hplaces := hsort.map (·.index)
        simp only [List.map_map, Function.comp_def, rescore_index] at hplaces
        exact (hplaces.nodup_iff.2 (nodup_pool hsplit)).sublist ((List.take_sublist _ _).map _)
      order_subset := hsub
      order_sorted := hsorted.sublist (List.take_sublist _ _)
      order_best := fun c hc hout e he ↦
        score_le_of_mem_take hsorted (hsort.mem_iff.2 hc) hout he
      hits := List.forall₂_map_right_iff.2 (List.forall₂_same.2 fun e he ↦ by
        obtain ⟨doc, hdoc⟩ := hdoc e he
        exact ⟨doc, hdoc, hit_posted ix hdoc⟩)
      features := fun hcollect ↦ by
        rw [if_pos hcollect]
        refine List.forall₂_map_right_iff.2 (List.forall₂_same.2 fun e he ↦ ?_)
        obtain ⟨doc, hdoc⟩ := hdoc e he
        exact ⟨doc, hdoc, candidateFeatures_eq ix q opts.bm25 hdoc⟩ }

end Sealed

/-! ### A search with a ranker -/

/-- A document with a word once. -/
def onceDoc : Document :=
  { id := str "b", fields := SortedMap.empty.insert (str "t") (str "fox") }

/-- A document with the same word twice. -/
def twiceDoc : Document :=
  { id := str "c", fields := SortedMap.empty.insert (str "t") (str "fox fox") }

/-- An index of three documents in two segments. -/
theorem exists_rankedIndex : ∃ ix : @SealedIndex .integral,
    @SealedIndex.schema .integral ix = sampleSchema ∧
      @SealedIndex.docs .integral ix = [foxDoc, onceDoc, twiceDoc] := by
  let _ := LibcDecimal.integral
  have hencodable : ((MutableSegment.new sampleSchema).addDocuments [foxDoc, onceDoc]).Encodable :=
    MutableSegment.encodable_of_fieldBytes (by decide) (by decide +kernel) (by decide +kernel)
      (by decide +kernel) (by decide +kernel)
  have hencodable' : ((MutableSegment.new sampleSchema).addDocuments [twiceDoc]).Encodable :=
    MutableSegment.encodable_of_fieldBytes (by decide) (by decide +kernel) (by decide +kernel)
      (by decide +kernel) (by decide +kernel)
  obtain ⟨first, hfirst, -⟩ := SealedSegment.exists_sealThenOpen (str "seg") (d := fun _ ↦ none)
    (by decide) hencodable (.inl rfl)
  obtain ⟨second, hsecond, -⟩ := SealedSegment.exists_sealThenOpen (str "seg") (d := fun _ ↦ none)
    (by decide) hencodable' (.inl rfl)
  refine ⟨{ schema := sampleSchema, segments := [first, second] }, rfl, ?_⟩
  show [first, second].flatMap (·.docs) = _
  rw [List.flatMap_cons, List.flatMap_singleton, hfirst, hsecond]
  rfl

/-- Two hits of three, by the frequencies of the words of the query. -/
noncomputable def rankedOptions : SearchOptions ℝ :=
  { size := 2, rerankTopN := 2, ranker := some fun fv ↦ fv .tfSum, collectFeatures := true }

theorem twoStages_of_search_sample : ∃ ix : @SealedIndex .integral,
    @SealedIndex.docs .integral ix = [foxDoc, onceDoc, twiceDoc] ∧
      ∃ entries candidates finals order result, @search ℝ _ mergeSortByKey
          (@SealedIndex.reader .integral ix) (.term (str "t") (str "fox")) .integral
            mergeSortByScore rankedOptions = some result ∧
        result.totalHits = 3 ∧ result.hits.length = 2 ∧ result.features.length = 2 ∧
        @TwoStages ℝ _ .integral mergeSortByKey mergeSortByScore ix (.term (str "t") (str "fox"))
          rankedOptions entries candidates finals order result := by
  let _ := LibcDecimal.integral
  let _ := mergeSortByKey
  let _ := mergeSortByScore
  obtain ⟨ix, hschema, hdocs⟩ := exists_rankedIndex
  obtain ⟨entries, candidates, finals, order, result, hsearch, hstages⟩ :=
    @twoStages_of_search ℝ _ .integral mergeSortByKey mergeSortByScore ix
      (.term (str "t") (str "fox")) rankedOptions (by decide : 0 < 2)
  have hall : ix.selected (.term (str "t") (str "fox")) = [foxDoc, onceDoc, twiceDoc] := by
    rw [SealedIndex.selected, hdocs, hschema]
    decide
  have htotal : result.totalHits = 3 := by
    have hlen := congrArg List.length hstages.entries_docs
    rw [List.length_map, List.length_map, hall] at hlen
    exact hstages.totalHits.trans hlen
  have hlength : order.length = 2 := hstages.order_length.trans (by rw [htotal]; rfl)
  exact ⟨ix, hdocs, entries, candidates, finals, order, result, hsearch, htotal,
    hstages.hits.length_eq ▸ hlength, (hstages.features rfl).length_eq ▸ hlength, hstages⟩

end Spp.Query
