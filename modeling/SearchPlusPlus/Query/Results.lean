import SearchPlusPlus.Query.Documents
import SearchPlusPlus.Query.Ties

/-!
# What a search returns

A search for as many documents as match returns all of them (`perm_of_totalMatches_le`). Over an
index that was sealed and opened these are the documents that satisfy the query, with their ids
and stored fields, wherever its segments end (`matches_iff`).
-/

namespace Spp.Query

open Index TopK

variable {R : Type} [Arith R]

section Returned

variable {ix : PostedIndex} {q : QueryAst} {opts : SearchOptions R}

/-- A document stays where it is when it is scored again. -/
@[simp] theorem rescore_segmentIndex (r : IndexReader) (c : ScoredEntry R) :
    (rescore r q opts c).segmentIndex = c.segmentIndex := by
  rw [rescore]
  cases opts.ranker <;> rfl

@[simp] theorem rescore_docId (r : IndexReader) (c : ScoredEntry R) :
    (rescore r q opts c).docId = c.docId := by
  rw [rescore]
  cases opts.ranker <;> rfl

@[simp] theorem rescore_index (r : IndexReader) (c : ScoredEntry R) :
    (rescore r q opts c).index = c.index := by
  rw [ScoredEntry.index, rescore_segmentIndex, rescore_docId, ScoredEntry.index]

variable [SortByKey] [SortByScore]

/-- With room for all matching documents, all of them are returned. -/
theorem perm_of_totalMatches_le (hsize : ix.totalMatches q ≤ opts.size)
    (hroom : 0 < opts.topN ∨ ix.totalMatches q = 0) :
    ∃ order, ranked ix.reader q opts = some order ∧
      order.Perm ((matchingEntries ix q opts.bm25).map (rescore ix.reader q opts)) := by
  obtain ⟨candidates, hpool⟩ := Option.isSome_iff_exists.1 (isSome_pool_iff.2 hroom)
  obtain ⟨left, hsplit⟩ := split_pool hpool
  have hlen := hsplit.perm.length_eq
  rw [List.length_append, length_matchingEntries] at hlen
  -- What is left out had no room in a heap for all that match.
  have hleft : left = [] := by
    by_contra hne
    have hfull := hsplit.full hne
    have htop : opts.size ≤ opts.topN := size_le_topN
    have hpos := List.length_pos_of_ne_nil hne
    omega
  have hperm : candidates.Perm (matchingEntries ix q opts.bm25) := by
    rw [← List.append_nil candidates, ← hleft]
    exact hsplit.perm
  have hsort := SortByScore.perm ScoredEntry.score (candidates.map (rescore ix.reader q opts))
  refine ⟨_, by rw [ranked_eq, hpool, Option.map_some], ?_⟩
  rw [List.take_of_length_le]
  · exact hsort.trans (hperm.map _)
  · rw [hsort.length_eq, List.length_map, hperm.length_eq, length_matchingEntries]
    exact hsize

end Returned

/-! ### Matching documents -/

section Sealed

variable [LibcDecimal] [SortByKey] [SortByScore] {ix : SealedIndex} {q : QueryAst}
  {opts : SearchOptions R}

/-- A result counts the documents that satisfy a query and, if there is room for all, holds each
of them once and no other. -/
structure ReturnsMatches (ix : SealedIndex) (q : QueryAst) (opts : SearchOptions R)
    (result : SearchResult R) : Prop where
  totalHits : result.totalHits = (ix.selected q).length
  places : result.totalHits ≤ opts.size → ∃ order, ranked ix.reader q opts = some order ∧
    result.hits = order.map (hit ix.reader) ∧ (order.map (·.index)).Nodup ∧
      (order.map fun e ↦ ix.docAt e.segmentIndex e.docId).Perm ((ix.selected q).map some)
  contents : result.totalHits ≤ opts.size →
    (result.hits.map fun h ↦ (h.id, h.storedFieldsJson)).Perm ((ix.selected q).map fun doc ↦
      (doc.id, MutableSegment.storedBlob ix.schema doc))

omit [Arith R] [SortByKey] [SortByScore] in
/-- The hits at some places have the ids and the stored fields of the documents there. -/
theorem contents_of_places {order : List (ScoredEntry R)} {docs : List Document}
    (h : (order.map fun e ↦ ix.docAt e.segmentIndex e.docId).Perm (docs.map some)) :
    ((order.map (hit ix.reader)).map fun h ↦ (h.id, h.storedFieldsJson)).Perm
      (docs.map fun doc ↦ (doc.id, MutableSegment.storedBlob ix.schema doc)) := by
  have hhit : ∀ e ∈ order, (ix.docAt e.segmentIndex e.docId).map (fun doc ↦
      (doc.id, MutableSegment.storedBlob ix.schema doc)) =
        some ((hit ix.reader e).id, (hit ix.reader e).storedFieldsJson) := fun e he ↦ by
    obtain ⟨doc, -, hdoc⟩ := List.mem_map.1 (h.subset (List.mem_map_of_mem he))
    rw [← hdoc, hit_posted ix hdoc.symm, Option.map_some]
  have hcontent := h.filterMap (Option.map fun doc ↦
    (doc.id, MutableSegment.storedBlob ix.schema doc))
  have hreturned : (order.map fun e ↦ ix.docAt e.segmentIndex e.docId).filterMap
      (Option.map fun doc ↦ (doc.id, MutableSegment.storedBlob ix.schema doc)) =
        (order.map (hit ix.reader)).map fun h ↦ (h.id, h.storedFieldsJson) := by
    rw [List.filterMap_map, List.map_map]
    exact List.filterMap_eq_map_iff_forall_eq_some.2 hhit
  rw [hreturned, List.filterMap_map] at hcontent
  exact hcontent.trans (.of_eq (congrFun List.filterMap_eq_map _))

theorem exists_search_sealed_iff : (∃ result, search ix.reader q opts = some result) ↔
    0 < opts.topN ∨ ix.selected q = [] := by
  rw [← ix.reader_posted, exists_search_iff, totalMatches_posted, List.length_eq_zero_iff]

/-- What a search returns, from the candidates in their order. -/
theorem search_sealed_eq : search ix.reader q opts =
    (ranked ix.reader q opts).map fun order ↦
      { totalHits := (ix.selected q).length
        hits := order.map (hit ix.reader)
        features := if opts.collectFeatures then
          order.map (candidateFeatures ix.reader q opts.bm25) else [] } := by
  have hsearch : search ix.posted.reader q opts = _ := search_eq
  rwa [ix.reader_posted, totalMatches_posted] at hsearch

/-- With room for all documents that satisfy a query, the entries of all of them are returned. -/
theorem perm_of_selected_le (hsize : (ix.selected q).length ≤ opts.size)
    (hroom : 0 < opts.topN ∨ ix.selected q = []) :
    ∃ order, ranked ix.reader q opts = some order ∧
      order.Perm ((matchingEntries ix.posted q opts.bm25).map (rescore ix.reader q opts)) := by
  rw [← totalMatches_posted] at hsize
  rw [← List.length_eq_zero_iff, ← totalMatches_posted] at hroom
  exact ix.reader_posted ▸ perm_of_totalMatches_le hsize hroom

section Places

variable {order : List (ScoredEntry R)}
  (hperm : order.Perm ((matchingEntries ix.posted q opts.bm25).map (rescore ix.reader q opts)))

include hperm

omit [SortByKey] [SortByScore] in
theorem nodup_places : (order.map (·.index)).Nodup := by
  have hplaces := hperm.map ScoredEntry.index
  simp only [List.map_map, Function.comp_def, rescore_index] at hplaces
  exact hplaces.nodup_iff.2 (List.pairwise_map.2 (pairwise_matchingEntries.imp fun h ↦ h.ne))

omit [SortByKey] [SortByScore] in
theorem docs_of_places :
    (order.map fun e ↦ ix.docAt e.segmentIndex e.docId).Perm ((ix.selected q).map some) := by
  have hdocs := hperm.map fun e ↦ ix.docAt e.segmentIndex e.docId
  simp only [List.map_map, Function.comp_def, rescore_segmentIndex, rescore_docId] at hdocs
  rwa [docAt_matchingEntries] at hdocs

omit [SortByKey] [SortByScore] in
/-- The places that are returned are those of the documents that satisfy the query. -/
theorem exists_mem_places_iff {i d : ℕ} : (∃ e ∈ order, e.segmentIndex = i ∧ e.docId = d) ↔
    ∃ doc, ix.docAt i d = some doc ∧ satisfies ix.schema doc q = true := by
  rw [← mem_matchingEntries_iff_docAt q ix opts.bm25]
  simp only [hperm.mem_iff, List.mem_map, exists_exists_and_eq_and, rescore_segmentIndex,
    rescore_docId]

end Places

theorem returnsMatches_of_search {result : SearchResult R}
    (h : search ix.reader q opts = some result) : ReturnsMatches ix q opts result := by
  have hroom := exists_search_sealed_iff.1 ⟨result, h⟩
  rw [search_sealed_eq] at h
  obtain ⟨order, hranked, rfl⟩ := Option.map_eq_some_iff.1 h
  have hperm : (ix.selected q).length ≤ opts.size →
      order.Perm ((matchingEntries ix.posted q opts.bm25).map (rescore ix.reader q opts)) := by
    intro hsize
    obtain ⟨order', hranked', hperm⟩ := perm_of_selected_le hsize hroom
    obtain rfl := Option.some.inj (hranked.symm.trans hranked')
    exact hperm
  refine ⟨rfl, fun hsize ↦ ⟨order, hranked, rfl, ?_⟩, fun hsize ↦ ?_⟩
  · exact ⟨nodup_places (hperm hsize), docs_of_places (hperm hsize)⟩
  · exact contents_of_places (docs_of_places (hperm hsize))

/-- **Match semantics**: a search counts the documents that satisfy the query and, asked for that
many, returns each of them once and no other, exactly if its heap has room or nothing matches. -/
theorem matches_iff (ix : SealedIndex) (q : QueryAst) (opts : SearchOptions R) :
    (∃ result, search ix.reader q opts = some result ∧ ReturnsMatches ix q opts result) ↔
      0 < opts.topN ∨ ix.selected q = [] := by
  rw [← exists_search_sealed_iff]
  exact exists_congr fun result ↦ and_iff_left_of_imp returnsMatches_of_search

end Sealed

/-- A document with a text of two words. -/
def foxDoc : Document :=
  { id := str "a", fields := SortedMap.empty.insert (str "t") (str "the fox") }

/-- There is an index of that document. -/
theorem exists_foxIndex : ∃ ix : @SealedIndex .integral,
    @SealedIndex.schema .integral ix = sampleSchema ∧
      @SealedIndex.docAt .integral ix 0 0 = some foxDoc := by
  let _ := LibcDecimal.integral
  obtain ⟨seg, hdocs, -⟩ := @SealedSegment.exists_sealThenOpen .integral sampleSchema [foxDoc]
    (str "seg") (fun _ ↦ none) (by decide)
    { names := by decide
      terms := by decide +kernel
      blobs := by decide +kernel
      tim := by decide +kernel
      doc := by decide +kernel
      fdt := by decide +kernel
      termCounts := by decide +kernel } (.inl rfl)
  refine ⟨{ schema := sampleSchema, segments := [seg] }, rfl, ?_⟩
  show seg.docs[0]? = some foxDoc
  rw [hdocs]
  rfl

/-- A search for no hits counts nothing: it looks at the top of an empty heap. -/
theorem not_matches : ¬∀ (ix : @SealedIndex .integral) (q : QueryAst) (opts : SearchOptions ℝ),
    ∃ result, @search ℝ _ mergeSortByKey (@SealedIndex.reader .integral ix) q .integral
        mergeSortByScore opts = some result ∧
      @ReturnsMatches ℝ _ .integral mergeSortByKey mergeSortByScore ix q opts result := by
  let _ := mergeSortByKey
  let _ := mergeSortByScore
  let _ := LibcDecimal.integral
  intro h
  obtain ⟨ix, -, hdoc⟩ := exists_foxIndex
  obtain ⟨result, hsearch, -⟩ := h ix .matchAll { size := 0 }
  have hmem : foxDoc ∈ ix.selected .matchAll :=
    List.mem_filter.2 ⟨SealedIndex.mem_docs_of_docAt hdoc, rfl⟩
  rcases exists_search_sealed_iff.1 ⟨result, hsearch⟩ with hroom | hnone
  · exact absurd hroom (by decide)
  · exact List.ne_nil_of_mem hmem hnone

end Spp.Query
