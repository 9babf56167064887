import Mathlib.Data.Set.Card
import SearchPlusPlus.Query.SeekRuns
import SearchPlusPlus.Query.Searcher

/-!
# The candidates of a search

Over well-formed segments the loops of stage 1 are at the matching documents, in the order of the
index (`stage1Entries_reader`); the pool is a selection of their entries (`split_pool`), and there
is one unless it must be empty (`search_isSome_iff`).
-/

namespace Spp.Query

open Index

/-- An index of well-formed segments. -/
structure PostedIndex where
  schema : Schema
  segments : List PostedSegment

namespace PostedIndex

/-- The index as a reader has it. -/
def reader (ix : PostedIndex) : IndexReader :=
  { schema := ix.schema, segments := ix.segments.map (·.reader) }

variable (ix : PostedIndex) (q : QueryAst)

/-- The number of documents of an index that a query selects. -/
noncomputable def totalMatches : ℕ :=
  (ix.segments.map fun seg ↦ (matching seg ix.schema q).ncard).sum

end PostedIndex

/-! ### The documents of a segment -/

section Segment

variable (seg : PostedSegment) (schema : Schema)

mutual

theorem lt_docCount_of_matching : ∀ q : QueryAst,
    ∀ d ∈ matching seg schema q, d < seg.reader.docCount
  | .matchAll, _, hd => hd
  | .term field text, d, hd => by
    obtain ⟨-, hne, hall⟩ := hd
    obtain ⟨t, ht⟩ := List.exists_mem_of_ne_nil _ hne
    obtain ⟨-, p, hp, rfl⟩ := hall t ht
    exact seg.lt _ _ p hp
  | .conjunction children, d, hd => by
    obtain ⟨hne, hall⟩ := hd
    obtain ⟨T, hT⟩ := List.exists_mem_of_ne_nil _ (mt matchingAll_eq_nil.1 hne)
    exact lt_docCount_of_matchingAll children T hT d (hall T hT)
  | .disjunction children, d, hd => by
    obtain ⟨T, hT, hmem⟩ := hd
    exact lt_docCount_of_matchingAll children T hT d hmem

theorem lt_docCount_of_matchingAll : ∀ qs : List QueryAst,
    ∀ T ∈ matchingAll seg schema qs, ∀ d ∈ T, d < seg.reader.docCount
  | [], _, hT => absurd hT List.not_mem_nil
  | q :: qs, T, hT => by
    rcases List.mem_cons.1 hT with rfl | hT
    · exact lt_docCount_of_matching q
    · exact lt_docCount_of_matchingAll qs T hT

end

/-- The documents of a segment that a query selects, in their order. -/
noncomputable def matchingDocs (q : QueryAst) : List ℕ := by
  classical exact (List.range seg.reader.docCount).filter fun d ↦ d ∈ matching seg schema q

variable {seg schema} {q : QueryAst} {d : ℕ}

theorem mem_matchingDocs : d ∈ matchingDocs seg schema q ↔ d ∈ matching seg schema q := by
  classical
  rw [matchingDocs, List.mem_filter, List.mem_range]
  exact ⟨fun h ↦ of_decide_eq_true h.2, fun h ↦
    ⟨lt_docCount_of_matching seg schema q d h, decide_eq_true h⟩⟩

theorem pairwise_matchingDocs : (matchingDocs seg schema q).Pairwise (· < ·) :=
  List.pairwise_lt_range.filter _

theorem length_matchingDocs :
    (matchingDocs seg schema q).length = (matching seg schema q).ncard := by
  have hset : matching seg schema q = ((matchingDocs seg schema q).toFinset : Set ℕ) := by
    ext d
    rw [Finset.mem_coe, List.mem_toFinset, mem_matchingDocs]
  have hnodup : (matchingDocs seg schema q).Nodup := pairwise_matchingDocs.imp fun h ↦ h.ne
  rw [hset, Set.ncard_coe_finset, List.toFinset_card_of_nodup hnodup]

/-- **The loop of a segment**: from any point on it is at the documents that are left. -/
theorem nextDocs_of_held {n N : ℕ} {S : Set ℕ} (hS : ∀ x ∈ S, x < N) (hN : N ≤ kNoMoreDocs)
    (rounds : ℕ) : ∀ {it : Iter} {last : Option ℕ}, Held (n + 1) S it last →
      Call.next.bound last ≤ N → N < rounds + Call.next.bound last →
        ∃ docs, @nextDocs Iter (Iter.dispatch (n + 1)) rounds it = some docs ∧
          docs.Pairwise (· < ·) ∧ ∀ x, x ∈ docs ↔ x ∈ S ∧ Call.next.bound last ≤ x := by
  induction rounds with
  | zero =>
    intro it last _ hbound hrounds
    omega
  | succ rounds ih =>
    intro it last h hbound hrounds
    obtain ⟨hseek, -⟩ := h.next
    obtain ⟨-, hheld⟩ := h.on .next
    have hunfold : @nextDocs Iter (Iter.dispatch (n + 1)) (rounds + 1) it =
        if (Call.next.on (n + 1) it).1 = kNoMoreDocs then some []
        else (@nextDocs Iter (Iter.dispatch (n + 1)) rounds (Call.next.on (n + 1) it).2).map
          ((Call.next.on (n + 1) it).1 :: ·) := rfl
    rw [hunfold]
    generalize Call.next.on (n + 1) it = res at hseek hheld
    split_ifs with hend
    · refine ⟨[], rfl, .nil, fun x ↦ ⟨fun hx ↦ absurd hx List.not_mem_nil, fun ⟨hx, hle⟩ ↦ ?_⟩⟩
      exact absurd (h.lt x hx) (not_lt.2 (hend ▸ hseek.le_of_mem hx hle))
    · have hmem : res.1 ∈ S := hseek.mem hend
      have hge : Call.next.bound last ≤ res.1 := hseek.le (hbound.trans hN)
      have hbound' : Call.next.bound (some res.1) = res.1 + 1 := rfl
      obtain ⟨docs, hdocs, hsorted, hiff⟩ := ih (hheld hend) (hS _ hmem) (by rw [hbound']; omega)
      refine ⟨res.1 :: docs, by rw [hdocs]; rfl, ?_, fun x ↦ ?_⟩
      · exact List.pairwise_cons.2 ⟨fun x hx ↦ ((hiff x).1 hx).2, hsorted⟩
      · rw [List.mem_cons, hiff, hbound']
        constructor
        · rintro (rfl | ⟨hx, hle⟩)
          · exact ⟨hmem, hge⟩
          · exact ⟨hx, by omega⟩
        · rintro ⟨hx, hle⟩
          have hle' := hseek.le_of_mem hx hle
          exact (eq_or_lt_of_le hle').imp Eq.symm fun hlt ↦ ⟨hx, hlt⟩

theorem segmentDocs_reader [SortByKey] (r : IndexReader) (seg : PostedSegment) (q : QueryAst) :
    segmentDocs r q seg.reader = some (matchingDocs seg r.schema q) := by
  have hfresh : FreshAt q.depth (matching seg r.schema q) (build seg.reader r.schema q) :=
    fresh_build q
  rw [segmentDocs]
  obtain ⟨n, hn⟩ := q.depth_pos
  rw [hn] at hfresh ⊢
  have hheld : Held (n + 1) (matching seg r.schema q) (build seg.reader r.schema q) none := hfresh
  obtain ⟨docs, hdocs, hsorted, hiff⟩ := nextDocs_of_held (lt_docCount_of_matching seg r.schema q)
    seg.docCount_le (seg.reader.docCount + 1) hheld (Nat.zero_le _) (Nat.lt_succ_self _)
  rw [hdocs]
  refine congrArg some (hsorted.eq_of_mem_iff pairwise_matchingDocs fun x ↦ ?_)
  rw [hiff, mem_matchingDocs]
  exact ⟨fun h ↦ h.1, fun h ↦ ⟨h, Nat.zero_le x⟩⟩

end Segment

/-! ### The entries of an index -/

section Entries

variable {R : Type} [Arith R] (ix : PostedIndex) (q : QueryAst) (params : Bm25Params R)

/-- The matching documents of a segment with their scores. -/
noncomputable def matchingEntriesIn (seg : PostedSegment) (segmentIndex : ℕ) :
    List (ScoredEntry R) :=
  (matchingDocs seg ix.schema q).map fun docId ↦
    { score := stage1Score ix.reader (collectLeaves ix.schema q) params seg.reader docId
      segmentIndex
      docId }

/-- The matching documents of an index with their scores, in the order of the index. -/
noncomputable def matchingEntries : List (ScoredEntry R) :=
  (ix.segments.zipIdx.map fun p ↦ matchingEntriesIn ix q params p.1 p.2).flatten

theorem segmentEntries_reader [SortByKey] (seg : PostedSegment) (segmentIndex : ℕ) :
    segmentEntries ix.reader q params seg.reader segmentIndex =
      some (matchingEntriesIn ix q params seg segmentIndex) := by
  rw [segmentEntries, segmentDocs_reader]
  rfl

/-- **Stage 1** reaches the matching documents. -/
theorem stage1Entries_reader [SortByKey] :
    stage1Entries ix.reader q params = some (matchingEntries ix q params) := by
  have hsegments : ix.reader.segments.zipIdx =
      ix.segments.zipIdx.map (Prod.map PostedSegment.reader id) := List.zipIdx_map
  have hrounds : (ix.segments.zipIdx.map (Prod.map PostedSegment.reader id)).mapM
      (fun p ↦ segmentEntries ix.reader q params p.1 p.2) =
        some (ix.segments.zipIdx.map fun p ↦ matchingEntriesIn ix q params p.1 p.2) := by
    rw [List.mapM_map]
    refine Eq.trans (congrArg (List.mapM · _) (funext fun p ↦ ?_)) List.mapM_pure
    exact segmentEntries_reader ix q params p.1 p.2
  rw [stage1Entries, hsegments, hrounds]
  rfl

variable {ix q params} {e : ScoredEntry R}

theorem mem_matchingEntries : e ∈ matchingEntries ix q params ↔
    ∃ seg, ix.segments[e.segmentIndex]? = some seg ∧ e.docId ∈ matching seg ix.schema q ∧
      e.score = stage1Score ix.reader (collectLeaves ix.schema q) params seg.reader e.docId := by
  rw [matchingEntries, List.mem_flatten]
  constructor
  · rintro ⟨es, hes, he⟩
    obtain ⟨⟨seg, si⟩, hmem, rfl⟩ := List.mem_map.1 hes
    obtain ⟨d, hd, rfl⟩ := List.mem_map.1 he
    exact ⟨seg, List.mem_zipIdx_iff_getElem?.1 hmem, mem_matchingDocs.1 hd, rfl⟩
  · rintro ⟨seg, hseg, hd, hscore⟩
    refine ⟨_, List.mem_map.2 ⟨(seg, e.segmentIndex), List.mem_zipIdx_iff_getElem?.2 hseg, rfl⟩, ?_⟩
    refine List.mem_map.2 ⟨e.docId, mem_matchingDocs.2 hd, ?_⟩
    rw [← hscore]

/-- The entries are in the order of the index. -/
theorem pairwise_matchingEntries :
    (matchingEntries ix q params).Pairwise fun a b ↦ a.index < b.index := by
  rw [matchingEntries, List.pairwise_flatten]
  constructor
  · rintro es hes
    obtain ⟨⟨seg, si⟩, -, rfl⟩ := List.mem_map.1 hes
    refine List.pairwise_map.2 (pairwise_matchingDocs.imp fun hlt ↦ ?_)
    exact Prod.Lex.toLex_lt_toLex.2 (Or.inr ⟨rfl, hlt⟩)
  · have hsi : ix.segments.zipIdx.Pairwise fun a b ↦ a.2 < b.2 := by
      rw [← List.pairwise_map (f := Prod.snd), List.zipIdx_map_snd]
      exact List.pairwise_lt_range'
    refine List.pairwise_map.2 (hsi.imp fun hlt a ha b hb ↦ ?_)
    obtain ⟨d, -, rfl⟩ := List.mem_map.1 ha
    obtain ⟨d', -, rfl⟩ := List.mem_map.1 hb
    exact Prod.Lex.toLex_lt_toLex.2 (Or.inl hlt)

theorem length_matchingEntries : (matchingEntries ix q params).length = ix.totalMatches q := by
  rw [matchingEntries, List.length_flatten, List.map_map, PostedIndex.totalMatches]
  have hlen : ∀ p : PostedSegment × ℕ, (matchingEntriesIn ix q params p.1 p.2).length =
      (matching p.1 ix.schema q).ncard := fun p ↦ by
    rw [matchingEntriesIn, List.length_map, length_matchingDocs]
  have hmap : ix.segments.zipIdx.map (List.length ∘ fun p ↦ matchingEntriesIn ix q params p.1 p.2) =
      (ix.segments.zipIdx.map Prod.fst).map fun seg ↦ (matching seg ix.schema q).ncard := by
    rw [List.map_map]
    exact List.map_congr_left fun p _ ↦ hlen p
  rw [hmap, List.zipIdx_map_fst]

end Entries

/-! ### The heap -/

section Heap

variable {R : Type} [Arith R] [SortByKey] (ix : PostedIndex) (q : QueryAst)
  (opts : SearchOptions R)

theorem pool_reader : pool ix.reader q opts =
    TopK.offerAll ScoredEntry.score ScoredEntry.index opts.topN []
      (matchingEntries ix q opts.bm25) := by
  rw [pool, stage1Entries_reader]
  rfl

variable {ix q opts}

/-- The pool is a selection of the matching documents. -/
theorem split_pool {candidates : List (ScoredEntry R)}
    (h : pool ix.reader q opts = some candidates) :
    ∃ left, TopK.Split ScoredEntry.score ScoredEntry.index opts.topN
      (matchingEntries ix q opts.bm25) candidates left :=
  TopK.split_offerAll (pool_reader ix q opts ▸ h)

/-- The top of the heap is looked at only when there is one, unless the heap must stay empty and a
document matches. -/
theorem isSome_pool_iff :
    (pool ix.reader q opts).isSome ↔ 0 < opts.topN ∨ ix.totalMatches q = 0 := by
  have hlen : (matchingEntries ix q opts.bm25).length = ix.totalMatches q := length_matchingEntries
  rw [pool_reader, TopK.isSome_offerAll_iff, ← hlen, List.length_eq_zero_iff]

variable [SortByScore]

theorem ranked_eq : ranked ix.reader q opts = (pool ix.reader q opts).map fun candidates ↦
    (SortByScore.sort ScoredEntry.score (candidates.map (rescore ix.reader q opts))).take
      opts.size := by
  rw [ranked]
  cases pool ix.reader q opts <;> rfl

/-- In an index without segments there is nothing to return. -/
theorem ranked_of_segments_nil (h : ix.segments = []) : ranked ix.reader q opts = some [] := by
  have hentries : matchingEntries ix q opts.bm25 = [] := by rw [matchingEntries, h]; rfl
  have hpool : pool ix.reader q opts = some [] := by rw [pool_reader, hentries]; rfl
  have hsort := SortByScore.perm ScoredEntry.score ([] : List (ScoredEntry R))
  rw [ranked_eq, hpool, Option.map_some, List.map_nil, List.perm_nil.1 hsort, List.take_nil]

variable [LibcDecimal]

/-- What a search returns, from the candidates in their order. -/
theorem search_eq : search ix.reader q opts =
    (ranked ix.reader q opts).map fun order ↦
      { totalHits := ix.totalMatches q
        hits := order.map (hit ix.reader)
        features := if opts.collectFeatures then
          order.map (candidateFeatures ix.reader q opts.bm25) else [] } := by
  by_cases hnone : ix.segments = []
  · have hzero : ix.totalMatches q = 0 := by rw [PostedIndex.totalMatches, hnone]; rfl
    have hreader : ix.reader.segments = [] := by rw [PostedIndex.reader, hnone]; rfl
    rw [search, if_pos hreader, ranked_of_segments_nil hnone, Option.map_some, hzero,
      List.map_nil, List.map_nil, ite_self]
  · have hreader : ix.reader.segments ≠ [] := by
      rwa [PostedIndex.reader, Ne, List.map_eq_nil_iff]
    have hlen : (matchingEntries ix q opts.bm25).length = ix.totalMatches q :=
      length_matchingEntries
    rw [search, if_neg hreader, stage1Entries_reader, ← hlen]
    cases ranked ix.reader q opts <;> rfl

/-- A search returns when there is a pool. -/
theorem exists_search_iff : (∃ result, search ix.reader q opts = some result) ↔
    0 < opts.topN ∨ ix.totalMatches q = 0 := by
  rw [← isSome_pool_iff, search_eq, ranked_eq, ← Option.isSome_iff_exists, Option.isSome_map,
    Option.isSome_map]

/-- What a search returns is no more than was asked for, and it counts what matches. -/
theorem size_of_search {result : SearchResult R} (h : search ix.reader q opts = some result) :
    result.hits.length ≤ opts.size ∧ result.totalHits = ix.totalMatches q := by
  rw [search_eq, ranked_eq, Option.map_map] at h
  obtain ⟨candidates, -, rfl⟩ := Option.map_eq_some_iff.1 h
  refine ⟨?_, rfl⟩
  show (List.map _ _).length ≤ _
  rw [List.length_map]
  exact List.length_take_le _ _

/-- **The candidate heap is not inspected empty**, and the search returns, exactly if the heap has
room for a candidate or nothing matches. -/
theorem search_returns_iff :
    (∃ result, search ix.reader q opts = some result ∧ result.hits.length ≤ opts.size ∧
        result.totalHits = ix.totalMatches q) ↔
      0 < opts.topN ∨ ix.totalMatches q = 0 := by
  rw [← exists_search_iff]
  exact exists_congr fun result ↦ and_iff_left_of_imp size_of_search

end Heap

/-- Sorting by merging. -/
@[reducible] def mergeSortByScore : SortByScore where
  sort score l := l.mergeSort fun a b ↦ score b ≤ score a
  perm score l := List.mergeSort_perm l _
  sorted score l := by
    refine (List.pairwise_mergeSort (fun a b c hab hbc ↦ ?_) (fun a b ↦ ?_) l).imp of_decide_eq_true
    · exact decide_eq_true ((of_decide_eq_true hbc).trans (of_decide_eq_true hab))
    · simpa using le_total (score b) (score a)

/-- An index of two documents. -/
def twoDocsIndex : PostedIndex := { schema := sampleSchema, segments := [twoDocsSegment] }

/-- A search for no hits looks at the top of the empty heap. -/
theorem not_search_returns :
    ¬∃ result, @search ℝ _ mergeSortByKey twoDocsIndex.reader .matchAll .integral mergeSortByScore
        { size := 0 } = some result ∧ result.hits.length ≤ 0 ∧
      result.totalHits = twoDocsIndex.totalMatches .matchAll := by
  let _ := mergeSortByKey
  let _ := mergeSortByScore
  let _ := LibcDecimal.integral
  have hpool : pool twoDocsIndex.reader .matchAll ({ size := 0 } : SearchOptions ℝ) = none := rfl
  rintro ⟨result, h, -⟩
  rw [search_eq, ranked_eq, hpool] at h
  cases h

end Spp.Query
