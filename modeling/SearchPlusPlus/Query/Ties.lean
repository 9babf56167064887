import SearchPlusPlus.Query.LeafIdf

/-!
# Ties

A search without a ranker returns documents by their score, and among equal scores it should be by
their place in the index. The heap drops the first of equal scores when a better document comes
(`TopK.Overtaken`), and when the pool is larger than the result, `std::sort` may order equal
scores as it likes (`TopK.Straddles`).
-/

namespace Spp.Query

open Index TopK Arith

variable {R : Type} [Arith R]

/-- One of the first `n` of the documents that match, by score and then by place. -/
def Ranks (ix : PostedIndex) (q : QueryAst) (params : Bm25Params R) (n : ℕ) (e : ScoredEntry R) :
    Prop :=
  IsFirst ScoredEntry.score ScoredEntry.index n (matchingEntries ix q params) e

/-- The order of the heap is that of `scoredEntryCmp`. -/
theorem scoredEntryCmp_iff {a b : ScoredEntry R} : scoredEntryCmp a b = true ↔
    popKey ScoredEntry.score ScoredEntry.index b <
      popKey ScoredEntry.score ScoredEntry.index a := by
  rw [scoredEntryCmp, popKey, popKey, Prod.Lex.toLex_lt_toLex, ScoredEntry.index,
    ScoredEntry.index, Prod.Lex.toLex_lt_toLex]
  split_ifs with hscore hseg
  · simp [Ne.symm hscore]
  · rw [not_not] at hscore
    simp [hscore, Ne.symm hseg]
  · rw [not_not] at hscore hseg
    simp [hscore, hseg]

section Returned

variable {ix : PostedIndex} {q : QueryAst} {opts : SearchOptions R}

theorem size_le_topN : opts.size ≤ opts.topN := by
  rw [SearchOptions.topN]
  split_ifs
  · exact le_max_right _ _
  · exact le_rfl

/-- The reverse of an ascending list sorts it by descending scores. -/
@[reducible] def reverseSort : SortByScore where
  sort score l := l.reverse.mergeSort fun a b ↦ score b ≤ score a
  perm _ l := (List.mergeSort_perm _ _).trans l.reverse_perm
  sorted _ l := mergeSortByScore.sorted _ l.reverse

theorem reverseSort_of_split {as candidates left : List (ScoredEntry R)} {n : ℕ}
    (h : Split ScoredEntry.score ScoredEntry.index n as candidates left) :
    reverseSort.sort ScoredEntry.score candidates = candidates.reverse := by
  refine List.mergeSort_of_pairwise (List.pairwise_reverse.2 (h.sorted.imp fun hle ↦ ?_))
  exact decide_eq_true (score_le_of_popKey_le hle)

variable [SortByKey]

theorem exists_pool (hsize : 0 < opts.size) :
    ∃ candidates, pool ix.reader q opts = some candidates :=
  Option.isSome_iff_exists.1 (isSome_pool_iff.2 (Or.inl (hsize.trans_le size_le_topN)))

/-- Without a ranker, what is returned are the best of the pool. -/
theorem ranked_of_no_ranker [SortByScore] {candidates : List (ScoredEntry R)}
    (hpool : pool ix.reader q opts = some candidates) (hranker : opts.ranker = none) :
    ranked ix.reader q opts =
      some ((SortByScore.sort ScoredEntry.score candidates).take opts.size) := by
  have hrescore : candidates.map (rescore ix.reader q opts) = candidates := by
    refine (List.map_congr_left fun c _ ↦ ?_).trans (List.map_id candidates)
    rw [rescore, hranker]
    rfl
  rw [ranked_eq, hpool, Option.map_some, hrescore]

/-- **Ties of a pool of the size of the result.** -/
theorem ties_of_topN_eq (htop : opts.topN = opts.size)
    {candidates : List (ScoredEntry R)} (hpool : pool ix.reader q opts = some candidates)
    [SortByScore] :
    (∀ e, e ∈ (SortByScore.sort ScoredEntry.score candidates).take opts.size ↔
        Ranks ix q opts.bm25 opts.size e) ↔
      ¬Overtaken ScoredEntry.score opts.size (matchingEntries ix q opts.bm25) := by
  have hrun := hpool
  rw [pool_reader, htop] at hrun
  obtain ⟨left, hsplit⟩ := split_pool hpool
  have hperm := SortByScore.perm ScoredEntry.score candidates
  have htake : (SortByScore.sort ScoredEntry.score candidates).take opts.size =
      SortByScore.sort ScoredEntry.score candidates :=
    List.take_of_length_le (hperm.length_eq.trans_le (htop ▸ hsplit.length_le))
  rw [htake, ← mem_iff_isFirst pairwise_matchingEntries hrun]
  exact forall_congr' fun e ↦ by rw [hperm.mem_iff]; rfl

/-- **Ties of a larger pool**, whatever the sort does. -/
theorem ties_of_lt_topN (htop : opts.size < opts.topN)
    {candidates : List (ScoredEntry R)} (hpool : pool ix.reader q opts = some candidates) :
    (∀ sort : SortByScore, ∀ e, e ∈ (sort.sort ScoredEntry.score candidates).take opts.size ↔
        Ranks ix q opts.bm25 opts.size e) ↔
      ¬Straddles ScoredEntry.score opts.size (matchingEntries ix q opts.bm25) := by
  obtain ⟨left, hsplit⟩ := split_pool hpool
  constructor
  · intro h hstraddles
    obtain ⟨t, hfirst, ht⟩ := exists_isFirst_notMem_reverse hsplit pairwise_matchingEntries htop
      hstraddles
    rw [← reverseSort_of_split hsplit] at ht
    exact ht ((h reverseSort t).2 hfirst)
  · intro hno sort e
    exact mem_take_iff_isFirst hsplit (sort.perm _ _) pairwise_matchingEntries (sort.sorted _ _)
      htop.le hno

/-- **Ranking ties**: without a ranker, the first documents that match are returned, by score and
then by place, exactly if none of them is overtaken; and where the pool is larger than the result,
if the last score is not also that of a document that is left out. -/
theorem returned_iff (hsize : 0 < opts.size) (hranker : opts.ranker = none) :
    (∀ _ : SortByScore, ∃ order, ranked ix.reader q opts = some order ∧
        ∀ e, e ∈ order ↔ Ranks ix q opts.bm25 opts.size e) ↔
      if opts.topN = opts.size
      then ¬Overtaken ScoredEntry.score opts.size (matchingEntries ix q opts.bm25)
      else ¬Straddles ScoredEntry.score opts.size (matchingEntries ix q opts.bm25) := by
  obtain ⟨candidates, hpool⟩ : ∃ candidates, pool ix.reader q opts = some candidates :=
    exists_pool hsize
  have hreturned : (∀ _ : SortByScore, ∃ order, ranked ix.reader q opts = some order ∧
      ∀ e, e ∈ order ↔ Ranks ix q opts.bm25 opts.size e) ↔
        ∀ sort : SortByScore, ∀ e, e ∈ (sort.sort ScoredEntry.score candidates).take opts.size ↔
          Ranks ix q opts.bm25 opts.size e := by
    refine forall_congr' fun _ ↦ ?_
    rw [ranked_of_no_ranker hpool hranker]
    simp only [Option.some.injEq, exists_eq_left']
  rw [hreturned]
  split_ifs with htop
  · have hties : ∀ sort : SortByScore, (∀ e, e ∈ (sort.sort ScoredEntry.score candidates).take
        opts.size ↔ Ranks ix q opts.bm25 opts.size e) ↔
          ¬Overtaken ScoredEntry.score opts.size (matchingEntries ix q opts.bm25) := fun _ ↦
      ties_of_topN_eq htop hpool
    exact ⟨fun h ↦ (hties mergeSortByScore).1 (h mergeSortByScore), fun h sort ↦ (hties sort).2 h⟩
  · exact ties_of_lt_topN (lt_of_le_of_ne size_le_topN (Ne.symm htop)) hpool

end Returned

/-! ### Where it fails -/

section Single

variable (r : IndexReader) {seg : SegmentReader} {d : ℕ} {l : LeafTerm} (params : Bm25Params R)

theorem stage1Score_of_none (h : stage1Freq seg d l = none) :
    stage1Score r [l] params seg d = ofRat 0 := by
  rw [stage1Score, List.foldl_cons, addLeafScore, h]
  rfl

theorem stage1Score_of_some {tf : UInt32} (h : stage1Freq seg d l = some tf) :
    stage1Score r [l] params seg d = ofRat 0 +
      bm25Score (leafIdf bm25Idf r [l] l) tf (avgDlByField r l.fieldName)
        (avgDlByField r l.fieldName) params := by
  rw [stage1Score, List.foldl_cons, addLeafScore, h]
  rfl

end Single

/-- Three documents in memory, without a term in common. -/
def threeDocs : MutableSegment :=
  @MutableSegment.build .integral sampleSchema [
    { id := str "a", fields := SortedMap.empty.insert (str "t") (str "x") },
    { id := str "b", fields := SortedMap.empty.insert (str "t") (str "y") },
    { id := str "c", fields := SortedMap.empty.insert (str "t") (str "z") }]

theorem wellFormed_threeDocs : threeDocs.WellFormed :=
  @MutableSegment.build_wellFormed .integral sampleSchema _ (by decide)

theorem encodable_threeDocs : threeDocs.Encodable where
  names := by decide
  terms := by decide +kernel
  blobs := by decide +kernel
  tim := by decide +kernel
  doc := by decide +kernel
  fdt := by decide +kernel
  termCounts := by decide +kernel

/-- Their segment. -/
def threeDocsSegment : PostedSegment :=
  have hagrees : Agrees (threeDocs.sealedReader (str "seg") threeDocs.qualities) threeDocs :=
    agrees_sealedReader wellFormed_threeDocs encodable_threeDocs fun _ ↦ rfl
  .ofSealed hagrees wellFormed_threeDocs

/-- Their index. -/
def threeDocsIndex : PostedIndex := { schema := sampleSchema, segments := [threeDocsSegment] }

/-- A query for all of them that prefers the last. -/
def lastFirst : QueryAst := .disjunction [.matchAll, .term (str "t") (str "z")]

/-- The leaf of that query. -/
def lastLeaf : LeafTerm := { fieldName := str "t", text := str "z" }

theorem matchingDocs_threeDocs :
    matchingDocs threeDocsSegment sampleSchema lastFirst = [0, 1, 2] := by
  have hall : ∀ d, d ∈ matching threeDocsSegment sampleSchema lastFirst ↔ d ∈ [0, 1, 2] := by
    intro d
    constructor
    · intro hd
      have hlt : d < 3 := lt_docCount_of_matching threeDocsSegment sampleSchema lastFirst d hd
      interval_cases d <;> decide
    · intro hd
      refine ⟨matching threeDocsSegment sampleSchema .matchAll, List.mem_cons_self, ?_⟩
      show d < 3
      revert d
      decide
  refine pairwise_matchingDocs.eq_of_mem_iff (by decide) fun d ↦ ?_
  rw [mem_matchingDocs, hall]

/-- The scores of the first two are equal, and that of the last is higher. -/
theorem matchingEntries_threeDocs : ∃ s : ℝ, 0 < s ∧
    matchingEntries threeDocsIndex lastFirst ({} : Bm25Params ℝ) =
      [{ score := 0, segmentIndex := 0, docId := 0 }, { score := 0, segmentIndex := 0, docId := 1 },
        { score := s, segmentIndex := 0, docId := 2 }] := by
  have hleaves : collectLeaves threeDocsIndex.schema lastFirst = [lastLeaf] := by decide
  have hnone : ∀ d ∈ [0, 1], stage1Freq threeDocsSegment.reader d lastLeaf = none := by
    decide +kernel
  have hsome : stage1Freq threeDocsSegment.reader 2 lastLeaf = some 1 := by decide +kernel
  have hidf : (0 : ℝ) < leafIdf bm25Idf threeDocsIndex.reader [lastLeaf] lastLeaf := by
    obtain ⟨l', hl', -, hown⟩ := exists_leafIdf (R := ℝ) bm25Idf threeDocsIndex.reader
      (List.mem_singleton_self lastLeaf)
    obtain rfl := List.mem_singleton.1 hl'
    rw [hown]
    exact bm25Idf_pos (by decide +kernel) (by decide +kernel)
  have hk1 : (0 : ℝ) ≤ ((12 / 10 : ℚ) : ℝ) := by norm_num
  have hpos : 0 < bm25Score (leafIdf bm25Idf threeDocsIndex.reader [lastLeaf] lastLeaf) 1
      (avgDlByField threeDocsIndex.reader (str "t")) (avgDlByField threeDocsIndex.reader (str "t"))
      ({} : Bm25Params ℝ) := bm25Score_self_pos hidf (by decide) hk1
  refine ⟨_, hpos, ?_⟩
  show [matchingEntriesIn threeDocsIndex lastFirst _ threeDocsSegment 0].flatten = _
  rw [matchingEntriesIn, hleaves,
    show matchingDocs threeDocsSegment threeDocsIndex.schema lastFirst = [0, 1, 2]
      from matchingDocs_threeDocs]
  have hzero : (ofRat 0 : ℝ) = 0 := Rat.cast_zero
  have hscore₀ := stage1Score_of_none threeDocsIndex.reader ({} : Bm25Params ℝ)
    (hnone 0 (by decide))
  have hscore₁ := stage1Score_of_none threeDocsIndex.reader ({} : Bm25Params ℝ)
    (hnone 1 (by decide))
  have hscore₂ := stage1Score_of_some threeDocsIndex.reader ({} : Bm25Params ℝ) hsome
  rw [List.map_cons, List.map_cons, List.map_singleton, hscore₀, hscore₁, hscore₂, hzero]
  rw [show ((0 : ℝ) + _) = _ from zero_add _]
  rfl

theorem returned_sample :
    (∀ _ : SortByScore, ∃ order,
        @ranked ℝ _ mergeSortByKey threeDocsIndex.reader lastFirst _ { size := 3 } = some order ∧
          ∀ e, e ∈ order ↔ Ranks threeDocsIndex lastFirst ({} : Bm25Params ℝ) 3 e) ↔
      if ({ size := 3 } : SearchOptions ℝ).topN = 3
      then ¬Overtaken ScoredEntry.score 3
        (matchingEntries threeDocsIndex lastFirst ({} : Bm25Params ℝ))
      else ¬Straddles ScoredEntry.score 3
        (matchingEntries threeDocsIndex lastFirst ({} : Bm25Params ℝ)) :=
  @returned_iff ℝ _ threeDocsIndex lastFirst { size := 3 } mergeSortByKey (by decide) rfl

/-- For two hits the first document makes way for the last, though the second scores no more. -/
theorem not_returned : ¬∀ sort : SortByScore, ∃ order,
    @ranked ℝ _ mergeSortByKey threeDocsIndex.reader lastFirst sort { size := 2 } = some order ∧
      ∀ e, e ∈ order ↔ Ranks threeDocsIndex lastFirst ({} : Bm25Params ℝ) 2 e := by
  intro h
  let _ := mergeSortByKey
  let opts : SearchOptions ℝ := { size := 2 }
  obtain ⟨candidates, hpool⟩ : ∃ candidates,
      pool threeDocsIndex.reader lastFirst opts = some candidates := exists_pool (by decide)
  obtain ⟨order, horder, hiff⟩ := h mergeSortByScore
  have hranked := @ranked_of_no_ranker ℝ _ _ _ opts _ mergeSortByScore candidates hpool rfl
  obtain rfl := Option.some.inj (horder.symm.trans hranked)
  have hno := (@ties_of_topN_eq ℝ _ _ _ opts _ rfl candidates hpool mergeSortByScore).1 hiff
  obtain ⟨s, hs, hentries⟩ := matchingEntries_threeDocs
  refine hno ?_
  show Overtaken ScoredEntry.score 2 (matchingEntries threeDocsIndex lastFirst ({} : Bm25Params ℝ))
  rw [hentries]
  refine ⟨{ score := 0, segmentIndex := 0, docId := 0 },
    ⟨[_, _], _, [], rfl, List.mem_cons_self, hs, ?_⟩, ?_⟩
  · simp
  · simp [hs]

end Spp.Query
