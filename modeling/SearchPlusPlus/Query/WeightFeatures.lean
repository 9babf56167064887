import SearchPlusPlus.Query.Boost
import SearchPlusPlus.Query.Results

/-!
# Token weights as features

`ExtractFeatures` counts the token weight of every leaf that a document has, and the weight of a
leaf is 1 where its field stores none. So in exact arithmetic the features are the sum and the
greatest of the stored weights exactly if no leaf that the document has is in such a field
(`countsStored_iff`).
-/

namespace Spp.Query

open Index

/-! ### What the features count -/

section Sums

theorem tokenWeightSum_addLeaf (params : Bm25Params ℝ) (s : FeatureSums ℝ)
    (item : LeafContextItem ℝ) : (s.addLeaf item params).tokenWeightSum =
      s.tokenWeightSum + if item.matched then (item.tokenWeight.value.toRat : ℝ) else 0 := by
  rw [FeatureSums.addLeaf]
  split_ifs with hmatched
  · rw [FeatureSums.addWeight, FeatureSums.addPosition]
    split_ifs <;> rfl
  · exact (add_zero _).symm

/-- The weights of the leaves that are matched. -/
def matchedWeights (items : List (LeafContextItem ℝ)) : List F32 :=
  (items.filter (·.matched)).map (·.tokenWeight)

/-- The sum of some weights. -/
noncomputable def weightSum (ws : List F32) : ℝ := (ws.map fun w ↦ (w.value.toRat : ℝ)).sum

theorem tokenWeightSum_foldl (params : Bm25Params ℝ) (items : List (LeafContextItem ℝ)) :
    ∀ s : FeatureSums ℝ, (items.foldl (fun s l ↦ s.addLeaf l params) s).tokenWeightSum =
      s.tokenWeightSum + weightSum (matchedWeights items) := by
  induction items with
  | nil => exact fun s ↦ (add_zero _).symm
  | cons item items ih =>
    intro s
    rw [List.foldl_cons, ih, tokenWeightSum_addLeaf, matchedWeights, matchedWeights]
    by_cases hmatched : item.matched = true
    · rw [if_pos hmatched, List.filter_cons_of_pos hmatched, add_assoc]
      rfl
    · rw [if_neg hmatched, List.filter_cons_of_neg hmatched, add_zero]

theorem anyWeight_addLeaf (params : Bm25Params ℝ) (s : FeatureSums ℝ) (item : LeafContextItem ℝ) :
    (s.addLeaf item params).anyWeight = (s.anyWeight || item.matched) := by
  rw [FeatureSums.addLeaf]
  split_ifs with hmatched
  · rw [hmatched, Bool.or_true]
    rfl
  · rw [Bool.eq_false_iff.2 hmatched, Bool.or_false]

theorem anyWeight_foldl (params : Bm25Params ℝ) (items : List (LeafContextItem ℝ)) :
    ∀ s : FeatureSums ℝ, (items.foldl (fun s l ↦ s.addLeaf l params) s).anyWeight =
      (s.anyWeight || items.any (·.matched)) := by
  induction items with
  | nil => exact fun s ↦ (Bool.or_false _).symm
  | cons item items ih =>
    intro s
    rw [List.foldl_cons, ih, anyWeight_addLeaf, List.any_cons, Bool.or_assoc]

theorem tokenWeightMax_addPosition (s : FeatureSums ℝ) (item : LeafContextItem ℝ) :
    (s.addPosition item).tokenWeightMax = s.tokenWeightMax := by
  rw [FeatureSums.addPosition]
  split_ifs <;> rfl

theorem tokenWeightMax_addLeaf (params : Bm25Params ℝ) (s : FeatureSums ℝ)
    (item : LeafContextItem ℝ) : (s.addLeaf item params).tokenWeightMax =
      if item.matched ∧ s.tokenWeightMax.lt item.tokenWeight then item.tokenWeight
      else s.tokenWeightMax := by
  rw [FeatureSums.addLeaf]
  by_cases hmatched : item.matched = true
  · rw [if_pos hmatched, FeatureSums.addWeight]
    simp only [hmatched, true_and, tokenWeightMax_addPosition]
    rfl
  · rw [if_neg hmatched, if_neg fun h ↦ hmatched h.1]

/-- The greatest weight of the leaves so far, and of the leaves to come. -/
theorem tokenWeightMax_foldl (params : Bm25Params ℝ) (items : List (LeafContextItem ℝ)) :
    ∀ (s : FeatureSums ℝ) (ws : List F32), s.tokenWeightMax.GreatestOf ws →
      (items.foldl (fun s l ↦ s.addLeaf l params) s).tokenWeightMax.GreatestOf
        (ws ++ matchedWeights items) := by
  induction items with
  | nil =>
    intro s ws h
    rwa [matchedWeights, List.filter_nil, List.map_nil, List.append_nil]
  | cons item items ih =>
    intro s ws h
    have hmax := tokenWeightMax_addLeaf params s item
    rw [List.foldl_cons, matchedWeights]
    by_cases hmatched : item.matched = true
    · rw [List.filter_cons_of_pos hmatched, List.map_cons, List.append_cons]
      refine ih _ _ ?_
      simp only [hmatched, true_and] at hmax
      rw [hmax]
      split_ifs with hlt
      · exact h.raise hlt
      · exact h.keep (Bool.eq_false_iff.2 hlt)
    · rw [List.filter_cons_of_neg hmatched]
      refine ih _ _ ?_
      rwa [hmax, if_neg fun h ↦ hmatched h.1]

end Sums

/-! ### Stored weights -/

section Stored

variable (seg : PostedSegment) (docId : ℕ)

/-- The weight that is read for a posting. -/
def weightOf (p : Posting) : F32 := dequantizeTokenWeight (quantizeTokenWeight p.maxTokenWeight)

/-- The weight that is stored for a leaf in a document, if the document has the leaf and its field
stores weights. -/
def storedWeight (l : LeafTerm) : Option F32 :=
  if storesWeights seg.reader l then (postingOf seg l docId).map weightOf else none

/-- The features are the sum and the greatest of the stored weights. -/
structure CountsStored (leaves : List LeafTerm) (fv : FeatureVector ℝ) : Prop where
  sum : fv .tokenWeightSum = weightSum (leaves.filterMap (storedWeight seg docId))
  max : ∃ w : F32, w.GreatestOf (leaves.filterMap (storedWeight seg docId)) ∧
    fv .tokenWeightMax = (w.value.toRat : ℝ)

/-- A leaf that the document has, in a field that stores no weights. -/
def unstored (l : LeafTerm) : Bool := (postingOf seg l docId).isSome && !storesWeights seg.reader l

/-- What is counted for a leaf. -/
def countedWeight (l : LeafTerm) : Option F32 :=
  (postingOf seg l docId).map fun p ↦ if storesWeights seg.reader l then weightOf p else F32.one

variable {seg docId}

theorem countedWeight_of_unstored {l : LeafTerm} (h : unstored seg docId l = true) :
    countedWeight seg docId l = some F32.one ∧ storedWeight seg docId l = none := by
  obtain ⟨hsome, hnot⟩ := Bool.and_eq_true_iff.1 h
  have hnot' : storesWeights seg.reader l = false := by simpa using hnot
  obtain ⟨p, hp⟩ := Option.isSome_iff_exists.1 hsome
  rw [countedWeight, storedWeight, hp, hnot']
  exact ⟨rfl, rfl⟩

theorem countedWeight_of_stored {l : LeafTerm} (h : unstored seg docId l = false) :
    countedWeight seg docId l = storedWeight seg docId l := by
  rw [countedWeight, storedWeight]
  cases hp : postingOf seg l docId with
  | none =>
    rw [Option.map_none, Option.map_none, ite_self]
  | some p =>
    have hstores : storesWeights seg.reader l = true := by simpa [unstored, hp] using h
    simp only [hstores]
    rfl

theorem value_one : ((F32.one.value.toRat : ℚ) : ℝ) = 1 := by
  have hvalue : F32.one.value = .finite false 8388608 (-23) := by decide
  rw [hvalue, FloatValue.toRat]
  norm_num

theorem weightSum_cons (w : F32) (ws : List F32) :
    weightSum (w :: ws) = (w.value.toRat : ℝ) + weightSum ws := by
  rw [weightSum, List.map_cons, List.sum_cons]
  rfl

/-- Every leaf in a field without weights is counted as 1. -/
theorem weightSum_countedWeight (leaves : List LeafTerm) :
    weightSum (leaves.filterMap (countedWeight seg docId)) =
      weightSum (leaves.filterMap (storedWeight seg docId)) +
        (leaves.countP (unstored seg docId) : ℝ) := by
  induction leaves with
  | nil => simp
  | cons l leaves ih =>
    cases h : unstored seg docId l with
    | true =>
      obtain ⟨hcounted, hstored⟩ := countedWeight_of_unstored h
      rw [List.filterMap_cons_some hcounted, List.filterMap_cons_none hstored, weightSum_cons, ih,
        value_one, List.countP_cons_of_pos h]
      push_cast
      ring
    | false =>
      have hsame := countedWeight_of_stored h
      rw [List.countP_cons_of_neg (by simp [h])]
      cases hstored : storedWeight seg docId l with
      | none =>
        rw [List.filterMap_cons_none (hsame.trans hstored), List.filterMap_cons_none hstored, ih]
      | some w =>
        rw [List.filterMap_cons_some (hsame.trans hstored), List.filterMap_cons_some hstored,
          weightSum_cons, weightSum_cons, ih, add_assoc]

end Stored

/-! ### The features of a candidate -/

section Candidate

variable {r : IndexReader} {seg : PostedSegment} {q : QueryAst} {params : Bm25Params ℝ}
  {e : ScoredEntry ℝ}

/-- What is matched are the leaves that the document has. -/
theorem matchedWeights_items {docId : ℕ} (hd : docId < kNoMoreDocs) (leaves ls : List LeafTerm) :
    matchedWeights (ls.map (leafContextItem r leaves (some seg.reader) docId)) =
      ls.filterMap (countedWeight seg docId) := by
  induction ls with
  | nil => rfl
  | cons l ls ih =>
    have hitem : ItemOf r leaves l
        (leafContextItem r leaves (some seg.reader) docId l : LeafContextItem ℝ) _ _ _ :=
      itemOf_leafContextItem r leaves l hd
    rw [matchedWeights] at ih ⊢
    rw [List.map_cons]
    cases hp : postingOf seg l docId with
    | none =>
      have hmatched := hitem.matched
      rw [hp] at hmatched
      have hcounted : countedWeight seg docId l = none := by rw [countedWeight, hp, Option.map_none]
      rw [List.filter_cons_of_neg (by rw [hmatched]; exact Bool.false_ne_true),
        List.filterMap_cons_none hcounted, ih]
    | some p =>
      have hmatched := hitem.matched
      rw [hp] at hmatched
      have hcounted : countedWeight seg docId l =
          some (if storesWeights seg.reader l then weightOf p else F32.one) := by
        rw [countedWeight, hp, Option.map_some]
      rw [List.filter_cons_of_pos hmatched, List.filterMap_cons_some hcounted, List.map_cons, ih,
        hitem.tokenWeight p hp]
      rfl

/-- **The features** are those of the counted weights. -/
theorem weights_candidateFeatures (hseg : r.segments[e.segmentIndex]? = some seg.reader)
    (hd : e.docId < kNoMoreDocs) :
    candidateFeatures r q params e .tokenWeightSum =
        weightSum ((collectLeaves r.schema q).filterMap (countedWeight seg e.docId)) ∧
      ∃ w : F32,
        w.GreatestOf ((collectLeaves r.schema q).filterMap (countedWeight seg e.docId)) ∧
          candidateFeatures r q params e .tokenWeightMax = (w.value.toRat : ℝ) := by
  have hzero : ((0 : ℚ) : ℝ) = 0 := Rat.cast_zero
  rw [candidateFeatures, hseg, extractFeatures,
    ← matchedWeights_items (r := r) hd (collectLeaves r.schema q) (collectLeaves r.schema q)]
  generalize (collectLeaves r.schema q).map (leafContextItem r (collectLeaves r.schema q)
    (some seg.reader) e.docId : LeafTerm → LeafContextItem ℝ) = items
  dsimp only
  by_cases hnil : items = []
  · rw [if_pos hnil, hnil]
    refine ⟨hzero, F32.zero, .nil, ?_⟩
    have hvalue : F32.zero.value = .finite false 0 (-149) := by decide
    rw [hvalue, FloatValue.toRat]
    exact hzero.trans (by norm_num)
  · rw [if_neg hnil]
    have hsum := tokenWeightSum_foldl params items {}
    have hany := anyWeight_foldl params items {}
    have hmax := tokenWeightMax_foldl params items {} [] .nil
    refine ⟨?_, _, hmax, rfl⟩
    show (if _ then _ else _) = _
    rw [hany]
    split_ifs with hsome
    · refine hsum.trans ?_
      exact (congrArg (· + _) hzero).trans (zero_add _)
    · have hnone : items.filter (·.matched) = [] := by
        refine List.filter_eq_nil_iff.2 fun item hitem hmatched ↦ hsome ?_
        rw [List.any_eq_true.2 ⟨item, hitem, hmatched⟩, Bool.or_true]
      rw [matchedWeights, hnone]
      exact hzero

/-- **The features of a candidate count stored weights** exactly if the document has no leaf in a
field without. -/
theorem countsStored_candidate_iff (hseg : r.segments[e.segmentIndex]? = some seg.reader)
    (hd : e.docId < kNoMoreDocs) :
    CountsStored seg e.docId (collectLeaves r.schema q) (candidateFeatures r q params e) ↔
      ∀ l ∈ collectLeaves r.schema q, (postingOf seg l e.docId).isSome →
        storesWeights seg.reader l = true := by
  have hfeatures : candidateFeatures r q params e .tokenWeightSum = _ ∧ _ :=
    weights_candidateFeatures hseg hd
  obtain ⟨hsum, w, hmax, hw⟩ := hfeatures
  have hcount : (collectLeaves r.schema q).countP (unstored seg e.docId) = 0 ↔
      ∀ l ∈ collectLeaves r.schema q, (postingOf seg l e.docId).isSome →
        storesWeights seg.reader l = true := by
    rw [List.countP_eq_zero]
    exact forall₂_congr fun l _ ↦ by simp [unstored]
  rw [weightSum_countedWeight] at hsum
  rw [← hcount]
  constructor
  · intro h
    have hsame := hsum.symm.trans h.sum
    exact_mod_cast add_eq_left.1 hsame
  · intro h
    have hstored : (collectLeaves r.schema q).filterMap (countedWeight seg e.docId) =
        (collectLeaves r.schema q).filterMap (storedWeight seg e.docId) :=
      List.filterMap_congr fun l hl ↦
        countedWeight_of_stored (Bool.eq_false_iff.2 (List.countP_eq_zero.1 h l hl))
    refine ⟨?_, w, hstored ▸ hmax, hw⟩
    rw [hsum, h, Nat.cast_zero, add_zero]

end Candidate

/-! ### The features of a hit -/

section Hits

variable [SortByKey] [SortByScore] {ix : PostedIndex} {q : QueryAst} {opts : SearchOptions ℝ}

/-- What is returned is at the place of a matching document. -/
theorem place_of_ranked {order : List (ScoredEntry ℝ)} (h : ranked ix.reader q opts = some order)
    {e : ScoredEntry ℝ} (he : e ∈ order) : ∃ seg, ix.segments[e.segmentIndex]? = some seg ∧
      ix.reader.segments[e.segmentIndex]? = some seg.reader ∧
        e.docId ∈ matching seg ix.schema q := by
  rw [ranked_eq] at h
  obtain ⟨candidates, hpool, rfl⟩ := Option.map_eq_some_iff.1 h
  obtain ⟨left, hsplit⟩ := split_pool hpool
  have hsort := SortByScore.perm ScoredEntry.score (candidates.map (rescore ix.reader q opts))
  obtain ⟨c, hc, rfl⟩ := List.mem_map.1 (hsort.subset (List.mem_of_mem_take he))
  obtain ⟨seg, hseg, hmatch, -⟩ := mem_matchingEntries.1 (hsplit.mem_iff.2 (.inl hc))
  rw [rescore_segmentIndex, rescore_docId]
  refine ⟨seg, hseg, ?_, hmatch⟩
  rw [PostedIndex.reader, List.getElem?_map, hseg, Option.map_some]

/-- A search for a document that matches returns something. -/
theorem exists_first (hsize : 0 < opts.size) {e : ScoredEntry ℝ}
    (h : e ∈ matchingEntries ix q opts.bm25) :
    ∃ order first, ranked ix.reader q opts = some order ∧ order[0]? = some first := by
  have hfilled : ∃ candidates, pool ix.reader q opts = some candidates := exists_pool hsize
  obtain ⟨candidates, hpool⟩ := hfilled
  obtain ⟨left, hsplit⟩ := split_pool hpool
  have hsort := SortByScore.perm ScoredEntry.score (candidates.map (rescore ix.reader q opts))
  have hpos := List.length_pos_of_mem h
  have htop : 0 < opts.topN := hsize.trans_le size_le_topN
  have hlength := hsplit.length
  refine ⟨_, _, by rw [ranked_eq, hpool, Option.map_some], List.getElem?_eq_getElem ?_⟩
  rw [List.length_take, hsort.length_eq, List.length_map, hlength]
  omega

variable [LibcDecimal]

/-- A hit and its features. -/
theorem hit_of_search {result : SearchResult ℝ} {order : List (ScoredEntry ℝ)} {i : ℕ}
    {e : ScoredEntry ℝ} (hcollect : opts.collectFeatures = true)
    (hsearch : search ix.reader q opts = some result)
    (hranked : ranked ix.reader q opts = some order) (he : order[i]? = some e) :
    result.hits[i]? = some (hit ix.reader e) ∧
      result.features[i]? = some (candidateFeatures ix.reader q opts.bm25 e) := by
  rw [search_eq, hranked, Option.map_some, if_pos hcollect] at hsearch
  obtain rfl := Option.some.inj hsearch
  constructor
  · rw [List.getElem?_map, he, Option.map_some]
  · rw [List.getElem?_map, he, Option.map_some]

/-- **Token weights of a hit**: its features count the stored weights only, exactly if every leaf
that its document has is in a field that stores weights. -/
theorem countsStored_iff {result : SearchResult ℝ} {order : List (ScoredEntry ℝ)} {i : ℕ}
    {e : ScoredEntry ℝ} (hcollect : opts.collectFeatures = true)
    (hsearch : search ix.reader q opts = some result)
    (hranked : ranked ix.reader q opts = some order) (he : order[i]? = some e) :
    ∃ seg fv, ix.segments[e.segmentIndex]? = some seg ∧
      result.hits[i]? = some (hit ix.reader e) ∧ result.features[i]? = some fv ∧
      (CountsStored seg e.docId (collectLeaves ix.schema q) fv ↔
        ∀ l ∈ collectLeaves ix.schema q, (postingOf seg l e.docId).isSome →
          storesWeights seg.reader l = true) := by
  obtain ⟨hhit, hfeatures⟩ := hit_of_search hcollect hsearch hranked he
  obtain ⟨seg, hseg, hread, hmatch⟩ := place_of_ranked hranked (List.mem_of_getElem? he)
  have hd : e.docId < kNoMoreDocs :=
    (lt_docCount_of_matching seg ix.schema q _ hmatch).trans_le seg.docCount_le
  exact ⟨seg, candidateFeatures ix.reader q opts.bm25 e, hseg, hhit, hfeatures,
    countsStored_candidate_iff hread hd⟩

end Hits

/-! ### A field without weights -/

/-- The leaf of a word in the field of the sample index, which stores no weights. -/
def plainLeaf : LeafTerm := { fieldName := str "t", text := str "x" }

theorem isLeaf_plainLeaf : IsLeaf boostedSchema plainLeaf := by
  show collectLeaves boostedSchema _ = _
  decide

/-- A search for the features of the word. -/
theorem exists_plain_hit : ∃ result order e,
    @search ℝ _ mergeSortByKey boostedIndex.reader (.term (str "t") (str "x")) .integral
      mergeSortByScore { collectFeatures := true } = some result ∧
    @ranked ℝ _ mergeSortByKey boostedIndex.reader (.term (str "t") (str "x")) mergeSortByScore
      { collectFeatures := true } = some order ∧ order[0]? = some e := by
  let _ := mergeSortByKey
  let _ := mergeSortByScore
  let _ := LibcDecimal.integral
  let e : ScoredEntry ℝ :=
    { score := stage1Score boostedIndex.reader (collectLeaves boostedIndex.schema
        (.term (str "t") (str "x"))) {} boostedSegment.reader 0
      segmentIndex := 0
      docId := 0 }
  have hsome : (postingOf boostedSegment plainLeaf 0).isSome = true := by decide +kernel
  obtain ⟨p, hp⟩ := Option.isSome_iff_exists.1 hsome
  have he : e ∈ matchingEntries boostedIndex (.term (str "t") (str "x")) {} :=
    mem_matchingEntries.2
      ⟨boostedSegment, rfl, matching_of_posting isLeaf_plainLeaf hp, rfl⟩
  have hfirst : ∃ order first, ranked boostedIndex.reader (.term (str "t") (str "x"))
      ({ collectFeatures := true } : SearchOptions ℝ) = some order ∧ order[0]? = some first :=
    exists_first (by decide) he
  obtain ⟨order, first, horder, hfirst⟩ := hfirst
  have hsearch : search boostedIndex.reader (.term (str "t") (str "x"))
      ({ collectFeatures := true } : SearchOptions ℝ) = _ := search_eq
  rw [horder, Option.map_some] at hsearch
  exact ⟨_, order, first, hsearch, horder, hfirst⟩

theorem countsStored_iff_sample : ∃ (result : SearchResult ℝ) (e : ScoredEntry ℝ),
    ∃ seg fv, boostedIndex.segments[e.segmentIndex]? = some seg ∧
      result.hits[0]? = some (@hit ℝ boostedIndex.reader .integral e) ∧
      result.features[0]? = some fv ∧
      (CountsStored seg e.docId
          (collectLeaves boostedIndex.schema (.term (str "t") (str "x"))) fv ↔
        ∀ l ∈ collectLeaves boostedIndex.schema (.term (str "t") (str "x")),
          (postingOf seg l e.docId).isSome → storesWeights seg.reader l = true) := by
  obtain ⟨result, order, e, hsearch, hranked, he⟩ := exists_plain_hit
  exact ⟨result, e, @countsStored_iff mergeSortByKey mergeSortByScore boostedIndex _
    { collectFeatures := true } .integral result order 0 e rfl hsearch hranked he⟩

/-- The word is counted as 1. -/
theorem not_countsStored : ¬∀ [SortByKey] [SortByScore] [LibcDecimal] (ix : PostedIndex)
    (q : QueryAst) (opts : SearchOptions ℝ) (result : SearchResult ℝ)
    (order : List (ScoredEntry ℝ)) (i : ℕ) (e : ScoredEntry ℝ), opts.collectFeatures = true →
    search ix.reader q opts = some result → ranked ix.reader q opts = some order →
    order[i]? = some e →
      ∃ seg fv, ix.segments[e.segmentIndex]? = some seg ∧ result.features[i]? = some fv ∧
        CountsStored seg e.docId (collectLeaves ix.schema q) fv := by
  intro h
  obtain ⟨result, order, e, hsearch, hranked, he⟩ := exists_plain_hit
  obtain ⟨seg, fv, hseg, hfv, hcounts⟩ := @h mergeSortByKey mergeSortByScore .integral
    boostedIndex _ _ result order 0 e rfl hsearch hranked he
  have hfeatures := (@hit_of_search mergeSortByKey mergeSortByScore boostedIndex _ _ .integral
    result order 0 e rfl hsearch hranked he).2
  obtain rfl := Option.some.inj (hfv.symm.trans hfeatures)
  obtain ⟨seg', hseg', hread, hmatch⟩ := @place_of_ranked mergeSortByKey mergeSortByScore
    boostedIndex _ _ order hranked e (List.mem_of_getElem? he)
  obtain rfl := Option.some.inj (hseg.symm.trans hseg')
  -- the index has one document
  obtain rfl := List.mem_singleton.1 (List.mem_of_getElem? hseg)
  have hcount : boostedSegment.reader.docCount = 1 := by decide +kernel
  have hlt := lt_docCount_of_matching boostedSegment boostedSchema _ _ hmatch
  have hdoc : e.docId = 0 := by omega
  have hsmall : e.docId < kNoMoreDocs := hlt.trans_le boostedSegment.docCount_le
  have hposting : (postingOf boostedSegment plainLeaf e.docId).isSome = true := by
    rw [hdoc]
    decide +kernel
  have hleaf : plainLeaf ∈ collectLeaves boostedSchema (.term (str "t") (str "x")) :=
    List.mem_of_getElem? (i := 0) (congrArg (·[0]?) isLeaf_plainLeaf)
  have hstores := (countsStored_candidate_iff hread hsmall).1 hcounts plainLeaf hleaf hposting
  exact absurd hstores (by decide +kernel)

end Spp.Query
