import SearchPlusPlus.Analyze.Words
import SearchPlusPlus.Query.LeafIdf
import SearchPlusPlus.Query.LeafPostings

/-!
# Boosts

Stage 2 multiplies the score of a leaf by the boost of its field and stage 1 does not. In exact
arithmetic both are sums over the leaves a document has (`stage1Score_eq_sum`,
`bm25Total_eq_sum`), so they agree in every query exactly if no term that scores is in a boosted
field.
-/

namespace Spp.Query

open Index Analyze

/-- No field stores positions or token weights. -/
def PostedIndex.Plain (ix : PostedIndex) : Prop :=
  ∀ seg ∈ ix.segments, ∀ fr ∈ seg.reader.fields,
    fr.stats.hasPositions = false ∧ fr.stats.hasTokenWeights = false

theorem PostedIndex.Plain.field {ix : PostedIndex} (h : ix.Plain) {seg : PostedSegment}
    (hseg : seg ∈ ix.segments) (name : Bytes) : PlainField seg.reader name := by
  rw [PlainField, SegmentReader.field]
  cases hfr : seg.reader.fields[seg.reader.getFieldId name]? with
  | none => exact ⟨rfl, rfl⟩
  | some fr => exact h seg hseg fr (List.mem_of_getElem? hfr)

/-! ### Sums over leaves -/

section Sums

variable (r : IndexReader) (leaves : List LeafTerm) (params : Bm25Params ℝ)

/-- What a leaf scores with its posting, without a boost. -/
noncomputable def leafScore (l : LeafTerm) (posting : Option Posting) : ℝ :=
  (posting.map fun p ↦ bm25Score (leafIdf bm25Idf r leaves l) p.tf (avgDlByField r l.fieldName)
    (avgDlByField r l.fieldName) params).getD 0

/-- The boost of a leaf. -/
noncomputable def leafBoost (seg : SegmentReader) (l : LeafTerm) : ℝ := (boostOf seg l).value.toRat

variable {r leaves params} {seg : PostedSegment} {docId : ℕ}

theorem foldl_addLeafScore (hd : docId < kNoMoreDocs) (ls : List LeafTerm) :
    (∀ l ∈ ls, PlainField seg.reader l.fieldName) → ∀ s : ℝ,
      ls.foldl (addLeafScore r leaves params seg.reader docId) s =
        s + (ls.map fun l ↦ leafScore r leaves params l (postingOf seg l docId)).sum := by
  induction ls with
  | nil => exact fun _ s ↦ (add_zero s).symm
  | cons l ls ih =>
    intro hls s
    rw [List.foldl_cons, ih fun x hx ↦ hls x (List.mem_cons_of_mem _ hx), addLeafScore,
      stage1Freq_eq (hls l List.mem_cons_self) hd, List.map_cons, List.sum_cons, leafScore,
      ← add_assoc]
    congr 1
    cases postingOf seg l docId with
    | none => exact (add_zero s).symm
    | some p => rfl

/-- **The score of stage 1** is the sum of the scores of the leaves. -/
theorem stage1Score_eq_sum (hplain : ∀ l ∈ leaves, PlainField seg.reader l.fieldName)
    (hd : docId < kNoMoreDocs) : stage1Score r leaves params seg.reader docId =
      (leaves.map fun l ↦ leafScore r leaves params l (postingOf seg l docId)).sum := by
  rw [stage1Score, foldl_addLeafScore hd leaves hplain]
  have hzero : ((0 : ℚ) : ℝ) = 0 := Rat.cast_zero
  exact (congrArg (· + _) hzero).trans (zero_add _)

theorem bm25Total_addLeaf (s : FeatureSums ℝ) (item : LeafContextItem ℝ) :
    (s.addLeaf item params).bm25Total =
      s.bm25Total + if item.matched then item.score params else 0 := by
  rw [FeatureSums.addLeaf]
  split_ifs with hmatched
  · rw [FeatureSums.addWeight, FeatureSums.addPosition]
    split_ifs <;> rfl
  · exact (add_zero _).symm

theorem bm25Total_foldl (items : List (LeafContextItem ℝ)) : ∀ s : FeatureSums ℝ,
    (items.foldl (fun s l ↦ s.addLeaf l params) s).bm25Total = s.bm25Total +
      (items.map fun item ↦ if item.matched then item.score params else 0).sum := by
  induction items with
  | nil => exact fun s ↦ (add_zero _).symm
  | cons item items ih =>
    intro s
    rw [List.foldl_cons, ih, bm25Total_addLeaf, List.map_cons, List.sum_cons, add_assoc]

/-- What an item adds to the total. -/
theorem itemScore_eq {l : LeafTerm} {item : LeafContextItem ℝ} {posting : Option Posting}
    {boost : F32} {hasTokenWeights : Bool}
    (h : ItemOf r leaves l item posting boost hasTokenWeights) :
    (if item.matched then item.score params else 0) =
      leafScore r leaves params l posting * (boost.value.toRat : ℝ) := by
  rw [leafScore, h.matched]
  cases hposting : posting with
  | none => simp
  | some p =>
    rw [LeafContextItem.score, h.idf, h.fieldLen, h.avgFieldLen, h.boost_eq, h.tf p hposting]
    rfl

/-- **The feature of stage 2** is the sum of the scores of the leaves by their boosts. -/
theorem bm25Total_eq_sum {q : QueryAst} {e : ScoredEntry ℝ}
    (hseg : r.segments[e.segmentIndex]? = some seg.reader) (hd : e.docId < kNoMoreDocs) :
    bm25Ranker (candidateFeatures r q params e) = ((collectLeaves r.schema q).map fun l ↦
      leafScore r (collectLeaves r.schema q) params l (postingOf seg l e.docId) *
        leafBoost seg.reader l).sum := by
  have hitem : ∀ l, (if (leafContextItem r (collectLeaves r.schema q) (some seg.reader) e.docId l :
      LeafContextItem ℝ).matched then (leafContextItem r (collectLeaves r.schema q)
        (some seg.reader) e.docId l : LeafContextItem ℝ).score params else 0) =
      leafScore r (collectLeaves r.schema q) params l (postingOf seg l e.docId) *
        leafBoost seg.reader l := fun l ↦
    itemScore_eq (itemOf_leafContextItem r _ l hd)
  rw [bm25Ranker, candidateFeatures, hseg, extractFeatures]
  by_cases hleaves : collectLeaves r.schema q = []
  · rw [if_pos (by rw [hleaves]; rfl), hleaves]
    exact Rat.cast_zero
  · rw [if_neg (by simpa using hleaves)]
    have hzero : ((0 : ℚ) : ℝ) = 0 := Rat.cast_zero
    refine (bm25Total_foldl _ _).trans ?_
    rw [List.map_map]
    refine (congrArg (· + _) hzero).trans ((zero_add _).trans ?_)
    exact congrArg List.sum (List.map_congr_left fun l _ ↦ hitem l)

end Sums

/-! ### Leaves that a query has -/

/-- A leaf of some query: its text is what becomes of it by analysis. -/
def IsLeaf (schema : Schema) (l : LeafTerm) : Prop :=
  collectLeaves schema (.term l.fieldName l.text) = [l]

section Leaves

variable {schema : Schema}

mutual

theorem isLeaf_of_mem : ∀ q : QueryAst, ∀ l ∈ collectLeaves schema q, IsLeaf schema l
  | .matchAll, _, hl => absurd hl List.not_mem_nil
  | .term field text, l, hl => by
    obtain ⟨t, ht, rfl⟩ := List.mem_map.1 hl
    have htexts := congrArg (List.map fun text ↦ ({ fieldName := field, text } : LeafTerm))
      (analyze_text ht)
    rw [List.map_map] at htexts
    exact htexts
  | .conjunction children, l, hl => isLeaf_of_mem_all children l hl
  | .disjunction children, l, hl => isLeaf_of_mem_all children l hl

theorem isLeaf_of_mem_all : ∀ qs : List QueryAst, ∀ l ∈ collectAllLeaves schema qs, IsLeaf schema l
  | [], _, hl => absurd hl List.not_mem_nil
  | q :: qs, l, hl => by
    rcases List.mem_append.1 hl with hl | hl
    · exact isLeaf_of_mem q l hl
    · exact isLeaf_of_mem_all qs l hl

end

variable {seg : PostedSegment} {l : LeafTerm} {docId : ℕ}

/-- A document with the posting of a leaf matches the query of the leaf. -/
theorem matching_of_posting (hleaf : IsLeaf schema l) {p : Posting}
    (hp : postingOf seg l docId = some p) :
    docId ∈ matching seg schema (.term l.fieldName l.text) := by
  obtain ⟨⟨fieldId, te⟩, hentry, hfind⟩ := Option.bind_eq_some_iff.1 hp
  obtain ⟨rfl, hfield, hterm⟩ := leafEntry_eq_some hentry
  have hmem := List.mem_of_find?_eq_some hfind
  have hdoc : p.docId = docId := by simpa using List.find?_some hfind
  have htexts : ((queryAnalyzer schema l.fieldName).analyze l.text).map
      (fun t ↦ ({ fieldName := l.fieldName, text := t.text } : LeafTerm)) = [l] := hleaf
  refine ⟨hfield, fun hnil ↦ ?_, fun t ht ↦ ?_⟩
  · rw [hnil] at htexts
    cases htexts
  · have ht' := List.mem_map_of_mem (f := fun t : Token ↦
      ({ fieldName := l.fieldName, text := t.text } : LeafTerm)) ht
    rw [htexts, List.mem_singleton] at ht'
    have htext : t.text = l.text := congrArg LeafTerm.text ht'
    rw [termDocs, htext]
    exact ⟨by rw [hterm]; rfl, p, hmem, hdoc⟩

theorem lt_of_posting {p : Posting} (hp : postingOf seg l docId = some p) :
    docId < kNoMoreDocs := by
  obtain ⟨⟨fieldId, te⟩, -, hfind⟩ := Option.bind_eq_some_iff.1 hp
  have hdoc : p.docId = docId := by simpa using List.find?_some hfind
  exact hdoc ▸ (seg.lt _ _ p (List.mem_of_find?_eq_some hfind)).trans_le seg.docCount_le

end Leaves

/-! ### The two stages -/

section Stages

variable (ix : PostedIndex) (params : Bm25Params ℝ)

/-- In every query the two stages score every matching document alike. -/
def SameScores : Prop :=
  ∀ q, ∀ e ∈ matchingEntries ix q params,
    e.score = bm25Ranker (candidateFeatures ix.reader q params e)

/-- A leaf that scores in a document of a segment, with the idf of any leaf of its key, is not
boosted there. -/
def BoostsAreOne : Prop :=
  ∀ seg ∈ ix.segments, ∀ l l', IsLeaf ix.schema l → IsLeaf ix.schema l' → keyOf l' = keyOf l →
    ∀ docId p, postingOf seg l docId = some p →
      bm25Score (ownIdf bm25Idf ix.reader l') p.tf (avgDlByField ix.reader l.fieldName)
        (avgDlByField ix.reader l.fieldName) params = 0 ∨ leafBoost seg.reader l = 1

variable {ix params}

/-- The scores of a matching document, as sums. -/
theorem scores_eq (hplain : ix.Plain) {q : QueryAst} {e : ScoredEntry ℝ}
    (he : e ∈ matchingEntries ix q params) : ∃ seg ∈ ix.segments,
      e.docId ∈ matching seg ix.schema q ∧
      e.score = ((collectLeaves ix.schema q).map fun l ↦
        leafScore ix.reader (collectLeaves ix.schema q) params l (postingOf seg l e.docId)).sum ∧
      bm25Ranker (candidateFeatures ix.reader q params e) = ((collectLeaves ix.schema q).map fun l ↦
        leafScore ix.reader (collectLeaves ix.schema q) params l (postingOf seg l e.docId) *
          leafBoost seg.reader l).sum := by
  obtain ⟨seg, hget, hmatch, hscore⟩ := mem_matchingEntries.1 he
  have hseg := List.mem_of_getElem? hget
  have hd : e.docId < kNoMoreDocs :=
    (lt_docCount_of_matching seg ix.schema q _ hmatch).trans_le seg.docCount_le
  refine ⟨seg, hseg, hmatch, ?_, bm25Total_eq_sum ?_ hd⟩
  · rw [hscore]
    exact stage1Score_eq_sum (fun l _ ↦ hplain.field hseg l.fieldName) hd
  · rw [PostedIndex.reader, List.getElem?_map, hget]
    rfl

/-- **Boost in both stages**: they score every document of every query alike exactly if no leaf
that scores is boosted. -/
theorem sameScores_iff (hplain : ix.Plain) : SameScores ix params ↔ BoostsAreOne ix params := by
  constructor
  · intro h seg hseg l l' hl hl' hkey docId p hp
    obtain ⟨si, hget⟩ := List.mem_iff_getElem?.1 hseg
    -- the leaf after the one whose idf it is given, in a query of the two
    have hquery : ∀ q, docId ∈ matching seg ix.schema q →
        ((collectLeaves ix.schema q).map fun x ↦ leafScore ix.reader (collectLeaves ix.schema q)
          params x (postingOf seg x docId)).sum =
        ((collectLeaves ix.schema q).map fun x ↦ leafScore ix.reader (collectLeaves ix.schema q)
          params x (postingOf seg x docId) * leafBoost seg.reader x).sum := by
      intro q hq
      have hmem : ({ score :=
                       stage1Score ix.reader (collectLeaves ix.schema q) params seg.reader docId
                     segmentIndex := si
                     docId } : ScoredEntry ℝ) ∈ matchingEntries ix q params :=
        mem_matchingEntries.2 ⟨seg, hget, hq, rfl⟩
      have hscore := h q _ hmem
      have hread : ix.reader.segments[si]? = some seg.reader := by
        rw [PostedIndex.reader, List.getElem?_map, hget]
        rfl
      rw [bm25Total_eq_sum hread (lt_of_posting hp)] at hscore
      exact (stage1Score_eq_sum (fun x _ ↦ hplain.field hseg x.fieldName)
        (lt_of_posting hp)).symm.trans hscore
    have hmatch : docId ∈ matching seg ix.schema (.disjunction
        [.term l'.fieldName l'.text, .term l.fieldName l.text]) :=
      ⟨_, List.mem_cons_of_mem _ List.mem_cons_self, matching_of_posting hl hp⟩
    have hleaves : collectLeaves ix.schema (.disjunction
        [.term l'.fieldName l'.text, .term l.fieldName l.text]) = [l', l] := by
      rw [collectLeaves, collectAllLeaves, collectAllLeaves, collectAllLeaves, hl, hl']
      rfl
    have hboth := hquery _ hmatch
    rw [hleaves] at hboth
    simp only [List.map_cons, List.map_nil, List.sum_cons, List.sum_nil, add_zero] at hboth
    have hfirst : leafScore ix.reader [l', l] params l' (postingOf seg l' docId) =
        leafScore ix.reader [l', l] params l' (postingOf seg l' docId) *
          leafBoost seg.reader l' := by
      cases hp' : postingOf seg l' docId with
      | none => simp [leafScore]
      | some p' =>
        have halone := hquery _ (matching_of_posting hl' hp')
        rw [show collectLeaves ix.schema (.term l'.fieldName l'.text) = [l'] from hl'] at halone
        simpa only [List.map_cons, List.map_nil, List.sum_cons, List.sum_nil, add_zero, hp',
          leafScore, leafIdf_cons] using halone
    have hscore : leafScore ix.reader [l', l] params l (postingOf seg l docId) =
        bm25Score (ownIdf bm25Idf ix.reader l') p.tf (avgDlByField ix.reader l.fieldName)
          (avgDlByField ix.reader l.fieldName) params := by
      rw [leafScore, hp, leafIdf_cons _ _ hkey]
      rfl
    rw [← hfirst, hscore] at hboth
    have hsame := add_left_cancel hboth
    exact (mul_right_eq_self₀.1 hsame.symm).symm
  · intro h q e he
    obtain ⟨seg, hseg, -, hstage1, hstage2⟩ := scores_eq hplain he
    rw [hstage1, hstage2]
    refine congrArg List.sum (List.map_congr_left fun l hl ↦ ?_)
    cases hp : postingOf seg l e.docId with
    | none => simp [leafScore]
    | some p =>
      obtain ⟨l', hl', hkey, hidf⟩ := exists_leafIdf (R := ℝ) bm25Idf ix.reader hl
      rcases h seg hseg l l' (isLeaf_of_mem q l hl) (isLeaf_of_mem q l' hl') hkey e.docId p hp with
        hzero | hone
      · have hscore : leafScore ix.reader (collectLeaves ix.schema q) params l (some p) = 0 := by
          rw [leafScore, hidf]
          exact hzero
        rw [hscore, zero_mul]
      · rw [hone, mul_one]

end Stages

/-! ### Where they differ -/

/-- A schema with a field of boost two. -/
def boostedSchema : Schema where
  fields := [
    { name := Schema.kIdField, type := .keyword, stored := true, analyzer := str "keyword" },
    { name := str "t", boost := ⟨0x40000000⟩ }]
  name_ne_nil := by decide
  nodup_names := by decide
  length_le := by decide

/-- A document with a token in that field. -/
def boostedDocs : MutableSegment :=
  @MutableSegment.build .integral boostedSchema
    [{ id := str "a", fields := SortedMap.empty.insert (str "t") (str "x") }]

theorem wellFormed_boostedDocs : boostedDocs.WellFormed :=
  @MutableSegment.build_wellFormed .integral boostedSchema _ (by decide)

theorem encodable_boostedDocs : boostedDocs.Encodable where
  names := by decide
  terms := by decide +kernel
  blobs := by decide +kernel
  tim := by decide +kernel
  doc := by decide +kernel
  fdt := by decide +kernel
  termCounts := by decide +kernel

/-- Its segment. -/
def boostedSegment : PostedSegment :=
  have hagrees : Agrees (boostedDocs.sealedReader (str "seg") boostedDocs.qualities) boostedDocs :=
    agrees_sealedReader wellFormed_boostedDocs encodable_boostedDocs fun _ ↦ rfl
  .ofSealed hagrees wellFormed_boostedDocs

/-- Its index. -/
def boostedIndex : PostedIndex := { schema := boostedSchema, segments := [boostedSegment] }

theorem plain_boostedIndex : boostedIndex.Plain := by
  intro seg hseg
  obtain rfl := List.mem_singleton.1 hseg
  decide +kernel

theorem sameScores_sample : SameScores boostedIndex {} ↔ BoostsAreOne boostedIndex {} :=
  sameScores_iff plain_boostedIndex

/-- Stage 2 counts the token twice. -/
theorem not_sameScores : ¬SameScores boostedIndex {} := by
  intro h
  let leaf : LeafTerm := { fieldName := str "t", text := str "x" }
  let e : ScoredEntry ℝ :=
    { score := stage1Score boostedIndex.reader (collectLeaves boostedIndex.schema
        (.term (str "t") (str "x"))) {} boostedSegment.reader 0
      segmentIndex := 0
      docId := 0 }
  have hleaf : IsLeaf boostedSchema leaf := by
    show collectLeaves boostedSchema _ = _
    decide
  have htf : (postingOf boostedSegment leaf 0).map (·.tf) = some 1 := by decide +kernel
  obtain ⟨p, hp, htf⟩ := Option.map_eq_some_iff.1 htf
  have he : e ∈ matchingEntries boostedIndex (.term (str "t") (str "x")) {} :=
    mem_matchingEntries.2 ⟨boostedSegment, rfl, matching_of_posting hleaf hp, rfl⟩
  obtain ⟨seg, hseg, -, hstage1, hstage2⟩ := scores_eq plain_boostedIndex he
  obtain rfl := List.mem_singleton.1 hseg
  have hleaves : collectLeaves boostedIndex.schema (.term (str "t") (str "x")) = [leaf] := hleaf
  have hboost : leafBoost boostedSegment.reader leaf = 2 := by
    have hbits : boostOf boostedSegment.reader leaf = ⟨0x40000000⟩ := by decide +kernel
    have hvalue : (⟨0x40000000⟩ : F32).value = .finite false 8388608 (-22) := by decide
    rw [leafBoost, hbits, hvalue, FloatValue.toRat]
    norm_num
  have hidf : (0 : ℝ) < leafIdf bm25Idf boostedIndex.reader [leaf] leaf := by
    rw [leafIdf_cons _ _ rfl]
    exact bm25Idf_pos (by decide +kernel) (by decide +kernel)
  have hk1 : (0 : ℝ) ≤ ((12 / 10 : ℚ) : ℝ) := by norm_num
  have hpos : 0 < leafScore boostedIndex.reader [leaf] {} leaf (some p) :=
    bm25Score_self_pos hidf (by rw [htf]; decide) hk1
  have hsame := h _ _ he
  rw [hstage1, hstage2, hleaves] at hsame
  simp only [List.map_cons, List.map_nil, List.sum_cons, List.sum_nil, add_zero, hboost] at hsame
  rw [show postingOf boostedSegment leaf e.docId = some p from hp] at hsame
  linarith

end Spp.Query
