import SearchPlusPlus.Analyze.Analyzer
import SearchPlusPlus.Index.SegmentAgreement
import SearchPlusPlus.Query.Trees

/-!
# Building a tree

`Build` turns a query into the tree of its operators over one segment. What a query selects in a
segment is described by `matching`, from the posting lists of the segment; the tree is new over
these documents (`fresh_build`).
-/

namespace Spp.Query

open Index Analyze DocIdSetIterator

/-- `QueryAst`. -/
inductive QueryAst where
  | term (field text : Bytes)
  | conjunction (children : List QueryAst)
  | disjunction (children : List QueryAst)
  | matchAll

/-- The analyzer of a query term: the standard one when the schema does not have the field. -/
def queryAnalyzer (schema : Schema) (field : Bytes) : Analyzer :=
  match schema.getField? field with
  | some f => analyzerForField f
  | none => .standard

mutual

/-- A bound of the depth of the tree of a query. -/
def QueryAst.depth : QueryAst → ℕ
  | .matchAll => 1
  | .term _ _ => 2
  | .conjunction children => depthAll children + 1
  | .disjunction children => depthAll children + 1

/-- The greatest depth of some queries. -/
def depthAll : List QueryAst → ℕ
  | [] => 0
  | q :: qs => max q.depth (depthAll qs)

end

/-! ### The tree -/

section Build

variable [SortByKey] (seg : SegmentReader) (schema : Schema)

/-- The children of an operator: none make the empty iterator, and one stands for itself. -/
def combine (operator : List Iter → Iter) : List Iter → Iter
  | [] => .matchAll { docCount := 0 }
  | [kid] => kid
  | kids => operator kids

/-- The iterator of one token, if the segment has the term. -/
def tokenIterator (fieldId : ℕ) (t : Token) : Option Iter :=
  (seg.findTerm fieldId t.text).map fun te ↦
    .term (.new (seg.postingBytes fieldId te) te.df te.totalTf
      ((seg.field fieldId).any (·.stats.hasPositions))
      ((seg.field fieldId).any (·.stats.hasTokenWeights)))

/-- `ConjunctionIterator`, whose constructor calls its children at a depth. -/
def conjunctionOf (depth : ℕ) (kids : List Iter) : Iter :=
  .conjunction (@ConjunctionIterator.new Iter (Iter.dispatch depth) _ kids)

/-- `Build` on a term. -/
def buildTerm (field text : Bytes) : Iter :=
  let fieldId := seg.getFieldId field
  if fieldId = kInvalidFieldId then .matchAll { docCount := 0 }
  else
    let tokens := (queryAnalyzer schema field).analyze text
    if tokens = [] then .matchAll { docCount := 0 }
    else
      match tokens.mapM (tokenIterator seg fieldId) with
      | none => .matchAll { docCount := 0 }
      | some kids => combine (conjunctionOf 1) kids

mutual

/-- `Build`. -/
def build : QueryAst → Iter
  | .matchAll => .matchAll { docCount := seg.docCount }
  | .term field text => buildTerm seg schema field text
  | .conjunction children => combine (conjunctionOf (depthAll children)) (buildAll children)
  | .disjunction children =>
    combine (fun kids ↦ .disjunction { children := kids }) (buildAll children)

/-- `Build` on the children of an operator. -/
def buildAll : List QueryAst → List Iter
  | [] => []
  | q :: qs => build q :: buildAll qs

end

end Build

/-! ### What a query selects -/

/-- A well-formed segment, with the posting lists its bytes encode. -/
structure PostedSegment where
  reader : SegmentReader
  postings : ℕ → Bytes → PostingList
  docCount_le : reader.docCount ≤ kNoMoreDocs
  sorted : ∀ fieldId term, (postings fieldId term).Pairwise fun a b ↦ a.docId < b.docId
  lt : ∀ fieldId term, ∀ p ∈ postings fieldId term, p.docId < reader.docCount
  bytes : ∀ fieldId term te, reader.findTerm fieldId term = some te →
    reader.postingBytes fieldId te = writePostings (postings fieldId term)
      ((reader.field fieldId).any (·.stats.hasPositions))
      ((reader.field fieldId).any (·.stats.hasTokenWeights))

namespace PostedSegment

/-- The posting list of a term of a segment in memory, empty if it has none. -/
def postingList (seg : MutableSegment) (fieldId : ℕ) (term : Bytes) : PostingList :=
  match seg.fieldData[fieldId]? with
  | some fd => (fd.postings.find? term).getD []
  | none => []

variable {r : SegmentReader} {seg : MutableSegment}

theorem postingList_wellFormed (hwf : seg.WellFormed) (fieldId : ℕ) (term : Bytes) :
    ((postingList seg fieldId term).Pairwise fun a b ↦ a.docId < b.docId) ∧
      ∀ p ∈ postingList seg fieldId term, p.docId < seg.docCount := by
  rw [postingList]
  cases hfd : seg.fieldData[fieldId]? with
  | none => exact ⟨.nil, fun p hp ↦ absurd hp List.not_mem_nil⟩
  | some fd =>
    dsimp only
    cases hpl : fd.postings.find? term with
    | none => exact ⟨.nil, fun p hp ↦ absurd hp List.not_mem_nil⟩
    | some pl =>
      exact hwf.postings fd (List.mem_of_getElem? hfd) (term, pl) (SortedMap.mem_toList_iff.2 hpl)

/-- The count and the bytes of a term that was found are those of its list. -/
theorem findTerm_of_agrees (h : Agrees r seg) (hwf : seg.WellFormed) {fieldId : ℕ}
    {term : Bytes} {te : TermEntry} (hfind : r.findTerm fieldId term = some te) :
    te.df.toNat = (postingList seg fieldId term).length ∧
      r.postingBytes fieldId te = writePostings (postingList seg fieldId term)
        ((r.field fieldId).any (·.stats.hasPositions))
        ((r.field fieldId).any (·.stats.hasTokenWeights)) := by
  have hlt : fieldId < seg.schema.fields.length := by
    rw [← h.fields_length]
    refine lt_of_not_ge fun hge ↦ ?_
    rw [SegmentReader.findTerm, SegmentReader.field, List.getElem?_eq_none hge] at hfind
    cases hfind
  have hfm := List.getElem?_eq_getElem hlt
  obtain ⟨fd, hfd⟩ : ∃ fd, seg.fieldData[fieldId]? = some fd :=
    ⟨_, List.getElem?_eq_getElem (hwf.fieldData_length.symm ▸ hlt)⟩
  obtain ⟨fr, hfr, -, -, -, -, -, hpos, hweights⟩ := h.stats _ _ _ hfm hfd
  rw [postingList, hfd, hfr]
  dsimp only [Option.any_some]
  rw [hpos, hweights]
  cases hpl : fd.postings.find? term with
  | none =>
    rw [h.findTerm_none _ _ _ _ hfm hfd hpl] at hfind
    cases hfind
  | some pl =>
    obtain ⟨te', hte, hdf, -, hbytes⟩ := h.findTerm_some _ _ _ _ _ hfm hfd hpl
    obtain rfl := Option.some.inj (hte.symm.trans hfind)
    exact ⟨hdf, hbytes⟩

/-- **A sealed segment** is well formed once it is opened. -/
def ofSealed (h : Agrees r seg) (hwf : seg.WellFormed) : PostedSegment where
  reader := r
  postings := postingList seg
  docCount_le := h.docCount ▸ hwf.docCount_le
  sorted fieldId term := (postingList_wellFormed hwf fieldId term).1
  lt fieldId term := h.docCount ▸ (postingList_wellFormed hwf fieldId term).2
  bytes _ _ _ hfind := (findTerm_of_agrees h hwf hfind).2

end PostedSegment

section Matching

variable (seg : PostedSegment) (schema : Schema)

/-- The documents with a term, empty when the segment does not have it. -/
def termDocs (fieldId : ℕ) (t : Token) : Set ℕ :=
  {d | (seg.reader.findTerm fieldId t.text).isSome ∧ d ∈ docsOf (seg.postings fieldId t.text)}

mutual

/-- The documents of a segment a query selects: a term, those with all of its tokens; an operator
without children, none. -/
def matching : QueryAst → Set ℕ
  | .matchAll => {d | d < seg.reader.docCount}
  | .term field text =>
    let fieldId := seg.reader.getFieldId field
    let tokens := (queryAnalyzer schema field).analyze text
    {d | fieldId ≠ kInvalidFieldId ∧ tokens ≠ [] ∧ ∀ t ∈ tokens, d ∈ termDocs seg fieldId t}
  | .conjunction children => {d | children ≠ [] ∧ d ∈ interOf (matchingAll children)}
  | .disjunction children => unionOf (matchingAll children)

/-- What some queries select. -/
def matchingAll : List QueryAst → List (Set ℕ)
  | [] => []
  | q :: qs => matching q :: matchingAll qs

end

end Matching

/-! ### The tree of a query is new -/

/-- Nothing was called yet on a tree over some documents, at a depth. -/
def FreshAt (n : ℕ) : Set ℕ → Iter → Prop := @SeekLaw.Fresh Iter (Iter.dispatch n) (Iter.law n)

theorem freshAt_matchAll (n : ℕ) {docCount : ℕ} (h : docCount ≤ kNoMoreDocs) :
    FreshAt (n + 1) {d | d < docCount} (.matchAll { docCount }) :=
  ⟨⟨rfl, h, Or.inr rfl⟩, rfl, rfl⟩

theorem freshAt_empty (n : ℕ) : FreshAt (n + 1) ∅ (.matchAll { docCount := 0 }) := by
  have hempty : {d | d < 0} = (∅ : Set ℕ) := Set.eq_empty_of_forall_notMem fun d ↦ Nat.not_lt_zero d
  exact hempty ▸ freshAt_matchAll n (Nat.zero_le _)

theorem freshAt_conjunctionOf [SortByKey] {n : ℕ} {Ss : List (Set ℕ)} {kids : List Iter}
    (h : List.Forall₂ (FreshAt n) Ss kids) (hne : Ss ≠ []) :
    FreshAt (n + 1) (interOf Ss) (conjunctionOf n kids) :=
  @ConjunctionIterator.fresh_new Iter (Iter.dispatch n) (Iter.law n) Ss _ kids h hne

theorem freshAt_disjunction {n : ℕ} {Ss : List (Set ℕ)} {kids : List Iter}
    (h : List.Forall₂ (FreshAt n) Ss kids) (hne : Ss ≠ []) :
    FreshAt (n + 1) (unionOf Ss) (.disjunction { children := kids }) :=
  let _ := Iter.dispatch n
  ⟨Ss, rfl, h, rfl, hne⟩

/-- The children of an operator, when it is what one child or none would be. -/
theorem freshAt_combine {n : ℕ} {S : Set ℕ} {Ss : List (Set ℕ)} {kids : List Iter}
    {operator : List Iter → Iter} (h : List.Forall₂ (FreshAt n) Ss kids)
    (hnone : Ss = [] → S = ∅) (hone : ∀ T, Ss = [T] → S = T)
    (hmany : Ss ≠ [] → FreshAt (n + 1) S (operator kids)) :
    FreshAt (n + 1) S (combine operator kids) := by
  rcases h with _ | ⟨hkid, _ | ⟨hkid', hkids⟩⟩
  · exact hnone rfl ▸ freshAt_empty n
  · exact hone _ rfl ▸ Iter.fresh_mono (Nat.le_succ n) hkid
  · exact hmany (List.cons_ne_nil _ _)

section Build

variable {seg : PostedSegment} {schema : Schema}

theorem matchingAll_eq_nil {qs : List QueryAst} : matchingAll seg schema qs = [] ↔ qs = [] := by
  cases qs <;> simp [matchingAll]

theorem freshAt_tokenIterator {fieldId : ℕ} {t : Token} {kid : Iter}
    (h : tokenIterator seg.reader fieldId t = some kid) :
    FreshAt 1 (termDocs seg fieldId t) kid := by
  obtain ⟨te, hfind, rfl⟩ := Option.map_eq_some_iff.1 h
  have hdocs : docsOf (seg.postings fieldId t.text) = termDocs seg fieldId t := by
    ext d
    simp [termDocs, hfind]
  refine ⟨rfl, rfl, seg.postings fieldId t.text, ?_, hdocs⟩
  rw [seg.bytes _ _ _ hfind]
  exact TermIterator.over_new (seg.sorted _ _) fun p hp ↦
    (seg.lt _ _ p hp).trans_le seg.docCount_le

/-- The iterators of some tokens, or a token the segment does not have. -/
theorem freshAt_mapM_tokenIterator (seg : PostedSegment) (fieldId : ℕ) (tokens : List Token) :
    (tokens.mapM (tokenIterator seg.reader fieldId) = none ∧
        interOf (tokens.map (termDocs seg fieldId)) = ∅) ∨
      ∃ kids, tokens.mapM (tokenIterator seg.reader fieldId) = some kids ∧
        List.Forall₂ (FreshAt 1) (tokens.map (termDocs seg fieldId)) kids := by
  induction tokens with
  | nil => exact Or.inr ⟨[], rfl, .nil⟩
  | cons t tokens ih =>
    rw [List.mapM_cons]
    cases ht : tokenIterator seg.reader fieldId t with
    | none =>
      refine Or.inl ⟨rfl, Set.eq_empty_of_forall_notMem fun d hd ↦ ?_⟩
      have hfind := (hd (termDocs seg fieldId t) List.mem_cons_self).1
      rw [Option.map_eq_none_iff.1 ht] at hfind
      cases hfind
    | some kid =>
      rcases ih with ⟨hnone, hempty⟩ | ⟨kids, hsome, hkids⟩
      · refine Or.inl ⟨by rw [hnone]; rfl, Set.eq_empty_of_forall_notMem fun d hd ↦ ?_⟩
        have hmem : d ∈ interOf (tokens.map (termDocs seg fieldId)) := fun T hT ↦
          hd T (List.mem_cons_of_mem _ hT)
        rwa [hempty] at hmem
      · exact Or.inr ⟨kid :: kids, by rw [hsome]; rfl, .cons (freshAt_tokenIterator ht) hkids⟩

variable [SortByKey]

theorem freshAt_buildTerm (field text : Bytes) :
    FreshAt 2 (matching seg schema (.term field text))
      (buildTerm seg.reader schema field text) := by
  have hempty : ∀ {S : Set ℕ}, (∀ d, d ∉ S) → FreshAt 2 S (.matchAll { docCount := 0 }) :=
    fun h ↦ Set.eq_empty_of_forall_notMem h ▸ freshAt_empty 1
  rw [buildTerm, matching]
  dsimp only
  split_ifs with hfield htokens
  · exact hempty fun d hd ↦ hd.1 hfield
  · exact hempty fun d hd ↦ hd.2.1 htokens
  · have hmatch : interOf (((queryAnalyzer schema field).analyze text).map
        (termDocs seg (seg.reader.getFieldId field))) = {d | seg.reader.getFieldId field ≠
          kInvalidFieldId ∧ (queryAnalyzer schema field).analyze text ≠ [] ∧
          ∀ t ∈ (queryAnalyzer schema field).analyze text,
            d ∈ termDocs seg (seg.reader.getFieldId field) t} := by
      ext d
      simp [interOf, hfield, htokens]
    rw [← hmatch]
    generalize (queryAnalyzer schema field).analyze text = tokens at htokens
    rcases freshAt_mapM_tokenIterator seg (seg.reader.getFieldId field) tokens with
      ⟨hnone, hS⟩ | ⟨kids, hsome, hkids⟩
    · rw [hnone]
      exact hS ▸ freshAt_empty 1
    · rw [hsome]
      have hne : tokens.map (termDocs seg (seg.reader.getFieldId field)) ≠ [] := by
        simpa using htokens
      refine freshAt_combine hkids (fun h ↦ absurd h hne) (fun T hT ↦ ?_) fun h ↦
        freshAt_conjunctionOf hkids h
      rw [hT]
      ext d
      simp [interOf]

mutual

/-- **The tree of a query** is new, over the documents the query selects. -/
theorem fresh_build : ∀ q : QueryAst,
    FreshAt q.depth (matching seg schema q) (build seg.reader schema q)
  | .matchAll => freshAt_matchAll 0 seg.docCount_le
  | .term field text => freshAt_buildTerm field text
  | .conjunction children => by
    have hkids := fresh_buildAll children
    rw [build, matching, QueryAst.depth]
    refine freshAt_combine hkids (fun h ↦ ?_) (fun T hT ↦ ?_) fun h ↦ ?_
    · rw [matchingAll_eq_nil.1 h]
      exact Set.eq_empty_of_forall_notMem fun d hd ↦ hd.1 rfl
    · have hne : children ≠ [] := fun hnil ↦ by
        rw [matchingAll_eq_nil.2 hnil] at hT
        cases hT
      rw [hT]
      ext d
      simp [interOf, hne]
    · have hne : children ≠ [] := fun hnil ↦ h (matchingAll_eq_nil.2 hnil)
      have hS : {d | children ≠ [] ∧ d ∈ interOf (matchingAll seg schema children)} =
          interOf (matchingAll seg schema children) := by
        ext d
        simp [hne]
      rw [hS]
      exact freshAt_conjunctionOf hkids h
  | .disjunction children => by
    have hkids := fresh_buildAll children
    rw [build, matching, QueryAst.depth]
    refine freshAt_combine hkids (fun h ↦ ?_) (fun T hT ↦ ?_) fun h ↦
      freshAt_disjunction hkids h
    · rw [h]
      ext d
      simp [unionOf]
    · rw [hT]
      ext d
      simp [unionOf]

theorem fresh_buildAll : ∀ qs : List QueryAst,
    List.Forall₂ (FreshAt (depthAll qs)) (matchingAll seg schema qs)
      (buildAll seg.reader schema qs)
  | [] => .nil
  | q :: qs => .cons (Iter.fresh_mono (le_max_left _ _) (fresh_build q))
    ((fresh_buildAll qs).imp fun _ _ ↦ Iter.fresh_mono (le_max_right _ _))

end

end Build

end Spp.Query
