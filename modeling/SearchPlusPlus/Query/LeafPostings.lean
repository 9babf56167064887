import SearchPlusPlus.Query.Candidates
import SearchPlusPlus.Query.PostingCursor

/-!
# The postings of leaves

What a leaf finds in a document is its posting there (`postingOf`). An iterator that is built with
the flags of its field reads it (`seekPosting_posted`): stage 2 does so, and stage 1 where a field
stores neither positions nor weights (`stage1Freq_eq`).
-/

namespace Spp.Query

open Index

/-- The posting of a document, if a sorted list has it, is the first one from the document on. -/
theorem find?_docId {pl : PostingList} (hsorted : pl.Pairwise fun a b ↦ a.docId < b.docId)
    (docId : ℕ) : pl.find? (·.docId = docId) =
      (pl.dropWhile (·.docId < docId)).head?.filter (·.docId = docId) := by
  induction pl with
  | nil => rfl
  | cons p pl ih =>
    obtain ⟨hlt, hsorted'⟩ := List.pairwise_cons.1 hsorted
    by_cases hp : p.docId < docId
    · rw [List.find?_cons_of_neg (by simpa using hp.ne), ih hsorted',
        List.dropWhile_cons_of_pos (by simpa using hp)]
    · rw [List.dropWhile_cons_of_neg (by simpa using hp), List.head?_cons]
      by_cases heq : p.docId = docId
      · rw [List.find?_cons_of_pos (by simpa using heq),
          Option.filter_some_pos (by simpa using heq)]
      · rw [List.find?_cons_of_neg (by simpa using heq),
          Option.filter_some_neg (by simpa using heq)]
        refine List.find?_eq_none.2 fun x hx ↦ ?_
        have hxp := hlt x hx
        simp only [decide_eq_true_eq]
        omega

section Posted

variable (seg : PostedSegment) (l : LeafTerm) (docId : ℕ)

/-- The posting of a leaf in a document. -/
def postingOf : Option Posting :=
  (leafEntry seg.reader l).bind fun p ↦ (seg.postings p.1 l.text).find? (·.docId = docId)

variable {seg l docId}

theorem leafEntry_eq_some {fieldId : ℕ} {te : TermEntry}
    (h : leafEntry seg.reader l = some (fieldId, te)) :
    fieldId = seg.reader.getFieldId l.fieldName ∧ fieldId ≠ kInvalidFieldId ∧
      seg.reader.findTerm fieldId l.text = some te := by
  rw [leafEntry] at h
  split_ifs at h with hfield
  obtain ⟨te', hfind, heq⟩ := Option.map_eq_some_iff.1 h
  obtain ⟨rfl, rfl⟩ := Prod.mk.inj heq
  exact ⟨rfl, hfield, hfind⟩

/-- **An iterator with the flags of its field** finds the posting of a document. -/
theorem seekPosting_posted {fieldId : ℕ} {te : TermEntry} {term : Bytes}
    (hfind : seg.reader.findTerm fieldId term = some te) (hd : docId < kNoMoreDocs) :
    let hasPositions := (seg.reader.field fieldId).any (·.stats.hasPositions)
    let hasTokenWeights := (seg.reader.field fieldId).any (·.stats.hasTokenWeights)
    ((seg.postings fieldId term).find? (·.docId = docId) = none ∧
        seekPosting seg.reader fieldId te hasPositions hasTokenWeights docId = none) ∨
      ∃ p it, (seg.postings fieldId term).find? (·.docId = docId) = some p ∧
        seekPosting seg.reader fieldId te hasPositions hasTokenWeights docId = some it ∧
        it.Shows hasPositions hasTokenWeights p := by
  intro hasPositions hasTokenWeights
  have hsorted := seg.sorted fieldId term
  have hover : (TermIterator.new (seg.reader.postingBytes fieldId te) te.df te.totalTf hasPositions
      hasTokenWeights).Over (seg.postings fieldId term) := by
    rw [seg.bytes _ _ _ hfind]
    exact TermIterator.over_new hsorted fun p hp ↦
      (seg.lt fieldId term p hp).trans_le seg.docCount_le
  have hflags := TermIterator.sameFlags_advance (TermIterator.new
    (seg.reader.postingBytes fieldId te) te.df te.totalTf hasPositions hasTokenWeights) docId
  have hgo : (TermIterator.new (seg.reader.postingBytes fieldId te) te.df te.totalTf hasPositions
      hasTokenWeights).current < docId ∨
      (TermIterator.new (seg.reader.postingBytes fieldId te) te.df te.totalTf hasPositions
        hasTokenWeights).started = false := Or.inr rfl
  rw [find?_docId hsorted, seekPosting]
  obtain ⟨it', ⟨hdrop, hrun, -⟩ | ⟨p, rest, hdrop, hrun, hat⟩⟩ :=
    TermIterator.advance_over hover hgo
  · rw [hdrop, hrun]
    exact Or.inl ⟨rfl, if_neg hd.ne'⟩
  · rw [hrun] at hflags
    rw [hdrop, hrun, List.head?_cons]
    by_cases heq : p.docId = docId
    · refine Or.inr ⟨p, it', Option.filter_some_pos (by simpa using heq), if_pos heq, ?_⟩
      have hshows := hat.shows
      rwa [hflags.1, hflags.2] at hshows
    · exact Or.inl ⟨Option.filter_some_neg (by simpa using heq), if_neg heq⟩

/-- A field that stores neither positions nor token weights. -/
def PlainField (seg : SegmentReader) (name : Bytes) : Prop :=
  (seg.field (seg.getFieldId name)).any (·.stats.hasPositions) = false ∧
    (seg.field (seg.getFieldId name)).any (·.stats.hasTokenWeights) = false

/-- **Stage 1** reads the posting of a leaf, in a field without payloads. -/
theorem stage1Freq_eq (hplain : PlainField seg.reader l.fieldName) (hd : docId < kNoMoreDocs) :
    stage1Freq seg.reader docId l = (postingOf seg l docId).map (·.tf) := by
  rw [stage1Freq, postingOf]
  cases hentry : leafEntry seg.reader l with
  | none => rfl
  | some p =>
    obtain ⟨fieldId, te⟩ := p
    obtain ⟨rfl, -, hfind⟩ := leafEntry_eq_some hentry
    have hseek := seekPosting_posted hfind hd
    rw [hplain.1, hplain.2] at hseek
    rw [Option.bind_some, Option.bind_some]
    dsimp only
    rcases hseek with ⟨hnone, hseek⟩ | ⟨p, it, hsome, hseek, hshows⟩
    · rw [hnone, hseek]
      rfl
    · rw [hsome, hseek, Option.map_some, Option.map_some, hshows.freq]

end Posted

/-! ### What stage 2 collects -/

section Item

variable {R : Type} [Arith R] (r : IndexReader) (leaves : List LeafTerm) {seg : PostedSegment}
  {docId : ℕ} (l : LeafTerm)

/-- The boost of the field of a leaf. -/
def boostOf (seg : SegmentReader) (l : LeafTerm) : F32 :=
  if seg.getFieldId l.fieldName = kInvalidFieldId then F32.one
  else ((seg.field (seg.getFieldId l.fieldName)).map (·.stats.boost)).getD F32.one

/-- The field of a leaf stores token weights. -/
def storesWeights (seg : SegmentReader) (l : LeafTerm) : Bool :=
  (seg.field (seg.getFieldId l.fieldName)).any (·.stats.hasTokenWeights)

/-- A leaf at a candidate has its posting, the idf of its key, and the average of its field. -/
structure ItemOf (item : LeafContextItem R) (posting : Option Posting) (boost : F32)
    (hasTokenWeights : Bool) : Prop where
  idf : item.idf = leafIdf bm25Idf r leaves l
  fieldLen : item.fieldLen = avgDlByField r l.fieldName
  avgFieldLen : item.avgFieldLen = avgDlByField r l.fieldName
  boost_eq : item.boost = boost
  matched : item.matched = posting.isSome
  tf : ∀ p, posting = some p → item.tf = p.tf
  tokenWeight : ∀ p, posting = some p → item.tokenWeight =
    if hasTokenWeights then dequantizeTokenWeight (quantizeTokenWeight p.maxTokenWeight)
    else F32.one

/-- **Stage 2** collects the posting of a leaf, whatever its field stores. -/
theorem itemOf_leafContextItem (hd : docId < kNoMoreDocs) :
    ItemOf r leaves l (leafContextItem r leaves (some seg.reader) docId l : LeafContextItem R)
      (postingOf seg l docId) (boostOf seg.reader l) (storesWeights seg.reader l) := by
  rw [leafContextItem, postingOf, boostOf, leafEntry, storesWeights]
  dsimp only
  by_cases hfield : seg.reader.getFieldId l.fieldName = kInvalidFieldId
  · simp only [if_pos hfield]
    exact ⟨rfl, rfl, rfl, rfl, rfl, fun _ h ↦ (by cases h), fun _ h ↦ (by cases h)⟩
  · simp only [if_neg hfield]
    cases hfind : seg.reader.findTerm (seg.reader.getFieldId l.fieldName) l.text with
    | none =>
      cases seg.reader.field (seg.reader.getFieldId l.fieldName) <;>
        exact ⟨rfl, rfl, rfl, rfl, rfl, fun _ h ↦ (by cases h), fun _ h ↦ (by cases h)⟩
    | some te =>
      rw [Option.map_some, Option.bind_some]
      dsimp only
      rcases seekPosting_posted hfind hd with ⟨hnone, hseek⟩ | ⟨p, it, hsome, hseek, hshows⟩
      · rw [hnone, hseek]
        cases seg.reader.field (seg.reader.getFieldId l.fieldName) <;>
          exact ⟨rfl, rfl, rfl, rfl, rfl, fun _ h ↦ (by cases h), fun _ h ↦ (by cases h)⟩
      · rw [hsome, hseek]
        have hfreq : ∀ p', some p = some p' → it.currentFreq = p'.tf := fun p' heq ↦
          Option.some.inj heq ▸ hshows.freq
        have hweight : ∀ p', some p = some p' → it.currentWeight = if
            (seg.reader.field (seg.reader.getFieldId l.fieldName)).any (·.stats.hasTokenWeights)
            then dequantizeTokenWeight (quantizeTokenWeight p'.maxTokenWeight) else F32.one :=
          fun p' heq ↦ Option.some.inj heq ▸ hshows.tokenWeight
        dsimp only
        generalize (seg.reader.field (seg.reader.getFieldId l.fieldName)).any
          (·.stats.hasPositions) = hasPos
        generalize (seg.reader.field (seg.reader.getFieldId l.fieldName)).any
          (·.stats.hasTokenWeights) = hasW at hweight ⊢
        cases hasW with
        | true =>
          cases seg.reader.field (seg.reader.getFieldId l.fieldName) <;> cases hasPos <;>
            exact ⟨rfl, rfl, rfl, rfl, rfl, hfreq, hweight⟩
        | false =>
          cases seg.reader.field (seg.reader.getFieldId l.fieldName) <;> cases hasPos <;>
            exact ⟨rfl, rfl, rfl, rfl, rfl, hfreq, fun _ _ ↦ rfl⟩

end Item

end Spp.Query
