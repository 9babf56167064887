import SearchPlusPlus.Index.MutableSegment

/-!
# What a segment in memory says about its documents

`Inverts seg held`: the segment `seg` is an inverted index of the documents `held`. The posting
of a document in the list of a term has the number of occurrences as `tf`, which is a 32-bit
count: it is right as long as no term occurs 2^32 times in a field (`inverts_iff`).
-/

namespace Spp.Index

open Analyze

/-- How often a term occurs among some tokens. -/
def occurrences (term : Bytes) (tokens : List Token) : ℕ :=
  tokens.countP fun t ↦ t.text = term

/-- The ordinal of the first token that is the term. -/
def firstOccurrence (term : Bytes) (tokens : List Token) : ℕ :=
  tokens.findIdx fun t ↦ t.text = term

namespace MutableFieldData

/-- The posting list of a term, empty when it has none. -/
def list (fd : MutableFieldData) (term : Bytes) : PostingList := (fd.postings.find? term).getD []

/-- The sum of all `tf`. -/
def sumTf (fd : MutableFieldData) : ℕ :=
  (fd.postings.toList.map fun p ↦ (p.2.map fun q ↦ q.tf.toNat).sum).sum

/-- The documents in the posting lists. -/
def docs (fd : MutableFieldData) : Finset ℕ :=
  (fd.postings.toList.flatMap fun p ↦ p.2.map fun q ↦ q.docId).toFinset

end MutableFieldData

/-- The data of a field is an inverted index of the field of some documents. -/
structure FieldInverts (f : FieldMapping) (held : List Document) (fd : MutableFieldData) :
    Prop where
  sorted : ∀ term, (fd.list term).Pairwise fun p q ↦ p.docId < q.docId
  lt : ∀ term, ∀ p ∈ fd.list term, p.docId < held.length
  tf_pos : ∀ term, ∀ p ∈ fd.list term, 0 < p.tf.toNat
  tf : ∀ term d k, 0 < k → ((∃ p ∈ fd.list term, p.docId = d ∧ p.tf.toNat = k) ↔
    ∃ doc, held[d]? = some doc ∧ occurrences term (docTokens f doc) = k)
  firstPos : ∀ term, ∀ p ∈ fd.list term, ∃ doc, held[p.docId]? = some doc ∧
    p.firstPos.toNat = min (firstOccurrence term (docTokens f doc)) 65535
  sumFieldLength : fd.sumFieldLength = UInt64.ofNat fd.sumTf
  docCount : fd.docCount.toNat = fd.docs.card

/-- A segment in memory is an inverted index of some documents, and a rejected document changes
nothing. -/
structure Inverts [LibcDecimal] (seg : MutableSegment) (held : List Document) : Prop where
  nextDocId : seg.nextDocId = held.length
  fieldData_length : seg.fieldData.length = seg.schema.fields.length
  fields : ∀ (i : ℕ) f fd, seg.schema.fields[i]? = some f → seg.fieldData[i]? = some fd →
    FieldInverts f held fd
  storedBlobs_length : seg.storedBlobs.length = seg.nextDocId
  docIds : seg.docIds = held.map (·.id)
  docQuality_length : seg.schema.storeDocQuality = true → seg.docQuality.length = seg.nextDocId
  rejected : ∀ doc e, seg.addDocument doc = .error e → seg.addDocuments [doc] = seg

/-- No term occurs as often in a field as a 32-bit count can tell. -/
def CountsFit (schema : Schema) (held : List Document) : Prop :=
  ∀ f ∈ schema.fields, ∀ doc ∈ held, ∀ term, occurrences term (docTokens f doc) < 2 ^ 32

/-! ### The statistics of a document -/

section Stats

variable {weights : Option (List F32)} {tokens : List Token} {term : Bytes} {st : PerDocTermStats}

theorem tf_tokenStats (weights : Option (List F32)) (pi : ℕ) (st : PerDocTermStats) :
    (tokenStats weights pi st).tf = st.tf + 1 := by
  unfold tokenStats
  cases weights with
  | none => split_ifs <;> rfl
  | some ws =>
    dsimp only
    split_ifs <;> rfl

theorem firstPos_tokenStats (weights : Option (List F32)) (pi : ℕ) (st : PerDocTermStats) :
    (tokenStats weights pi st).firstPos =
      if st.tf = 0 then (if pi < 65535 then UInt16.ofNat pi else 65535) else st.firstPos := by
  unfold tokenStats
  cases weights with
  | none => split_ifs <;> rfl
  | some ws =>
    dsimp only
    split_ifs <;> rfl

theorem toNat_cappedPos (pi : ℕ) :
    (if pi < 65535 then UInt16.ofNat pi else 65535).toNat = min pi 65535 := by
  split_ifs with h
  · rw [UInt16.toNat_ofNat', min_eq_left h.le]
    exact Nat.mod_eq_of_lt (by omega)
  · rw [min_eq_right (not_lt.1 h)]
    rfl

theorem occurrences_append_singleton (term : Bytes) (tokens : List Token) (t : Token) :
    occurrences term (tokens ++ [t]) =
      occurrences term tokens + if t.text = term then 1 else 0 := by
  simp [occurrences, List.countP_append, List.countP_cons]

theorem occurrences_pos_iff : 0 < occurrences term tokens ↔ ∃ t ∈ tokens, t.text = term := by
  simp [occurrences, List.countP_pos_iff]

theorem firstOccurrence_append (tokens₁ tokens₂ : List Token) :
    firstOccurrence term (tokens₁ ++ tokens₂) = if occurrences term tokens₁ = 0
      then tokens₁.length + firstOccurrence term tokens₂ else firstOccurrence term tokens₁ := by
  rw [firstOccurrence, List.findIdx_append]
  by_cases h : occurrences term tokens₁ = 0
  · have hnone : ∀ t ∈ tokens₁, t.text ≠ term := by simpa [occurrences] using h
    rw [if_pos h, if_neg]
    · rw [firstOccurrence, Nat.add_comm]
    · simpa using hnone
  · obtain ⟨t, ht, htext⟩ := occurrences_pos_iff.1 (Nat.pos_of_ne_zero h)
    rw [if_neg h, if_pos]
    · rfl
    · exact List.findIdx_lt_length_of_exists ⟨t, ht, by simpa using htext⟩

/-- **The statistics of a term**, as long as its count fits. -/
theorem termStats_spec (weights : Option (List F32)) (term : Bytes) (tokens : List Token) :
    ∀ st, (termStats weights tokens).find? term = some st → occurrences term tokens < 2 ^ 32 →
      st.tf.toNat = occurrences term tokens ∧
        st.firstPos.toNat = min (firstOccurrence term tokens) 65535 := by
  induction tokens using List.reverseRecOn with
  | nil => exact fun st h ↦ by cases h
  | append_singleton tokens t ih =>
    intro st h hfit
    rw [termStats_append_singleton, SortedMap.find?_insert] at h
    rw [occurrences_append_singleton] at hfit ⊢
    rw [firstOccurrence_append]
    by_cases heq : term = t.text
    · subst heq
      rw [if_pos rfl] at h hfit ⊢
      cases h
      rw [tf_tokenStats, firstPos_tokenStats]
      cases hold : (termStats weights tokens).find? t.text with
      | none =>
        have hzero : occurrences t.text tokens = 0 := by
          by_contra hne
          have hsome := (termStats_isSome_iff weights tokens t.text).2
            (occurrences_pos_iff.1 (Nat.pos_of_ne_zero hne))
          rw [hold] at hsome
          cases hsome
        rw [hzero, if_pos rfl]
        refine ⟨rfl, ?_⟩
        have hfirst : firstOccurrence t.text [t] = 0 := by simp [firstOccurrence]
        rw [hfirst]
        exact toNat_cappedPos tokens.length
      | some st₀ =>
        obtain ⟨htf, hpos⟩ := ih st₀ hold (Nat.lt_of_succ_lt hfit)
        have hmem := (termStats_isSome_iff weights tokens t.text).1 (by rw [hold]; rfl)
        have hcount := occurrences_pos_iff.2 hmem
        have hne : st₀.tf ≠ 0 := fun hzero ↦ by
          rw [hzero] at htf
          exact hcount.ne htf
        dsimp only [Option.getD_some]
        rw [if_neg hne, if_neg hcount.ne', UInt32.toNat_add, htf]
        exact ⟨Nat.mod_eq_of_lt hfit, hpos⟩
    · rw [if_neg heq] at h
      rw [if_neg fun h ↦ heq h.symm] at hfit ⊢
      have hmem := (termStats_isSome_iff weights tokens term).1 (by rw [h]; rfl)
      rw [if_neg (occurrences_pos_iff.2 hmem).ne']
      exact ih st h hfit

/-- The counts of the terms add up to the number of tokens. -/
theorem sum_tf_termStats (weights : Option (List F32)) (tokens : List Token)
    (hfit : ∀ term, occurrences term tokens < 2 ^ 32) :
    ((termStats weights tokens).toList.map fun p ↦ p.2.tf.toNat).sum = tokens.length := by
  induction tokens using List.reverseRecOn with
  | nil => rfl
  | append_singleton tokens t ih =>
    have hfit' : ∀ term, occurrences term tokens < 2 ^ 32 := fun term ↦ by
      have h := hfit term
      rw [occurrences_append_singleton] at h
      exact (Nat.le_add_right _ _).trans_lt h
    have hsum := SortedMap.sum_insert (termStats weights tokens) (fun st ↦ st.tf.toNat) t.text
      (tokenStats weights tokens.length (((termStats weights tokens).find? t.text).getD {}))
    rw [ih hfit', tf_tokenStats] at hsum
    rw [termStats_append_singleton, List.length_append, List.length_singleton]
    have hspec := termStats_spec weights t.text tokens
    have hlast := hfit t.text
    rw [occurrences_append_singleton, if_pos rfl] at hlast
    cases hold : (termStats weights tokens).find? t.text with
    | none =>
      rw [hold] at hsum
      exact hsum
    | some st =>
      obtain ⟨htf, -⟩ := hspec st hold (hfit' t.text)
      rw [hold] at hsum
      dsimp only [Option.getD_some, Option.map_some] at hsum ⊢
      have hone : (1 : UInt32).toNat = 1 := rfl
      rw [UInt32.toNat_add, htf, hone, Nat.mod_eq_of_lt hlast] at hsum
      omega

end Stats

/-! ### The data of a field -/

section Field

variable {f : FieldMapping} {docs : List Document} {doc : Document} {term : Bytes}
  {fd : MutableFieldData}

theorem list_fieldDataOf (f : FieldMapping) (docs : List Document) (term : Bytes) :
    (fieldDataOf f docs).list term = postingsOf f docs term := by
  rw [MutableFieldData.list, find?_fieldDataOf]
  split_ifs with h
  · exact h.symm
  · rfl

/-- A posting has the statistics of its document. -/
theorem posting_spec {p : Posting} (h : p ∈ postingsOf f docs term) :
    ∃ doc, docs[p.docId]? = some doc ∧ 0 < occurrences term (docTokens f doc) ∧
      (occurrences term (docTokens f doc) < 2 ^ 32 →
        p.tf.toNat = occurrences term (docTokens f doc) ∧
          p.firstPos.toNat = min (firstOccurrence term (docTokens f doc)) 65535) := by
  obtain ⟨doc, hdoc, hpost⟩ := mem_postingsOf.1 h
  have hmem := docPosting_isSome_iff.1
    (show (docPosting f doc p.docId term).isSome by rw [hpost]; rfl)
  obtain ⟨st, hst, hp⟩ := Option.map_eq_some_iff.1 hpost
  refine ⟨doc, hdoc, occurrences_pos_iff.2 hmem, fun hfit ↦ ?_⟩
  obtain ⟨htf, hpos⟩ := termStats_spec (fieldWeights f doc) term (docTokens f doc) st hst hfit
  rw [← hp]
  exact ⟨htf, hpos⟩

/-- Pushing the postings of a document adds its counts. -/
theorem sumTf_pushPostings (g : PerDocTermStats → Posting) (hg : ∀ st, (g st).tf = st.tf)
    (l : List (Bytes × PerDocTermStats)) : ∀ postings : SortedMap Bytes PostingList,
    (((l.foldl (fun postings p ↦ pushPosting postings p.1 (g p.2)) postings).toList.map
        fun p ↦ (p.2.map fun q ↦ q.tf.toNat).sum).sum) =
      (postings.toList.map fun p ↦ (p.2.map fun q ↦ q.tf.toNat).sum).sum +
        (l.map fun p ↦ p.2.tf.toNat).sum := by
  induction l with
  | nil => exact fun _ ↦ rfl
  | cons p l ih =>
    intro postings
    rw [List.foldl_cons, ih, pushPosting]
    have hsum := SortedMap.sum_insert postings (fun pl ↦ (pl.map fun q ↦ q.tf.toNat).sum) p.1
      ((postings.find? p.1).getD [] ++ [g p.2])
    have hlast : (((postings.find? p.1).getD [] ++ [g p.2]).map fun q ↦ q.tf.toNat).sum =
        ((postings.find? p.1).map fun pl ↦ (pl.map fun q ↦ q.tf.toNat).sum).getD 0 +
          p.2.tf.toNat := by
      rw [List.map_append, List.sum_append, List.map_singleton, List.sum_singleton, hg]
      cases postings.find? p.1 <;> rfl
    rw [hlast] at hsum
    rw [List.map_cons, List.sum_cons]
    omega

/-- The field data after one more document. -/
theorem sums_indexField (hfit : ∀ term, occurrences term (docTokens f doc) < 2 ^ 32) (id : ℕ)
    (h : fd.sumFieldLength = UInt64.ofNat fd.sumTf) :
    (indexField doc id f fd).sumFieldLength =
      UInt64.ofNat (indexField doc id f fd).sumTf := by
  rw [indexField]
  split
  · exact h
  · next value hv =>
    dsimp only
    split_ifs with ht
    · exact h
    · have htokens : docTokens f doc = (analyzerForField f).analyze value := by rw [docTokens, hv]
      rw [htokens] at hfit
      have hpush := sumTf_pushPostings (toPosting (fieldWeights f doc) id) (fun _ ↦ rfl)
        (termStats (fieldWeights f doc) ((analyzerForField f).analyze value)).toList fd.postings
      rw [sum_tf_termStats _ _ hfit] at hpush
      rw [h]
      exact (UInt64.ofNat_add _ _).symm.trans (congrArg UInt64.ofNat hpush).symm

theorem docCount_indexField (id : ℕ) : (indexField doc id f fd).docCount =
    fd.docCount + if docTokens f doc = [] then 0 else 1 := by
  rw [indexField, docTokens]
  cases fieldValue f doc with
  | none => exact (UInt32.add_zero _).symm
  | some value =>
    dsimp only
    split_ifs
    · exact (UInt32.add_zero _).symm
    · rfl

theorem sumFieldLength_fieldDataOf (f : FieldMapping) (docs : List Document)
    (hfit : ∀ doc ∈ docs, ∀ term, occurrences term (docTokens f doc) < 2 ^ 32) :
    (fieldDataOf f docs).sumFieldLength = UInt64.ofNat (fieldDataOf f docs).sumTf := by
  induction docs using List.reverseRecOn with
  | nil => rfl
  | append_singleton docs doc ih =>
    rw [fieldDataOf_append_singleton]
    refine sums_indexField (hfit doc ?_) docs.length (ih fun d hd ↦ hfit d ?_)
    · exact List.mem_append_right _ List.mem_cons_self
    · exact List.mem_append_left _ hd

/-- The documents of a field are those with a token in it. -/
theorem mem_docs_fieldDataOf {d : ℕ} : d ∈ (fieldDataOf f docs).docs ↔
    ∃ doc, docs[d]? = some doc ∧ docTokens f doc ≠ [] := by
  rw [MutableFieldData.docs, List.mem_toFinset, List.mem_flatMap]
  constructor
  · rintro ⟨⟨term, pl⟩, hpl, hd⟩
    obtain ⟨p, hp, rfl⟩ := List.mem_map.1 hd
    have hfind := SortedMap.mem_toList_iff.1 hpl
    rw [find?_fieldDataOf] at hfind
    split_ifs at hfind
    cases hfind
    obtain ⟨doc, hdoc, t, ht, -⟩ := exists_mem_postingsOf_iff.1 ⟨p, hp, rfl⟩
    exact ⟨doc, hdoc, List.ne_nil_of_mem ht⟩
  · rintro ⟨doc, hdoc, hne⟩
    obtain ⟨t, ht⟩ := List.exists_mem_of_ne_nil _ hne
    obtain ⟨p, hp, hid⟩ := exists_mem_postingsOf_iff.2 ⟨doc, hdoc, t, ht, rfl⟩
    have hfind : (fieldDataOf f docs).postings.find? t.text = some (postingsOf f docs t.text) := by
      rw [find?_fieldDataOf, if_neg (List.ne_nil_of_mem hp)]
    exact ⟨_, SortedMap.mem_toList_iff.2 hfind, List.mem_map.2 ⟨p, hp, hid⟩⟩

theorem docCount_fieldDataOf (f : FieldMapping) (docs : List Document)
    (hlen : docs.length ≤ kNoMoreDocs) :
    (fieldDataOf f docs).docCount.toNat = (fieldDataOf f docs).docs.card := by
  induction docs using List.reverseRecOn with
  | nil => rfl
  | append_singleton docs doc ih =>
    rw [List.length_append, List.length_singleton] at hlen
    have hcount := ih (Nat.le_of_succ_le hlen)
    have hrange : (fieldDataOf f docs).docs ⊆ Finset.range docs.length := fun d hd ↦ by
      obtain ⟨_, hdoc, -⟩ := mem_docs_fieldDataOf.1 hd
      exact Finset.mem_range.2 (List.getElem?_eq_some_iff.1 hdoc).1
    have hdocs : (fieldDataOf f (docs ++ [doc])).docs = if docTokens f doc = []
        then (fieldDataOf f docs).docs else insert docs.length (fieldDataOf f docs).docs := by
      have hlast : (docs ++ [doc])[docs.length]? = some doc := List.getElem?_concat_length
      ext d
      rw [mem_docs_fieldDataOf]
      rcases lt_trichotomy d docs.length with hd | rfl | hd
      · rw [List.getElem?_append_left hd, ← mem_docs_fieldDataOf]
        split_ifs
        · rfl
        · rw [Finset.mem_insert, or_iff_right hd.ne]
      · rw [hlast]
        have hold : docs.length ∉ (fieldDataOf f docs).docs := fun hmem ↦
          lt_irrefl _ (Finset.mem_range.1 (hrange hmem))
        split_ifs with hnil <;> simp [hnil, hold]
      · have hnone : (docs ++ [doc])[d]? = none := List.getElem?_eq_none (by
          rw [List.length_append]
          exact hd)
        have hold : d ∉ (fieldDataOf f docs).docs := fun hmem ↦
          lt_asymm hd (Finset.mem_range.1 (hrange hmem))
        rw [hnone]
        split_ifs <;> simp [hold, hd.ne']
    rw [hdocs, fieldDataOf_append_singleton, docCount_indexField]
    split_ifs with hnil
    · rw [UInt32.add_zero]
      exact hcount
    · have hnew : docs.length ∉ (fieldDataOf f docs).docs := fun hmem ↦
        lt_irrefl _ (Finset.mem_range.1 (hrange hmem))
      have hle := (Finset.card_le_card hrange).trans_eq (Finset.card_range _)
      rw [Finset.card_insert_of_notMem hnew, UInt32.toNat_add, hcount]
      rw [kNoMoreDocs] at hlen
      exact Nat.mod_eq_of_lt (by
        have hone : (1 : UInt32).toNat = 1 := rfl
        omega)

end Field

/-! ### The segment -/

section Segment

variable {f : FieldMapping} {held : List Document} {schema : Schema}

theorem fieldInverts_fieldDataOf (hlen : held.length ≤ kNoMoreDocs)
    (hfit : ∀ doc ∈ held, ∀ term, occurrences term (docTokens f doc) < 2 ^ 32) :
    FieldInverts f held (fieldDataOf f held) where
  sorted term := by
    rw [list_fieldDataOf]
    exact postingsOf_pairwise f held term
  lt term p hp := by
    rw [list_fieldDataOf] at hp
    obtain ⟨doc, hdoc, -⟩ := posting_spec hp
    exact (List.getElem?_eq_some_iff.1 hdoc).1
  tf_pos term p hp := by
    rw [list_fieldDataOf] at hp
    obtain ⟨doc, hdoc, hpos, hspec⟩ := posting_spec hp
    rwa [(hspec (hfit doc (List.mem_of_getElem? hdoc) term)).1]
  tf term d k hk := by
    rw [list_fieldDataOf]
    constructor
    · rintro ⟨p, hp, rfl, rfl⟩
      obtain ⟨doc, hdoc, -, hspec⟩ := posting_spec hp
      exact ⟨doc, hdoc, (hspec (hfit doc (List.mem_of_getElem? hdoc) term)).1.symm⟩
    · rintro ⟨doc, hdoc, rfl⟩
      obtain ⟨p, hp, rfl⟩ := exists_mem_postingsOf_iff.2 ⟨doc, hdoc, occurrences_pos_iff.1 hk⟩
      obtain ⟨doc', hdoc', -, hspec⟩ := posting_spec hp
      cases hdoc.symm.trans hdoc'
      exact ⟨p, hp, rfl, (hspec (hfit doc (List.mem_of_getElem? hdoc) term)).1⟩
  firstPos term p hp := by
    rw [list_fieldDataOf] at hp
    obtain ⟨doc, hdoc, -, hspec⟩ := posting_spec hp
    exact ⟨doc, hdoc, (hspec (hfit doc (List.mem_of_getElem? hdoc) term)).2⟩
  sumFieldLength := sumFieldLength_fieldDataOf f held hfit
  docCount := docCount_fieldDataOf f held hlen

variable [LibcDecimal]

theorem addDocuments_of_rejected {seg : MutableSegment} {doc : Document} {e : Status}
    (h : seg.addDocument doc = .error e) : seg.addDocuments [doc] = seg := by
  rw [MutableSegment.addDocuments, h, MutableSegment.addDocuments]

/-- A count that does not fit is not the `tf` of a posting. -/
theorem countsFit_of_inverts (h : Inverts (MutableSegment.build schema held) held) :
    CountsFit schema held := by
  intro f hf doc hdoc term
  obtain ⟨i, hi⟩ := List.mem_iff_getElem?.1 hf
  obtain ⟨d, hd⟩ := List.mem_iff_getElem?.1 hdoc
  have hfd : (MutableSegment.build schema held).fieldData[i]? = some (fieldDataOf f held) := by
    simp [MutableSegment.build, hi]
  rcases Nat.eq_zero_or_pos (occurrences term (docTokens f doc)) with hzero | hpos
  · rw [hzero]
    exact Nat.two_pow_pos 32
  · obtain ⟨p, -, -, htf⟩ := ((h.fields i f _ hi hfd).tf term d _ hpos).2 ⟨doc, hd, rfl⟩
    rw [← htf]
    exact p.tf.toNat_lt

theorem inverts_of_countsFit (hlen : held.length ≤ kNoMoreDocs) (hfit : CountsFit schema held) :
    Inverts (MutableSegment.build schema held) held where
  nextDocId := rfl
  fieldData_length := by simp [MutableSegment.build]
  fields i f fd hf hfd := by
    have hf' : schema.fields[i]? = some f := hf
    have hfd' : (MutableSegment.build schema held).fieldData[i]? = some (fieldDataOf f held) := by
      simp [MutableSegment.build, hf']
    cases hfd.symm.trans hfd'
    exact fieldInverts_fieldDataOf hlen (hfit f (List.mem_of_getElem? hf'))
  storedBlobs_length := by simp [MutableSegment.build]
  docIds := rfl
  docQuality_length hq := by
    have hq' : schema.storeDocQuality = true := hq
    simp [MutableSegment.build, hq']
  rejected _ _ := addDocuments_of_rejected

/-- **The inverted index**: any documents leave a segment in memory that inverts those it
accepted, as long as the counts fit in 32 bits, and only then. -/
theorem inverts_iff (schema : Schema) (docs : List Document) :
    Inverts ((MutableSegment.new schema).addDocuments docs) (MutableSegment.acceptedDocs docs) ↔
      CountsFit schema (MutableSegment.acceptedDocs docs) := by
  rw [MutableSegment.addDocuments_new]
  exact ⟨countsFit_of_inverts, inverts_of_countsFit (MutableSegment.acceptedDocs_length_le docs)⟩

end Segment

/-! ### A count too large -/

/-- A text of equal words. -/
def repeatedWord (n : ℕ) : Bytes := (List.replicate n (str "x ")).flatten

theorem repeatedWord_succ (n : ℕ) : repeatedWord (n + 1) = 120 :: 32 :: repeatedWord n := rfl

theorem dropWhile_repeatedWord (n : ℕ) :
    ((repeatedWord n).dropWhile fun c ↦ !isTokenChar c) = repeatedWord n := by
  cases n with
  | zero => rfl
  | succ n => exact List.dropWhile_cons_of_neg (by decide)

theorem occurrences_repeatedWord (n : ℕ) : ∀ (fuel : ℕ) (position : UInt32) (i : ℕ) (input : Bytes),
    (input.dropWhile fun c ↦ !isTokenChar c) = repeatedWord n → n < fuel →
      occurrences (str "x") (standardLoop fuel position i input) = n := by
  induction n with
  | zero =>
    rintro (- | fuel) position i input h hfuel
    · cases hfuel
    · rw [standardLoop, h]
      rfl
  | succ n ih =>
    rintro (- | fuel) position i input h hfuel
    · cases hfuel
    · have hword : (repeatedWord (n + 1)).takeWhile isTokenChar = [120] := by
        rw [repeatedWord_succ, List.takeWhile_cons_of_pos (by decide),
          List.takeWhile_cons_of_neg (by decide)]
      have hafter : (repeatedWord (n + 1)).dropWhile isTokenChar = 32 :: repeatedWord n := by
        rw [repeatedWord_succ, List.dropWhile_cons_of_pos (by decide),
          List.dropWhile_cons_of_neg (by decide)]
      have hrest : ((32 :: repeatedWord n).dropWhile fun c ↦ !isTokenChar c) = repeatedWord n := by
        rw [List.dropWhile_cons_of_pos (by decide), dropWhile_repeatedWord]
      have hlower : [120].map asciiLower = str "x" := by decide
      have hstop : str "x" ∉ stopWords := by decide
      rw [standardLoop, h]
      dsimp only
      rw [if_neg (by rw [repeatedWord_succ]; exact List.cons_ne_nil _ _), hword, hafter, hlower,
        if_neg hstop, occurrences, List.countP_cons_of_pos (by simp)]
      exact congrArg Nat.succ (ih fuel _ _ _ hrest (Nat.lt_of_succ_lt_succ hfuel))

/-- A schema with one text field. -/
def wordSchema : Schema where
  fields := [
    { name := Schema.kIdField, type := .keyword, stored := true, analyzer := str "keyword" },
    { name := str "t" }]
  name_ne_nil := by decide
  nodup_names := by decide
  length_le := by decide

/-- A document of equal words. -/
def wordDoc (n : ℕ) : Document :=
  { id := str "a", fields := SortedMap.empty.insert (str "t") (repeatedWord n) }

theorem occurrences_wordDoc (n : ℕ) :
    occurrences (str "x") (docTokens { name := str "t" } (wordDoc (n + 1))) = n + 1 := by
  have htokens : docTokens { name := str "t" } (wordDoc (n + 1)) =
      standardLoop (repeatedWord (n + 1)).length 0 0 (repeatedWord (n + 1)) := rfl
  have hlen : (repeatedWord (n + 1)).length = 2 * (n + 1) := by
    simp [repeatedWord, str]
    omega
  rw [htokens]
  exact occurrences_repeatedWord (n + 1) _ _ _ _ (dropWhile_repeatedWord _) (by omega)

/-- With 2^32 times the same word the count wraps around to 0. -/
theorem not_inverts : ¬@Inverts .integral
    (@MutableSegment.addDocuments .integral (.new wordSchema) [wordDoc 4294967296])
    (MutableSegment.acceptedDocs [wordDoc 4294967296]) := by
  have hheld : MutableSegment.acceptedDocs [wordDoc 4294967296] = [wordDoc 4294967296] := by
    refine MutableSegment.acceptedDocs_eq_self (fun d hd ↦ ?_) (by decide)
    rw [List.mem_singleton.1 hd]
    exact List.cons_ne_nil _ _
  rw [@MutableSegment.addDocuments_new .integral, hheld]
  intro h
  have hfit := @countsFit_of_inverts [wordDoc 4294967296] wordSchema .integral h
    { name := str "t" } (by decide) _ List.mem_cons_self (str "x")
  rw [occurrences_wordDoc 4294967295] at hfit
  exact absurd hfit (by decide)

end Spp.Index
