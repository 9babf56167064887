import SearchPlusPlus.Query.Boost

/-!
# The frequencies that the stages read

Stage 2 builds the iterator of a leaf with the flags of its field, and stage 1 builds one without.
So stage 2 sees the posting of every leaf. Stage 1 reads a payload as the next gap and frequency:
it sees the posting of a leaf where no payload lies before it, and elsewhere only if the bytes
from the first payload on happen to spell its document and frequency (`seesPosting_iff`).
-/

namespace Spp.Query

open Index Store

/-! ### Bytes that are read without payloads -/

/-- The documents and frequencies that bytes spell, at most so many: gaps from a document on, each
with a frequency and no payload, up to the first bytes that are no number. -/
def spelled : ℕ → UInt32 → Bytes → List (ℕ × UInt32)
  | 0, _, _ => []
  | n + 1, prev, bytes =>
    match decodeVarUint32 bytes with
    | (.error _, _) => []
    | (.ok gap, bytes) =>
      match decodeVarUint32 bytes with
      | (.error _, _) => []
      | (.ok tf, bytes) => ((prev + gap).toNat, tf) :: spelled n (prev + gap) bytes

/-- The frequency of a document, if the first of the pairs from it on is its own. -/
def spelledFreq (pairs : List (ℕ × UInt32)) (docId : ℕ) : Option UInt32 :=
  ((pairs.find? (docId ≤ ·.1)).filter (·.1 = docId)).map (·.2)

namespace TermIterator

variable {it : TermIterator}

/-- `Next` without flags, when the bytes spell a pair. -/
theorem next_plain (hpos : it.hasPositions = false) (hw : it.hasTokenWeights = false) {n : ℕ}
    (hrem : it.remaining.toNat = n + 1) (hfresh : it.started = false → it.prev = 0) :
    (spelled (n + 1) it.prev it.rest = [] ∧ it.next.1 = kNoMoreDocs) ∨
      ∃ d tf it', spelled (n + 1) it.prev it.rest = (d, tf) :: spelled n it'.prev it'.rest ∧
        it.next = (d, it') ∧ it'.current = d ∧ it'.currentFreq = tf ∧ it'.started = true ∧
        it'.remaining.toNat = n ∧ it'.hasPositions = false ∧ it'.hasTokenWeights = false := by
  have hne : it.remaining ≠ 0 := fun hzero ↦ by rw [hzero] at hrem; cases hrem
  have hsub : (it.remaining - 1).toNat = n := by
    rw [UInt32.toNat_sub_of_le _ _ (by rw [UInt32.le_iff_toNat_le, hrem]; exact Nat.succ_pos n),
      hrem]
    rfl
  rw [next, if_neg hne, spelled]
  by_cases hrest : it.rest = []
  · rw [if_pos hrest, hrest]
    exact Or.inl ⟨rfl, rfl⟩
  rw [if_neg hrest]
  rcases hgap : decodeVarUint32 it.rest with ⟨- | gap, rest⟩
  · exact Or.inl ⟨rfl, rfl⟩
  dsimp only
  rcases htf : decodeVarUint32 rest with ⟨- | tf, rest'⟩
  · exact Or.inl ⟨rfl, rfl⟩
  have hd : (if it.started then it.prev + gap else gap) = it.prev + gap := by
    split
    · rfl
    · next hstart => rw [hfresh (by simpa using hstart), UInt32.zero_add]
  simp only [readPosition, readWeight, hpos, hw, Bool.false_eq_true, if_false, arrive, hd]
  exact Or.inr ⟨_, tf, _, rfl, rfl, rfl, rfl, rfl, hsub, rfl, rfl⟩

/-- **`Advance` without flags** reads the frequency that the bytes spell. -/
theorem advanceLoop_plain {target : ℕ} (htarget : target < kNoMoreDocs) :
    ∀ (n : ℕ) (it : TermIterator), it.remaining.toNat = n → it.hasPositions = false →
      it.hasTokenWeights = false → (it.started = false → it.prev = 0) →
      (it.current < target ∨ it.started = false) →
      (if (it.advanceLoop (n + 1) target).1 = target then
        some (it.advanceLoop (n + 1) target).2.currentFreq else none) =
        spelledFreq (spelled n it.prev it.rest) target := by
  intro n
  induction n with
  | zero =>
    intro it hrem hpos hw hfresh hgo
    have hzero : it.remaining = 0 := UInt32.toNat_inj.1 hrem
    rw [advanceLoop, if_pos hgo, next, if_pos hzero, exhausted]
    simp only [if_pos, if_neg htarget.ne']
    rfl
  | succ n ih =>
    intro it hrem hpos hw hfresh hgo
    rw [advanceLoop, if_pos hgo]
    rcases next_plain hpos hw hrem hfresh with ⟨hnil, hnext⟩ |
        ⟨d, tf, it', hcons, hnext, hcurrent, hfreq, hstart, hrem', hpos', hw'⟩
    · simp only [hnext, if_true, if_neg htarget.ne', hnil]
      rfl
    · rw [hcons, hnext]
      dsimp only
      by_cases hlast : d = kNoMoreDocs
      · simp only [if_pos hlast, if_neg htarget.ne']
        rw [spelledFreq, hlast, List.find?_cons_of_pos (by simpa using htarget.le),
          Option.filter_some_neg (by simpa using htarget.ne')]
        rfl
      simp only [if_neg hlast]
      by_cases hd : target ≤ d
      · simp only [if_pos hd]
        rw [spelledFreq, List.find?_cons_of_pos (by simpa using hd)]
        by_cases heq : d = target
        · rw [if_pos heq, Option.filter_some_pos (by simpa using heq), hfreq]
          rfl
        · rw [if_neg heq, Option.filter_some_neg (by simpa using heq)]
          rfl
      · simp only [if_neg hd]
        rw [spelledFreq, List.find?_cons_of_neg (by simpa using hd)]
        exact ih it' hrem' hpos' hw' (fun h ↦ by rw [hstart] at h; cases h)
          (Or.inl (hcurrent ▸ not_le.1 hd))

end TermIterator


/-- The bytes behind the frequency of the first posting of a list: its payload, and the later
postings with theirs. -/
def behindFirst (hasPositions hasTokenWeights : Bool) (p : Posting) (pl : PostingList) : Bytes :=
  (if hasPositions then u16LE p.firstPos else []) ++
    ((if hasTokenWeights then [quantizeTokenWeight p.maxTokenWeight] else []) ++
      encodePostings hasPositions hasTokenWeights p.docId pl)

/-- The first posting is spelled as it is, whatever its payload. -/
theorem spelled_encodePostings {hasPositions hasTokenWeights : Bool} {p : Posting}
    {pl : PostingList} (hp : p.docId < kNoMoreDocs) (n : ℕ) :
    spelled (n + 1) 0 (encodePostings hasPositions hasTokenWeights 0 (p :: pl)) =
      (p.docId, p.tf) ::
        spelled n (UInt32.ofNat p.docId) (behindFirst hasPositions hasTokenWeights p pl) := by
  have hid : (UInt32.ofNat p.docId).toNat = p.docId := by
    rw [UInt32.toNat_ofNat']
    exact Nat.mod_eq_of_lt (by rw [kNoMoreDocs] at hp; omega)
  have hbytes : encodePostings hasPositions hasTokenWeights 0 (p :: pl) =
      encodeVarUint32 (UInt32.ofNat p.docId) ++
        (encodeVarUint32 p.tf ++ behindFirst hasPositions hasTokenWeights p pl) := by
    rw [encodePostings, encodePosting, behindFirst, show UInt32.ofNat 0 = 0 from rfl,
      UInt32.sub_zero]
    simp only [List.append_assoc]
  rw [hbytes, spelled]
  simp only [decodeVarUint32_encode, UInt32.zero_add, hid]

/-- The field of a leaf stores positions. -/
def storesPositions (seg : SegmentReader) (l : LeafTerm) : Bool :=
  (seg.field (seg.getFieldId l.fieldName)).any (·.stats.hasPositions)

section Leaf

variable (seg : PostedSegment) (l : LeafTerm)

/-- The postings of a leaf, none if the segment has not its term. -/
def leafPostings : PostingList :=
  ((leafEntry seg.reader l).map fun p ↦ seg.postings p.1 l.text).getD []

variable {docId : ℕ}

variable {seg l} in
theorem postingOf_eq : postingOf seg l docId = (leafPostings seg l).find? (·.docId = docId) := by
  rw [postingOf, leafPostings]
  cases leafEntry seg.reader l <;> rfl

theorem sorted_leafPostings :
    ((leafPostings seg l).Pairwise fun a b ↦ a.docId < b.docId) ∧
      ∀ p ∈ leafPostings seg l, p.docId < kNoMoreDocs := by
  rw [leafPostings]
  cases leafEntry seg.reader l with
  | none => exact ⟨.nil, fun p hp ↦ absurd hp List.not_mem_nil⟩
  | some p =>
    exact ⟨seg.sorted _ _, fun q hq ↦ (seg.lt _ _ q hq).trans_le seg.docCount_le⟩

variable {seg l}

/-- **Stage 1** reads what the bytes of a posting list spell without payloads. -/
theorem stage1Freq_spelled (hd : docId < kNoMoreDocs) :
    stage1Freq seg.reader docId l =
      spelledFreq (spelled (leafPostings seg l).length 0
        (encodePostings (storesPositions seg.reader l) (storesWeights seg.reader l) 0
          (leafPostings seg l))) docId := by
  have hlist := sorted_leafPostings seg l
  rw [stage1Freq]
  rw [leafPostings] at hlist ⊢
  cases hentry : leafEntry seg.reader l with
  | none => rfl
  | some p =>
    obtain ⟨fieldId, te⟩ := p
    obtain ⟨rfl, -, hfind⟩ := leafEntry_eq_some hentry
    rw [hentry] at hlist
    simp only [Option.map_some, Option.getD_some] at hlist ⊢
    set pl := seg.postings (seg.reader.getFieldId l.fieldName) l.text
    have hlen : pl.length < 2 ^ 32 := by
      have := length_le_of_pairwise_docId hlist.1 hlist.2
      rw [kNoMoreDocs] at this
      omega
    have hcount : (UInt32.ofNat pl.length).toNat = pl.length := by
      rw [UInt32.toNat_ofNat']
      exact Nat.mod_eq_of_lt hlen
    set it := TermIterator.new
      (seg.reader.postingBytes (seg.reader.getFieldId l.fieldName) te) te.df te.totalTf with hit
    rw [seg.bytes _ _ _ hfind, writePostings, TermIterator.new, decodeVarUint32_encode] at hit
    have hrem : it.remaining.toNat = pl.length := (congrArg (·.remaining.toNat) hit).trans hcount
    have hrun := TermIterator.advanceLoop_plain hd pl.length it hrem rfl rfl (fun _ ↦ rfl)
      (Or.inr rfl)
    rw [show it.rest = _ from congrArg (·.rest) hit] at hrun
    rw [Option.bind_some, seekPosting]
    dsimp only
    rw [TermIterator.advance, apply_ite (Option.map _), hrem]
    exact hrun

/-- No payload of a leaf lies before its posting in a document: its field stores none, or its
list (empty, if the segment has not the term) has no second posting or begins at the document
or behind it. -/
def PayloadFree (seg : PostedSegment) (docId : ℕ) (l : LeafTerm) : Prop :=
  PlainField seg.reader l.fieldName ∨ (leafPostings seg l).length ≤ 1 ∨
    ∀ p ∈ leafPostings seg l, docId ≤ p.docId

/-- The bytes from the first payload on spell the frequency that the posting of a document has,
or none where it has none. -/
def PayloadSpells (seg : PostedSegment) (docId : ℕ) (l : LeafTerm) : Prop :=
  ∃ p pl, leafPostings seg l = p :: pl ∧
    spelledFreq (spelled pl.length (UInt32.ofNat p.docId)
        (behindFirst (storesPositions seg.reader l) (storesWeights seg.reader l) p pl)) docId =
      (pl.find? (·.docId = docId)).map (·.tf)

/-- Stage 1 reads the first posting as it is, and what the bytes behind it spell. -/
theorem stage1Freq_cons (hd : docId < kNoMoreDocs) {p : Posting} {pl : PostingList}
    (hpl : leafPostings seg l = p :: pl) :
    stage1Freq seg.reader docId l =
      if docId ≤ p.docId then if p.docId = docId then some p.tf else none
      else spelledFreq (spelled pl.length (UInt32.ofNat p.docId)
        (behindFirst (storesPositions seg.reader l) (storesWeights seg.reader l) p pl)) docId := by
  have hp : p.docId < kNoMoreDocs :=
    (sorted_leafPostings seg l).2 p (hpl ▸ List.mem_cons_self)
  rw [stage1Freq_spelled hd, hpl, List.length_cons, spelled_encodePostings hp, spelledFreq]
  split_ifs with hle heq
  · rw [List.find?_cons_of_pos (by simpa using hle), Option.filter_some_pos (by simpa using heq)]
    rfl
  · rw [List.find?_cons_of_pos (by simpa using hle), Option.filter_some_neg (by simpa using heq)]
    rfl
  · rw [List.find?_cons_of_neg (by simpa using hle)]
    rfl

/-- The posting of a document, in a list that begins before it. -/
theorem postingOf_cons {p : Posting} {pl : PostingList} (hpl : leafPostings seg l = p :: pl)
    (hlt : p.docId < docId) : postingOf seg l docId = pl.find? (·.docId = docId) := by
  rw [postingOf_eq, hpl, List.find?_cons_of_neg (by simpa using hlt.ne)]

/-- **Stage 1** reads the posting of a leaf exactly where no payload lies before it, or the bytes
happen to spell it. -/
theorem stage1Freq_eq_iff (hd : docId < kNoMoreDocs) :
    stage1Freq seg.reader docId l = (postingOf seg l docId).map (·.tf) ↔
      PayloadFree seg docId l ∨ PayloadSpells seg docId l := by
  by_cases hplain : PlainField seg.reader l.fieldName
  · exact iff_of_true (stage1Freq_eq hplain hd) (Or.inl (Or.inl hplain))
  cases hpl : leafPostings seg l with
  | nil =>
    refine iff_of_true ?_ (Or.inl (Or.inr (Or.inl (hpl ▸ Nat.zero_le 1))))
    rw [stage1Freq_spelled hd, postingOf_eq, hpl]
    rfl
  | cons p pl =>
    have hlist := sorted_leafPostings seg l
    rw [hpl] at hlist
    obtain ⟨hlt, -⟩ := List.pairwise_cons.1 hlist.1
    rw [stage1Freq_cons hd hpl]
    by_cases hle : docId ≤ p.docId
    · have hfrom : ∀ q ∈ leafPostings seg l, docId ≤ q.docId := by
        intro q hq
        rw [hpl] at hq
        rcases List.mem_cons.1 hq with rfl | hq
        exacts [hle, hle.trans (hlt q hq).le]
      refine iff_of_true ?_ (Or.inl (Or.inr (Or.inr hfrom)))
      rw [if_pos hle, postingOf_eq, hpl]
      by_cases heq : p.docId = docId
      · rw [if_pos heq, List.find?_cons_of_pos (by simpa using heq)]
        rfl
      · rw [if_neg heq, List.find?_eq_none.2]
        · rfl
        · intro q hq
          have hpd : docId < p.docId := lt_of_le_of_ne hle (Ne.symm heq)
          rcases List.mem_cons.1 hq with rfl | hq
          · simpa using heq
          · simpa using (hpd.trans (hlt q hq)).ne'
    · rw [if_neg hle, postingOf_cons hpl (not_le.1 hle)]
      constructor
      · exact fun h ↦ Or.inr ⟨p, pl, hpl, h⟩
      · rintro ((h | h | h) | ⟨p', pl', hpl', h⟩)
        · exact absurd h hplain
        · rw [hpl, List.length_cons] at h
          obtain rfl := List.length_eq_zero_iff.1 (Nat.le_zero.1 (Nat.le_of_succ_le_succ h))
          rfl
        · exact absurd (h p (hpl ▸ List.mem_cons_self)) hle
        · obtain ⟨rfl, rfl⟩ := List.cons.inj (hpl.symm.trans hpl')
          exact h

end Leaf

section Frequencies

variable {R : Type} [Arith R] (r : IndexReader) (leaves : List LeafTerm)

/-- The frequency that stage 2 collects for a leaf in a document, if it is matched. -/
def stage2Freq (seg : SegmentReader) (docId : ℕ) (l : LeafTerm) : Option UInt32 :=
  let item : LeafContextItem R := leafContextItem r leaves (some seg) docId l
  if item.matched then some item.tf else none

/-- **Stage 2** reads the posting of a leaf. -/
theorem stage2Freq_eq (seg : PostedSegment) {docId : ℕ} (hd : docId < kNoMoreDocs) (l : LeafTerm) :
    stage2Freq (R := R) r leaves seg.reader docId l = (postingOf seg l docId).map (·.tf) := by
  have hitem : ItemOf r leaves l
      (leafContextItem r leaves (some seg.reader) docId l : LeafContextItem R) _ _ _ :=
    itemOf_leafContextItem r leaves l hd
  rw [stage2Freq, hitem.matched]
  cases hp : postingOf seg l docId with
  | none => rfl
  | some p => rw [hitem.tf p hp]; rfl

end Frequencies

/-! ### Both stages -/

/-- Both stages see the posting of a leaf in a document, or that there is none. -/
structure SeesPosting (R : Type) [Arith R] (r : IndexReader) (leaves : List LeafTerm)
    (seg : PostedSegment) (docId : ℕ) (l : LeafTerm) : Prop where
  stage1 : stage1Freq seg.reader docId l = (postingOf seg l docId).map (·.tf)
  stage2 : stage2Freq (R := R) r leaves seg.reader docId l = stage1Freq seg.reader docId l

/-- A field with positions and weights. -/
def payloadField : FieldMapping where
  name := str "b"
  positionDecay := F32.one
  storeTokenWeights := true

/-- A schema with it. -/
def payloadSchema : Schema where
  fields := [
    { name := Schema.kIdField, type := .keyword, stored := true, analyzer := str "keyword" },
    payloadField]
  name_ne_nil := by decide
  nodup_names := by decide
  length_le := by decide

/-- A document with a token in it. -/
def payloadDoc : Document where
  id := str "a"
  fields := SortedMap.empty.insert (str "b") (str "x")

/-- Two of them. -/
def payloadDocs : MutableSegment :=
  @MutableSegment.build .integral payloadSchema [payloadDoc, payloadDoc]

theorem wellFormed_payloadDocs : payloadDocs.WellFormed :=
  @MutableSegment.build_wellFormed .integral payloadSchema _ (by decide)

theorem encodable_payloadDocs : payloadDocs.Encodable :=
  MutableSegment.encodable_of_fieldBytes (by decide) (by decide +kernel) (by decide +kernel)
    (by decide +kernel) (by decide +kernel)

/-- Their segment. -/
def payloadSegment : PostedSegment :=
  have hagrees : Agrees (payloadDocs.sealedReader (str "seg") payloadDocs.qualities) payloadDocs :=
    agrees_sealedReader wellFormed_payloadDocs encodable_payloadDocs fun _ ↦ rfl
  .ofSealed hagrees wellFormed_payloadDocs

/-- Their index. -/
def payloadIndex : PostedIndex := { schema := payloadSchema, segments := [payloadSegment] }

/-- The leaf of their word. -/
def payloadLeaf : LeafTerm := { fieldName := str "b", text := str "x" }

/-- A posting of it. -/
def payloadPosting (docId : ℕ) : Posting :=
  { docId, tf := 1, firstPos := 0, maxTokenWeight := F32.one }

theorem collectLeaves_payload :
    collectLeaves payloadSchema (.term (str "b") (str "x")) = [payloadLeaf] := by
  decide

theorem leafPostings_payload :
    leafPostings payloadSegment payloadLeaf = [payloadPosting 0, payloadPosting 1] := by
  decide +kernel

theorem matching_payload {docId : ℕ} (h : docId < 2) :
    docId ∈ matching payloadSegment payloadSchema (.term (str "b") (str "x")) := by
  obtain ⟨p, hp⟩ : ∃ p, postingOf payloadSegment payloadLeaf docId = some p := by
    rw [postingOf_eq, leafPostings_payload]
    interval_cases docId <;> exact ⟨_, rfl⟩
  have hleaf : IsLeaf payloadSchema payloadLeaf := collectLeaves_payload
  exact matching_of_posting hleaf hp

theorem payloadFree_payload : PayloadFree payloadSegment 0 payloadLeaf :=
  Or.inr (Or.inr fun _ _ ↦ Nat.zero_le _)

/-- Without flags, the position and the weight of the first posting are read as the second one. -/
theorem not_reads_payload :
    ¬(PayloadFree payloadSegment 1 payloadLeaf ∨ PayloadSpells payloadSegment 1 payloadLeaf) := by
  rw [PayloadFree, PayloadSpells, leafPostings_payload]
  rintro ((⟨h, -⟩ | h | h) | ⟨p, pl, hpl, h⟩)
  · revert h
    decide +kernel
  · exact absurd h (by decide)
  · exact absurd (h (payloadPosting 0) List.mem_cons_self) (by decide)
  · obtain ⟨rfl, rfl⟩ := List.cons.inj hpl
    revert h
    decide +kernel

/-- **Stage 1 and stage 2** see the posting of a leaf in a document exactly where no payload lies
before it, or the bytes from the first payload on spell it. -/
theorem seesPosting_iff (R : Type) [Arith R] (ix : PostedIndex) (q : QueryAst) :
    ∀ seg ∈ ix.segments, ∀ docId ∈ matching seg ix.schema q, ∀ l ∈ collectLeaves ix.schema q,
      (SeesPosting R ix.reader (collectLeaves ix.schema q) seg docId l ↔
        PayloadFree seg docId l ∨ PayloadSpells seg docId l) := by
  rintro seg - docId hmatch l -
  have hd : docId < kNoMoreDocs :=
    (lt_docCount_of_matching seg ix.schema q _ hmatch).trans_le seg.docCount_le
  rw [← stage1Freq_eq_iff hd]
  exact ⟨(·.stage1), fun h ↦ ⟨h, (stage2Freq_eq _ _ seg hd l).trans h.symm⟩⟩

/-- The first document of the sample is seen, the second one is not. -/
theorem seesPosting_iff_sample :
    let leaves := collectLeaves payloadSchema (.term (str "b") (str "x"))
    SeesPosting ℝ payloadIndex.reader leaves payloadSegment 0 payloadLeaf ∧
      ¬SeesPosting ℝ payloadIndex.reader leaves payloadSegment 1 payloadLeaf := by
  have hseg : payloadSegment ∈ payloadIndex.segments := List.mem_singleton.2 rfl
  have hleaf : payloadLeaf ∈ collectLeaves payloadIndex.schema (.term (str "b") (str "x")) :=
    collectLeaves_payload ▸ List.mem_singleton.2 rfl
  exact ⟨(seesPosting_iff ℝ payloadIndex _ _ hseg 0 (matching_payload (by decide)) _ hleaf).2
      (Or.inl payloadFree_payload),
    fun h ↦ not_reads_payload
      ((seesPosting_iff ℝ payloadIndex _ _ hseg 1 (matching_payload (by decide)) _ hleaf).1 h)⟩

/-- The second posting of a word in a field with positions and weights is not seen. -/
theorem not_seesPosting : ¬∀ (ix : PostedIndex) (q : QueryAst), ∀ seg ∈ ix.segments,
    ∀ docId ∈ matching seg ix.schema q, ∀ l ∈ collectLeaves ix.schema q,
      SeesPosting ℝ ix.reader (collectLeaves ix.schema q) seg docId l := by
  intro hsees
  have hposting := hsees payloadIndex (.term (str "b") (str "x")) payloadSegment
    (List.mem_singleton.2 rfl) 1 (matching_payload (by decide)) payloadLeaf
    (collectLeaves_payload ▸ List.mem_singleton.2 rfl)
  exact not_reads_payload ((stage1Freq_eq_iff (by decide)).1 hposting.stage1)

end Spp.Query
