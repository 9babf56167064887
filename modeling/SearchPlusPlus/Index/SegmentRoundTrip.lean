import Mathlib.Algebra.Order.BigOperators.Group.List
import SearchPlusPlus.Index.SegmentReader
import SearchPlusPlus.Index.SegmentWriter

/-!
# What is sealed is what is opened

The reader's cursor operations invert the writer's encoders one by one; the buffers of
`SealSegment` have a closed form (`sealBuffers_fst`, `sealBuffers_snd`); and parsing that form
gives the reader `sealedReader`, whose fields, terms, posting blocks, blobs and qualities are
read off the segment.
-/

namespace Spp.Index

open Store

/-! ### Reads invert encoders -/

theorem readVarUint32_encode (v : UInt32) (rest : Bytes) :
    readVarUint32 (encodeVarUint32 v ++ rest) = .ok (v, rest) := by
  simp [readVarUint32, Except.map]

theorem readVarUint64_encode (v : UInt64) (rest : Bytes) :
    readVarUint64 (encodeVarUint64 v ++ rest) = .ok (v, rest) := by
  simp [readVarUint64, Except.map]

theorem readStr_encode {s : Bytes} (hs : s.length < 2 ^ 32) (rest : Bytes) :
    readStr (encodeStr s ++ rest) = .ok (s, rest) := by
  have hlen : (UInt32.ofNat s.length).toNat = s.length := by
    rw [UInt32.toNat_ofNat']
    exact Nat.mod_eq_of_lt hs
  simp only [readStr, encodeStr, List.append_assoc, bind, StateT.bind, Except.bind,
    readVarUint32_encode, hlen, readBytes]
  rw [if_neg (by simp)]
  simp

theorem readFlags_encode (a b : Bool) (rest : Bytes) :
    readFlags ([if a then 1 else 0] ++ ([if b then 1 else 0] ++ rest)) = .ok ((a, b), rest) := by
  cases a <;> cases b <;> rfl

theorem require_of_true {ok : Bool} (h : ok = true) (e : Status) (bytes : Bytes) :
    require ok e bytes = .ok ((), bytes) := if_pos h

theorem readFieldStats_encode {fs : FieldStats} (hname : fs.name.length < 2 ^ 32) (rest : Bytes) :
    readFieldStats (encodeFieldStats fs ++ rest) = .ok (fs, rest) := by
  simp only [readFieldStats, encodeFieldStats, List.append_assoc, bind, StateT.bind, Except.bind,
    readStr_encode hname, readVarUint32_encode, readVarUint64_encode, readF32LE_append,
    readFlags_encode]
  rfl

/-- A counted loop reads back a list of encodings. -/
theorem readMany_encode {α : Type} (read : Cursor α) (encode : α → Bytes) {l : List α}
    (h : ∀ a ∈ l, ∀ rest, read (encode a ++ rest) = .ok (a, rest)) (rest : Bytes) :
    readMany read l.length (l.flatMap encode ++ rest) = .ok (l, rest) := by
  induction l with
  | nil => rfl
  | cons a l ih =>
    have ih' := ih fun b hb ↦ h b (List.mem_cons_of_mem _ hb)
    simp only [List.length_cons, readMany, List.flatMap_cons, List.append_assoc, bind,
      StateT.bind, Except.bind, h a List.mem_cons_self, ih']
    rfl

/-- The `.tim` bytes of an entry. -/
def encodeTermEntry (te : TermEntry) : Bytes :=
  encodeStr te.term ++ encodeVarUint32 te.df ++ encodeVarUint64 te.totalTf ++
    encodeVarUint64 te.postingsOffset ++ encodeVarUint64 te.postingsBytes

theorem readTermEntry_encode {te : TermEntry} (hterm : te.term.length < 2 ^ 32) (rest : Bytes) :
    readTermEntry (encodeTermEntry te ++ rest) = .ok (te, rest) := by
  simp only [readTermEntry, encodeTermEntry, List.append_assoc, bind, StateT.bind, Except.bind,
    readStr_encode hterm, readVarUint32_encode, readVarUint64_encode]
  rfl

theorem encodeTermEntry_length_pos (te : TermEntry) : 0 < (encodeTermEntry te).length := by
  have := encodeVarUint32_length_pos te.df
  simp only [encodeTermEntry, List.length_append]
  omega

/-- The `.tim` loop reads back the entries of a field, with any fuel that covers their bytes. -/
theorem readTermEntries_encode {tes : List TermEntry} (h : ∀ te ∈ tes, te.term.length < 2 ^ 32) :
    ∀ fuel, (tes.flatMap encodeTermEntry).length ≤ fuel →
      readTermEntries fuel (tes.flatMap encodeTermEntry) = .ok tes := by
  induction tes with
  | nil => rintro (- | fuel) - <;> rfl
  | cons te tes ih =>
    intro fuel hfuel
    have hpos := encodeTermEntry_length_pos te
    rw [List.flatMap_cons, List.length_append] at hfuel
    obtain ⟨fuel, rfl⟩ : ∃ k, fuel = k + 1 := ⟨fuel - 1, by omega⟩
    have hne : encodeTermEntry te ++ tes.flatMap encodeTermEntry ≠ [] := fun h' ↦ by
      have := congrArg List.length h'
      rw [List.length_append, List.length_nil] at this
      omega
    rw [List.flatMap_cons, readTermEntries, if_neg hne,
      readTermEntry_encode (h te List.mem_cons_self)]
    simp only [bind, Except.bind, ih (fun t ht ↦ h t (List.mem_cons_of_mem _ ht)) fuel (by omega)]
    rfl

/-! ### The closed form of the buffers -/

/-- A posting list in document order, as `SealSegment` writes it. -/
def sortPostings (pl : PostingList) : PostingList := pl.mergeSort fun a b ↦ a.docId ≤ b.docId

/-- The byte block `WritePostings` produces for a term of a field. -/
def postingBlock (fm : FieldMapping) (pl : PostingList) : Bytes :=
  writePostings (sortPostings pl) (F32.lt F32.zero fm.positionDecay) fm.storeTokenWeights

/-- The sum of the term frequencies of a list. -/
def totalTfOf (pl : PostingList) : UInt64 :=
  (sortPostings pl).foldl (fun sum p ↦ sum + UInt64.ofNat p.tf.toNat) 0

/-- The dictionary entry of a term whose block starts at `rel` in its field. -/
def termEntryAt (fm : FieldMapping) (rel : ℕ) (p : Bytes × PostingList) : TermEntry :=
  { term := p.1
    df := UInt32.ofNat (sortPostings p.2).length
    totalTf := totalTfOf p.2
    postingsOffset := UInt64.ofNat rel
    postingsBytes := UInt64.ofNat (postingBlock fm p.2).length }

/-- The dictionary entries of consecutive terms. -/
def termEntriesFrom (fm : FieldMapping) : ℕ → List (Bytes × PostingList) → List TermEntry
  | _, [] => []
  | rel, p :: l => termEntryAt fm rel p :: termEntriesFrom fm (rel + (postingBlock fm p.2).length) l

/-- The `.doc` bytes of a field. -/
def docBlock (fm : FieldMapping) (l : List (Bytes × PostingList)) : Bytes :=
  l.flatMap fun p ↦ postingBlock fm p.2

/-- The `.tim` bytes of a field. -/
def timBlock (fm : FieldMapping) (l : List (Bytes × PostingList)) : Bytes :=
  (termEntriesFrom fm 0 l).flatMap encodeTermEntry

/-- The statistics of a field whose slices start at these offsets. -/
def fieldStatsAt (timOff docOff : ℕ) (p : FieldMapping × MutableFieldData) : FieldStats :=
  { name := p.1.name
    boost := p.1.boost
    positionDecay := p.1.positionDecay
    hasPositions := F32.lt F32.zero p.1.positionDecay
    hasTokenWeights := p.1.storeTokenWeights
    docCount := p.2.docCount
    sumFieldLength := p.2.sumFieldLength
    termCount := UInt64.ofNat p.2.postings.toList.length
    timOffset := UInt64.ofNat timOff
    timSize := UInt64.ofNat (timBlock p.1 p.2.postings.toList).length
    docOffset := UInt64.ofNat docOff
    docSize := UInt64.ofNat (docBlock p.1 p.2.postings.toList).length }

/-- The field table of consecutive fields. -/
def fieldTableFrom : ℕ → ℕ → List (FieldMapping × MutableFieldData) → List FieldStats
  | _, _, [] => []
  | timOff, docOff, p :: l =>
    fieldStatsAt timOff docOff p ::
      fieldTableFrom (timOff + (timBlock p.1 p.2.postings.toList).length)
        (docOff + (docBlock p.1 p.2.postings.toList).length) l

/-- The `.tim` bytes of consecutive fields. -/
def timBlocks (l : List (FieldMapping × MutableFieldData)) : Bytes :=
  l.flatMap fun p ↦ timBlock p.1 p.2.postings.toList

/-- The `.doc` bytes of consecutive fields. -/
def docBlocks (l : List (FieldMapping × MutableFieldData)) : Bytes :=
  l.flatMap fun p ↦ docBlock p.1 p.2.postings.toList

/-- The `.fdt` entry of a stored blob. -/
def storedEntry (blob : Bytes) : Bytes := encodeVarUint32 (UInt32.ofNat blob.length) ++ blob

/-- The `.fdx` offsets of consecutive blobs. -/
def offsetsFrom : ℕ → List Bytes → List UInt64
  | _, [] => []
  | off, b :: bs => UInt64.ofNat off :: offsetsFrom (off + (storedEntry b).length) bs

theorem ofNat_add_sub_ofNat (a b : ℕ) : UInt64.ofNat (a + b) - UInt64.ofNat a = UInt64.ofNat b := by
  rw [UInt64.ofNat_add, UInt64.add_comm, UInt64.add_sub_cancel]

/-- The term loop appends the entries and blocks of its terms. -/
theorem foldl_sealTerm (fm : FieldMapping) (fs : FieldStats) (off : ℕ)
    (hpos : fs.hasPositions = F32.lt F32.zero fm.positionDecay)
    (hw : fs.hasTokenWeights = fm.storeTokenWeights) (hoff : fs.docOffset = UInt64.ofNat off)
    (l : List (Bytes × PostingList)) :
    ∀ (bufs : SealBuffers) (rel : ℕ), bufs.doc.length = off + rel →
      l.foldl (sealTerm fs) bufs =
        { tim := bufs.tim ++ (termEntriesFrom fm rel l).flatMap encodeTermEntry
          doc := bufs.doc ++ docBlock fm l } := by
  induction l with
  | nil => simp [termEntriesFrom, docBlock]
  | cons p l ih =>
    intro bufs rel hlen
    obtain ⟨term, pl⟩ := p
    have hstep : sealTerm fs bufs (term, pl) =
        { tim := bufs.tim ++ encodeTermEntry (termEntryAt fm rel (term, pl))
          doc := bufs.doc ++ postingBlock fm pl } := by
      simp only [sealTerm, hpos, hw, hoff, hlen, List.length_append]
      rw [ofNat_add_sub_ofNat, ofNat_add_sub_ofNat]
      simp [encodeTermEntry, termEntryAt, postingBlock, sortPostings, totalTfOf]
    rw [List.foldl_cons, hstep, ih _ (rel + (postingBlock fm pl).length)
      (by rw [List.length_append, hlen, Nat.add_assoc])]
    simp [termEntriesFrom, docBlock]

/-- The field loop appends the slices and statistics of its fields. -/
theorem foldl_sealField (l : List (FieldMapping × MutableFieldData)) :
    ∀ (bufs : SealBuffers) (infos : List FieldStats),
      l.foldl sealField (bufs, infos) =
        ({ tim := bufs.tim ++ timBlocks l
           doc := bufs.doc ++ docBlocks l },
          infos ++ fieldTableFrom bufs.tim.length bufs.doc.length l) := by
  induction l with
  | nil => simp [timBlocks, docBlocks, fieldTableFrom]
  | cons p l ih =>
    intro bufs infos
    obtain ⟨fm, fd⟩ := p
    have hterms := foldl_sealTerm fm
      { name := fm.name
        boost := fm.boost
        positionDecay := fm.positionDecay
        hasPositions := F32.lt F32.zero fm.positionDecay
        hasTokenWeights := fm.storeTokenWeights
        docCount := fd.docCount
        sumFieldLength := fd.sumFieldLength
        termCount := UInt64.ofNat fd.postings.toList.length
        timOffset := UInt64.ofNat bufs.tim.length
        docOffset := UInt64.ofNat bufs.doc.length }
      bufs.doc.length rfl rfl rfl fd.postings.toList bufs 0 rfl
    have hstep : sealField (bufs, infos) (fm, fd) =
        ({ tim := bufs.tim ++ timBlock fm fd.postings.toList
           doc := bufs.doc ++ docBlock fm fd.postings.toList },
          infos ++ [fieldStatsAt bufs.tim.length bufs.doc.length (fm, fd)]) := by
      simp only [sealField, hterms, List.length_append, ofNat_add_sub_ofNat]
      rfl
    rw [List.foldl_cons, hstep, ih]
    simp [timBlocks, docBlocks, fieldTableFrom]

theorem foldl_sealBlob (blobs : List Bytes) :
    ∀ fdt fdx : Bytes, blobs.foldl sealBlob (fdt, fdx) =
      (fdt ++ blobs.flatMap storedEntry, fdx ++ (offsetsFrom fdt.length blobs).flatMap u64LE) := by
  induction blobs with
  | nil => simp [offsetsFrom]
  | cons b bs ih =>
    intro fdt fdx
    rw [List.foldl_cons, sealBlob, ih]
    simp [storedEntry, offsetsFrom]

namespace MutableSegment

/-- The fields of a segment with their mappings. -/
def mappedFields (seg : MutableSegment) : List (FieldMapping × MutableFieldData) :=
  seg.schema.fields.zip seg.fieldData

/-- The metadata `SealSegment` returns. -/
def sealedInfo (seg : MutableSegment) (stem : Bytes) : SegmentInfo :=
  { stem
    formatVersion := kSegmentFormatVersion
    docCount := seg.docCount
    fields := fieldTableFrom 0 0 seg.mappedFields }

end MutableSegment

/-- **The buffers of `SealSegment`** in closed form. -/
theorem sealBuffers_eq (seg : MutableSegment) (stem : Bytes) :
    sealBuffers seg stem =
      (seg.sealedInfo stem,
        { doc := docBlocks seg.mappedFields
          tim := timBlocks seg.mappedFields
          fdt := seg.storedBlobs.flatMap storedEntry
          fdx := u64LE (UInt64.ofNat seg.storedBlobs.length) ++
            (offsetsFrom 0 seg.storedBlobs).flatMap u64LE
          si := u32LE kSegmentFormatMagic ++ u32LE kSegmentFormatVersion ++
            u64LE (UInt64.ofNat seg.docCount) ++
            encodeStr (seg.sealedInfo stem).analyzerFingerprint ++
            encodeVarUint32 (UInt32.ofNat (seg.sealedInfo stem).fields.length) ++
            (seg.sealedInfo stem).fields.flatMap encodeFieldStats
          dvq := if seg.schema.storeDocQuality then some (encodeQuality seg) else none }) := by
  simp only [sealBuffers, foldl_sealField, foldl_sealBlob, List.nil_append, List.length_nil]
  rfl

/-! ### What a segment must satisfy -/

/-- What `AddDocument` keeps true of a segment. -/
structure MutableSegment.WellFormed (seg : MutableSegment) : Prop where
  /-- One entry of field data for each field. -/
  fieldData_length : seg.fieldData.length = seg.schema.fields.length
  /-- One blob for each document. -/
  storedBlobs_length : seg.storedBlobs.length = seg.docCount
  /-- One quality for each document, when qualities are stored. -/
  docQuality_length : seg.schema.storeDocQuality = true → seg.docQuality.length = seg.docCount
  /-- Ids stay below the sentinel. -/
  docCount_le : seg.docCount ≤ kNoMoreDocs
  /-- Posting lists are in document order, with ids in range. -/
  postings : ∀ fd ∈ seg.fieldData, ∀ p ∈ fd.postings.toList,
    (p.2.Pairwise fun a b ↦ a.docId < b.docId) ∧ ∀ q ∈ p.2, q.docId < seg.docCount

/-- The sizes the file format can express: strings and blobs below 2^32 bytes, buffers that a
64-bit `std::size_t` can measure, and no more terms in a field than a vector can hold. -/
structure MutableSegment.Encodable (seg : MutableSegment) : Prop where
  names : ∀ f ∈ seg.schema.fields, f.name.length < 2 ^ 32
  terms : ∀ fd ∈ seg.fieldData, ∀ p ∈ fd.postings.toList, p.1.length < 2 ^ 32
  blobs : ∀ b ∈ seg.storedBlobs, b.length < 2 ^ 32
  tim : (timBlocks seg.mappedFields).length < 2 ^ 64
  doc : (docBlocks seg.mappedFields).length < 2 ^ 64
  fdt : (seg.storedBlobs.flatMap storedEntry).length < 2 ^ 64
  termCounts : ∀ p ∈ seg.mappedFields, p.2.postings.toList.length ≤ kMaxTerms

/-- The sizes that opening its files depends on. -/
structure MutableSegment.Openable (seg : MutableSegment) : Prop where
  names : ∀ f ∈ seg.schema.fields, f.name.length < 2 ^ 32
  terms : ∀ fd ∈ seg.fieldData, ∀ p ∈ fd.postings.toList, p.1.length < 2 ^ 32
  tim : (timBlocks seg.mappedFields).length < 2 ^ 64
  termCounts : ∀ p ∈ seg.mappedFields, p.2.postings.toList.length ≤ kMaxTerms

theorem MutableSegment.Encodable.openable {seg : MutableSegment} (h : seg.Encodable) :
    seg.Openable :=
  ⟨h.names, h.terms, h.tim, h.termCounts⟩

theorem encodePostings_length_le (hasPositions hasTokenWeights : Bool) (pl : PostingList) :
    ∀ prev, (encodePostings hasPositions hasTokenWeights prev pl).length ≤ 13 * pl.length := by
  induction pl with
  | nil => exact fun _ ↦ le_rfl
  | cons p pl ih =>
    intro prev
    have hrest := ih p.docId
    have hdelta := encodeVarUint32_length_le (UInt32.ofNat p.docId - UInt32.ofNat prev)
    have htf := encodeVarUint32_length_le p.tf
    have hpos : (if hasPositions then u16LE p.firstPos else []).length ≤ 2 := by
      split_ifs <;> simp [u16LE]
    have hweight : (if hasTokenWeights then [quantizeTokenWeight p.maxTokenWeight] else []).length ≤
        1 := by
      split_ifs <;> simp
    rw [encodePostings, encodePosting]
    simp only [List.length_append, List.length_cons]
    omega

theorem postingBlock_length_le (fm : FieldMapping) (pl : PostingList) :
    (postingBlock fm pl).length ≤ 5 + 13 * pl.length := by
  have hcount := encodeVarUint32_length_le (UInt32.ofNat (sortPostings pl).length)
  have hlist := encodePostings_length_le (F32.lt F32.zero fm.positionDecay) fm.storeTokenWeights
    (sortPostings pl) 0
  have hsort : (sortPostings pl).length = pl.length := List.length_mergeSort pl
  rw [postingBlock, writePostings, List.length_append]
  omega

theorem encodeTermEntry_length_le (te : TermEntry) :
    (encodeTermEntry te).length ≤ 40 + te.term.length := by
  have hlen := encodeVarUint32_length_le (UInt32.ofNat te.term.length)
  have hdf := encodeVarUint32_length_le te.df
  have htf := encodeVarUint64_length_le te.totalTf
  have hoffset := encodeVarUint64_length_le te.postingsOffset
  have hbytes := encodeVarUint64_length_le te.postingsBytes
  rw [encodeTermEntry, encodeStr]
  simp only [List.length_append]
  omega

/-- A bound on what a field writes for its terms and their postings. -/
def fieldBytes (l : List (Bytes × PostingList)) : ℕ :=
  (l.map fun p ↦ 40 + p.1.length + 13 * p.2.length).sum

theorem fieldBytes_cons (p : Bytes × PostingList) (l : List (Bytes × PostingList)) :
    fieldBytes (p :: l) = 40 + p.1.length + 13 * p.2.length + fieldBytes l := by
  rw [fieldBytes, List.map_cons, List.sum_cons]
  rfl

theorem length_le_of_fieldBytes {l : List (Bytes × PostingList)} (h : fieldBytes l < 2 ^ 62) :
    l.length ≤ kMaxTerms := by
  have hle : 40 * l.length ≤ fieldBytes l := by
    clear h
    induction l with
    | nil => exact le_rfl
    | cons p l ih =>
      rw [fieldBytes_cons, List.length_cons]
      omega
  rw [show kMaxTerms = 144115188075855871 from rfl]
  omega

theorem docBlock_length_le (fm : FieldMapping) (l : List (Bytes × PostingList)) :
    (docBlock fm l).length ≤ fieldBytes l := by
  induction l with
  | nil => exact le_rfl
  | cons p l ih =>
    have hblock := postingBlock_length_le fm p.2
    rw [docBlock] at ih ⊢
    rw [List.flatMap_cons, List.length_append, fieldBytes_cons]
    omega

theorem timBlock_length_le (fm : FieldMapping) (l : List (Bytes × PostingList)) :
    (timBlock fm l).length ≤ fieldBytes l := by
  have hentries : ∀ rel, ((termEntriesFrom fm rel l).flatMap encodeTermEntry).length ≤
      fieldBytes l := by
    induction l with
    | nil => exact fun _ ↦ le_rfl
    | cons p l ih =>
      intro rel
      have hrest := ih (rel + (postingBlock fm p.2).length)
      have hentry := encodeTermEntry_length_le (termEntryAt fm rel p)
      have hterm : (termEntryAt fm rel p).term = p.1 := rfl
      rw [hterm] at hentry
      rw [termEntriesFrom, List.flatMap_cons, List.length_append, fieldBytes_cons]
      omega
  exact hentries 0

/-- A segment is small enough to be written if the bounds on its fields are. -/
theorem MutableSegment.encodable_of_fieldBytes {seg : MutableSegment}
    (names : ∀ f ∈ seg.schema.fields, f.name.length < 2 ^ 32)
    (terms : ∀ fd ∈ seg.fieldData, ∀ p ∈ fd.postings.toList, p.1.length < 2 ^ 32)
    (blobs : ∀ b ∈ seg.storedBlobs, b.length < 2 ^ 32)
    (hsize : (seg.mappedFields.map fun p ↦ fieldBytes p.2.postings.toList).sum < 2 ^ 62)
    (fdt : (seg.storedBlobs.flatMap storedEntry).length < 2 ^ 64) : seg.Encodable where
  names := names
  terms := terms
  blobs := blobs
  tim := by
    rw [timBlocks, List.length_flatMap]
    exact (List.sum_le_sum fun p _ ↦ timBlock_length_le p.1 _).trans_lt (by omega)
  doc := by
    rw [docBlocks, List.length_flatMap]
    exact (List.sum_le_sum fun p _ ↦ docBlock_length_le p.1 _).trans_lt (by omega)
  fdt := fdt
  termCounts p hp := length_le_of_fieldBytes
    ((List.le_sum_of_mem (List.mem_map_of_mem hp)).trans_lt hsize)

theorem MutableSegment.build_wellFormed [LibcDecimal] (schema : Schema) {docs : List Document}
    (hlen : docs.length ≤ kNoMoreDocs) : (MutableSegment.build schema docs).WellFormed where
  fieldData_length := by simp [MutableSegment.build]
  storedBlobs_length := by simp [MutableSegment.build, MutableSegment.docCount]
  docQuality_length h := by
    have h : schema.storeDocQuality = true := h
    simp [MutableSegment.build, MutableSegment.docCount, h]
  docCount_le := hlen
  postings fd hfd p hp := by
    obtain ⟨f, -, rfl⟩ := List.mem_map.1 hfd
    obtain ⟨term, pl⟩ := p
    have hfind := SortedMap.mem_toList_iff.1 hp
    rw [find?_fieldDataOf] at hfind
    split_ifs at hfind
    obtain rfl := Option.some.inj hfind
    refine ⟨postingsOf_pairwise f docs term, fun q hq ↦ ?_⟩
    obtain ⟨doc, hdoc, -⟩ := mem_postingsOf.1 hq
    exact (List.getElem?_eq_some_iff.1 hdoc).1

/-! ### Parsing the sealed buffers -/

/-- The fields of the opened segment. -/
def fieldReadsFrom : ℕ → ℕ → List (FieldMapping × MutableFieldData) → List FieldRead
  | _, _, [] => []
  | timOff, docOff, p :: l =>
    { stats := fieldStatsAt timOff docOff p
      terms := termEntriesFrom p.1 0 p.2.postings.toList } ::
      fieldReadsFrom (timOff + (timBlock p.1 p.2.postings.toList).length)
        (docOff + (docBlock p.1 p.2.postings.toList).length) l

/-- The reader of a sealed segment, with the qualities read from its stripe. -/
def MutableSegment.sealedReader (seg : MutableSegment) (stem : Bytes) (docQuality : List F32) :
    SegmentReader :=
  { info := seg.sealedInfo stem
    fields := fieldReadsFrom 0 0 seg.mappedFields
    docBuf := docBlocks seg.mappedFields
    fdtBuf := seg.storedBlobs.flatMap storedEntry
    fdxOffsets := offsetsFrom 0 seg.storedBlobs
    docQuality }

theorem termEntriesFrom_map_term (fm : FieldMapping) (l : List (Bytes × PostingList)) :
    ∀ rel, (termEntriesFrom fm rel l).map (·.term) = l.map Prod.fst := by
  induction l with
  | nil => exact fun _ ↦ rfl
  | cons p l ih =>
    intro rel
    rw [termEntriesFrom, List.map_cons, ih, List.map_cons]
    rfl

theorem toNat_ofNat64 {n : ℕ} (h : n < 2 ^ 64) : (UInt64.ofNat n).toNat = n := by
  rw [UInt64.toNat_ofNat']
  exact Nat.mod_eq_of_lt h

theorem toNat_ofNat32 {n : ℕ} (h : n < 2 ^ 32) : (UInt32.ofNat n).toNat = n := by
  rw [UInt32.toNat_ofNat']
  exact Nat.mod_eq_of_lt h

/-- A field's slice of `.tim` gives back its entries. -/
theorem readTerms_slice {pre post : Bytes} {p : FieldMapping × MutableFieldData} (docOff : ℕ)
    (hsize : (pre ++ (timBlock p.1 p.2.postings.toList ++ post)).length < 2 ^ 64)
    (hterms : ∀ q ∈ p.2.postings.toList, q.1.length < 2 ^ 32)
    (hcount : p.2.postings.toList.length ≤ kMaxTerms) :
    readTerms (pre ++ (timBlock p.1 p.2.postings.toList ++ post))
        (fieldStatsAt pre.length docOff p) =
      .ok { stats := fieldStatsAt pre.length docOff p
            terms := termEntriesFrom p.1 0 p.2.postings.toList } := by
  set block := timBlock p.1 p.2.postings.toList with hblock
  simp only [List.length_append] at hsize
  have hoff : (UInt64.ofNat pre.length).toNat = pre.length := toNat_ofNat64 (by omega)
  have hlen : (UInt64.ofNat block.length).toNat = block.length := toNat_ofNat64 (by omega)
  have hsum : (UInt64.ofNat pre.length + UInt64.ofNat block.length).toNat =
      pre.length + block.length := by
    rw [← UInt64.ofNat_add]
    exact toNat_ofNat64 (by omega)
  have hslice : ((pre ++ (block ++ post)).drop pre.length).take block.length = block := by simp
  have hread : readTermEntries block.length block =
      .ok (termEntriesFrom p.1 0 p.2.postings.toList) := by
    refine readTermEntries_encode (fun te hte ↦ ?_) _ le_rfl
    have hmem := List.mem_map_of_mem (f := (·.term)) hte
    rw [termEntriesFrom_map_term] at hmem
    obtain ⟨q, hq, hterm⟩ := List.mem_map.1 hmem
    simpa [← hterm] using hterms q hq
  have hsorted : (termEntriesFrom p.1 0 p.2.postings.toList).Pairwise
      fun a b ↦ a.term ≤ b.term := by
    have := p.2.postings.keys_pairwise
    rw [SortedMap.keys, ← termEntriesFrom_map_term p.1 _ 0, List.pairwise_map] at this
    exact this.imp le_of_lt
  have hreserve : reserve kMaxTerms (UInt64.ofNat p.2.postings.toList.length).toNat = .ok () := by
    rw [toNat_ofNat64 (hcount.trans_lt (by decide))]
    exact if_neg (Nat.not_lt.2 hcount)
  simp only [readTerms, fieldStatsAt, ← hblock, hsum, hoff, hlen, hslice, hread, hreserve,
    ParseFailure.lift, Except.mapError, bind, Except.bind]
  rw [if_neg (by simp only [List.length_append]; omega), if_pos hsorted]
  rfl

theorem mapM_readTerms (l : List (FieldMapping × MutableFieldData)) :
    ∀ (pre : Bytes) (docOff : ℕ), (pre ++ timBlocks l).length < 2 ^ 64 →
      (∀ p ∈ l, ∀ q ∈ p.2.postings.toList, q.1.length < 2 ^ 32) →
      (∀ p ∈ l, p.2.postings.toList.length ≤ kMaxTerms) →
      (fieldTableFrom pre.length docOff l).mapM (readTerms (pre ++ timBlocks l)) =
        .ok (fieldReadsFrom pre.length docOff l) := by
  induction l with
  | nil => exact fun _ _ _ _ _ ↦ rfl
  | cons p l ih =>
    intro pre docOff hsize hterms hcounts
    have hsplit : timBlocks (p :: l) = timBlock p.1 p.2.postings.toList ++ timBlocks l := rfl
    have hassoc : pre ++ (timBlock p.1 p.2.postings.toList ++ timBlocks l) =
        (pre ++ timBlock p.1 p.2.postings.toList) ++ timBlocks l := (List.append_assoc ..).symm
    rw [hsplit] at hsize ⊢
    have hhead := readTerms_slice docOff hsize (hterms p List.mem_cons_self)
      (hcounts p List.mem_cons_self)
    have htail := ih (pre ++ timBlock p.1 p.2.postings.toList)
      (docOff + (docBlock p.1 p.2.postings.toList).length) (by rwa [← hassoc])
      (fun q hq ↦ hterms q (List.mem_cons_of_mem _ hq))
      fun q hq ↦ hcounts q (List.mem_cons_of_mem _ hq)
    rw [List.length_append, ← hassoc] at htail
    rw [fieldTableFrom, List.mapM_cons, hhead, fieldReadsFrom]
    simp only [bind, Except.bind, htail]
    rfl

theorem fieldTableFrom_length (l : List (FieldMapping × MutableFieldData)) :
    ∀ timOff docOff, (fieldTableFrom timOff docOff l).length = l.length := by
  induction l with
  | nil => exact fun _ _ ↦ rfl
  | cons p l ih => exact fun _ _ ↦ congrArg (· + 1) (ih _ _)

theorem name_of_mem_fieldTableFrom (l : List (FieldMapping × MutableFieldData)) :
    ∀ timOff docOff, ∀ fs ∈ fieldTableFrom timOff docOff l, ∃ p ∈ l, fs.name = p.1.name := by
  induction l with
  | nil => exact fun _ _ _ h ↦ absurd h List.not_mem_nil
  | cons p l ih =>
    intro timOff docOff fs hfs
    rcases List.mem_cons.1 hfs with rfl | hfs
    · exact ⟨p, List.mem_cons_self, rfl⟩
    · obtain ⟨q, hq, hname⟩ := ih _ _ fs hfs
      exact ⟨q, List.mem_cons_of_mem _ hq, hname⟩

theorem offsetsFrom_length (blobs : List Bytes) : ∀ off, (offsetsFrom off blobs).length =
    blobs.length := by
  induction blobs with
  | nil => exact fun _ ↦ rfl
  | cons b bs ih => exact fun _ ↦ congrArg (· + 1) (ih _)

namespace MutableSegment

variable {seg : MutableSegment} (stem : Bytes)

/-- The document count survives its 64-bit field and the cast to 32 bits. -/
theorem WellFormed.docCount_mod (h : seg.WellFormed) :
    (UInt64.ofNat seg.docCount).toNat % 4294967296 = seg.docCount := by
  have := h.docCount_le
  rw [kNoMoreDocs] at this
  rw [toNat_ofNat64 (by omega)]
  exact Nat.mod_eq_of_lt (by omega)

theorem readHeader_encode (docCount : UInt64) (rest : Bytes) :
    readHeader (u32LE kSegmentFormatMagic ++ (u32LE kSegmentFormatVersion ++
      (u64LE docCount ++ rest))) = .ok ((kSegmentFormatVersion, docCount), rest) := by
  simp only [readHeader, bind, StateT.bind, Except.bind, readU32LE_append, readU64LE_append,
    require_of_true, decide_true]
  rfl

/-- The `.si` parser reads back the metadata. -/
theorem readInfo_sealed (hwf : seg.WellFormed) (hopen : seg.Openable) :
    readInfo stem (sealBuffers seg stem).2.si = .ok (seg.sealedInfo stem, []) := by
  have hfp : (seg.sealedInfo stem).analyzerFingerprint.length < 2 ^ 32 := by
    have : (seg.sealedInfo stem).analyzerFingerprint.length = 22 := rfl
    omega
  have hcount : (UInt32.ofNat (seg.sealedInfo stem).fields.length).toNat =
      (seg.sealedInfo stem).fields.length := by
    refine toNat_ofNat32 ?_
    have hle : seg.schema.fields.length ≤ 65535 := seg.schema.length_le
    have : (seg.sealedInfo stem).fields.length ≤ seg.schema.fields.length := by
      simp only [sealedInfo, fieldTableFrom_length, mappedFields, List.length_zip]
      exact Nat.min_le_left ..
    omega
  have hfields := readMany_encode readFieldStats encodeFieldStats
    (l := (seg.sealedInfo stem).fields) (fun fs hfs rest ↦ readFieldStats_encode (by
      obtain ⟨p, hp, hname⟩ := name_of_mem_fieldTableFrom _ _ _ fs hfs
      rw [hname]
      exact hopen.names p.1 (List.of_mem_zip hp).1) rest) []
  rw [List.append_nil] at hfields
  simp only [sealBuffers_eq, List.append_assoc]
  refine cursor_bind_eq_ok.2 ⟨_, _, readHeader_encode _ _, ?_⟩
  refine cursor_bind_eq_ok.2 ⟨_, _, readStr_encode hfp _, ?_⟩
  refine cursor_bind_eq_ok.2 ⟨_, _, readVarUint32_encode _ _, ?_⟩
  rw [hcount]
  refine cursor_bind_eq_ok.2 ⟨_, _, hfields, ?_⟩
  simp only [hwf.docCount_mod]
  rfl

/-- The `.fdx` parser reads back the offsets. -/
theorem readOffsets_sealed (hwf : seg.WellFormed) :
    readOffsets seg.docCount (sealBuffers seg stem).2.fdx =
      .ok (offsetsFrom 0 seg.storedBlobs) := by
  have hcount : (UInt64.ofNat seg.storedBlobs.length).toNat = seg.docCount := by
    have := hwf.docCount_le
    rw [kNoMoreDocs] at this
    rw [hwf.storedBlobs_length, toNat_ofNat64 (by omega)]
  have hmany := readMany_encode readU64LE u64LE
    (l := offsetsFrom 0 seg.storedBlobs) (fun v _ rest ↦ readU64LE_append v rest) []
  rw [List.append_nil, offsetsFrom_length, hwf.storedBlobs_length] at hmany
  have hreserve : reserve kMaxOffsets seg.docCount = .ok () :=
    if_neg (Nat.not_lt.2 (hwf.docCount_le.trans (by decide)))
  simp only [sealBuffers_eq, readOffsets, readOffsetsFrom, ParseFailure.lift, Except.mapError,
    bind, StateT.bind, Except.bind, readU64LE_append, hcount, hreserve, hmany, require_of_true,
    decide_true]
  rfl

/-- **Parsing the sealed files** succeeds with the reader of the segment. -/
theorem parse_sealed (hwf : seg.WellFormed) (hopen : seg.Openable) :
    SegmentReader.parse stem (sealBuffers seg stem).2.si (sealBuffers seg stem).2.tim
        (sealBuffers seg stem).2.doc (sealBuffers seg stem).2.fdt (sealBuffers seg stem).2.fdx =
      .ok (seg.sealedReader stem []) := by
  have hfields := mapM_readTerms seg.mappedFields [] 0 hopen.tim
    (fun p hp ↦ hopen.terms p.2 (List.of_mem_zip hp).2) hopen.termCounts
  rw [List.nil_append, List.length_nil] at hfields
  have htim : (sealBuffers seg stem).2.tim = timBlocks seg.mappedFields := by rw [sealBuffers_eq]
  have hdoc : (sealBuffers seg stem).2.doc = docBlocks seg.mappedFields := by rw [sealBuffers_eq]
  have hfdt : (sealBuffers seg stem).2.fdt = seg.storedBlobs.flatMap storedEntry := by
    rw [sealBuffers_eq]
  have htable : (seg.sealedInfo stem).fields = fieldTableFrom 0 0 seg.mappedFields := rfl
  have hdocs : (seg.sealedInfo stem).docCount = seg.docCount := rfl
  simp only [SegmentReader.parse, readInfo_sealed stem hwf hopen, htim, hdoc, hfdt, htable, hdocs,
    hfields, readOffsets_sealed stem hwf, ParseFailure.lift, Except.mapError, bind, Except.bind,
    pure, Except.pure, sealedReader]

/-- Whatever the sizes: once the sealed files parse, the documents are the sealed ones. -/
theorem parse_sealed_docs (hwf : seg.WellFormed) {r : SegmentReader}
    (h : SegmentReader.parse stem (sealBuffers seg stem).2.si (sealBuffers seg stem).2.tim
        (sealBuffers seg stem).2.doc (sealBuffers seg stem).2.fdt (sealBuffers seg stem).2.fdx =
      .ok r) :
    r.stem = stem ∧ r.docCount = seg.docCount ∧ r.fdtBuf = seg.storedBlobs.flatMap storedEntry ∧
      r.fdxOffsets = offsetsFrom 0 seg.storedBlobs := by
  have hinfo : ∀ info rest, readInfo stem (sealBuffers seg stem).2.si = .ok (info, rest) →
      info.stem = stem ∧ info.docCount = seg.docCount := by
    intro info rest hok
    simp only [sealBuffers_eq, List.append_assoc] at hok
    obtain ⟨⟨version, docCount⟩, rest₁, hheader, hok⟩ := cursor_bind_eq_ok.1 hok
    rw [readHeader_encode] at hheader
    cases hheader
    obtain ⟨fp, rest₂, -, hok⟩ := cursor_bind_eq_ok.1 hok
    obtain ⟨fieldCount, rest₃, -, hok⟩ := cursor_bind_eq_ok.1 hok
    obtain ⟨fields, rest₄, -, hok⟩ := cursor_bind_eq_ok.1 hok
    cases hok
    exact ⟨rfl, hwf.docCount_mod⟩
  have hfdt : (sealBuffers seg stem).2.fdt = seg.storedBlobs.flatMap storedEntry := by
    rw [sealBuffers_eq]
  obtain ⟨info, rest, fields, fdxOffsets, hparsed, -, hoffsets, rfl⟩ :=
    SegmentReader.parse_eq_ok h
  obtain ⟨hstem, hcount⟩ := hinfo info rest hparsed
  rw [hcount, readOffsets_sealed stem hwf] at hoffsets
  exact ⟨hstem, hcount, hfdt, (Except.ok.inj hoffsets).symm⟩

/-! ### The quality stripe -/

/-- The qualities of a segment, one for each document. -/
def qualities (seg : MutableSegment) : List F32 :=
  (List.range seg.docCount).map fun i ↦ seg.docQuality.getD i F32.zero

/-- **Parsing the quality stripe** gives the qualities of the segment. -/
theorem parseQuality_sealed (hwf : seg.WellFormed) {r : SegmentReader}
    (hr : r.docCount = seg.docCount) :
    r.parseQuality (encodeQuality seg) = .ok { r with docQuality := seg.qualities } := by
  have hcount : (UInt32.ofNat seg.docCount).toNat = seg.docCount := by
    have := hwf.docCount_le
    rw [kNoMoreDocs] at this
    exact toNat_ofNat32 (by omega)
  have hmany := readMany_encode readF32LE f32LE (l := seg.qualities)
    (fun v _ rest ↦ readF32LE_append v rest) []
  have hlen : seg.qualities.length = seg.docCount := by simp [qualities]
  rw [List.append_nil, hlen, qualities, List.flatMap_map] at hmany
  have hread : readQuality r.info.docCount (encodeQuality seg) = .ok (seg.qualities, []) := by
    rw [encodeQuality, List.append_assoc]
    refine cursor_bind_eq_ok.2 ⟨_, _, readU32LE_append _ _, ?_⟩
    refine cursor_bind_eq_ok.2 ⟨_, _, require_of_true (decide_eq_true rfl) _ _, ?_⟩
    refine cursor_bind_eq_ok.2 ⟨_, _, readU32LE_append _ _, ?_⟩
    rw [hcount]
    exact cursor_bind_eq_ok.2 ⟨_, _, require_of_true (decide_eq_true hr.symm) _ _, hmany⟩
  simp only [SegmentReader.parseQuality, hread, bind, Except.bind, pure, Except.pure]

end MutableSegment

end Spp.Index
