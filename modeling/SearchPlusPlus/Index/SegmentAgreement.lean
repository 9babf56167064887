import SearchPlusPlus.Index.SegmentRoundTrip

/-!
# A reader that agrees with its builder

`Agrees r seg` says what a reader and the segment it was sealed from have in common, lookup by
lookup. The reader of the closed form agrees (`agrees_sealedReader`), and sealing a segment and
opening its files gives such a reader (`wp_sealSegment`, `wp_open`, `open_sealSegment`).
-/

namespace Spp.Index

open Store

/-- A reader has the content of a segment, through every lookup. -/
structure Agrees (r : SegmentReader) (seg : MutableSegment) : Prop where
  docCount : r.docCount = seg.docCount
  /-- One field of the reader for each field of the schema, in order. -/
  fields_length : r.fields.length = seg.schema.fields.length
  /-- The table of `info` is the one of the fields. -/
  info_fields : r.info.fields = r.fields.map (·.stats)
  /-- The statistics and the flags of a field. -/
  stats : ∀ i fm fd, seg.schema.fields[i]? = some fm → seg.fieldData[i]? = some fd →
    ∃ fr, r.field i = some fr ∧ fr.stats.name = fm.name ∧ fr.stats.docCount = fd.docCount ∧
      fr.stats.sumFieldLength = fd.sumFieldLength ∧ fr.stats.boost = fm.boost ∧
      fr.stats.positionDecay = fm.positionDecay ∧
      fr.stats.hasPositions = F32.lt F32.zero fm.positionDecay ∧
      fr.stats.hasTokenWeights = fm.storeTokenWeights
  /-- A term with a posting list is found, with its counts and its block. -/
  findTerm_some : ∀ i fm fd term pl, seg.schema.fields[i]? = some fm →
    seg.fieldData[i]? = some fd → fd.postings.find? term = some pl →
    ∃ te, r.findTerm i term = some te ∧ te.df.toNat = pl.length ∧
      te.totalTf.toNat = (pl.map fun p ↦ p.tf.toNat).sum ∧
      r.postingBytes i te =
        writePostings pl (F32.lt F32.zero fm.positionDecay) fm.storeTokenWeights
  /-- A term without one is not. -/
  findTerm_none : ∀ i fm fd term, seg.schema.fields[i]? = some fm →
    seg.fieldData[i]? = some fd → fd.postings.find? term = none → r.findTerm i term = none
  storedFields : ∀ i b, seg.storedBlobs[i]? = some b → r.storedFields i = b
  docQuality : seg.schema.storeDocQuality = true →
    ∀ i q, seg.docQuality[i]? = some q → r.docQualityOf i = q

/-! ### Lookups of the closed form -/

theorem getElem?_fieldReadsFrom (l : List (FieldMapping × MutableFieldData)) :
    ∀ (timOff docOff i : ℕ) (p : FieldMapping × MutableFieldData), l[i]? = some p →
      ∃ t, (fieldReadsFrom timOff docOff l)[i]? = some
        { stats := fieldStatsAt t (docOff + (docBlocks (l.take i)).length) p
          terms := termEntriesFrom p.1 0 p.2.postings.toList } := by
  induction l with
  | nil => exact fun _ _ _ _ h ↦ absurd h (by simp)
  | cons q l ih =>
    rintro timOff docOff (- | i) p h
    · cases h
      exact ⟨timOff, rfl⟩
    · obtain ⟨t, ht⟩ := ih (timOff + (timBlock q.1 q.2.postings.toList).length)
        (docOff + (docBlock q.1 q.2.postings.toList).length) i p (by simpa using h)
      refine ⟨t, ?_⟩
      rw [fieldReadsFrom, List.getElem?_cons_succ, ht]
      simp [docBlocks, Nat.add_assoc]

theorem fieldReadsFrom_map_stats (l : List (FieldMapping × MutableFieldData)) :
    ∀ timOff docOff, (fieldReadsFrom timOff docOff l).map (·.stats) =
      fieldTableFrom timOff docOff l := by
  induction l with
  | nil => exact fun _ _ ↦ rfl
  | cons p l ih => exact fun _ _ ↦ congrArg (_ :: ·) (ih _ _)

/-- The binary search over the entries of sorted terms: the entry of a bound term, placed after
the blocks of the terms before it. -/
theorem dropWhile_termEntriesFrom_some (fm : FieldMapping) {term : Bytes} {pl : PostingList} :
    ∀ {l : List (Bytes × PostingList)}, Assoc.Sorted l → ∀ rel : ℕ,
      Assoc.find? term l = some pl →
      ∃ before after tes, l = before ++ (term, pl) :: after ∧
        (termEntriesFrom fm rel l).dropWhile (fun te ↦ te.term < term) =
          termEntryAt fm (rel + (docBlock fm before).length) (term, pl) :: tes := by
  intro l
  induction l with
  | nil => exact fun _ _ h ↦ absurd h (by simp)
  | cons q l ih =>
    obtain ⟨t, pl'⟩ := q
    intro hl rel hfind
    obtain ⟨hlt, hl'⟩ := Assoc.sorted_cons.1 hl
    rw [Assoc.find?_cons] at hfind
    split at hfind
    · next heq =>
      cases heq
      cases hfind
      refine ⟨[], l, termEntriesFrom fm (rel + (postingBlock fm pl).length) l, rfl, ?_⟩
      rw [termEntriesFrom, List.dropWhile_cons_of_neg (by simp [termEntryAt])]
      simp [docBlock]
    · next hne =>
      have hmem : t < term := hlt (term, pl) (Assoc.mem_of_find? hfind)
      obtain ⟨before, after, tes, hsplit, hdrop⟩ :=
        ih hl' (rel + (postingBlock fm pl').length) hfind
      refine ⟨(t, pl') :: before, after, tes, by rw [hsplit]; rfl, ?_⟩
      have hskip : (fun te : TermEntry ↦ decide (te.term < term)) (termEntryAt fm rel (t, pl')) =
          true := decide_eq_true hmem
      rw [termEntriesFrom, List.dropWhile_cons, if_pos hskip, hdrop]
      simp [docBlock, Nat.add_assoc]

theorem term_of_mem_termEntriesFrom {fm : FieldMapping} {l : List (Bytes × PostingList)}
    {rel : ℕ} {te : TermEntry} (h : te ∈ termEntriesFrom fm rel l) : ∃ p ∈ l, p.1 = te.term := by
  have hmem := List.mem_map_of_mem (f := (·.term)) h
  rw [termEntriesFrom_map_term] at hmem
  exact List.mem_map.1 hmem

/-- A term that is not bound is not found. -/
theorem dropWhile_termEntriesFrom_none {fm : FieldMapping} {term : Bytes} {rel : ℕ}
    {l : List (Bytes × PostingList)} (hl : Assoc.Sorted l) (hfind : Assoc.find? term l = none)
    {te : TermEntry} {tes : List TermEntry}
    (h : (termEntriesFrom fm rel l).dropWhile (fun te ↦ te.term < term) = te :: tes) :
    te.term ≠ term := by
  rintro rfl
  have hmem : te ∈ termEntriesFrom fm rel l :=
    List.dropWhile_subset _ (h ▸ List.mem_cons_self)
  obtain ⟨⟨t, pl⟩, hp, ht⟩ := term_of_mem_termEntriesFrom hmem
  have hsome := (Assoc.find?_eq_some_iff hl).2 hp
  simp only at ht
  rw [ht, hfind] at hsome
  cases hsome

/-- A sorted list of postings is written as it is. -/
theorem sortPostings_eq_self {pl : PostingList}
    (h : pl.Pairwise fun a b ↦ a.docId < b.docId) : sortPostings pl = pl :=
  List.mergeSort_of_pairwise (h.imp fun hab ↦ decide_eq_true (le_of_lt hab))

/-- The stored entry at the offset of a document. -/
theorem getElem?_offsetsFrom (blobs : List Bytes) : ∀ (off i : ℕ) (b : Bytes),
    blobs[i]? = some b →
    (offsetsFrom off blobs)[i]? =
        some (UInt64.ofNat (off + ((blobs.take i).flatMap storedEntry).length)) ∧
      ∃ after, (blobs.flatMap storedEntry).drop ((blobs.take i).flatMap storedEntry).length =
        storedEntry b ++ after := by
  induction blobs with
  | nil => exact fun _ _ _ h ↦ absurd h (by simp)
  | cons b' bs ih =>
    rintro off (- | i) b h
    · cases h
      exact ⟨rfl, bs.flatMap storedEntry, rfl⟩
    · obtain ⟨hoff, after, hdrop⟩ := ih (off + (storedEntry b').length) i b (by simpa using h)
      refine ⟨?_, after, ?_⟩
      · rw [offsetsFrom, List.getElem?_cons_succ, hoff]
        simp [Nat.add_assoc]
      · rw [List.take_succ_cons, List.flatMap_cons, List.flatMap_cons, List.length_append,
          ← List.drop_drop, List.drop_left, hdrop]

theorem storedFields_of_fdt {r : SegmentReader} {blobs : List Bytes}
    (hfdt : r.fdtBuf = blobs.flatMap storedEntry) (hfdx : r.fdxOffsets = offsetsFrom 0 blobs)
    (hsize : (blobs.flatMap storedEntry).length < 2 ^ 64) {i : ℕ} {b : Bytes}
    (hb : blobs[i]? = some b) (hlen : b.length < 2 ^ 32) : r.storedFields i = b := by
  obtain ⟨hoff, after, hdrop⟩ := getElem?_offsetsFrom blobs 0 i b hb
  rw [Nat.zero_add] at hoff
  have hpos : 0 < (storedEntry b ++ after).length := by
    have := encodeVarUint32_length_pos (UInt32.ofNat b.length)
    simp only [storedEntry, List.length_append]
    omega
  have hlt : ((blobs.take i).flatMap storedEntry).length < (blobs.flatMap storedEntry).length := by
    rw [← hdrop, List.length_drop] at hpos
    omega
  have hnat := toNat_ofNat64 (hlt.trans hsize)
  have hdec : decodeVarUint32 (storedEntry b ++ after) =
      (.ok (UInt32.ofNat b.length), b ++ after) := by
    rw [storedEntry, List.append_assoc, decodeVarUint32_encode]
  simp only [SegmentReader.storedFields, hfdx, hoff, hnat, hfdt, hdrop, hdec, toNat_ofNat32 hlen]
  rw [if_neg (by omega), if_neg (by simp)]
  simp

theorem foldl_tf_toNat (pl : PostingList) : ∀ acc : UInt64,
    acc.toNat + (pl.map fun p ↦ p.tf.toNat).sum < 2 ^ 64 →
    (pl.foldl (fun sum p ↦ sum + UInt64.ofNat p.tf.toNat) acc).toNat =
      acc.toNat + (pl.map fun p ↦ p.tf.toNat).sum := by
  induction pl with
  | nil => exact fun _ _ ↦ rfl
  | cons p pl ih =>
    intro acc hsum
    rw [List.map_cons, List.sum_cons] at hsum ⊢
    have htf : (UInt64.ofNat p.tf.toNat).toNat = p.tf.toNat := toNat_ofNat64 (by omega)
    have hacc : (acc + UInt64.ofNat p.tf.toNat).toNat = acc.toNat + p.tf.toNat := by
      rw [UInt64.toNat_add, htf]
      exact Nat.mod_eq_of_lt (by omega)
    rw [List.foldl_cons, ih _ (by omega), hacc]
    omega

theorem sum_tf_le (pl : PostingList) :
    (pl.map fun p ↦ p.tf.toNat).sum ≤ pl.length * (2 ^ 32 - 1) := by
  induction pl with
  | nil => exact le_rfl
  | cons p pl ih =>
    have := p.tf.toNat_lt
    simp only [List.map_cons, List.sum_cons, List.length_cons, Nat.add_mul]
    omega

/-- Ids below the sentinel leave room for no more postings than that. -/
theorem length_le_of_pairwise_docId {pl : PostingList} {n : ℕ}
    (hpw : pl.Pairwise fun a b ↦ a.docId < b.docId) (hlt : ∀ q ∈ pl, q.docId < n) :
    pl.length ≤ n := by
  have hnodup : (pl.map (·.docId)).Nodup := List.pairwise_map.2 (hpw.imp fun h ↦ Nat.ne_of_lt h)
  have hsub : pl.map (·.docId) ⊆ List.range n := fun i hi ↦ by
    obtain ⟨q, hq, rfl⟩ := List.mem_map.1 hi
    exact List.mem_range.2 (hlt q hq)
  have := (hnodup.subperm hsub).length_le
  rwa [List.length_map, List.length_range] at this

/-! ### The reader of a sealed segment agrees with it -/

section SealedReader

variable {seg : MutableSegment} {stem : Bytes} {q : List F32}

theorem MutableSegment.getElem?_mappedFields {i : ℕ} {fm : FieldMapping} {fd : MutableFieldData}
    (hfm : seg.schema.fields[i]? = some fm) (hfd : seg.fieldData[i]? = some fd) :
    seg.mappedFields[i]? = some (fm, fd) :=
  List.getElem?_zip_eq_some.2 ⟨hfm, hfd⟩

/-- The field of the reader, with the place of its slice of `.doc`. -/
theorem field_sealedReader (stem : Bytes) (q : List F32) {i : ℕ}
    {p : FieldMapping × MutableFieldData} (hp : seg.mappedFields[i]? = some p) :
    ∃ t, (seg.sealedReader stem q).field i = some
      { stats := fieldStatsAt t (docBlocks (seg.mappedFields.take i)).length p
        terms := termEntriesFrom p.1 0 p.2.postings.toList } := by
  obtain ⟨t, ht⟩ := getElem?_fieldReadsFrom seg.mappedFields 0 0 i p hp
  rw [Nat.zero_add] at ht
  exact ⟨t, ht⟩

/-- The block of a term lies in the `.doc` buffer where its entry says. -/
theorem postingBytes_sealedReader {i : ℕ} {fm : FieldMapping} {fd : MutableFieldData}
    (hp : seg.mappedFields[i]? = some (fm, fd))
    (hsize : (docBlocks seg.mappedFields).length < 2 ^ 64)
    {term : Bytes} {pl : PostingList} {before after : List (Bytes × PostingList)}
    (hsplit : fd.postings.toList = before ++ (term, pl) :: after) :
    (seg.sealedReader stem q).postingBytes i
        (termEntryAt fm (0 + (docBlock fm before).length) (term, pl)) = postingBlock fm pl := by
  obtain ⟨t, hfield⟩ := field_sealedReader stem q hp
  obtain ⟨hi, hget⟩ := List.getElem?_eq_some_iff.1 hp
  have hbuf : docBlocks seg.mappedFields = docBlocks (seg.mappedFields.take i) ++
      (docBlock fm before ++ (postingBlock fm pl ++ (docBlock fm after ++
        docBlocks (seg.mappedFields.drop (i + 1))))) := by
    conv_lhs => rw [← List.take_append_drop i seg.mappedFields, List.drop_eq_getElem_cons hi, hget]
    simp [docBlocks, docBlock, hsplit]
  set pre := docBlocks (seg.mappedFields.take i)
  set rel := docBlock fm before
  set block := postingBlock fm pl with hblock
  set post := docBlock fm after ++ docBlocks (seg.mappedFields.drop (i + 1))
  rw [hbuf] at hsize
  simp only [List.length_append] at hsize
  have habs : (UInt64.ofNat pre.length + UInt64.ofNat (0 + rel.length)).toNat =
      pre.length + rel.length := by
    rw [Nat.zero_add, ← UInt64.ofNat_add]
    exact toNat_ofNat64 (by omega)
  have hend : (UInt64.ofNat pre.length + UInt64.ofNat (0 + rel.length) +
      UInt64.ofNat block.length).toNat = pre.length + rel.length + block.length := by
    rw [Nat.zero_add, ← UInt64.ofNat_add, ← UInt64.ofNat_add]
    exact toNat_ofNat64 (by omega)
  have hlen : (UInt64.ofNat block.length).toNat = block.length := toNat_ofNat64 (by omega)
  have hdoc : (seg.sealedReader stem q).docBuf = pre ++ (rel ++ (block ++ post)) := hbuf
  simp only [SegmentReader.postingBytes, hfield, fieldStatsAt, termEntryAt, ← hblock, habs, hend,
    hlen, hdoc]
  rw [if_neg (by simp only [List.length_append]; omega), ← List.drop_drop, List.drop_left,
    List.drop_left, List.take_left]

/-- **Agreement**: the reader of a sealed segment gives back what the builder holds. -/
theorem agrees_sealedReader (hwf : seg.WellFormed) (henc : seg.Encodable)
    (hq : seg.schema.storeDocQuality = true → q = seg.qualities) :
    Agrees (seg.sealedReader stem q) seg where
  docCount := rfl
  fields_length := by
    have : (fieldReadsFrom 0 0 seg.mappedFields).length = seg.mappedFields.length := by
      rw [← List.length_map (·.stats), fieldReadsFrom_map_stats, fieldTableFrom_length]
    rw [MutableSegment.sealedReader, this, MutableSegment.mappedFields, List.length_zip,
      hwf.fieldData_length, Nat.min_self]
  info_fields := (fieldReadsFrom_map_stats ..).symm
  stats i fm fd hfm hfd := by
    obtain ⟨t, hfield⟩ :=
      field_sealedReader stem q (MutableSegment.getElem?_mappedFields hfm hfd)
    exact ⟨_, hfield, rfl, rfl, rfl, rfl, rfl, rfl, rfl⟩
  findTerm_some i fm fd term pl hfm hfd hpl := by
    have hp := MutableSegment.getElem?_mappedFields hfm hfd
    obtain ⟨t, hfield⟩ := field_sealedReader stem q hp
    obtain ⟨before, after, tes, hsplit, hdrop⟩ :=
      dropWhile_termEntriesFrom_some fm fd.postings.sorted 0 hpl
    obtain ⟨hpw, hlt⟩ := hwf.postings fd (List.mem_of_getElem? hfd) (term, pl)
      (SortedMap.mem_toList_iff.2 hpl)
    have hsort : sortPostings pl = pl := sortPostings_eq_self hpw
    have hlen : pl.length < 2 ^ 32 := by
      have h1 : pl.length ≤ seg.docCount := length_le_of_pairwise_docId hpw hlt
      have h2 := hwf.docCount_le
      rw [kNoMoreDocs] at h2
      omega
    refine ⟨termEntryAt fm (0 + (docBlock fm before).length) (term, pl), ?_, ?_, ?_, ?_⟩
    · simp only [SegmentReader.findTerm, hfield, hdrop]
      exact if_pos rfl
    · simp only [termEntryAt, hsort]
      exact toNat_ofNat32 hlen
    · have hsum : (pl.map fun p ↦ p.tf.toNat).sum < 2 ^ 64 := by
        have h1 := sum_tf_le pl
        have h2 : pl.length * (2 ^ 32 - 1) ≤ 2 ^ 32 * (2 ^ 32 - 1) :=
          Nat.mul_le_mul_right _ (le_of_lt hlen)
        omega
      have hfold := foldl_tf_toNat pl 0 (by simpa using hsum)
      simp only [termEntryAt, totalTfOf, hsort]
      simpa using hfold
    · rw [postingBytes_sealedReader hp henc.doc hsplit, postingBlock, hsort]
  findTerm_none i fm fd term hfm hfd hnone := by
    obtain ⟨t, hfield⟩ :=
      field_sealedReader stem q (MutableSegment.getElem?_mappedFields hfm hfd)
    simp only [SegmentReader.findTerm, hfield]
    split
    · next te tes hdrop =>
      exact if_neg (dropWhile_termEntriesFrom_none fd.postings.sorted hnone hdrop)
    · rfl
  storedFields i b hb :=
    storedFields_of_fdt rfl rfl henc.fdt hb (henc.blobs b (List.mem_of_getElem? hb))
  docQuality hstore i v hv := by
    have hi : i < seg.docCount := by
      rw [← hwf.docQuality_length hstore]
      exact (List.getElem?_eq_some_iff.1 hv).1
    have hget : seg.qualities[i]? = some v := by
      simp [MutableSegment.qualities, hi, hv]
    simp only [SegmentReader.docQualityOf, MutableSegment.sealedReader, hq hstore,
      List.getD_eq_getElem?_getD, hget, Option.getD_some]

end SealedReader

/-! ### Sealing and opening -/

/-- The names of the files of a segment; `.dvq` is there only when the schema stores quality. -/
def segmentNames (stem : Bytes) : List Bytes :=
  [kSegPostingsExt, kSegTermsExt, kSegStoredExt, kSegStoredIdxExt, kSegInfoExt,
    kSegDocQualityExt].map (stem ++ ·)

theorem segmentNames_nodup (stem : Bytes) : (segmentNames stem).Nodup :=
  List.Nodup.map (List.append_right_injective stem) (by decide)

theorem SegmentFiles.toList_names (f : SegmentFiles) (stem : Bytes) :
    (f.toList stem).map Prod.fst <+: segmentNames stem := by
  cases h : f.dvq with
  | none => exact ⟨[stem ++ kSegDocQualityExt], by simp [SegmentFiles.toList, h, segmentNames]⟩
  | some b => exact ⟨[], by simp [SegmentFiles.toList, h, segmentNames]⟩

theorem SegmentFiles.toList_nodup (f : SegmentFiles) (stem : Bytes) :
    ((f.toList stem).map Prod.fst).Nodup :=
  (f.toList_names stem).sublist.nodup (segmentNames_nodup stem)

/-- The disk holds these files. -/
def Holds (l : List (Bytes × Bytes)) (d : Disk) : Prop := ∀ p ∈ l, d p.1 = some p.2

/-- The actions `sealSegment` performs. -/
def sealActions (seg : MutableSegment) (stem : Bytes) : List FileAction :=
  ((sealBuffers seg stem).2.toList stem).flatMap (fun p ↦ writeFileActions p.1 p.2) ++
    [.fsyncDirectory]

/-- **`SealSegment`** touches the files of its segment only, and after `Ok` they hold its
buffers. -/
theorem wp_sealSegment {F : Faults} {σ : Type} {s : σ} {d : Disk} {C : Disk → Prop}
    {Q : Expected SegmentInfo → σ → Disk → Prop} (seg : MutableSegment) (stem : Bytes)
    (hC : ∀ d', AgreeOff (segmentNames stem) d d' → C d')
    (hdone : ∀ d', AgreeOff (((sealBuffers seg stem).2.toList stem).map Prod.fst) d d' →
      Holds ((sealBuffers seg stem).2.toList stem) d' → Q (.ok (sealBuffers seg stem).1) s d')
    (hfail : (∃ a ∈ sealActions seg stem, F.fails (.act a)) → ∀ m d',
      AgreeOff (segmentNames stem) d d' → Q (.error (.ioError m)) s d') :
    (sealSegment seg stem).wp (files F) s Q C d := by
  have hsub := ((sealBuffers seg stem).2.toList_names stem).subset
  refine Method.wp_bind.2 (wp_writeFiles _ ((sealBuffers seg stem).2.toList_nodup stem)
    (fun d' h ↦ hC d' (h.mono hsub)) ?_ ?_)
  · intro d' hoff hfiles
    have hC' := hC d' (hoff.mono hsub)
    refine Method.wp_bind.2 (wp_act_still rfl (fun _ ↦ id) hC' ?_ ?_)
    · exact ⟨hdone d' hoff hfiles, hC'⟩
    · exact fun hf m ↦ hfail ⟨_, by simp [sealActions], hf⟩ m d' (hoff.mono hsub)
  · rintro ⟨p, hp, a, ha, hf⟩ m d' hoff
    refine hfail ⟨a, ?_, hf⟩ m d' (hoff.mono hsub)
    exact List.mem_append_left _ (List.mem_flatMap.2 ⟨p, hp, ha⟩)

/-- What the five files that are always there make, on this disk. -/
def SegmentReader.ofDisk (d : Disk) (stem : Bytes) : Expected SegmentReader := do
  let si ← loadReply d (stem ++ kSegInfoExt)
  let tim ← loadReply d (stem ++ kSegTermsExt)
  let doc ← loadReply d (stem ++ kSegPostingsExt)
  let fdt ← loadReply d (stem ++ kSegStoredExt)
  let fdx ← loadReply d (stem ++ kSegStoredIdxExt)
  (parse stem si tim doc fdt fdx).mapError ParseFailure.toStatus

theorem SegmentReader.parse_of_ofDisk {d : Disk} {stem : Bytes} {r : SegmentReader}
    (h : ofDisk d stem = .ok r) : ∃ si tim doc fdt fdx, parse stem si tim doc fdt fdx = .ok r := by
  obtain ⟨si, -, h⟩ := bind_eq_ok.1 h
  obtain ⟨tim, -, h⟩ := bind_eq_ok.1 h
  obtain ⟨doc, -, h⟩ := bind_eq_ok.1 h
  obtain ⟨fdt, -, h⟩ := bind_eq_ok.1 h
  obtain ⟨fdx, -, h⟩ := bind_eq_ok.1 h
  exact ⟨si, tim, doc, fdt, fdx, ParseFailure.mapError_eq_ok.1 h⟩

/-- What opening makes of this disk: the quality file is read when it is there. -/
def SegmentReader.openDisk (d : Disk) (stem : Bytes) : Expected SegmentReader := do
  let reader ← ofDisk d stem
  match d (stem ++ kSegDocQualityExt) with
  | some dvq => reader.parseQuality dvq
  | none => pure reader

/-- The files a segment cannot be opened without. -/
def requiredNames (stem : Bytes) : List Bytes :=
  [kSegInfoExt, kSegTermsExt, kSegPostingsExt, kSegStoredExt, kSegStoredIdxExt].map (stem ++ ·)

section OpenRules

variable {F : Faults} {σ : Type} {s : σ} {d : Disk} {C : Disk → Prop}

/-- One required file of `Open`, before the rest. -/
theorem wp_readRequired {α : Type} {name : Bytes} {f : Bytes → FileMethod σ α}
    {Q : Expected α → σ → Disk → Prop} (hC : C d)
    (hmissing : ∀ e, loadReply d name = .error e → Q (.error e) s d)
    (hfail : F.fails (.load name) → ∀ m, Q (.error (.ioError m)) s d)
    (hrest : ∀ b, loadReply d name = .ok b → (f b).wp (files F) s Q C d) :
    (Directory.readFile name >>= f).wp (files F) s Q C d := by
  refine Method.wp_bind.2 (Directory.wp_readFile hC ?_ hfail)
  cases h : loadReply d name with
  | error e => exact hmissing e h
  | ok b => exact hrest b h

/-- **`SegmentReader::Open`** reads the disk; an unreadable quality file counts as missing. -/
theorem wp_open {Q : Expected SegmentReader → σ → Disk → Prop} (stem : Bytes) (hC : C d)
    (hdone : Q (SegmentReader.openDisk d stem) s d)
    (hfail : (∃ name ∈ requiredNames stem, F.fails (.load name)) →
      ∀ m, Q (.error (.ioError m)) s d)
    (hquality : F.fails (.load (stem ++ kSegDocQualityExt)) →
      Q (SegmentReader.ofDisk d stem) s d) :
    (SegmentReader.open stem).wp (files F) s Q C d := by
  have hmissing : ∀ e, SegmentReader.ofDisk d stem = .error e → Q (.error e) s d := by
    intro e h
    rwa [SegmentReader.openDisk, h] at hdone
  have hload : ∀ ext ∈ [kSegInfoExt, kSegTermsExt, kSegPostingsExt, kSegStoredExt,
      kSegStoredIdxExt], F.fails (.load (stem ++ ext)) → ∀ m, Q (.error (.ioError m)) s d :=
    fun ext hext hf m ↦ hfail ⟨_, List.mem_map.2 ⟨ext, hext, rfl⟩, hf⟩ m
  refine wp_readRequired hC ?_ (hload _ (by simp)) fun si hsi ↦ ?_
  · exact fun e h ↦ hmissing e (by rw [SegmentReader.ofDisk, h]; rfl)
  refine wp_readRequired hC ?_ (hload _ (by simp)) fun tim htim ↦ ?_
  · exact fun e h ↦ hmissing e (by rw [SegmentReader.ofDisk, hsi, h]; rfl)
  refine wp_readRequired hC ?_ (hload _ (by simp)) fun doc hdoc ↦ ?_
  · exact fun e h ↦ hmissing e (by rw [SegmentReader.ofDisk, hsi, htim, h]; rfl)
  refine wp_readRequired hC ?_ (hload _ (by simp)) fun fdt hfdt ↦ ?_
  · exact fun e h ↦ hmissing e (by rw [SegmentReader.ofDisk, hsi, htim, hdoc, h]; rfl)
  refine wp_readRequired hC ?_ (hload _ (by simp)) fun fdx hfdx ↦ ?_
  · exact fun e h ↦ hmissing e (by rw [SegmentReader.ofDisk, hsi, htim, hdoc, hfdt, h]; rfl)
  have hparse : SegmentReader.ofDisk d stem =
      (SegmentReader.parse stem si tim doc fdt fdx).mapError ParseFailure.toStatus := by
    rw [SegmentReader.ofDisk, hsi, htim, hdoc, hfdt, hfdx]
    rfl
  refine Method.wp_bind.2 ⟨?_, hC⟩
  cases hr : (SegmentReader.parse stem si tim doc fdt fdx).mapError ParseFailure.toStatus with
  | error e => exact hmissing e (hparse.trans hr)
  | ok reader =>
    have hbase : SegmentReader.ofDisk d stem = .ok reader := hparse.trans hr
    refine Method.wp_bind.2 (Method.wp_attempt.2 (Directory.wp_readFile hC ?_ ?_))
    · rw [SegmentReader.openDisk, hbase] at hdone
      cases hq : d (stem ++ kSegDocQualityExt) with
      | none =>
        simp only [hq] at hdone
        simp only [loadReply, hq]
        exact ⟨hdone, hC⟩
      | some dvq =>
        simp only [hq] at hdone
        rw [loadReply_of_some hq]
        exact ⟨hdone, hC⟩
    · intro hf m
      rw [hbase] at hquality
      exact ⟨hquality hf, hC⟩

end OpenRules

/-! ### The round trip on disk -/

/-- The required files hold the buffers of the segment. -/
theorem ofDisk_of_holds {seg : MutableSegment} {stem : Bytes} {d : Disk}
    (h : Holds ((sealBuffers seg stem).2.toList stem) d) :
    SegmentReader.ofDisk d stem =
      (SegmentReader.parse stem (sealBuffers seg stem).2.si (sealBuffers seg stem).2.tim
        (sealBuffers seg stem).2.doc (sealBuffers seg stem).2.fdt
        (sealBuffers seg stem).2.fdx).mapError ParseFailure.toStatus := by
  have hfile : ∀ name b, (name, b) ∈ (sealBuffers seg stem).2.toList stem →
      loadReply d name = .ok b := fun name b hmem ↦ loadReply_of_some (h _ hmem)
  rw [SegmentReader.ofDisk,
    hfile _ (sealBuffers seg stem).2.si (by simp [SegmentFiles.toList]),
    hfile _ (sealBuffers seg stem).2.tim (by simp [SegmentFiles.toList]),
    hfile _ (sealBuffers seg stem).2.doc (by simp [SegmentFiles.toList]),
    hfile _ (sealBuffers seg stem).2.fdt (by simp [SegmentFiles.toList]),
    hfile _ (sealBuffers seg stem).2.fdx (by simp [SegmentFiles.toList])]
  rfl

/-- Opening the files of a sealed segment gives its reader. -/
theorem openDisk_sealed {seg : MutableSegment} {stem : Bytes} {d : Disk} (hwf : seg.WellFormed)
    (hopen : seg.Openable) (h : Holds ((sealBuffers seg stem).2.toList stem) d)
    (hstale : seg.schema.storeDocQuality = false → d (stem ++ kSegDocQualityExt) = none) :
    SegmentReader.openDisk d stem =
      .ok (seg.sealedReader stem (if seg.schema.storeDocQuality then seg.qualities else [])) := by
  rw [SegmentReader.openDisk, ofDisk_of_holds h, MutableSegment.parse_sealed stem hwf hopen]
  by_cases hq : seg.schema.storeDocQuality = true
  · have hdvq : d (stem ++ kSegDocQualityExt) = some (encodeQuality seg) :=
      h (_, encodeQuality seg) (by simp [SegmentFiles.toList, sealBuffers, hq])
    rw [if_pos hq]
    simp only [hdvq, bind, Except.bind]
    exact MutableSegment.parseQuality_sealed hwf rfl
  · have hdvq := hstale (by simpa using hq)
    rw [if_neg hq]
    simp only [hdvq, bind, Except.bind]
    rfl

/-- **Opening the files of a sealed segment** gives a reader that agrees with it. -/
theorem openDisk_agrees {seg : MutableSegment} {stem : Bytes} {d : Disk} (hwf : seg.WellFormed)
    (henc : seg.Encodable) (h : Holds ((sealBuffers seg stem).2.toList stem) d)
    (hstale : seg.schema.storeDocQuality = false → d (stem ++ kSegDocQualityExt) = none) :
    ∃ r, SegmentReader.openDisk d stem = .ok r ∧ Agrees r seg :=
  ⟨_, openDisk_sealed hwf henc.openable h hstale, agrees_sealedReader hwf henc fun hq ↦ if_pos hq⟩

/-- Whatever else is under its stem: a reader of the files of a sealed segment agrees with it. -/
theorem agrees_of_holds {seg : MutableSegment} {stem : Bytes} {d : Disk} {r : SegmentReader}
    (hwf : seg.WellFormed) (henc : seg.Encodable)
    (h : Holds ((sealBuffers seg stem).2.toList stem) d)
    (hopen : SegmentReader.openDisk d stem = .ok r) : Agrees r seg := by
  have hparse : SegmentReader.ofDisk d stem = .ok (seg.sealedReader stem []) := by
    rw [ofDisk_of_holds h, MutableSegment.parse_sealed stem hwf henc.openable]
    rfl
  by_cases hq : seg.schema.storeDocQuality = true
  · obtain ⟨r', hopen', hagrees⟩ := openDisk_agrees hwf henc h fun hnone ↦ by
      rw [hq] at hnone
      cases hnone
    obtain rfl := Except.ok.inj (hopen.symm.trans hopen')
    exact hagrees
  · obtain ⟨reader, hreader, hopen⟩ := bind_eq_ok.1 hopen
    obtain rfl := Except.ok.inj (hparse.symm.trans hreader)
    cases hdvq : d (stem ++ kSegDocQualityExt) with
    | none =>
      rw [hdvq] at hopen
      obtain rfl := Except.ok.inj hopen
      exact agrees_sealedReader hwf henc fun h ↦ absurd h hq
    | some dvq =>
      rw [hdvq] at hopen
      obtain ⟨⟨quality, _⟩, -, hopen⟩ := bind_eq_ok.1 hopen
      obtain rfl := Except.ok.inj hopen
      exact agrees_sealedReader hwf henc fun h ↦ absurd h hq

/-- `SealSegment` and then `Open`, as one method. -/
def sealThenOpen (seg : MutableSegment) (stem : Bytes) : FileM SegmentReader := do
  let _ ← sealSegment seg stem
  SegmentReader.open stem

/-- **Segment round trip**: whatever was added, sealing the segment and opening its files
succeeds, and the reader agrees with the builder. A `.dvq` file under the stem that the seal did
not write would be read as its own. -/
theorem sealThenOpen_agrees [LibcDecimal] (schema : Schema) (docs : List Document) (stem : Bytes)
    (d : Disk) (henc : ((MutableSegment.new schema).addDocuments docs).Encodable)
    (hstale : schema.storeDocQuality = true ∨ d (stem ++ kSegDocQualityExt) = none) :
    ∃ r, (run (sealThenOpen ((MutableSegment.new schema).addDocuments docs) stem ()) d).1.1 =
        .ok r ∧ Agrees r ((MutableSegment.new schema).addDocuments docs) := by
  have hseg := MutableSegment.addDocuments_new schema docs
  have hwf : ((MutableSegment.new schema).addDocuments docs).WellFormed := by
    rw [hseg]
    exact MutableSegment.build_wellFormed schema (MutableSegment.acceptedDocs_length_le docs)
  have hschema : ((MutableSegment.new schema).addDocuments docs).schema = schema := by
    rw [hseg]
    rfl
  set seg := (MutableSegment.new schema).addDocuments docs
  have hwp : (sealThenOpen seg stem).wp (files Faults.none) ()
      (fun r _ _ ↦ ∃ r', r = .ok r' ∧ Agrees r' seg) (fun _ ↦ True) d := by
    refine Method.wp_bind.2 (wp_sealSegment seg stem (fun _ _ ↦ trivial) ?_ ?_)
    · intro d' hoff hholds
      refine Method.seq_ok.2 (wp_open stem trivial ?_ ?_ ?_)
      · refine openDisk_agrees hwf henc hholds fun hq ↦ ?_
        -- The quality file is not one of those written, so the disk still has none.
        rw [hschema] at hq
        rw [hoff, (hstale.resolve_left (by simp [hq]))]
        simp [SegmentFiles.toList, sealBuffers, hschema, hq, kSegPostingsExt, kSegTermsExt,
          kSegStoredExt, kSegStoredIdxExt, kSegInfoExt, kSegDocQualityExt, str]
      · rintro ⟨_, _, h⟩
        exact h.elim
      · exact fun h ↦ h.elim
    · rintro ⟨_, _, h⟩
      exact h.elim
  exact (Method.wp_iff.1 hwp).1 _ _ _ (returns_run Faults.none _ d)

/-- A schema with a stored text field that keeps positions, weights and qualities. -/
def sampleSchema : Schema where
  fields := [
    { name := Schema.kIdField, type := .keyword, stored := true, analyzer := str "keyword" },
    { name := str "t", stored := true, positionDecay := F32.one, storeTokenWeights := true }]
  storeDocQuality := true
  name_ne_nil := by decide
  nodup_names := by decide
  length_le := by decide

/-- A document with two distinct tokens. -/
def sampleDoc : Document :=
  { id := str "a"
    fields := SortedMap.empty.insert (str "t") (str "x y x") }

theorem sealThenOpen_agrees_sample :
    ∃ r, (run (sealThenOpen ((@MutableSegment.addDocuments .integral (.new sampleSchema)
        [sampleDoc])) (str "seg") ()) fun _ ↦ none).1.1 = .ok r ∧
      Agrees r (@MutableSegment.addDocuments .integral (.new sampleSchema) [sampleDoc]) :=
  @sealThenOpen_agrees .integral sampleSchema [sampleDoc] (str "seg") (fun _ ↦ none)
    { names := by decide
      terms := by decide +kernel
      blobs := by decide +kernel
      tim := by decide +kernel
      doc := by decide +kernel
      fdt := by decide +kernel
      termCounts := by decide +kernel }
    (.inl rfl)

end Spp.Index
