import SearchPlusPlus.Query.LeafPostings
import SearchPlusPlus.Query.Results

/-!
# Document counts

`Searcher::Search` sums the frequency of a term in 64 bits, and `total_doc_count` sums the documents
in the 32 bits of a `DocId`. A segment has no more documents than that, but an index may: the counts
that `Bm25Idf` gets agree exactly if it has not (`countsAgree_iff`).
-/

namespace Spp.Query

open Index Arith

/-! ### The frequencies of a term -/

/-- The document frequency of a leaf in a segment. -/
def dfOf (seg : SegmentReader) (l : LeafTerm) : ℕ := ((leafEntry seg l).map (·.2.df.toNat)).getD 0

theorem toNat_foldl_globalDf (l : LeafTerm) (segs : List SegmentReader) :
    ∀ df : UInt64, (segs.foldl (fun df seg ↦
      match leafEntry seg l with
      | some (_, te) => df + te.df.toUInt64
      | none => df) df).toNat = (df.toNat + (segs.map fun seg ↦ dfOf seg l).sum) % 2 ^ 64 := by
  induction segs with
  | nil => exact fun df ↦ (Nat.mod_eq_of_lt df.toNat_lt).symm
  | cons seg segs ih =>
    intro df
    rw [List.foldl_cons, ih, List.map_cons, List.sum_cons, dfOf]
    cases leafEntry seg l with
    | none => rw [Option.map_none, Option.getD_none, Nat.zero_add]
    | some p =>
      show ((df + p.2.df.toUInt64).toNat + _) % 2 ^ 64 = _
      rw [UInt64.toNat_add, UInt32.toNat_toUInt64, Nat.mod_add_mod, Nat.add_assoc]
      rfl

theorem toNat_globalDf (r : IndexReader) (l : LeafTerm) :
    (globalDf r l).toNat = (r.segments.map fun seg ↦ dfOf seg l).sum % 2 ^ 64 :=
  (toNat_foldl_globalDf l r.segments 0).trans (by rw [UInt64.toNat_zero, Nat.zero_add])

/-- Sorted documents below a bound are no more than the bound. -/
theorem length_le_of_sorted {pl : PostingList} {n : ℕ}
    (hsorted : pl.Pairwise fun a b ↦ a.docId < b.docId) (hlt : ∀ p ∈ pl, p.docId < n) :
    pl.length ≤ n := by
  have hnodup : (pl.map (·.docId)).Nodup :=
    List.pairwise_map.2 (hsorted.imp fun h ↦ h.ne)
  have hsub : pl.map (·.docId) ⊆ List.range n := fun d hd ↦ by
    obtain ⟨p, hp, rfl⟩ := List.mem_map.1 hd
    exact List.mem_range.2 (hlt p hp)
  have hle := (hnodup.subperm hsub).length_le
  rwa [List.length_map, List.length_range] at hle

section Sealed

variable [LibcDecimal]

/-- A term is in no more documents of a segment than there are. -/
theorem dfOf_le {schema : Schema} (seg : SealedSegment schema) (l : LeafTerm) :
    dfOf seg.reader l ≤ seg.docs.length := by
  rw [dfOf]
  cases hentry : leafEntry seg.reader l with
  | none => exact Nat.zero_le _
  | some p =>
    obtain ⟨fieldId, te⟩ := p
    obtain ⟨-, -, hfind⟩ :=
      @leafEntry_eq_some seg.posted l fieldId te hentry
    obtain ⟨hdf, -⟩ := PostedSegment.findTerm_of_agrees seg.agrees seg.wellFormed hfind
    show te.df.toNat ≤ _
    rw [hdf, ← seg.docCount_reader]
    exact length_le_of_sorted (seg.posted.sorted fieldId l.text) (seg.posted.lt fieldId l.text)

theorem sum_dfOf_le (ix : SealedIndex) (l : LeafTerm) :
    (ix.reader.segments.map fun seg ↦ dfOf seg l).sum ≤ ix.docs.length := by
  rw [SealedIndex.reader, SealedIndex.docs, List.map_map, List.length_flatMap]
  exact List.sum_le_sum fun seg _ ↦ dfOf_le seg l

/-- The segments have all the documents. -/
theorem sum_docCount (ix : SealedIndex) :
    (ix.reader.segments.map (·.docCount)).sum = ix.docs.length := by
  rw [SealedIndex.reader, SealedIndex.docs, List.map_map, List.length_flatMap]
  exact congrArg List.sum (List.map_congr_left fun seg _ ↦ seg.docCount_reader)

end Sealed

/-! ### What `Bm25Idf` gets -/

/-- What `Bm25Idf` takes the logarithm of. -/
def idfArgument {R : Type} [Arith R] (totalDocs df : UInt64) : R :=
  let n : R := ofRat totalDocs.toNat
  let f : R := ofRat df.toNat
  (n - f + ofRat (1 / 2)) / (f + ofRat (1 / 2)) + ofRat 1

theorem bm25Idf_eq {R : Type} [Arith R] (totalDocs df : UInt64) :
    (bm25Idf totalDocs df : R) =
      if totalDocs = 0 then ofRat 0 else log (idfArgument totalDocs df) := rfl

/-- The argument is 1 or more for a term of no more than all documents. -/
theorem one_le_idfArgument {totalDocs df : UInt64} (hle : df ≤ totalDocs) :
    (1 : ℝ) ≤ idfArgument totalDocs df := by
  have hle' : (df.toNat : ℝ) ≤ totalDocs.toNat := by exact_mod_cast UInt64.le_iff_toNat_le.1 hle
  have hdf : (0 : ℝ) ≤ df.toNat := Nat.cast_nonneg _
  have hratio : (0 : ℝ) ≤ (totalDocs.toNat - df.toNat + 1 / 2) / (df.toNat + 1 / 2) := by
    apply div_nonneg <;> linarith
  show 1 ≤ (((totalDocs.toNat : ℚ) : ℝ) - ((df.toNat : ℚ) : ℝ) + ((1 / 2 : ℚ) : ℝ)) /
    (((df.toNat : ℚ) : ℝ) + ((1 / 2 : ℚ) : ℝ)) + ((1 : ℚ) : ℝ)
  push_cast
  linarith

/-- The counts of a reader: no document is left out of the total, and no leaf of a query is in more
documents than `Bm25Idf` is told there are. -/
structure CountsAgree (r : IndexReader) : Prop where
  total : r.totalDocCount = (r.segments.map (·.docCount)).sum
  df_le : ∀ q, ∀ l ∈ collectLeaves r.schema q, globalDf r l ≤ UInt64.ofNat r.totalDocCount
  argument : ∀ q, ∀ l ∈ collectLeaves r.schema q,
    (1 : ℝ) ≤ idfArgument (UInt64.ofNat r.totalDocCount) (globalDf r l)

section Sealed

variable [LibcDecimal]

/-- **Document counts** agree exactly if an index has fewer than 2^32 documents. -/
theorem countsAgree_iff (ix : SealedIndex) : CountsAgree ix.reader ↔ ix.docs.length < 2 ^ 32 := by
  have htotal : ix.reader.totalDocCount = ix.docs.length % 2 ^ 32 := by
    rw [IndexReader.totalDocCount, sum_docCount]
    rfl
  constructor
  · intro h
    have hsum := h.total
    rw [htotal, sum_docCount] at hsum
    rw [← hsum]
    exact Nat.mod_lt _ (Nat.two_pow_pos 32)
  · intro hlt
    rw [Nat.mod_eq_of_lt hlt] at htotal
    have hdf : ∀ l, globalDf ix.reader l ≤ UInt64.ofNat ix.reader.totalDocCount := fun l ↦ by
      have hle := sum_dfOf_le ix l
      rw [UInt64.le_iff_toNat_le, toNat_globalDf, htotal, UInt64.toNat_ofNat', Nat.mod_eq_of_lt,
        Nat.mod_eq_of_lt]
      · exact hle
      · omega
      · omega
    exact ⟨by rw [htotal, sum_docCount], fun q l _ ↦ hdf l, fun q l _ ↦ one_le_idfArgument (hdf l)⟩

end Sealed

/-- A total of 2^32 documents wraps to none: here each is in a segment of its own. -/
theorem not_countsAgree : ¬∀ ix : @SealedIndex .integral,
    CountsAgree (@SealedIndex.reader .integral ix) := by
  let _ := LibcDecimal.integral
  intro h
  obtain ⟨ix, -, hdoc⟩ := exists_foxIndex
  obtain ⟨seg, hseg, hfirst⟩ := Option.bind_eq_some_iff.1 hdoc
  have hpos : 1 ≤ seg.reader.docCount := by
    rw [seg.docCount_reader]
    exact List.length_pos_of_mem (List.mem_of_getElem? hfirst)
  have htotal := (h { schema := ix.schema, segments := List.replicate (2 ^ 32) seg }).total
  rw [IndexReader.totalDocCount, SealedIndex.reader, List.map_replicate, List.map_replicate,
    List.sum_replicate, smul_eq_mul] at htotal
  have hlt : 2 ^ 32 * seg.reader.docCount % 4294967296 < 2 ^ 32 := Nat.mod_lt _ (by decide)
  rw [htotal] at hlt
  omega

end Spp.Query
