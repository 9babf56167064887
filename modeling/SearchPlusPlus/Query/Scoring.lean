import Mathlib.Analysis.SpecialFunctions.Log.Basic
import SearchPlusPlus.Index.SegmentReader

/-!
# Scores

BM25 and the features of a candidate. A score is a `double`: the operations scoring uses are those
of an `Arith`, a totally ordered type, so that what holds for every `Arith` does not depend on
rounding. The real numbers are the exact one.
-/

namespace Spp.Query

open Index

/-- The arithmetic of scores. -/
class Arith (R : Type) extends LinearOrder R, Add R, Sub R, Mul R, Div R, Neg R where
  /-- A literal, or an integer that is cast. -/
  ofRat : ℚ → R
  /-- A `float` that is widened. -/
  ofF32 : F32 → R
  /-- `static_cast<float>`. -/
  toF32 : R → R
  log : R → R
  exp : R → R

/-- **Exact arithmetic**: nothing is rounded. -/
noncomputable instance exactArith : Arith ℝ where
  toLinearOrder := Real.linearOrder
  toAdd := Real.instAdd
  toSub := Real.instSub
  toMul := Real.instMul
  toDiv := DivInvMonoid.toDiv
  toNeg := Real.instNeg
  ofRat q := q
  ofF32 x := x.value.toRat
  toF32 x := x
  log := Real.log
  exp := Real.exp

/-- The slots of a `FeatureVector`. -/
inductive Feature where
  | bm25Total
  | tfSum
  | idfSum
  | numMatchedTerms
  | numQueryTerms
  | matchRatio
  | docLengthAvg
  | docLengthMin
  | bm25Field0
  | bm25Field1
  | bm25Field2
  | bm25Field3
  | positionDecaySum
  | tokenWeightSum
  | tokenWeightMax
  | docQuality
  | minIdfMatched
  | maxIdfMatched
  | firstPosMinNorm
  deriving DecidableEq, Repr

/-- `FeatureVector`. -/
abbrev FeatureVector (R : Type) : Type := Feature → R

variable {R : Type} [Arith R]

open Arith

/-! ### BM25 -/

/-- `Bm25Params`. -/
structure Bm25Params (R : Type) [Arith R] where
  k1 : R := ofRat (12 / 10)
  b : R := ofRat (75 / 100)

/-- `Bm25Idf`. -/
def bm25Idf (totalDocs df : UInt64) : R :=
  if totalDocs = 0 then ofRat 0
  else
    let n : R := ofRat totalDocs.toNat
    let f : R := ofRat df.toNat
    log ((n - f + ofRat (1 / 2)) / (f + ofRat (1 / 2)) + ofRat 1)

/-- `Bm25Score`. -/
def bm25Score (idf : R) (tf : UInt32) (docLen avgDocLen : R) (params : Bm25Params R) : R :=
  if tf = 0 then ofRat 0
  else
    let tfD : R := ofRat tf.toNat
    let denomFactor := params.k1 * (ofRat 1 - params.b +
      params.b * (if ofRat 0 < avgDocLen then docLen / avgDocLen else ofRat 1))
    idf * ((tfD * (params.k1 + ofRat 1)) / (tfD + denomFactor))

section Exact

/-- With the average as the length of every document, the length has no influence. -/
theorem bm25Score_self (idf avg : ℝ) (tf : UInt32) (params : Bm25Params ℝ) :
    bm25Score idf tf avg avg params =
      if tf = 0 then 0 else idf * (tf.toNat * (params.k1 + 1) / (tf.toNat + params.k1)) := by
  have hratio : (if (0 : ℝ) < avg then avg / avg else 1) = 1 := by
    split_ifs with hpos
    · exact div_self hpos.ne'
    · rfl
  have hdenom : params.k1 * (1 - params.b + params.b * 1) = params.k1 := by ring
  show (if tf = 0 then ((0 : ℚ) : ℝ) else idf *
    (((tf.toNat : ℚ) : ℝ) * (params.k1 + ((1 : ℚ) : ℝ)) /
    (((tf.toNat : ℚ) : ℝ) + params.k1 * (((1 : ℚ) : ℝ) - params.b + params.b *
      (if ((0 : ℚ) : ℝ) < avg then avg / avg else ((1 : ℚ) : ℝ)))))) = _
  push_cast
  rw [hratio, hdenom]

/-- A term of no more than all documents has a positive idf. -/
theorem bm25Idf_pos {totalDocs df : UInt64} (hpos : totalDocs ≠ 0) (hle : df ≤ totalDocs) :
    (0 : ℝ) < bm25Idf totalDocs df := by
  have hle' : (df.toNat : ℝ) ≤ totalDocs.toNat := by exact_mod_cast UInt64.le_iff_toNat_le.1 hle
  have hdf : (0 : ℝ) ≤ df.toNat := Nat.cast_nonneg _
  have hratio : (0 : ℝ) < (totalDocs.toNat - df.toNat + 1 / 2) / (df.toNat + 1 / 2) := by
    apply div_pos <;> linarith
  rw [bm25Idf, if_neg hpos]
  show 0 < Real.log ((((totalDocs.toNat : ℚ) : ℝ) - ((df.toNat : ℚ) : ℝ) + ((1 / 2 : ℚ) : ℝ)) /
    (((df.toNat : ℚ) : ℝ) + ((1 / 2 : ℚ) : ℝ)) + ((1 : ℚ) : ℝ))
  push_cast
  exact Real.log_pos (by linarith)

/-- So has its score, with parameters of the usual signs. -/
theorem bm25Score_self_pos {idf avg : ℝ} {tf : UInt32} {params : Bm25Params ℝ} (hidf : 0 < idf)
    (htf : tf ≠ 0) (hk1 : 0 ≤ params.k1) : 0 < bm25Score idf tf avg avg params := by
  have htf' : (0 : ℝ) < tf.toNat := by
    exact_mod_cast Nat.pos_of_ne_zero fun h ↦ htf (UInt32.toNat_inj.1 h)
  rw [bm25Score_self, if_neg htf]
  positivity

end Exact

/-! ### Features -/

/-- `LeafContextItem`. -/
structure LeafContextItem (R : Type) where
  fieldId : ℕ := kInvalidFieldId
  idf : R
  boost : F32 := F32.one
  positionDecay : F32 := F32.zero
  matched : Bool := false
  tf : UInt32 := 0
  firstPos : UInt16 := 0
  tokenWeight : F32 := F32.one
  fieldLen : R
  avgFieldLen : R

/-- `CandidateContext`; the segment is a pointer. -/
structure CandidateContext (R : Type) where
  segment : Option SegmentReader := none
  docId : ℕ := 0
  numQueryLeaves : ℕ := 0
  leaves : List (LeafContextItem R) := []

/-- The local variables of the loop of `ExtractFeatures`. -/
structure FeatureSums (R : Type) [Arith R] where
  bm25Total : R := ofRat 0
  tfSum : R := ofRat 0
  idfSum : R := ofRat 0
  matched : UInt32 := 0
  perFieldBm25 : Fin 4 → R := fun _ ↦ ofRat 0
  positionDecaySum : R := ofRat 0
  tokenWeightSum : R := ofRat 0
  tokenWeightMax : F32 := F32.zero
  anyWeight : Bool := false
  minIdf : R := ofRat 0
  maxIdf : R := ofRat 0
  anyIdf : Bool := false
  firstPosMinNorm : R := ofRat 0
  anyPos : Bool := false

/-- What a leaf adds to the score of its document. -/
def LeafContextItem.score (l : LeafContextItem R) (params : Bm25Params R) : R :=
  bm25Score l.idf l.tf l.fieldLen l.avgFieldLen params * ofF32 l.boost

namespace FeatureSums

variable (s : FeatureSums R) (l : LeafContextItem R) (params : Bm25Params R)

/-- The score of a leaf, added to the total and to that of its field. -/
def addScore : FeatureSums R :=
  let sc := l.score params
  { s with
    bm25Total := s.bm25Total + sc
    tfSum := s.tfSum + ofRat l.tf.toNat
    idfSum := s.idfSum + l.idf
    perFieldBm25 := if h : l.fieldId < 4
      then Function.update s.perFieldBm25 ⟨l.fieldId, h⟩ (s.perFieldBm25 ⟨l.fieldId, h⟩ + sc)
      else s.perFieldBm25 }

/-- The least and the greatest idf. -/
def addIdf : FeatureSums R :=
  { s with
    minIdf := if !s.anyIdf ∨ l.idf < s.minIdf then l.idf else s.minIdf
    maxIdf := if !s.anyIdf ∨ s.maxIdf < l.idf then l.idf else s.maxIdf
    anyIdf := true }

/-- The first position, in a field that opted in. -/
def addPosition : FeatureSums R :=
  if F32.lt F32.zero l.positionDecay = true ∧ ofRat 0 < l.fieldLen then
    let pos : R := ofRat l.firstPos.toNat
    let norm := pos / l.fieldLen
    { s with
      positionDecaySum := s.positionDecaySum + exp (-ofF32 l.positionDecay * pos / l.fieldLen)
      firstPosMinNorm := if !s.anyPos ∨ norm < s.firstPosMinNorm then norm else s.firstPosMinNorm
      anyPos := true }
  else s

/-- The token weight. -/
def addWeight : FeatureSums R :=
  { s with
    tokenWeightSum := s.tokenWeightSum + ofF32 l.tokenWeight
    tokenWeightMax := if F32.lt s.tokenWeightMax l.tokenWeight then l.tokenWeight
      else s.tokenWeightMax
    anyWeight := true }

/-- A round of the loop of `ExtractFeatures`. -/
def addLeaf : FeatureSums R :=
  if l.matched then
    ((({ s with matched := s.matched + 1 }.addScore l params).addIdf l).addPosition l).addWeight l
  else s

end FeatureSums

/-- `DocQuality` of the candidate, where the segment has it. -/
def CandidateContext.docQuality (ctx : CandidateContext R) : R :=
  match ctx.segment with
  | some seg => if seg.hasDocQuality then ofF32 (seg.docQualityOf ctx.docId) else ofRat 0
  | none => ofRat 0

/-- `ExtractFeatures`. -/
def extractFeatures (ctx : CandidateContext R) (params : Bm25Params R) : FeatureVector R :=
  if ctx.leaves = [] then
    fun
    | .numQueryTerms => toF32 (ofRat ctx.numQueryLeaves)
    | .docQuality => ctx.docQuality
    | _ => ofRat 0
  else
    let s := ctx.leaves.foldl (fun s l ↦ s.addLeaf l params) ({} : FeatureSums R)
    fun
    | .bm25Total => toF32 s.bm25Total
    | .tfSum => toF32 s.tfSum
    | .idfSum => toF32 s.idfSum
    | .numMatchedTerms => toF32 (ofRat s.matched.toNat)
    | .numQueryTerms => toF32 (ofRat ctx.numQueryLeaves)
    | .matchRatio =>
      if ctx.numQueryLeaves = 0 then ofRat 0
      else toF32 (toF32 (ofRat s.matched.toNat) / toF32 (ofRat ctx.numQueryLeaves))
    | .docLengthAvg => ofRat 0
    | .docLengthMin => ofRat 0
    | .bm25Field0 => toF32 (s.perFieldBm25 0)
    | .bm25Field1 => toF32 (s.perFieldBm25 1)
    | .bm25Field2 => toF32 (s.perFieldBm25 2)
    | .bm25Field3 => toF32 (s.perFieldBm25 3)
    | .positionDecaySum => toF32 s.positionDecaySum
    | .tokenWeightSum => if s.anyWeight then toF32 s.tokenWeightSum else ofRat 0
    | .tokenWeightMax => ofF32 s.tokenWeightMax
    | .docQuality => ctx.docQuality
    | .minIdfMatched => if s.anyIdf then toF32 s.minIdf else ofRat 0
    | .maxIdfMatched => if s.anyIdf then toF32 s.maxIdf else ofRat 0
    | .firstPosMinNorm => if s.anyPos then toF32 s.firstPosMinNorm else ofRat 0

/-- `Bm25Ranker::Score`. -/
def bm25Ranker (fv : FeatureVector R) : R := fv .bm25Total

end Spp.Query
