import SearchPlusPlus.Index.SchemaRoundTrip
import SearchPlusPlus.Query.Scoring

/-!
# Rankers

`LinearRanker`, its score and its JSON, and the stub behind `CatboostRanker`. What `ToJson` shows is
taken by `FromJson` as the same ranker exactly if all numbers are finite
(`LinearRanker.readsBack_iff`): JSON has no infinities, a weight that is none is refused, and a bias
that is none is dropped.
-/

namespace Spp.Query

open Json Index Arith

/-- `kFeatureCount`. -/
def kFeatureCount : ℕ := 19

namespace Feature

/-- The slots in their order. -/
def all : List Feature :=
  [bm25Total, tfSum, idfSum, numMatchedTerms, numQueryTerms, matchRatio, docLengthAvg,
    docLengthMin, bm25Field0, bm25Field1, bm25Field2, bm25Field3, positionDecaySum, tokenWeightSum,
    tokenWeightMax, docQuality, minIdfMatched, maxIdfMatched, firstPosMinNorm]

/-- `FeatureName`. -/
def name : Feature → Bytes
  | bm25Total => str "bm25_total"
  | tfSum => str "tf_sum"
  | idfSum => str "idf_sum"
  | numMatchedTerms => str "num_matched_terms"
  | numQueryTerms => str "num_query_terms"
  | matchRatio => str "match_ratio"
  | docLengthAvg => str "doc_length_avg"
  | docLengthMin => str "doc_length_min"
  | bm25Field0 => str "bm25_field0"
  | bm25Field1 => str "bm25_field1"
  | bm25Field2 => str "bm25_field2"
  | bm25Field3 => str "bm25_field3"
  | positionDecaySum => str "position_decay_sum"
  | tokenWeightSum => str "token_weight_sum"
  | tokenWeightMax => str "token_weight_max"
  | docQuality => str "doc_quality"
  | minIdfMatched => str "min_idf_matched"
  | maxIdfMatched => str "max_idf_matched"
  | firstPosMinNorm => str "first_pos_min_norm"

theorem mem_all (f : Feature) : f ∈ all := by cases f <;> decide

theorem length_all : all.length = kFeatureCount := rfl

theorem getElem?_all_idxOf (f : Feature) : all[all.idxOf f]? = some f := by cases f <;> rfl

end Feature

/-- `LinearRanker`. -/
structure LinearRanker where
  bias : F32 := F32.zero
  weights : Feature → F32 := fun _ ↦ F32.zero

namespace LinearRanker

/-- `LinearRanker::Score`. -/
def score {R : Type} [Arith R] (r : LinearRanker) (fv : FeatureVector R) : R :=
  toF32 (Feature.all.foldl (fun s f ↦ s + ofF32 (r.weights f) * fv f) (ofF32 r.bias))

/-- `LinearRanker::ToJson`. -/
def toJson (r : LinearRanker) : JsonValue := mkObject
  [(str "type", .string (str "linear")),
    (str "bias", .double r.bias.toF64),
    (str "weights", .array (Feature.all.map fun f ↦ .double (r.weights f).toF64)),
    (str "feature_names", .array (Feature.all.map fun f ↦ .string f.name))]

/-- The ranker of a bias and of weights in the order of the slots. -/
def ofWeights (bias : F32) (weights : List F32) : LinearRanker :=
  { bias, weights := fun f ↦ weights.getD (Feature.all.idxOf f) F32.zero }

/-- A round of the loop of `FromJson`. -/
def weightOfJson (v : JsonValue) : Expected F32 :=
  if v.isNumber then .ok v.asDouble.toF32
  else .error (.invalidArgument (str "linear ranker: non-numeric weight"))

/-- `LinearRanker::FromJson`. -/
def fromJson (v : JsonValue) : Expected LinearRanker :=
  match v with
  | .object _ =>
    let bias := ((v.findNumber (str "bias")).map F64.toF32).getD F32.zero
    match v.find (str "weights") with
    | some (.array arr) =>
      if arr.length ≠ kFeatureCount then
        .error (.invalidArgument
          (str "linear ranker: 'weights' length must equal feature count"))
      else (arr.mapM weightOfJson).map (ofWeights bias)
    | _ => .error (.invalidArgument (str "linear ranker: missing 'weights' array"))
  | _ => .error (.invalidArgument (str "linear ranker: expected object"))

end LinearRanker

/-- `apply_catboost_model`, as long as no trained model takes its place. -/
def applyCatboostModel {R : Type} (floatFeatures : List R) (zero : R) : R :=
  floatFeatures.headD zero

/-- `CatboostRanker::Score`. -/
def catboostRanker {R : Type} [Arith R] (fv : FeatureVector R) : R :=
  toF32 (applyCatboostModel (Feature.all.map fv) (ofRat 0))

/-! ### What is shown can be put back -/

namespace LinearRanker

/-- The floats of a ranker. -/
def floats (r : LinearRanker) : List F32 := r.bias :: Feature.all.map r.weights

/-- JSON can hold them. -/
def Finite (r : LinearRanker) : Prop := ∀ x ∈ r.floats, x.isFinite = true

instance : DecidablePred Finite := fun r ↦ inferInstanceAs (Decidable (∀ x ∈ r.floats, _))

/-- The same ranker, floats compared as floats. -/
structure Same (r r' : LinearRanker) : Prop where
  bias : r.bias.Same r'.bias
  weights : ∀ f, (r.weights f).Same (r'.weights f)

theorem mem_floats (r : LinearRanker) (f : Feature) : r.weights f ∈ r.floats :=
  List.mem_cons_of_mem _ (List.mem_map_of_mem (f := r.weights) f.mem_all)

variable [LibcDecimal]

/-- Decimal printing and reading is exact on the finite floats of a ranker. -/
def Exact (r : LinearRanker) : Prop := ∀ x ∈ r.floats, x.isFinite = true → ReadsBack x.toF64

/-- The ranker that JSON of a ranker is read as. -/
def readBack (r : LinearRanker) : LinearRanker where
  bias := rereadFloat r.bias F32.zero
  weights f := rereadFloat (r.weights f) F32.zero

omit [LibcDecimal] in
theorem toJson_eq (r : LinearRanker) : r.toJson = .object
    [(str "bias", .double r.bias.toF64),
      (str "feature_names", .array (Feature.all.map fun f ↦ .string f.name)),
      (str "type", .string (str "linear")),
      (str "weights", .array (Feature.all.map fun f ↦ .double (r.weights f).toF64))] := rfl

omit [LibcDecimal] in
theorem toJson_wellFormed (r : LinearRanker) : r.toJson.WellFormed := by
  refine JsonValue.wellFormed_mkObject fun p hp ↦ ?_
  simp only [List.mem_cons, List.not_mem_nil, or_false] at hp
  rcases hp with rfl | rfl | rfl | rfl
  · trivial
  · trivial
  · exact wellFormedElems_iff.2 (List.forall_mem_map.2 fun _ _ ↦ trivial)
  · exact wellFormedElems_iff.2 (List.forall_mem_map.2 fun _ _ ↦ trivial)

theorem doublesPrint_toF64 {x : F32} (h : x.isFinite = true → ReadsBack x.toF64) :
    DoublesPrint (.double x.toF64) := by
  intro hfin
  obtain ⟨v, hv, -⟩ := h (x.isFinite_toF64.symm.trans hfin)
  exact ⟨v, hv⟩

theorem Exact.toJson_doublesPrint {r : LinearRanker} (h : r.Exact) : DoublesPrint r.toJson := by
  have hweights : DoublesPrintElems (Feature.all.map fun f ↦ .double (r.weights f).toF64) :=
    doublesPrintElems_iff.2 (List.forall_mem_map.2 fun f _ ↦
      doublesPrint_toF64 (h _ (r.mem_floats f)))
  have hnames : DoublesPrintElems (Feature.all.map fun f ↦ .string f.name) :=
    doublesPrintElems_iff.2 (List.forall_mem_map.2 fun _ _ ↦ trivial)
  rw [toJson_eq]
  exact ⟨doublesPrint_toF64 (h _ List.mem_cons_self), hnames, trivial, hweights, trivial⟩

/-- A number is read back as a number. -/
theorem weightOfJson_rereadDouble {x : F32} (h : x.isFinite = true → ReadsBack x.toF64) :
    weightOfJson (rereadDouble x.toF64) =
      if x.isFinite then .ok (rereadFloat x F32.zero)
      else .error (.invalidArgument (str "linear ranker: non-numeric weight")) := by
  rw [weightOfJson, rereadFloat]
  by_cases hx : x.isFinite = true
  · obtain ⟨v, hv, hnum, -⟩ := h hx
    rw [rereadDouble_of_printsAs (x.isFinite_toF64.trans hx) hv, if_pos hnum, if_pos hx,
      if_pos hnum]
  · have hnull : rereadDouble x.toF64 = .null := by
      rw [rereadDouble, x.isFinite_toF64, if_neg hx]
    rw [hnull, if_neg hx]
    rfl

/-- The weights are read until one is no number. -/
theorem mapM_weightOfJson {xs : List F32} (h : ∀ x ∈ xs, x.isFinite = true → ReadsBack x.toF64) :
    (xs.map fun x ↦ rereadDouble x.toF64).mapM weightOfJson =
      if ∀ x ∈ xs, x.isFinite = true then .ok (xs.map fun x ↦ rereadFloat x F32.zero)
      else .error (.invalidArgument (str "linear ranker: non-numeric weight")) := by
  induction xs with
  | nil => rfl
  | cons x xs ih =>
    rw [List.map_cons, List.mapM_cons, weightOfJson_rereadDouble (h x List.mem_cons_self),
      ih fun y hy ↦ h y (List.mem_cons_of_mem _ hy)]
    by_cases hx : x.isFinite = true
    · by_cases hxs : ∀ y ∈ xs, y.isFinite = true
      · have hall : ∀ y ∈ x :: xs, y.isFinite = true := List.forall_mem_cons.2 ⟨hx, hxs⟩
        rw [if_pos hx, if_pos hxs, if_pos hall]
        rfl
      · have hnot : ¬∀ y ∈ x :: xs, y.isFinite = true :=
          fun hall ↦ hxs fun y hy ↦ hall y (List.mem_cons_of_mem _ hy)
        rw [if_pos hx, if_neg hxs, if_neg hnot]
        rfl
    · have hnot : ¬∀ y ∈ x :: xs, y.isFinite = true := fun hall ↦ hx (hall x List.mem_cons_self)
      rw [if_neg hx, if_neg hnot]
      rfl

omit [LibcDecimal] in
/-- The weights of a ranker, in the order of the slots. -/
theorem ofWeights_map (bias : F32) (weights : Feature → F32) :
    ofWeights bias (Feature.all.map weights) = { bias, weights } := by
  have hslot : ∀ f, (Feature.all.map weights).getD (Feature.all.idxOf f) F32.zero = weights f := by
    intro f
    rw [List.getD_eq_getElem?_getD, List.getElem?_map, f.getElem?_all_idxOf]
    rfl
  rw [ofWeights, funext hslot]

/-- What `ToJson` wrote is read by `FromJson`. -/
theorem fromJson_reread_toJson {r : LinearRanker} (h : r.Exact) : fromJson (reread r.toJson) =
    if ∀ x ∈ Feature.all.map r.weights, x.isFinite = true then .ok r.readBack
    else .error (.invalidArgument (str "linear ranker: non-numeric weight")) := by
  have hweights : (reread r.toJson).find (str "weights") =
      some (.array ((Feature.all.map r.weights).map fun x ↦ rereadDouble x.toF64)) := by
    rw [toJson_eq]
    show some (JsonValue.array (rereadElems _)) = _
    rw [rereadElems_eq_map, List.map_map, List.map_map]
    rfl
  have hbias : ((reread r.toJson).findNumber (str "bias")).map F64.toF32 =
      if (rereadDouble r.bias.toF64).isNumber then some (rereadDouble r.bias.toF64).asDouble.toF32
      else none := by
    show (if (rereadDouble r.bias.toF64).isNumber then _ else _ : Option F64).map _ = _
    split_ifs <;> rfl
  obtain ⟨o, ho⟩ : ∃ o, reread r.toJson = .object o := ⟨_, rfl⟩
  rw [ho] at hweights hbias ⊢
  rw [fromJson, hweights, hbias]
  dsimp only
  rw [List.length_map, List.length_map, Feature.length_all, if_neg (not_not_intro rfl),
    mapM_weightOfJson fun x hx ↦ h x (List.mem_cons_of_mem _ hx)]
  by_cases hfin : ∀ x ∈ Feature.all.map r.weights, x.isFinite = true
  · rw [if_pos hfin, if_pos hfin, Except.map, List.map_map]
    refine congrArg Except.ok ((ofWeights_map _ _).trans ?_)
    rw [readBack, rereadFloat]
    congr 1
    split_ifs <;> rfl
  · rw [if_neg hfin, if_neg hfin]
    rfl

/-- **What is shown of a ranker can be put back**, as the same ranker, exactly if all its floats
are finite. -/
theorem readsBack_iff {r : LinearRanker} (h : r.Exact) :
    (∃ v r', parse (serialize r.toJson) = .ok v ∧ fromJson v = .ok r' ∧ r.Same r') ↔ r.Finite := by
  have hfloats : ∀ x ∈ r.floats, (x.Same (rereadFloat x F32.zero) ↔ x.isFinite = true) :=
    fun x hx ↦ same_rereadFloat_iff F32.zero (by decide) (h x hx)
  have hparse := parse_serialize r.toJson_wellFormed h.toJson_doublesPrint
  constructor
  · rintro ⟨v, r', hv, hr', hsame⟩
    obtain rfl := Except.ok.inj (hparse.symm.trans hv)
    rw [fromJson_reread_toJson h] at hr'
    split_ifs at hr' with hfin
    obtain rfl := Except.ok.inj hr'
    intro x hx
    rcases List.mem_cons.1 hx with rfl | hx
    · exact (hfloats _ List.mem_cons_self).1 hsame.bias
    · exact hfin x hx
  · intro hfin
    have hweights : ∀ x ∈ Feature.all.map r.weights, x.isFinite = true :=
      fun x hx ↦ hfin x (List.mem_cons_of_mem _ hx)
    refine ⟨_, r.readBack, hparse, ?_, ?_, fun f ↦ ?_⟩
    · rw [fromJson_reread_toJson h, if_pos hweights]
    · exact (hfloats _ List.mem_cons_self).2 (hfin _ List.mem_cons_self)
    · exact (hfloats _ (r.mem_floats f)).2 (hfin _ (r.mem_floats f))

section Samples

omit [LibcDecimal]

/-- The weight of a single slot. -/
def single (f : Feature) (w : F32) : LinearRanker where
  weights f' := if f' = f then w else F32.zero

/-- Infinity. -/
def infinity : F32 := ⟨0x7F800000⟩

theorem mem_floats_single {f : Feature} {w x : F32} (h : x ∈ (single f w).floats) :
    x = F32.zero ∨ x = w := by
  rcases List.mem_cons.1 h with rfl | h
  · exact Or.inl rfl
  · obtain ⟨f', -, rfl⟩ := List.mem_map.1 h
    show (if f' = f then w else F32.zero) = _ ∨ (if f' = f then w else F32.zero) = _
    split_ifs
    · exact Or.inr rfl
    · exact Or.inl rfl

theorem exact_single (f : Feature) {w : F32}
    (h : w.isFinite = true → @ReadsBack .integral w.toF64) : @Exact .integral (single f w) := by
  intro x hx
  rcases mem_floats_single hx with rfl | rfl
  · exact fun _ ↦ readsBack_zero
  · exact h

/-- A ranker that can be put back, and one that cannot. -/
theorem readsBack_iff_sample :
    (∃ v r', @parse .integral (@serialize .integral (single .bm25Total F32.one).toJson) = .ok v ∧
      fromJson v = .ok r' ∧ (single .bm25Total F32.one).Same r') ∧
    ¬∃ v r', @parse .integral (@serialize .integral (single .bm25Total infinity).toJson) = .ok v ∧
      fromJson v = .ok r' ∧ (single .bm25Total infinity).Same r' := by
  let _ := LibcDecimal.integral
  have hone : Exact (single .bm25Total F32.one) := exact_single _ fun _ ↦ readsBack_one
  have hinf : Exact (single .bm25Total infinity) := exact_single _ fun h ↦ absurd h (by decide)
  refine ⟨(readsBack_iff hone).2 (by decide), fun h ↦ ?_⟩
  exact absurd ((readsBack_iff hinf).1 h) (by decide)

end Samples

end LinearRanker

end Spp.Query
