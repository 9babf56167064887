import SearchPlusPlus.Query.WeightFeatures

/-!
# Features and the order of the leaves

A round of the loop of `ExtractFeatures` passes over a leaf that is not matched, and in exact
arithmetic two rounds can be exchanged (`FeatureSums.addMatched_comm`). So the features are those of
the leaves that are matched, in any order (`extractFeatures_exact`).
-/

namespace Spp

/-! ### The greatest weight so far -/

namespace F32

/-- The place of a float among those that are greater than 0. -/
def rank (w : F32) : ℕ := if zero.lt w = true then w.bits.toNat else 0

/-- What the greatest weight can be: it starts as 0 and is raised by `<`. -/
def Raised (m : F32) : Prop := m = zero ∨ zero.lt m = true

theorem zero_lt_iff {w : F32} : zero.lt w = true ↔
    singleFormat.decode w.bits.toNat ≠ .nan ∧ 0 < singleFormat.key w.bits.toNat := by
  have hzero : singleFormat.decode zero.bits.toNat ≠ .nan := by decide
  have hkey : singleFormat.key zero.bits.toNat = 0 := by decide
  rw [lt, FloatFormat.lt, hkey]
  simp [hzero]

/-- A float greater than 0 has its bits as its key. -/
theorem key_of_zero_lt {w : F32} (h : zero.lt w = true) :
    singleFormat.key w.bits.toNat = (w.rank : ℤ) := by
  have hpos := (zero_lt_iff.1 h).2
  rw [rank, if_pos h]
  unfold FloatFormat.key at hpos ⊢
  split_ifs at hpos ⊢ with hneg
  · omega
  · rfl

namespace Raised

variable {m m' w w' : F32}

theorem key_eq (h : m.Raised) : singleFormat.key m.bits.toNat = (m.rank : ℤ) := by
  obtain rfl | h := h
  · decide
  · exact key_of_zero_lt h

theorem decode_ne (h : m.Raised) : singleFormat.decode m.bits.toNat ≠ .nan := by
  obtain rfl | h := h
  · decide
  · exact (zero_lt_iff.1 h).1

theorem eq_of_rank (h : m.Raised) (h' : m'.Raised) (hrank : m.rank = m'.rank) : m = m' := by
  have hbits : ∀ {x : F32}, x.Raised → x.rank = x.bits.toNat := fun {x} hx ↦ by
    obtain rfl | hx := hx
    · decide
    · rw [rank, if_pos hx]
  rw [hbits h, hbits h'] at hrank
  exact congrArg F32.mk (UInt32.toNat_inj.1 hrank)

theorem lt_iff (h : m.Raised) : m.lt w = true ↔ m.rank < w.rank := by
  rw [lt, FloatFormat.lt, h.key_eq]
  simp only [Bool.and_eq_true, bne_iff_ne, ne_eq, decide_eq_true_eq, h.decode_ne,
    not_false_eq_true, true_and]
  by_cases hw : zero.lt w = true
  · rw [key_of_zero_lt hw, Nat.cast_lt]
    exact and_iff_right (zero_lt_iff.1 hw).1
  · rw [show w.rank = 0 from if_neg hw]
    refine iff_of_false (fun hlt ↦ hw (zero_lt_iff.2 ⟨hlt.1, ?_⟩)) (Nat.not_lt_zero _)
    exact (Int.natCast_nonneg _).trans_lt hlt.2

theorem raise (h : m.Raised) (w : F32) : (if m.lt w = true then w else m).Raised := by
  split_ifs with hlt
  · refine Or.inr ?_
    by_contra hw
    have hrank := h.lt_iff.1 hlt
    rw [show w.rank = 0 from if_neg hw] at hrank
    exact Nat.not_lt_zero _ hrank
  · exact h

theorem rank_raise (h : m.Raised) (w : F32) :
    (if m.lt w = true then w else m).rank = max m.rank w.rank := by
  split_ifs with hlt
  · exact (max_eq_right (h.lt_iff.1 hlt).le).symm
  · exact (max_eq_left (not_lt.1 fun hw ↦ hlt (h.lt_iff.2 hw))).symm

/-- Which of two weights comes first makes no difference. -/
theorem raise_comm (h : m.Raised) (w w' : F32) :
    (if (if m.lt w = true then w else m).lt w' = true then w'
      else if m.lt w = true then w else m) =
    if (if m.lt w' = true then w' else m).lt w = true then w
      else if m.lt w' = true then w' else m := by
  refine ((h.raise w).raise w').eq_of_rank ((h.raise w').raise w) ?_
  rw [(h.raise w).rank_raise, (h.raise w').rank_raise, h.rank_raise, h.rank_raise]
  exact max_right_comm _ _ _

end Raised

end F32

namespace Query

open Index Arith

/-! ### Exchanging two rounds -/

attribute [ext] FeatureSums

/-- The first of the values so far in an order, `any` of them seen. -/
def firstOf {A : Type} [LinearOrder A] (any : Bool) (m x : A) : A := if !any ∨ x < m then x else m

theorem firstOf_comm {A : Type} [LinearOrder A] (any : Bool) (m x y : A) :
    firstOf true (firstOf any m x) y = firstOf true (firstOf any m y) x := by
  have hseen : ∀ m x : A, firstOf true m x = min m x := fun m x ↦ by
    rw [firstOf, min_def]
    simp only [Bool.not_true, Bool.false_eq_true, false_or]
    split_ifs with h h' h'
    · exact absurd h (not_lt.2 h')
    · rfl
    · rfl
    · exact absurd (not_le.1 h') h
  cases any with
  | false => exact (hseen x y).trans ((min_comm x y).trans (hseen y x).symm)
  | true =>
    rw [hseen, hseen, hseen, hseen]
    exact min_right_comm m x y

/-- A field that opted in to positions, with a length to divide by. -/
def LeafContextItem.Positioned (l : LeafContextItem ℝ) : Prop :=
  F32.lt F32.zero l.positionDecay = true ∧ (ofRat 0 : ℝ) < l.fieldLen

noncomputable instance (l : LeafContextItem ℝ) : Decidable l.Positioned :=
  inferInstanceAs (Decidable (_ ∧ _))

/-- What a leaf adds to the decayed positions. -/
noncomputable def LeafContextItem.decay (l : LeafContextItem ℝ) : ℝ :=
  if l.Positioned then
    exp (-ofF32 l.positionDecay * (ofRat (l.firstPos.toNat : ℚ) : ℝ) / l.fieldLen)
  else 0

namespace FeatureSums

variable (s : FeatureSums ℝ) (l l' : LeafContextItem ℝ) (params : Bm25Params ℝ)

/-- A round for a leaf that is matched. -/
noncomputable def addMatched : FeatureSums ℝ :=
  ((({ s with matched := s.matched + 1 }.addScore l params).addIdf l).addPosition l).addWeight l

/-- The least norm of a position, after a round. -/
noncomputable def firstPosMinNormAfter : ℝ :=
  if l.Positioned then
    firstOf s.anyPos s.firstPosMinNorm ((ofRat (l.firstPos.toNat : ℚ) : ℝ) / l.fieldLen)
  else s.firstPosMinNorm

theorem addPosition_eq : s.addPosition l =
    { s with
      positionDecaySum := s.positionDecaySum + l.decay
      firstPosMinNorm := s.firstPosMinNormAfter l
      anyPos := s.anyPos || decide l.Positioned } := by
  by_cases h : l.Positioned
  · rw [LeafContextItem.decay, firstPosMinNormAfter, if_pos h, if_pos h, decide_eq_true h,
      Bool.or_true, addPosition]
    exact if_pos h
  · rw [LeafContextItem.decay, firstPosMinNormAfter, if_neg h, if_neg h, decide_eq_false h,
      Bool.or_false, addPosition]
    refine (if_neg h).trans ?_
    rw [show s.positionDecaySum + (0 : ℝ) = s.positionDecaySum from add_zero _]

/-- **What a round makes of each of the sums.** -/
theorem addMatched_eq : s.addMatched l params =
    { bm25Total := s.bm25Total + l.score params
      tfSum := s.tfSum + ofRat (l.tf.toNat : ℚ)
      idfSum := s.idfSum + l.idf
      matched := s.matched + 1
      perFieldBm25 := fun i ↦ s.perFieldBm25 i + if l.fieldId = i then l.score params else (0 : ℝ)
      positionDecaySum := s.positionDecaySum + l.decay
      tokenWeightSum := s.tokenWeightSum + ofF32 l.tokenWeight
      tokenWeightMax := if s.tokenWeightMax.lt l.tokenWeight = true then l.tokenWeight
        else s.tokenWeightMax
      anyWeight := true
      minIdf := firstOf s.anyIdf s.minIdf l.idf
      maxIdf := @firstOf ℝᵒᵈ _ s.anyIdf s.maxIdf l.idf
      anyIdf := true
      firstPosMinNorm := s.firstPosMinNormAfter l
      anyPos := s.anyPos || decide l.Positioned } := by
  rw [addMatched, addPosition_eq]
  refine FeatureSums.ext rfl rfl rfl rfl ?_ rfl rfl rfl rfl rfl rfl rfl rfl rfl
  funext i
  show (if h : l.fieldId < 4 then Function.update s.perFieldBm25 ⟨l.fieldId, h⟩
    (s.perFieldBm25 ⟨l.fieldId, h⟩ + l.score params) else s.perFieldBm25) i =
      s.perFieldBm25 i + if l.fieldId = i then l.score params else (0 : ℝ)
  split_ifs with h hi hi
  · obtain rfl : (⟨l.fieldId, h⟩ : Fin 4) = i := Fin.ext hi
    rw [Function.update_self]
  · rw [Function.update_of_ne fun heq ↦ hi (congrArg Fin.val heq.symm)]
    exact (add_zero _).symm
  · exact absurd (hi ▸ i.isLt) h
  · exact (add_zero _).symm

/-- **Two rounds can be exchanged.** -/
theorem addMatched_comm (hs : s.tokenWeightMax.Raised) :
    (s.addMatched l params).addMatched l' params =
      (s.addMatched l' params).addMatched l params := by
  have hnorm : (s.addMatched l params).firstPosMinNormAfter l' =
      (s.addMatched l' params).firstPosMinNormAfter l := by
    simp only [addMatched_eq, firstPosMinNormAfter]
    by_cases h : l.Positioned
    · by_cases h' : l'.Positioned
      · simp only [if_pos h, if_pos h', decide_eq_true h, decide_eq_true h', Bool.or_true]
        exact firstOf_comm _ _ _ _
      · simp only [if_pos h, if_neg h', decide_eq_false h', Bool.or_false]
    · by_cases h' : l'.Positioned
      · simp only [if_neg h, if_pos h', decide_eq_false h, Bool.or_false]
      · simp only [if_neg h, if_neg h']
  simp only [addMatched_eq] at hnorm ⊢
  refine FeatureSums.ext ?_ ?_ ?_ rfl ?_ ?_ ?_ ?_ rfl ?_ ?_ rfl hnorm ?_
  · exact add_right_comm _ _ _
  · exact add_right_comm _ _ _
  · exact add_right_comm _ _ _
  · funext i
    exact add_right_comm _ _ _
  · exact add_right_comm _ _ _
  · exact add_right_comm _ _ _
  · exact hs.raise_comm _ _
  · exact firstOf_comm _ _ _ _
  · exact @firstOf_comm ℝᵒᵈ _ _ _ _ _
  · exact Bool.or_right_comm _ _ _

/-- What holds of the sums after any rounds. -/
structure Kept (s : FeatureSums ℝ) : Prop where
  raised : s.tokenWeightMax.Raised
  idf_le : s.anyIdf = true → s.minIdf ≤ s.maxIdf

theorem Kept.start : Kept {} where
  raised := Or.inl rfl
  idf_le h := absurd h Bool.false_ne_true

theorem Kept.addMatched {s : FeatureSums ℝ} (hs : s.Kept) : (s.addMatched l params).Kept := by
  rw [addMatched_eq]
  refine ⟨hs.raised.raise _, fun _ ↦ ?_⟩
  show firstOf s.anyIdf s.minIdf l.idf ≤ @firstOf ℝᵒᵈ _ s.anyIdf s.maxIdf l.idf
  cases hany : s.anyIdf with
  | false => exact le_rfl
  | true =>
    have hle := hs.idf_le hany
    show (if false = true ∨ l.idf < s.minIdf then l.idf else s.minIdf) ≤
      if false = true ∨ s.maxIdf < l.idf then l.idf else s.maxIdf
    simp only [Bool.false_eq_true, false_or]
    split_ifs with h h' h'
    · exact le_rfl
    · exact h.le.trans hle
    · exact hle.trans h'.le
    · exact hle

theorem foldl_addLeaf (ls : List (LeafContextItem ℝ)) :
    ls.foldl (fun s l ↦ s.addLeaf l params) s =
      (ls.filter (·.matched)).foldl (fun s l ↦ s.addMatched l params) s := by
  rw [List.foldl_filter]
  rfl

theorem foldl_addMatched_perm {ls ls' : List (LeafContextItem ℝ)} (h : ls.Perm ls') :
    ∀ s : FeatureSums ℝ, s.Kept → ls.foldl (fun s l ↦ s.addMatched l params) s =
      ls'.foldl (fun s l ↦ s.addMatched l params) s := by
  induction h with
  | nil => exact fun s _ ↦ rfl
  | cons l _ ih => exact fun s hs ↦ ih _ (hs.addMatched l params)
  | swap l l' ls =>
    intro s hs
    rw [List.foldl_cons, List.foldl_cons, List.foldl_cons, List.foldl_cons,
      addMatched_comm s l' l params hs.raised]
  | trans _ _ ih ih' => exact fun s hs ↦ (ih s hs).trans (ih' s hs)

theorem Kept.foldl (ls : List (LeafContextItem ℝ)) : ∀ s : FeatureSums ℝ, s.Kept →
    (ls.foldl (fun s l ↦ s.addMatched l params) s).Kept := by
  induction ls with
  | nil => exact fun s hs ↦ hs
  | cons l ls ih => exact fun s hs ↦ ih _ (hs.addMatched l params)

end FeatureSums

/-! ### The features -/

section Features

variable (ctx : CandidateContext ℝ) (params : Bm25Params ℝ) {ls ls' : List (LeafContextItem ℝ)}

/-- The sums of some leaves. -/
noncomputable def sumsOf (ls : List (LeafContextItem ℝ)) : FeatureSums ℝ :=
  ls.foldl (fun s l ↦ s.addLeaf l params) {}

/-- The path for no leaves returns what the loop makes of leaves that are not matched. -/
theorem extractFeatures_of_none (h : sumsOf params ls = {}) :
    extractFeatures { ctx with leaves := ls } params =
      extractFeatures { ctx with leaves := [] } params := by
  by_cases hnil : ls = []
  · rw [hnil]
  have hzero : ((0 : ℚ) : ℝ) = 0 := Rat.cast_zero
  rw [sumsOf] at h
  rw [extractFeatures, extractFeatures, if_neg hnil, if_pos rfl]
  funext f
  simp only [h]
  cases f with
  | matchRatio =>
    show (if ctx.numQueryLeaves = 0 then ((0 : ℚ) : ℝ)
      else ((0 : ℕ) : ℚ) / ((ctx.numQueryLeaves : ℚ) : ℝ)) = ((0 : ℚ) : ℝ)
    split_ifs
    · rfl
    · simp
  | tokenWeightMax =>
    have hvalue : F32.zero.value = .finite false 0 (-149) := by decide
    show (F32.zero.value.toRat : ℝ) = ((0 : ℚ) : ℝ)
    rw [hvalue, FloatValue.toRat]
    norm_num
  | _ => rfl

theorem extractFeatures_congr (h : sumsOf params ls = sumsOf params ls') :
    extractFeatures { ctx with leaves := ls } params =
      extractFeatures { ctx with leaves := ls' } params := by
  by_cases hnil : ls = []
  · subst hnil
    exact (extractFeatures_of_none ctx params h.symm).symm
  by_cases hnil' : ls' = []
  · subst hnil'
    exact extractFeatures_of_none ctx params h
  rw [sumsOf, sumsOf] at h
  rw [extractFeatures, extractFeatures, if_neg hnil, if_neg hnil']
  simp only [h]
  rfl

/-- **Features do not depend on the order of the leaves or on unmatched leaves**, in exact
arithmetic, and the least idf is at most the greatest. -/
theorem extractFeatures_exact :
    (∀ ls, ls.Perm ctx.leaves →
      extractFeatures { ctx with leaves := ls } params = extractFeatures ctx params) ∧
    (∀ ls, ls.filter (·.matched) = ctx.leaves.filter (·.matched) →
      extractFeatures { ctx with leaves := ls } params = extractFeatures ctx params) ∧
    extractFeatures ctx params .minIdfMatched ≤ extractFeatures ctx params .maxIdfMatched := by
  have hkept : (sumsOf params ctx.leaves).Kept := by
    rw [sumsOf, FeatureSums.foldl_addLeaf]
    exact FeatureSums.Kept.foldl params _ _ .start
  refine ⟨fun ls h ↦ ?_, fun ls h ↦ ?_, ?_⟩
  · refine extractFeatures_congr ctx params ?_
    rw [sumsOf, sumsOf, FeatureSums.foldl_addLeaf, FeatureSums.foldl_addLeaf]
    exact FeatureSums.foldl_addMatched_perm params (h.filter _) _ .start
  · refine extractFeatures_congr ctx params ?_
    rw [sumsOf, sumsOf, FeatureSums.foldl_addLeaf, FeatureSums.foldl_addLeaf, h]
  · rw [extractFeatures]
    by_cases hnil : ctx.leaves = []
    · rw [if_pos hnil]
    · rw [if_neg hnil]
      show (if (sumsOf params ctx.leaves).anyIdf = true then (sumsOf params ctx.leaves).minIdf
          else ((0 : ℚ) : ℝ)) ≤
        if (sumsOf params ctx.leaves).anyIdf = true then (sumsOf params ctx.leaves).maxIdf
          else ((0 : ℚ) : ℝ)
      split_ifs with hany
      · exact hkept.idf_le hany
      · exact le_rfl

end Features

end Query

end Spp
