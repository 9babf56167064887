import SearchPlusPlus.Index.IndexWriter

/-!
# Segment stems

A stem is read back from its text: the digits up to the dash are the generation, those behind it
the number of the segment. So different stems differ, and so do all the files under them, which
differ from the other files of the directory as well.
-/

namespace Spp.Index

open Json Store

theorem digitsValue_replicate_zero (k : ℕ) (ds : Bytes) :
    digitsValue (List.replicate k 48 ++ ds) = digitsValue ds := by
  induction k with
  | zero => rfl
  | succ k ih => exact ih

/-- Padding does not change the number. -/
theorem digitsValue_padDecimal (width n : ℕ) : digitsValue (padDecimal width n) = n := by
  rw [padDecimal, digitsValue_replicate_zero, digitsValue_decimal]

theorem isDigit_of_mem_padDecimal {width n : ℕ} {c : UInt8} (h : c ∈ padDecimal width n) :
    isDigit c = true := by
  rcases List.mem_append.1 h with h | h
  · rw [List.eq_of_mem_replicate h]
    rfl
  · exact isDigit_of_mem_decimal n c h

/-- Digits end where something else begins. -/
theorem digits_append_inj {ds ds' r r' : Bytes} {c : UInt8} (hds : ∀ b ∈ ds, isDigit b = true)
    (hds' : ∀ b ∈ ds', isDigit b = true) (hc : isDigit c = false)
    (h : ds ++ c :: r = ds' ++ c :: r') : ds = ds' ∧ r = r' := by
  have htake : ∀ {l t : Bytes}, (∀ b ∈ l, isDigit b = true) →
      (l ++ c :: t).takeWhile isDigit = l := by
    intro l t hl
    rw [List.takeWhile_append_of_pos hl, List.takeWhile_cons_of_neg (by simp [hc]),
      List.append_nil]
  have heq : ds = ds' := by rw [← htake hds (t := r), h, htake hds']
  subst heq
  exact ⟨rfl, (List.cons.inj (List.append_cancel_left h)).2⟩

/-- **Stems are distinct.** -/
theorem makeSegmentStem_inj {gen gen' : Generation} {id id' : UInt32}
    (h : makeSegmentStem gen id = makeSegmentStem gen' id') : gen = gen' ∧ id = id' := by
  have hparts : padDecimal 20 gen.toNat ++ 45 :: padDecimal 10 id.toNat =
      padDecimal 20 gen'.toNat ++ 45 :: padDecimal 10 id'.toNat := by
    have hdash : str "-" = [45] := rfl
    simpa [makeSegmentStem, hdash] using h
  obtain ⟨hgen, hid⟩ := digits_append_inj (fun b hb ↦ isDigit_of_mem_padDecimal hb)
    (fun b hb ↦ isDigit_of_mem_padDecimal hb) rfl hparts
  have hgen' := congrArg digitsValue hgen
  have hid' := congrArg digitsValue hid
  rw [digitsValue_padDecimal, digitsValue_padDecimal] at hgen' hid'
  exact ⟨UInt64.toNat_inj.1 hgen', UInt32.toNat_inj.1 hid'⟩

/-- The extensions start with a dot. -/
theorem mem_segmentNames {stem n : Bytes} (h : n ∈ segmentNames stem) :
    ∃ ext, n = stem ++ 46 :: ext := by
  obtain ⟨ext, hext, rfl⟩ := List.mem_map.1 h
  simp only [List.mem_cons, List.not_mem_nil, or_false] at hext
  rcases hext with rfl | rfl | rfl | rfl | rfl | rfl <;> exact ⟨_, rfl⟩

theorem dot_not_mem_makeSegmentStem (gen : Generation) (id : UInt32) :
    46 ∉ makeSegmentStem gen id := by
  have hdigits : ∀ width n, (46 : UInt8) ∉ padDecimal width n := fun width n h ↦ by
    have := isDigit_of_mem_padDecimal h
    simp [isDigit] at this
  simp only [makeSegmentStem, List.mem_append, not_or]
  exact ⟨⟨⟨by decide, hdigits _ _⟩, by decide⟩, hdigits _ _⟩

/-- The files of different segments are different files. -/
theorem segmentNames_disjoint {gen gen' : Generation} {id id' : UInt32}
    (hne : makeSegmentStem gen id ≠ makeSegmentStem gen' id') :
    (segmentNames (makeSegmentStem gen id)).Disjoint (segmentNames (makeSegmentStem gen' id')) := by
  intro n h h'
  obtain ⟨ext, rfl⟩ := mem_segmentNames h
  obtain ⟨ext', heq⟩ := mem_segmentNames h'
  have htake : ∀ (g : Generation) (i : UInt32) (e : Bytes),
      (makeSegmentStem g i ++ 46 :: e).takeWhile (· ≠ 46) = makeSegmentStem g i := by
    intro g i e
    rw [List.takeWhile_append_of_pos, List.takeWhile_cons_of_neg (by simp), List.append_nil]
    intro b hb
    exact decide_eq_true fun h ↦ dot_not_mem_makeSegmentStem g i (h ▸ hb)
  exact hne (by rw [← htake gen id ext, heq, htake])

/-- The other files of the directory are no segment files. -/
theorem not_mem_segmentNames {gen : Generation} {id : UInt32} {n : Bytes}
    (hn : n.take 4 ≠ str "seg-") : n ∉ segmentNames (makeSegmentStem gen id) := by
  intro h
  obtain ⟨ext, rfl⟩ := mem_segmentNames h
  refine hn ?_
  rw [makeSegmentStem, List.append_assoc, List.append_assoc, List.append_assoc]
  exact List.take_left' rfl

end Spp.Index
