import Mathlib.Data.List.Basic

/-!
# Compaction

A list whose unwanted elements were dropped, read by the positions of the whole list with a default
for what is missing. The two readings agree as far as the default stands for everything behind the
first dropped element (`readCompact_eq_iff`).
-/

namespace Compaction

variable {α β : Type*} (p : α → Bool) (g : α → β) (d : β)

/-- The images of the wanted elements. -/
def compact (xs : List α) : List β := (xs.filter p).map g

/-- The image at a position of the whole list, the default where nothing wanted stands. -/
def readAt (xs : List α) (i : ℕ) : β := ((xs[i]?.filter p).map g).getD d

variable {p g d} {xs : List α} {x : α}

theorem compact_cons_of_pos (hx : p x = true) :
    compact p g (x :: xs) = g x :: compact p g xs := by
  rw [compact, List.filter_cons_of_pos hx]
  rfl

theorem compact_cons_of_neg (hx : p x = false) : compact p g (x :: xs) = compact p g xs := by
  rw [compact, List.filter_cons_of_neg (by simp [hx])]
  rfl

theorem readAt_zero_of_pos (hx : p x = true) : readAt p g d (x :: xs) 0 = g x := by
  simp [readAt, Option.filter_some, hx]

theorem readAt_zero_of_neg (hx : p x = false) : readAt p g d (x :: xs) 0 = d := by
  simp [readAt, Option.filter_some, hx]

/-- What is read at a position is the default, or stands no further back in the compaction. -/
theorem readAt_cases (xs : List α) (i : ℕ) :
    readAt p g d xs i = d ∨ ∃ j ≤ i, (compact p g xs)[j]? = some (readAt p g d xs i) := by
  induction xs generalizing i with
  | nil => exact .inl rfl
  | cons x xs ih =>
    cases hx : p x with
    | false =>
      rw [compact_cons_of_neg hx]
      cases i with
      | zero => exact .inl (readAt_zero_of_neg hx)
      | succ i =>
        refine (ih i).imp_right fun ⟨j, hj, h⟩ ↦ ⟨j, Nat.le_succ_of_le hj, h⟩
    | true =>
      rw [compact_cons_of_pos hx]
      cases i with
      | zero => exact .inr ⟨0, Nat.le_refl 0, by rw [readAt_zero_of_pos hx]; rfl⟩
      | succ i =>
        refine (ih i).imp_right fun ⟨j, hj, h⟩ ↦ ⟨j + 1, Nat.succ_le_succ hj, h⟩

theorem forall_mem_take_iff {ys : List β} {n : ℕ} :
    (∀ y ∈ ys.take n, y = d) ↔ ∀ i < n, ys.getD i d = d := by
  constructor
  · intro h i hi
    cases hy : ys[i]? with
    | none => rw [List.getD_eq_getElem?_getD, hy, Option.getD_none]
    | some y =>
      rw [List.getD_eq_getElem?_getD, hy, Option.getD_some]
      exact h y (List.mem_of_getElem? ((List.getElem?_take_of_lt hi).trans hy))
  · intro h y hy
    obtain ⟨i, hi, hget⟩ := List.mem_take_iff_getElem.1 hy
    have hlt := h i (by omega)
    rwa [List.getD_eq_getElem?_getD, List.getElem?_eq_getElem (by omega), hget,
      Option.getD_some] at hlt

/-- Behind a dropped element, the readings agree on the default only. -/
theorem readCompact_eq_of_neg (hx : p x = false) (n : ℕ) :
    (∀ i < n, (compact p g (x :: xs)).getD i d = readAt p g d (x :: xs) i) ↔
      ∀ y ∈ (compact p g (x :: xs)).take n, y = d := by
  rw [forall_mem_take_iff]
  -- What is read at a position stands further ahead in the compaction, if anywhere.
  have hback : ∀ i, (∀ j < i, (compact p g (x :: xs)).getD j d = d) →
      readAt p g d (x :: xs) i = d := by
    intro i hd
    cases i with
    | zero => exact readAt_zero_of_neg hx
    | succ i =>
      show readAt p g d xs i = d
      rcases readAt_cases (p := p) (g := g) (d := d) xs i with h | ⟨j, hj, hget⟩
      · exact h
      · have hj' := hd j (Nat.lt_succ_of_le hj)
        rwa [compact_cons_of_neg hx, List.getD_eq_getElem?_getD, hget, Option.getD_some] at hj'
  constructor
  · intro h i hi
    induction i using Nat.strongRecOn with
    | ind i ih => rw [h i hi, hback i fun j hj ↦ ih j hj (Nat.lt_trans hj hi)]
  · intro h i hi
    rw [h i hi, hback i fun j hj ↦ h j (Nat.lt_trans hj hi)]

/-- **Reading the compaction by position.** -/
theorem readCompact_eq_iff (xs : List α) (n : ℕ) :
    (∀ i < n, (compact p g xs).getD i d = readAt p g d xs i) ↔
      ∀ y ∈ ((compact p g xs).take n).drop (xs.takeWhile p).length, y = d := by
  induction xs generalizing n with
  | nil =>
    refine iff_of_true (fun i _ ↦ rfl) fun y hy ↦ ?_
    rw [compact, List.filter_nil, List.map_nil, List.take_nil, List.drop_nil] at hy
    exact absurd hy List.not_mem_nil
  | cons x xs ih =>
    cases hx : p x with
    | false =>
      rw [List.takeWhile_cons_of_neg (by simp [hx])]
      exact readCompact_eq_of_neg hx n
    | true =>
      rw [List.takeWhile_cons_of_pos hx, compact_cons_of_pos hx, List.length_cons]
      cases n with
      | zero =>
        refine iff_of_true (fun i hi ↦ absurd hi (Nat.not_lt_zero i)) fun y hy ↦ ?_
        rw [List.take_zero, List.drop_nil] at hy
        exact absurd hy List.not_mem_nil
      | succ n =>
        rw [List.take_succ_cons, List.drop_succ_cons, ← ih n]
        constructor
        · exact fun h i hi ↦ h (i + 1) (Nat.succ_lt_succ hi)
        · intro h i hi
          cases i with
          | zero => exact (readAt_zero_of_pos hx).symm
          | succ i => exact h i (Nat.lt_of_succ_lt_succ hi)

end Compaction
