import Mathlib.Data.List.Infix
import Mathlib.Data.List.Basic

/-!
# The first occurrence of a list in a list

`locate` finds where a list occurs for the first time in another, and `find` where it does from a
position on, as the member functions of string classes do. A first occurrence stays the first when
more is appended (`locate_append`), and one that appears by appending reaches into what was
appended (`length_lt_of_locate_append`).
-/

namespace Substring

variable {α : Type*} [DecidableEq α]

/-- The place of the first occurrence of `needle`. -/
def locate (needle : List α) : List α → Option ℕ
  | [] => if needle = [] then some 0 else none
  | c :: s => if needle.isPrefixOf (c :: s) then some 0 else (locate needle s).map (· + 1)

/-- The place of the first occurrence of `needle` from `pos` on. -/
def find (s needle : List α) (pos : ℕ) : Option ℕ := (locate needle (s.drop pos)).map (· + pos)

variable {needle s t : List α} {i pos : ℕ}

theorem find_zero (s needle : List α) : find s needle 0 = locate needle s := by
  rw [find, List.drop_zero]
  exact Option.map_id'

theorem locate_of_starts (h : needle <+: s) : locate needle s = some 0 := by
  cases s with
  | nil => rw [locate, if_pos (List.prefix_nil.1 h)]
  | cons c s => rw [locate, if_pos (List.isPrefixOf_iff_prefix.2 h)]

theorem locate_cons_of_not_starts {c : α} (h : ¬needle <+: c :: s) :
    locate needle (c :: s) = (locate needle s).map (· + 1) := by
  rw [locate, if_neg fun hpre ↦ h (List.isPrefixOf_iff_prefix.1 hpre)]

/-- What is found is an occurrence, and there is none before. -/
theorem locate_eq_some_iff :
    locate needle s = some i ↔
      i ≤ s.length ∧ needle <+: s.drop i ∧ ∀ j < i, ¬needle <+: s.drop j := by
  induction s generalizing i with
  | nil =>
    rw [locate]
    constructor
    · intro h
      split_ifs at h with hnil
      obtain rfl := Option.some.inj h
      exact ⟨le_rfl, hnil ▸ List.nil_prefix, fun j hj ↦ absurd hj (Nat.not_lt_zero j)⟩
    · rintro ⟨hle, hpre, -⟩
      obtain rfl := Nat.le_zero.1 hle
      rw [if_pos (List.prefix_nil.1 hpre)]
  | cons c s ih =>
    by_cases hpre : needle <+: c :: s
    · rw [locate_of_starts hpre]
      constructor
      · rintro ⟨⟩
        exact ⟨Nat.zero_le _, hpre, fun j hj ↦ absurd hj (Nat.not_lt_zero j)⟩
      · rintro ⟨-, -, hfirst⟩
        obtain rfl : i = 0 := Nat.eq_zero_of_not_pos fun hpos ↦ hfirst 0 hpos hpre
        rfl
    rw [locate_cons_of_not_starts hpre]
    cases i with
    | zero => simp [hpre]
    | succ i =>
      rw [Option.map_eq_some_iff]
      simp only [Nat.add_right_cancel_iff, exists_eq_right, ih, List.length_cons,
        Nat.add_le_add_iff_right, List.drop_succ_cons]
      refine and_congr_right fun _ ↦ and_congr_right fun _ ↦ ⟨fun h j hj ↦ ?_, fun h j hj ↦ ?_⟩
      · cases j with
        | zero => exact hpre
        | succ j => exact h j (Nat.lt_of_succ_lt_succ hj)
      · exact h (j + 1) (Nat.succ_lt_succ hj)

theorem locate_eq_none_iff (hne : needle ≠ []) :
    locate needle s = none ↔ ∀ j, ¬needle <+: s.drop j := by
  induction s with
  | nil =>
    rw [locate, if_neg hne]
    exact ⟨fun _ j hpre ↦ hne (List.prefix_nil.1 (by simpa using hpre)), fun _ ↦ rfl⟩
  | cons c s ih =>
    by_cases hpre : needle <+: c :: s
    · rw [locate_of_starts hpre]
      exact ⟨fun h ↦ absurd h (Option.some_ne_none 0), fun h ↦ absurd hpre (h 0)⟩
    rw [locate_cons_of_not_starts hpre, Option.map_eq_none_iff, ih]
    refine ⟨fun h j ↦ ?_, fun h j ↦ h (j + 1)⟩
    cases j with
    | zero => exact hpre
    | succ j => exact h j

/-- An occurrence splits a list. -/
theorem eq_append_of_locate (h : locate needle s = some i) :
    s = s.take i ++ (needle ++ s.drop (i + needle.length)) := by
  obtain ⟨-, ⟨rest, hrest⟩, -⟩ := locate_eq_some_iff.1 h
  have hdrop : s.drop (i + needle.length) = rest := by
    rw [← List.drop_drop, ← hrest, List.drop_left]
  rw [hdrop, hrest, List.take_append_drop]

theorem le_length_of_locate (h : locate needle s = some i) : i + needle.length ≤ s.length := by
  obtain ⟨hle, hpre, -⟩ := locate_eq_some_iff.1 h
  have := hpre.length_le
  rw [List.length_drop] at this
  omega

/-- **A first occurrence stays the first** when more is appended. -/
theorem locate_append (h : locate needle s = some i) (t : List α) :
    locate needle (s ++ t) = some i := by
  have hlen := le_length_of_locate h
  obtain ⟨hle, hpre, hfirst⟩ := locate_eq_some_iff.1 h
  refine locate_eq_some_iff.2 ⟨?_, ?_, fun j hj hj' ↦ hfirst j hj ?_⟩
  · rw [List.length_append]
    omega
  · rw [List.drop_append_of_le_length hle]
    exact hpre.trans (List.prefix_append _ _)
  · rw [List.drop_append_of_le_length (hj.le.trans hle)] at hj'
    refine List.prefix_of_prefix_length_le hj' (List.prefix_append _ _) ?_
    rw [List.length_drop]
    omega

/-- An occurrence that was not there before reaches into what was appended. -/
theorem length_lt_of_locate_append (h : locate needle s = none)
    (h' : locate needle (s ++ t) = some i) : s.length < i + needle.length := by
  have hne : needle ≠ [] := by
    rintro rfl
    rw [locate_of_starts List.nil_prefix] at h
    cases h
  by_contra hle
  obtain ⟨-, hpre, -⟩ := locate_eq_some_iff.1 h'
  rw [List.drop_append_of_le_length (by omega)] at hpre
  refine (locate_eq_none_iff hne).1 h i
    (List.prefix_of_prefix_length_le hpre (List.prefix_append _ _) ?_)
  rw [List.length_drop]
  omega

/-- The first occurrence in a list, when it lies behind a part of the list without one. -/
theorem locate_append_right (h : ∀ j < s.length, ¬needle <+: (s ++ t).drop j) :
    locate needle (s ++ t) = (locate needle t).map (· + s.length) := by
  induction s with
  | nil => exact Option.map_id'.symm
  | cons c s ih =>
    have htail : locate needle (s ++ t) = (locate needle t).map (· + s.length) :=
      ih fun j hj ↦ h (j + 1) (Nat.succ_lt_succ hj)
    have hhead : ¬needle <+: c :: (s ++ t) := h 0 (Nat.zero_lt_succ _)
    rw [List.cons_append, locate_cons_of_not_starts hhead, htail, Option.map_map]
    rfl

/-! ### Single elements -/

section Element

variable {c : α}

omit [DecidableEq α] in
theorem singleton_prefix_iff {l : List α} : [c] <+: l ↔ l.head? = some c := by
  cases l with
  | nil => simp
  | cons d l => simp [eq_comm]

theorem locate_singleton_eq_none_iff : locate [c] s = none ↔ c ∉ s := by
  rw [locate_eq_none_iff (List.cons_ne_nil c [])]
  constructor
  · intro h hmem
    obtain ⟨pre, post, rfl⟩ := List.append_of_mem hmem
    exact h pre.length (by rw [List.drop_left]; exact ⟨post, rfl⟩)
  · exact fun h j hpre ↦ h (List.mem_of_mem_drop (hpre.subset List.mem_cons_self))

omit [DecidableEq α] in
/-- An occurrence does not start where its first element is not. -/
theorem not_prefix_drop (h : c ∉ s) (ds t : List α) :
    ∀ j < s.length, ¬c :: ds <+: (s ++ t).drop j := by
  intro j hj hpre
  rw [List.drop_append_of_le_length hj.le] at hpre
  cases hdrop : s.drop j with
  | nil => exact absurd (List.drop_eq_nil_iff.1 hdrop) (not_le.2 hj)
  | cons d l =>
    rw [hdrop] at hpre
    obtain ⟨rest, hrest⟩ := hpre
    obtain rfl := (List.cons.inj hrest).1
    exact h (List.mem_of_mem_drop (hdrop ▸ List.mem_cons_self))

theorem locate_singleton_append (h : c ∉ s) (t : List α) :
    locate [c] (s ++ c :: t) = some s.length := by
  have hhead : [c] <+: c :: t := ⟨t, rfl⟩
  rw [locate_append_right (not_prefix_drop h [] _), locate_of_starts hhead, Option.map_some,
    Nat.zero_add]

/-- Where a list has an element for the first time, it is split by it. -/
theorem exists_append_of_locate_singleton (h : locate [c] s = some i) :
    c ∉ s.take i ∧ s = s.take i ++ c :: s.drop (i + 1) := by
  refine ⟨fun hmem ↦ ?_, eq_append_of_locate h⟩
  obtain ⟨-, -, hfirst⟩ := locate_eq_some_iff.1 h
  obtain ⟨j, hj, hget⟩ := List.mem_take_iff_getElem.1 hmem
  refine hfirst j (by omega) (singleton_prefix_iff.2 ?_)
  rw [List.head?_drop, List.getElem?_eq_getElem (by omega), hget]

end Element

end Substring
