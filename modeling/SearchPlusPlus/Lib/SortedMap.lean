import Mathlib.Algebra.GroupWithZero.Nat
import Mathlib.Data.List.Basic
import Mathlib.Data.List.Lex
import Mathlib.Order.Lattice

/-!
# Finite maps as strictly sorted association lists

The container behind every `std::map` of a modelled program, and a canonical form for hash maps
whose iteration order the program does not use. The raw operations (`Assoc.find?`,
`Assoc.insert`) act on plain association lists, so that they may be used inside a nested
inductive type; `SortedMap` packages a list with the proof that its keys are strictly
increasing, so that two maps with the same lookups are equal (`SortedMap.ext_find?`).

Nothing here depends on the program: keys come from any linear order, values from any type.
-/

namespace Assoc

variable {κ ν : Type*} [LinearOrder κ]

/-- The value under a key, if any. -/
def find? (k : κ) : List (κ × ν) → Option ν
  | [] => none
  | (k', v) :: l => if k = k' then some v else find? k l

/-- Insert a binding at its place in the key order, overwriting an existing one. -/
def insert (k : κ) (v : ν) : List (κ × ν) → List (κ × ν)
  | [] => [(k, v)]
  | (k', v') :: l =>
    if k < k' then (k, v) :: (k', v') :: l
    else if k = k' then (k, v) :: l
    else (k', v') :: insert k v l

/-- The keys are strictly increasing. -/
def Sorted (l : List (κ × ν)) : Prop :=
  l.Pairwise fun a b ↦ a.1 < b.1

instance (l : List (κ × ν)) : Decidable (Sorted l) :=
  inferInstanceAs (Decidable (l.Pairwise fun a b ↦ a.1 < b.1))

@[simp] theorem find?_nil (k : κ) : find? k ([] : List (κ × ν)) = none := rfl

theorem find?_cons (k k' : κ) (v : ν) (l : List (κ × ν)) :
    find? k ((k', v) :: l) = if k = k' then some v else find? k l := rfl

@[simp] theorem sorted_nil : Sorted ([] : List (κ × ν)) := List.Pairwise.nil

theorem find?_append (k : κ) (l l' : List (κ × ν)) :
    find? k (l ++ l') = (find? k l).or (find? k l') := by
  induction l with
  | nil => rfl
  | cons p l ih =>
    rw [List.cons_append, find?_cons, find?_cons, ih]
    split_ifs <;> rfl

theorem sorted_cons {p : κ × ν} {l : List (κ × ν)} :
    Sorted (p :: l) ↔ (∀ q ∈ l, p.1 < q.1) ∧ Sorted l :=
  List.pairwise_cons

/-- A key below all others is not bound. -/
theorem find?_eq_none_of_lt {k : κ} {l : List (κ × ν)} (h : ∀ q ∈ l, k < q.1) :
    find? k l = none := by
  induction l with
  | nil => rfl
  | cons p l ih =>
    obtain ⟨k', v⟩ := p
    have hk : k ≠ k' := (h (k', v) List.mem_cons_self).ne
    rw [find?_cons, if_neg hk]
    exact ih fun q hq ↦ h q (List.mem_cons_of_mem _ hq)

theorem mem_of_find? {k : κ} {v : ν} {l : List (κ × ν)} (h : find? k l = some v) :
    (k, v) ∈ l := by
  induction l with
  | nil => simp at h
  | cons p l ih =>
    obtain ⟨k', v'⟩ := p
    rw [find?_cons] at h
    split at h
    · next hk =>
      cases hk
      cases h
      exact List.mem_cons_self
    · exact List.mem_cons_of_mem _ (ih h)

/-- In a sorted list, membership of a binding is lookup. -/
theorem find?_eq_some_iff {k : κ} {v : ν} {l : List (κ × ν)} (hl : Sorted l) :
    find? k l = some v ↔ (k, v) ∈ l := by
  refine ⟨mem_of_find?, fun h ↦ ?_⟩
  induction l with
  | nil => simp at h
  | cons p l ih =>
    obtain ⟨k', v'⟩ := p
    obtain ⟨hlt, hl'⟩ := sorted_cons.1 hl
    rw [find?_cons]
    rcases List.mem_cons.1 h with heq | hmem
    · cases heq
      rw [if_pos rfl]
    · rw [if_neg (hlt (k, v) hmem).ne', ih hl' hmem]

theorem find?_insert (k k' : κ) (v : ν) (l : List (κ × ν)) :
    find? k (insert k' v l) = if k = k' then some v else find? k l := by
  induction l with
  | nil => rfl
  | cons p l ih =>
    obtain ⟨k₀, v₀⟩ := p
    rw [insert]
    split
    · rw [find?_cons]
    split
    · next heq =>
      cases heq
      by_cases hk : k = k' <;> simp [find?_cons, hk]
    · next hne =>
      rw [find?_cons, find?_cons, ih]
      by_cases hk : k = k₀
      · have : ¬k₀ = k' := fun h ↦ hne h.symm
        simp [hk, this]
      · simp [hk]

@[simp] theorem find?_insert_self (k : κ) (v : ν) (l : List (κ × ν)) :
    find? k (insert k v l) = some v := by
  rw [find?_insert, if_pos rfl]

theorem find?_insert_of_ne {k k' : κ} (h : k ≠ k') (v : ν) (l : List (κ × ν)) :
    find? k (insert k' v l) = find? k l := by
  rw [find?_insert, if_neg h]

theorem mem_insert {p : κ × ν} {k : κ} {v : ν} {l : List (κ × ν)} (h : p ∈ insert k v l) :
    p = (k, v) ∨ p ∈ l := by
  induction l with
  | nil => exact Or.inl (List.mem_singleton.1 h)
  | cons q l ih =>
    obtain ⟨k₀, v₀⟩ := q
    rw [insert] at h
    split at h
    · exact List.mem_cons.1 h
    split at h
    · rcases List.mem_cons.1 h with h | h
      · exact Or.inl h
      · exact Or.inr (List.mem_cons_of_mem _ h)
    · rcases List.mem_cons.1 h with h | h
      · exact Or.inr (h ▸ List.mem_cons_self)
      · exact (ih h).imp_right (List.mem_cons_of_mem _)

theorem Sorted.insert {l : List (κ × ν)} (hl : Sorted l) (k : κ) (v : ν) :
    Sorted (Assoc.insert k v l) := by
  induction l with
  | nil => exact List.pairwise_singleton _ _
  | cons p l ih =>
    obtain ⟨k₀, v₀⟩ := p
    obtain ⟨hlt, hl'⟩ := sorted_cons.1 hl
    rw [Assoc.insert]
    split
    · next hk =>
      refine sorted_cons.2 ⟨fun q hq ↦ ?_, hl⟩
      rcases List.mem_cons.1 hq with rfl | hq
      · exact hk
      · exact hk.trans (hlt q hq)
    split
    · next heq =>
      cases heq
      exact sorted_cons.2 ⟨hlt, hl'⟩
    · next hnlt hne =>
      refine sorted_cons.2 ⟨fun q hq ↦ ?_, ih hl'⟩
      rcases mem_insert hq with rfl | hq
      · exact lt_of_le_of_ne (not_lt.1 hnlt) (Ne.symm hne)
      · exact hlt q hq

/-- Appending a binding above every key is inserting it. -/
theorem insert_eq_append {k : κ} {v : ν} {l : List (κ × ν)} (h : ∀ q ∈ l, q.1 < k) :
    insert k v l = l ++ [(k, v)] := by
  induction l with
  | nil => rfl
  | cons p l ih =>
    obtain ⟨k₀, v₀⟩ := p
    have hlt : k₀ < k := h (k₀, v₀) List.mem_cons_self
    rw [insert, if_neg hlt.asymm, if_neg hlt.ne', ih fun q hq ↦ h q (List.mem_cons_of_mem _ hq)]
    rfl

/-- The sum after an insertion, with the value that was there put back. -/
theorem sum_insert (g : ν → ℕ) (k : κ) (v : ν) {l : List (κ × ν)} (hl : Sorted l) :
    ((insert k v l).map fun p ↦ g p.2).sum + ((find? k l).map g).getD 0 =
      (l.map fun p ↦ g p.2).sum + g v := by
  induction l with
  | nil => simp [insert]
  | cons p l ih =>
    obtain ⟨k₀, v₀⟩ := p
    obtain ⟨hlt, hl'⟩ := sorted_cons.1 hl
    rw [insert, find?_cons]
    split_ifs with hk heq heq
    · exact absurd heq hk.ne
    · have hnone : find? k l = none := find?_eq_none_of_lt fun q hq ↦ hk.trans (hlt q hq)
      rw [hnone]
      simp only [List.map_cons, List.sum_cons, Option.map_none, Option.getD_none]
      omega
    · simp only [List.map_cons, List.sum_cons, Option.map_some, Option.getD_some]
      omega
    · have hsum := ih hl'
      simp only [List.map_cons, List.sum_cons]
      omega

/-- A part of what a loop over the bindings builds, if the binding of one key decides it. -/
theorem foldl_part {σ α : Type*} {f : σ → κ × ν → σ} (get : σ → α) (key : κ) (set : ν → α → α)
    (hother : ∀ s p, p.1 ≠ key → get (f s p) = get s)
    (hkey : ∀ s v, get (f s (key, v)) = set v (get s)) {l : List (κ × ν)} (hl : Sorted l) (s : σ) :
    get (l.foldl f s) = ((find? key l).elim id set) (get s) := by
  induction l generalizing s with
  | nil => rfl
  | cons p l ih =>
    obtain ⟨hlt, hl'⟩ := sorted_cons.1 hl
    obtain ⟨k, v⟩ := p
    rw [List.foldl_cons, ih hl', find?_cons]
    by_cases hk : key = k
    · subst hk
      rw [if_pos rfl, find?_eq_none_of_lt hlt]
      exact hkey s v
    · rw [if_neg hk, hother s (k, v) (Ne.symm hk)]

/-- Sorted lists with the same lookups are equal. -/
theorem Sorted.ext {l l' : List (κ × ν)} (hl : Sorted l) (hl' : Sorted l')
    (h : ∀ k, find? k l = find? k l') : l = l' := by
  refine List.Perm.eq_of_pairwise (fun a b _ _ hab hba ↦ absurd hab hba.asymm) hl hl' ?_
  have hnodup : ∀ {m : List (κ × ν)}, Sorted m → m.Nodup := fun hm ↦
    List.Pairwise.imp (fun hab heq ↦ absurd (congrArg Prod.fst heq) hab.ne) hm
  refine (List.perm_ext_iff_of_nodup (hnodup hl) (hnodup hl')).2 fun ⟨k, v⟩ ↦ ?_
  rw [← find?_eq_some_iff hl, ← find?_eq_some_iff hl', h]

end Assoc

/-- A finite map: a list of bindings with strictly increasing keys. -/
structure SortedMap (κ ν : Type*) [LinearOrder κ] where
  /-- The bindings in key order. -/
  toList : List (κ × ν)
  /-- Keys are strictly increasing, so each is bound once. -/
  sorted : Assoc.Sorted toList

namespace SortedMap

variable {κ ν : Type*} [LinearOrder κ]

instance [DecidableEq ν] : DecidableEq (SortedMap κ ν) := fun m m' ↦
  decidable_of_iff (m.toList = m'.toList) ⟨fun h ↦ by cases m; cases m'; cases h; rfl,
    fun h ↦ h ▸ rfl⟩

/-- The map with no binding. -/
def empty : SortedMap κ ν := ⟨[], Assoc.sorted_nil⟩

instance : Inhabited (SortedMap κ ν) := ⟨empty⟩

/-- The value under a key, if any. -/
def find? (m : SortedMap κ ν) (k : κ) : Option ν := Assoc.find? k m.toList

/-- Insert a binding, overwriting an existing one. -/
def insert (m : SortedMap κ ν) (k : κ) (v : ν) : SortedMap κ ν :=
  ⟨Assoc.insert k v m.toList, m.sorted.insert k v⟩

/-- The keys in order. -/
def keys (m : SortedMap κ ν) : List κ := m.toList.map Prod.fst

@[simp] theorem find?_empty (k : κ) : (empty : SortedMap κ ν).find? k = none := rfl

theorem find?_insert (m : SortedMap κ ν) (k k' : κ) (v : ν) :
    (m.insert k' v).find? k = if k = k' then some v else m.find? k :=
  Assoc.find?_insert k k' v m.toList

@[simp] theorem find?_insert_self (m : SortedMap κ ν) (k : κ) (v : ν) :
    (m.insert k v).find? k = some v :=
  Assoc.find?_insert_self k v m.toList

theorem find?_insert_of_ne (m : SortedMap κ ν) {k k' : κ} (h : k ≠ k') (v : ν) :
    (m.insert k' v).find? k = m.find? k :=
  Assoc.find?_insert_of_ne h v m.toList

theorem sum_insert (m : SortedMap κ ν) (g : ν → ℕ) (k : κ) (v : ν) :
    ((m.insert k v).toList.map fun p ↦ g p.2).sum + ((m.find? k).map g).getD 0 =
      (m.toList.map fun p ↦ g p.2).sum + g v :=
  Assoc.sum_insert g k v m.sorted

theorem mem_toList_iff {m : SortedMap κ ν} {k : κ} {v : ν} :
    (k, v) ∈ m.toList ↔ m.find? k = some v :=
  (Assoc.find?_eq_some_iff m.sorted).symm

theorem keys_pairwise (m : SortedMap κ ν) : m.keys.Pairwise (· < ·) :=
  List.pairwise_map.2 m.sorted

/-- Inserting bindings under different keys. -/
theorem find?_foldl_insert_iff {l : List (κ × ν)} (hl : (l.map Prod.fst).Nodup)
    (m : SortedMap κ ν) (k : κ) (v : ν) :
    (l.foldl (fun m p ↦ m.insert p.1 p.2) m).find? k = some v ↔
      (k, v) ∈ l ∨ k ∉ l.map Prod.fst ∧ m.find? k = some v := by
  induction l generalizing m with
  | nil => simp
  | cons p l ih =>
    obtain ⟨k', v'⟩ := p
    obtain ⟨hnot, hl⟩ := List.nodup_cons.1 hl
    rw [List.foldl_cons, ih hl, find?_insert]
    by_cases hk : k = k'
    · subst hk
      have hmem : ∀ w, (k, w) ∉ l := fun w hw ↦ hnot (List.mem_map.2 ⟨(k, w), hw, rfl⟩)
      have hkeys : k ∉ l.map Prod.fst := hnot
      simp [hmem, hkeys, eq_comm]
    · simp [hk]

/-- Of bindings under one key the last is kept. -/
theorem find?_foldl_insert (l : List (κ × ν)) (m : SortedMap κ ν) (k : κ) :
    (l.foldl (fun m p ↦ m.insert p.1 p.2) m).find? k =
      (Assoc.find? k l.reverse).or (m.find? k) := by
  induction l generalizing m with
  | nil => rfl
  | cons p l ih =>
    rw [List.foldl_cons, ih, find?_insert, List.reverse_cons, Assoc.find?_append,
      Assoc.find?_cons, Option.or_assoc]
    split_ifs <;> rfl

/-- **Extensionality**: a map is its lookup function. -/
theorem ext_find? {m m' : SortedMap κ ν} (h : ∀ k, m.find? k = m'.find? k) : m = m' := by
  have hl : m.toList = m'.toList := m.sorted.ext m'.sorted h
  cases m
  cases m'
  cases hl
  rfl

end SortedMap
