import Mathlib.Data.List.Forall2
import Mathlib.Order.Bounds.Basic

/-!
# Seeking in a set

`Seek top S b r` says that `r` is the least element of `S` from `b` on, or `top` when there is
none. Seeking in an intersection stops where all its parts stop together; seeking in a union is
the least of the parts.

Nothing here depends on what the elements are.
-/

variable {α : Type*} [LinearOrder α]

/-- The least element of a set from a bound on, with an end marker above all of them. -/
def Seek (top : α) (S : Set α) (b r : α) : Prop :=
  IsLeast (insert top {x | x ∈ S ∧ b ≤ x}) r

variable {top b b' r r' : α} {S T : Set α} {Ss : List (Set α)}

namespace Seek

theorem intro (hr : r ∈ S) (hb : b ≤ r) (htop : r ≤ top) (hmin : ∀ x ∈ S, b ≤ x → r ≤ x) :
    Seek top S b r := by
  refine ⟨Or.inr ⟨hr, hb⟩, ?_⟩
  rintro x (rfl | hx)
  · exact htop
  · exact hmin x hx.1 hx.2

/-- There is nothing from the bound on. -/
theorem none (h : ∀ x ∈ S, b ≤ x → top ≤ x) : Seek top S b top := by
  refine ⟨Or.inl rfl, ?_⟩
  rintro x (rfl | hx)
  · exact le_rfl
  · exact h x hx.1 hx.2

theorem le_top (h : Seek top S b r) : r ≤ top := h.2 (Or.inl rfl)

theorem le_of_mem (h : Seek top S b r) {x : α} (hx : x ∈ S) (hb : b ≤ x) : r ≤ x :=
  h.2 (Or.inr ⟨hx, hb⟩)

theorem mem (h : Seek top S b r) (hr : r ≠ top) : r ∈ S := (h.1.resolve_left hr).1

theorem le (h : Seek top S b r) (hb : b ≤ top) : b ≤ r := by
  rcases h.1 with rfl | hr
  · exact hb
  · exact hr.2

theorem unique (h : Seek top S b r) (h' : Seek top S b r') : r = r' := IsLeast.unique h h'

/-- Nothing below the result is skipped by a later bound. -/
theorem mono (h : Seek top S b r) (hb : b ≤ b') (hr : b' ≤ r) : Seek top S b' r := by
  rcases h.1 with rfl | hmem
  · exact .none fun x hx hx' ↦ h.le_of_mem hx (hb.trans hx')
  · exact .intro hmem.1 hr h.le_top fun x hx hx' ↦ h.le_of_mem hx (hb.trans hx')

/-- The end marker is the result when everything lies below the bound. -/
theorem top_iff (hlt : ∀ x ∈ S, x < top) : Seek top S b top ↔ ∀ x ∈ S, x < b := by
  constructor
  · exact fun h x hx ↦ lt_of_not_ge fun hb ↦ absurd (h.le_of_mem hx hb) (hlt x hx).not_ge
  · exact fun h ↦ .none fun x hx hb ↦ absurd hb (h x hx).not_ge

/-- A second bound that excludes nothing more. -/
theorem of_max {c : α} (h : Seek top S (max c b) r) (hc : c ≤ b ∨ ∀ x ∈ S, c ≤ x) :
    Seek top S b r := by
  have hmin : ∀ x ∈ S, b ≤ x → r ≤ x := by
    refine fun x hx hb ↦ h.le_of_mem hx (max_le ?_ hb)
    exact hc.elim (fun hc ↦ hc.trans hb) fun hc ↦ hc x hx
  rcases h.1 with rfl | hmem
  · exact .none hmin
  · exact .intro hmem.1 ((le_max_right _ _).trans hmem.2) h.le_top hmin

end Seek

/-! ### Intersections and unions -/

section Related

variable {β γ : Type*} {R : β → γ → Prop} {xs : List β} {ys : List γ}

theorem related_of_mem_left (h : List.Forall₂ R xs ys) {x : β} (hx : x ∈ xs) :
    ∃ y ∈ ys, R x y := by
  induction h with
  | nil => cases hx
  | cons hr _ ih =>
    rcases List.mem_cons.1 hx with rfl | hx
    · exact ⟨_, List.mem_cons_self, hr⟩
    · obtain ⟨y, hy, hr⟩ := ih hx
      exact ⟨y, List.mem_cons_of_mem _ hy, hr⟩

theorem related_of_mem_right (h : List.Forall₂ R xs ys) {y : γ} (hy : y ∈ ys) :
    ∃ x ∈ xs, R x y := by
  obtain ⟨x, hx, hr⟩ := related_of_mem_left h.flip hy
  exact ⟨x, hx, hr⟩

end Related

/-- The intersection of a list of sets. -/
def interOf (Ss : List (Set α)) : Set α := {x | ∀ T ∈ Ss, x ∈ T}

/-- The union of a list of sets. -/
def unionOf (Ss : List (Set α)) : Set α := {x | ∃ T ∈ Ss, x ∈ T}

omit [LinearOrder α] in
theorem interOf_perm {Ss' : List (Set α)} (h : Ss.Perm Ss') : interOf Ss = interOf Ss' := by
  ext x
  exact ⟨fun hx T hT ↦ hx T (h.mem_iff.2 hT), fun hx T hT ↦ hx T (h.mem_iff.1 hT)⟩

/-- The least of the results of the parts. -/
theorem Seek.union {rs : List α} (h : List.Forall₂ (fun T r ↦ Seek top T b r) Ss rs)
    (hr : IsLeast (insert top {x | x ∈ rs}) r) : Seek top (unionOf Ss) b r := by
  have hle : ∀ x ∈ unionOf Ss, b ≤ x → r ≤ x := by
    rintro x ⟨T, hT, hx⟩ hb
    obtain ⟨r', hr', hseek⟩ := related_of_mem_left h hT
    exact (hr.2 (Or.inr hr')).trans (hseek.le_of_mem hx hb)
  rcases hr.1 with rfl | hmem
  · exact .none hle
  · obtain ⟨T, hT, hseek⟩ := related_of_mem_right h hmem
    rcases hseek.1 with rfl | hin
    · exact .none hle
    · exact .intro ⟨T, hT, hin.1⟩ hin.2 hseek.le_top hle
