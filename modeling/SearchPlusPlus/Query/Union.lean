import SearchPlusPlus.Query.SeekLaw

/-!
# Disjunctions

The children of a disjunction at a document are each at the first document of their sets from
there on, or past their last (`OverFrom`). `Next` and `Advance` move the children that are
behind, and the least document they are at is the next of the union.

A disjunction that was not started ignores `Advance`: its children are not started either.
-/

namespace Spp.Query

open Index DocIdSetIterator

namespace DisjunctionIterator

variable {σ : Type} [DocIdSetIterator σ] {L : SeekLaw σ} {Ss : List (Set ℕ)}
  {it : DisjunctionIterator σ} {cs : List σ} {b t : ℕ}

/-! ### The least document -/

/-- The loop finds the least of the documents it does not skip. -/
theorem best_isLeast (skip : ℕ → Bool) (cs : List σ) : ∀ (d : ℕ) (first : Bool),
    (first = true → d = kNoMoreDocs) → (∀ c ∈ cs, docId c ≤ kNoMoreDocs) →
    IsLeast (insert d {x | x ≠ kNoMoreDocs ∧ skip x = false ∧ ∃ c ∈ cs, docId c = x})
      (best skip d first cs) := by
  induction cs with
  | nil =>
    refine fun d first _ _ ↦ ⟨Or.inl rfl, ?_⟩
    rintro x (rfl | ⟨-, -, _, hc, -⟩)
    · exact le_rfl
    · cases hc
  | cons c cs ih =>
    intro d first hfirst hle
    have hle' : ∀ c' ∈ cs, docId c' ≤ kNoMoreDocs :=
      fun c' hc' ↦ hle c' (List.mem_cons_of_mem _ hc')
    have htail : ∀ {x}, (x ≠ kNoMoreDocs ∧ skip x = false ∧ ∃ c' ∈ cs, docId c' = x) →
        x ≠ kNoMoreDocs ∧ skip x = false ∧ ∃ c' ∈ c :: cs, docId c' = x :=
      fun ⟨h₁, h₂, c', hc', h₃⟩ ↦ ⟨h₁, h₂, c', List.mem_cons_of_mem _ hc', h₃⟩
    rw [best]
    split_ifs with hout hless
    · obtain ⟨hmem, hmin⟩ := ih d first hfirst hle'
      refine ⟨hmem.imp id htail, ?_⟩
      rintro x (rfl | ⟨h₁, h₂, c', hc', rfl⟩)
      · exact hmin (Or.inl rfl)
      · rcases List.mem_cons.1 hc' with rfl | hc'
        · rcases hout with hout | hout
          · exact absurd hout h₁
          · cases h₂.symm.trans hout
        · exact hmin (Or.inr ⟨h₁, h₂, c', hc', rfl⟩)
    · obtain ⟨hne, hskip⟩ := not_or.1 hout
      obtain ⟨hmem, hmin⟩ := ih (docId c) false (fun h ↦ by cases h) hle'
      have hlt : docId c ≤ d := by
        rcases hless with hstart | hlt
        · exact hfirst hstart ▸ hle c List.mem_cons_self
        · exact hlt.le
      refine ⟨?_, ?_⟩
      · rcases hmem with heq | hmem
        · rw [heq]
          exact Or.inr ⟨hne, Bool.eq_false_iff.2 hskip, c, List.mem_cons_self, rfl⟩
        · exact Or.inr (htail hmem)
      · rintro x (rfl | ⟨h₁, h₂, c', hc', rfl⟩)
        · exact (hmin (Or.inl rfl)).trans hlt
        · rcases List.mem_cons.1 hc' with rfl | hc'
          · exact hmin (Or.inl rfl)
          · exact hmin (Or.inr ⟨h₁, h₂, c', hc', rfl⟩)
    · obtain ⟨hmem, hmin⟩ := ih d first hfirst hle'
      refine ⟨hmem.imp id htail, ?_⟩
      rintro x (rfl | ⟨h₁, h₂, c', hc', rfl⟩)
      · exact hmin (Or.inl rfl)
      · rcases List.mem_cons.1 hc' with rfl | hc'
        · exact (hmin (Or.inl rfl)).trans (not_lt.1 (not_or.1 hless).2)
        · exact hmin (Or.inr ⟨h₁, h₂, c', hc', rfl⟩)

/-! ### Any state -/

theorem docId_le_of_sound (h : List.Forall₂ L.Sound Ss cs) : ∀ c ∈ cs, docId c ≤ kNoMoreDocs := by
  intro c hc
  obtain ⟨T, -, hsound⟩ := related_of_mem_right h hc
  rcases L.docId_of_sound hsound with hmem | heq
  · exact (L.lt_of_sound hsound _ hmem).le
  · exact heq.le

/-- Any state over the union of some sets. -/
structure SoundOver (L : SeekLaw σ) (Ss : List (Set ℕ)) (it : DisjunctionIterator σ) : Prop where
  children : List.Forall₂ L.Sound Ss it.children
  current : it.current ∈ unionOf Ss ∨ it.current = kNoMoreDocs

theorem SoundOver.lt (h : SoundOver L Ss it) : ∀ x ∈ unionOf Ss, x < kNoMoreDocs := by
  rintro x ⟨T, hT, hx⟩
  obtain ⟨c, -, hc⟩ := related_of_mem_left h.children hT
  exact L.lt_of_sound hc x hx

/-- Settling on a document some child is at. -/
theorem settle_sound (it : DisjunctionIterator σ) (skip : ℕ → Bool)
    (h : List.Forall₂ L.Sound Ss it.children) :
    SoundOver L Ss (it.settle skip).2 ∧ (it.settle skip).2.current = (it.settle skip).1 ∧
      ((it.settle skip).1 = kNoMoreDocs ∨ skip (it.settle skip).1 = false) := by
  obtain ⟨hmem, -⟩ := best_isLeast skip it.children kNoMoreDocs true (fun _ ↦ rfl)
    (docId_le_of_sound h)
  have hcurrent : (it.settle skip).1 ∈ unionOf Ss ∨ (it.settle skip).1 = kNoMoreDocs := by
    rcases hmem with heq | ⟨hne, -, c, hc, hdoc⟩
    · exact Or.inr heq
    · obtain ⟨T, hT, hsound⟩ := related_of_mem_right h hc
      show best skip kNoMoreDocs true it.children ∈ _ ∨ _
      rw [← hdoc] at hne ⊢
      exact Or.inl ⟨T, hT, (L.docId_of_sound hsound).resolve_right hne⟩
  exact ⟨⟨h, hcurrent⟩, rfl, hmem.imp id fun h ↦ h.2.1⟩

omit [DocIdSetIterator σ] in
/-- A call on some of the children. -/
theorem forall₂_map {R Q : Set ℕ → σ → Prop} {f : σ → σ} (h : List.Forall₂ R Ss cs)
    (hf : ∀ T c, R T c → Q T (f c)) : List.Forall₂ Q Ss (cs.map f) :=
  List.forall₂_map_right_iff.2 (h.imp hf)

theorem next_eq_settle (h : it.current ≠ kNoMoreDocs) :
    it.next = settle { it with children := it.children.map (passChild it.current) }
      fun d ↦ it.current ≠ kNoMoreDocs && d ≤ it.current := by
  rw [next, if_neg h]
  rfl

theorem sound_startChild {T : Set ℕ} {c : σ} (h : L.Sound T c) : L.Sound T (startChild c) := by
  rw [startChild]
  split_ifs
  · exact (L.sound_next h).1
  · exact h

theorem sound_passChild {T : Set ℕ} {c : σ} {after : ℕ} (h : L.Sound T c) :
    L.Sound T (passChild after c) := by
  rw [passChild]
  split_ifs
  · exact h
  · exact (L.sound_next h).1
  · exact h

theorem sound_advanceChild {T : Set ℕ} {c : σ} (ht : t ≤ kNoMoreDocs) (h : L.Sound T c) :
    L.Sound T (advanceChild t c) := by
  rw [advanceChild]
  split_ifs
  · exact (L.sound_advance h ht).1
  · exact h

theorem SoundOver.next (h : SoundOver L Ss it) :
    SoundOver L Ss it.next.2 ∧ it.next.2.current = it.next.1 := by
  by_cases hcur : it.current = kNoMoreDocs
  · rw [DisjunctionIterator.next, if_pos hcur]
    split_ifs
    · have hres := settle_sound { it with children := it.children.map startChild }
        (fun _ ↦ false) (forall₂_map h.children fun _ _ ↦ sound_startChild)
      exact ⟨hres.1, hres.2.1⟩
    · exact ⟨h, rfl⟩
  · rw [next_eq_settle hcur]
    have hres := settle_sound { it with children := it.children.map (passChild it.current) }
      (fun d ↦ it.current ≠ kNoMoreDocs && d ≤ it.current)
      (forall₂_map h.children fun _ _ ↦ sound_passChild)
    exact ⟨hres.1, hres.2.1⟩

theorem SoundOver.advance (h : SoundOver L Ss it) (ht : t ≤ kNoMoreDocs) :
    SoundOver L Ss (it.advance t).2 ∧ (it.advance t).2.current = (it.advance t).1 ∧
      t ≤ (it.advance t).1 := by
  have hres := settle_sound { it with children := it.children.map (advanceChild t) }
    (fun d ↦ d < t) (forall₂_map h.children fun _ _ ↦ sound_advanceChild ht)
  refine ⟨hres.1, hres.2.1, ?_⟩
  rcases hres.2.2 with heq | hskip
  · exact ht.trans heq.ge
  · exact not_lt.1 (of_decide_eq_false hskip)

/-! ### Children in place -/

/-- A child at the first document of its set from `b` on, or past its last. -/
def Placed (L : SeekLaw σ) (b : ℕ) (T : Set ℕ) (c : σ) : Prop :=
  L.Sound T c ∧ Seek kNoMoreDocs T b (docId c) ∧ (docId c ≠ kNoMoreDocs → L.At T c)

theorem Placed.mono {T : Set ℕ} {c : σ} {b' : ℕ} (h : Placed L b T c) (hle : b ≤ b')
    (hdoc : b' ≤ docId c) : Placed L b' T c := ⟨h.1, h.2.1.mono hle hdoc, h.2.2⟩

/-- The children are placed from the current document on. -/
structure AtOver (L : SeekLaw σ) (Ss : List (Set ℕ)) (it : DisjunctionIterator σ) : Prop where
  children : List.Forall₂ (Placed L it.current) Ss it.children
  current : it.current ∈ unionOf Ss

theorem AtOver.sound (h : AtOver L Ss it) : SoundOver L Ss it :=
  ⟨h.children.imp fun _ _ hc ↦ hc.1, Or.inl h.current⟩

theorem AtOver.lt (h : AtOver L Ss it) : it.current < kNoMoreDocs := h.sound.lt _ h.current

/-- **Settling** finds the next document of the union. -/
theorem settle_placed {skip : ℕ → Bool} (h : List.Forall₂ (Placed L b) Ss it.children)
    (hb : b ≤ kNoMoreDocs) (hskip : ∀ d, b ≤ d → skip d = false) :
    Seek kNoMoreDocs (unionOf Ss) b (it.settle skip).1 ∧
      ((it.settle skip).1 ≠ kNoMoreDocs → AtOver L Ss (it.settle skip).2) := by
  have hsound : List.Forall₂ L.Sound Ss it.children := h.imp fun _ _ hc ↦ hc.1
  obtain ⟨hmem, hmin⟩ := best_isLeast skip it.children kNoMoreDocs true (fun _ ↦ rfl)
    (docId_le_of_sound hsound)
  have hchild : ∀ c ∈ it.children, b ≤ docId c ∧ (it.settle skip).1 ≤ docId c := by
    intro c hc
    obtain ⟨T, -, hplaced⟩ := related_of_mem_right h hc
    have hle := hplaced.2.1.le hb
    by_cases hend : docId c = kNoMoreDocs
    · exact ⟨hle, hend ▸ hmin (Or.inl rfl)⟩
    · exact ⟨hle, hmin (Or.inr ⟨hend, hskip _ hle, c, hc, rfl⟩)⟩
  have hseek : Seek kNoMoreDocs (unionOf Ss) b (it.settle skip).1 := by
    have hseeks : List.Forall₂ (fun T r ↦ Seek kNoMoreDocs T b r) Ss (it.children.map docId) :=
      List.forall₂_map_right_iff.2 (h.imp fun _ _ hc ↦ hc.2.1)
    refine .union hseeks ⟨?_, ?_⟩
    · exact hmem.imp id fun ⟨_, _, c, hc, hdoc⟩ ↦ List.mem_map.2 ⟨c, hc, hdoc⟩
    · rintro x (rfl | hx)
      · exact hmin (Or.inl rfl)
      · obtain ⟨c, hc, rfl⟩ := List.mem_map.1 hx
        exact (hchild c hc).2
  refine ⟨hseek, fun hne ↦ ⟨?_, hseek.mem hne⟩⟩
  refine List.forall₂_iff_get.2 ⟨h.length_eq, fun i h₁ h₂ ↦ ?_⟩
  exact (List.forall₂_iff_get.1 h).2 i h₁ h₂ |>.mono (hseek.le hb)
    (hchild _ (List.get_mem _ _)).2

/-- Nothing was called yet. -/
structure FreshOver (L : SeekLaw σ) (Ss : List (Set ℕ)) (it : DisjunctionIterator σ) : Prop where
  children : List.Forall₂ L.Fresh Ss it.children
  current : it.current = kNoMoreDocs
  nonempty : Ss ≠ []

theorem FreshOver.sound (h : FreshOver L Ss it) : SoundOver L Ss it :=
  ⟨h.children.imp fun _ _ ↦ L.sound_of_fresh, Or.inr h.current⟩

theorem FreshOver.next (h : FreshOver L Ss it) : Seek kNoMoreDocs (unionOf Ss) 0 it.next.1 ∧
    (it.next.1 ≠ kNoMoreDocs → AtOver L Ss it.next.2) := by
  have hany : (it.children.any fun c ↦ docId c = kNoMoreDocs) = true := by
    obtain ⟨T, hT⟩ := List.exists_mem_of_ne_nil Ss h.nonempty
    obtain ⟨c, hc, hfresh⟩ := related_of_mem_left h.children hT
    exact List.any_eq_true.2 ⟨c, hc, decide_eq_true (L.docId_of_fresh hfresh)⟩
  rw [DisjunctionIterator.next, if_pos h.current, if_pos hany]
  refine settle_placed (forall₂_map h.children fun T c hc ↦ ?_) (Nat.zero_le _) fun _ _ ↦ rfl
  obtain ⟨hseek, hat⟩ := L.next_of_fresh hc
  obtain ⟨hsound, hdoc⟩ := L.sound_next (L.sound_of_fresh hc)
  rw [startChild, if_pos (L.docId_of_fresh hc)]
  exact ⟨hsound, hdoc ▸ hseek, hdoc ▸ hat⟩

/-- A disjunction that was not started ignores `Advance`. -/
theorem FreshOver.advance (h : FreshOver L Ss it) :
    (it.advance t).1 = kNoMoreDocs ∧ FreshOver L Ss (it.advance t).2 := by
  have hstill : it.children.map (advanceChild t) = it.children := by
    refine (List.map_congr_left fun c hc ↦ ?_).trans (List.map_id _)
    obtain ⟨T, -, hfresh⟩ := related_of_mem_right h.children hc
    exact if_neg fun hlt ↦ hlt.1 (L.docId_of_fresh hfresh)
  have hend : (settle it fun d ↦ d < t).1 = kNoMoreDocs := by
    obtain ⟨hmem, -⟩ := best_isLeast (fun d ↦ decide (d < t)) it.children kNoMoreDocs true
      (fun _ ↦ rfl) (docId_le_of_sound h.sound.children)
    refine hmem.resolve_right ?_
    rintro ⟨hne, -, c, hc, hdoc⟩
    obtain ⟨T, -, hfresh⟩ := related_of_mem_right h.children hc
    exact hne (hdoc.symm.trans (L.docId_of_fresh hfresh))
  rw [DisjunctionIterator.advance, hstill]
  exact ⟨hend, h.children, hend, h.nonempty⟩

theorem AtOver.next (h : AtOver L Ss it) :
    Seek kNoMoreDocs (unionOf Ss) (it.current + 1) it.next.1 ∧
      (it.next.1 ≠ kNoMoreDocs → AtOver L Ss it.next.2) := by
  rw [next_eq_settle h.lt.ne]
  refine settle_placed (forall₂_map h.children fun T c hc ↦ ?_) h.lt ?_
  · have hle := hc.2.1.le h.lt.le
    rw [passChild]
    split_ifs with hend hbehind
    · exact hc.mono (Nat.le_succ _) ((hend.resolve_right h.lt.ne).symm ▸ h.lt)
    · obtain ⟨hseek, hat⟩ := L.next_of_at (hc.2.2 (not_or.1 hend).1)
      obtain ⟨hsound, hdoc⟩ := L.sound_next hc.1
      rw [le_antisymm hbehind hle] at hseek
      exact ⟨hsound, hdoc ▸ hseek, hdoc ▸ hat⟩
    · exact hc.mono (Nat.le_succ _) (not_le.1 hbehind)
  · intro d hd
    simp [Nat.lt_of_succ_le hd]

/-- `Advance` never goes back. -/
theorem AtOver.advance (h : AtOver L Ss it) (ht : t ≤ kNoMoreDocs) :
    Seek kNoMoreDocs (unionOf Ss) (max it.current t) (it.advance t).1 ∧
      ((it.advance t).1 ≠ kNoMoreDocs → AtOver L Ss (it.advance t).2) := by
  refine settle_placed (forall₂_map h.children fun T c hc ↦ ?_) (max_le h.lt.le ht) ?_
  · have hle := hc.2.1.le h.lt.le
    rw [advanceChild]
    split_ifs with hbehind
    · obtain ⟨hseek, hat⟩ := L.advance_of_at (hc.2.2 hbehind.1) ht (Or.inl hbehind.2.le)
      obtain ⟨hsound, hdoc, -⟩ := L.sound_advance hc.1 ht
      rw [max_eq_right (hle.trans hbehind.2.le)]
      exact ⟨hsound, hdoc ▸ hseek, hdoc ▸ hat⟩
    · refine hc.mono (le_max_left _ _) (max_le hle ?_)
      rcases Decidable.not_and_iff_or_not.1 hbehind with hend | hge
      · exact ht.trans (not_not.1 hend).ge
      · exact not_lt.1 hge
  · intro d hd
    simp [(le_max_right _ _).trans hd]

/-- **Disjunctions** have the law when their children do. -/
def law (L : SeekLaw σ) : SeekLaw (DisjunctionIterator σ) where
  Sound S it := ∃ Ss, unionOf Ss = S ∧ SoundOver L Ss it
  Fresh S it := ∃ Ss, unionOf Ss = S ∧ FreshOver L Ss it
  At S it := ∃ Ss, unionOf Ss = S ∧ AtOver L Ss it
  sound_of_fresh := fun ⟨Ss, hS, h⟩ ↦ ⟨Ss, hS, h.sound⟩
  sound_of_at := fun ⟨Ss, hS, h⟩ ↦ ⟨Ss, hS, h.sound⟩
  lt_of_sound := fun ⟨_, hS, h⟩ ↦ hS ▸ h.lt
  docId_of_sound := fun ⟨_, hS, h⟩ ↦ hS ▸ h.current
  sound_next := fun ⟨Ss, hS, h⟩ ↦ ⟨⟨Ss, hS, h.next.1⟩, h.next.2⟩
  sound_advance := fun ⟨Ss, hS, h⟩ ht ↦ ⟨⟨Ss, hS, (h.advance ht).1⟩, (h.advance ht).2⟩
  docId_of_fresh := fun ⟨_, _, h⟩ ↦ h.current
  docId_of_at := fun ⟨_, hS, h⟩ ↦ hS ▸ h.current
  next_of_fresh := fun ⟨Ss, hS, h⟩ ↦ ⟨hS ▸ h.next.1, fun hne ↦ ⟨Ss, hS, h.next.2 hne⟩⟩
  next_of_at := fun ⟨Ss, hS, h⟩ ↦ ⟨hS ▸ h.next.1, fun hne ↦ ⟨Ss, hS, h.next.2 hne⟩⟩
  advance_of_at := fun ⟨Ss, hS, h⟩ ht hc ↦
    ⟨(hS ▸ (h.advance ht).1).of_max hc, fun hne ↦ ⟨Ss, hS, (h.advance ht).2 hne⟩⟩

end DisjunctionIterator

end Spp.Query
