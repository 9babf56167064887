import SearchPlusPlus.Query.SeekLaw

/-!
# Conjunctions

`Leaps it target res`: the rounds of the leapfrog from a first child at `target`, without a count
of rounds. The loops of `Next` and `Advance` make these rounds (`leaps_nextLoop`,
`seeks_advanceLoop`), since the target grows in every round. What a conjunction does is proved by
induction on the rounds, once for any state (`Leaps.sound`) and once for children that are where
the operator puts them (`Leaps.live`).
-/

namespace Spp.Query

open Index DocIdSetIterator

namespace ConjunctionIterator

variable {σ : Type} [DocIdSetIterator σ]

/-- The rounds of the leapfrog. -/
inductive Leaps : ConjunctionIterator σ → ℕ → ℕ × ConjunctionIterator σ → Prop
  | none {it : ConjunctionIterator σ} {target : ℕ} {front : σ} {others others' : List σ}
      (hc : it.children = front :: others) (hf : follow target others = (none, others')) :
      Leaps it target { it with children := front :: others' }.exhausted
  | found {it : ConjunctionIterator σ} {target : ℕ} {front : σ} {others others' : List σ}
      (hc : it.children = front :: others) (hf : follow target others = (some target, others')) :
      Leaps it target ({ it with children := front :: others' }.found target)
  | stuck {it : ConjunctionIterator σ} {target candidate : ℕ} {front front' : σ}
      {others others' : List σ} (hc : it.children = front :: others)
      (hf : follow target others = (some candidate, others')) (hne : candidate ≠ target)
      (ha : DocIdSetIterator.advance front candidate = (kNoMoreDocs, front')) :
      Leaps it target { it with children := front' :: others' }.exhausted
  | step {it : ConjunctionIterator σ} {target candidate d : ℕ} {front front' : σ}
      {others others' : List σ} {res : ℕ × ConjunctionIterator σ}
      (hc : it.children = front :: others)
      (hf : follow target others = (some candidate, others')) (hne : candidate ≠ target)
      (ha : DocIdSetIterator.advance front candidate = (d, front')) (hd : d ≠ kNoMoreDocs)
      (h : Leaps { it with children := front' :: others' } d res) : Leaps it target res

/-- The rounds from a target the first child has still to be put at. -/
inductive Seeks (it : ConjunctionIterator σ) (target : ℕ) : ℕ × ConjunctionIterator σ → Prop
  | stuck {front front' : σ} {others : List σ} (hc : it.children = front :: others)
      (ha : DocIdSetIterator.advance front target = (kNoMoreDocs, front')) :
      Seeks it target { it with children := front' :: others }.exhausted
  | leaps {d : ℕ} {front front' : σ} {others : List σ} {res : ℕ × ConjunctionIterator σ}
      (hc : it.children = front :: others)
      (ha : DocIdSetIterator.advance front target = (d, front')) (hd : d ≠ kNoMoreDocs)
      (h : Leaps { it with children := front' :: others } d res) : Seeks it target res

/-! ### Any state -/

section Sound

variable {L : SeekLaw σ} {Ss : List (Set ℕ)} {it : ConjunctionIterator σ} {cs : List σ}
  {target : ℕ}

/-- The other children stay sound; one that is not at the target is behind it, and if all are
there, the target is in all their sets. -/
theorem follow_sound (h : List.Forall₂ L.Sound Ss cs) (ht : target ≤ kNoMoreDocs) :
    List.Forall₂ L.Sound Ss (follow target cs).2 ∧
      ∀ d, (follow target cs).1 = some d → target ≤ d ∧ d ≤ kNoMoreDocs ∧
        (d = target → ∀ T ∈ Ss, target ∈ T) := by
  induction h with
  | nil =>
    refine ⟨.nil, ?_⟩
    rintro d ⟨⟩
    exact ⟨le_rfl, ht, fun _ T hT ↦ absurd hT List.not_mem_nil⟩
  | @cons T c Ts cs hc hcs ih =>
    obtain ⟨hsound, hdoc, hle⟩ := L.sound_advance hc ht
    have hmem := L.advance_mem hc ht
    have hmax := L.advance_le hc ht
    rw [follow]
    generalize DocIdSetIterator.advance c target = r at hsound hdoc hle hmem hmax
    obtain ⟨d, c'⟩ := r
    dsimp only at hsound hdoc hle hmem hmax ⊢
    split_ifs with hend hne
    · exact ⟨.cons hsound hcs, fun _ h ↦ by cases h⟩
    · refine ⟨.cons hsound hcs, ?_⟩
      rintro _ ⟨⟩
      exact ⟨hle, hmax, fun heq ↦ absurd heq hne⟩
    · rw [not_not] at hne
      refine ⟨.cons hsound ih.1, fun d' hd' ↦ ?_⟩
      obtain ⟨h₁, h₂, h₃⟩ := ih.2 d' hd'
      refine ⟨h₁, h₂, fun heq T' hT' ↦ ?_⟩
      rcases List.mem_cons.1 hT' with rfl | hT'
      · exact hne ▸ hmem.resolve_right hend
      · exact h₃ heq T' hT'

/-- Any state over the intersection of some sets. -/
structure SoundOver (L : SeekLaw σ) (Ss : List (Set ℕ)) (it : ConjunctionIterator σ) : Prop where
  children : List.Forall₂ L.Sound Ss it.children
  nonempty : Ss ≠ []
  current : it.current ∈ interOf Ss ∨ it.current = kNoMoreDocs

theorem SoundOver.lt (h : SoundOver L Ss it) : ∀ x ∈ interOf Ss, x < kNoMoreDocs := by
  intro x hx
  obtain ⟨T, hT⟩ := List.exists_mem_of_ne_nil Ss h.nonempty
  obtain ⟨c, -, hc⟩ := related_of_mem_left h.children hT
  exact L.lt_of_sound hc x (hx T hT)

/-- What a call of a conjunction is known to return in any state. -/
def SoundResult (L : SeekLaw σ) (Ss : List (Set ℕ)) (target : ℕ)
    (res : ℕ × ConjunctionIterator σ) : Prop :=
  SoundOver L Ss res.2 ∧ res.2.current = res.1 ∧ target ≤ res.1

theorem SoundResult.exhausted {children : List σ} (h : List.Forall₂ L.Sound Ss children)
    (hne : Ss ≠ []) (ht : target ≤ kNoMoreDocs) :
    SoundResult L Ss target { it with children }.exhausted :=
  ⟨⟨h, hne, Or.inr rfl⟩, rfl, ht⟩

/-- The first child and the others. -/
theorem sound_front {front : σ} {others : List σ} (h : List.Forall₂ L.Sound Ss (front :: others)) :
    ∃ T Ts, Ss = T :: Ts ∧ L.Sound T front ∧ List.Forall₂ L.Sound Ts others := by
  cases h with
  | cons hc hcs => exact ⟨_, _, rfl, hc, hcs⟩

theorem Leaps.sound {res : ℕ × ConjunctionIterator σ} (h : Leaps it target res)
    (hs : List.Forall₂ L.Sound Ss it.children) (ht : target ≤ kNoMoreDocs)
    (hfront : ∀ c ∈ it.children.head?, docId c = target) : SoundResult L Ss target res := by
  induction h with
  | none hc hf =>
    rw [hc] at hs
    obtain ⟨T, Ts, rfl, hc, hcs⟩ := sound_front hs
    have hfollow := (follow_sound hcs ht).1
    rw [hf] at hfollow
    exact .exhausted (.cons hc hfollow) (List.cons_ne_nil _ _) ht
  | found hc hf =>
    rw [hc] at hs hfront
    obtain ⟨T, Ts, rfl, hc, hcs⟩ := sound_front hs
    obtain ⟨hfollow, hall⟩ := follow_sound hcs ht
    rw [hf] at hfollow hall
    refine ⟨⟨.cons hc hfollow, List.cons_ne_nil _ _, ?_⟩, rfl, le_rfl⟩
    have hdoc : docId _ = _ := hfront _ rfl
    refine (L.docId_of_sound hc).imp (fun hmem T' hT' ↦ ?_) fun hend ↦ hdoc ▸ hend
    rcases List.mem_cons.1 hT' with rfl | hT'
    · exact hdoc ▸ hmem
    · exact (hall _ rfl).2.2 rfl T' hT'
  | stuck hc hf hne ha =>
    rw [hc] at hs
    obtain ⟨T, Ts, rfl, hc, hcs⟩ := sound_front hs
    obtain ⟨hfollow, hall⟩ := follow_sound hcs ht
    rw [hf] at hfollow hall
    have hadvance := (L.sound_advance hc (hall _ rfl).2.1).1
    rw [ha] at hadvance
    exact .exhausted (.cons hadvance hfollow) (List.cons_ne_nil _ _) ht
  | step hc hf hne ha hd _ ih =>
    rw [hc] at hs
    obtain ⟨T, Ts, rfl, hc, hcs⟩ := sound_front hs
    obtain ⟨hfollow, hall⟩ := follow_sound hcs ht
    rw [hf] at hfollow hall
    obtain ⟨hle, hmax, -⟩ := hall _ rfl
    obtain ⟨hadvance, hdoc, hle'⟩ := L.sound_advance hc hmax
    have hmax' := L.advance_le hc hmax
    rw [ha] at hadvance hdoc hle' hmax'
    obtain ⟨h₁, h₂, h₃⟩ := ih (.cons hadvance hfollow) hmax' fun c hc ↦ by
      cases hc
      exact hdoc
    exact ⟨h₁, h₂, hle.trans (hle'.trans h₃)⟩

theorem Seeks.sound {res : ℕ × ConjunctionIterator σ} (h : Seeks it target res)
    (hs : List.Forall₂ L.Sound Ss it.children) (ht : target ≤ kNoMoreDocs) :
    SoundResult L Ss target res := by
  cases h with
  | stuck hc ha =>
    rw [hc] at hs
    obtain ⟨T, Ts, rfl, hc, hcs⟩ := sound_front hs
    have hadvance := (L.sound_advance hc ht).1
    rw [ha] at hadvance
    exact .exhausted (.cons hadvance hcs) (List.cons_ne_nil _ _) ht
  | leaps hc ha hd h =>
    rw [hc] at hs
    obtain ⟨T, Ts, rfl, hc, hcs⟩ := sound_front hs
    obtain ⟨hadvance, hdoc, hle⟩ := L.sound_advance hc ht
    have hmax := L.advance_le hc ht
    rw [ha] at hadvance hdoc hle hmax
    have hs' : List.Forall₂ L.Sound (T :: Ts) (_ :: _) := .cons hadvance hcs
    obtain ⟨h₁, h₂, h₃⟩ := h.sound hs' hmax fun c hc ↦ by
      cases hc
      exact hdoc
    exact ⟨h₁, h₂, hle.trans h₃⟩

/-! ### The loops make the rounds -/

/-- **The loop of `Next`**: the target grows in every round, so the rounds are enough. -/
theorem leaps_nextLoop (fuel : ℕ) : ∀ {Ss : List (Set ℕ)} {it : ConjunctionIterator σ}
    {target : ℕ}, Ss ≠ [] → List.Forall₂ L.Sound Ss it.children → target ≤ kNoMoreDocs →
      kNoMoreDocs < fuel + target → Leaps it target (it.nextLoop fuel target) := by
  induction fuel with
  | zero => exact fun _ _ ht hfuel ↦ by omega
  | succ fuel ih =>
    intro Ss it target hne hs ht hfuel
    obtain ⟨front, others, hchildren⟩ : ∃ front others, it.children = front :: others := by
      cases hc : it.children with
      | nil =>
        rw [hc] at hs
        cases hs
        exact absurd rfl hne
      | cons front others => exact ⟨front, others, rfl⟩
    rw [hchildren] at hs
    obtain ⟨T, Ts, rfl, hfront, hothers⟩ := sound_front hs
    obtain ⟨hfollow, hall⟩ := follow_sound hothers ht
    unfold nextLoop
    rw [hchildren]
    dsimp only
    generalize hf : follow target others = r at hfollow hall
    obtain ⟨- | candidate, others'⟩ := r
    · exact .none hchildren hf
    · obtain ⟨hle, hmax, -⟩ := hall _ rfl
      dsimp only
      split_ifs with heq hend
      · subst heq
        exact .found hchildren hf
      · exact .stuck hchildren hf heq (Prod.ext hend rfl)
      · obtain ⟨hsound, -, hle'⟩ := L.sound_advance hfront hmax
        have hgrow : target < (DocIdSetIterator.advance front candidate).1 := by omega
        refine .step hchildren hf heq rfl hend (ih (List.cons_ne_nil T Ts) (.cons hsound hfollow)
          (L.advance_le hfront hmax) ?_)
        change kNoMoreDocs < fuel + (DocIdSetIterator.advance front candidate).1
        omega

/-- **The loop of `Advance`.** -/
theorem seeks_advanceLoop (fuel : ℕ) : ∀ {Ss : List (Set ℕ)} {it : ConjunctionIterator σ}
    {target : ℕ}, Ss ≠ [] → List.Forall₂ L.Sound Ss it.children → target ≤ kNoMoreDocs →
      kNoMoreDocs < fuel + target → it.current < target ∨ it.current = kNoMoreDocs →
      Seeks it target (it.advanceLoop fuel target) := by
  induction fuel with
  | zero => exact fun _ _ ht hfuel _ ↦ by omega
  | succ fuel ih =>
    intro Ss it target hne hs ht hfuel hgo
    obtain ⟨front, others, hchildren⟩ : ∃ front others, it.children = front :: others := by
      cases hc : it.children with
      | nil =>
        rw [hc] at hs
        cases hs
        exact absurd rfl hne
      | cons front others => exact ⟨front, others, rfl⟩
    rw [hchildren] at hs
    obtain ⟨T, Ts, rfl, hfront, hothers⟩ := sound_front hs
    obtain ⟨hsound, -, hle⟩ := L.sound_advance hfront ht
    have hmax := L.advance_le hfront ht
    unfold advanceLoop
    rw [if_pos hgo, hchildren]
    dsimp only
    generalize ha : DocIdSetIterator.advance front target = r at hsound hle hmax
    obtain ⟨d, front'⟩ := r
    dsimp only at hsound hle hmax ⊢
    split_ifs with hend
    · exact .stuck hchildren (ha.trans (by rw [hend]))
    · obtain ⟨hfollow, hall⟩ := follow_sound hothers hmax
      refine .leaps hchildren ha hend ?_
      generalize hf : follow d others = r at hfollow hall
      obtain ⟨- | candidate, others'⟩ := r
      · exact .none rfl hf
      · obtain ⟨hle', hmax', -⟩ := hall _ rfl
        dsimp only
        split_ifs with heq
        · subst heq
          exact .found rfl hf
        · -- What the next round starts with is the end of this one.
          have hround := @ih (T :: Ts) { it with children := front' :: others' } candidate
            (List.cons_ne_nil T Ts) (.cons hsound hfollow) hmax' (by omega)
            (hgo.imp (fun hlt ↦ by exact (hlt.trans_le hle).trans_le hle') id)
          generalize advanceLoop fuel { it with children := front' :: others' } candidate = res
            at hround ⊢
          cases hround with
          | stuck hc ha' =>
            cases hc
            exact .stuck rfl hf heq ha'
          | leaps hc ha' hd' h =>
            cases hc
            exact .step rfl hf heq ha' hd' h

end Sound

/-! ### Children in place -/

section Live

variable {L : SeekLaw σ} {Ss : List (Set ℕ)} {it : ConjunctionIterator σ} {cs : List σ}
  {b target : ℕ}

/-- A child that may be asked for documents from `target` on. -/
def Within (L : SeekLaw σ) (target : ℕ) (T : Set ℕ) (c : σ) : Prop :=
  L.At T c ∧ (docId c ≤ target ∨ ∀ x ∈ T, docId c ≤ x)

theorem Within.mono {target' : ℕ} {T : Set ℕ} {c : σ} (h : Within L target T c)
    (hle : target ≤ target') : Within L target' T c :=
  ⟨h.1, h.2.imp (fun h ↦ h.trans hle) id⟩

/-- A child that is at a document of its set. -/
def AtDoc (L : SeekLaw σ) (d : ℕ) (T : Set ℕ) (c : σ) : Prop := L.At T c ∧ docId c = d

theorem AtDoc.within {d : ℕ} {T : Set ℕ} {c : σ} (h : AtDoc L d T c) : Within L d T c :=
  ⟨h.1, Or.inl h.2.le⟩

/-- The outcomes of the loop over the other children: one has nothing left, all are at the
target, or one is behind it. -/
theorem follow_live (h : List.Forall₂ (Within L target) Ss cs) (ht : target ≤ kNoMoreDocs) :
    ((follow target cs).1 = none ∧ ∃ T ∈ Ss, Seek kNoMoreDocs T target kNoMoreDocs) ∨
      ((follow target cs).1 = some target ∧
        List.Forall₂ (AtDoc L target) Ss (follow target cs).2) ∨
      ∃ d, (follow target cs).1 = some d ∧ target < d ∧ (∃ T ∈ Ss, Seek kNoMoreDocs T target d) ∧
        List.Forall₂ (Within L d) Ss (follow target cs).2 := by
  induction h with
  | nil => exact Or.inr (Or.inl ⟨rfl, .nil⟩)
  | @cons T c Ts cs hc hcs ih =>
    obtain ⟨hseek, hat⟩ := L.advance_of_at hc.1 ht hc.2
    obtain ⟨-, hdoc, hle⟩ := L.sound_advance (L.sound_of_at hc.1) ht
    rw [follow]
    generalize DocIdSetIterator.advance c target = r at hseek hat hdoc hle
    obtain ⟨d, c'⟩ := r
    dsimp only at hseek hat hdoc hle ⊢
    split_ifs with hend hne
    · subst hend
      exact Or.inl ⟨rfl, T, List.mem_cons_self, hseek⟩
    · have hlt := lt_of_le_of_ne hle (Ne.symm hne)
      refine Or.inr (Or.inr ⟨d, rfl, hlt, ⟨T, List.mem_cons_self, hseek⟩, .cons ?_ ?_⟩)
      · exact ⟨hat hend, Or.inl hdoc.le⟩
      · exact hcs.imp fun _ _ h ↦ h.mono hle
    · rw [not_not] at hne
      subst hne
      have hc' : AtDoc L d T c' := ⟨hat hend, hdoc⟩
      rcases ih with ⟨hnone, T', hT', hT''⟩ | ⟨hall, hcs'⟩ | ⟨d', hd', hlt, ⟨T', hT', hT''⟩, hcs'⟩
      · exact Or.inl ⟨hnone, T', List.mem_cons_of_mem _ hT', hT''⟩
      · exact Or.inr (Or.inl ⟨hall, .cons hc' hcs'⟩)
      · exact Or.inr (Or.inr ⟨d', hd', hlt, ⟨T', List.mem_cons_of_mem _ hT', hT''⟩,
          .cons (hc'.within.mono hlt.le) hcs'⟩)

/-- All children are at the current document. -/
def AtOver (L : SeekLaw σ) (Ss : List (Set ℕ)) (it : ConjunctionIterator σ) : Prop :=
  Ss ≠ [] ∧ List.Forall₂ (AtDoc L it.current) Ss it.children

/-- What a call of a conjunction in place returns: the next document from the bound on. -/
def LiveResult (L : SeekLaw σ) (Ss : List (Set ℕ)) (b : ℕ) (res : ℕ × ConjunctionIterator σ) :
    Prop :=
  Seek kNoMoreDocs (interOf Ss) b res.1 ∧ (res.1 ≠ kNoMoreDocs → AtOver L Ss res.2)

/-- A child that has nothing left ends the seek. -/
theorem LiveResult.exhausted {children : List σ} {T : Set ℕ} (hT : T ∈ Ss)
    (hseek : Seek kNoMoreDocs T target kNoMoreDocs)
    (hS : ∀ x ∈ interOf Ss, b ≤ x → target ≤ x) :
    LiveResult L Ss b { it with children }.exhausted :=
  ⟨.none fun x hx hb ↦ hseek.le_of_mem (hx T hT) (hS x hx hb), fun hne ↦ absurd rfl hne⟩

theorem within_front {front : σ} {others : List σ}
    (h : List.Forall₂ (Within L target) Ss (front :: others)) :
    ∃ T Ts, Ss = T :: Ts ∧ Within L target T front ∧ List.Forall₂ (Within L target) Ts others := by
  cases h with
  | cons hc hcs => exact ⟨_, _, rfl, hc, hcs⟩

/-- **The leapfrog** finds the least common document from the bound on. -/
theorem Leaps.live {res : ℕ × ConjunctionIterator σ} (h : Leaps it target res)
    (hs : List.Forall₂ (Within L target) Ss it.children) (hb : b ≤ target)
    (hfront : ∀ c ∈ it.children.head?, docId c = target)
    (hS : ∀ x ∈ interOf Ss, b ≤ x → target ≤ x) : LiveResult L Ss b res := by
  induction h with
  | none hc hf =>
    rw [hc] at hs hfront
    obtain ⟨T, Ts, rfl, hc, hcs⟩ := within_front hs
    have ht : _ ≤ kNoMoreDocs := (hfront _ rfl) ▸ (L.docId_lt_of_at hc.1).le
    rcases follow_live hcs ht with ⟨-, T', hT', hT''⟩ | ⟨hall, -⟩ | ⟨d, hd, -⟩
    · exact .exhausted (List.mem_cons_of_mem _ hT') hT'' hS
    · rw [hf] at hall
      cases hall
    · rw [hf] at hd
      cases hd
  | @found it target front others others' hc hf =>
    rw [hc] at hs hfront
    obtain ⟨T, Ts, rfl, hc, hcs⟩ := within_front hs
    have hdoc : docId front = target := hfront _ rfl
    have ht : target < kNoMoreDocs := hdoc ▸ L.docId_lt_of_at hc.1
    rcases follow_live hcs ht.le with ⟨hnone, -⟩ | ⟨-, hcs'⟩ | ⟨d, hd, hlt, -⟩
    · rw [hf] at hnone
      cases hnone
    · rw [hf] at hcs'
      have hall : List.Forall₂ (AtDoc L target) (T :: Ts) (front :: others') :=
        .cons ⟨hc.1, hdoc⟩ hcs'
      refine ⟨.intro (fun T' hT' ↦ ?_) hb ht.le hS, fun _ ↦ ⟨List.cons_ne_nil _ _, hall⟩⟩
      obtain ⟨c, -, hc', hdoc'⟩ := related_of_mem_left hall hT'
      exact hdoc' ▸ L.docId_of_at hc'
    · rw [hf] at hd
      cases hd
      exact absurd rfl hlt.ne
  | stuck hc hf hne ha =>
    rw [hc] at hs hfront
    obtain ⟨T, Ts, rfl, hc, hcs⟩ := within_front hs
    have ht : _ ≤ kNoMoreDocs := (hfront _ rfl) ▸ (L.docId_lt_of_at hc.1).le
    rcases follow_live hcs ht with ⟨hnone, -⟩ | ⟨hall, -⟩ | ⟨d, hd, hlt, ⟨T', hT', hT''⟩, -⟩
    · rw [hf] at hnone
      cases hnone
    · rw [hf] at hall
      cases hall
      exact absurd rfl hne
    · rw [hf] at hd
      cases hd
      have hfront' := hc.mono hlt.le
      have hseek := (L.advance_of_at hfront'.1 hT''.le_top hfront'.2).1
      rw [ha] at hseek
      exact .exhausted List.mem_cons_self hseek fun x hx hb ↦
        hT''.le_of_mem (hx T' (List.mem_cons_of_mem _ hT')) (hS x hx hb)
  | step hc hf hne ha hd _ ih =>
    rw [hc] at hs hfront
    obtain ⟨T, Ts, rfl, hc, hcs⟩ := within_front hs
    have ht : _ ≤ kNoMoreDocs := (hfront _ rfl) ▸ (L.docId_lt_of_at hc.1).le
    rcases follow_live hcs ht with ⟨hnone, -⟩ | ⟨hall, -⟩ | ⟨d, hd', hlt, ⟨T', hT', hT''⟩, hcs'⟩
    · rw [hf] at hnone
      cases hnone
    · rw [hf] at hall
      cases hall
      exact absurd rfl hne
    · rw [hf] at hd' hcs'
      cases hd'
      have hfront' := hc.mono hlt.le
      obtain ⟨hseek, hat⟩ := L.advance_of_at hfront'.1 hT''.le_top hfront'.2
      obtain ⟨-, hdoc, hle⟩ := L.sound_advance (L.sound_of_at hfront'.1) hT''.le_top
      rw [ha] at hseek hat hdoc hle
      refine ih (.cons ⟨hat hd, Or.inl hdoc.le⟩ (hcs'.imp fun _ _ h ↦ h.mono hle))
        (hb.trans (hlt.le.trans hle)) ?_ ?_
      · rintro c ⟨⟩
        exact hdoc
      · -- Nothing common lies before the document the first child went to.
        exact fun x hx hb ↦ hseek.le_of_mem (hx T List.mem_cons_self)
          (hT''.le_of_mem (hx T' (List.mem_cons_of_mem _ hT')) (hS x hx hb))

/-- The same, from a first child that has still to be put at the target. -/
theorem Seeks.live {res : ℕ × ConjunctionIterator σ} (h : Seeks it target res)
    (hs : List.Forall₂ (Within L target) Ss it.children) (ht : target ≤ kNoMoreDocs) :
    LiveResult L Ss target res := by
  cases h with
  | stuck hc ha =>
    rw [hc] at hs
    obtain ⟨T, Ts, rfl, hc, hcs⟩ := within_front hs
    have hseek := (L.advance_of_at hc.1 ht hc.2).1
    rw [ha] at hseek
    exact .exhausted List.mem_cons_self hseek fun _ _ ↦ id
  | leaps hc ha hd h =>
    rw [hc] at hs
    obtain ⟨T, Ts, rfl, hc, hcs⟩ := within_front hs
    obtain ⟨hseek, hat⟩ := L.advance_of_at hc.1 ht hc.2
    obtain ⟨-, hdoc, hle⟩ := L.sound_advance (L.sound_of_at hc.1) ht
    rw [ha] at hseek hat hdoc hle
    refine h.live (.cons ⟨hat hd, Or.inl hdoc.le⟩ (hcs.imp fun _ _ h ↦ h.mono hle)) hle ?_ ?_
    · rintro c ⟨⟩
      exact hdoc
    · exact fun x hx hb ↦ hseek.le_of_mem (hx T List.mem_cons_self) hb

end Live

/-! ### The law -/

section Law

variable {L : SeekLaw σ} {Ss : List (Set ℕ)} {it : ConjunctionIterator σ} {b target : ℕ}

/-- The calls `Next` makes. -/
inductive Nexts (it : ConjunctionIterator σ) : ℕ × ConjunctionIterator σ → Prop
  | first {front : σ} {others : List σ} {res : ℕ × ConjunctionIterator σ}
      (hcur : it.current = kNoMoreDocs) (hc : it.children = front :: others)
      (h : Leaps it (docId front) res) : Nexts it res
  | ended {front front' : σ} {others : List σ} (hcur : it.current ≠ kNoMoreDocs)
      (hc : it.children = front :: others)
      (hn : DocIdSetIterator.next front = (kNoMoreDocs, front')) :
      Nexts it { it with children := front' :: others }.exhausted
  | leaps {d : ℕ} {front front' : σ} {others : List σ} {res : ℕ × ConjunctionIterator σ}
      (hcur : it.current ≠ kNoMoreDocs) (hc : it.children = front :: others)
      (hn : DocIdSetIterator.next front = (d, front')) (hd : d ≠ kNoMoreDocs)
      (h : Leaps { it with children := front' :: others } d res) : Nexts it res

theorem SoundOver.cons (h : SoundOver L Ss it) : ∃ front others T Ts, it.children =
    front :: others ∧ Ss = T :: Ts ∧ L.Sound T front ∧ List.Forall₂ L.Sound Ts others := by
  cases hc : it.children with
  | nil =>
    have hs := h.children
    rw [hc] at hs
    cases hs
    exact absurd rfl h.nonempty
  | cons front others =>
    have hs := h.children
    rw [hc] at hs
    obtain ⟨T, Ts, hSs, hfront, hothers⟩ := sound_front hs
    exact ⟨front, others, T, Ts, rfl, hSs, hfront, hothers⟩

theorem nexts_next (h : SoundOver L Ss it) : Nexts it it.next := by
  obtain ⟨front, others, T, Ts, hc, rfl, hfront, hothers⟩ := h.cons
  have hfuel : ∀ d, kNoMoreDocs < kNoMoreDocs + 1 + d := fun d ↦ by omega
  unfold next
  rw [hc]
  dsimp only
  split_ifs with hcur hend
  · have hdoc : docId front ≤ kNoMoreDocs := by
      rcases L.docId_of_sound hfront with hmem | heq
      · exact (L.lt_of_sound hfront _ hmem).le
      · exact heq.le
    exact .first hcur hc (leaps_nextLoop _ h.nonempty h.children hdoc (hfuel _))
  · exact .ended hcur hc (Prod.ext hend rfl)
  · obtain ⟨hsound, -⟩ := L.sound_next hfront
    have hle : (DocIdSetIterator.next front).1 ≤ kNoMoreDocs :=
      (L.lt_of_sound hfront _ ((L.next_mem hfront).resolve_right hend)).le
    exact .leaps hcur hc rfl hend
      (leaps_nextLoop _ (List.cons_ne_nil T Ts) (.cons hsound hothers) hle (hfuel _))

theorem seeks_advance (h : SoundOver L Ss it) (ht : target ≤ kNoMoreDocs)
    (hgo : it.current < target ∨ it.current = kNoMoreDocs) : Seeks it target (it.advance target) :=
  seeks_advanceLoop _ h.nonempty h.children ht (by omega) hgo

theorem advance_still (hgo : ¬(it.current < target ∨ it.current = kNoMoreDocs)) :
    it.advance target = (it.current, it) := by
  rw [advance, advanceLoop, if_neg hgo]

theorem Nexts.sound {res : ℕ × ConjunctionIterator σ} (hn : Nexts it res)
    (h : SoundOver L Ss it) : SoundResult L Ss 0 res := by
  obtain ⟨front, others, T, Ts, hc, rfl, hfront, hothers⟩ := h.cons
  have hzero : ∀ {t}, SoundResult L (T :: Ts) t res → SoundResult L (T :: Ts) 0 res :=
    fun h ↦ ⟨h.1, h.2.1, Nat.zero_le _⟩
  cases hn with
  | first hcur hc' hleaps =>
    cases hc.symm.trans hc'
    refine hzero (hleaps.sound h.children ?_ fun c hmem ↦ ?_)
    · rcases L.docId_of_sound hfront with hmem | heq
      · exact (L.lt_of_sound hfront _ hmem).le
      · exact heq.le
    · rw [hc] at hmem
      cases hmem
      rfl
  | ended hcur hc' hn =>
    cases hc.symm.trans hc'
    have hsound := (L.sound_next hfront).1
    rw [hn] at hsound
    exact .exhausted (.cons hsound hothers) (List.cons_ne_nil _ _) (Nat.zero_le _)
  | leaps hcur hc' hn hd hleaps =>
    cases hc.symm.trans hc'
    obtain ⟨hsound, hdoc⟩ := L.sound_next hfront
    have hmem := L.next_mem hfront
    rw [hn] at hsound hdoc hmem
    refine hzero (hleaps.sound (.cons hsound hothers)
      (L.lt_of_sound hfront _ (hmem.resolve_right hd)).le fun c hc ↦ ?_)
    cases hc
    exact hdoc

theorem SoundOver.advance (h : SoundOver L Ss it) (ht : target ≤ kNoMoreDocs) :
    SoundResult L Ss target (it.advance target) := by
  by_cases hgo : it.current < target ∨ it.current = kNoMoreDocs
  · exact (seeks_advance h ht hgo).sound h.children ht
  · rw [advance_still hgo]
    exact ⟨h, rfl, not_lt.1 (not_or.1 hgo).1⟩

/-- Nothing was called yet: the children are at their first documents, or there is nothing to
find. -/
structure FreshOver (L : SeekLaw σ) (Ss : List (Set ℕ)) (it : ConjunctionIterator σ) : Prop where
  sound : SoundOver L Ss it
  current : it.current = kNoMoreDocs
  primed : interOf Ss = ∅ ∨
    List.Forall₂ (fun T c ↦ L.At T c ∧ ∀ x ∈ T, docId c ≤ x) Ss it.children

theorem AtOver.sound (h : AtOver L Ss it) : SoundOver L Ss it where
  children := h.2.imp fun _ _ hc ↦ L.sound_of_at hc.1
  nonempty := h.1
  current := Or.inl fun T hT ↦ by
    obtain ⟨c, -, hc, hdoc⟩ := related_of_mem_left h.2 hT
    exact hdoc ▸ L.docId_of_at hc

theorem AtOver.lt (h : AtOver L Ss it) : it.current < kNoMoreDocs := by
  obtain ⟨T, hT⟩ := List.exists_mem_of_ne_nil Ss h.1
  obtain ⟨c, -, hc, hdoc⟩ := related_of_mem_left h.2 hT
  exact hdoc ▸ L.docId_lt_of_at hc

/-- With nothing to find, nothing is found. -/
theorem SoundResult.live {res : ℕ × ConjunctionIterator σ} {t : ℕ} (h : SoundResult L Ss t res)
    (hempty : interOf Ss = ∅) : LiveResult L Ss b res := by
  have hend : res.1 = kNoMoreDocs := by
    obtain ⟨hsound, hdoc, -⟩ := h
    rcases hsound.current with hmem | heq
    · rw [hempty] at hmem
      exact hmem.elim
    · exact hdoc ▸ heq
  refine ⟨?_, fun hne ↦ absurd hend hne⟩
  rw [hend, hempty]
  exact .none fun _ hx ↦ hx.elim

theorem FreshOver.next (h : FreshOver L Ss it) : LiveResult L Ss 0 it.next := by
  have hnexts := nexts_next h.sound
  rcases h.primed with hempty | hprimed
  · exact (hnexts.sound h.sound).live hempty
  · generalize it.next = res at hnexts ⊢
    cases hnexts with
    | first hcur hc hleaps =>
      have hwithin : ∀ {t}, List.Forall₂ (Within L t) Ss it.children :=
        hprimed.imp fun _ _ hc ↦ ⟨hc.1, Or.inr hc.2⟩
      refine hleaps.live hwithin (Nat.zero_le _) (fun c hmem ↦ ?_) fun x hx _ ↦ ?_
      · rw [hc] at hmem
        cases hmem
        rfl
      · rw [hc] at hprimed
        cases hprimed with
        | cons hc _ => exact hc.2 x (hx _ List.mem_cons_self)
    | ended hcur | leaps hcur => exact absurd h.current hcur

theorem FreshOver.advance (h : FreshOver L Ss it) (ht : target ≤ kNoMoreDocs) :
    LiveResult L Ss target (it.advance target) := by
  have hseeks := seeks_advance h.sound ht (Or.inr h.current)
  rcases h.primed with hempty | hprimed
  · exact (hseeks.sound h.sound.children ht).live hempty
  · exact hseeks.live (hprimed.imp fun _ _ hc ↦ ⟨hc.1, Or.inr hc.2⟩) ht

theorem AtOver.next (h : AtOver L Ss it) : LiveResult L Ss (it.current + 1) it.next := by
  obtain ⟨front, others, T, Ts, hc, rfl, -⟩ := h.sound.cons
  have hplace := h.2
  rw [hc] at hplace
  obtain ⟨hfront, hdoc⟩ : AtDoc L it.current T front := by
    cases hplace with
    | cons h _ => exact h
  have hothers : List.Forall₂ (AtDoc L it.current) Ts others := by
    cases hplace with
    | cons _ h => exact h
  obtain ⟨hseek, hat⟩ := L.next_of_at hfront
  rw [hdoc] at hseek
  have hnexts := nexts_next h.sound
  generalize it.next = res at hnexts ⊢
  cases hnexts with
  | first hcur => exact absurd hcur h.lt.ne
  | ended _ hc' hn =>
    cases hc.symm.trans hc'
    rw [hn] at hseek
    exact .exhausted List.mem_cons_self hseek fun _ _ ↦ id
  | leaps _ hc' hn hd hleaps =>
    cases hc.symm.trans hc'
    have hdoc' := (L.sound_next (L.sound_of_at hfront)).2
    rw [hn] at hseek hat hdoc'
    have hle : it.current + 1 ≤ _ := hseek.le h.lt
    refine hleaps.live (.cons ⟨hat hd, Or.inl hdoc'.le⟩ (hothers.imp fun _ _ h ↦ ?_)) hle ?_ ?_
    · exact h.within.mono ((Nat.le_succ _).trans hle)
    · rintro c ⟨⟩
      exact hdoc'
    · exact fun x hx hb ↦ hseek.le_of_mem (hx T List.mem_cons_self) hb

/-- `Advance` never goes back. -/
theorem AtOver.advance (h : AtOver L Ss it) (ht : target ≤ kNoMoreDocs) :
    LiveResult L Ss (max it.current target) (it.advance target) := by
  by_cases hgo : it.current < target
  · rw [max_eq_right hgo.le]
    exact (seeks_advance h.sound ht (Or.inl hgo)).live
      (h.2.imp fun _ _ hc ↦ hc.within.mono hgo.le) ht
  · rw [advance_still (not_or.2 ⟨hgo, h.lt.ne⟩), max_eq_left (not_lt.1 hgo)]
    exact ⟨.intro (h.sound.current.resolve_right h.lt.ne) le_rfl h.lt.le fun _ _ ↦ id, fun _ ↦ h⟩

/-- **Conjunctions** have the law when their children do. -/
def law (L : SeekLaw σ) : SeekLaw (ConjunctionIterator σ) where
  Sound S it := ∃ Ss, interOf Ss = S ∧ SoundOver L Ss it
  Fresh S it := ∃ Ss, interOf Ss = S ∧ FreshOver L Ss it
  At S it := ∃ Ss, interOf Ss = S ∧ AtOver L Ss it
  sound_of_fresh := fun ⟨Ss, hS, h⟩ ↦ ⟨Ss, hS, h.sound⟩
  sound_of_at := fun ⟨Ss, hS, h⟩ ↦ ⟨Ss, hS, h.sound⟩
  lt_of_sound := fun ⟨_, hS, h⟩ ↦ hS ▸ h.lt
  docId_of_sound := fun ⟨_, hS, h⟩ ↦ hS ▸ h.current
  sound_next := fun ⟨Ss, hS, h⟩ ↦
    have hres := (nexts_next h).sound h
    ⟨⟨Ss, hS, hres.1⟩, hres.2.1⟩
  sound_advance := fun ⟨Ss, hS, h⟩ ht ↦
    have hres := h.advance ht
    ⟨⟨Ss, hS, hres.1⟩, hres.2⟩
  docId_of_fresh := fun ⟨_, _, h⟩ ↦ h.current
  docId_of_at := fun ⟨_, hS, h⟩ ↦ hS ▸ h.sound.current.resolve_right h.lt.ne
  next_of_fresh := fun ⟨Ss, hS, h⟩ ↦ ⟨hS ▸ h.next.1, fun hne ↦ ⟨Ss, hS, h.next.2 hne⟩⟩
  next_of_at := fun ⟨Ss, hS, h⟩ ↦ ⟨hS ▸ h.next.1, fun hne ↦ ⟨Ss, hS, h.next.2 hne⟩⟩
  advance_of_at := fun ⟨Ss, hS, h⟩ ht hc ↦
    have hres := h.advance ht
    ⟨(hS ▸ hres.1).of_max hc, fun hne ↦ ⟨Ss, hS, hres.2 hne⟩⟩

/-- The constructor puts the children at their first documents, unless one is empty. -/
theorem prime_fresh {cs : List σ} (h : List.Forall₂ L.Fresh Ss cs) :
    List.Forall₂ L.Sound Ss (prime cs) ∧ (interOf Ss = ∅ ∨
      List.Forall₂ (fun T c ↦ L.At T c ∧ ∀ x ∈ T, docId c ≤ x) Ss (prime cs)) := by
  induction h with
  | nil => exact ⟨.nil, Or.inr .nil⟩
  | @cons T c Ts cs hc hcs ih =>
    obtain ⟨hseek, hat⟩ := L.next_of_fresh hc
    obtain ⟨hsound, hdoc⟩ := L.sound_next (L.sound_of_fresh hc)
    rw [prime]
    generalize DocIdSetIterator.next c = r at hseek hat hsound hdoc
    obtain ⟨d, c'⟩ := r
    dsimp only at hseek hat hsound hdoc ⊢
    split_ifs with hend
    · refine ⟨.cons hsound (hcs.imp fun _ _ ↦ L.sound_of_fresh), Or.inl ?_⟩
      subst hend
      have hempty := (Seek.top_iff (L.lt_of_sound hsound)).1 hseek
      exact Set.eq_empty_of_forall_notMem fun x hx ↦
        absurd (hempty x (hx T List.mem_cons_self)) (Nat.not_lt_zero x)
    · refine ⟨.cons hsound ih.1, ih.2.imp (fun hempty ↦ ?_) fun hprimed ↦
        .cons ⟨hat hend, ?_⟩ hprimed⟩
      · refine Set.eq_empty_of_forall_notMem fun x hx ↦ ?_
        have hmem : x ∈ interOf Ts := fun T' hT' ↦ hx T' (List.mem_cons_of_mem _ hT')
        rwa [hempty] at hmem
      · exact fun x hx ↦ hdoc ▸ hseek.le_of_mem hx (Nat.zero_le x)

/-- A new conjunction, in whatever order its children were sorted. -/
theorem fresh_new [SortByKey] {cs : List σ} (h : List.Forall₂ L.Fresh Ss cs) (hne : Ss ≠ []) :
    (law L).Fresh (interOf Ss) (new cs) := by
  obtain ⟨Ss', hfresh, hperm⟩ :=
    List.perm_comp_forall₂ (SortByKey.perm DocIdSetIterator.cost cs) h.flip
  obtain ⟨hsound, hprimed⟩ := prime_fresh hfresh.flip
  have hne' : Ss' ≠ [] := by
    rintro rfl
    exact hne hperm.symm.eq_nil
  exact ⟨Ss', interOf_perm hperm, ⟨hsound, hne', Or.inr rfl⟩, rfl, hprimed⟩

end Law

end ConjunctionIterator

end Spp.Query
