import SearchPlusPlus.Query.Trees

/-!
# What follows the end

An operator that found nothing may be called again. `Spent` are the states in which every later
`Advance` finds nothing; an operator ends in one unless it is a `MatchAllIterator` or a
conjunction led by one (`Back`), which go back when they are told to.

The law of an operator in place (`SeekLaw.At`) is not enough here, since the calls come with any
target: `advance_fwd` and `advance_le` say what an `Advance` to an earlier document does.
-/

namespace Spp.Query

open Index DocIdSetIterator

/-- The ends of the operators of a law. -/
structure EndLaw {σ : Type} [DocIdSetIterator σ] (L : SeekLaw σ) where
  /-- Led by a `MatchAllIterator`. -/
  Back : σ → Prop
  /-- Nothing is found by any `Advance`. -/
  Spent : σ → Prop
  back_next : ∀ {S it}, L.Sound S it → (Back (next it).2 ↔ Back it)
  back_advance : ∀ {S it t}, L.Sound S it → t ≤ kNoMoreDocs → (Back (advance it t).2 ↔ Back it)
  docId_of_spent : ∀ {it}, Spent it → docId it = kNoMoreDocs
  spent_advance : ∀ {it t}, Spent it → t ≤ kNoMoreDocs →
    (advance it t).1 = kNoMoreDocs ∧ Spent (advance it t).2
  next_spent : ∀ {S it}, L.At S it → ¬Back it → (next it).1 = kNoMoreDocs → Spent (next it).2
  advance_fwd : ∀ {S it t}, L.At S it → ¬Back it → t ≤ kNoMoreDocs →
    docId it ≤ (advance it t).1 ∧ ((advance it t).1 ≠ kNoMoreDocs → L.At S (advance it t).2) ∧
      ((advance it t).1 = kNoMoreDocs → Spent (advance it t).2)
  advance_le : ∀ {S it t d}, L.At S it → d ∈ S → docId it ≤ d → t ≤ d →
    (advance it t).1 ≤ d ∧ L.At S (advance it t).2
  return_of_back : ∀ {S it}, L.At S it → Back it →
    (advance (advance it kNoMoreDocs).2 0).1 ≤ docId it ∧
      L.At S (advance (advance it kNoMoreDocs).2 0).2

/-! ### Terms -/

namespace TermIterator

variable {S : Set ℕ} {it : TermIterator} {t : ℕ}

theorem Done.next (h : it.Done) : it.next.1 = kNoMoreDocs ∧ it.next.2.Done := by
  rw [next_nil h.isOver]
  exact ⟨rfl, ⟨h.isOver.rest, h.isOver.remaining, h.isOver.sorted, h.isOver.lt, h.isOver.after,
    h.isOver.fresh⟩, rfl⟩

theorem Done.advance (h : it.Done) (ht : t ≤ kNoMoreDocs) :
    (it.advance t).1 = kNoMoreDocs ∧ (it.advance t).2.Done := by
  by_cases hstart : it.started = true
  · rw [advance_still (ht.trans h.current.ge) hstart]
    exact ⟨h.current, h⟩
  · have hgo : it.current < t ∨ it.started = false := Or.inr (Bool.eq_false_iff.2 hstart)
    obtain ⟨it', ⟨-, hrun, hdone⟩ | ⟨p, rest, hcons, -⟩⟩ := advance_over h.isOver hgo
    · rw [hrun]
      exact ⟨rfl, hdone⟩
    · cases hcons

/-- `Next` reads a posting or ends. -/
theorem done_of_next {pl : PostingList} (h : it.Over pl) (hend : it.next.1 = kNoMoreDocs) :
    it.next.2.Done := by
  cases pl with
  | nil =>
    rw [next_nil h]
    exact ⟨⟨h.rest, h.remaining, h.sorted, h.lt, h.after, h.fresh⟩, rfl⟩
  | cons p pl =>
    obtain ⟨it', hnext, -⟩ := next_cons h
    rw [hnext] at hend
    exact absurd hend (h.lt p List.mem_cons_self).ne

/-- So does `Advance`, when it moves. -/
theorem done_of_advance {pl : PostingList} (h : it.Over pl)
    (hgo : it.current < t ∨ it.started = false) (hend : (it.advance t).1 = kNoMoreDocs) :
    (it.advance t).2.Done := by
  obtain ⟨it', ⟨-, hrun, hdone⟩ | ⟨p, rest, hcons, hrun, -⟩⟩ := advance_over h hgo
  · rw [hrun]
    exact hdone
  · have hp : p ∈ pl := by
      have hmem : p ∈ p :: rest := List.mem_cons_self
      rw [← hcons] at hmem
      exact (List.dropWhile_sublist _).subset hmem
    rw [hrun] at hend
    exact absurd hend (h.lt p hp).ne

/-- **Terms** stay at their end. -/
def endLaw : EndLaw law where
  Back _ := False
  Spent := Done
  back_next _ := Iff.rfl
  back_advance _ _ := Iff.rfl
  docId_of_spent h := h.current
  spent_advance := Done.advance
  next_spent := fun ⟨_, _, hat, _⟩ _ ↦ done_of_next hat.isOver
  advance_fwd {S it t} h _ ht := by
    obtain ⟨hseek, hat⟩ := advance_of_at (t := t) h
    obtain ⟨p, pl, hposting, hp, hlt, -⟩ := h
    have hcur : it.current < kNoMoreDocs := hposting.current ▸ hlt _ hp
    refine ⟨(le_max_left _ _).trans (hseek.le (max_le hcur.le ht)), hat, fun hend ↦ ?_⟩
    by_cases hgo : it.current < t
    · exact done_of_advance hposting.isOver (Or.inl hgo) hend
    · have hstill := advance_still (not_lt.1 hgo) hposting.started
      have hend : (it.advance t).1 = kNoMoreDocs := hend
      rw [hstill] at hend
      exact absurd hend hcur.ne
  advance_le {S it t d} h hd hdoc ht := by
    obtain ⟨hseek, hat⟩ := advance_of_at (t := t) h
    have hle := hseek.le_of_mem hd (max_le hdoc ht)
    exact ⟨hle, hat (hle.trans_lt (law.lt_of_sound (law.sound_of_at h) d hd)).ne⟩
  return_of_back _ h := h.elim

end TermIterator

/-! ### All documents -/

namespace MatchAllIterator

/-- **`MatchAllIterator`** goes back. -/
def endLaw : EndLaw law where
  Back _ := True
  Spent _ := False
  back_next _ := Iff.rfl
  back_advance _ _ := Iff.rfl
  docId_of_spent h := h.elim
  spent_advance h := h.elim
  next_spent _ h := absurd trivial h
  advance_fwd _ h := absurd trivial h
  advance_le {S it t d} h hd _ ht := by
    obtain ⟨hseek, hat⟩ := seek_advance (t := t) (law.sound_of_at h)
    have hle := hseek.le_of_mem hd ht
    exact ⟨hle, hat (hle.trans_lt (law.lt_of_sound (law.sound_of_at h) d hd)).ne⟩
  return_of_back {S it} h _ := by
    obtain ⟨hsound, -⟩ := law.sound_advance (law.sound_of_at h) le_rfl
    obtain ⟨hseek, hat⟩ := seek_advance (t := 0) hsound
    have hmem := law.docId_of_at h
    have hle := hseek.le_of_mem hmem (Nat.zero_le _)
    exact ⟨hle, hat (hle.trans_lt (law.docId_lt_of_at h)).ne⟩

end MatchAllIterator

/-! ### Disjunctions -/

namespace DisjunctionIterator

variable {σ : Type} [DocIdSetIterator σ] {L : SeekLaw σ} {Ss : List (Set ℕ)}
  {it : DisjunctionIterator σ} {t : ℕ}

/-- All children are at their ends, as far as `Advance` looks. -/
structure SpentOver (it : DisjunctionIterator σ) : Prop where
  children : ∀ c ∈ it.children, docId c = kNoMoreDocs
  current : it.current = kNoMoreDocs

/-- Settling on nothing, when no child is at a document that is skipped. -/
theorem spent_settle {skip : ℕ → Bool} (hle : ∀ c ∈ it.children, docId c ≤ kNoMoreDocs)
    (hskip : ∀ c ∈ it.children, docId c ≠ kNoMoreDocs → skip (docId c) = false)
    (hend : (it.settle skip).1 = kNoMoreDocs) : SpentOver (it.settle skip).2 := by
  obtain ⟨-, hmin⟩ := best_isLeast skip it.children kNoMoreDocs true (fun _ ↦ rfl) hle
  refine ⟨fun c hc ↦ by_contra fun hne ↦ ?_, hend⟩
  have hbest := hmin (Or.inr ⟨hne, hskip c hc hne, c, hc, rfl⟩)
  exact hne (le_antisymm (hle c hc) (hend.symm.le.trans hbest))

theorem SpentOver.advance (h : SpentOver it) :
    (it.advance t).1 = kNoMoreDocs ∧ SpentOver (it.advance t).2 := by
  have hstill : it.children.map (advanceChild t) = it.children := by
    refine (List.map_congr_left fun c hc ↦ ?_).trans (List.map_id _)
    exact if_neg fun hlt ↦ hlt.1 (h.children c hc)
  have hend : (it.advance t).1 = kNoMoreDocs := by
    obtain ⟨hmem, -⟩ := best_isLeast (fun d ↦ decide (d < t)) it.children kNoMoreDocs true
      (fun _ ↦ rfl) fun c hc ↦ (h.children c hc).le
    rw [DisjunctionIterator.advance, hstill]
    refine hmem.resolve_right ?_
    rintro ⟨hne, -, c, hc, hdoc⟩
    exact hne (hdoc.symm.trans (h.children c hc))
  refine ⟨hend, ?_⟩
  rw [DisjunctionIterator.advance, hstill] at hend ⊢
  exact ⟨h.children, hend⟩

/-- What an `Advance` that finds nothing leaves, in any state. -/
theorem SoundOver.spent_advance (h : SoundOver L Ss it) (ht : t ≤ kNoMoreDocs)
    (hend : (it.advance t).1 = kNoMoreDocs) : SpentOver (it.advance t).2 := by
  have hchildren := forall₂_map h.children fun _ _ ↦ sound_advanceChild (L := L) (t := t) ht
  refine spent_settle (docId_le_of_sound hchildren) (fun c hc hne ↦ ?_) hend
  obtain ⟨c₀, hc₀, rfl⟩ := List.mem_map.1 hc
  obtain ⟨T, -, hsound⟩ := related_of_mem_right h.children hc₀
  have hge : t ≤ docId (advanceChild t c₀) := by
    rw [advanceChild] at hne ⊢
    split_ifs at hne ⊢ with hbehind
    · obtain ⟨-, hdoc, hle⟩ := L.sound_advance hsound ht
      exact hdoc ▸ hle
    · exact not_lt.1 fun hlt ↦ hbehind ⟨hne, hlt⟩
  exact decide_eq_false (not_lt.2 hge)

theorem AtOver.spent_next (h : AtOver L Ss it) (hend : it.next.1 = kNoMoreDocs) :
    SpentOver it.next.2 := by
  rw [next_eq_settle h.lt.ne] at hend ⊢
  have hpass : ∀ T c, L.Sound T c → L.Sound T (passChild it.current c) := fun _ _ ↦
    sound_passChild
  have hchildren := forall₂_map h.sound.children hpass
  refine spent_settle (docId_le_of_sound hchildren) (fun c hc hne ↦ ?_) hend
  obtain ⟨c₀, hc₀, rfl⟩ := List.mem_map.1 hc
  obtain ⟨T, -, hplaced⟩ := related_of_mem_right h.children hc₀
  have hgt : it.current < docId (passChild it.current c₀) := by
    rw [passChild] at hne ⊢
    split_ifs at hne ⊢ with hstay hbehind
    · exact absurd (hstay.resolve_right h.lt.ne) hne
    · obtain ⟨hseek, -⟩ := L.next_of_at (hplaced.2.2 (not_or.1 hstay).1)
      obtain ⟨-, hdoc⟩ := L.sound_next hplaced.1
      have hle := hplaced.2.1.le h.lt.le
      rw [hdoc]
      rw [le_antisymm hbehind hle] at hseek
      exact hseek.le h.lt
    · exact not_le.1 hbehind
  simp [hgt]

/-- **Disjunctions** stay at their end under `Advance`, whatever their children are. -/
def endLaw (L : SeekLaw σ) : EndLaw (law L) where
  Back _ := False
  Spent := SpentOver
  back_next _ := Iff.rfl
  back_advance _ _ := Iff.rfl
  docId_of_spent h := h.current
  spent_advance h _ := h.advance
  next_spent := fun ⟨_, _, h⟩ _ ↦ h.spent_next
  advance_fwd := fun ⟨Ss, hS, h⟩ _ ht ↦ by
    obtain ⟨hseek, hat⟩ := h.advance ht
    exact ⟨(le_max_left _ _).trans (hseek.le (max_le h.lt.le ht)), fun hne ↦ ⟨Ss, hS, hat hne⟩,
      h.sound.spent_advance ht⟩
  advance_le := fun ⟨Ss, hS, h⟩ hd hdoc ht ↦ by
    subst hS
    have htop := h.sound.lt _ hd
    obtain ⟨hseek, hat⟩ := h.advance (ht.trans htop.le)
    have hle := hseek.le_of_mem hd (max_le hdoc ht)
    exact ⟨hle, Ss, rfl, hat (hle.trans_lt htop).ne⟩
  return_of_back _ h := h.elim

end DisjunctionIterator

/-! ### Conjunctions -/

namespace ConjunctionIterator

variable {σ : Type} [DocIdSetIterator σ] {L : SeekLaw σ} (E : EndLaw L) {Ss : List (Set ℕ)}
  {it : ConjunctionIterator σ} {target t : ℕ}

/-- Led by a child that goes back. -/
def LedBack (it : ConjunctionIterator σ) : Prop := ∃ c ∈ it.children.head?, E.Back c

theorem ledBack_cons {front : σ} {others : List σ} (h : it.children = front :: others) :
    LedBack E it ↔ E.Back front := by
  rw [LedBack, h]
  exact ⟨fun ⟨_, hc, hback⟩ ↦ Option.some.inj hc ▸ hback, fun hback ↦ ⟨front, rfl, hback⟩⟩

/-- The first child is at its end or on a document from a bound on. -/
def FrontFrom (T : Set ℕ) (front : σ) (b : ℕ) : Prop :=
  ¬E.Back front ∧ (E.Spent front ∨ (L.At T front ∧ b ≤ docId front))

/-- The first child of a conjunction that found nothing has no common document from its own on. -/
def SpentOver (it : ConjunctionIterator σ) : Prop :=
  it.current = kNoMoreDocs ∧ ∃ T Ts front others, it.children = front :: others ∧
    List.Forall₂ L.Sound (T :: Ts) (front :: others) ∧ ¬E.Back front ∧
    (E.Spent front ∨ (L.At T front ∧ ∀ x ∈ interOf (T :: Ts), x < docId front))

/-- What the first child has become when the rounds of the leapfrog find nothing. -/
def FrontLeft (target : ℕ) (T : Set ℕ) (res : ℕ × ConjunctionIterator σ) : Prop :=
  ∃ front others, res.2.children = front :: others ∧ FrontFrom E T front target

variable {E}

theorem FrontLeft.mono {b b' : ℕ} {T : Set ℕ} {res : ℕ × ConjunctionIterator σ}
    (h : FrontLeft E b T res) (hle : b' ≤ b) : FrontLeft E b' T res := by
  obtain ⟨front, others, hc, hback, hfront⟩ := h
  exact ⟨front, others, hc, hback, hfront.imp id fun ⟨hat, hb⟩ ↦ ⟨hat, hle.trans hb⟩⟩

/-- The rounds leave the first child where it is or move it forward. -/
theorem Leaps.frontLeft {T : Set ℕ} {Ts : List (Set ℕ)} {res : ℕ × ConjunctionIterator σ}
    (h : Leaps it target res) (hs : List.Forall₂ L.Sound (T :: Ts) it.children)
    (hfront : ∀ c ∈ it.children.head?, L.At T c ∧ docId c = target ∧ ¬E.Back c)
    (hend : res.1 = kNoMoreDocs) : FrontLeft E target T res := by
  induction h with
  | none hc hf =>
    rw [hc] at hfront
    obtain ⟨hat, hdoc, hback⟩ := hfront _ rfl
    exact ⟨_, _, rfl, hback, Or.inr ⟨hat, hdoc.ge⟩⟩
  | found hc hf =>
    rw [hc] at hfront
    obtain ⟨hat, hdoc, -⟩ := hfront _ rfl
    exact absurd (hdoc.trans hend) (L.docId_lt_of_at hat).ne
  | stuck hc hf hne ha =>
    rw [hc] at hfront hs
    obtain ⟨hat, hdoc, hback⟩ := hfront _ rfl
    have htop := (L.docId_lt_of_at hat).le
    obtain ⟨hsound, hothers⟩ := List.forall₂_cons.1 hs
    obtain ⟨-, hall⟩ := follow_sound hothers (hdoc ▸ htop)
    rw [hf] at hall
    obtain ⟨-, hmax, -⟩ := hall _ rfl
    have hspent := (E.advance_fwd hat hback hmax).2.2
    have hback' := E.back_advance hsound hmax
    rw [ha] at hspent hback'
    exact ⟨_, _, rfl, hback'.not.2 hback, Or.inl (hspent rfl)⟩
  | step hc hf hne ha hd _ ih =>
    rw [hc] at hfront hs
    obtain ⟨hat, hdoc, hback⟩ := hfront _ rfl
    have htop := (L.docId_lt_of_at hat).le
    obtain ⟨hsound, hothers⟩ := List.forall₂_cons.1 hs
    obtain ⟨hfollow, hall⟩ := follow_sound hothers (hdoc ▸ htop)
    rw [hf] at hall hfollow
    obtain ⟨-, hmax, -⟩ := hall _ rfl
    obtain ⟨hle, hat', -⟩ := E.advance_fwd hat hback hmax
    have hback' := E.back_advance hsound hmax
    obtain ⟨hsound', hdoc', -⟩ := L.sound_advance hsound hmax
    rw [ha] at hle hat' hback' hsound' hdoc'
    refine (ih (.cons hsound' hfollow) ?_ hend).mono (hdoc ▸ hle)
    rintro c ⟨⟩
    exact ⟨hat' hd, hdoc', hback'.not.2 hback⟩

/-- So do those from a target the first child has still to be put at. -/
theorem Seeks.frontLeft {T : Set ℕ} {Ts : List (Set ℕ)} {b : ℕ}
    {res : ℕ × ConjunctionIterator σ} (h : Seeks it t res)
    (hs : List.Forall₂ L.Sound (T :: Ts) it.children) (ht : t ≤ kNoMoreDocs)
    (hfront : ∀ c ∈ it.children.head?, ¬E.Back c ∧
      (E.Spent c ∨ (L.At T c ∧ b ≤ max (docId c) t))) (hend : res.1 = kNoMoreDocs) :
    FrontLeft E b T res := by
  cases h with
  | stuck hc ha =>
    rw [hc] at hs hfront
    obtain ⟨hback, hspent | ⟨hat, -⟩⟩ := hfront _ rfl
    · have hspent' := (E.spent_advance hspent ht).2
      have hback' := E.back_advance (List.forall₂_cons.1 hs).1 ht
      rw [ha] at hspent' hback'
      exact ⟨_, _, rfl, hback'.not.2 hback, Or.inl hspent'⟩
    · have hspent := (E.advance_fwd hat hback ht).2.2
      have hback' := E.back_advance (List.forall₂_cons.1 hs).1 ht
      rw [ha] at hspent hback'
      exact ⟨_, _, rfl, hback'.not.2 hback, Or.inl (hspent rfl)⟩
  | leaps hc ha hd h =>
    rw [hc] at hs hfront
    obtain ⟨hsound, hothers⟩ := List.forall₂_cons.1 hs
    obtain ⟨hback, hspent | ⟨hat, hb⟩⟩ := hfront _ rfl
    · have hspent' := (E.spent_advance hspent ht).1
      rw [ha] at hspent'
      exact absurd hspent' hd
    · obtain ⟨hle, hat', -⟩ := E.advance_fwd hat hback ht
      have hback' := E.back_advance hsound ht
      obtain ⟨hsound', hdoc', hle'⟩ := L.sound_advance hsound ht
      rw [ha] at hle hat' hback' hsound' hdoc' hle'
      refine (h.frontLeft (.cons hsound' hothers) ?_ hend).mono (hb.trans (max_le hle hle'))
      rintro c ⟨⟩
      exact ⟨hat' hd, hdoc', hback'.not.2 hback⟩

/-- A conjunction that found nothing, when no common document comes after where it looked. -/
theorem FrontLeft.spentOver {T : Set ℕ} {Ts : List (Set ℕ)} {b : ℕ}
    {res : ℕ × ConjunctionIterator σ} (h : FrontLeft E b T res)
    (hres : SoundResult L (T :: Ts) t res) (hend : res.1 = kNoMoreDocs)
    (hnone : ∀ x ∈ interOf (T :: Ts), x < b) : SpentOver E res.2 := by
  obtain ⟨front, others, hc, hback, hfront⟩ := h
  obtain ⟨⟨hs, -, -⟩, hcur, -⟩ := hres
  rw [hc] at hs
  exact ⟨hcur.trans hend, T, Ts, front, others, hc, hs, hback,
    hfront.imp id fun ⟨hat, hb⟩ ↦ ⟨hat, fun x hx ↦ (hnone x hx).trans_le hb⟩⟩

theorem SpentOver.sound (h : SpentOver E it) : ∃ Ss, SoundOver L Ss it := by
  obtain ⟨hcur, T, Ts, front, others, hc, hs, -⟩ := h
  exact ⟨T :: Ts, hc ▸ hs, List.cons_ne_nil _ _, Or.inr hcur⟩

/-- **A spent conjunction** finds nothing. -/
theorem SpentOver.advance (h : SpentOver E it) (ht : t ≤ kNoMoreDocs) :
    (it.advance t).1 = kNoMoreDocs ∧ SpentOver E (it.advance t).2 := by
  obtain ⟨hcur, T, Ts, front, others, hc, hs, hback, hfront⟩ := h
  have hsound : SoundOver L (T :: Ts) it := ⟨hc ▸ hs, List.cons_ne_nil _ _, Or.inr hcur⟩
  have hseeks := seeks_advance hsound ht (Or.inr hcur)
  have hres := hsound.advance ht
  generalize it.advance t = res at hseeks hres ⊢
  -- A common document that is returned is at or after the first child, and there is none there.
  have hbound : ∃ b, (∀ x ∈ interOf (T :: Ts), x < b) ∧
      (E.Spent front ∨ (L.At T front ∧ b ≤ max (docId front) t)) ∧
      (res.1 ≠ kNoMoreDocs → b ≤ res.1) := by
    rcases hfront with hspent | ⟨hat, hnone⟩
    · refine ⟨kNoMoreDocs, hsound.lt, Or.inl hspent, fun hne ↦ absurd ?_ hne⟩
      cases hseeks with
      | stuck => rfl
      | leaps hc' ha hd =>
        cases hc.symm.trans hc'
        have hend := (E.spent_advance hspent ht).1
        rw [ha] at hend
        exact absurd hend hd
    · refine ⟨docId front, hnone, Or.inr ⟨hat, le_max_left _ _⟩, fun hne ↦ ?_⟩
      cases hseeks with
      | stuck => exact absurd rfl hne
      | leaps hc' ha hd hleaps =>
        cases hc.symm.trans hc'
        obtain ⟨hfs, hothers⟩ := List.forall₂_cons.1 hs
        have hle := (E.advance_fwd hat hback ht).1
        obtain ⟨hsound', hdoc', -⟩ := L.sound_advance hfs ht
        have hmax := L.advance_le hfs ht
        rw [ha] at hle hsound' hdoc' hmax
        have hs' : List.Forall₂ L.Sound (T :: Ts) (_ :: _) := .cons hsound' hothers
        refine hle.trans (hleaps.sound hs' hmax fun c hmem ↦ ?_).2.2
        cases hmem
        exact hdoc'
  obtain ⟨b, hnone, hfrom, hle⟩ := hbound
  have hend : res.1 = kNoMoreDocs := by_contra fun hne ↦ by
    have hmem := hres.1.current.resolve_right fun h ↦ hne (hres.2.1.symm.trans h)
    rw [hres.2.1] at hmem
    exact absurd (hle hne) (not_le.2 (hnone _ hmem))
  refine ⟨hend, ?_⟩
  have hleft : FrontLeft E b T res := hseeks.frontLeft hsound.children ht (fun c hmem ↦ by
    rw [hc] at hmem
    cases hmem
    exact ⟨hback, hfrom⟩) hend
  exact hleft.spentOver hres hend hnone

/-- `Next` finds nothing either: it looks from the first child on. -/
theorem SpentOver.next (h : SpentOver E it) :
    it.next.1 = kNoMoreDocs ∧ SpentOver E it.next.2 := by
  obtain ⟨hcur, T, Ts, front, others, hc, hs, hback, hfront⟩ := h
  have hsound : SoundOver L (T :: Ts) it := ⟨hc ▸ hs, List.cons_ne_nil _ _, Or.inr hcur⟩
  have hnexts := nexts_next hsound
  generalize it.next = res at hnexts ⊢
  cases hnexts with
  | ended hne | leaps hne => exact absurd hcur hne
  | first _ hc' hleaps =>
    cases hc.symm.trans hc'
    obtain ⟨hfs, hothers⟩ := List.forall₂_cons.1 hs
    have hhead : ∀ c ∈ it.children.head?, c = front := fun c hmem ↦ by
      rw [hc] at hmem
      exact (Option.some.inj hmem).symm
    have hmax : docId front ≤ kNoMoreDocs := by
      rcases L.docId_of_sound hfs with hmem | heq
      · exact (L.lt_of_sound hfs _ hmem).le
      · exact heq.le
    have hres := hleaps.sound hsound.children hmax fun c hmem ↦ by rw [hhead c hmem]
    have hend : res.1 = kNoMoreDocs := by_contra fun hne ↦ by
      have hmem := hres.1.current.resolve_right fun h ↦ hne (hres.2.1.symm.trans h)
      rw [hres.2.1] at hmem
      rcases hfront with hspent | ⟨-, hnone⟩
      · exact absurd (hsound.lt _ hmem)
          (not_lt.2 ((E.docId_of_spent hspent).symm.le.trans hres.2.2))
      · exact absurd (hnone _ hmem) (not_lt.2 hres.2.2)
    refine ⟨hend, ?_⟩
    rcases hfront with hspent | ⟨hat, hnone⟩
    · have htop := E.docId_of_spent hspent
      rw [htop] at hleaps hres
      -- No round moves the first child: its target is past every document.
      have hstill : ∃ others', res.2.children = front :: others' := by
        cases hleaps with
        | none hc' hf | found hc' hf =>
          cases hc.symm.trans hc'
          exact ⟨_, rfl⟩
        | stuck hc' hf hne | step hc' hf hne =>
          cases hc.symm.trans hc'
          have hall := (follow_sound hothers le_rfl).2
          rw [hf] at hall
          obtain ⟨hle, hle', -⟩ := hall _ rfl
          exact absurd (le_antisymm hle' hle) hne
      obtain ⟨others', hc'⟩ := hstill
      have hleft : FrontLeft E kNoMoreDocs T res := ⟨front, others', hc', hback, Or.inl hspent⟩
      exact hleft.spentOver hres hend hsound.lt
    · refine (hleaps.frontLeft hsound.children (fun c hmem ↦ ?_) hend).spentOver hres hend hnone
      rw [hhead c hmem]
      exact ⟨hat, rfl, hback⟩

/-! ### Back to an earlier document -/

/-- A child on a document up to `d`. -/
def UpTo (L : SeekLaw σ) (d : ℕ) (T : Set ℕ) (c : σ) : Prop := L.At T c ∧ docId c ≤ d

/-- The other children, asked for a document up to a common one, stay up to it. -/
theorem follow_upTo {d : ℕ} {cs : List σ} (h : List.Forall₂ (UpTo L d) Ss cs)
    (hd : d ∈ interOf Ss) (ht : target ≤ d) (htop : d < kNoMoreDocs) (E : EndLaw L) :
    ∃ r, (follow target cs).1 = some r ∧ r ≤ d ∧ List.Forall₂ (UpTo L d) Ss (follow target cs).2 ∧
      (r = target → List.Forall₂ (AtDoc L target) Ss (follow target cs).2) := by
  induction h with
  | nil => exact ⟨target, rfl, ht, .nil, fun _ ↦ .nil⟩
  | @cons T c Ts cs hc hcs ih =>
    obtain ⟨hle, hat⟩ := E.advance_le hc.1 (hd T List.mem_cons_self) hc.2 ht
    obtain ⟨-, hdoc, -⟩ := L.sound_advance (L.sound_of_at hc.1) (ht.trans htop.le)
    rw [follow]
    generalize DocIdSetIterator.advance c target = r at hle hat hdoc
    obtain ⟨d', c'⟩ := r
    dsimp only at hle hat hdoc ⊢
    have hc' : UpTo L d T c' := ⟨hat, hdoc.trans_le hle⟩
    rw [if_neg (hle.trans_lt htop).ne]
    split_ifs with hne
    · exact ⟨d', rfl, hle, .cons hc' hcs, fun heq ↦ absurd heq hne⟩
    · rw [not_not] at hne
      obtain ⟨r, hr, hrd, hcs', hall⟩ := ih fun T' hT' ↦ hd T' (List.mem_cons_of_mem _ hT')
      exact ⟨r, hr, hrd, .cons hc' hcs', fun heq ↦ .cons ⟨hat, hdoc.trans hne⟩ (hall heq)⟩

/-- So does the leapfrog, and it ends on a common document. -/
theorem Leaps.upTo {d : ℕ} {res : ℕ × ConjunctionIterator σ} (h : Leaps it target res)
    (hs : List.Forall₂ (UpTo L d) Ss it.children) (hd : d ∈ interOf Ss) (htop : d < kNoMoreDocs)
    (hfront : ∀ c ∈ it.children.head?, docId c = target) (E : EndLaw L) :
    res.1 ≤ d ∧ List.Forall₂ (AtDoc L res.2.current) Ss res.2.children := by
  have hcons : ∀ {front : σ} {others : List σ}, it.children = front :: others →
      ∃ T Ts, Ss = T :: Ts ∧ UpTo L d T front ∧ List.Forall₂ (UpTo L d) Ts others := by
    intro front others hc
    rw [hc] at hs
    cases hs with
    | cons hc hcs => exact ⟨_, _, rfl, hc, hcs⟩
  induction h with
  | none hc hf =>
    obtain ⟨T, Ts, rfl, hfrontUp, hothers⟩ := hcons hc
    rw [hc] at hfront
    have ht : _ ≤ d := (hfront _ rfl).symm.trans_le hfrontUp.2
    obtain ⟨r, hr, -⟩ := follow_upTo hothers (fun T' hT' ↦ hd T' (List.mem_cons_of_mem _ hT')) ht
      htop E
    rw [hf] at hr
    cases hr
  | found hc hf =>
    obtain ⟨T, Ts, rfl, hfrontUp, hothers⟩ := hcons hc
    rw [hc] at hfront
    have hdoc := hfront _ rfl
    have ht : _ ≤ d := hdoc.symm.trans_le hfrontUp.2
    obtain ⟨r, hr, hrd, -, hall⟩ :=
      follow_upTo hothers (fun T' hT' ↦ hd T' (List.mem_cons_of_mem _ hT')) ht htop E
    rw [hf] at hr hall
    cases hr
    exact ⟨hrd, .cons ⟨hfrontUp.1, hdoc⟩ (hall rfl)⟩
  | stuck hc hf hne ha =>
    obtain ⟨T, Ts, rfl, hfrontUp, hothers⟩ := hcons hc
    rw [hc] at hfront
    have ht : _ ≤ d := (hfront _ rfl).symm.trans_le hfrontUp.2
    obtain ⟨r, hr, hrd, -⟩ :=
      follow_upTo hothers (fun T' hT' ↦ hd T' (List.mem_cons_of_mem _ hT')) ht htop E
    rw [hf] at hr
    cases hr
    have hle := (E.advance_le hfrontUp.1 (hd T List.mem_cons_self) hfrontUp.2 hrd).1
    rw [ha] at hle
    exact absurd hle (not_le.2 htop)
  | step hc hf hne ha hne' _ ih =>
    obtain ⟨T, Ts, rfl, hfrontUp, hothers⟩ := hcons hc
    rw [hc] at hfront
    have ht : _ ≤ d := (hfront _ rfl).symm.trans_le hfrontUp.2
    obtain ⟨r, hr, hrd, hothers', -⟩ :=
      follow_upTo hothers (fun T' hT' ↦ hd T' (List.mem_cons_of_mem _ hT')) ht htop E
    rw [hf] at hr hothers'
    cases hr
    obtain ⟨hle, hat⟩ := E.advance_le hfrontUp.1 (hd T List.mem_cons_self) hfrontUp.2 hrd
    obtain ⟨-, hdoc, -⟩ :=
      L.sound_advance (L.sound_of_at hfrontUp.1) (hrd.trans htop.le)
    rw [ha] at hle hat hdoc
    have hup : List.Forall₂ (UpTo L d) (T :: Ts) (_ :: _) :=
      .cons ⟨hat, hdoc.trans_le hle⟩ hothers'
    refine ih hup (fun c hmem ↦ ?_) fun heq ↦ ?_
    · cases hmem
      exact hdoc
    · cases heq
      exact ⟨T, Ts, rfl, ⟨hat, hdoc.trans_le hle⟩, hothers'⟩

/-! ### The first child stays of its kind -/

theorem Leaps.ledBack {res : ℕ × ConjunctionIterator σ} (h : Leaps it target res)
    (hs : List.Forall₂ L.Sound Ss it.children) (ht : target ≤ kNoMoreDocs) :
    LedBack E res.2 ↔ LedBack E it := by
  induction h generalizing Ss with
  | none hc hf | found hc hf =>
    rw [ledBack_cons E hc]
    exact ledBack_cons E rfl
  | stuck hc hf hne ha =>
    rw [hc] at hs
    obtain ⟨T, Ts, rfl, hsound, hothers⟩ := sound_front hs
    have hall := (follow_sound hothers ht).2
    rw [hf] at hall
    have hback := E.back_advance hsound (hall _ rfl).2.1
    rw [ha] at hback
    rw [ledBack_cons E hc, ← hback]
    exact ledBack_cons E rfl
  | step hc hf hne ha hd _ ih =>
    rw [hc] at hs
    obtain ⟨T, Ts, rfl, hsound, hothers⟩ := sound_front hs
    obtain ⟨hfollow, hall⟩ := follow_sound hothers ht
    rw [hf] at hall hfollow
    obtain ⟨-, hmax, -⟩ := hall _ rfl
    have hback := E.back_advance hsound hmax
    have hsound' := (L.sound_advance hsound hmax).1
    have hmax' := L.advance_le hsound hmax
    rw [ha] at hback hsound' hmax'
    have hs' : List.Forall₂ L.Sound (T :: Ts) (_ :: _) := .cons hsound' hfollow
    rw [ih hs' hmax', ledBack_cons E hc, ← hback]
    exact ledBack_cons E rfl

theorem SoundOver.ledBack_advance (h : SoundOver L Ss it) (ht : t ≤ kNoMoreDocs) :
    LedBack E (it.advance t).2 ↔ LedBack E it := by
  by_cases hgo : it.current < t ∨ it.current = kNoMoreDocs
  · obtain ⟨front, others, T, Ts, hc, rfl, hsound, hothers⟩ := h.cons
    have hseeks := seeks_advance h ht hgo
    have hback := E.back_advance hsound ht
    have hsound' := (L.sound_advance hsound ht).1
    have hmax := L.advance_le hsound ht
    generalize it.advance t = res at hseeks ⊢
    cases hseeks with
    | stuck hc' ha =>
      cases hc.symm.trans hc'
      rw [ha] at hback
      rw [ledBack_cons E hc, ← hback]
      exact ledBack_cons E rfl
    | leaps hc' ha hd hleaps =>
      cases hc.symm.trans hc'
      rw [ha] at hback hsound' hmax
      have hs' : List.Forall₂ L.Sound (T :: Ts) (_ :: _) := .cons hsound' hothers
      rw [hleaps.ledBack hs' hmax, ledBack_cons E hc, ← hback]
      exact ledBack_cons E rfl
  · rw [advance_still hgo]

theorem SoundOver.ledBack_next (h : SoundOver L Ss it) : LedBack E it.next.2 ↔ LedBack E it := by
  obtain ⟨front, others, T, Ts, hc, rfl, hsound, hothers⟩ := h.cons
  have hnexts := nexts_next h
  have hback := E.back_next hsound
  have hsound' := (L.sound_next hsound).1
  generalize it.next = res at hnexts ⊢
  cases hnexts with
  | first _ hc' hleaps =>
    cases hc.symm.trans hc'
    refine hleaps.ledBack h.children ?_
    rcases L.docId_of_sound hsound with hmem | heq
    · exact (L.lt_of_sound hsound _ hmem).le
    · exact heq.le
  | ended _ hc' hn =>
    cases hc.symm.trans hc'
    rw [hn] at hback
    rw [ledBack_cons E hc, ← hback]
    exact ledBack_cons E rfl
  | leaps _ hc' hn hd hleaps =>
    cases hc.symm.trans hc'
    have hmem := L.next_mem hsound
    rw [hn] at hback hsound' hmem
    have hs' : List.Forall₂ L.Sound (T :: Ts) (_ :: _) := .cons hsound' hothers
    rw [hleaps.ledBack hs' (L.lt_of_sound hsound _ (hmem.resolve_right hd)).le,
      ledBack_cons E hc, ← hback]
    exact ledBack_cons E rfl

/-! ### The ends of a conjunction -/

theorem AtOver.cons (h : AtOver L Ss it) : ∃ front others T Ts, it.children = front :: others ∧
    Ss = T :: Ts ∧ L.At T front ∧ docId front = it.current := by
  obtain ⟨front, others, T, Ts, hc, rfl, -⟩ := h.sound.cons
  have hplace := h.2
  rw [hc] at hplace
  obtain ⟨⟨hat, hdoc⟩, -⟩ := List.forall₂_cons.1 hplace
  exact ⟨front, others, T, Ts, hc, rfl, hat, hdoc⟩

theorem AtOver.spent_next (h : AtOver L Ss it) (hback : ¬LedBack E it)
    (hend : it.next.1 = kNoMoreDocs) : SpentOver E it.next.2 := by
  obtain ⟨front, others, T, Ts, hc, rfl, hat, hdoc⟩ := h.cons
  rw [ledBack_cons E hc] at hback
  have hseek := h.next.1
  have hnexts := nexts_next h.sound
  have hres := hnexts.sound h.sound
  have hfs := L.sound_of_at hat
  have hback' := E.back_next hfs
  obtain ⟨hfs', hdoc'⟩ := L.sound_next hfs
  have hspent := E.next_spent hat hback
  obtain ⟨hfront, hfrontAt⟩ := L.next_of_at hat
  generalize it.next = res at hseek hnexts hres hend ⊢
  rw [hend] at hseek
  have hnone := (Seek.top_iff h.sound.lt).1 hseek
  cases hnexts with
  | first hcur => exact absurd hcur h.lt.ne
  | ended _ hc' hn =>
    cases hc.symm.trans hc'
    rw [hn] at hspent hback'
    have hleft : FrontLeft E (it.current + 1) T
        ({ it with children := _ :: others } : ConjunctionIterator σ).exhausted :=
      ⟨_, _, rfl, hback'.not.2 hback, Or.inl (hspent rfl)⟩
    exact hleft.spentOver hres hend hnone
  | leaps _ hc' hn hd hleaps =>
    cases hc.symm.trans hc'
    rw [hn] at hback' hfs' hdoc' hfront hfrontAt
    have hle := hfront.le (L.docId_lt_of_at hat)
    rw [hdoc] at hle
    have hs := h.sound.children
    rw [hc] at hs
    have hs' : List.Forall₂ L.Sound (T :: Ts) (_ :: others) :=
      .cons hfs' (List.forall₂_cons.1 hs).2
    refine ((hleaps.frontLeft hs' (fun c hmem ↦ ?_) hend).mono hle).spentOver hres hend hnone
    cases hmem
    exact ⟨hfrontAt hd, hdoc', hback'.not.2 hback⟩

/-- An `Advance` that found nothing, with the first child in place. -/
theorem Seeks.spentOver {T : Set ℕ} {Ts : List (Set ℕ)} {res : ℕ × ConjunctionIterator σ}
    (h : Seeks it t res) (hs : SoundOver L (T :: Ts) it) (hback : ¬LedBack E it)
    (ht : t ≤ kNoMoreDocs) (hat : ∀ c ∈ it.children.head?, L.At T c) (hend : res.1 = kNoMoreDocs)
    (hseek : Seek kNoMoreDocs (interOf (T :: Ts)) t res.1) : SpentOver E res.2 := by
  have hfront : ∀ c ∈ it.children.head?, ¬E.Back c ∧
      (E.Spent c ∨ (L.At T c ∧ t ≤ max (docId c) t)) := fun c hc ↦
    ⟨fun hc' ↦ hback ⟨c, hc, hc'⟩, Or.inr ⟨hat c hc, le_max_right _ _⟩⟩
  rw [hend] at hseek
  exact (h.frontLeft hs.children ht hfront hend).spentOver (h.sound hs.children ht) hend
    ((Seek.top_iff hs.lt).1 hseek)

theorem AtOver.spent_advance (h : AtOver L Ss it) (hback : ¬LedBack E it) (ht : t ≤ kNoMoreDocs)
    (hend : (it.advance t).1 = kNoMoreDocs) : SpentOver E (it.advance t).2 := by
  have hseek := (h.advance ht).1
  obtain ⟨front, others, T, Ts, hc, rfl, hat, -⟩ := h.cons
  by_cases hgo : it.current < t
  · rw [max_eq_right hgo.le] at hseek
    refine (seeks_advance h.sound ht (Or.inl hgo)).spentOver h.sound hback ht (fun c hmem ↦ ?_)
      hend hseek
    rw [hc] at hmem
    cases hmem
    exact hat
  · rw [advance_still (not_or.2 ⟨hgo, h.lt.ne⟩)] at hend
    exact absurd hend h.lt.ne

/-- A conjunction that is led back and sent past its end comes back. -/
theorem AtOver.return_of_back (h : AtOver L Ss it) (hback : LedBack E it) :
    ((it.advance kNoMoreDocs).2.advance 0).1 ≤ it.current ∧
      AtOver L Ss ((it.advance kNoMoreDocs).2.advance 0).2 := by
  have hsound := h.sound.advance le_rfl
  have hmem : it.current ∈ interOf Ss := h.sound.current.resolve_right h.lt.ne
  have hlt := h.lt
  obtain ⟨front, others, T, Ts, hc, rfl, hat, hdoc⟩ := h.cons
  have hothers := h.2
  rw [hc] at hothers
  obtain ⟨-, hothers⟩ := List.forall₂_cons.1 hothers
  rw [ledBack_cons E hc] at hback
  obtain ⟨hle, hat'⟩ := E.return_of_back hat hback
  have hfs := (L.sound_advance (L.sound_of_at hat) le_rfl).1
  -- Past the end only the first child has moved.
  obtain ⟨hchildren, hcur⟩ : (it.advance kNoMoreDocs).2.children =
      (DocIdSetIterator.advance front kNoMoreDocs).2 :: others ∧
        (it.advance kNoMoreDocs).2.current = kNoMoreDocs := by
    have hseeks := seeks_advance h.sound le_rfl (Or.inl hlt)
    generalize it.advance kNoMoreDocs = res at hseeks ⊢
    cases hseeks with
    | stuck hc' ha =>
      cases hc.symm.trans hc'
      rw [ha]
      exact ⟨rfl, rfl⟩
    | leaps hc' ha hd =>
      cases hc.symm.trans hc'
      have hge := (L.sound_advance (L.sound_of_at hat) le_rfl).2.2
      have hmax := L.advance_le (L.sound_of_at hat) le_rfl
      rw [ha] at hge hmax
      exact absurd (le_antisymm hmax hge) hd
  have hseeks := seeks_advance hsound.1 (Nat.zero_le _) (Or.inr hcur)
  generalize (it.advance kNoMoreDocs).2.advance 0 = res at hseeks ⊢
  have hdoc' := (L.sound_advance hfs (Nat.zero_le _)).2.1
  cases hseeks with
  | stuck hc' ha =>
    cases hchildren.symm.trans hc'
    rw [ha] at hle
    exact absurd (hle.trans hdoc.le) (not_le.2 hlt)
  | leaps hc' ha hd hleaps =>
    cases hchildren.symm.trans hc'
    rw [ha] at hle hat' hdoc'
    have hup : List.Forall₂ (UpTo L it.current) (T :: Ts) (_ :: others) :=
      .cons ⟨hat', hdoc'.trans_le (hle.trans hdoc.le)⟩ (hothers.imp fun _ _ hc ↦ ⟨hc.1, hc.2.le⟩)
    obtain ⟨hres, hall⟩ := hleaps.upTo hup hmem hlt (fun c hmem ↦ by
      cases hmem
      exact hdoc') E
    exact ⟨hres, List.cons_ne_nil _ _, hall⟩

variable (E)

/-- **Conjunctions** stay at their end unless they are led back. -/
def endLaw : EndLaw (law L) where
  Back := LedBack E
  Spent := SpentOver E
  back_next := fun ⟨_, _, h⟩ ↦ h.ledBack_next
  back_advance := fun ⟨_, _, h⟩ ht ↦ h.ledBack_advance ht
  docId_of_spent h := h.1
  spent_advance := SpentOver.advance
  next_spent := fun ⟨_, _, h⟩ ↦ h.spent_next
  advance_fwd := fun ⟨Ss, hS, h⟩ hback ht ↦ by
    obtain ⟨hseek, hat⟩ := h.advance ht
    exact ⟨(le_max_left _ _).trans (hseek.le (max_le h.lt.le ht)), fun hne ↦ ⟨Ss, hS, hat hne⟩,
      h.spent_advance hback ht⟩
  advance_le := fun ⟨Ss, hS, h⟩ hd hdoc ht ↦ by
    subst hS
    have htop := h.sound.lt _ hd
    obtain ⟨hseek, hat⟩ := h.advance (ht.trans htop.le)
    have hle := hseek.le_of_mem hd (max_le hdoc ht)
    exact ⟨hle, Ss, rfl, hat (hle.trans_lt htop).ne⟩
  return_of_back := fun ⟨Ss, hS, h⟩ hback ↦
    have hres := h.return_of_back hback
    ⟨hres.1, Ss, hS, hres.2⟩

end ConjunctionIterator

end Spp.Query
