import SearchPlusPlus.Lib.Seek
import SearchPlusPlus.Query.TermCursor

/-!
# The seek law

What an iterator over a set of documents does when it is used as the operators use each other
(`SeekLaw`): it is started by `Next`, and `Advance` is never called with a target below the
current document, unless that is the least one. The four operators have the law when their
children do.

`Sound` is the part that holds in every state, whatever was called before: a returned document is
in the set and not below the target. An operator over an empty set therefore stays empty, which
is what a conjunction with an empty child rests on, whose other children may not be started.
-/

namespace Spp.Query

open Index Store DocIdSetIterator

/-- An iterator type with its states over a set of documents. -/
structure SeekLaw (σ : Type) [DocIdSetIterator σ] where
  /-- Any state. -/
  Sound : Set ℕ → σ → Prop
  /-- Nothing was called yet. -/
  Fresh : Set ℕ → σ → Prop
  /-- On a document of the set. -/
  At : Set ℕ → σ → Prop
  sound_of_fresh : ∀ {S it}, Fresh S it → Sound S it
  sound_of_at : ∀ {S it}, At S it → Sound S it
  lt_of_sound : ∀ {S it}, Sound S it → ∀ x ∈ S, x < kNoMoreDocs
  docId_of_sound : ∀ {S it}, Sound S it → docId it ∈ S ∨ docId it = kNoMoreDocs
  sound_next : ∀ {S it}, Sound S it → Sound S (next it).2 ∧ docId (next it).2 = (next it).1
  sound_advance : ∀ {S it t}, Sound S it → t ≤ kNoMoreDocs →
    Sound S (advance it t).2 ∧ docId (advance it t).2 = (advance it t).1 ∧ t ≤ (advance it t).1
  docId_of_fresh : ∀ {S it}, Fresh S it → docId it = kNoMoreDocs
  docId_of_at : ∀ {S it}, At S it → docId it ∈ S
  next_of_fresh : ∀ {S it}, Fresh S it → Seek kNoMoreDocs S 0 (next it).1 ∧
    ((next it).1 ≠ kNoMoreDocs → At S (next it).2)
  next_of_at : ∀ {S it}, At S it → Seek kNoMoreDocs S (docId it + 1) (next it).1 ∧
    ((next it).1 ≠ kNoMoreDocs → At S (next it).2)
  advance_of_at : ∀ {S it t}, At S it → t ≤ kNoMoreDocs →
    docId it ≤ t ∨ (∀ x ∈ S, docId it ≤ x) →
    Seek kNoMoreDocs S t (advance it t).1 ∧ ((advance it t).1 ≠ kNoMoreDocs → At S (advance it t).2)

namespace SeekLaw

variable {σ : Type} [DocIdSetIterator σ] (L : SeekLaw σ) {S : Set ℕ} {it : σ} {t : ℕ}

theorem docId_lt_of_at (h : L.At S it) : docId it < kNoMoreDocs :=
  L.lt_of_sound (L.sound_of_at h) _ (L.docId_of_at h)

/-- What a sound call returns. -/
theorem next_mem (h : L.Sound S it) : (next it).1 ∈ S ∨ (next it).1 = kNoMoreDocs := by
  obtain ⟨hsound, hdoc⟩ := L.sound_next h
  exact hdoc ▸ L.docId_of_sound hsound

theorem advance_mem (h : L.Sound S it) (ht : t ≤ kNoMoreDocs) :
    (advance it t).1 ∈ S ∨ (advance it t).1 = kNoMoreDocs := by
  obtain ⟨hsound, hdoc, -⟩ := L.sound_advance h ht
  exact hdoc ▸ L.docId_of_sound hsound

theorem advance_le (h : L.Sound S it) (ht : t ≤ kNoMoreDocs) : (advance it t).1 ≤ kNoMoreDocs := by
  rcases L.advance_mem h ht with hmem | heq
  · exact (L.lt_of_sound (L.sound_advance h ht).1 _ hmem).le
  · exact heq.le

end SeekLaw

/-! ### Terms -/

/-- The documents of a posting list. -/
def docsOf (pl : PostingList) : Set ℕ := {d | ∃ p ∈ pl, p.docId = d}

namespace TermIterator

/-- Any state over some documents: what is left are some of them. -/
def Sound (S : Set ℕ) (it : TermIterator) : Prop :=
  (∃ pl, it.Over pl ∧ docsOf pl ⊆ S) ∧ (∀ x ∈ S, x < kNoMoreDocs) ∧
    (it.current ∈ S ∨ it.current = kNoMoreDocs)

/-- All documents are left. -/
def Fresh (S : Set ℕ) (it : TermIterator) : Prop :=
  it.started = false ∧ it.current = kNoMoreDocs ∧ ∃ pl, it.Over pl ∧ docsOf pl = S

/-- On a posting, with the documents behind it left. -/
def At (S : Set ℕ) (it : TermIterator) : Prop :=
  ∃ p pl, it.AtPosting p pl ∧ p.docId ∈ S ∧ (∀ x ∈ S, x < kNoMoreDocs) ∧
    ∀ x, x ∈ docsOf pl ↔ x ∈ S ∧ p.docId < x

variable {S : Set ℕ} {it it' : TermIterator} {p : Posting} {pl rest : PostingList} {b t : ℕ}

theorem docsOf_cons_subset (h : docsOf (p :: pl) ⊆ S) : p.docId ∈ S ∧ docsOf pl ⊆ S :=
  ⟨h ⟨p, List.mem_cons_self, rfl⟩, fun _ ⟨q, hq, hd⟩ ↦ h ⟨q, List.mem_cons_of_mem _ hq, hd⟩⟩

theorem AtPosting.sound (h : it.AtPosting p pl) (hp : p.docId ∈ S) (hpl : docsOf pl ⊆ S)
    (hlt : ∀ x ∈ S, x < kNoMoreDocs) : Sound S it :=
  ⟨⟨pl, h.isOver, hpl⟩, hlt, Or.inl (h.current ▸ hp)⟩

theorem Done.sound (h : it.Done) (hlt : ∀ x ∈ S, x < kNoMoreDocs) : Sound S it :=
  ⟨⟨[], h.isOver, fun _ ⟨_, hq, _⟩ ↦ absurd hq List.not_mem_nil⟩, hlt, Or.inr h.current⟩

/-- A posting that was just read, when what is left are the documents of `S` from `b` on. -/
theorem AtPosting.at (h : it.AtPosting p rest) (hsorted : (p :: rest).Pairwise (·.docId < ·.docId))
    (hlt : ∀ x ∈ S, x < kNoMoreDocs) (hS : ∀ x, x ∈ docsOf (p :: rest) ↔ x ∈ S ∧ b ≤ x) :
    At S it ∧ Seek kNoMoreDocs S b p.docId := by
  obtain ⟨hp, -⟩ := List.pairwise_cons.1 hsorted
  obtain ⟨hpS, hpb⟩ := (hS p.docId).1 ⟨p, List.mem_cons_self, rfl⟩
  have hmin : ∀ x ∈ S, b ≤ x → p.docId ≤ x := by
    intro x hx hxb
    obtain ⟨q, hq, rfl⟩ := (hS x).2 ⟨hx, hxb⟩
    rcases List.mem_cons.1 hq with rfl | hq
    · exact le_rfl
    · exact (hp q hq).le
  refine ⟨⟨p, rest, h, hpS, hlt, fun x ↦ ⟨?_, ?_⟩⟩, .intro hpS hpb (hlt _ hpS).le hmin⟩
  · rintro ⟨q, hq, rfl⟩
    exact ⟨((hS _).1 ⟨q, List.mem_cons_of_mem _ hq, rfl⟩).1, hp q hq⟩
  · rintro ⟨hx, hlt'⟩
    obtain ⟨q, hq, rfl⟩ := (hS x).2 ⟨hx, hpb.trans hlt'.le⟩
    rcases List.mem_cons.1 hq with rfl | hq
    · exact absurd hlt' (lt_irrefl _)
    · exact ⟨q, hq, rfl⟩

/-- `Next` when what is left are the documents from `b` on. -/
theorem next_from (h : it.Over pl) (hlt : ∀ x ∈ S, x < kNoMoreDocs)
    (hS : ∀ x, x ∈ docsOf pl ↔ x ∈ S ∧ b ≤ x) :
    Seek kNoMoreDocs S b it.next.1 ∧ (it.next.1 ≠ kNoMoreDocs → At S it.next.2) := by
  cases pl with
  | nil =>
    rw [next_nil h]
    refine ⟨(Seek.top_iff hlt).2 fun x hx ↦ lt_of_not_ge fun hb ↦ ?_, fun hne ↦ absurd rfl hne⟩
    obtain ⟨_, hq, -⟩ := (hS x).2 ⟨hx, hb⟩
    cases hq
  | cons p pl =>
    obtain ⟨it', hnext, hat⟩ := next_cons h
    obtain ⟨hat', hseek⟩ := hat.at h.sorted hlt hS
    rw [hnext]
    exact ⟨hseek, fun _ ↦ hat'⟩

/-- The postings from a target on. -/
theorem mem_docsOf_dropWhile (hsorted : pl.Pairwise (·.docId < ·.docId)) {x : ℕ} :
    x ∈ docsOf (pl.dropWhile (·.docId < t)) ↔ x ∈ docsOf pl ∧ t ≤ x := by
  induction pl with
  | nil => exact ⟨fun ⟨_, h, _⟩ ↦ absurd h List.not_mem_nil, fun h ↦ h.1⟩
  | cons p pl ih =>
    obtain ⟨hp, hpl⟩ := List.pairwise_cons.1 hsorted
    by_cases hlt : p.docId < t
    · rw [List.dropWhile_cons_of_pos (by simpa using hlt), ih hpl]
      constructor
      · rintro ⟨⟨q, hq, rfl⟩, ht⟩
        exact ⟨⟨q, List.mem_cons_of_mem _ hq, rfl⟩, ht⟩
      · rintro ⟨⟨q, hq, rfl⟩, ht⟩
        rcases List.mem_cons.1 hq with rfl | hq
        · exact absurd ht (not_le.2 hlt)
        · exact ⟨⟨q, hq, rfl⟩, ht⟩
    · rw [List.dropWhile_cons_of_neg (by simpa using hlt)]
      refine ⟨fun hx ↦ ⟨hx, ?_⟩, fun h ↦ h.1⟩
      obtain ⟨q, hq, rfl⟩ := hx
      rcases List.mem_cons.1 hq with rfl | hq
      · exact not_lt.1 hlt
      · exact (not_lt.1 hlt).trans (hp q hq).le

/-- `Advance` when it moves, and what is left are the documents from `b` on. -/
theorem advance_from (h : it.Over pl) (hlt : ∀ x ∈ S, x < kNoMoreDocs)
    (hS : ∀ x, x ∈ docsOf pl ↔ x ∈ S ∧ b ≤ x) (hgo : it.current < t ∨ it.started = false) :
    Seek kNoMoreDocs S (max b t) (it.advance t).1 ∧
      ((it.advance t).1 ≠ kNoMoreDocs → At S (it.advance t).2) := by
  have hS' : ∀ x, x ∈ docsOf (pl.dropWhile (·.docId < t)) ↔ x ∈ S ∧ max b t ≤ x := by
    intro x
    rw [mem_docsOf_dropWhile h.sorted, hS, max_le_iff, and_assoc]
  obtain ⟨it', ⟨hnil, hrun, -⟩ | ⟨p, rest, hcons, hrun, hat⟩⟩ := advance_over h hgo
  · rw [hrun]
    refine ⟨(Seek.top_iff hlt).2 fun x hx ↦ lt_of_not_ge fun hb ↦ ?_, fun hne ↦ absurd rfl hne⟩
    obtain ⟨_, hq, -⟩ := hnil ▸ (hS' x).2 ⟨hx, hb⟩
    cases hq
  · have hsorted : (p :: rest).Pairwise (·.docId < ·.docId) :=
      hcons ▸ h.sorted.sublist (List.dropWhile_sublist _)
    obtain ⟨hat', hseek⟩ := hat.at hsorted hlt fun x ↦ hcons ▸ hS' x
    rw [hrun]
    exact ⟨hseek, fun _ ↦ hat'⟩

theorem sound_next (h : Sound S it) : Sound S it.next.2 ∧ it.next.2.current = it.next.1 := by
  obtain ⟨⟨pl, hover, hsub⟩, hlt, -⟩ := h
  cases pl with
  | nil =>
    rw [next_nil hover]
    have hdone : ({ it with current := kNoMoreDocs } : TermIterator).Done :=
      ⟨⟨hover.rest, hover.remaining, hover.sorted, hover.lt, hover.after, hover.fresh⟩, rfl⟩
    exact ⟨hdone.sound hlt, rfl⟩
  | cons p pl =>
    obtain ⟨it', hnext, hat⟩ := next_cons hover
    obtain ⟨hp, hpl⟩ := docsOf_cons_subset hsub
    rw [hnext]
    exact ⟨hat.sound hp hpl hlt, hat.current⟩

theorem sound_advance (h : Sound S it) (ht : t ≤ kNoMoreDocs) :
    Sound S (it.advance t).2 ∧ (it.advance t).2.current = (it.advance t).1 ∧
      t ≤ (it.advance t).1 := by
  by_cases hgo : it.current < t ∨ it.started = false
  · obtain ⟨⟨pl, hover, hsub⟩, hlt, -⟩ := h
    obtain ⟨it', ⟨-, hrun, hdone⟩ | ⟨p, rest, hcons, hrun, hat⟩⟩ := advance_over hover hgo
    · rw [hrun]
      exact ⟨hdone.sound hlt, hdone.current, ht⟩
    · have hdocs : ∀ x ∈ docsOf (p :: rest), x ∈ S ∧ t ≤ x := fun x hx ↦ by
        rw [← hcons, mem_docsOf_dropWhile hover.sorted] at hx
        exact ⟨hsub hx.1, hx.2⟩
      obtain ⟨hp, hpl⟩ := docsOf_cons_subset fun x hx ↦ (hdocs x hx).1
      rw [hrun]
      exact ⟨hat.sound hp hpl hlt, hat.current, (hdocs _ ⟨p, List.mem_cons_self, rfl⟩).2⟩
  · rw [not_or, not_lt, Bool.not_eq_false] at hgo
    rw [advance_still hgo.1 hgo.2]
    exact ⟨h, rfl, hgo.1⟩

/-- `Advance` never goes back. -/
theorem advance_of_at (h : At S it) : Seek kNoMoreDocs S (max it.current t) (it.advance t).1 ∧
    ((it.advance t).1 ≠ kNoMoreDocs → At S (it.advance t).2) := by
  have hat := h
  obtain ⟨p, pl, hposting, hp, hlt, hpl⟩ := h
  by_cases hgo : it.current < t
  · have hfrom := advance_from (b := p.docId + 1) hposting.isOver hlt
      (fun x ↦ by rw [hpl, Nat.succ_le_iff]) (Or.inl hgo)
    rw [hposting.current] at hgo ⊢
    rw [max_eq_right (Nat.succ_le_of_lt hgo)] at hfrom
    rwa [max_eq_right hgo.le]
  · rw [advance_still (not_lt.1 hgo) hposting.started, max_eq_left (not_lt.1 hgo)]
    refine ⟨?_, fun _ ↦ hat⟩
    rw [hposting.current]
    exact .intro hp le_rfl (hlt _ hp).le fun _ _ ↦ id

/-- **Terms** have the law. -/
def law : SeekLaw TermIterator where
  Sound := Sound
  Fresh := Fresh
  At := At
  sound_of_fresh := fun ⟨_, hcur, pl, hover, hS⟩ ↦
    ⟨⟨pl, hover, hS.le⟩, fun x hx ↦ by
      obtain ⟨p, hp, rfl⟩ := hS.symm ▸ hx
      exact hover.lt p hp, Or.inr hcur⟩
  sound_of_at := fun ⟨_, _, hat, hp, hlt, hpl⟩ ↦ hat.sound hp (fun x hx ↦ ((hpl x).1 hx).1) hlt
  lt_of_sound h := h.2.1
  docId_of_sound h := h.2.2
  sound_next := sound_next
  sound_advance := sound_advance
  docId_of_fresh h := h.2.1
  docId_of_at := fun ⟨_, _, hat, hp, _⟩ ↦ by rwa [← hat.current] at hp
  next_of_fresh := fun ⟨_, _, pl, hover, hS⟩ ↦
    next_from hover (fun x hx ↦ by
      obtain ⟨p, hp, rfl⟩ := hS.symm ▸ hx
      exact hover.lt p hp) fun x ↦ by simp [hS]
  next_of_at := fun ⟨p, pl, hat, _, hlt, hpl⟩ ↦
    next_from hat.isOver hlt fun x ↦ by
      rw [hpl, show docId _ = p.docId from hat.current, Nat.succ_le_iff]
  advance_of_at h _ hc := ⟨(advance_of_at h).1.of_max hc, (advance_of_at h).2⟩

end TermIterator

/-! ### All documents -/

namespace MatchAllIterator

/-- Any state over the documents below `docCount`. -/
def Sound (S : Set ℕ) (it : MatchAllIterator) : Prop :=
  S = {d | d < it.docCount} ∧ it.docCount ≤ kNoMoreDocs ∧
    (it.current < it.docCount ∨ it.current = kNoMoreDocs)

variable {S : Set ℕ} {it : MatchAllIterator} {t : ℕ}

theorem sound_exhausted (h : Sound S it) : Sound S it.exhausted.2 :=
  ⟨h.1, h.2.1, Or.inr rfl⟩

theorem sound_move (h : Sound S it) {d : ℕ} (hd : d < it.docCount) (started : Bool) :
    Sound S { it with current := d, started } := ⟨h.1, h.2.1, Or.inl hd⟩

theorem sound_next (h : Sound S it) : Sound S it.next.2 ∧ it.next.2.current = it.next.1 := by
  unfold next
  dsimp only
  split_ifs with h₁ h₂ h₃
  · exact ⟨sound_exhausted h, rfl⟩
  · exact ⟨sound_move h (Nat.pos_of_ne_zero h₂) _, rfl⟩
  · exact ⟨sound_exhausted h, rfl⟩
  · exact ⟨sound_move h (not_le.1 h₃) _, rfl⟩

theorem sound_advance (h : Sound S it) (ht : t ≤ kNoMoreDocs) :
    Sound S (it.advance t).2 ∧ (it.advance t).2.current = (it.advance t).1 ∧
      t ≤ (it.advance t).1 := by
  unfold advance
  split_ifs with h₁
  · exact ⟨sound_exhausted h, rfl, ht⟩
  · exact ⟨sound_move h (not_le.1 h₁) _, rfl, le_rfl⟩

/-- Going to the document `d`, if there is one. -/
theorem seek_self (h : Sound S it) {d : ℕ} (hd : d < it.docCount) : Seek kNoMoreDocs S d d := by
  obtain ⟨rfl, hle, -⟩ := h
  exact .intro hd le_rfl (hd.le.trans hle) fun _ _ ↦ id

theorem seek_top (h : Sound S it) {b : ℕ} (hb : it.docCount ≤ b) :
    Seek kNoMoreDocs S b kNoMoreDocs := by
  obtain ⟨rfl, hle, -⟩ := h
  exact .none fun x hx hbx ↦ absurd (hb.trans hbx) (not_le.2 hx)

/-- On a document. -/
def At (S : Set ℕ) (it : MatchAllIterator) : Prop :=
  Sound S it ∧ it.started = true ∧ it.current < it.docCount

theorem at_move (h : Sound S it) {d : ℕ} (hd : d < it.docCount) :
    At S { it with current := d, started := true } := ⟨sound_move h hd _, rfl, hd⟩

/-- `Advance` is right in every state. -/
theorem seek_advance (h : Sound S it) : Seek kNoMoreDocs S t (it.advance t).1 ∧
    ((it.advance t).1 ≠ kNoMoreDocs → At S (it.advance t).2) := by
  unfold advance
  split_ifs with hend
  · exact ⟨seek_top h hend, fun hne ↦ absurd rfl hne⟩
  · exact ⟨seek_self h (not_le.1 hend), fun _ ↦ at_move h (not_le.1 hend)⟩

theorem seek_first (h : Sound S it) (hstart : it.started = false) :
    Seek kNoMoreDocs S 0 it.next.1 ∧ (it.next.1 ≠ kNoMoreDocs → At S it.next.2) := by
  unfold next
  rw [if_pos hstart]
  dsimp only
  split_ifs with hzero
  · exact ⟨seek_top h hzero.le, fun hne ↦ absurd rfl hne⟩
  · have hpos := Nat.pos_of_ne_zero hzero
    exact ⟨seek_self h hpos, fun _ ↦ at_move h hpos⟩

theorem seek_next (h : At S it) : Seek kNoMoreDocs S (it.current + 1) it.next.1 ∧
    (it.next.1 ≠ kNoMoreDocs → At S it.next.2) := by
  obtain ⟨hsound, hstart, hcur⟩ := h
  -- On a document the sum does not wrap around.
  have hsum : (it.current + 1) % 4294967296 = it.current + 1 := by
    have hle := hsound.2.1
    rw [kNoMoreDocs] at hle
    omega
  unfold next
  rw [if_neg (by simp [hstart]), hsum]
  dsimp only
  split_ifs with hend
  · exact ⟨seek_top hsound hend, fun hne ↦ absurd rfl hne⟩
  · refine ⟨seek_self hsound (not_le.1 hend), fun _ ↦ ?_⟩
    have hat := at_move hsound (not_le.1 hend)
    rwa [← hstart] at hat

/-- `MatchAllIterator` has the law. -/
def law : SeekLaw MatchAllIterator where
  Sound := Sound
  Fresh S it := Sound S it ∧ it.started = false ∧ it.current = kNoMoreDocs
  At := At
  sound_of_fresh h := h.1
  sound_of_at h := h.1
  lt_of_sound := fun ⟨hS, hle, _⟩ x hx ↦ lt_of_lt_of_le (by rwa [hS] at hx) hle
  docId_of_sound := fun ⟨hS, _, hcur⟩ ↦ hcur.imp (fun h ↦ by rwa [hS]) id
  sound_next := sound_next
  sound_advance := sound_advance
  docId_of_fresh h := h.2.2
  docId_of_at h := by
    rw [h.1.1]
    exact h.2.2
  next_of_fresh h := seek_first h.1 h.2.1
  next_of_at := seek_next
  advance_of_at h _ _ := seek_advance h.1

end MatchAllIterator

end Spp.Query
