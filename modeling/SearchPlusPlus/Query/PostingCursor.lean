import SearchPlusPlus.Query.EndLaw
import SearchPlusPlus.Query.SeekRuns

/-!
# Posting lists as cursors

What a `TermIterator` is for: a cursor over a posting list. `PostingCursor` has no bytes in it,
and a `TermIterator` over the bytes of `WritePostings` follows it under any calls
(`follows_new`).
-/

namespace Spp.Query

open Index

/-- A cursor over a posting list. -/
inductive PostingCursor where
  | start (postings : PostingList)
  | here (p : Posting) (rest : PostingList)
  | done

namespace PostingCursor

/-- At the first of some postings. -/
def first : PostingList → PostingCursor
  | [] => done
  | p :: rest => here p rest

/-- To the next posting. -/
def next : PostingCursor → PostingCursor
  | start postings => first postings
  | here _ rest => first rest
  | done => done

/-- To the first posting from a target on that is not before the current one. -/
def advance (target : ℕ) : PostingCursor → PostingCursor
  | start postings => first (postings.dropWhile (·.docId < target))
  | here p rest =>
    if target ≤ p.docId then here p rest else first (rest.dropWhile (·.docId < target))
  | done => done

/-- A call. -/
def call (k : PostingCursor) : Call → PostingCursor
  | .next => k.next
  | .advance target => k.advance target.toNat

end PostingCursor

namespace TermIterator

variable {it : TermIterator} {p : Posting} {pl rest : PostingList} {k : PostingCursor}

/-- A call. -/
def call (it : TermIterator) : Call → ℕ × TermIterator
  | .next => it.next
  | .advance target => it.advance target.toNat

/-- `DocId_`, `Freq`, `Position` and `TokenWeight` are those of a posting. -/
structure Shows (it : TermIterator) (hasPositions hasTokenWeights : Bool) (p : Posting) : Prop where
  docId : it.current = p.docId
  freq : it.currentFreq = p.tf
  position : it.currentPos = if hasPositions then p.firstPos else kNoPosition
  tokenWeight : it.currentWeight =
    if hasTokenWeights then dequantizeTokenWeight (quantizeTokenWeight p.maxTokenWeight)
    else F32.one

/-- What a call returned, and the iterator after it, are those of a cursor. -/
def Agrees (res : ℕ × TermIterator) (hasPositions hasTokenWeights : Bool) : PostingCursor → Prop
  | .start _ => False
  | .here p _ => res.1 = p.docId ∧ res.2.Shows hasPositions hasTokenWeights p
  | .done => res.1 = kNoMoreDocs ∧ res.2.current = kNoMoreDocs

/-- An iterator follows a cursor through some calls. -/
def Follows (hasPositions hasTokenWeights : Bool) : PostingCursor → TermIterator → List Call → Prop
  | _, _, [] => True
  | k, it, c :: calls => Agrees (it.call c) hasPositions hasTokenWeights (k.call c) ∧
      Follows hasPositions hasTokenWeights (k.call c) (it.call c).2 calls

/-! ### The flags stay -/

/-- An iterator that reads the same layout. -/
def SameFlags (it it' : TermIterator) : Prop :=
  it'.hasPositions = it.hasPositions ∧ it'.hasTokenWeights = it.hasTokenWeights

theorem sameFlags_readPosition {it' : TermIterator} (h : it.readPosition = some it') :
    SameFlags it it' := by
  rw [readPosition] at h
  split at h
  · split at h
    · cases h
      exact ⟨rfl, rfl⟩
    · cases h
  · cases h
    exact ⟨rfl, rfl⟩

theorem sameFlags_readWeight {it' : TermIterator} (h : it.readWeight = some it') :
    SameFlags it it' := by
  rw [readWeight] at h
  split at h
  · split at h
    · cases h
      exact ⟨rfl, rfl⟩
    · cases h
  · cases h
    exact ⟨rfl, rfl⟩

theorem sameFlags_next (it : TermIterator) : SameFlags it it.next.2 := by
  rw [next]
  split_ifs
  · exact ⟨rfl, rfl⟩
  · exact ⟨rfl, rfl⟩
  split
  · exact ⟨rfl, rfl⟩
  split
  · exact ⟨rfl, rfl⟩
  dsimp only
  split
  · exact ⟨rfl, rfl⟩
  next it₁ h₁ =>
    have hpos := sameFlags_readPosition h₁
    split
    · exact hpos
    next it₂ h₂ =>
      have hweight := sameFlags_readWeight h₂
      exact ⟨hweight.1.trans hpos.1, hweight.2.trans hpos.2⟩

theorem sameFlags_advanceLoop (fuel : ℕ) : ∀ (it : TermIterator) (target : ℕ),
    SameFlags it (it.advanceLoop fuel target).2 := by
  induction fuel with
  | zero => exact fun _ _ ↦ ⟨rfl, rfl⟩
  | succ fuel ih =>
    intro it target
    rw [advanceLoop]
    split_ifs with hgo
    · dsimp only
      have hnext := sameFlags_next it
      split_ifs
      · exact hnext
      · exact hnext
      · have hrest := ih it.next.2 target
        exact ⟨hrest.1.trans hnext.1, hrest.2.trans hnext.2⟩
    · exact ⟨rfl, rfl⟩

theorem sameFlags_advance (it : TermIterator) (target : ℕ) : SameFlags it (it.advance target).2 :=
  sameFlags_advanceLoop _ it target

theorem sameFlags_call (it : TermIterator) (c : Call) : SameFlags it (it.call c).2 := by
  cases c with
  | next => exact sameFlags_next it
  | advance target => exact sameFlags_advance it _

/-! ### One call -/

/-- An iterator in the state of a cursor. -/
def Tracks (it : TermIterator) : PostingCursor → Prop
  | .start pl => it.Over pl ∧ it.started = false
  | .here p rest => it.AtPosting p rest
  | .done => it.Done

theorem AtPosting.shows (h : it.AtPosting p rest) :
    it.Shows it.hasPositions it.hasTokenWeights p := ⟨h.current, h.freq, h.pos, h.weight⟩

/-- A posting that was read, or the end. -/
theorem agrees_of_tracks {res : ℕ × TermIterator} (hk : ∀ pl, k ≠ .start pl)
    (h : res.2.Tracks k) (hdoc : res.1 = res.2.current) :
    Agrees res res.2.hasPositions res.2.hasTokenWeights k := by
  cases k with
  | start pl => exact absurd rfl (hk pl)
  | here p rest => exact ⟨hdoc.trans h.current, h.shows⟩
  | done => exact ⟨hdoc.trans h.current, h.current⟩

theorem tracks_first_next (h : it.Over pl) :
    it.next.2.Tracks (.first pl) ∧ it.next.1 = it.next.2.current := by
  cases pl with
  | nil =>
    rw [next_nil h]
    exact ⟨⟨⟨h.rest, h.remaining, h.sorted, h.lt, h.after, h.fresh⟩, rfl⟩, rfl⟩
  | cons p pl =>
    obtain ⟨it', hnext, hat⟩ := next_cons h
    rw [hnext]
    exact ⟨hat, hat.current.symm⟩

theorem tracks_first_advance {t : ℕ} (h : it.Over pl)
    (hgo : it.current < t ∨ it.started = false) :
    (it.advance t).2.Tracks (.first (pl.dropWhile (·.docId < t))) ∧
      (it.advance t).1 = (it.advance t).2.current := by
  obtain ⟨it', ⟨hnil, hrun, hdone⟩ | ⟨p, rest, hcons, hrun, hat⟩⟩ := advance_over h hgo
  · rw [hnil, hrun]
    exact ⟨hdone, hdone.current.symm⟩
  · rw [hcons, hrun]
    exact ⟨hat, hat.current.symm⟩

theorem first_ne_start (pl pl' : PostingList) : PostingCursor.first pl ≠ .start pl' := by
  cases pl with
  | nil | cons => exact PostingCursor.noConfusion

/-- **One call** moves the iterator as the cursor. -/
theorem Tracks.call (h : it.Tracks k) (c : Call) :
    (it.call c).2.Tracks (k.call c) ∧ (it.call c).1 = (it.call c).2.current ∧
      ∀ pl, k.call c ≠ .start pl := by
  cases k with
  | start pl =>
    obtain ⟨hover, hstart⟩ := h
    cases c with
    | next =>
      obtain ⟨htracks, hdoc⟩ := tracks_first_next hover
      exact ⟨htracks, hdoc, first_ne_start pl⟩
    | advance t =>
      obtain ⟨htracks, hdoc⟩ := tracks_first_advance hover (Or.inr hstart)
      exact ⟨htracks, hdoc, first_ne_start _⟩
  | here p rest =>
    have hat : it.AtPosting p rest := h
    cases c with
    | next =>
      obtain ⟨htracks, hdoc⟩ := tracks_first_next hat.isOver
      exact ⟨htracks, hdoc, first_ne_start rest⟩
    | advance t =>
      rw [PostingCursor.call, PostingCursor.advance, TermIterator.call]
      split_ifs with hle
      · rw [advance_still (hle.trans hat.current.ge) hat.started]
        exact ⟨hat, rfl, fun pl ↦ PostingCursor.noConfusion⟩
      · have hgo : it.current < t.toNat := hat.current ▸ not_le.1 hle
        obtain ⟨htracks, hdoc⟩ := tracks_first_advance hat.isOver (Or.inl hgo)
        exact ⟨htracks, hdoc, first_ne_start _⟩
  | done =>
    have hdone : it.Done := h
    cases c with
    | next =>
      obtain ⟨htracks, hdoc⟩ := tracks_first_next hdone.isOver
      exact ⟨htracks, hdoc, fun pl ↦ PostingCursor.noConfusion⟩
    | advance t =>
      obtain ⟨hend, hdone'⟩ := hdone.advance (Call.target_le t)
      exact ⟨hdone', hend.trans hdone'.current.symm, fun pl ↦ PostingCursor.noConfusion⟩

/-! ### Runs -/

theorem Tracks.follows (calls : List Call) : ∀ {it : TermIterator} {k : PostingCursor},
    it.Tracks k → Follows it.hasPositions it.hasTokenWeights k it calls := by
  induction calls with
  | nil => exact fun _ ↦ trivial
  | cons c calls ih =>
    intro it k h
    obtain ⟨htracks, hdoc, hk⟩ := h.call c
    have hagrees := agrees_of_tracks hk htracks hdoc
    have hrest := ih htracks
    obtain ⟨hpos, hweight⟩ := sameFlags_call it c
    rw [hpos, hweight] at hagrees hrest
    exact ⟨hagrees, hrest⟩

/-- **The posting codec**: an iterator over the bytes of a posting list follows the cursor over
it, under any calls and in all four layouts. -/
theorem follows_new (pl : PostingList) (hsorted : pl.Pairwise fun a b ↦ a.docId < b.docId)
    (hlt : ∀ p ∈ pl, p.docId < kNoMoreDocs) (hasPositions hasTokenWeights : Bool) (df : UInt32)
    (totalTf : UInt64) (calls : List Call) :
    Follows hasPositions hasTokenWeights (.start pl)
      (new (writePostings pl hasPositions hasTokenWeights) df totalTf hasPositions hasTokenWeights)
      calls := by
  have htracks : (new (writePostings pl hasPositions hasTokenWeights) df totalTf hasPositions
      hasTokenWeights).Tracks (.start pl) := ⟨over_new hsorted hlt, rfl⟩
  exact htracks.follows calls

/-- Two postings in the largest layout, read by each kind of call. -/
theorem follows_new_sample :
    Follows true true (.start [{ docId := 0, tf := 2, firstPos := 7 }, { docId := 5, tf := 1 }])
      (new (writePostings [{ docId := 0, tf := 2, firstPos := 7 }, { docId := 5, tf := 1 }]
        true true) 2 3 true true) [.next, .advance 3, .advance 1, .next, .advance 0] :=
  follows_new _ (by decide) (by decide) true true 2 3 _

end TermIterator

end Spp.Query
