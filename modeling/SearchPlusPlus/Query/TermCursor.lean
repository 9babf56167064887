import SearchPlusPlus.Index.SegmentAgreement
import SearchPlusPlus.Query.Iterators

/-!
# Reading a posting list

A `TermIterator` over the bytes of `WritePostings` goes through the postings in order. `Over`
says which postings are left, `AtPosting` that one was just read with its frequency, position and
weight; `Advance` skips to the first posting from its target on (`advance_over`).
-/

namespace Spp.Query

open Index Store

namespace TermIterator

/-- The postings that are left to read. -/
structure Over (it : TermIterator) (pl : PostingList) : Prop where
  rest : it.rest = encodePostings it.hasPositions it.hasTokenWeights it.prev.toNat pl
  remaining : it.remaining.toNat = pl.length
  sorted : pl.Pairwise fun a b ↦ a.docId < b.docId
  lt : ∀ p ∈ pl, p.docId < kNoMoreDocs
  after : it.started = true → ∀ p ∈ pl, it.prev.toNat < p.docId
  fresh : it.started = false → it.prev = 0

/-- A posting was just read. -/
structure AtPosting (it : TermIterator) (p : Posting) (pl : PostingList) : Prop where
  isOver : it.Over pl
  started : it.started = true
  current : it.current = p.docId
  prev : it.prev.toNat = p.docId
  freq : it.currentFreq = p.tf
  pos : it.currentPos = if it.hasPositions then p.firstPos else kNoPosition
  weight : it.currentWeight =
    if it.hasTokenWeights then dequantizeTokenWeight (quantizeTokenWeight p.maxTokenWeight)
    else F32.one

/-- The postings ran out. -/
structure Done (it : TermIterator) : Prop where
  isOver : it.Over []
  current : it.current = kNoMoreDocs

variable {it : TermIterator} {p : Posting} {pl : PostingList}

theorem readPosition_append {l : Bytes}
    (h : it.rest = (if it.hasPositions then u16LE p.firstPos else []) ++ l) :
    it.readPosition = some { it with
      rest := l
      currentPos := if it.hasPositions then p.firstPos else kNoPosition } := by
  obtain ⟨lo, hi, hbytes, hvalue⟩ := u16LE_eq p.firstPos
  unfold readPosition
  cases hpos : it.hasPositions with
  | false =>
    rw [hpos] at h
    simp only [Bool.false_eq_true, if_false, List.nil_append] at h ⊢
    rw [← h]
  | true =>
    rw [hpos, if_pos rfl, hbytes] at h
    simp only [if_true, h, List.cons_append, List.nil_append, hvalue]

theorem readWeight_append {l : Bytes}
    (h : it.rest =
      (if it.hasTokenWeights then [quantizeTokenWeight p.maxTokenWeight] else []) ++ l) :
    it.readWeight = some { it with
      rest := l
      currentWeight := if it.hasTokenWeights then
        dequantizeTokenWeight (quantizeTokenWeight p.maxTokenWeight) else F32.one } := by
  unfold readWeight
  cases hw : it.hasTokenWeights with
  | false =>
    rw [hw] at h
    simp only [Bool.false_eq_true, if_false, List.nil_append] at h ⊢
    rw [← h]
  | true =>
    rw [hw] at h
    simp only [if_true, h, List.cons_append, List.nil_append]

theorem next_nil (h : it.Over []) : it.next = it.exhausted := by
  have hzero : it.remaining = 0 := UInt32.toNat_inj.1 h.remaining
  rw [next, if_pos hzero]

/-- **`Next`** reads the next posting. -/
theorem next_cons (h : it.Over (p :: pl)) :
    ∃ it', it.next = (p.docId, it') ∧ it'.AtPosting p pl := by
  obtain ⟨hlt, hsorted⟩ := List.pairwise_cons.1 h.sorted
  have hp := h.lt p List.mem_cons_self
  have hid : (UInt32.ofNat p.docId).toNat = p.docId := by
    rw [UInt32.toNat_ofNat']
    exact Nat.mod_eq_of_lt (by rw [kNoMoreDocs] at hp; omega)
  have hcount := h.remaining
  rw [List.length_cons] at hcount
  have hpos : it.remaining ≠ 0 := fun hzero ↦ by rw [hzero] at hcount; cases hcount
  set delta := UInt32.ofNat p.docId - UInt32.ofNat it.prev.toNat with hdelta
  set tail := encodePostings it.hasPositions it.hasTokenWeights p.docId pl with htail
  have hrest : it.rest = encodeVarUint32 delta ++ (encodeVarUint32 p.tf ++
      ((if it.hasPositions then u16LE p.firstPos else []) ++
        ((if it.hasTokenWeights then [quantizeTokenWeight p.maxTokenWeight] else []) ++
          tail))) := by
    rw [h.rest, encodePostings, encodePosting]
    simp only [List.append_assoc]
    rfl
  have hne : it.rest ≠ [] := by
    have hlen := encodeVarUint32_length_pos delta
    rw [hrest]
    exact List.append_ne_nil_of_left_ne_nil (List.ne_nil_of_length_pos hlen) _
  rw [next, if_neg hpos, if_neg hne, hrest]
  simp only [decodeVarUint32_encode]
  rw [readPosition_append rfl]
  dsimp only
  rw [readWeight_append rfl]
  -- The difference to the document before is the whole document at the start.
  have hd : (if it.started then it.prev + delta else delta) = UInt32.ofNat p.docId := by
    rw [hdelta, UInt32.ofNat_toNat]
    split
    · rw [UInt32.add_comm, UInt32.sub_add_cancel]
    · next hstart => rw [h.fresh (by simpa using hstart), UInt32.sub_zero]
  simp only [arrive, hd, hid]
  refine ⟨_, rfl, ?_⟩
  exact
    { isOver :=
        { rest := by rw [hid]
          remaining := by
            rw [UInt32.toNat_sub_of_le _ _ ?_, hcount]
            · rfl
            · rw [UInt32.le_iff_toNat_le, hcount]
              exact Nat.succ_le_succ (Nat.zero_le _)
          sorted := hsorted
          lt := fun q hq ↦ h.lt q (List.mem_cons_of_mem _ hq)
          after := fun _ q hq ↦ by
            rw [hid]
            exact hlt q hq
          fresh := fun hstart ↦ by cases hstart }
      started := rfl
      current := rfl
      prev := hid
      freq := rfl
      pos := rfl
      weight := rfl }

/-- A posting read before the target is skipped, and so is everything before the target. -/
theorem advanceLoop_over (pl : PostingList) :
    ∀ (fuel : ℕ) (it : TermIterator) (target : ℕ), it.Over pl → pl.length < fuel →
      it.current < target ∨ it.started = false →
      ∃ it', (pl.dropWhile (·.docId < target) = [] ∧
          it.advanceLoop fuel target = (kNoMoreDocs, it') ∧ it'.Done) ∨
        ∃ p rest, pl.dropWhile (·.docId < target) = p :: rest ∧
          it.advanceLoop fuel target = (p.docId, it') ∧ it'.AtPosting p rest := by
  induction pl with
  | nil =>
    rintro (- | fuel) it target h hfuel hgo
    · cases hfuel
    · refine ⟨{ it with current := kNoMoreDocs }, Or.inl ⟨rfl, ?_,
        ⟨h.rest, h.remaining, h.sorted, h.lt, h.after, h.fresh⟩, rfl⟩⟩
      rw [advanceLoop, if_pos hgo, next_nil h]
      exact if_pos rfl
  | cons p pl ih =>
    rintro (- | fuel) it target h hfuel hgo
    · cases hfuel
    · obtain ⟨it', hnext, hat⟩ := next_cons h
      have hp := h.lt p List.mem_cons_self
      rw [advanceLoop, if_pos hgo, hnext]
      simp only [if_neg hp.ne]
      by_cases htarget : target ≤ p.docId
      · refine ⟨it', Or.inr ⟨p, pl, ?_, if_pos htarget, hat⟩⟩
        exact List.dropWhile_cons_of_neg (by simpa using htarget)
      · rw [if_neg htarget, List.dropWhile_cons_of_pos (by simpa using htarget)]
        refine ih fuel it' target hat.isOver (Nat.lt_of_succ_lt_succ hfuel) (Or.inl ?_)
        rw [hat.current]
        exact not_le.1 htarget

/-- **`Advance`** reads the first posting from the target on. -/
theorem advance_over {target : ℕ} (h : it.Over pl)
    (hgo : it.current < target ∨ it.started = false) :
    ∃ it', (pl.dropWhile (·.docId < target) = [] ∧
        it.advance target = (kNoMoreDocs, it') ∧ it'.Done) ∨
      ∃ p rest, pl.dropWhile (·.docId < target) = p :: rest ∧
        it.advance target = (p.docId, it') ∧ it'.AtPosting p rest :=
  advanceLoop_over pl _ it target h (by rw [h.remaining]; exact Nat.lt_succ_self _) hgo

/-- It stays where it is otherwise. -/
theorem advance_still {target : ℕ} (hcurrent : target ≤ it.current) (hstart : it.started = true) :
    it.advance target = (it.current, it) := by
  rw [advance, advanceLoop, if_neg (by simp [hcurrent, hstart])]

/-- A new iterator over the bytes of a posting list. -/
theorem over_new {df : UInt32} {totalTf : UInt64} {hasPositions hasTokenWeights : Bool}
    (hsorted : pl.Pairwise fun a b ↦ a.docId < b.docId) (hlt : ∀ p ∈ pl, p.docId < kNoMoreDocs) :
    (new (writePostings pl hasPositions hasTokenWeights) df totalTf hasPositions
      hasTokenWeights).Over pl := by
  have hlen : pl.length < 2 ^ 32 := by
    have := length_le_of_pairwise_docId hsorted hlt
    rw [kNoMoreDocs] at this
    omega
  unfold new writePostings
  rw [decodeVarUint32_encode]
  exact
    { rest := rfl
      remaining := by
        change (UInt32.ofNat pl.length).toNat = _
        rw [UInt32.toNat_ofNat']
        exact Nat.mod_eq_of_lt hlen
      sorted := hsorted
      lt := hlt
      after := fun hstart ↦ by cases hstart
      fresh := fun _ ↦ rfl }

end TermIterator

end Spp.Query
