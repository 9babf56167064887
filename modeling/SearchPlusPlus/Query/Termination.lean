import SearchPlusPlus.Query.PartialCalls
import SearchPlusPlus.Query.Union

/-!
# Termination

An `EvalLaw` says that the calls of an iterator return what the ones by fuel do, whatever bytes are
below, and gives a rank that `Next` lowers. Nothing is asked of the documents a posting list has:
an `Advance` returns none before its target because of how it is written, not because the documents
ascend, and so the targets of a leapfrog grow. A conjunction has the rank of its first child, which
it never sends back.
-/

namespace Spp.Query

open Index Store DocIdSetIterator

/-- What the calls of an iterator do in every state. -/
structure EvalLaw (σ : Type) [DocIdSetIterator σ] (calls : PartialCalls σ) where
  Sane : σ → Prop
  rank : σ → ℕ
  docId_le : ∀ {it}, Sane it → docId it ≤ kNoMoreDocs
  next : ∀ {it}, Sane it → calls.next it = .some (next it) ∧ Sane (next it).2 ∧
    docId (next it).2 = (next it).1
  advance : ∀ {it t}, Sane it → t ≤ kNoMoreDocs →
    calls.advance it t = .some (advance it t) ∧ Sane (advance it t).2 ∧
      docId (advance it t).2 = (advance it t).1 ∧ t ≤ (advance it t).1
  /-- `Next` lowers the rank of an iterator that is at a document. -/
  rank_next : ∀ {it}, Sane it → docId it ≠ kNoMoreDocs →
    (DocIdSetIterator.next it).1 ≠ kNoMoreDocs →
    rank (DocIdSetIterator.next it).2 < rank it
  /-- An `Advance` to a later document does not raise it. -/
  rank_advance : ∀ {it t}, Sane it → docId it ≠ kNoMoreDocs → docId it < t → t ≤ kNoMoreDocs →
    (DocIdSetIterator.advance it t).1 ≠ kNoMoreDocs →
      rank (DocIdSetIterator.advance it t).2 ≤ rank it

/-! ### TermIterator -/

namespace TermIterator

variable {it : TermIterator} {t : ℕ}

theorem readPosition_spec {it' : TermIterator} (h : it.readPosition = some it') :
    it'.rest <:+ it.rest ∧ it'.remaining = it.remaining := by
  rw [readPosition] at h
  split_ifs at h
  · split at h
    · rename_i lo hi rest hrest
      obtain rfl := Option.some_inj.1 h
      exact ⟨hrest ▸ ⟨[lo, hi], rfl⟩, rfl⟩
    · exact absurd h (by simp)
  · obtain rfl := Option.some_inj.1 h
    exact ⟨List.suffix_rfl, rfl⟩

theorem readWeight_spec {it' : TermIterator} (h : it.readWeight = some it') :
    it'.rest <:+ it.rest ∧ it'.remaining = it.remaining := by
  rw [readWeight] at h
  split_ifs at h
  · split at h
    · rename_i q rest hrest
      obtain rfl := Option.some_inj.1 h
      exact ⟨hrest ▸ ⟨[q], rfl⟩, rfl⟩
    · exact absurd h (by simp)
  · obtain rfl := Option.some_inj.1 h
    exact ⟨List.suffix_rfl, rfl⟩

/-- **What `Next` does**: the cursor stays within the bytes, and a document it returns is one of
those that remained. -/
structure Stepped (it : TermIterator) (res : ℕ × TermIterator) : Prop where
  rest : res.2.rest <:+ it.rest
  current : res.2.current = res.1
  le : res.1 ≤ kNoMoreDocs
  remaining : (res.1 = kNoMoreDocs ∧ res.2.remaining = it.remaining) ∨
    res.2.remaining.toNat + 1 = it.remaining.toNat

theorem stepped_exhausted {it' : TermIterator} (hrest : it'.rest <:+ it.rest)
    (hremaining : it'.remaining = it.remaining) : Stepped it it'.exhausted :=
  ⟨hrest, rfl, le_rfl, Or.inl ⟨rfl, hremaining⟩⟩

theorem stepped_next (it : TermIterator) : Stepped it it.next := by
  rw [next]
  split_ifs with hnone hend
  · exact stepped_exhausted List.suffix_rfl rfl
  · exact stepped_exhausted List.suffix_rfl rfl
  have hdelta := decodeVarUint32_rest_suffix it.rest
  split
  · rename_i rest hread
    rw [hread] at hdelta
    exact stepped_exhausted hdelta rfl
  rename_i delta rest hread
  rw [hread] at hdelta
  have htf := (decodeVarUint32_rest_suffix rest).trans hdelta
  split
  · rename_i rest' hread'
    rw [hread'] at htf
    exact stepped_exhausted htf rfl
  rename_i tf rest' hread'
  rw [hread'] at htf
  dsimp only
  split
  · exact stepped_exhausted htf rfl
  rename_i itp hposition
  obtain ⟨hrestp, hremainingp⟩ := readPosition_spec hposition
  split
  · exact stepped_exhausted (hrestp.trans htf) hremainingp
  rename_i itw hweight
  obtain ⟨hrestw, hremainingw⟩ := readWeight_spec hweight
  refine ⟨hrestw.trans (hrestp.trans htf), rfl, Nat.le_of_lt_succ (UInt32.toNat_lt _), Or.inr ?_⟩
  show (itw.remaining - 1).toNat + 1 = it.remaining.toNat
  have hpos : it.remaining.toNat ≠ 0 := fun h ↦ hnone (UInt32.toNat_inj.1 h)
  have hone : (1 : UInt32) ≤ it.remaining := by
    rw [UInt32.le_iff_toNat_le]
    exact Nat.one_le_iff_ne_zero.2 hpos
  rw [hremainingw, hremainingp, UInt32.toNat_sub_of_le _ _ hone]
  exact Nat.sub_add_cancel (Nat.one_le_iff_ne_zero.2 hpos)

theorem Stepped.remaining_le {res : ℕ × TermIterator} (h : Stepped it res) :
    res.2.remaining.toNat ≤ it.remaining.toNat := by
  obtain ⟨-, heq⟩ | heq := h.remaining
  · rw [heq]
  · omega

section Law

variable (P : TermIterator → Prop)

/-- A state with `P`. -/
def Sane (it : TermIterator) : Prop := it.current ≤ kNoMoreDocs ∧ P it

variable {P} (hP : ∀ it, P it → P it.next.2)

include hP

theorem sane_next (h : Sane P it) : Sane P it.next.2 := by
  have hstep := stepped_next it
  exact ⟨hstep.current.symm ▸ hstep.le, hP it h.2⟩

/-- What `Advance` ends with, from a state with so many postings left. -/
structure Advanced (P : TermIterator → Prop) (t n : ℕ) (res : ℕ × TermIterator) : Prop where
  sane : Sane P res.2
  current : res.2.current = res.1
  le : t ≤ res.1
  remaining : res.2.remaining.toNat ≤ n

/-- **The loop of `Advance`** reads a posting in every round but the last. -/
theorem advance_ends (h : Sane P it) (ht : t ≤ kNoMoreDocs) :
    loop (advanceRound t) it = .some (it.advance t) ∧
      Advanced P t it.remaining.toNat (it.advance t) := by
  refine loop_eq_of_rank (I := fun it' ↦ Sane P it' ∧ it'.remaining.toNat ≤ it.remaining.toNat)
    (F := fun n it' ↦ advanceLoop n it' t) (fun it' ↦ it'.remaining.toNat) ?_ _ it ⟨h, le_rfl⟩
    (Nat.lt_succ_self _)
  intro n it' hI
  obtain ⟨hsane, hle⟩ := hI
  have hstep := stepped_next it'
  have hsane' := sane_next hP hsane
  have hremaining := hstep.remaining_le
  by_cases hgo : it'.current < t ∨ it'.started = false
  · by_cases hend : it'.next.1 = kNoMoreDocs
    · refine .stop (kNoMoreDocs, it'.next.2) ?_ ⟨hsane', hstep.current.trans hend, ht, ?_⟩ ?_
      · rw [advanceRound, if_pos hgo]
        exact if_pos hend
      · exact hremaining.trans hle
      · rw [advanceLoop, if_pos hgo]
        exact if_pos hend
    · by_cases hthere : t ≤ it'.next.1
      · refine .stop it'.next ?_ ⟨hsane', hstep.current, hthere, hremaining.trans hle⟩ ?_
        · rw [advanceRound, if_pos hgo]
          exact (if_neg hend).trans (if_pos hthere)
        · rw [advanceLoop, if_pos hgo]
          exact (if_neg hend).trans (if_pos hthere)
      · refine .go it'.next.2 ?_ ⟨hsane', hremaining.trans hle⟩ ?_ ?_
        · rw [advanceRound, if_pos hgo]
          exact (if_neg hend).trans (if_neg hthere)
        · obtain ⟨hend', -⟩ | hless := hstep.remaining
          · exact absurd hend' hend
          · omega
        · show advanceLoop (n + 1) it' t = advanceLoop n it'.next.2 t
          rw [advanceLoop, if_pos hgo]
          exact (if_neg hend).trans (if_neg hthere)
  · refine .stop (it'.current, it') ?_ ⟨hsane, rfl, ?_, hle⟩ ?_
    · rw [advanceRound, if_neg hgo]
    · exact not_lt.1 fun hlt ↦ hgo (Or.inl hlt)
    · rw [advanceLoop, if_neg hgo]

/-- The rank of a posting list is the number of postings left. -/
def evalLaw : EvalLaw TermIterator partialCalls where
  Sane := Sane P
  rank it := it.remaining.toNat
  docId_le h := h.1
  next h := ⟨rfl, sane_next hP h, (stepped_next _).current⟩
  advance h ht := by
    obtain ⟨hloop, hres⟩ := advance_ends hP h ht
    exact ⟨hloop, hres.sane, hres.current, hres.le⟩
  rank_next {it} _ _ hend := by
    obtain ⟨hend', -⟩ | hless := (stepped_next it).remaining
    · exact absurd hend' hend
    · exact Nat.lt_of_succ_le hless.le
  rank_advance h _ _ ht _ := (advance_ends hP h ht).2.remaining

end Law

end TermIterator

/-! ### MatchAllIterator -/

namespace MatchAllIterator

variable {it : MatchAllIterator} {t : ℕ}

/-- A state: at a document of the segment, once it is at one. -/
structure Sane (it : MatchAllIterator) : Prop where
  docCount_le : it.docCount ≤ kNoMoreDocs
  current_le : it.current ≤ kNoMoreDocs
  lt : it.current ≠ kNoMoreDocs → it.started = true ∧ it.current < it.docCount

theorem Sane.exhausted (h : it.docCount ≤ kNoMoreDocs) : Sane it.exhausted.2 :=
  ⟨h, le_rfl, fun hne ↦ absurd rfl hne⟩

theorem Sane.next (h : Sane it) : Sane it.next.2 ∧ it.next.2.current = it.next.1 := by
  have hle := h.docCount_le
  rw [MatchAllIterator.next]
  dsimp only
  split_ifs with hstart hempty hlast
  · exact ⟨.exhausted hle, rfl⟩
  · exact ⟨⟨hle, Nat.zero_le _, fun _ ↦ ⟨rfl, Nat.pos_of_ne_zero hempty⟩⟩, rfl⟩
  · exact ⟨.exhausted hle, rfl⟩
  · have hlt := not_le.1 hlast
    exact ⟨⟨hle, hlt.le.trans hle, fun _ ↦ ⟨by simpa using hstart, hlt⟩⟩, rfl⟩

theorem Sane.advance (h : Sane it) (ht : t ≤ kNoMoreDocs) :
    Sane (it.advance t).2 ∧ (it.advance t).2.current = (it.advance t).1 ∧ t ≤ (it.advance t).1 := by
  have hle := h.docCount_le
  rw [MatchAllIterator.advance]
  split_ifs with hlast
  · exact ⟨.exhausted hle, rfl, ht⟩
  · exact ⟨⟨hle, ht, fun _ ↦ ⟨rfl, not_le.1 hlast⟩⟩, rfl, le_rfl⟩

/-- `Next` goes from a document to the next one. -/
theorem Sane.left_next (h : Sane it) (hne : it.current ≠ kNoMoreDocs)
    (hend : it.next.1 ≠ kNoMoreDocs) :
    it.next.2.docCount - it.next.2.current < it.docCount - it.current := by
  obtain ⟨hstart, hlt⟩ := h.lt hne
  have hle := h.docCount_le
  have hmod : (it.current + 1) % 4294967296 = it.current + 1 :=
    Nat.mod_eq_of_lt (by rw [kNoMoreDocs] at hle; omega)
  have hnext : it.next = if it.docCount ≤ it.current + 1 then it.exhausted
      else (it.current + 1, { it with current := it.current + 1 }) := by
    rw [MatchAllIterator.next, if_neg (by rw [hstart]; exact Bool.noConfusion), hmod]
  rw [hnext] at hend ⊢
  split_ifs at hend ⊢ with hlast
  · exact absurd rfl hend
  · show it.docCount - (it.current + 1) < it.docCount - it.current
    omega

theorem left_advance (hlt : it.current < t) (hend : (it.advance t).1 ≠ kNoMoreDocs) :
    (it.advance t).2.docCount - (it.advance t).2.current ≤ it.docCount - it.current := by
  rw [MatchAllIterator.advance] at hend ⊢
  split_ifs at hend ⊢ with hlast
  · exact absurd rfl hend
  · show it.docCount - t ≤ it.docCount - it.current
    omega

/-- The rank of all documents is the number of those left. -/
def evalLaw : EvalLaw MatchAllIterator partialCalls where
  Sane := Sane
  rank it := it.docCount - it.current
  docId_le h := h.current_le
  next h := ⟨rfl, h.next⟩
  advance h ht := ⟨rfl, h.advance ht⟩
  rank_next h hne hend := h.left_next hne hend
  rank_advance _ _ hlt _ hend := left_advance hlt hend

end MatchAllIterator

/-! ### ConjunctionIterator -/

namespace ConjunctionIterator

variable {σ : Type} [DocIdSetIterator σ] {calls : PartialCalls σ} (L : EvalLaw σ calls)
  {it : ConjunctionIterator σ} {cs : List σ} {t : ℕ}

/-- A state: at a document its first child is at. -/
structure Sane (it : ConjunctionIterator σ) : Prop where
  current_le : it.current ≤ kNoMoreDocs
  children : ∀ c ∈ it.children, L.Sane c
  led : it.current ≠ kNoMoreDocs →
    ∃ front others, it.children = front :: others ∧ docId front = it.current

/-- The rank of the first child. -/
def rank (it : ConjunctionIterator σ) : ℕ :=
  match it.children with
  | [] => 0
  | front :: _ => L.rank front

theorem rank_cons {front : σ} {others : List σ} (h : it.children = front :: others) :
    rank L it = L.rank front := by rw [rank, h]

/-- The other children are advanced to the target, or to where the first of them is behind it. -/
theorem follow_ends (h : ∀ c ∈ cs, L.Sane c) (ht : t ≤ kNoMoreDocs) :
    calls.follow t cs = .some (follow t cs) ∧ (∀ c ∈ (follow t cs).2, L.Sane c) ∧
      ∀ d, (follow t cs).1 = some d → t ≤ d ∧ d ≤ kNoMoreDocs := by
  induction cs with
  | nil =>
    refine ⟨rfl, h, fun d hd ↦ ?_⟩
    obtain rfl : t = d := Option.some_inj.1 hd
    exact ⟨le_rfl, ht⟩
  | cons c cs ih =>
    obtain ⟨hc, hcs⟩ := List.forall_mem_cons.1 h
    obtain ⟨hcall, hsane, hdoc, hle⟩ := L.advance hc ht
    have hend := L.docId_le hsane
    obtain ⟨hfollow, hsane', hbound⟩ := ih hcs
    rw [PartialCalls.follow, follow, hcall, hfollow]
    generalize DocIdSetIterator.advance c t = r at hsane hdoc hle hend
    obtain ⟨d, c'⟩ := r
    simp only [Part.bind_eq_bind, Part.bind_some]
    dsimp only at hsane hdoc hle hend
    split_ifs with hnone hbehind
    · exact ⟨rfl, List.forall_mem_cons.2 ⟨hsane, hcs⟩, fun d hd ↦ absurd hd (by simp)⟩
    · refine ⟨rfl, List.forall_mem_cons.2 ⟨hsane, hcs⟩, fun d' hd' ↦ ?_⟩
      obtain rfl : d = d' := Option.some_inj.1 hd'
      exact ⟨hle, hdoc ▸ hend⟩
    · exact ⟨rfl, List.forall_mem_cons.2 ⟨hsane, hsane'⟩, hbound⟩

/-- What the loops end with: a document from the target on, or the end; at a document the first
child has not gained rank. -/
structure Landed (t r : ℕ) (res : ℕ × ConjunctionIterator σ) : Prop where
  sane : Sane L res.2
  current : res.2.current = res.1
  le : t ≤ res.1
  rank : res.1 ≠ kNoMoreDocs → rank L res.2 ≤ r

variable {L} {r : ℕ} {front : σ} {others : List σ}

theorem Landed.exhausted (h : ∀ c ∈ it.children, L.Sane c) (ht : t ≤ kNoMoreDocs) :
    Landed L t r it.exhausted :=
  ⟨⟨le_rfl, h, fun hne ↦ absurd rfl hne⟩, rfl, ht, fun hne ↦ absurd rfl hne⟩

theorem Landed.found {d : ℕ} (h : ∀ c ∈ it.children, L.Sane c)
    (hc : it.children = front :: others) (hdoc : docId front = d) (hle : t ≤ d)
    (hrank : L.rank front ≤ r) : Landed L t r (it.found d) := by
  have hsane : L.Sane front := h front (hc ▸ List.mem_cons_self)
  have hsame : ConjunctionIterator.rank L (it.found d).2 = L.rank front := rank_cons L hc
  exact ⟨⟨hdoc ▸ L.docId_le hsane, h, fun _ ↦ ⟨front, others, hc, hdoc⟩⟩, rfl, hle,
    fun _ ↦ hsame.trans_le hrank⟩

/-- The states of the loop of `Next`: the first child is at the target. -/
structure Leaping (L : EvalLaw σ calls) (t r : ℕ) (s : ConjunctionIterator σ × ℕ) : Prop where
  children : ∀ c ∈ s.1.children, L.Sane c
  led : ∃ front others, s.1.children = front :: others ∧ docId front = s.2 ∧ L.rank front ≤ r
  le : t ≤ s.2

/-- **The loop of `Next`**: the target grows in every round. -/
theorem leap_ends (h : Leaping L t r (it, t)) :
    loop calls.leapRound (it, t) = .some (it.nextLoop (kNoMoreDocs + 1) t) ∧
      Landed L t r (it.nextLoop (kNoMoreDocs + 1) t) := by
  refine loop_eq_of_rank (I := Leaping L t r) (Q := Landed L t r)
    (F := fun n (s : ConjunctionIterator σ × ℕ) ↦ s.1.nextLoop n s.2)
    (fun s ↦ kNoMoreDocs - s.2) ?_ _ (it, t) h (by omega)
  rintro n ⟨it, target⟩ ⟨hchildren, ⟨front, others, hc, hdoc, hrank⟩, hle⟩
  dsimp only at hchildren hc hdoc hle
  rw [hc] at hchildren
  obtain ⟨hfront, hothers⟩ := List.forall_mem_cons.1 hchildren
  have htarget : target ≤ kNoMoreDocs := hdoc ▸ L.docId_le hfront
  obtain ⟨hfollow, hothers', hbound⟩ := follow_ends L hothers htarget
  cases hf : follow target others with
  | mk d others' =>
  rw [hf] at hfollow hothers' hbound
  cases d with
  | none =>
    refine .stop (exhausted { it with children := front :: others' }) ?_
      (.exhausted (List.forall_mem_cons.2 ⟨hfront, hothers'⟩) (hle.trans htarget)) ?_
    · simp only [PartialCalls.leapRound, hc, hfollow, Part.bind_eq_bind, Part.bind_some]
    · simp only [nextLoop, hc, hf]
  | some candidate =>
    obtain ⟨hle', hmax⟩ := hbound candidate rfl
    by_cases heq : candidate = target
    · refine .stop (found { it with children := front :: others' } candidate) ?_
        (.found (List.forall_mem_cons.2 ⟨hfront, hothers'⟩) rfl (hdoc.trans heq.symm)
          (hle.trans hle') hrank) ?_
      · simp only [PartialCalls.leapRound, hc, hfollow, Part.bind_eq_bind, Part.bind_some,
          if_pos heq]
      · simp only [nextLoop, hc, hf, if_pos heq]
    · obtain ⟨hcall, hsane, hdoc', hlead⟩ := L.advance hfront hmax
      have hend := L.docId_le hsane
      have hrank' := L.rank_advance hfront (by omega) (by omega) hmax
      have hall := List.forall_mem_cons.2 ⟨hsane, hothers'⟩
      by_cases hnone : (DocIdSetIterator.advance front candidate).1 = kNoMoreDocs
      · refine .stop (exhausted { it with children := _ :: others' }) ?_
          (.exhausted hall (hle.trans htarget)) ?_
        · simp only [PartialCalls.leapRound, hc, hfollow, hcall, Part.bind_eq_bind, Part.bind_some,
            if_neg heq, if_pos hnone]
        · simp only [nextLoop, hc, hf, if_neg heq, if_pos hnone]
      · refine .go ({ it with children := _ :: others' }, _) ?_
          ⟨hall, ⟨_, others', rfl, hdoc', (hrank' hnone).trans hrank⟩, hle.trans (hle'.trans hlead)⟩
          ?_ ?_
        · simp only [PartialCalls.leapRound, hc, hfollow, hcall, Part.bind_eq_bind, Part.bind_some,
            if_neg heq, if_neg hnone]
        · show kNoMoreDocs - (DocIdSetIterator.advance front candidate).1 < kNoMoreDocs - target
          omega
        · simp only [nextLoop, hc, hf, if_neg heq, if_neg hnone]

/-- The states of the loop of `Advance`, from an iterator: it is as it was, or its target is ahead.
Where the first child was behind the target it is behind every later one. -/
structure Seeking (L : EvalLaw σ calls) (it : ConjunctionIterator σ) (t : ℕ)
    (s : ConjunctionIterator σ × ℕ) : Prop where
  children : ∀ c ∈ s.1.children, L.Sane c
  nonempty : s.1.current ≠ kNoMoreDocs → s.1.children ≠ []
  current : s.1.current = it.current
  here : s.1 = it ∨ s.1.current < s.2 ∨ s.1.current = kNoMoreDocs
  led : it.current ≠ kNoMoreDocs → it.current < t → ∀ front ∈ s.1.children.head?,
    docId front < s.2 ∧ L.rank front ≤ rank L it
  le : t ≤ s.2
  le_end : s.2 ≤ kNoMoreDocs

theorem Sane.seeking (h : Sane L it) (ht : t ≤ kNoMoreDocs) : Seeking L it t (it, t) where
  children := h.children
  nonempty hne := by
    obtain ⟨front, others, hcons, -⟩ := h.led hne
    rw [hcons]
    exact List.cons_ne_nil _ _
  current := rfl
  here := Or.inl rfl
  led hne hlt c hc := by
    obtain ⟨front, others, hcons, hdoc⟩ := h.led hne
    rw [hcons, List.head?_cons, Option.mem_some_iff] at hc
    subst hc
    exact ⟨hdoc.trans_lt hlt, (rank_cons L hcons).ge⟩
  le := le_rfl
  le_end := ht

/-- What `Advance` ends with. -/
structure Sought (L : EvalLaw σ calls) (it : ConjunctionIterator σ) (t : ℕ)
    (res : ℕ × ConjunctionIterator σ) : Prop where
  sane : Sane L res.2
  current : res.2.current = res.1
  le : t ≤ res.1
  rank : it.current ≠ kNoMoreDocs → it.current < t → res.1 ≠ kNoMoreDocs →
    rank L res.2 ≤ rank L it

theorem Sought.exhausted {it' : ConjunctionIterator σ} (h : ∀ c ∈ it'.children, L.Sane c)
    (ht : t ≤ kNoMoreDocs) : Sought L it t it'.exhausted :=
  ⟨⟨le_rfl, h, fun hne ↦ absurd rfl hne⟩, rfl, ht, fun _ _ hne ↦ absurd rfl hne⟩

/-- **The loop of `Advance`**: the target grows in every round. -/
theorem seek_ends (h : Sane L it) (ht : t ≤ kNoMoreDocs) :
    loop calls.seekRound (it, t) = .some (it.advance t) ∧ Sought L it t (it.advance t) := by
  refine loop_eq_of_rank (I := Seeking L it t) (Q := Sought L it t)
    (F := fun n (s : ConjunctionIterator σ × ℕ) ↦ s.1.advanceLoop n s.2)
    (fun s ↦ kNoMoreDocs - s.2) ?_ _ (it, t) (h.seeking ht) (by omega)
  rintro n ⟨it', target⟩ hs
  have hcurrent : it'.current = it.current := hs.current
  have htarget : target ≤ kNoMoreDocs := hs.le_end
  have hle : t ≤ target := hs.le
  by_cases hgo : it'.current < target ∨ it'.current = kNoMoreDocs
  swap
  · obtain hsame | hahead := hs.here
    swap
    · exact absurd hahead hgo
    obtain rfl : it' = it := hsame
    refine .stop (it'.current, it') ?_ ⟨h, rfl, ?_, fun _ _ _ ↦ le_rfl⟩ ?_
    · simp only [PartialCalls.seekRound, if_neg hgo]
    · exact hle.trans (not_lt.1 (not_or.1 hgo).1)
    · simp only [advanceLoop, if_neg hgo]
  cases hc : it'.children with
  | nil =>
    have hstill : it'.current = kNoMoreDocs := by
      by_contra hne
      exact hs.nonempty hne hc
    have hsane : Sane L it' := ⟨hstill.le, hs.children, fun hne ↦ absurd hstill hne⟩
    refine .stop (kNoMoreDocs, it') ?_ ⟨hsane, hstill, ht, fun _ _ hne ↦ absurd rfl hne⟩ ?_
    · simp only [PartialCalls.seekRound, if_pos hgo, hc]
    · simp only [advanceLoop, if_pos hgo, hc]
  | cons front others =>
    have hchildren := hs.children
    rw [hc] at hchildren
    obtain ⟨hfront, hothers⟩ := List.forall_mem_cons.1 hchildren
    obtain ⟨hcall, hsane, hdoc, hlead⟩ := L.advance hfront htarget
    have hmax : (DocIdSetIterator.advance front target).1 ≤ kNoMoreDocs := hdoc ▸ L.docId_le hsane
    by_cases hnone : (DocIdSetIterator.advance front target).1 = kNoMoreDocs
    · refine .stop (exhausted { it' with children := _ :: others }) ?_
        (.exhausted (List.forall_mem_cons.2 ⟨hsane, hothers⟩) ht) ?_
      · simp only [PartialCalls.seekRound, if_pos hgo, hc, hcall, Part.bind_eq_bind,
          Part.bind_some, if_pos hnone]
      · simp only [advanceLoop, if_pos hgo, hc, if_pos hnone]
    have hrank : it.current ≠ kNoMoreDocs → it.current < t →
        L.rank (DocIdSetIterator.advance front target).2 ≤ rank L it := by
      intro hne hlt
      obtain ⟨hbehind, hrank⟩ := hs.led hne hlt front (by simp [hc])
      have hbehind' : docId front < target := hbehind
      exact (L.rank_advance hfront (by omega) hbehind htarget hnone).trans hrank
    obtain ⟨hfollow, hothers', hbound⟩ := follow_ends L hothers hmax
    cases hf : follow (DocIdSetIterator.advance front target).1 others with
    | mk d others' =>
    rw [hf] at hfollow hothers' hbound
    have hall : ∀ c ∈ (DocIdSetIterator.advance front target).2 :: others', L.Sane c :=
      List.forall_mem_cons.2 ⟨hsane, hothers'⟩
    cases d with
    | none =>
      refine .stop (exhausted { it' with children := _ :: others' }) ?_ (.exhausted hall ht) ?_
      · simp only [PartialCalls.seekRound, if_pos hgo, hc, hcall, hfollow, Part.bind_eq_bind,
          Part.bind_some, if_neg hnone]
      · simp only [advanceLoop, if_pos hgo, hc, if_neg hnone, hf]
    | some candidate =>
      obtain ⟨hle', hmax'⟩ := hbound candidate rfl
      by_cases heq : candidate = (DocIdSetIterator.advance front target).1
      · refine .stop (found { it' with
          children := (DocIdSetIterator.advance front target).2 :: others' } candidate) ?_ ?_ ?_
        · simp only [PartialCalls.seekRound, if_pos hgo, hc, hcall, hfollow, Part.bind_eq_bind,
            Part.bind_some, if_neg hnone, if_pos heq]
        · have hland : Landed L t _ (found { it' with children :=
              (DocIdSetIterator.advance front target).2 :: others' } candidate) :=
            .found hall rfl (hdoc.trans heq.symm) (hle.trans (hlead.trans hle')) le_rfl
          exact ⟨hland.sane, rfl, hland.le, fun hne hlt hend ↦
            (hland.rank hend).trans (hrank hne hlt)⟩
        · simp only [advanceLoop, if_pos hgo, hc, if_neg hnone, hf, if_pos heq]
      · refine .go ({ it' with children := _ :: others' }, candidate) ?_
          ⟨hall, fun _ ↦ List.cons_ne_nil _ _, hcurrent, Or.inr ?_, ?_, ?_, hmax'⟩ ?_ ?_
        · simp only [PartialCalls.seekRound, if_pos hgo, hc, hcall, hfollow, Part.bind_eq_bind,
            Part.bind_some, if_neg hnone, if_neg heq]
        · show it'.current < candidate ∨ it'.current = kNoMoreDocs
          omega
        · intro hne hlt c hc'
          rw [List.head?_cons, Option.mem_some_iff] at hc'
          subst hc'
          refine ⟨?_, hrank hne hlt⟩
          show docId (DocIdSetIterator.advance front target).2 < candidate
          omega
        · exact hle.trans (hlead.trans hle')
        · show kNoMoreDocs - candidate < kNoMoreDocs - target
          omega
        · simp only [advanceLoop, if_pos hgo, hc, if_neg hnone, hf, if_neg heq]

/-- `Next` of a conjunction. -/
theorem next_ends (h : Sane L it) : calls.conjunction.next it = .some it.next ∧
    Sane L it.next.2 ∧ it.next.2.current = it.next.1 ∧
      (it.current ≠ kNoMoreDocs → it.next.1 ≠ kNoMoreDocs → rank L it.next.2 < rank L it) := by
  cases hc : it.children with
  | nil =>
    have hexhausted : it.next = it.exhausted := by simp only [next, hc]
    have hland : Landed L 0 0 it.exhausted := .exhausted h.children (Nat.zero_le _)
    rw [hexhausted]
    refine ⟨?_, hland.sane, rfl, fun _ hend ↦ absurd rfl hend⟩
    simp only [PartialCalls.conjunction, hc]
  | cons front others =>
    have hchildren := h.children
    rw [hc] at hchildren
    obtain ⟨hfront, hothers⟩ := List.forall_mem_cons.1 hchildren
    by_cases hcurrent : it.current = kNoMoreDocs
    · have hleap : Leaping L (docId front) (L.rank front) (it, docId front) :=
        ⟨h.children, ⟨front, others, hc, rfl, le_rfl⟩, le_rfl⟩
      obtain ⟨hloop, hland⟩ := leap_ends hleap
      have hnext : it.next = it.nextLoop (kNoMoreDocs + 1) (docId front) := by
        simp only [next, hc, if_pos hcurrent]
      rw [hnext]
      refine ⟨?_, hland.sane, hland.current, fun hne ↦ absurd hcurrent hne⟩
      simp only [PartialCalls.conjunction, hc, if_pos hcurrent, hloop]
    · obtain ⟨hcall, hsane, hdoc⟩ := L.next hfront
      obtain ⟨front', others'', hcons, hled⟩ := h.led hcurrent
      obtain ⟨rfl, rfl⟩ := List.cons.inj (hc.symm.trans hcons)
      have hall := List.forall_mem_cons.2 ⟨hsane, hothers⟩
      by_cases hnone : (DocIdSetIterator.next front).1 = kNoMoreDocs
      · have hnext : it.next =
            exhausted { it with children := (DocIdSetIterator.next front).2 :: others } := by
          simp only [next, hc, if_neg hcurrent, if_pos hnone]
        have hland : Landed L 0 0
            (exhausted { it with children := (DocIdSetIterator.next front).2 :: others }) :=
          .exhausted hall (Nat.zero_le _)
        rw [hnext]
        refine ⟨?_, hland.sane, rfl, fun _ hend ↦ absurd rfl hend⟩
        simp only [PartialCalls.conjunction, hc, hcall, if_neg hcurrent, Part.bind_eq_bind,
          Part.bind_some, if_pos hnone]
      · have hleap : Leaping L (DocIdSetIterator.next front).1
            (L.rank (DocIdSetIterator.next front).2)
            ({ it with children := (DocIdSetIterator.next front).2 :: others },
              (DocIdSetIterator.next front).1) :=
          ⟨hall, ⟨_, others, rfl, hdoc, le_rfl⟩, le_rfl⟩
        obtain ⟨hloop, hland⟩ := leap_ends hleap
        have hnext : it.next = nextLoop (kNoMoreDocs + 1)
            { it with children := (DocIdSetIterator.next front).2 :: others }
              (DocIdSetIterator.next front).1 := by
          simp only [next, hc, if_neg hcurrent, if_neg hnone]
        have hless := L.rank_next hfront (hled.trans_ne hcurrent) hnone
        rw [hnext]
        refine ⟨?_, hland.sane, hland.current, fun _ hend ↦ ?_⟩
        · simp only [PartialCalls.conjunction, hc, hcall, if_neg hcurrent, Part.bind_eq_bind,
            Part.bind_some, if_neg hnone, hloop]
        · rw [rank_cons L hc]
          exact (hland.rank hend).trans_lt hless

/-- **Conjunctions** have the law when their children have it. -/
def evalLaw (L : EvalLaw σ calls) : EvalLaw (ConjunctionIterator σ) calls.conjunction where
  Sane := Sane L
  rank := rank L
  docId_le h := h.current_le
  next h := by
    obtain ⟨hcall, hsane, hcurrent, -⟩ := next_ends h
    exact ⟨hcall, hsane, hcurrent⟩
  advance h ht := by
    obtain ⟨hloop, hsought⟩ := seek_ends h ht
    exact ⟨hloop, hsought.sane, hsought.current, hsought.le⟩
  rank_next h := (next_ends h).2.2.2
  rank_advance h hne hlt ht := (seek_ends h ht).2.rank hne hlt

end ConjunctionIterator

/-! ### DisjunctionIterator -/

namespace DisjunctionIterator

variable {σ : Type} [DocIdSetIterator σ] {calls : PartialCalls σ} (L : EvalLaw σ calls)
  {it : DisjunctionIterator σ} {cs : List σ} {t : ℕ}

structure Sane (it : DisjunctionIterator σ) : Prop where
  current_le : it.current ≤ kNoMoreDocs
  children : ∀ c ∈ it.children, L.Sane c

variable {L}

/-- A loop over the children has a value when its rounds have one. -/
theorem mapM_ends {f : σ → Part σ} {g : σ → σ}
    (h : ∀ c, L.Sane c → f c = .some (g c) ∧ L.Sane (g c)) (hcs : ∀ c ∈ cs, L.Sane c) :
    cs.mapM f = .some (cs.map g) ∧ ∀ c ∈ cs.map g, L.Sane c := by
  induction cs with
  | nil => exact ⟨List.mapM_nil, hcs⟩
  | cons c cs ih =>
    obtain ⟨hc, hcs⟩ := List.forall_mem_cons.1 hcs
    obtain ⟨hmap, hall⟩ := ih hcs
    obtain ⟨hround, hsane⟩ := h c hc
    rw [List.mapM_cons, hround, hmap]
    simp only [Part.bind_eq_bind, Part.bind_some]
    exact ⟨rfl, List.forall_mem_cons.2 ⟨hsane, hall⟩⟩

theorem startChild_ends {c : σ} (h : L.Sane c) :
    calls.startChild c = .some (startChild c) ∧ L.Sane (startChild c) := by
  obtain ⟨hcall, hsane, -⟩ := L.next h
  rw [PartialCalls.startChild, startChild, hcall]
  split_ifs
  · exact ⟨Part.map_some _ _, hsane⟩
  · exact ⟨rfl, h⟩

theorem passChild_ends (after : ℕ) {c : σ} (h : L.Sane c) :
    calls.passChild after c = .some (passChild after c) ∧ L.Sane (passChild after c) := by
  obtain ⟨hcall, hsane, -⟩ := L.next h
  rw [PartialCalls.passChild, passChild, hcall]
  split_ifs
  · exact ⟨rfl, h⟩
  · exact ⟨Part.map_some _ _, hsane⟩
  · exact ⟨rfl, h⟩

theorem advanceChild_ends (ht : t ≤ kNoMoreDocs) {c : σ} (h : L.Sane c) :
    calls.advanceChild t c = .some (advanceChild t c) ∧ L.Sane (advanceChild t c) := by
  obtain ⟨hcall, hsane, -⟩ := L.advance h ht
  rw [PartialCalls.advanceChild, advanceChild, hcall]
  split_ifs
  · exact ⟨Part.map_some _ _, hsane⟩
  · exact ⟨rfl, h⟩

/-- The least document is the end, or one that is not skipped. -/
theorem best_spec (skip : ℕ → Bool) (h : ∀ c ∈ cs, L.Sane c) :
    best skip kNoMoreDocs true cs ≤ kNoMoreDocs ∧ (best skip kNoMoreDocs true cs = kNoMoreDocs ∨
      skip (best skip kNoMoreDocs true cs) = false) := by
  obtain ⟨hmem, hmin⟩ := best_isLeast skip cs kNoMoreDocs true (fun _ ↦ rfl) fun c hc ↦
    L.docId_le (h c hc)
  exact ⟨hmin (Or.inl rfl), hmem.imp id fun h ↦ h.2.1⟩

/-- `Next` of a disjunction: from a document it goes to a later one. -/
theorem next_ends (h : Sane L it) : calls.disjunction.next it = .some it.next ∧
    Sane L it.next.2 ∧ it.next.2.current = it.next.1 ∧
      (it.current ≠ kNoMoreDocs → it.next.1 ≠ kNoMoreDocs → it.current < it.next.1) := by
  by_cases hcurrent : it.current = kNoMoreDocs
  · by_cases hany : (it.children.any fun c ↦ docId c = kNoMoreDocs) = true
    · obtain ⟨hmap, hall⟩ := mapM_ends (L := L) (fun c hc ↦ startChild_ends hc) h.children
      obtain ⟨hle, -⟩ := best_spec (L := L) (fun _ ↦ false) hall
      have hnext : it.next =
          settle { it with children := it.children.map startChild } fun _ ↦ false := by
        rw [next, if_pos hcurrent, if_pos hany]
      rw [hnext]
      refine ⟨?_, ⟨hle, hall⟩, rfl, fun hne ↦ absurd hcurrent hne⟩
      simp only [PartialCalls.disjunction, if_pos hcurrent, if_pos hany, hmap, Part.bind_eq_bind,
        Part.bind_some]
    · have hnext : it.next = (it.current, it) := by
        rw [next, if_pos hcurrent, if_neg hany]
      rw [hnext]
      refine ⟨?_, h, rfl, fun hne ↦ absurd hcurrent hne⟩
      simp only [PartialCalls.disjunction, if_pos hcurrent, if_neg hany]
  · obtain ⟨hmap, hall⟩ := mapM_ends (L := L) (fun c hc ↦ passChild_ends it.current hc) h.children
    obtain ⟨hle, hskip⟩ :=
      best_spec (L := L) (fun d ↦ it.current ≠ kNoMoreDocs && d ≤ it.current) hall
    have hnext : it.next = ((it.nextAfter it.current).1,
        { (it.nextAfter it.current).2 with current := (it.nextAfter it.current).1 }) := by
      rw [next, if_neg hcurrent]
    rw [hnext]
    refine ⟨?_, ⟨hle, hall⟩, rfl, fun _ hend ↦ ?_⟩
    · simp only [PartialCalls.disjunction, if_neg hcurrent, hmap, Part.bind_eq_bind, Part.bind_some]
      rfl
    · obtain hat | hlater := Bool.and_eq_false_iff.1 (hskip.resolve_left hend)
      · exact absurd (decide_eq_true hcurrent) (Bool.eq_false_iff.1 hat)
      · exact not_le.1 (of_decide_eq_false hlater)

/-- `Advance` of a disjunction. -/
theorem advance_ends (h : Sane L it) (ht : t ≤ kNoMoreDocs) :
    calls.disjunction.advance it t = .some (it.advance t) ∧ Sane L (it.advance t).2 ∧
      (it.advance t).2.current = (it.advance t).1 ∧ t ≤ (it.advance t).1 := by
  obtain ⟨hmap, hall⟩ := mapM_ends (L := L) (fun c hc ↦ advanceChild_ends ht hc) h.children
  obtain ⟨hle, hskip⟩ := best_spec (L := L) (fun d ↦ d < t) hall
  refine ⟨?_, ⟨hle, hall⟩, rfl, ?_⟩
  · simp only [PartialCalls.disjunction, hmap, Part.bind_eq_bind, Part.bind_some]
    rfl
  · show t ≤ best (fun d ↦ d < t) kNoMoreDocs true (it.children.map (advanceChild t))
    obtain hend | hthere := hskip
    · rwa [hend]
    · simpa using hthere

/-- **Disjunctions** have the law when their children have it. The rank is what is left of all
document ids. -/
def evalLaw (L : EvalLaw σ calls) : EvalLaw (DisjunctionIterator σ) calls.disjunction where
  Sane := Sane L
  rank it := kNoMoreDocs - it.current
  docId_le h := h.current_le
  next h := by
    obtain ⟨hcall, hsane, hcurrent, -⟩ := next_ends h
    exact ⟨hcall, hsane, hcurrent⟩
  advance h ht := advance_ends h ht
  rank_next {it} h hne hend := by
    obtain ⟨-, hsane, hcurrent, hlater⟩ := next_ends h
    have hlt : it.current < it.next.1 := hlater hne hend
    have hle := hsane.current_le
    show kNoMoreDocs - it.next.2.current < kNoMoreDocs - it.current
    omega
  rank_advance {it t} h _ hlt ht _ := by
    obtain ⟨-, -, hcurrent, hle⟩ := advance_ends h ht
    have hlt' : it.current < t := hlt
    show kNoMoreDocs - (it.advance t).2.current ≤ kNoMoreDocs - it.current
    omega

end DisjunctionIterator

/-! ### Runs of `Next` -/

section Drain

variable {σ : Type} [DocIdSetIterator σ] {calls : PartialCalls σ} (L : EvalLaw σ calls)

/-- **A loop that calls `Next`** until there are no more documents ends. -/
theorem EvalLaw.exists_drain {it : σ} (h : L.Sane it) :
    ∃ docs, calls.drain it = .some docs := by
  have hround : ∀ s : List ℕ × σ, L.Sane s.2 → calls.drainRound s =
      if (DocIdSetIterator.next s.2).1 = kNoMoreDocs then .some (.inl s.1)
      else .some (.inr (s.1 ++ [(DocIdSetIterator.next s.2).1],
        (DocIdSetIterator.next s.2).2)) := by
    intro s hs
    rw [PartialCalls.drainRound, (L.next hs).1, Part.bind_eq_bind, Part.bind_some]
  -- from a document on every round lowers the rank
  have hat : ∀ s : List ℕ × σ, L.Sane s.2 ∧ docId s.2 ≠ kNoMoreDocs →
      ∃ docs, loop calls.drainRound s = .some docs := by
    refine exists_loop_eq (fun s ↦ L.rank s.2) fun s hs ↦ ?_
    obtain ⟨hsane, hne⟩ := hs
    obtain ⟨-, hsane', hdoc⟩ := L.next hsane
    rw [hround s hsane]
    by_cases hend : (DocIdSetIterator.next s.2).1 = kNoMoreDocs
    · exact Or.inl ⟨s.1, if_pos hend⟩
    · exact Or.inr ⟨_, if_neg hend, ⟨hsane', hdoc.trans_ne hend⟩, L.rank_next hsane hne hend⟩
  obtain ⟨-, hsane', hdoc⟩ := L.next h
  rw [PartialCalls.drain]
  by_cases hend : (DocIdSetIterator.next it).1 = kNoMoreDocs
  · exact ⟨[], loop_stop ((hround ([], it) h).trans (if_pos hend))⟩
  · rw [loop_go ((hround ([], it) h).trans (if_neg hend))]
    exact hat _ ⟨hsane', hdoc.trans_ne hend⟩

end Drain

end Spp.Query
