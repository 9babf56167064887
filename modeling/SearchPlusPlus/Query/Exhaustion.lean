import SearchPlusPlus.Query.EndLaw
import SearchPlusPlus.Query.SeekRuns

/-!
# Exhaustion

Once a call of a run has returned `kNoMoreDocs`, do all later ones? They do for a term and for a
conjunction whose first child, followed through conjunctions, is not a `MatchAllIterator`, and
for every tree over no document at all. Every other tree starts again (`final_iff`): a
`MatchAllIterator` goes back, and a disjunction takes `kNoMoreDocs` for not having been started.
-/

namespace Spp.Query

open Index

namespace Iter

/-- The first child, followed through conjunctions, is a `MatchAllIterator`. -/
def LedBack : ℕ → Iter → Prop
  | 0, _ => False
  | _ + 1, term _ => False
  | _ + 1, matchAll _ => True
  | n + 1, conjunction it => ∃ c ∈ it.children.head?, LedBack n c
  | _ + 1, disjunction _ => False

section Virtual

variable {below : DocIdSetIterator Iter} {L : @SeekLaw Iter below} (E : @EndLaw Iter below L)

/-- Led by a `MatchAllIterator`. -/
def Back : Iter → Prop
  | term it => TermIterator.endLaw.Back it
  | matchAll it => MatchAllIterator.endLaw.Back it
  | conjunction it => (ConjunctionIterator.endLaw E).Back it
  | disjunction it => (DisjunctionIterator.endLaw L).Back it

/-- Nothing is found by any `Advance`. -/
def Spent : Iter → Prop
  | term it => TermIterator.endLaw.Spent it
  | matchAll it => MatchAllIterator.endLaw.Spent it
  | conjunction it => (ConjunctionIterator.endLaw E).Spent it
  | disjunction it => (DisjunctionIterator.endLaw L).Spent it

/-- The ends of **trees**. -/
def virtualEndLaw : @EndLaw Iter (virtual below) (virtualLaw L) :=
  @EndLaw.mk Iter (virtual below) (virtualLaw L) (Back E) (Spent E)
    (fun {_ it} ↦ match it with
      | term _ => TermIterator.endLaw.back_next
      | matchAll _ => MatchAllIterator.endLaw.back_next
      | conjunction _ => (ConjunctionIterator.endLaw E).back_next
      | disjunction _ => (DisjunctionIterator.endLaw L).back_next)
    (fun {_ it _} ↦ match it with
      | term _ => TermIterator.endLaw.back_advance
      | matchAll _ => MatchAllIterator.endLaw.back_advance
      | conjunction _ => (ConjunctionIterator.endLaw E).back_advance
      | disjunction _ => (DisjunctionIterator.endLaw L).back_advance)
    (fun {it} ↦ match it with
      | term _ => TermIterator.endLaw.docId_of_spent
      | matchAll _ => MatchAllIterator.endLaw.docId_of_spent
      | conjunction _ => (ConjunctionIterator.endLaw E).docId_of_spent
      | disjunction _ => (DisjunctionIterator.endLaw L).docId_of_spent)
    (fun {it _} ↦ match it with
      | term _ => TermIterator.endLaw.spent_advance
      | matchAll _ => MatchAllIterator.endLaw.spent_advance
      | conjunction _ => (ConjunctionIterator.endLaw E).spent_advance
      | disjunction _ => (DisjunctionIterator.endLaw L).spent_advance)
    (fun {_ it} ↦ match it with
      | term _ => TermIterator.endLaw.next_spent
      | matchAll _ => MatchAllIterator.endLaw.next_spent
      | conjunction _ => (ConjunctionIterator.endLaw E).next_spent
      | disjunction _ => (DisjunctionIterator.endLaw L).next_spent)
    (fun {_ it _} ↦ match it with
      | term _ => TermIterator.endLaw.advance_fwd
      | matchAll _ => MatchAllIterator.endLaw.advance_fwd
      | conjunction _ => (ConjunctionIterator.endLaw E).advance_fwd
      | disjunction _ => (DisjunctionIterator.endLaw L).advance_fwd)
    (fun {_ it _ _} ↦ match it with
      | term _ => TermIterator.endLaw.advance_le
      | matchAll _ => MatchAllIterator.endLaw.advance_le
      | conjunction _ => (ConjunctionIterator.endLaw E).advance_le
      | disjunction _ => (DisjunctionIterator.endLaw L).advance_le)
    (fun {_ it} ↦ match it with
      | term _ => TermIterator.endLaw.return_of_back
      | matchAll _ => MatchAllIterator.endLaw.return_of_back
      | conjunction _ => (ConjunctionIterator.endLaw E).return_of_back
      | disjunction _ => (DisjunctionIterator.endLaw L).return_of_back)

end Virtual

/-- The ends at a depth. -/
def endLaw : (n : ℕ) → @EndLaw Iter (dispatch n) (law n)
  | 0 => @EndLaw.mk Iter (dispatch 0) (law 0) (fun _ ↦ False) (fun _ ↦ False) False.elim
    (fun h _ ↦ h.elim) False.elim (fun h _ ↦ h.elim) False.elim False.elim False.elim False.elim
  | n + 1 => virtualEndLaw (endLaw n)

theorem back_iff_ledBack (n : ℕ) : ∀ {it : Iter},
    @EndLaw.Back Iter (dispatch n) (law n) (endLaw n) it ↔ LedBack n it := by
  induction n with
  | zero => exact Iff.rfl
  | succ n ih =>
    intro it
    cases it with
    | term | matchAll | disjunction => exact Iff.rfl
    | conjunction it => exact exists_congr fun c ↦ and_congr_right fun _ ↦ ih

end Iter

/-! ### One call -/

/-- What a run returns. -/
def returned (n : ℕ) : Iter → List Call → List ℕ
  | _, [] => []
  | it, c :: calls => (c.on n it).1 :: returned n (c.on n it).2 calls

/-- Once a call has found nothing, no later one finds anything. -/
def EndsForGood (n : ℕ) (it : Iter) : Prop :=
  ∀ calls, (returned n it calls).Pairwise fun d d' ↦ d = kNoMoreDocs → d' = kNoMoreDocs

variable {n : ℕ} {S : Set ℕ} {it : Iter} {last : Option ℕ}

/-- A term, or a conjunction that is not led by a `MatchAllIterator`. -/
def StaysAtEnd (n : ℕ) (it : Iter) : Prop :=
  (it.operator = .term ∨ it.operator = .conjunction) ∧ ¬it.LedBack n

/-- At the end, where neither call finds anything. -/
def AtEnd (n : ℕ) (it : Iter) : Prop :=
  (it.operator = .term ∨ it.operator = .conjunction) ∧
    @EndLaw.Spent Iter (Iter.dispatch n) (Iter.law n) (Iter.endLaw n) it

theorem AtEnd.on (h : AtEnd (n + 1) it) (c : Call) :
    (c.on (n + 1) it).1 = kNoMoreDocs ∧ AtEnd (n + 1) (c.on (n + 1) it).2 := by
  obtain ⟨hop, hspent⟩ := h
  have hop' := operator_on (n + 1) it c
  suffices h : (c.on (n + 1) it).1 = kNoMoreDocs ∧
      @EndLaw.Spent Iter (Iter.dispatch (n + 1)) (Iter.law (n + 1)) (Iter.endLaw (n + 1))
        (c.on (n + 1) it).2 from ⟨h.1, hop' ▸ hop, h.2⟩
  cases c with
  | advance t =>
    exact @EndLaw.spent_advance Iter (Iter.dispatch (n + 1)) _ (Iter.endLaw (n + 1)) it t.toNat
      hspent (Call.target_le t)
  | next =>
    cases it with
    | term it => exact TermIterator.Done.next hspent
    | conjunction it =>
      exact @ConjunctionIterator.SpentOver.next Iter (Iter.dispatch n) (Iter.law n) (Iter.endLaw n)
        it hspent
    | matchAll | disjunction => rcases hop with hop | hop <;> cases hop

theorem AtEnd.returned (calls : List Call) : ∀ {it : Iter}, AtEnd (n + 1) it →
    ∀ d ∈ returned (n + 1) it calls, d = kNoMoreDocs := by
  induction calls with
  | nil => exact fun _ _ hd ↦ absurd hd List.not_mem_nil
  | cons c calls ih =>
    intro it h d hd
    obtain ⟨hend, hrest⟩ := h.on c
    rcases List.mem_cons.1 hd with rfl | hd
    · exact hend
    · exact ih hrest d hd

theorem Held.staysAtEnd_on (h : Held n S it last) (hstay : StaysAtEnd n it) (c : Call) :
    StaysAtEnd n (c.on n it).2 := by
  refine ⟨operator_on n it c ▸ hstay.1, fun hback ↦ hstay.2 ?_⟩
  rw [← Iter.back_iff_ledBack] at hback ⊢
  cases c with
  | next => exact (@EndLaw.back_next Iter (Iter.dispatch n) _ (Iter.endLaw n) S it h.sound).1 hback
  | advance t =>
    exact (@EndLaw.back_advance Iter (Iter.dispatch n) _ (Iter.endLaw n) S it t.toNat h.sound
      (Call.target_le t)).1 hback

/-- A new conjunction that is not over the empty set ends at its end. -/
theorem spent_advance_of_fresh {it : ConjunctionIterator Iter}
    (h : Held (n + 1) S (.conjunction it) none) (hne : S.Nonempty)
    (hback : ¬(Iter.conjunction it).LedBack (n + 1)) (t : UInt32)
    (hend : (@ConjunctionIterator.advance Iter (Iter.dispatch n) it t.toNat).1 = kNoMoreDocs) :
    @ConjunctionIterator.SpentOver Iter (Iter.dispatch n) (Iter.law n) (Iter.endLaw n)
      (@ConjunctionIterator.advance Iter (Iter.dispatch n) it t.toNat).2 := by
  let _ := Iter.dispatch n
  rw [← Iter.back_iff_ledBack] at hback
  obtain ⟨Ss, rfl, hfresh⟩ := h
  obtain ⟨front, others, T, Ts, hc, rfl, -⟩ := hfresh.sound.cons
  have hprimed := hfresh.primed.resolve_left hne.ne_empty
  rw [hc] at hprimed
  have hat := (List.forall₂_cons.1 hprimed).1.1
  have ht := Call.target_le t
  have hseeks := ConjunctionIterator.seeks_advance hfresh.sound ht (Or.inr hfresh.current)
  refine hseeks.spentOver hfresh.sound hback ht (fun c hmem ↦ ?_) hend (hfresh.advance ht).1
  rw [hc] at hmem
  cases hmem
  exact hat

/-- **The first call that finds nothing** leaves the tree at its end. -/
theorem Held.atEnd_on (h : Held (n + 1) S it last) (hne : S.Nonempty)
    (hstay : StaysAtEnd (n + 1) it) (c : Call) (hend : (c.on (n + 1) it).1 = kNoMoreDocs) :
    AtEnd (n + 1) (c.on (n + 1) it).2 := by
  refine ⟨operator_on (n + 1) it c ▸ hstay.1, ?_⟩
  obtain ⟨hop, hback⟩ := hstay
  have hback' := hback
  rw [← Iter.back_iff_ledBack] at hback'
  cases last with
  | some d =>
    obtain ⟨hat, -⟩ := h
    cases c with
    | next =>
      exact @EndLaw.next_spent Iter (Iter.dispatch (n + 1)) _ (Iter.endLaw (n + 1)) S it hat hback'
        hend
    | advance t =>
      exact (@EndLaw.advance_fwd Iter (Iter.dispatch (n + 1)) _ (Iter.endLaw (n + 1)) S it t.toNat
        hat hback' (Call.target_le t)).2.2 hend
  | none =>
    cases c with
    | next =>
      obtain ⟨x, hx⟩ := hne
      have hseek := h.next.1
      rw [hend] at hseek
      exact absurd ((Seek.top_iff h.lt).1 hseek x hx) (Nat.not_lt_zero x)
    | advance t =>
      cases it with
      | matchAll | disjunction => rcases hop with hop | hop <;> cases hop
      | conjunction it =>
        rw [on_advance_conjunction] at hend ⊢
        exact spent_advance_of_fresh h hne hback t hend
      | term it =>
        obtain ⟨hstart, -, pl, hover, -⟩ : TermIterator.Fresh S it := h
        exact TermIterator.done_of_advance hover (Or.inr hstart) hend

/-! ### Trees that stay at their end -/

theorem Held.endsForGood (calls : List Call) (hne : S.Nonempty) : ∀ {it : Iter}
    {last : Option ℕ}, Held (n + 1) S it last → StaysAtEnd (n + 1) it →
    (returned (n + 1) it calls).Pairwise fun d d' ↦ d = kNoMoreDocs → d' = kNoMoreDocs := by
  induction calls with
  | nil => exact fun _ _ ↦ .nil
  | cons c calls ih =>
    intro it last h hstay
    refine List.pairwise_cons.2 ⟨fun d hd hend ↦ ?_, ?_⟩
    · exact (h.atEnd_on hne hstay c hend).returned calls d hd
    · by_cases hend : (c.on (n + 1) it).1 = kNoMoreDocs
      · have hall := (h.atEnd_on hne hstay c hend).returned calls
        exact List.pairwise_of_forall_mem_list fun d _ d' hd' _ ↦ hall d' hd'
      · exact ih ((h.on c).2 hend) (h.staysAtEnd_on hstay c)

/-- Over no document, nothing is ever found. -/
theorem returned_of_empty (calls : List Call) : ∀ {it : Iter},
    @SeekLaw.Sound Iter (Iter.dispatch n) (Iter.law n) ∅ it →
      ∀ d ∈ returned n it calls, d = kNoMoreDocs := by
  induction calls with
  | nil => exact fun _ _ hd ↦ absurd hd List.not_mem_nil
  | cons c calls ih =>
    intro it h d hd
    let _ := Iter.dispatch n
    have hres : @SeekLaw.Sound Iter (Iter.dispatch n) (Iter.law n) ∅ (c.on n it).2 ∧
        (c.on n it).1 = kNoMoreDocs := by
      cases c with
      | next => exact ⟨((Iter.law n).sound_next h).1, ((Iter.law n).next_mem h).resolve_left id⟩
      | advance t =>
        have ht := Call.target_le t
        exact ⟨((Iter.law n).sound_advance h ht).1,
          ((Iter.law n).advance_mem h ht).resolve_left id⟩
    rcases List.mem_cons.1 hd with rfl | hd
    · exact hres.2
    · exact ih hres.1 d hd

/-! ### Trees that start again -/

theorem not_endsForGood {calls : List Call} {d d' : ℕ} {pre post : List ℕ}
    (h : returned n it calls = pre ++ d :: post) (hd : d = kNoMoreDocs) (hmem : d' ∈ post)
    (hd' : d' ≠ kNoMoreDocs) : ¬EndsForGood n it := by
  intro hgood
  have hpair := hgood calls
  rw [h] at hpair
  exact hd' ((List.pairwise_cons.1 (List.pairwise_append.1 hpair).2.1).1 d' hmem hd)

/-- A tree that is as new after a call that found nothing. -/
theorem not_endsForGood_of_fresh (c : Call) (h : Held n S (c.on n it).2 none)
    (hend : (c.on n it).1 = kNoMoreDocs) (hne : S.Nonempty) : ¬EndsForGood n it := by
  obtain ⟨x, hx⟩ := hne
  have hle : (Call.next.on n (c.on n it).2).1 ≤ x := h.next.1.le_of_mem hx (Nat.zero_le x)
  have hreturned : returned n it [c, .next] =
      [] ++ (c.on n it).1 :: [(Call.next.on n (c.on n it).2).1] := rfl
  exact not_endsForGood hreturned hend List.mem_cons_self (hle.trans_lt (h.lt x hx)).ne

/-- A `MatchAllIterator` sent past its end before it was started was not started. -/
theorem not_endsForGood_matchAll {it : MatchAllIterator}
    (h : Held (n + 1) S (.matchAll it) none) (hne : S.Nonempty) :
    ¬EndsForGood (n + 1) (.matchAll it) := by
  obtain ⟨hsound, hstart, -⟩ : MatchAllIterator.law.Fresh S it := h
  have hadvance : it.advance kNoMoreDocs = it.exhausted := if_pos hsound.2.1
  have hon : (Call.advance 4294967295).on (n + 1) (.matchAll it) =
      (kNoMoreDocs, .matchAll it.exhausted.2) :=
    congrArg (Prod.map id Iter.matchAll) hadvance
  refine not_endsForGood_of_fresh (.advance 4294967295) ?_ (by rw [hon]) hne
  rw [hon]
  exact ⟨MatchAllIterator.sound_exhausted hsound, hstart, rfl⟩

/-- A disjunction is not started by `Advance`. -/
theorem not_endsForGood_disjunction {it : DisjunctionIterator Iter}
    (h : Held (n + 1) S (.disjunction it) none) (hne : S.Nonempty) :
    ¬EndsForGood (n + 1) (.disjunction it) := by
  let _ := Iter.dispatch n
  obtain ⟨Ss, rfl, hfresh⟩ := h
  obtain ⟨hend, hfresh'⟩ := hfresh.advance (t := (0 : UInt32).toNat)
  exact not_endsForGood_of_fresh (.advance 0) ⟨Ss, rfl, hfresh'⟩ hend hne

/-- A conjunction led by a `MatchAllIterator` comes back from past its end. -/
theorem not_endsForGood_conjunction (hback : it.LedBack (n + 1))
    (h : Held (n + 1) S it none) (hne : S.Nonempty) : ¬EndsForGood (n + 1) it := by
  obtain ⟨x, hx⟩ := hne
  let _ := Iter.dispatch (n + 1)
  have hfirst : (Call.next.on (n + 1) it).1 ≠ kNoMoreDocs :=
    ((h.next.1.le_of_mem hx (Nat.zero_le x)).trans_lt (h.lt x hx)).ne
  have hat := h.next.2 hfirst
  rw [← Iter.back_iff_ledBack] at hback
  have hback' := ((Iter.endLaw (n + 1)).back_next h.sound).2 hback
  obtain ⟨hle, -⟩ := (Iter.endLaw (n + 1)).return_of_back hat hback'
  obtain ⟨-, -, hpast⟩ := (Iter.law (n + 1)).sound_advance ((Iter.law (n + 1)).sound_of_at hat)
    (Call.target_le 4294967295)
  have hmax := (Iter.law (n + 1)).advance_le ((Iter.law (n + 1)).sound_of_at hat)
    (Call.target_le 4294967295)
  have hlt := (Iter.law (n + 1)).docId_lt_of_at hat
  have hreturned : returned (n + 1) it [.next, .advance 4294967295, .advance 0] =
      [(Call.next.on (n + 1) it).1] ++
        ((Call.advance 4294967295).on (n + 1) (Call.next.on (n + 1) it).2).1 ::
          [((Call.advance 0).on (n + 1)
            ((Call.advance 4294967295).on (n + 1) (Call.next.on (n + 1) it).2).2).1] := rfl
  exact not_endsForGood hreturned (le_antisymm hmax hpast) List.mem_cons_self
    (hle.trans_lt hlt).ne

/-- **Exhaustion** is final exactly for the trees over no document, for terms, and for
conjunctions not led by a `MatchAllIterator`. -/
theorem final_iff [SortByKey] (seg : PostedSegment) (schema : Schema) (q : QueryAst) :
    EndsForGood q.depth (build seg.reader schema q) ↔
      matching seg schema q = ∅ ∨ StaysAtEnd q.depth (build seg.reader schema q) := by
  have hfresh : FreshAt q.depth (matching seg schema q) (build seg.reader schema q) :=
    fresh_build q
  obtain ⟨n, hn⟩ := q.depth_pos
  rw [hn] at hfresh ⊢
  generalize build seg.reader schema q = it at hfresh ⊢
  have hheld : Held (n + 1) (matching seg schema q) it none := hfresh
  constructor
  · refine fun hgood ↦ or_iff_not_imp_left.2 fun hempty ↦ by_contra fun hstay ↦ ?_
    have hne := Set.nonempty_iff_ne_empty.2 hempty
    cases it with
    | term it => exact hstay ⟨Or.inl rfl, id⟩
    | matchAll it => exact not_endsForGood_matchAll hheld hne hgood
    | disjunction it => exact not_endsForGood_disjunction hheld hne hgood
    | conjunction it =>
      have hback : (Iter.conjunction it).LedBack (n + 1) :=
        by_contra fun hback ↦ hstay ⟨Or.inr rfl, hback⟩
      exact not_endsForGood_conjunction hback hheld hne hgood
  · rintro hcond calls
    rcases Set.eq_empty_or_nonempty (matching seg schema q) with hempty | hne
    · have hsound := hheld.sound
      rw [hempty] at hsound
      exact List.pairwise_of_forall_mem_list fun _ _ d' hd' _ ↦
        returned_of_empty calls hsound d' hd'
    · exact hheld.endsForGood calls hne (hcond.resolve_left hne.ne_empty)

/-- A drained `MatchAllIterator` starts again at 0, where its sum wraps around. -/
theorem not_final :
    ¬EndsForGood QueryAst.matchAll.depth
      (@build mergeSortByKey twoDocsSegment.reader sampleSchema .matchAll) := by
  intro h
  have hpair := h [.next, .next, .next, .next]
  have hreturned : returned QueryAst.matchAll.depth
      (@build mergeSortByKey twoDocsSegment.reader sampleSchema .matchAll)
      [.next, .next, .next, .next] = [0, 1, kNoMoreDocs, 0] := by decide
  rw [hreturned] at hpair
  exact absurd hpair (by decide)

end Spp.Query
