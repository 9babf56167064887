import SearchPlusPlus.Query.Build

/-!
# Runs of an iterator

A run is any list of `Next` and `Advance` calls on a newly built tree. `LawfulFrom` says that the
calls seek, up to the first that finds nothing. What a tree does is decided at its root, since
below the root the operators call their children as these need it (`Query.SeekLaw`): a
`MatchAllIterator` goes back when it is told to, and a disjunction ignores an `Advance` that comes
first.
-/

namespace Spp.Query

open Index

/-- A call of the interface. -/
inductive Call where
  | next
  | advance (target : UInt32)
  deriving DecidableEq

namespace Call

/-- The call on a tree, at a depth. -/
def on (n : ℕ) (it : Iter) : Call → ℕ × Iter
  | next => (Iter.dispatch n).next it
  | advance target => (Iter.dispatch n).advance it target.toNat

/-- Where a call has to look from, after the last document returned. -/
def bound : Option ℕ → Call → ℕ
  | none, next => 0
  | some d, next => d + 1
  | none, advance target => target.toNat
  | some d, advance target => max d target.toNat

theorem target_le (target : UInt32) : target.toNat ≤ kNoMoreDocs :=
  Nat.le_of_lt_succ target.toNat_lt

end Call

/-- The operator at the root of a tree. -/
inductive Operator where
  | term
  | matchAll
  | conjunction
  | disjunction
  deriving DecidableEq

/-- The operator at the root. -/
def Iter.operator : Iter → Operator
  | term _ => .term
  | matchAll _ => .matchAll
  | conjunction _ => .conjunction
  | disjunction _ => .disjunction

variable {S : Set ℕ}

/-- The calls of a run seek in `S`, and `DocId_` is what the last one returned, as long as there
was something to return. -/
def LawfulFrom (n : ℕ) (S : Set ℕ) : Option ℕ → Iter → List Call → Prop
  | _, _, [] => True
  | last, it, c :: calls =>
    let res := c.on n it
    Seek kNoMoreDocs S (c.bound last) res.1 ∧ (Iter.dispatch n).docId res.2 = res.1 ∧
      (res.1 ≠ kNoMoreDocs → LawfulFrom n S (some res.1) res.2 calls)

/-- The calls an operator answers by the law: a `MatchAllIterator` is not sent back, and a
disjunction is not started by an `Advance` to a document it has or to one before. -/
def Operator.Allows (S : Set ℕ) : Operator → Option ℕ → Call → Prop
  | .matchAll, some d, .advance target => d ≤ target.toNat
  | .disjunction, none, .advance target => ∀ x ∈ S, x < target.toNat
  | _, _, _ => True

/-- The calls of a run are allowed, where the documents in between are those the law asks for. -/
def Operator.AllowsFrom (op : Operator) (S : Set ℕ) : Option ℕ → List Call → Prop
  | _, [] => True
  | last, c :: calls => op.Allows S last c ∧
      ∀ d, Seek kNoMoreDocs S (c.bound last) d → d ≠ kNoMoreDocs → op.AllowsFrom S (some d) calls

/-! ### One call -/

/-- A tree in the middle of a run, after the last document returned. -/
def Held (n : ℕ) (S : Set ℕ) (it : Iter) : Option ℕ → Prop
  | none => FreshAt n S it
  | some d => @SeekLaw.At Iter (Iter.dispatch n) (Iter.law n) S it ∧ (Iter.dispatch n).docId it = d

variable {n : ℕ} {last : Option ℕ} {it : Iter}

theorem Held.sound (h : Held n S it last) :
    @SeekLaw.Sound Iter (Iter.dispatch n) (Iter.law n) S it := by
  let _ := Iter.dispatch n
  cases last with
  | none => exact (Iter.law n).sound_of_fresh h
  | some d => exact (Iter.law n).sound_of_at h.1

theorem Held.lt (h : Held n S it last) : ∀ x ∈ S, x < kNoMoreDocs := by
  let _ := Iter.dispatch n
  exact (Iter.law n).lt_of_sound h.sound

/-- After a call `DocId_` is what it returned. -/
theorem Held.docId (h : Held n S it last) (c : Call) :
    (Iter.dispatch n).docId (c.on n it).2 = (c.on n it).1 := by
  let _ := Iter.dispatch n
  cases c with
  | next => exact ((Iter.law n).sound_next h.sound).2
  | advance target => exact ((Iter.law n).sound_advance h.sound (Call.target_le target)).2.1

/-- The operator at the root stays. -/
theorem operator_on (n : ℕ) (it : Iter) (c : Call) : (c.on n it).2.operator = it.operator := by
  cases n with
  | zero => cases c <;> rfl
  | succ n => cases c <;> cases it <;> rfl

/-- `Next` follows the law in every tree. -/
theorem Held.next (h : Held n S it last) :
    Seek kNoMoreDocs S (Call.next.bound last) (Call.next.on n it).1 ∧
      ((Call.next.on n it).1 ≠ kNoMoreDocs →
        @SeekLaw.At Iter (Iter.dispatch n) (Iter.law n) S (Call.next.on n it).2) := by
  let _ := Iter.dispatch n
  cases last with
  | none => exact (Iter.law n).next_of_fresh h
  | some d =>
    obtain ⟨hat, rfl⟩ := h
    exact (Iter.law n).next_of_at hat

theorem on_advance_conjunction (n : ℕ) (it : ConjunctionIterator Iter) (t : UInt32) :
    (Call.advance t).on (n + 1) (.conjunction it) =
      (@ConjunctionIterator.advance Iter (Iter.dispatch n) it t.toNat).map id .conjunction := rfl

/-- `Advance` finds the next document of terms and conjunctions, from the last one on. -/
theorem Held.advance_term {it : TermIterator} (h : Held (n + 1) S (.term it) last) (t : UInt32) :
    Seek kNoMoreDocs S ((Call.advance t).bound last) (it.advance t.toNat).1 ∧
      ((it.advance t.toNat).1 ≠ kNoMoreDocs → TermIterator.At S (it.advance t.toNat).2) := by
  cases last with
  | none =>
    have hlt := h.lt
    obtain ⟨hstart, -, pl, hover, hS⟩ : TermIterator.Fresh S it := h
    have hfrom := TermIterator.advance_from (b := 0) (t := t.toNat) hover hlt
      (fun x ↦ by simp [hS]) (Or.inr hstart)
    rwa [max_eq_right (Nat.zero_le _)] at hfrom
  | some d =>
    obtain ⟨hat, rfl⟩ := h
    exact TermIterator.advance_of_at hat

theorem Held.advance_conjunction {it : ConjunctionIterator Iter}
    (h : Held (n + 1) S (.conjunction it) last) (t : UInt32) :
    Seek kNoMoreDocs S ((Call.advance t).bound last)
        ((Call.advance t).on (n + 1) (.conjunction it)).1 ∧
      (((Call.advance t).on (n + 1) (.conjunction it)).1 ≠ kNoMoreDocs →
        @SeekLaw.At Iter (Iter.dispatch (n + 1)) (Iter.law (n + 1)) S
          ((Call.advance t).on (n + 1) (.conjunction it)).2) := by
  let _ := Iter.dispatch n
  rw [on_advance_conjunction, Prod.map_fst, Prod.map_snd]
  cases last with
  | none =>
    obtain ⟨Ss, rfl, hfresh⟩ := h
    obtain ⟨hseek, hat⟩ := hfresh.advance (Call.target_le t)
    exact ⟨hseek, fun hne ↦ ⟨Ss, rfl, hat hne⟩⟩
  | some d =>
    obtain ⟨⟨Ss, rfl, hover⟩, rfl⟩ := h
    obtain ⟨hseek, hat⟩ := hover.advance (Call.target_le t)
    exact ⟨hseek, fun hne ↦ ⟨Ss, rfl, hat hne⟩⟩

/-- A `MatchAllIterator` goes where it is told, also back. -/
theorem Held.advance_matchAll {it : MatchAllIterator} (h : Held (n + 1) S (.matchAll it) last)
    (t : UInt32) :
    (Seek kNoMoreDocs S ((Call.advance t).bound last) (it.advance t.toNat).1 ↔
        Operator.matchAll.Allows S last (.advance t)) ∧
      ((it.advance t.toNat).1 ≠ kNoMoreDocs → MatchAllIterator.At S (it.advance t.toNat).2) := by
  have hsound : MatchAllIterator.Sound S it := h.sound
  obtain ⟨hseek, hat⟩ := MatchAllIterator.seek_advance (t := t.toNat) hsound
  refine ⟨?_, hat⟩
  cases last with
  | none => exact ⟨fun _ ↦ trivial, fun _ ↦ hseek⟩
  | some d =>
    obtain ⟨⟨-, -, hcur⟩, rfl⟩ := h
    show Seek kNoMoreDocs S (max it.current t.toNat) _ ↔ it.current ≤ t.toNat
    constructor
    · intro hmax
      have hle := hmax.le (max_le (hcur.le.trans hsound.2.1) (Call.target_le t))
      rw [MatchAllIterator.advance] at hle
      split_ifs at hle with hend
      · exact hcur.le.trans hend
      · exact (le_max_left _ _).trans hle
    · intro hle
      rwa [max_eq_right hle]

/-- A disjunction answers once it was started. -/
theorem Held.advance_disjunction {it : DisjunctionIterator Iter}
    (h : Held (n + 1) S (.disjunction it) last) (t : UInt32) :
    (Seek kNoMoreDocs S ((Call.advance t).bound last)
          ((Call.advance t).on (n + 1) (.disjunction it)).1 ↔
        Operator.disjunction.Allows S last (.advance t)) ∧
      (((Call.advance t).on (n + 1) (.disjunction it)).1 ≠ kNoMoreDocs →
        @SeekLaw.At Iter (Iter.dispatch (n + 1)) (Iter.law (n + 1)) S
          ((Call.advance t).on (n + 1) (.disjunction it)).2) := by
  have hlt := h.lt
  let _ := Iter.dispatch n
  cases last with
  | none =>
    obtain ⟨Ss, rfl, hfresh⟩ := h
    have hend : ((Call.advance t).on (n + 1) (.disjunction it)).1 = kNoMoreDocs :=
      hfresh.advance.1
    rw [hend]
    exact ⟨Seek.top_iff hlt, fun hne ↦ absurd rfl hne⟩
  | some d =>
    obtain ⟨⟨Ss, rfl, hover⟩, rfl⟩ := h
    obtain ⟨hseek, hat⟩ := hover.advance (Call.target_le t)
    exact ⟨⟨fun _ ↦ trivial, fun _ ↦ hseek⟩, fun hne ↦ ⟨Ss, rfl, hat hne⟩⟩

/-- **One call**: it seeks when it is allowed, and the tree is in the middle of a run after it. -/
theorem Held.on (h : Held (n + 1) S it last) (c : Call) :
    (Seek kNoMoreDocs S (c.bound last) (c.on (n + 1) it).1 ↔ it.operator.Allows S last c) ∧
      ((c.on (n + 1) it).1 ≠ kNoMoreDocs →
        Held (n + 1) S (c.on (n + 1) it).2 (some (c.on (n + 1) it).1)) := by
  have hdoc := h.docId c
  cases c with
  | next =>
    have hallows : it.operator.Allows S last .next := by cases it <;> cases last <;> trivial
    exact ⟨⟨fun _ ↦ hallows, fun _ ↦ h.next.1⟩, fun hne ↦ ⟨h.next.2 hne, hdoc⟩⟩
  | advance t =>
    cases it with
    | term it =>
      obtain ⟨hseek, hat⟩ := h.advance_term t
      have hallows : Operator.term.Allows S last (.advance t) := by cases last <;> trivial
      exact ⟨⟨fun _ ↦ hallows, fun _ ↦ hseek⟩, fun hne ↦ ⟨hat hne, hdoc⟩⟩
    | matchAll it =>
      obtain ⟨hiff, hat⟩ := h.advance_matchAll t
      exact ⟨hiff, fun hne ↦ ⟨hat hne, hdoc⟩⟩
    | conjunction it =>
      obtain ⟨hseek, hat⟩ := h.advance_conjunction t
      have hallows : Operator.conjunction.Allows S last (.advance t) := by cases last <;> trivial
      exact ⟨⟨fun _ ↦ hallows, fun _ ↦ hseek⟩, fun hne ↦ ⟨hat hne, hdoc⟩⟩
    | disjunction it =>
      obtain ⟨hiff, hat⟩ := h.advance_disjunction t
      exact ⟨hiff, fun hne ↦ ⟨hat hne, hdoc⟩⟩

/-! ### Runs -/

/-- A run follows the law exactly when its calls are allowed. -/
theorem Held.lawfulFrom_iff {n : ℕ} (calls : List Call) : ∀ {it : Iter} {last : Option ℕ},
    Held (n + 1) S it last →
      (LawfulFrom (n + 1) S last it calls ↔ it.operator.AllowsFrom S last calls) := by
  induction calls with
  | nil => exact fun _ ↦ Iff.rfl
  | cons c calls ih =>
    intro it last h
    obtain ⟨hiff, hheld⟩ := h.on c
    rw [LawfulFrom, Operator.AllowsFrom, hiff]
    refine and_congr_right fun hallows ↦ ?_
    have hseek := hiff.2 hallows
    rw [← operator_on (n + 1) it c]
    constructor
    · rintro ⟨-, hrest⟩ d hd hne
      obtain rfl := hseek.unique hd
      exact (ih (hheld hne)).1 (hrest hne)
    · exact fun hrest ↦ ⟨h.docId c, fun hne ↦ (ih (hheld hne)).2 (hrest _ hseek hne)⟩

theorem QueryAst.depth_pos (q : QueryAst) : ∃ n, q.depth = n + 1 := by
  cases q with
  | term | matchAll | conjunction | disjunction =>
    rw [depth]
    exact ⟨_, rfl⟩

/-- **The seek law**, for every tree and every run: it holds as long as a `MatchAllIterator` is
not sent back and a disjunction is started before it is asked for a document it has. -/
theorem seek_law [SortByKey] (seg : PostedSegment) (schema : Schema) (q : QueryAst)
    (calls : List Call) :
    LawfulFrom q.depth (matching seg schema q) none (build seg.reader schema q) calls ↔
      (build seg.reader schema q).operator.AllowsFrom (matching seg schema q) none calls := by
  have hfresh : FreshAt q.depth (matching seg schema q) (build seg.reader schema q) :=
    fresh_build q
  obtain ⟨n, hn⟩ := q.depth_pos
  rw [hn] at hfresh ⊢
  exact Held.lawfulFrom_iff calls hfresh

/-! ### Where it fails -/

/-- Sorting by merging. -/
@[reducible] def mergeSortByKey : SortByKey where
  sort key l := l.mergeSort fun a b ↦ key a ≤ key b
  perm key l := List.mergeSort_perm l _
  sorted key l := by
    refine (List.pairwise_mergeSort (fun a b c hab hbc ↦ ?_) (fun a b ↦ ?_) l).imp of_decide_eq_true
    · exact decide_eq_true ((of_decide_eq_true hab).trans (of_decide_eq_true hbc))
    · simpa using le_total (key a) (key b)

/-- Two documents in memory, without a term in common. -/
def twoDocs : MutableSegment :=
  @MutableSegment.build .integral sampleSchema [sampleDoc,
    { id := str "b", fields := SortedMap.empty.insert (str "t") (str "z") }]

theorem wellFormed_twoDocs : twoDocs.WellFormed :=
  @MutableSegment.build_wellFormed .integral sampleSchema _ (by decide)

theorem encodable_twoDocs : twoDocs.Encodable where
  names := by decide
  terms := by decide +kernel
  blobs := by decide +kernel
  tim := by decide +kernel
  doc := by decide +kernel
  fdt := by decide +kernel
  termCounts := by decide +kernel

/-- Their segment. -/
def twoDocsSegment : PostedSegment :=
  have hagrees : Agrees (twoDocs.sealedReader (str "seg") twoDocs.qualities) twoDocs :=
    agrees_sealedReader wellFormed_twoDocs encodable_twoDocs fun _ ↦ rfl
  .ofSealed hagrees wellFormed_twoDocs

/-- A `MatchAllIterator` at document 1 goes back to 0, and a disjunction of two of them that was
not started has nothing from 0 on. -/
theorem not_seek_law :
    ¬LawfulFrom QueryAst.matchAll.depth (matching twoDocsSegment sampleSchema .matchAll) none
        (@build mergeSortByKey twoDocsSegment.reader sampleSchema .matchAll)
        [.next, .next, .advance 0] ∧
      ¬LawfulFrom (QueryAst.disjunction [.matchAll, .matchAll]).depth
        (matching twoDocsSegment sampleSchema (.disjunction [.matchAll, .matchAll])) none
        (@build mergeSortByKey twoDocsSegment.reader sampleSchema
          (.disjunction [.matchAll, .matchAll])) [.advance 0] := by
  constructor
  · intro h
    obtain ⟨-, -, h⟩ := h.2.2 (by decide)
    have hle := (h (by decide)).1.le (by decide)
    exact absurd hle (by decide)
  · intro h
    have hmem : 0 ∈ matching twoDocsSegment sampleSchema (.disjunction [.matchAll, .matchAll]) :=
      ⟨matching twoDocsSegment sampleSchema .matchAll, List.mem_cons_self, by
        show 0 < 2
        decide⟩
    exact absurd (h.1.le_of_mem hmem (by decide)) (by decide)

end Spp.Query
