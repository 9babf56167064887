import SearchPlusPlus.Lib.Loop
import SearchPlusPlus.Query.Iterators

/-!
# Calls that may not return

The iterators once more, with the loops of the source as they are: without a number of rounds
(`loop`), and so as partial functions. A call of an operator has a value only if the calls it makes
on its children have one. The calls of a tree have none below the depth it is given.

The getters do not loop; they are those of `DocIdSetIterator`.
-/

namespace Spp.Query

open Index DocIdSetIterator

/-- The calls of the interface that loop. -/
structure PartialCalls (σ : Type) where
  next : σ → Part (ℕ × σ)
  advance : σ → ℕ → Part (ℕ × σ)

/-! ### Leaves -/

namespace TermIterator

/-- A round of the loop of `Advance`. -/
def advanceRound (target : ℕ) (it : TermIterator) :
    Part ((ℕ × TermIterator) ⊕ TermIterator) :=
  if it.current < target ∨ it.started = false then
    let (d, it) := it.next
    if d = kNoMoreDocs then .some (.inl (kNoMoreDocs, it))
    else if target ≤ d then .some (.inl (d, it))
    else .some (.inr it)
  else .some (.inl (it.current, it))

/-- `TermIterator`. -/
noncomputable def partialCalls : PartialCalls TermIterator where
  next it := .some it.next
  advance it target := loop (advanceRound target) it

end TermIterator

/-- `MatchAllIterator`: nothing loops. -/
def MatchAllIterator.partialCalls : PartialCalls MatchAllIterator where
  next it := .some it.next
  advance it target := .some (it.advance target)

namespace PartialCalls

variable {σ : Type} [DocIdSetIterator σ] (calls : PartialCalls σ)

/-! ### Conjunctions -/

/-- The loop over the children after the first. -/
def follow (candidate : ℕ) : List σ → Part (Option ℕ × List σ)
  | [] => .some (some candidate, [])
  | c :: cs => do
    let (d, c) ← calls.advance c candidate
    if d = kNoMoreDocs then .some (none, c :: cs)
    else if d ≠ candidate then .some (some d, c :: cs)
    else do
      let (r, cs) ← follow candidate cs
      .some (r, c :: cs)

/-- A round of the loop of `ConjunctionIterator::Next`, at a target. -/
def leapRound (s : ConjunctionIterator σ × ℕ) :
    Part ((ℕ × ConjunctionIterator σ) ⊕ (ConjunctionIterator σ × ℕ)) :=
  match s.1.children with
  | [] => .some (.inl (s.1.found s.2))
  | front :: others => do
    let (r, others) ← calls.follow s.2 others
    match r with
    | none => .some (.inl { s.1 with children := front :: others }.exhausted)
    | some candidate =>
      if candidate = s.2 then
        .some (.inl ({ s.1 with children := front :: others }.found candidate))
      else do
        let (d0, front) ← calls.advance front candidate
        let it := { s.1 with children := front :: others }
        if d0 = kNoMoreDocs then .some (.inl it.exhausted) else .some (.inr (it, d0))

/-- A round of the loop of `ConjunctionIterator::Advance`, at a target. -/
def seekRound (s : ConjunctionIterator σ × ℕ) :
    Part ((ℕ × ConjunctionIterator σ) ⊕ (ConjunctionIterator σ × ℕ)) :=
  if s.1.current < s.2 ∨ s.1.current = kNoMoreDocs then
    match s.1.children with
    | [] => .some (.inl (kNoMoreDocs, s.1))
    | front :: others => do
      let (d, front) ← calls.advance front s.2
      if d = kNoMoreDocs then .some (.inl { s.1 with children := front :: others }.exhausted)
      else do
        let (r, others) ← calls.follow d others
        match r with
        | none => .some (.inl { s.1 with children := front :: others }.exhausted)
        | some candidate =>
          let it := { s.1 with children := front :: others }
          if candidate = d then .some (.inl (it.found candidate))
          else .some (.inr (it, candidate))
  else .some (.inl (s.1.current, s.1))

/-- `ConjunctionIterator`. -/
noncomputable def conjunction : PartialCalls (ConjunctionIterator σ) where
  next it :=
    match it.children with
    | [] => .some it.exhausted
    | front :: others =>
      if it.current = kNoMoreDocs then loop calls.leapRound (it, docId front)
      else do
        let (target, front) ← calls.next front
        let it := { it with children := front :: others }
        if target = kNoMoreDocs then .some it.exhausted else loop calls.leapRound (it, target)
  advance it target := loop calls.seekRound (it, target)

/-! ### Disjunctions -/

/-- A round of the first loop of `NextAfter`. -/
def passChild (after : ℕ) (c : σ) : Part σ :=
  if docId c = kNoMoreDocs ∨ after = kNoMoreDocs then .some c
  else if docId c ≤ after then (calls.next c).map Prod.snd else .some c

/-- A round of the loop of `DisjunctionIterator::Next` that starts the children. -/
def startChild (c : σ) : Part σ :=
  if docId c = kNoMoreDocs then (calls.next c).map Prod.snd else .some c

/-- A round of the first loop of `DisjunctionIterator::Advance`. -/
def advanceChild (target : ℕ) (c : σ) : Part σ :=
  if docId c ≠ kNoMoreDocs ∧ docId c < target then (calls.advance c target).map Prod.snd
  else .some c

/-- `DisjunctionIterator`. -/
def disjunction : PartialCalls (DisjunctionIterator σ) where
  next it :=
    if it.current = kNoMoreDocs then
      if it.children.any fun c ↦ docId c = kNoMoreDocs then do
        let children ← it.children.mapM calls.startChild
        .some ({ it with children }.settle fun _ ↦ false)
      else .some (it.current, it)
    else do
      let children ← it.children.mapM (calls.passChild it.current)
      let d := DisjunctionIterator.best
        (fun d ↦ it.current ≠ kNoMoreDocs && d ≤ it.current) kNoMoreDocs true children
      let totalFreq := if d = kNoMoreDocs then 0 else DisjunctionIterator.freqAt d children
      .some (d, { children, current := d, totalFreq })
  advance it target := do
    let children ← it.children.mapM (calls.advanceChild target)
    .some ({ it with children }.settle fun d ↦ d < target)

/-! ### Runs of `Next` -/

/-- A round of a loop that calls `Next` until there are no more documents. -/
def drainRound (s : List ℕ × σ) : Part (List ℕ ⊕ (List ℕ × σ)) := do
  let (d, it) ← calls.next s.2
  if d = kNoMoreDocs then .some (.inl s.1) else .some (.inr (s.1 ++ [d], it))

/-- The documents of the loop. -/
noncomputable def drain (it : σ) : Part (List ℕ) := loop calls.drainRound ([], it)

end PartialCalls

/-! ### Trees -/

namespace Iter

/-- The virtual calls, given those of the children. -/
noncomputable def virtualCalls (below : DocIdSetIterator Iter) (calls : PartialCalls Iter) :
    PartialCalls Iter where
  next
    | term it => (TermIterator.partialCalls.next it).map (Prod.map id term)
    | matchAll it => (MatchAllIterator.partialCalls.next it).map (Prod.map id matchAll)
    | conjunction it => ((@PartialCalls.conjunction Iter below calls).next it).map
        (Prod.map id conjunction)
    | disjunction it => ((@PartialCalls.disjunction Iter below calls).next it).map
        (Prod.map id disjunction)
  advance
    | term it, target => (TermIterator.partialCalls.advance it target).map (Prod.map id term)
    | matchAll it, target =>
      (MatchAllIterator.partialCalls.advance it target).map (Prod.map id matchAll)
    | conjunction it, target => ((@PartialCalls.conjunction Iter below calls).advance it target).map
        (Prod.map id conjunction)
    | disjunction it, target => ((@PartialCalls.disjunction Iter below calls).advance it target).map
        (Prod.map id disjunction)

/-- The virtual calls in trees of depth up to `n`; none below that depth has a value. -/
noncomputable def partialDispatch : ℕ → PartialCalls Iter
  | 0 => ⟨fun _ ↦ .none, fun _ _ ↦ .none⟩
  | n + 1 => virtualCalls (dispatch n) (partialDispatch n)

end Iter

end Spp.Query
