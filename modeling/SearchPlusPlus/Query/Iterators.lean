import SearchPlusPlus.Index.SegmentInfo
import SearchPlusPlus.Store.VarByte

/-!
# Doc-id set iterators

`TermIterator`, `ConjunctionIterator`, `DisjunctionIterator` and `MatchAllIterator`. A call
returns the document and the iterator it leaves. The two composite operators are written over any
type of children that has the interface, and `Iter` is the tree of all four: `dispatch n` makes
the virtual calls in trees of depth up to `n`.

The loops are given rounds: one more than there are postings left for `TermIterator::Advance`,
and one for each document id for the leapfrog, whose target grows in every round.
-/

namespace Spp.Query

open Index Store

/-- `DocIdSetIterator`. -/
class DocIdSetIterator (σ : Type) where
  next : σ → ℕ × σ
  advance : σ → ℕ → ℕ × σ
  docId : σ → ℕ
  cost : σ → ℤ
  freq : σ → UInt32

/-- `std::sort` by an integer key: some sorted permutation. -/
class SortByKey where
  sort : {α : Type} → (α → ℤ) → List α → List α
  perm : ∀ {α : Type} (key : α → ℤ) (l : List α), (sort key l).Perm l
  sorted : ∀ {α : Type} (key : α → ℤ) (l : List α),
    (sort key l).Pairwise fun a b ↦ key a ≤ key b

/-! ### TermIterator -/

/-- `TermIterator`; `rest` is what lies between `cursor_` and `end_`. -/
structure TermIterator where
  rest : Bytes
  remaining : UInt32
  df : UInt32
  totalTf : UInt64
  hasPositions : Bool := false
  hasTokenWeights : Bool := false
  current : ℕ := kNoMoreDocs
  prev : UInt32 := 0
  currentFreq : UInt32 := 0
  currentPos : UInt16 := kNoPosition
  currentWeight : F32 := F32.one
  started : Bool := false

namespace TermIterator

/-- The constructor: the count in the bytes wins over `df`. -/
def new (postingBytes : Bytes) (df : UInt32) (totalTf : UInt64) (hasPositions : Bool := false)
    (hasTokenWeights : Bool := false) : TermIterator :=
  let (count, rest) := decodeVarUint32 postingBytes
  let remaining := count.toOption.getD 0
  { rest
    remaining
    df := if remaining ≠ df then remaining else df
    totalTf
    hasPositions
    hasTokenWeights }

/-- `current_ = kNoMoreDocs; return current_`. -/
def exhausted (it : TermIterator) : ℕ × TermIterator :=
  (kNoMoreDocs, { it with current := kNoMoreDocs })

/-- The position of a posting, if it has one. -/
def readPosition (it : TermIterator) : Option TermIterator :=
  if it.hasPositions then
    match it.rest with
    | lo :: hi :: rest => some { it with rest, currentPos := lo.toUInt16 ||| (hi.toUInt16 <<< 8) }
    | _ => none
  else some { it with currentPos := kNoPosition }

/-- The weight of a posting, if it has one. -/
def readWeight (it : TermIterator) : Option TermIterator :=
  if it.hasTokenWeights then
    match it.rest with
    | q :: rest => some { it with rest, currentWeight := dequantizeTokenWeight q }
    | [] => none
  else some { it with currentWeight := F32.one }

/-- The end of `Next`, with the posting read. -/
def arrive (it : TermIterator) (delta : UInt32) : ℕ × TermIterator :=
  let d := if it.started then it.prev + delta else delta
  (d.toNat,
    { it with started := true, prev := d, remaining := it.remaining - 1, current := d.toNat })

/-- `Next`. -/
def next (it : TermIterator) : ℕ × TermIterator :=
  if it.remaining = 0 then it.exhausted
  else if it.rest = [] then it.exhausted
  else
    match decodeVarUint32 it.rest with
    | (.error _, rest) => { it with rest }.exhausted
    | (.ok delta, rest) =>
      match decodeVarUint32 rest with
      | (.error _, rest) => { it with rest }.exhausted
      | (.ok tf, rest) =>
        let it := { it with rest, currentFreq := tf }
        match it.readPosition with
        | none => it.exhausted
        | some it =>
          match it.readWeight with
          | none => it.exhausted
          | some it => it.arrive delta

/-- The loop of `Advance`. -/
def advanceLoop : ℕ → TermIterator → ℕ → ℕ × TermIterator
  | 0, it, _ => (it.current, it)
  | fuel + 1, it, target =>
    if it.current < target ∨ it.started = false then
      let (d, it) := it.next
      if d = kNoMoreDocs then (kNoMoreDocs, it)
      else if target ≤ d then (d, it)
      else advanceLoop fuel it target
    else (it.current, it)

/-- `Advance`: every round but the last reads a posting. -/
def advance (it : TermIterator) (target : ℕ) : ℕ × TermIterator :=
  advanceLoop (it.remaining.toNat + 1) it target

instance : DocIdSetIterator TermIterator where
  next := next
  advance := advance
  docId it := it.current
  cost it := it.df.toNat
  freq it := it.currentFreq

end TermIterator

/-! ### MatchAllIterator -/

/-- `MatchAllIterator`. -/
structure MatchAllIterator where
  docCount : ℕ
  current : ℕ := kNoMoreDocs
  started : Bool := false

namespace MatchAllIterator

/-- `current_ = kNoMoreDocs; return current_`. -/
def exhausted (it : MatchAllIterator) : ℕ × MatchAllIterator :=
  (kNoMoreDocs, { it with current := kNoMoreDocs })

/-- `Next`; `current_ + 1` is a 32-bit sum. -/
def next (it : MatchAllIterator) : ℕ × MatchAllIterator :=
  if it.started = false then
    let it := { it with started := true }
    if it.docCount = 0 then it.exhausted else (0, { it with current := 0 })
  else
    let following := (it.current + 1) % 4294967296
    if it.docCount ≤ following then it.exhausted else (following, { it with current := following })

/-- `Advance`. -/
def advance (it : MatchAllIterator) (target : ℕ) : ℕ × MatchAllIterator :=
  if it.docCount ≤ target then it.exhausted
  else (target, { it with started := true, current := target })

instance : DocIdSetIterator MatchAllIterator where
  next := next
  advance := advance
  docId it := it.current
  cost it := it.docCount
  freq _ := 0

end MatchAllIterator

section Composite

variable {σ : Type} [DocIdSetIterator σ]

open DocIdSetIterator

/-- The loop that adds up `Freq` over some of the children. -/
def sumFreq (children : List σ) : UInt32 := children.foldl (fun sum c ↦ sum + freq c) 0

/-! ### ConjunctionIterator -/

/-- `ConjunctionIterator`. -/
structure ConjunctionIterator (σ : Type) where
  children : List σ
  current : ℕ := kNoMoreDocs
  totalFreq : UInt32 := 0

namespace ConjunctionIterator

/-- The loop of the constructor: the first empty child ends it. -/
def prime : List σ → List σ
  | [] => []
  | c :: cs =>
    let (d, c) := next c
    if d = kNoMoreDocs then c :: cs else c :: prime cs

/-- The constructor. -/
def new [SortByKey] (children : List σ) : ConjunctionIterator σ :=
  { children := prime (SortByKey.sort cost children) }

/-- `current_ = kNoMoreDocs; return current_`. -/
def exhausted (it : ConjunctionIterator σ) : ℕ × ConjunctionIterator σ :=
  (kNoMoreDocs, { it with current := kNoMoreDocs })

/-- The end of a successful seek. -/
def found (it : ConjunctionIterator σ) (candidate : ℕ) : ℕ × ConjunctionIterator σ :=
  (candidate, { it with current := candidate, totalFreq := sumFreq it.children })

/-- The loop over the children after the first: where the first of them that is not at
`candidate` is, none if it is exhausted; `candidate` if there is no such child. -/
def follow (candidate : ℕ) : List σ → Option ℕ × List σ
  | [] => (some candidate, [])
  | c :: cs =>
    let (d, c) := advance c candidate
    if d = kNoMoreDocs then (none, c :: cs)
    else if d ≠ candidate then (some d, c :: cs)
    else
      let (r, cs) := follow candidate cs
      (r, c :: cs)

/-- The loop of `Next`. -/
def nextLoop : ℕ → ConjunctionIterator σ → ℕ → ℕ × ConjunctionIterator σ
  | 0, it, _ => (it.current, it)
  | fuel + 1, it, target =>
    match it.children with
    | [] => it.found target
    | front :: others =>
      match follow target others with
      | (none, others) => { it with children := front :: others }.exhausted
      | (some candidate, others) =>
        if candidate = target then { it with children := front :: others }.found candidate
        else
          let (d0, front) := advance front candidate
          let it := { it with children := front :: others }
          if d0 = kNoMoreDocs then it.exhausted else nextLoop fuel it d0

/-- `Next`. -/
def next (it : ConjunctionIterator σ) : ℕ × ConjunctionIterator σ :=
  match it.children with
  | [] => it.exhausted
  | front :: others =>
    if it.current = kNoMoreDocs then it.nextLoop (kNoMoreDocs + 1) (docId front)
    else
      let (target, front) := DocIdSetIterator.next front
      let it := { it with children := front :: others }
      if target = kNoMoreDocs then it.exhausted else it.nextLoop (kNoMoreDocs + 1) target

/-- The loop of `Advance`. -/
def advanceLoop : ℕ → ConjunctionIterator σ → ℕ → ℕ × ConjunctionIterator σ
  | 0, it, _ => (it.current, it)
  | fuel + 1, it, target =>
    if it.current < target ∨ it.current = kNoMoreDocs then
      match it.children with
      | [] => (kNoMoreDocs, it)
      | front :: others =>
        let (d, front) := DocIdSetIterator.advance front target
        if d = kNoMoreDocs then { it with children := front :: others }.exhausted
        else
          match follow d others with
          | (none, others) => { it with children := front :: others }.exhausted
          | (some candidate, others) =>
            let it := { it with children := front :: others }
            if candidate = d then it.found candidate else advanceLoop fuel it candidate
    else (it.current, it)

/-- `Advance`. -/
def advance (it : ConjunctionIterator σ) (target : ℕ) : ℕ × ConjunctionIterator σ :=
  it.advanceLoop (kNoMoreDocs + 1) target

/-- `Cost`. -/
def cost (it : ConjunctionIterator σ) : ℤ :=
  match it.children with
  | [] => 0
  | front :: _ => DocIdSetIterator.cost front

instance : DocIdSetIterator (ConjunctionIterator σ) where
  next := next
  advance := advance
  docId it := it.current
  cost := cost
  freq it := it.totalFreq

end ConjunctionIterator

/-! ### DisjunctionIterator -/

/-- `DisjunctionIterator`. -/
structure DisjunctionIterator (σ : Type) where
  children : List σ
  current : ℕ := kNoMoreDocs
  totalFreq : UInt32 := 0

namespace DisjunctionIterator

/-- The loop that finds the smallest document the children are at, without those that `skip`
selects; `first` is the flag beside `best`. -/
def best (skip : ℕ → Bool) : ℕ → Bool → List σ → ℕ
  | best, _, [] => best
  | best, first, c :: cs =>
    let d := docId c
    if d = kNoMoreDocs ∨ skip d = true then DisjunctionIterator.best skip best first cs
    else if first = true ∨ d < best then DisjunctionIterator.best skip d false cs
    else DisjunctionIterator.best skip best first cs

/-- The children at the document `best`, in the loop that adds up their `Freq`. -/
def freqAt (best : ℕ) (children : List σ) : UInt32 :=
  sumFreq (children.filter fun c ↦ docId c = best)

/-- A round of the first loop of `NextAfter`. -/
def passChild (after : ℕ) (c : σ) : σ :=
  if docId c = kNoMoreDocs ∨ after = kNoMoreDocs then c
  else if docId c ≤ after then (DocIdSetIterator.next c).2 else c

/-- A round of the loop of `Next` that starts the children. -/
def startChild (c : σ) : σ := if docId c = kNoMoreDocs then (DocIdSetIterator.next c).2 else c

/-- A round of the first loop of `Advance`. -/
def advanceChild (target : ℕ) (c : σ) : σ :=
  if docId c ≠ kNoMoreDocs ∧ docId c < target then (DocIdSetIterator.advance c target).2 else c

/-- `NextAfter`. -/
def nextAfter (it : DisjunctionIterator σ) (after : ℕ) : ℕ × DisjunctionIterator σ :=
  let children := it.children.map (passChild after)
  let d := best (fun d ↦ after ≠ kNoMoreDocs && d ≤ after) kNoMoreDocs true children
  (d, { it with children, totalFreq := if d = kNoMoreDocs then 0 else freqAt d children })

/-- What `Next` and `Advance` end with: the smallest document becomes the current one. -/
def settle (it : DisjunctionIterator σ) (skip : ℕ → Bool) : ℕ × DisjunctionIterator σ :=
  let d := best skip kNoMoreDocs true it.children
  (d,
    { it with
      current := d
      totalFreq := if d = kNoMoreDocs then 0 else freqAt d it.children })

/-- `Next`. -/
def next (it : DisjunctionIterator σ) : ℕ × DisjunctionIterator σ :=
  if it.current = kNoMoreDocs then
    if it.children.any fun c ↦ docId c = kNoMoreDocs then
      settle { it with children := it.children.map startChild } fun _ ↦ false
    else (it.current, it)
  else
    let (d, it) := it.nextAfter it.current
    (d, { it with current := d })

/-- `Advance`. -/
def advance (it : DisjunctionIterator σ) (target : ℕ) : ℕ × DisjunctionIterator σ :=
  settle { it with children := it.children.map (advanceChild target) } fun d ↦ d < target

/-- `Cost`. -/
def cost (it : DisjunctionIterator σ) : ℤ := (it.children.map DocIdSetIterator.cost).sum

instance : DocIdSetIterator (DisjunctionIterator σ) where
  next := next
  advance := advance
  docId it := it.current
  cost := cost
  freq it := it.totalFreq

end DisjunctionIterator

end Composite

/-! ### Trees -/

/-- A tree of iterators. -/
inductive Iter where
  | term (it : TermIterator)
  | matchAll (it : MatchAllIterator)
  | conjunction (it : ConjunctionIterator Iter)
  | disjunction (it : DisjunctionIterator Iter)

namespace Iter

open DocIdSetIterator

/-- The virtual calls, given those of the children. -/
@[reducible] def virtual (below : DocIdSetIterator Iter) : DocIdSetIterator Iter where
  next
    | term it => (next it).map id term
    | matchAll it => (next it).map id matchAll
    | conjunction it => (next it).map id conjunction
    | disjunction it => (next it).map id disjunction
  advance
    | term it, target => (advance it target).map id term
    | matchAll it, target => (advance it target).map id matchAll
    | conjunction it, target => (advance it target).map id conjunction
    | disjunction it, target => (advance it target).map id disjunction
  docId
    | term it => docId it
    | matchAll it => docId it
    | conjunction it => docId it
    | disjunction it => docId it
  cost
    | term it => cost it
    | matchAll it => cost it
    | conjunction it => cost it
    | disjunction it => cost it
  freq
    | term it => freq it
    | matchAll it => freq it
    | conjunction it => freq it
    | disjunction it => freq it

/-- The virtual calls in trees of depth up to `n`. -/
@[reducible] def dispatch : ℕ → DocIdSetIterator Iter
  | 0 => ⟨fun it ↦ (kNoMoreDocs, it), fun it _ ↦ (kNoMoreDocs, it), fun _ ↦ kNoMoreDocs,
    fun _ ↦ 0, fun _ ↦ 0⟩
  | n + 1 => virtual (dispatch n)

end Iter

end Spp.Query
