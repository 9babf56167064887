import SearchPlusPlus.Query.SeekRuns
import SearchPlusPlus.Query.Termination

/-!
# Trees over any bytes

The trees `Build` makes, with posting lists of any bytes in place of those of a segment
(`Shape`). The calls of such a tree return in every state its calls lead to, and so does a loop over
`Next` (`evaluation_ends`). What a posting list is worth is decided by the count its bytes begin
with: its iterator returns no more documents, and reads nothing but its bytes (`Leaf.Reads`).
-/

namespace Spp.Query

open Index Store DocIdSetIterator

/-! ### Leaves -/

/-- What a `TermIterator` is made from. -/
structure Leaf where
  bytes : Bytes
  df : UInt32
  totalTf : UInt64
  hasPositions : Bool
  hasTokenWeights : Bool

namespace Leaf

/-- The iterator. -/
def iterator (leaf : Leaf) : TermIterator :=
  .new leaf.bytes leaf.df leaf.totalTf leaf.hasPositions leaf.hasTokenWeights

/-- The count the bytes begin with, none if they begin with no number. -/
def count (leaf : Leaf) : ℕ := ((decodeVarUint32 leaf.bytes).1.toOption.getD 0).toNat

/-- The iterator after some calls of its `Next`, with the documents these returned. -/
inductive Reads (leaf : Leaf) : List ℕ → TermIterator → Prop
  | new : Reads leaf [] leaf.iterator
  | next {docs : List ℕ} {it : TermIterator} (h : Reads leaf docs it) :
      Reads leaf (docs ++ if it.next.1 = kNoMoreDocs then [] else [it.next.1]) it.next.2

variable {leaf : Leaf} {docs : List ℕ} {it : TermIterator}

/-- **A posting list** returns no more documents than its count, and its cursor stays within its
bytes. -/
theorem Reads.bounded (h : leaf.Reads docs it) :
    docs.length + it.remaining.toNat ≤ leaf.count ∧ it.rest <:+ leaf.bytes := by
  induction h with
  | new =>
    show 0 + leaf.count ≤ leaf.count ∧ (decodeVarUint32 leaf.bytes).2 <:+ leaf.bytes
    exact ⟨(Nat.zero_add _).le, decodeVarUint32_rest_suffix leaf.bytes⟩
  | @next docs it _ ih =>
    obtain ⟨hcount, hrest⟩ := ih
    have hstep := TermIterator.stepped_next it
    refine ⟨?_, hstep.rest.trans hrest⟩
    obtain ⟨hend, hsame⟩ | hless := hstep.remaining
    · rw [if_pos hend, hsame, List.append_nil]
      exact hcount
    · have hdocs : (docs ++ if it.next.1 = kNoMoreDocs then [] else [it.next.1]).length ≤
          docs.length + 1 := by
        rw [List.length_append]
        split_ifs <;> simp
      omega

end Leaf

/-! ### The law of a tree -/

namespace Iter

section Virtual

variable {P : TermIterator → Prop} (hP : ∀ it, P it → P it.next.2)
  {below : DocIdSetIterator Iter} {calls : PartialCalls Iter} (L : @EvalLaw Iter below calls)

/-- A state whose leaves have `P`. -/
def Sane (P : TermIterator → Prop) : Iter → Prop
  | term it => TermIterator.Sane P it
  | matchAll it => MatchAllIterator.Sane it
  | conjunction it => ConjunctionIterator.Sane L it
  | disjunction it => DisjunctionIterator.Sane L it

/-- What is left for `Next`. -/
def rank : Iter → ℕ
  | term it => it.remaining.toNat
  | matchAll it => it.docCount - it.current
  | conjunction it => ConjunctionIterator.rank L it
  | disjunction it => kNoMoreDocs - it.current

/-- A call has its value also when its state is one of a tree. -/
theorem map_call {τ : Type} {call : Part (ℕ × τ)} {res : ℕ × τ} {p : Prop} (f : τ → Iter)
    (h : call = .some res ∧ p) : call.map (Prod.map id f) = .some (res.map id f) ∧ p :=
  ⟨by rw [h.1, Part.map_some], h.2⟩

/-- **Trees** have the law when those below have it. -/
def virtualEvalLaw : @EvalLaw Iter (virtual below) (virtualCalls below calls) :=
  @EvalLaw.mk Iter (virtual below) (virtualCalls below calls) (Sane L P) (rank L)
    (fun {it} ↦ match it with
      | term _ => (TermIterator.evalLaw hP).docId_le
      | matchAll _ => MatchAllIterator.evalLaw.docId_le
      | conjunction _ => (ConjunctionIterator.evalLaw L).docId_le
      | disjunction _ => (DisjunctionIterator.evalLaw L).docId_le)
    (fun {it} ↦ match it with
      | term _ => fun h ↦ map_call term ((TermIterator.evalLaw hP).next h)
      | matchAll _ => fun h ↦ map_call matchAll (MatchAllIterator.evalLaw.next h)
      | conjunction _ => fun h ↦ map_call conjunction ((ConjunctionIterator.evalLaw L).next h)
      | disjunction _ => fun h ↦ map_call disjunction ((DisjunctionIterator.evalLaw L).next h))
    (fun {it _} ↦ match it with
      | term _ => fun h ht ↦ map_call term ((TermIterator.evalLaw hP).advance h ht)
      | matchAll _ => fun h ht ↦ map_call matchAll (MatchAllIterator.evalLaw.advance h ht)
      | conjunction _ => fun h ht ↦
        map_call conjunction ((ConjunctionIterator.evalLaw L).advance h ht)
      | disjunction _ => fun h ht ↦
        map_call disjunction ((DisjunctionIterator.evalLaw L).advance h ht))
    (fun {it} ↦ match it with
      | term _ => (TermIterator.evalLaw hP).rank_next
      | matchAll _ => MatchAllIterator.evalLaw.rank_next
      | conjunction _ => (ConjunctionIterator.evalLaw L).rank_next
      | disjunction _ => (DisjunctionIterator.evalLaw L).rank_next)
    (fun {it _} ↦ match it with
      | term _ => (TermIterator.evalLaw hP).rank_advance
      | matchAll _ => MatchAllIterator.evalLaw.rank_advance
      | conjunction _ => (ConjunctionIterator.evalLaw L).rank_advance
      | disjunction _ => (DisjunctionIterator.evalLaw L).rank_advance)

end Virtual

section Depth

variable {P : TermIterator → Prop} (hP : ∀ it, P it → P it.next.2)

/-- The law at a depth. -/
noncomputable def evalLaw : (n : ℕ) → @EvalLaw Iter (dispatch n) (partialDispatch n)
  | 0 => @EvalLaw.mk Iter (dispatch 0) (partialDispatch 0) (fun _ ↦ False) (fun _ ↦ 0)
    False.elim False.elim (fun h _ ↦ h.elim) (fun h _ _ ↦ h.elim) (fun h _ _ _ _ ↦ h.elim)
  | n + 1 => virtualEvalLaw hP (evalLaw n)

/-- A state of a tree of a depth. -/
def SaneAt (n : ℕ) (it : Iter) : Prop :=
  @EvalLaw.Sane Iter (dispatch n) (partialDispatch n) (evalLaw hP n) it

/-- What is a state at one depth is one at the next, with the same document. -/
theorem sane_succ (n : ℕ) : ∀ it : Iter, SaneAt hP n it →
    SaneAt hP (n + 1) it ∧ (dispatch (n + 1)).docId it = (dispatch n).docId it := by
  induction n with
  | zero => exact fun _ h ↦ h.elim
  | succ n ih =>
    intro it h
    let _ := dispatch n
    cases it with
    | term it => exact ⟨h, rfl⟩
    | matchAll it => exact ⟨h, rfl⟩
    | conjunction it =>
      obtain ⟨hcurrent, hchildren, hled⟩ : ConjunctionIterator.Sane (evalLaw hP n) it := h
      refine ⟨@ConjunctionIterator.Sane.mk Iter (dispatch (n + 1)) _ (evalLaw hP (n + 1)) it
        hcurrent (fun c hc ↦ (ih c (hchildren c hc)).1) fun hne ↦ ?_, rfl⟩
      obtain ⟨front, others, hc, hdoc⟩ := hled hne
      have hfront := (ih front (hchildren front (hc ▸ List.mem_cons_self))).2
      exact ⟨front, others, hc, hfront.trans hdoc⟩
    | disjunction it =>
      obtain ⟨hcurrent, hchildren⟩ : DisjunctionIterator.Sane (evalLaw hP n) it := h
      exact ⟨@DisjunctionIterator.Sane.mk Iter (dispatch (n + 1)) _ (evalLaw hP (n + 1)) it
        hcurrent fun c hc ↦ (ih c (hchildren c hc)).1, rfl⟩

theorem sane_mono {n m : ℕ} (hle : n ≤ m) {it : Iter} (h : SaneAt hP n it) : SaneAt hP m it := by
  induction hle with
  | refl => exact h
  | step _ ih => exact (sane_succ hP _ it ih).1

end Depth

/-- The posting lists of a tree, down to a depth. -/
def leaves : ℕ → Iter → List TermIterator
  | 0, _ => []
  | _ + 1, term it => [it]
  | _ + 1, matchAll _ => []
  | n + 1, conjunction it => it.children.flatMap (leaves n)
  | n + 1, disjunction it => it.children.flatMap (leaves n)

/-- The leaves of a state have what they are asked for. -/
theorem of_mem_leaves {P : TermIterator → Prop} (hP : ∀ it, P it → P it.next.2) (n : ℕ) :
    ∀ it : Iter, SaneAt hP n it → ∀ l ∈ it.leaves n, P l := by
  induction n with
  | zero => exact fun _ h ↦ h.elim
  | succ n ih =>
    intro it h l hl
    let _ := dispatch n
    cases it with
    | term it =>
      obtain rfl := List.mem_singleton.1 hl
      exact h.2
    | matchAll it => exact absurd hl List.not_mem_nil
    | conjunction it =>
      have hsane : ConjunctionIterator.Sane (evalLaw hP n) it := h
      obtain ⟨c, hc, hl⟩ := List.mem_flatMap.1 hl
      exact ih c (hsane.children c hc) l hl
    | disjunction it =>
      have hsane : DisjunctionIterator.Sane (evalLaw hP n) it := h
      obtain ⟨c, hc, hl⟩ := List.mem_flatMap.1 hl
      exact ih c (hsane.children c hc) l hl

end Iter

/-! ### The trees of `Build` -/

section Shape

variable [SortByKey]

/-- A tree as `Build` makes it, of some depth, with posting lists of some bytes. -/
inductive Shape (leaves : Set Leaf) : ℕ → Iter → Prop
  | term {n : ℕ} (leaf : Leaf) (h : leaf ∈ leaves) : Shape leaves (n + 1) (.term leaf.iterator)
  | matchAll {n : ℕ} (docCount : ℕ) (h : docCount ≤ kNoMoreDocs) :
      Shape leaves (n + 1) (.matchAll { docCount })
  | conjunction {n d : ℕ} (hle : d ≤ n) (kids : List Iter) (h : ∀ kid ∈ kids, Shape leaves d kid) :
      Shape leaves (n + 1) (conjunctionOf d kids)
  | disjunction {n : ℕ} (kids : List Iter) (h : ∀ kid ∈ kids, Shape leaves n kid) :
      Shape leaves (n + 1) (.disjunction { children := kids })

variable {leaves : Set Leaf} {n : ℕ} {tree : Iter}

namespace Shape

theorem succ (h : Shape leaves n tree) : Shape leaves (n + 1) tree := by
  induction h with
  | term leaf h => exact .term leaf h
  | matchAll docCount h => exact .matchAll docCount h
  | conjunction hle kids h => exact .conjunction (Nat.le_succ_of_le hle) kids h
  | disjunction kids _ ih => exact .disjunction kids ih

theorem mono {m : ℕ} (hle : n ≤ m) (h : Shape leaves n tree) : Shape leaves m tree := by
  induction hle with
  | refl => exact h
  | step _ ih => exact ih.succ

end Shape

omit [SortByKey] in
/-- The constructor of a conjunction starts its children, up to the first that is empty. -/
theorem sane_prime {σ : Type} [DocIdSetIterator σ] {calls : PartialCalls σ} (L : EvalLaw σ calls)
    {cs : List σ} (h : ∀ c ∈ cs, L.Sane c) : ∀ c ∈ ConjunctionIterator.prime cs, L.Sane c := by
  induction cs with
  | nil => exact h
  | cons c cs ih =>
    obtain ⟨hc, hcs⟩ := List.forall_mem_cons.1 h
    obtain ⟨-, hsane, -⟩ := L.next hc
    rw [ConjunctionIterator.prime]
    dsimp only
    split_ifs
    · exact List.forall_mem_cons.2 ⟨hsane, hcs⟩
    · exact List.forall_mem_cons.2 ⟨hsane, ih hcs⟩

/-- What the constructors make is a state. -/
theorem Shape.sane {P : TermIterator → Prop} (hP : ∀ it, P it → P it.next.2)
    (hnew : ∀ leaf ∈ leaves, P leaf.iterator) (h : Shape leaves n tree) :
    Iter.SaneAt hP n tree := by
  induction h with
  | term leaf h => exact ⟨le_rfl, hnew leaf h⟩
  | matchAll docCount h => exact ⟨h, le_rfl, fun hne ↦ absurd rfl hne⟩
  | @conjunction n d hle kids _ ih =>
    have hprime := @sane_prime Iter (Iter.dispatch d) (Iter.partialDispatch d) (Iter.evalLaw hP d)
      (SortByKey.sort (Iter.dispatch d).cost kids) fun kid hkid ↦
        ih kid ((SortByKey.perm _ _).mem_iff.1 hkid)
    let _ := Iter.dispatch n
    exact ⟨le_rfl, fun c hc ↦ Iter.sane_mono hP hle (hprime c hc), fun hne ↦ absurd rfl hne⟩
  | @disjunction n kids _ ih =>
    let _ := Iter.dispatch n
    exact ⟨le_rfl, ih⟩

/-! ### Queries -/

variable {seg : SegmentReader} {schema : Schema}

/-- The posting lists of a segment, whatever bytes it has for them. -/
def segmentLeaves (seg : SegmentReader) : Set Leaf :=
  {leaf | ∃ fieldId term te, seg.findTerm fieldId term = some te ∧
    leaf = { bytes := seg.postingBytes fieldId te, df := te.df, totalTf := te.totalTf,
             hasPositions := (seg.field fieldId).any (·.stats.hasPositions),
             hasTokenWeights := (seg.field fieldId).any (·.stats.hasTokenWeights) }}

theorem Shape.combine {operator : List Iter → Iter} {kids : List Iter}
    (h : ∀ kid ∈ kids, Shape leaves n kid) (hmany : Shape leaves (n + 1) (operator kids)) :
    Shape leaves (n + 1) (combine operator kids) := by
  rcases kids with _ | ⟨kid, _ | ⟨kid', kids⟩⟩
  · exact .matchAll 0 (Nat.zero_le _)
  · exact (h kid List.mem_cons_self).succ
  · exact hmany

theorem shape_tokenIterators {fieldId : ℕ} {tokens : List Analyze.Token} :
    ∀ {kids : List Iter}, tokens.mapM (tokenIterator seg fieldId) = some kids →
      ∀ kid ∈ kids, Shape (segmentLeaves seg) 1 kid := by
  induction tokens with
  | nil =>
    intro kids h
    obtain rfl : [] = kids := Option.some_inj.1 h
    exact fun kid hkid ↦ absurd hkid List.not_mem_nil
  | cons t tokens ih =>
    intro kids h
    rw [List.mapM_cons, Option.bind_eq_bind, Option.bind_eq_some_iff] at h
    obtain ⟨kid, hkid, h⟩ := h
    rw [Option.bind_eq_bind, Option.bind_eq_some_iff] at h
    obtain ⟨kids', hkids, h⟩ := h
    obtain rfl : kid :: kids' = kids := Option.some_inj.1 h
    obtain ⟨te, hfind, rfl⟩ := Option.map_eq_some_iff.1 hkid
    have hleaf : Shape (segmentLeaves seg) 1 (.term (Leaf.iterator ⟨_, _, _, _, _⟩)) :=
      .term _ ⟨fieldId, t.text, te, hfind, rfl⟩
    exact List.forall_mem_cons.2 ⟨hleaf, ih hkids⟩

theorem shape_buildTerm (field text : Bytes) :
    Shape (segmentLeaves seg) 2 (buildTerm seg schema field text) := by
  rw [buildTerm]
  dsimp only
  split_ifs
  · exact .matchAll 0 (Nat.zero_le _)
  · exact .matchAll 0 (Nat.zero_le _)
  split
  · exact .matchAll 0 (Nat.zero_le _)
  · rename_i kids hkids
    exact .combine (shape_tokenIterators hkids) (.conjunction le_rfl _ (shape_tokenIterators hkids))

mutual

/-- **The tree of a query** over a segment of any bytes. -/
theorem shape_build (hdocs : seg.docCount ≤ kNoMoreDocs) : ∀ q : QueryAst,
    Shape (segmentLeaves seg) q.depth (build seg schema q)
  | .matchAll => by
    rw [build, QueryAst.depth]
    exact .matchAll _ hdocs
  | .term field text => by
    rw [build, QueryAst.depth]
    exact shape_buildTerm field text
  | .conjunction children => by
    have hkids := shape_buildAll hdocs children
    rw [build, QueryAst.depth]
    exact .combine hkids (.conjunction le_rfl _ hkids)
  | .disjunction children => by
    have hkids := shape_buildAll hdocs children
    rw [build, QueryAst.depth]
    exact .combine hkids (.disjunction _ hkids)

theorem shape_buildAll (hdocs : seg.docCount ≤ kNoMoreDocs) : ∀ qs : List QueryAst,
    ∀ kid ∈ buildAll seg schema qs, Shape (segmentLeaves seg) (depthAll qs) kid
  | [] => by
    rw [buildAll]
    exact fun kid hkid ↦ absurd hkid List.not_mem_nil
  | q :: qs => by
    have hkid := (shape_build hdocs q).mono (le_max_left q.depth (depthAll qs))
    have hkids := shape_buildAll hdocs qs
    rw [buildAll, depthAll]
    exact List.forall_mem_cons.2 ⟨hkid, fun kid h ↦ (hkids kid h).mono (le_max_right _ _)⟩

end

end Shape

/-! ### Runs -/

namespace Call

/-- The call on a tree, at a depth, with the loops as they are. -/
noncomputable def partialOn (n : ℕ) (it : Iter) : Call → Part (ℕ × Iter)
  | next => (Iter.partialDispatch n).next it
  | advance target => (Iter.partialDispatch n).advance it target.toNat

/-- The tree after some calls, if they all return. -/
noncomputable def run (n : ℕ) : Iter → List Call → Part Iter
  | it, [] => .some it
  | it, c :: calls => do
    let (_, it) ← c.partialOn n it
    run n it calls

variable {P : TermIterator → Prop} {hP : ∀ it, P it → P it.next.2} {n : ℕ} {it : Iter}

/-- **One call** returns, from every state to another one. -/
theorem sane_on (c : Call) (h : Iter.SaneAt hP n it) :
    c.partialOn n it = .some (c.on n it) ∧ Iter.SaneAt hP n (c.on n it).2 := by
  let _ := Iter.dispatch n
  cases c with
  | next =>
    obtain ⟨hcall, hsane, -⟩ := (Iter.evalLaw hP n).next h
    exact ⟨hcall, hsane⟩
  | advance target =>
    obtain ⟨hcall, hsane, -⟩ := (Iter.evalLaw hP n).advance h (target_le target)
    exact ⟨hcall, hsane⟩

/-- The calls of a run return. -/
theorem exists_run (calls : List Call) : ∀ {it : Iter}, Iter.SaneAt hP n it →
    ∃ it', run n it calls = .some it' ∧ Iter.SaneAt hP n it' := by
  induction calls with
  | nil => exact fun h ↦ ⟨_, rfl, h⟩
  | cons c calls ih =>
    intro it h
    obtain ⟨hcall, hsane⟩ := sane_on c h
    obtain ⟨it', hrun, hsane'⟩ := ih hsane
    refine ⟨it', ?_, hsane'⟩
    rw [run, hcall, Part.bind_eq_bind, Part.bind_some]
    exact hrun

end Call

/-- **Evaluation ends**, over any posting bytes: every call returns in every state the calls of a
tree lead to, and so does a loop over `Next`; no posting list returns more documents than its
count, or is read past its end. -/
theorem evaluation_ends [SortByKey] {leaves : Set Leaf} {n : ℕ} {tree : Iter}
    (h : Shape leaves n tree) (calls : List Call) :
    ∃ it, Call.run n tree calls = .some it ∧
      (∀ c : Call, c.partialOn n it = .some (c.on n it)) ∧
      (∃ docs, (Iter.partialDispatch n).drain it = .some docs) ∧
      ∀ l ∈ it.leaves n, ∃ leaf ∈ leaves, ∃ docs, leaf.Reads docs l ∧
        docs.length ≤ leaf.count ∧ l.rest <:+ leaf.bytes := by
  have hnext : ∀ l : TermIterator, (∃ leaf ∈ leaves, ∃ docs, leaf.Reads docs l) →
      ∃ leaf ∈ leaves, ∃ docs, leaf.Reads docs l.next.2 := by
    rintro l ⟨leaf, hleaf, docs, hreads⟩
    exact ⟨leaf, hleaf, _, hreads.next⟩
  have htree : Iter.SaneAt hnext n tree := h.sane hnext fun leaf hleaf ↦ ⟨leaf, hleaf, [], .new⟩
  obtain ⟨it, hrun, hsane⟩ := Call.exists_run calls htree
  refine ⟨it, hrun, fun c ↦ (Call.sane_on c hsane).1, ?_, fun l hl ↦ ?_⟩
  · exact @EvalLaw.exists_drain Iter (Iter.dispatch n) _ (Iter.evalLaw hnext n) it hsane
  · obtain ⟨leaf, hleaf, docs, hreads⟩ := Iter.of_mem_leaves hnext n it hsane l hl
    obtain ⟨hcount, hrest⟩ := hreads.bounded
    exact ⟨leaf, hleaf, docs, hreads, (Nat.le_add_right _ _).trans hcount, hrest⟩

/-- A list that goes back from document 5 to document 4 and has three postings less than its
count. -/
def descendingLeaf : Leaf where
  bytes := [5, 5, 1, 255, 255, 255, 255, 15, 1]
  df := 2
  totalTf := 2
  hasPositions := false
  hasTokenWeights := false

/-- A list whose count is cut off. -/
def truncatedLeaf : Leaf := { descendingLeaf with bytes := [200] }

theorem evaluation_ends_conjunction :
    ∃ it, Call.run 2 (@conjunctionOf mergeSortByKey 1
          [.term descendingLeaf.iterator, .term truncatedLeaf.iterator]) [.next, .advance 5] =
        .some it ∧
      (∀ c : Call, c.partialOn 2 it = .some (c.on 2 it)) ∧
      (∃ docs, (Iter.partialDispatch 2).drain it = .some docs) ∧
      ∀ l ∈ it.leaves 2, ∃ leaf ∈ ({descendingLeaf, truncatedLeaf} : Set Leaf), ∃ docs,
        leaf.Reads docs l ∧ docs.length ≤ leaf.count ∧ l.rest <:+ leaf.bytes :=
  let _ := mergeSortByKey
  have hkids : ∀ kid ∈ [Iter.term descendingLeaf.iterator, .term truncatedLeaf.iterator],
      Shape {descendingLeaf, truncatedLeaf} 1 kid :=
    List.forall_mem_cons.2 ⟨.term _ (Or.inl rfl),
      List.forall_mem_singleton.2 (.term _ (Or.inr rfl))⟩
  evaluation_ends (.conjunction le_rfl _ hkids) [.next, .advance 5]

end Spp.Query
