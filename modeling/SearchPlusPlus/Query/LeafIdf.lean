import SearchPlusPlus.Query.Candidates

/-!
# The idf of a leaf

The values of `idf_by_key` belong to the first leaf with a key (`find?_idfByKey`). Two leaves may
have the same key, since a field name and a term may contain its separator; each leaf has its own
idf exactly if such leaves are equally frequent.
-/

namespace Spp.Query

open Index Arith

section

variable {R : Type} [Arith R] (idf : UInt64 → UInt64 → R) (r : IndexReader)
  {leaves : List LeafTerm} {l : LeafTerm}

/-- The idf of a leaf by its own frequency. -/
def ownIdf (l : LeafTerm) : R := idf (UInt64.ofNat r.totalDocCount) (globalDf r l)

omit [Arith R] in
theorem find?_foldl_insert (leaves : List LeafTerm) (k : Bytes) : ∀ m : SortedMap Bytes R,
    (leaves.foldl (fun m l ↦ if (m.find? (keyOf l)).isSome then m
      else m.insert (keyOf l) (ownIdf idf r l)) m).find? k =
      (m.find? k).or ((leaves.find? fun l ↦ keyOf l = k).map (ownIdf idf r)) := by
  induction leaves with
  | nil => exact fun m ↦ (Option.or_none).symm
  | cons l leaves ih =>
    intro m
    rw [List.foldl_cons, ih, List.find?_cons]
    by_cases hk : keyOf l = k
    · subst hk
      -- the first leaf with the key sets it, unless it is there
      split_ifs with hsome
      · obtain ⟨v, hv⟩ := Option.isSome_iff_exists.1 hsome
        rw [hv]
        rfl
      · have hnone : m.find? (keyOf l) = none := by simpa using hsome
        rw [SortedMap.find?_insert_self, hnone]
        simp
    · have hother : decide (keyOf l = k) = false := decide_eq_false hk
      rw [hother]
      split_ifs
      · rfl
      · rw [SortedMap.find?_insert_of_ne _ (Ne.symm hk)]

omit [Arith R] in
/-- **The first leaf with a key** sets the value. -/
theorem find?_idfByKey (k : Bytes) : (idfByKey idf r leaves).find? k =
    (leaves.find? fun l ↦ keyOf l = k).map (ownIdf idf r) :=
  find?_foldl_insert idf r leaves k .empty

/-- A leaf of a query is given the idf of the first leaf with its key. -/
theorem exists_leafIdf (hl : l ∈ leaves) : ∃ l' ∈ leaves, keyOf l' = keyOf l ∧
    leafIdf idf r leaves l = ownIdf idf r l' := by
  obtain ⟨l', hfind⟩ : ∃ l', (leaves.find? fun x ↦ keyOf x = keyOf l) = some l' := by
    rw [← Option.isSome_iff_exists, List.find?_isSome]
    exact ⟨l, hl, decide_eq_true rfl⟩
  have hkey : keyOf l' = keyOf l := by simpa using List.find?_some hfind
  refine ⟨l', List.mem_of_find?_eq_some hfind, hkey, ?_⟩
  rw [leafIdf, find?_idfByKey, hfind]
  rfl

/-- The first leaf of a query gives its idf to those with its key. -/
theorem leafIdf_cons {l' : LeafTerm} (hkey : keyOf l' = keyOf l) :
    leafIdf idf r (l' :: leaves) l = ownIdf idf r l' := by
  have hfind : (l' :: leaves).find? (fun x ↦ keyOf x = keyOf l) = some l' :=
    List.find?_cons_of_pos (decide_eq_true hkey)
  rw [leafIdf, find?_idfByKey, hfind]
  rfl

theorem leafIdf_congr {l' : LeafTerm} (h : keyOf l = keyOf l') :
    leafIdf idf r leaves l = leafIdf idf r leaves l' := by
  rw [leafIdf, leafIdf, h]

end

/-- **Each leaf gets its own idf**, whatever `Bm25Idf` is, exactly if leaves with the same key are
equally frequent. -/
theorem leafIdf_iff (r : IndexReader) (q : QueryAst) :
    (∀ (R : Type) (_ : Arith R) (idf : UInt64 → UInt64 → R), ∀ l ∈ collectLeaves r.schema q,
        leafIdf idf r (collectLeaves r.schema q) l =
          idf (UInt64.ofNat r.totalDocCount) (globalDf r l)) ↔
      ∀ l ∈ collectLeaves r.schema q, ∀ l' ∈ collectLeaves r.schema q,
        keyOf l = keyOf l' → globalDf r l = globalDf r l' := by
  constructor
  · intro h l hl l' hl' hkey
    have hown := h ℝ exactArith fun _ df ↦ df.toNat
    have heq : ((globalDf r l).toNat : ℝ) = (globalDf r l').toNat := by
      rw [← hown l hl, ← hown l' hl', leafIdf_congr _ r hkey]
    exact UInt64.toNat_inj.1 (Nat.cast_injective heq)
  · intro h R _ idf l hl
    obtain ⟨l', hl', hkey, hidf⟩ := exists_leafIdf idf r hl
    rw [hidf, ownIdf, h l' hl' l hl hkey]

/-! ### Where it fails -/

/-- A schema with a field whose name has a colon. -/
def colonSchema : Schema where
  fields := [
    { name := Schema.kIdField, type := .keyword, stored := true, analyzer := str "keyword" },
    { name := str "a", type := .keyword },
    { name := str "a:b", type := .keyword }]
  name_ne_nil := by decide
  nodup_names := by decide
  length_le := by decide

/-- A document without a value for the field with the colon. -/
def colonDocs : MutableSegment :=
  @MutableSegment.build .integral colonSchema
    [{ id := str "1", fields := SortedMap.empty.insert (str "a") (str "b:c") }]

/-- An index of that document. -/
def colonReader : IndexReader :=
  { schema := colonSchema, segments := [colonDocs.sealedReader (str "seg") []] }

/-- The queries `"a":"b:c"` and `"a:b":"c"`, both together. -/
def colonQuery : QueryAst :=
  .disjunction [.term (str "a") (str "b:c"), .term (str "a:b") (str "c")]

/-- The second is given the idf of the first, which a document has. -/
theorem not_leafIdf : ¬∀ (R : Type) (_ : Arith R) (idf : UInt64 → UInt64 → R),
    ∀ l ∈ collectLeaves colonReader.schema colonQuery,
      leafIdf idf colonReader (collectLeaves colonReader.schema colonQuery) l =
        idf (UInt64.ofNat colonReader.totalDocCount) (globalDf colonReader l) := by
  intro h
  have hleaves : collectLeaves colonReader.schema colonQuery =
      [{ fieldName := str "a", text := str "b:c" },
        { fieldName := str "a:b", text := str "c" }] := by
    decide
  have hown := h ℝ exactArith fun _ df ↦ df.toNat
  rw [hleaves] at hown
  have hfirst := hown _ List.mem_cons_self
  have hsecond := hown _ (List.mem_cons_of_mem _ List.mem_cons_self)
  have hdf : globalDf colonReader { fieldName := str "a", text := str "b:c" } = 1 := by
    decide +kernel
  have hdf' : globalDf colonReader { fieldName := str "a:b", text := str "c" } = 0 := by
    decide +kernel
  rw [leafIdf_congr _ _ (show keyOf { fieldName := str "a:b", text := str "c" } =
    keyOf { fieldName := str "a", text := str "b:c" } from rfl), hfirst, hdf, hdf'] at hsecond
  exact absurd (Nat.cast_injective hsecond) (by decide)

end Spp.Query
