import SearchPlusPlus.Json.Parser
import SearchPlusPlus.Query.Candidates
import SearchPlusPlus.Query.QueryParser

/-!
# Exporting features

`spp_export_features` writes a row of features for each judgment, with an id of the group of its
query. A judgment may give the id; else it is the one of the query's first row, and a query without
rows takes the next number of a counter. A judgment whose query fails is skipped, but it has taken
its number. The counter does not look at the ids that are given, so the groups are apart exactly if
no row of another query gives the id of a group that has rows without one (`groupsApart_iff`).
-/

namespace Spp.Tools

open Json Index Query Query.Arith

/-! ### Judgments -/

/-- `static_cast` of a `double` to a signed integer of so many bits: it is truncated. Out of range
it is undefined, and the processor gives the least integer. -/
def truncate (bits : ℕ) (x : F64) : ℤ :=
  match x.value with
  | .finite neg sig exp =>
    let mag := if 0 ≤ exp then sig * 2 ^ exp.toNat else sig / 2 ^ (-exp).toNat
    let i : ℤ := if neg then -mag else mag
    if -2 ^ (bits - 1) ≤ i ∧ i < 2 ^ (bits - 1) then i else -2 ^ (bits - 1)
  | _ => -2 ^ (bits - 1)

/-- A line of the judgments. -/
structure Judgment where
  query : Bytes
  docId : Bytes
  label : ℤ
  queryId : Option ℤ
  deriving DecidableEq, Repr

section Input

variable [LibcDecimal]

/-- The judgment of a line, unless it is skipped. -/
def judgmentOf (line : Bytes) : Option Judgment :=
  match Json.parse line with
  | .ok v => do
    let query ← v.findString (str "query")
    let docId ← v.findString (str "doc_id")
    let label ← v.findNumber (str "label")
    some { query, docId, label := truncate 32 label
           queryId := (v.findNumber (str "query_id")).map (truncate 64) }
  | .error _ => none

/-- The judgments of a file. -/
def judgments (judg : Bytes) : List Judgment :=
  ((judg.splitOn 10).filter (· ≠ [])).filterMap judgmentOf

end Input

/-! ### The loop over the judgments -/

section Loop

variable {R : Type} [Arith R]

/-- `QueryResults`. -/
structure QueryResults (R : Type) where
  queryId : ℤ
  byDoc : SortedMap Bytes (FeatureVector R)

/-- What `WriteRow` writes. -/
structure ExportRow (R : Type) where
  label : ℤ
  queryId : ℤ
  features : FeatureVector R

/-- The variables of the loop of `main`, and the rows written so far, each with its judgment. -/
structure Exporter (R : Type) where
  queryCache : SortedMap Bytes (QueryResults R) := .empty
  autoQid : ℤ := 0
  rows : List (Judgment × ExportRow R) := []

namespace Exporter

variable (hits : Bytes → Option (SortedMap Bytes (FeatureVector R))) (s : Exporter R) (j : Judgment)

/-- The id of the group of a judgment, and the counter after it. -/
def queryId : ℤ × ℤ :=
  match j.queryId with
  | some id => (id, s.autoQid)
  | none =>
    match s.queryCache.find? j.query with
    | none => (s.autoQid, s.autoQid + 1)
    | some results => (results.queryId, s.autoQid)

/-- The row of a judgment: a document that is not among the hits has no features. -/
def row (queryId : ℤ) (byDoc : SortedMap Bytes (FeatureVector R)) : ExportRow R :=
  { label := j.label, queryId, features := (byDoc.find? j.docId).getD fun _ ↦ ofRat 0 }

/-- A round of the loop. `hits` is what `Parse` and `Search` make of a query, if neither fails: the
features of its hits. -/
def step : Exporter R :=
  let (queryId, autoQid) := s.queryId j
  match s.queryCache.find? j.query with
  | some results => { s with autoQid, rows := s.rows ++ [(j, row j queryId results.byDoc)] }
  | none =>
    match hits j.query with
    | none => { s with autoQid }
    | some byDoc =>
      { queryCache := s.queryCache.insert j.query { queryId, byDoc }
        autoQid
        rows := s.rows ++ [(j, row j queryId byDoc)] }

end Exporter

/-- The rows that are written for some judgments. -/
def exportRows (hits : Bytes → Option (SortedMap Bytes (FeatureVector R)))
    (js : List Judgment) : List (Judgment × ExportRow R) :=
  (js.foldl (Exporter.step hits) {}).rows

/-- `Args`, without the paths. -/
structure Args where
  topN : ℕ := 1000
  defaultField : Bytes := []

/-- The field of terms without one: the first text field, if none is given. -/
def Args.field (args : Args) (schema : Schema) : Bytes :=
  if args.defaultField ≠ [] then args.defaultField
  else ((schema.fields.find? fun f ↦ f.name ≠ Schema.kIdField && f.type = .text).map
    (·.name)).getD Schema.kIdField

section Search

variable [SortByKey] [SortByScore] [LibcDecimal]

/-- The features of the hits of a query, unless it fails. `Search` does not fail; the search of no
hits at all, which has no result, is taken for one that does. -/
def queryHits (r : IndexReader) (args : Args) (q : Bytes) :
    Option (SortedMap Bytes (FeatureVector R)) :=
  match Query.parse q (args.field r.schema) with
  | .error _ => none
  | .ok ast =>
    (search r ast { size := args.topN, rerankTopN := args.topN,
                    defaultField := args.field r.schema, collectFeatures := true }).map fun res ↦
      (res.hits.zip res.features).foldl (fun m p ↦ m.insert p.1.id p.2) .empty

/-- The rows of `main`, for the reader of an index and a file of judgments. -/
def exportFeatures (R : Type) [Arith R] (r : IndexReader) (args : Args) (judg : Bytes) :
    List (Judgment × ExportRow R) :=
  exportRows (queryHits r args) (judgments judg)

end Search

end Loop

/-! ### The groups of the queries -/

section Groups

variable {R : Type} (hits : Bytes → Option (SortedMap Bytes (FeatureVector R)))

/-- A judgment without an id takes a number if its query fails or has no row yet. The judgments
before it come latest first. -/
def takesNumber (before : List Judgment) (j : Judgment) : Bool :=
  j.queryId.isNone && ((hits j.query).isNone || before.all (·.query ≠ j.query))

/-- How many numbers are taken by some judgments, latest first. -/
def numbersTaken : List Judgment → ℕ
  | [] => 0
  | j :: before => numbersTaken before + if takesNumber hits before j then 1 else 0

/-- The id of the group of a query: its first judgment gives it, or takes it. -/
def groupId (q : Bytes) : List Judgment → Option ℤ
  | [] => none
  | j :: before => (groupId q before).or
      (if j.query = q then some (j.queryId.getD (numbersTaken hits before)) else none)

/-- The id in the row of a judgment. -/
def rowId (js : List Judgment) (j : Judgment) : ℤ :=
  j.queryId.getD ((groupId hits j.query js).getD 0)

variable {hits} {q : Bytes} {j : Judgment} {js : List Judgment} {id : ℤ}

theorem groupId_eq_none_iff : groupId hits q js = none ↔ ∀ j ∈ js, j.query ≠ q := by
  induction js with
  | nil => simp [groupId]
  | cons k js ih => simp [groupId, ih, and_comm]

variable (hits) in
theorem exists_groupId (hj : j ∈ js) (hq : j.query = q) : ∃ id, groupId hits q js = some id := by
  refine Option.ne_none_iff_exists'.1 fun hnone ↦ ?_
  exact groupId_eq_none_iff.1 hnone j hj hq

theorem groupId_cons_of_some (h : groupId hits q js = some id) :
    groupId hits q (j :: js) = some id := by
  rw [groupId, h]
  rfl

theorem groupId_cons_self (h : groupId hits j.query js = none) :
    groupId hits j.query (j :: js) = some (j.queryId.getD (numbersTaken hits js)) := by
  rw [groupId, h, Option.none_or, if_pos rfl]

theorem groupId_cons_of_ne (h : j.query ≠ q) : groupId hits q (j :: js) = groupId hits q js := by
  rw [groupId, if_neg h, Option.or_none]

/-- What was in a row stays its id. -/
theorem rowId_cons {k : Judgment} (hk : k ∈ js) : rowId hits (j :: js) k = rowId hits js k := by
  obtain ⟨id, hid⟩ := exists_groupId hits hk rfl
  rw [rowId, rowId, hid, groupId_cons_of_some hid]

/-- The group of a query is given by a judgment, or is a number that its first judgment takes. -/
theorem groupId_cases (h : groupId hits q js = some id) :
    (∃ j ∈ js, j.query = q ∧ j.queryId = some id) ∨
      ∃ j before, j :: before <:+ js ∧ j.query = q ∧ takesNumber hits before j = true ∧
        id = numbersTaken hits before := by
  induction js with
  | nil => exact absurd h (by simp [groupId])
  | cons k js ih =>
    cases hold : groupId hits q js with
    | some id' =>
      obtain rfl : id' = id := Option.some_inj.1 ((groupId_cons_of_some hold).symm.trans h)
      obtain ⟨j, hj, hgiven⟩ | ⟨j, before, hsuffix, htaken⟩ := ih hold
      · exact Or.inl ⟨j, List.mem_cons_of_mem _ hj, hgiven⟩
      · exact Or.inr ⟨j, before, hsuffix.trans (List.suffix_cons k js), htaken⟩
    | none =>
      by_cases hk : k.query = q
      · subst hk
        rw [groupId_cons_self hold, Option.some_inj] at h
        cases hid : k.queryId with
        | some id' =>
          rw [hid, Option.getD_some] at h
          exact Or.inl ⟨k, List.mem_cons_self, rfl, hid.trans (congrArg some h)⟩
        | none =>
          rw [hid, Option.getD_none] at h
          refine Or.inr ⟨k, js, List.suffix_rfl, rfl, ?_, h.symm⟩
          have hfirst : js.all (·.query ≠ k.query) = true := by
            simpa using groupId_eq_none_iff.1 hold
          rw [takesNumber, hid, hfirst, Bool.or_true]
          rfl
      · rw [groupId_cons_of_ne hk, hold] at h
        exact absurd h (by simp)

variable (hits) in
theorem numbersTaken_le {js' : List Judgment} (h : js <:+ js') :
    numbersTaken hits js ≤ numbersTaken hits js' := by
  induction js' with
  | nil => rw [List.suffix_nil.1 h]
  | cons k js' ih =>
    obtain rfl | h := List.suffix_cons_iff.1 h
    · exact le_rfl
    · exact (ih h).trans (Nat.le_add_right _ _)

/-- **No number is taken twice.** -/
theorem numbersTaken_ne {j j' : Judgment} {before before' : List Judgment}
    (h : j :: before <:+ js) (h' : j' :: before' <:+ js) (hj : takesNumber hits before j = true)
    (hj' : takesNumber hits before' j' = true) (hne : j.query ≠ j'.query) :
    numbersTaken hits before ≠ numbersTaken hits before' := by
  have hless : ∀ {j j' : Judgment} {before before' : List Judgment},
      takesNumber hits before j = true → j.query ≠ j'.query →
      j :: before <:+ j' :: before' → numbersTaken hits before < numbersTaken hits before' := by
    intro j j' before before' hj hne hsuffix
    obtain heq | hsuffix := List.suffix_cons_iff.1 hsuffix
    · exact absurd (congrArg Judgment.query (List.cons.inj heq).1) hne
    · have hle := numbersTaken_le hits hsuffix
      rw [numbersTaken, if_pos hj] at hle
      exact hle
  obtain hsuffix | hsuffix := List.suffix_or_suffix_of_suffix h h'
  · exact (hless hj hne hsuffix).ne
  · exact (hless hj' hne.symm hsuffix).ne'

end Groups

/-! ### The rows -/

section Rows

variable {R : Type} {hits : Bytes → Option (SortedMap Bytes (FeatureVector R))}
  {js : List Judgment} {s : Exporter R}

/-- The loop after some judgments, latest first. -/
structure Exported (hits : Bytes → Option (SortedMap Bytes (FeatureVector R)))
    (js : List Judgment) (s : Exporter R) : Prop where
  autoQid : s.autoQid = numbersTaken hits js
  queryCache : ∀ q, s.queryCache.find? q = (hits q).bind fun byDoc ↦
    (groupId hits q js).map fun queryId ↦ { queryId, byDoc }
  rows : s.rows.map (fun r ↦ (r.1, r.2.queryId)) =
    (js.filter fun j ↦ (hits j.query).isSome).reverse.map fun j ↦ (j, rowId hits js j)

theorem Exported.start : Exported hits [] {} where
  autoQid := rfl
  queryCache q := by
    show none = (hits q).bind fun byDoc ↦ none
    cases hits q <;> rfl
  rows := rfl

theorem numbersTaken_cons_of_some {j : Judgment} {id : ℤ} (hid : j.queryId = some id) :
    numbersTaken hits (j :: js) = numbersTaken hits js := by
  rw [numbersTaken, takesNumber, hid]
  rfl

/-- The counter goes with the numbers taken. -/
theorem Exported.queryId_snd (h : Exported hits js s) (j : Judgment) :
    (s.queryId j).2 = numbersTaken hits (j :: js) := by
  rw [Exporter.queryId]
  cases hid : j.queryId with
  | some id =>
    rw [numbersTaken_cons_of_some hid]
    exact h.autoQid
  | none =>
    show (match s.queryCache.find? j.query with
      | none => (s.autoQid, s.autoQid + 1)
      | some results => (results.queryId, s.autoQid)).2 = _
    rw [h.queryCache, h.autoQid, numbersTaken, takesNumber, hid]
    cases hhits : hits j.query with
    | none =>
      show (numbersTaken hits js : ℤ) + 1 = ((numbersTaken hits js + 1 : ℕ) : ℤ)
      exact (Nat.cast_succ _).symm
    | some byDoc =>
      cases hgroup : groupId hits j.query js with
      | some id =>
        have hold : js.all (·.query ≠ j.query) = false := by
          refine Bool.eq_false_iff.2 fun hall ↦ ?_
          rw [groupId_eq_none_iff.2 (by simpa using hall)] at hgroup
          exact absurd hgroup (by simp)
        rw [hold]
        rfl
      | none =>
        have hfirst : js.all (·.query ≠ j.query) = true := by
          simpa using groupId_eq_none_iff.1 hgroup
        rw [hfirst]
        show (numbersTaken hits js : ℤ) + 1 = ((numbersTaken hits js + 1 : ℕ) : ℤ)
        exact (Nat.cast_succ _).symm

/-- The id of a judgment whose query does not fail is the one its row has in the end. -/
theorem Exported.queryId_fst (h : Exported hits js s) {j : Judgment}
    {byDoc : SortedMap Bytes (FeatureVector R)} (hhits : hits j.query = some byDoc) :
    (s.queryId j).1 = rowId hits (j :: js) j := by
  rw [Exporter.queryId, rowId]
  cases hid : j.queryId with
  | some id => rfl
  | none =>
    show (match s.queryCache.find? j.query with
      | none => (s.autoQid, s.autoQid + 1)
      | some results => (results.queryId, s.autoQid)).1 = _
    rw [h.queryCache, hhits, Option.bind_some, Option.getD_none]
    cases hgroup : groupId hits j.query js with
    | some id =>
      rw [groupId_cons_of_some hgroup]
      rfl
    | none =>
      rw [groupId_cons_self hgroup, hid]
      exact h.autoQid

theorem Exported.step [Arith R] (h : Exported hits js s) (j : Judgment) :
    Exported hits (j :: js) (s.step hits j) := by
  have hcounter := h.queryId_snd j
  have hcache := h.queryCache j.query
  -- the rows there are keep their ids
  have hrows : s.rows.map (fun r ↦ (r.1, r.2.queryId)) =
      (js.filter fun j ↦ (hits j.query).isSome).reverse.map fun k ↦ (k, rowId hits (j :: js) k) :=
    h.rows.trans (List.map_congr_left fun k hk ↦ by
      rw [rowId_cons (List.mem_of_mem_filter (List.mem_reverse.1 hk))])
  have hothers : ∀ q, q ≠ j.query → s.queryCache.find? q = (hits q).bind fun byDoc ↦
      (groupId hits q (j :: js)).map fun queryId ↦ { queryId, byDoc } := fun q hq ↦ by
    rw [h.queryCache, groupId_cons_of_ne hq.symm]
  rw [Exporter.step]
  cases hhits : hits j.query with
  | none =>
    rw [hhits, Option.bind_none] at hcache
    simp only [hcache]
    refine ⟨hcounter, fun q ↦ ?_, ?_⟩
    · by_cases hq : q = j.query
      · rw [hq, hhits]
        exact hcache
      · exact hothers q hq
    · rw [List.filter_cons_of_neg (by simp [hhits])]
      exact hrows
  | some byDoc =>
    have hid := h.queryId_fst hhits
    have hrow : (s.rows ++ [(j, Exporter.row j (s.queryId j).1 byDoc)]).map
        (fun r ↦ (r.1, r.2.queryId)) =
        ((j :: js).filter fun j ↦ (hits j.query).isSome).reverse.map fun k ↦
          (k, rowId hits (j :: js) k) := by
      rw [List.filter_cons_of_pos (by simp [hhits]), List.reverse_cons, List.map_append,
        List.map_append, hrows]
      show _ ++ [(j, (s.queryId j).1)] = _ ++ [(j, rowId hits (j :: js) j)]
      rw [hid]
    rw [hhits, Option.bind_some] at hcache
    cases hgroup : groupId hits j.query js with
    | some id =>
      rw [hgroup, Option.map_some] at hcache
      simp only [hcache]
      refine ⟨hcounter, fun q ↦ ?_, hrow⟩
      by_cases hq : q = j.query
      · rw [hq, hhits, groupId_cons_of_some hgroup]
        exact hcache
      · exact hothers q hq
    | none =>
      rw [hgroup, Option.map_none] at hcache
      simp only [hcache]
      refine ⟨hcounter, fun q ↦ ?_, hrow⟩
      by_cases hq : q = j.query
      · have hnew : groupId hits j.query (j :: js) = some (s.queryId j).1 := by
          rw [hid, rowId, groupId_cons_self hgroup, Option.getD_some]
          cases j.queryId <;> rfl
        rw [hq, hhits, hnew]
        exact SortedMap.find?_insert_self _ _ _
      · exact (SortedMap.find?_insert_of_ne _ hq _).trans (hothers q hq)

variable [Arith R]

theorem exported_foldl (hits : Bytes → Option (SortedMap Bytes (FeatureVector R)))
    (js : List Judgment) : Exported hits js.reverse (js.foldl (Exporter.step hits) {}) := by
  induction js using List.reverseRecOn with
  | nil => exact .start
  | append_singleton js j ih =>
    rw [List.reverse_append, List.foldl_append]
    exact ih.step j

/-- **The rows that are written**: those of the judgments whose query does not fail, each with the
id its judgment gives or the one of its group. -/
theorem exportRows_ids (hits : Bytes → Option (SortedMap Bytes (FeatureVector R)))
    (js : List Judgment) : (exportRows hits js).map (fun r ↦ (r.1, r.2.queryId)) =
      (js.filter fun j ↦ (hits j.query).isSome).map fun j ↦ (j, rowId hits js.reverse j) := by
  have hrows := (exported_foldl hits js).rows
  rwa [List.filter_reverse, List.reverse_reverse] at hrows

theorem of_mem_exportRows {r : Judgment × ExportRow R} (h : r ∈ exportRows hits js) :
    r.1 ∈ js ∧ (hits r.1.query).isSome = true ∧ r.2.queryId = rowId hits js.reverse r.1 := by
  have hmem := List.mem_map_of_mem (f := fun r : Judgment × ExportRow R ↦ (r.1, r.2.queryId)) h
  rw [exportRows_ids] at hmem
  obtain ⟨j, hj, heq⟩ := List.mem_map.1 hmem
  obtain ⟨rfl, hid⟩ := Prod.mk.inj heq
  obtain ⟨hj, hhits⟩ := List.mem_filter.1 hj
  exact ⟨hj, hhits, hid.symm⟩

theorem exists_mem_exportRows {j : Judgment} (hj : j ∈ js) (hhits : (hits j.query).isSome = true) :
    ∃ row, (j, row) ∈ exportRows hits js ∧ row.queryId = rowId hits js.reverse j := by
  have hmem : (j, rowId hits js.reverse j) ∈
      (exportRows hits js).map fun r ↦ (r.1, r.2.queryId) := by
    rw [exportRows_ids]
    exact List.mem_map.2 ⟨j, List.mem_filter.2 ⟨hj, hhits⟩, rfl⟩
  obtain ⟨r, hr, heq⟩ := List.mem_map.1 hmem
  obtain ⟨rfl, hid⟩ := Prod.mk.inj heq
  exact ⟨r.2, hr, hid⟩

end Rows

/-! ### Groups that are apart -/

/-- Rows of two queries have two ids, if one of these was assigned; the assigned ids of a query are
one. -/
structure GroupsApart {R : Type} (rows : List (Judgment × ExportRow R)) : Prop where
  apart : ∀ a ∈ rows, ∀ b ∈ rows, a.1.query ≠ b.1.query →
    a.1.queryId = none ∨ b.1.queryId = none → a.2.queryId ≠ b.2.queryId
  same : ∀ a ∈ rows, ∀ b ∈ rows, a.1.query = b.1.query → a.1.queryId = none →
    b.1.queryId = none → a.2.queryId = b.2.queryId

/-- No judgment gives to another query the id of a group that has judgments without one. -/
def IdsApart {R : Type} (hits : Bytes → Option (SortedMap Bytes (FeatureVector R)))
    (js : List Judgment) : Prop :=
  ∀ a ∈ js, ∀ b ∈ js, (hits a.query).isSome = true → (hits b.query).isSome = true →
    a.query ≠ b.query → a.queryId = none → b.queryId ≠ groupId hits a.query js.reverse

section Apart

variable {R : Type} {hits : Bytes → Option (SortedMap Bytes (FeatureVector R))}
  {js : List Judgment} {a b : Judgment}

/-- Two queries without an id of their own are not in one group. -/
theorem IdsApart.groupId_ne (h : IdsApart hits js) (ha : a ∈ js) (hb : b ∈ js)
    (hhits : (hits a.query).isSome = true) (hhits' : (hits b.query).isSome = true)
    (hne : a.query ≠ b.query) (hnone : a.queryId = none) (hnone' : b.queryId = none) :
    groupId hits a.query js.reverse ≠ groupId hits b.query js.reverse := by
  intro heq
  obtain ⟨id, hid⟩ := exists_groupId hits (List.mem_reverse.2 ha) rfl
  have hid' := heq.symm.trans hid
  obtain ⟨j, hj, hquery, hgiven⟩ | ⟨j, before, hsuffix, hquery, htaken, hn⟩ := groupId_cases hid
  · -- the first judgment of `a`'s query gives the id of `b`'s group
    rw [List.mem_reverse] at hj
    rw [← hquery] at hhits hne
    exact h b hb j hj hhits' hhits hne.symm hnone' (hgiven.trans hid'.symm)
  · obtain ⟨k, hk, hquery', hgiven⟩ | ⟨k, before', hsuffix', hquery', htaken', hn'⟩ :=
      groupId_cases hid'
    · rw [List.mem_reverse] at hk
      rw [← hquery'] at hhits' hne
      exact h a ha k hk hhits hhits' hne hnone (hgiven.trans hid.symm)
    · rw [← hquery, ← hquery'] at hne
      exact numbersTaken_ne hsuffix hsuffix' htaken htaken' hne
        (by exact_mod_cast hn.symm.trans hn')

variable (hits) in
theorem rowId_of_none (ha : a ∈ js) (hnone : a.queryId = none) :
    groupId hits a.query js.reverse = some (rowId hits js.reverse a) := by
  obtain ⟨id, hid⟩ := exists_groupId hits (List.mem_reverse.2 ha) rfl
  rw [rowId, hnone, hid]
  rfl

theorem rowId_of_some {id : ℤ} (hid : a.queryId = some id) :
    rowId hits js.reverse a = id := by
  rw [rowId, hid]
  rfl

/-- A row with an assigned id has no other query's id. -/
theorem IdsApart.rowId_ne (h : IdsApart hits js) (ha : a ∈ js) (hb : b ∈ js)
    (hhits : (hits a.query).isSome = true) (hhits' : (hits b.query).isSome = true)
    (hne : a.query ≠ b.query) (hnone : a.queryId = none) :
    rowId hits js.reverse a ≠ rowId hits js.reverse b := by
  intro heq
  have hgroup := rowId_of_none hits ha hnone
  cases hid : b.queryId with
  | some id =>
    refine h a ha b hb hhits hhits' hne hnone ?_
    rw [hgroup, heq, rowId_of_some hid, hid]
  | none =>
    refine h.groupId_ne ha hb hhits hhits' hne hnone hid ?_
    rw [hgroup, heq, rowId_of_none hits hb hid]

/-- **Exported groups** are apart exactly if the ids that are given leave them so. -/
theorem groupsApart_exportRows_iff [Arith R] :
    GroupsApart (exportRows hits js) ↔ IdsApart hits js := by
  constructor
  · intro h a ha b hb hhits hhits' hne hnone hid
    obtain ⟨row, hrow, hrowId⟩ := exists_mem_exportRows ha hhits
    obtain ⟨row', hrow', hrowId'⟩ := exists_mem_exportRows hb hhits'
    refine h.apart _ hrow _ hrow' hne (Or.inl hnone) ?_
    rw [hrowId, hrowId', rowId_of_some (hid.trans (rowId_of_none hits ha hnone))]
  · intro h
    constructor
    · intro a ha b hb hne hassigned
      obtain ⟨ha, hhits, hid⟩ := of_mem_exportRows ha
      obtain ⟨hb, hhits', hid'⟩ := of_mem_exportRows hb
      rw [hid, hid']
      obtain hnone | hnone := hassigned
      · exact h.rowId_ne ha hb hhits hhits' hne hnone
      · exact (h.rowId_ne hb ha hhits' hhits hne.symm hnone).symm
    · intro a ha b hb heq hnone hnone'
      obtain ⟨-, -, hid⟩ := of_mem_exportRows ha
      obtain ⟨-, -, hid'⟩ := of_mem_exportRows hb
      rw [hid, hid', rowId, rowId, hnone, hnone', heq]

end Apart

section Main

variable {R : Type} [Arith R] [SortByKey] [SortByScore] [LibcDecimal]

/-- **Exported query groups** do not collide exactly if no judgment gives to another query the id of
a group that has judgments without one. -/
theorem groupsApart_iff (r : IndexReader) (args : Args) (judg : Bytes) :
    GroupsApart (exportFeatures R r args judg) ↔
      IdsApart (queryHits (R := R) r args) (judgments judg) :=
  groupsApart_exportRows_iff

end Main

/-- Two judgments, the first of which gives the number that the second takes. -/
def sampleJudgments : Bytes :=
  str "\x7b\"query\":\"cat\",\"doc_id\":\"1\",\"label\":1,\"query_id\":0\x7d\n" ++
    str "\x7b\"query\":\"dog\",\"doc_id\":\"1\",\"label\":1\x7d\n"

theorem not_groupsApart : ¬∀ (r : IndexReader) (args : Args) (judg : Bytes),
    GroupsApart (@exportFeatures mergeSortByKey mergeSortByScore .integral ℝ _ r args judg) := by
  let _ := mergeSortByKey
  let _ := mergeSortByScore
  let _ := LibcDecimal.integral
  intro h
  have hjs : judgments sampleJudgments =
      [{ query := str "cat", docId := str "1", label := 1, queryId := some 0 },
        { query := str "dog", docId := str "1", label := 1, queryId := none }] := by
    decide +kernel
  have happart := h { schema := sampleSchema, segments := [] } {} sampleJudgments
  rw [exportFeatures, groupsApart_exportRows_iff, hjs] at happart
  refine happart _ (List.mem_cons_of_mem _ List.mem_cons_self) _ List.mem_cons_self ?_ ?_
    (by decide) rfl rfl
  · have hparse : Query.parse (str "dog") (Args.field {} sampleSchema) =
        .ok (.term (str "t") (str "dog")) := by rfl
    rw [queryHits, hparse]
    rfl
  · have hparse : Query.parse (str "cat") (Args.field {} sampleSchema) =
        .ok (.term (str "t") (str "cat")) := by rfl
    rw [queryHits, hparse]
    rfl

end Spp.Tools
