import SearchPlusPlus.Index.SegmentAgreement
import SearchPlusPlus.Json.Grammar
import SearchPlusPlus.Lib.Compaction
import SearchPlusPlus.Server.RequestBody

/-!
# Token weights over HTTP

`PostDoc` keeps the numbers of an array of weights, and `AddDocument` reads them by the positions
of the tokens. So an element that is no number moves every later weight one token ahead
(`aligned_iff`).

What is stored for a term is the greatest of the weights at its occurrences, whatever they are
(`maxWeight_termStats`).
-/

namespace Spp.Index

open Analyze

/-- The weights at the occurrences of a term. -/
def weightsAt (weight : ℕ → F32) (term : Bytes) (tokens : List Token) : List F32 :=
  (tokens.zipIdx.filter fun t ↦ t.1.text = term).map fun t ↦ weight t.2

theorem weightsAt_append_singleton (weight : ℕ → F32) (term : Bytes) (tokens : List Token)
    (t : Token) : weightsAt weight term (tokens ++ [t]) =
      weightsAt weight term tokens ++ if t.text = term then [weight tokens.length] else [] := by
  rw [weightsAt, List.zipIdx_append, List.filter_append, List.map_append, weightsAt, Nat.zero_add]
  show _ ++ ((List.filter _ [(t, tokens.length)]).map _) = _
  by_cases h : t.text = term
  · rw [List.filter_cons_of_pos (by simpa using h), if_pos h]
    rfl
  · rw [List.filter_cons_of_neg (by simpa using h), if_neg h]
    rfl

/-- The weights at the occurrences are all that counts. -/
theorem weightsAt_congr {weight weight' : ℕ → F32} {term : Bytes} {tokens : List Token}
    (h : ∀ i < tokens.length, weight i = weight' i) :
    weightsAt weight term tokens = weightsAt weight' term tokens := by
  refine List.map_congr_left fun t ht ↦ h t.2 ?_
  exact (List.getElem?_eq_some_iff.1
    (List.mem_zipIdx_iff_getElem?.1 (List.mem_of_mem_filter ht))).1

theorem maxWeight_tokenStats (ws : List F32) (pi : ℕ) (st : PerDocTermStats) :
    (tokenStats (some ws) pi st).maxWeight =
      if st.maxWeight.lt (ws.getD pi F32.one) then ws.getD pi F32.one else st.maxWeight := by
  rw [tokenStats]
  dsimp only
  split_ifs <;> rfl

/-- **The weight of a term** is the greatest at its occurrences. -/
theorem maxWeight_termStats (ws : List F32) (tokens : List Token) (term : Bytes) :
    F32.GreatestOf (((termStats (some ws) tokens).find? term).getD {}).maxWeight
      (weightsAt (fun i ↦ ws.getD i F32.one) term tokens) := by
  induction tokens using List.reverseRecOn with
  | nil => exact .nil
  | append_singleton tokens t ih =>
    rw [termStats_append_singleton, weightsAt_append_singleton, SortedMap.find?_insert]
    by_cases h : term = t.text
    · subst h
      rw [if_pos rfl, if_pos rfl, Option.getD_some, maxWeight_tokenStats]
      split_ifs with hlt
      · exact ih.raise hlt
      · exact ih.keep (Bool.not_eq_true _ ▸ hlt)
    · rw [if_neg h, if_neg (Ne.symm h), List.append_nil]
      exact ih

/-- It is 0 or more than 0. -/
theorem maxWeight_termStats_pos (ws : List F32) (tokens : List Token) (term : Bytes) :
    (((termStats (some ws) tokens).find? term).getD {}).maxWeight = F32.zero ∨
      F32.zero.lt (((termStats (some ws) tokens).find? term).getD {}).maxWeight = true := by
  induction tokens using List.reverseRecOn with
  | nil => exact Or.inl rfl
  | append_singleton tokens t ih =>
    rw [termStats_append_singleton, SortedMap.find?_insert]
    by_cases h : term = t.text
    · subst h
      rw [if_pos rfl, Option.getD_some, maxWeight_tokenStats]
      split_ifs with hlt
      · rcases ih with ih | ih
        · rw [ih] at hlt
          exact Or.inr hlt
        · exact Or.inr (F32.lt_trans ih hlt)
      · exact ih
    · rw [if_neg h]
      exact ih

end Spp.Index

namespace Spp.Server

open Index Json Analyze Compaction

/-! ### Alignment -/

/-- The weight that `AddDocument` uses for a token. -/
def usedWeight (f : FieldMapping) (doc : Document) (i : ℕ) : F32 :=
  (fieldWeights f doc).elim F32.one fun ws ↦ ws.getD i F32.one

/-- The weight at the place of a token: the element there, if it is a number. -/
def expectedWeight (a : JsonArray) (i : ℕ) : F32 :=
  match a[i]? with
  | some v => if v.isNumber then v.asDouble.toF32 else F32.one
  | none => F32.one

theorem expectedWeight_eq (a : JsonArray) (i : ℕ) : expectedWeight a i =
    readAt JsonValue.isNumber (fun v ↦ v.asDouble.toF32) F32.one a i := by
  rw [expectedWeight, readAt]
  cases a[i]? with
  | none => rfl
  | some v => cases hv : v.isNumber <;> simp [Option.filter_some, hv]

variable [LibcDecimal]

/-- The weights of a document are those at the places of its tokens, and so is what every segment
that takes the document in holds for its terms. -/
structure Aligned (schema : Schema) (fieldId : ℕ) (f : FieldMapping) (doc : Document)
    (a : JsonArray) : Prop where
  used : ∀ i < (docTokens f doc).length, usedWeight f doc i = expectedWeight a i
  stored : ∀ docs id fd term ps p, (MutableSegment.acceptedDocs docs)[id]? = some doc →
    ((MutableSegment.new schema).addDocuments docs).fieldData[fieldId]? = some fd →
      fd.postings.find? term = some ps → p ∈ ps → p.docId = id →
        F32.GreatestOf p.maxTokenWeight (weightsAt (expectedWeight a) term (docTokens f doc))

variable {schema : Schema} {fieldId : ℕ} {f : FieldMapping} {doc : Document} {a : JsonArray}

/-- What is stored follows from what is used. -/
theorem aligned_of_used (hf : schema.fields[fieldId]? = some f) {ws : List F32}
    (hws : fieldWeights f doc = some ws)
    (hused : ∀ i < (docTokens f doc).length, usedWeight f doc i = expectedWeight a i) :
    Aligned schema fieldId f doc a where
  used := hused
  stored docs id fd term ps p hdoc hfd hps hp hid := by
    rw [MutableSegment.addDocuments_new] at hfd
    have hget :
        (MutableSegment.build schema (MutableSegment.acceptedDocs docs)).fieldData[fieldId]? =
        some (fieldDataOf f (MutableSegment.acceptedDocs docs)) := by
      simp [MutableSegment.build, hf]
    obtain rfl := Option.some.inj (hfd.symm.trans hget)
    rw [find?_fieldDataOf] at hps
    split_ifs at hps
    obtain rfl := Option.some.inj hps
    obtain ⟨doc', hdoc', hpost⟩ := mem_postingsOf.1 hp
    rw [hid] at hdoc' hpost
    obtain rfl := Option.some.inj (hdoc.symm.trans hdoc')
    obtain ⟨st, hst, rfl⟩ := Option.map_eq_some_iff.1 hpost
    have hmax := maxWeight_termStats ws (docTokens f doc) term
    rw [← hws, hst, Option.getD_some] at hmax
    have hsame : weightsAt (fun i ↦ ws.getD i F32.one) term (docTokens f doc) =
        weightsAt (expectedWeight a) term (docTokens f doc) :=
      weightsAt_congr fun i hi ↦ by
        rw [← hused i hi, usedWeight, hws]
        rfl
    rw [toPosting, hws]
    exact hsame ▸ hmax

/-- **Weights stay aligned** exactly if each number behind the first element that is none counts 1,
among as many numbers as there are tokens. -/
theorem aligned_iff {body : Bytes} {obj : JsonObject} (hf : schema.fields[fieldId]? = some f)
    (hstore : f.storeTokenWeights = true) (hbody : parse body = .ok (.object obj))
    (ha : Assoc.find? (f.name ++ str "_weights") obj = some (.array a)) :
    Aligned schema fieldId f (postedDocument obj) a ↔
      ∀ w ∈ ((numberWeights a).take (docTokens f (postedDocument obj)).length).drop
        (a.takeWhile JsonValue.isNumber).length, w = F32.one := by
  have hname : f.name ≠ [] := schema.name_ne_nil f (List.mem_of_getElem? hf)
  have hws : fieldWeights f (postedDocument obj) = some (numberWeights a) := by
    rw [fieldWeights, if_pos hstore,
      find?_weights_postedDocument (wellFormed_of_parse hbody).1 hname, ha]
    rfl
  have hread := readCompact_eq_iff (p := JsonValue.isNumber) (g := fun v ↦ v.asDouble.toF32)
    (d := F32.one) a (docTokens f (postedDocument obj)).length
  refine Iff.trans ?_ hread
  constructor
  · intro h i hi
    rw [← expectedWeight_eq, ← h.used i hi, usedWeight, hws]
    rfl
  · intro h
    refine aligned_of_used hf hws fun i hi ↦ ?_
    rw [expectedWeight_eq, ← h i hi, usedWeight, hws]
    rfl

omit [LibcDecimal]

/-- The field of `sampleSchema` that stores weights. -/
def weightedField : FieldMapping :=
  { name := str "t", stored := true, positionDecay := F32.one, storeTokenWeights := true }

/-- A document with two tokens and these weights. -/
def weightedPost (a : JsonArray) : JsonObject :=
  [(str "_id", .string (str "a")), (str "t", .string (str "x y")), (str "t_weights", .array a)]

theorem parse_weightedPost {a : JsonArray} (hwf : JsonValue.WellFormedElems a)
    (hno : NoDoublesElems a) :
    @parse .integral (@serialize .integral (.object (weightedPost a))) =
      .ok (.object (weightedPost a)) := by
  have hkeys : [str "_id", str "t", str "t_weights"].Pairwise (· < ·) := by decide
  have hsorted : Assoc.Sorted (weightedPost a) := by
    refine (List.pairwise_map (f := Prod.fst)).1 ?_
    exact hkeys
  exact @parse_serialize_of_noDoubles .integral (.object (weightedPost a))
    ⟨hsorted, trivial, trivial, hwf, trivial⟩ ⟨trivial, trivial, hno, trivial⟩

theorem aligned_iff_sample :
    @Aligned .integral sampleSchema 1 weightedField
        (@postedDocument .integral (weightedPost [.int 2, .int 3])) [.int 2, .int 3] ↔
      ∀ w ∈ ((numberWeights [.int 2, .int 3]).take
          (docTokens weightedField (@postedDocument .integral
            (weightedPost [.int 2, .int 3]))).length).drop
        (List.takeWhile JsonValue.isNumber [.int 2, .int 3]).length, w = F32.one :=
  @aligned_iff .integral sampleSchema 1 weightedField [.int 2, .int 3] _ _ rfl rfl
    (parse_weightedPost (a := [.int 2, .int 3]) ⟨trivial, trivial, trivial⟩
      ⟨trivial, trivial, trivial⟩) rfl

/-- A null moves the weight 2 to the first token. -/
theorem not_aligned : ¬∀ (schema : Schema) (fieldId : ℕ) (f : FieldMapping) (body : Bytes)
    (obj : JsonObject) (a : JsonArray),
    schema.fields[fieldId]? = some f → f.storeTokenWeights = true →
      @parse .integral body = .ok (.object obj) →
        Assoc.find? (f.name ++ str "_weights") obj = some (.array a) →
          @Aligned .integral schema fieldId f (@postedDocument .integral obj) a := by
  intro h
  have haligned := h sampleSchema 1 weightedField _ _ [.null, .int 2] rfl rfl
    (parse_weightedPost (a := [.null, .int 2]) ⟨trivial, trivial, trivial⟩
      ⟨trivial, trivial, trivial⟩) rfl
  have hfirst : usedWeight weightedField (@postedDocument .integral
      (weightedPost [.null, .int 2])) 0 = expectedWeight [.null, .int 2] 0 :=
    @Aligned.used .integral _ _ _ _ _ haligned 0 (by decide +kernel)
  exact absurd hfirst (by decide +kernel)

end Spp.Server
