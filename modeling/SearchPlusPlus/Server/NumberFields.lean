import SearchPlusPlus.Json.Grammar
import SearchPlusPlus.Query.Results
import SearchPlusPlus.Server.RequestBody

/-!
# Numbers in keyword fields

`PostDoc` indexes the text that `std::to_string` prints of a number as a double, and the analyzer of
a keyword field leaves every text as it is. So an integer is indexed with six decimals, and the
query of its own text does not find it (`not_finds_integer`).
-/

namespace Spp.Query

open Index Analyze

/-- A keyword field has one text only: its value. -/
theorem satisfiesTerm_keyword_iff {schema : Schema} {doc : Document} {field text : Bytes}
    {f : FieldMapping} (hf : schema.getField? field = some f) (hkeyword : f.type = .keyword) :
    satisfiesTerm schema doc field text = true ↔ text ≠ [] ∧ fieldValue f doc = some text := by
  have hanalyzer : analyzerForField f = .keyword := by rw [analyzerForField, hkeyword]
  have htexts : ∀ value : Bytes, value ≠ [] →
      (Analyzer.keyword.analyze value).map (·.text) = [value] := fun value hvalue ↦ by
    rw [Analyzer.analyze, if_neg hvalue]
    rfl
  have htokens : ∀ t : Bytes, t ≠ [] →
      (t ∈ (docTokens f doc).map (·.text) ↔ fieldValue f doc = some t) := fun t ht ↦ by
    rw [docTokens, hanalyzer]
    cases hvalue : fieldValue f doc with
    | none => simp
    | some value =>
      by_cases hnil : value = []
      · subst hnil
        simpa using ht.symm
      · show t ∈ (Analyzer.keyword.analyze value).map _ ↔ _
        rw [htexts value hnil, List.mem_singleton, Option.some_inj, eq_comm]
  rw [satisfiesTerm, hf]
  simp only [hanalyzer]
  by_cases hnil : text = []
  · subst hnil
    simp
  · have hanalyze : Analyzer.keyword.analyze text =
        [{ text, endOffset := UInt32.ofNat text.length }] := by rw [Analyzer.analyze, if_neg hnil]
    simp [hanalyze, ← htokens text hnil, hnil]

/-- A query finds the document at a place: stage 1 collects it. -/
def Finds {R : Type} [Arith R] [SortByKey] (r : IndexReader) (q : QueryAst) (params : Bm25Params R)
    (i d : ℕ) : Prop :=
  ∃ entries, stage1Entries r q params = some entries ∧
    ∃ e ∈ entries, e.segmentIndex = i ∧ e.docId = d

theorem finds_iff [LibcDecimal] {R : Type} [Arith R] [SortByKey] (ix : SealedIndex) (q : QueryAst)
    (params : Bm25Params R) {i d : ℕ} : Finds ix.reader q params i d ↔
      ∃ doc, ix.docAt i d = some doc ∧ satisfies ix.schema doc q = true := by
  rw [← mem_matchingEntries_iff_docAt q ix params, Finds, ← ix.reader_posted, stage1Entries_reader]
  simp

end Spp.Query

namespace Spp.Server

open Index Json Query

/-- The format of `std::to_string` of a double: six places behind a point. -/
def SixDecimals [LibcDecimal] : Prop :=
  ∀ d : F64, d.isFinite = true → ∃ whole places,
    LibcDecimal.toString d = whole ++ str "." ++ places ∧ places.length = 6

/-- There is no point in an integer. -/
theorem point_notMem_decimalInt (i : ℤ) : (46 : UInt8) ∉ decimalInt i := by
  have hdigits : ∀ n, (46 : UInt8) ∉ decimal n := fun n hmem ↦
    absurd (isDigit_of_mem_decimal n _ hmem) (by decide)
  rw [decimalInt]
  split_ifs
  · rw [List.mem_cons, not_or]
    exact ⟨by decide, hdigits _⟩
  · exact hdigits _

variable [LibcDecimal]

/-- An integer is not indexed as its own text. -/
theorem indexedText_int_ne (hsix : SixDecimals) {n : Int64} (hn : n.toInt.natAbs < 2 ^ 53)
    (k : Bytes) : indexedText k (.int n) ≠ some (decimalInt n.toInt) := by
  obtain ⟨whole, places, hprint, -⟩ := hsix _ (F64.isFinite_ofInt64 hn)
  rw [indexedText]
  split_ifs
  · exact Option.some_ne_none _ ∘ Eq.symm
  · intro htext
    have hsame := Option.some.inj htext
    refine point_notMem_decimalInt n.toInt (hsame ▸ ?_)
    rw [hprint]
    simp [str]

/-- **Integers are not found by their own text**, in no index that holds the document. -/
theorem not_finds_integer {R : Type} [Arith R] [SortByKey] (hsix : SixDecimals) {ix : SealedIndex}
    {field : Bytes} {f : FieldMapping} (hf : ix.schema.getField? field = some f)
    (hkeyword : f.type = .keyword) (hid : field ≠ Schema.kIdField) {body : Bytes}
    {obj : JsonObject} (hbody : Json.parse body = .ok (.object obj)) {n : Int64}
    (hn : n.toInt.natAbs < 2 ^ 53) (hfield : Assoc.find? field obj = some (.int n)) {i d : ℕ}
    (hdoc : ix.docAt i d = some (postedDocument obj)) (params : Bm25Params R) :
    ¬Finds ix.reader (.term field (decimalInt n.toInt)) params i d := by
  have hname : f.name = field := by simpa using List.find?_some hf
  have hvalue : fieldValue f (postedDocument obj) = indexedText field (.int n) := by
    rw [fieldValue, hname, if_neg hid,
      find?_fields_postedDocument (wellFormed_of_parse hbody).1 hid, hfield, Option.bind_some]
  rw [finds_iff]
  rintro ⟨doc, hdoc', hsat⟩
  obtain rfl := Option.some.inj (hdoc.symm.trans hdoc')
  have htext := ((satisfiesTerm_keyword_iff hf hkeyword).1 hsat).2
  exact indexedText_int_ne hsix hn field (hvalue.symm.trans htext)

omit [LibcDecimal]

theorem sixDecimals_integral : @SixDecimals .integral := fun d _ ↦
  ⟨decimal d.value.floorNat, str "000000",
    (List.append_assoc (decimal d.value.floorNat) (str ".") (str "000000")).symm, rfl⟩

/-- The body of a request for an index with a keyword field. -/
def keywordIndex : JsonValue :=
  .object [(str "mappings", .object [(str "n", .object [(str "type", .string (str "keyword"))])])]

/-- The field of its mappings. -/
def keywordField : FieldMapping :=
  { name := str "n", type := .keyword, analyzer := str "keyword" }

/-- The schema that is made of it. -/
def keywordSchema : Schema where
  fields := [
    { name := Schema.kIdField, type := .keyword, stored := true, analyzer := str "keyword" },
    keywordField]
  name_ne_nil := by decide
  nodup_names := by decide
  length_le := by decide

/-- A document with an integer in that field. -/
def keywordPost : JsonObject := [(str "_id", .string (str "a")), (str "n", .int 5)]

theorem createdSchema_keywordIndex :
    @createdSchema .integral (@serialize .integral keywordIndex) = .ok keywordSchema := by
  let _ := LibcDecimal.integral
  have hparse : Json.parse (serialize keywordIndex) = .ok keywordIndex :=
    parse_serialize_of_noDoubles (v := keywordIndex)
      ⟨by decide, ⟨by decide, ⟨by decide, trivial, trivial⟩, trivial⟩, trivial⟩
      ⟨⟨⟨trivial, trivial⟩, trivial⟩, trivial⟩
  rw [createdSchema, parseBody, hparse]
  rfl

theorem parse_keywordPost :
    @Json.parse .integral (@serialize .integral (.object keywordPost)) =
      .ok (.object keywordPost) :=
  @parse_serialize_of_noDoubles .integral (.object keywordPost)
    ⟨by decide, trivial, trivial, trivial⟩ ⟨trivial, trivial, trivial⟩

/-- There is an index of that document. -/
theorem exists_keywordIndex : ∃ ix : @SealedIndex .integral,
    @SealedIndex.schema .integral ix = keywordSchema ∧
      @SealedIndex.docAt .integral ix 0 0 = some (@postedDocument .integral keywordPost) := by
  let _ := LibcDecimal.integral
  obtain ⟨seg, hdocs, -⟩ := @SealedSegment.exists_sealThenOpen .integral keywordSchema
    [postedDocument keywordPost] (str "seg") (fun _ ↦ none) (by decide +kernel)
    { names := by decide
      terms := by decide +kernel
      blobs := by decide +kernel
      tim := by decide +kernel
      doc := by decide +kernel
      fdt := by decide +kernel
      termCounts := by decide +kernel } (.inr rfl)
  refine ⟨{ schema := keywordSchema, segments := [seg] }, rfl, ?_⟩
  show seg.docs[0]? = _
  rw [hdocs]
  rfl

theorem not_finds_integer_sample : ∃ ix : @SealedIndex .integral,
    ¬@Finds ℝ _ mergeSortByKey (@SealedIndex.reader .integral ix)
      (.term (str "n") (decimalInt (5 : Int64).toInt)) {} 0 0 := by
  let _ := mergeSortByKey
  let _ := LibcDecimal.integral
  obtain ⟨ix, hschema, hdoc⟩ := exists_keywordIndex
  have hf : ix.schema.getField? (str "n") = some keywordField := by
    rw [hschema]
    rfl
  exact ⟨ix, not_finds_integer sixDecimals_integral hf rfl (by decide) parse_keywordPost
    (by decide) rfl hdoc {}⟩

/-- The query of 5 does not find the document with 5. -/
theorem not_integer_found : ¬∀ (putBody : Bytes) (ix : @SealedIndex .integral),
    @createdSchema .integral putBody = .ok (@SealedIndex.schema .integral ix) →
    ∀ (field : Bytes) (f : FieldMapping) (body : Bytes) (obj : JsonObject) (n : Int64) (i d : ℕ),
      (@SealedIndex.schema .integral ix).getField? field = some f → f.type = .keyword →
      field ≠ Schema.kIdField → @Json.parse .integral body = .ok (.object obj) →
      n.toInt.natAbs < 2 ^ 53 → Assoc.find? field obj = some (.int n) →
      @SealedIndex.docAt .integral ix i d = some (@postedDocument .integral obj) →
        @Finds ℝ _ mergeSortByKey (@SealedIndex.reader .integral ix)
          (.term field (decimalInt n.toInt)) {} i d := by
  let _ := mergeSortByKey
  let _ := LibcDecimal.integral
  intro h
  obtain ⟨ix, hschema, hdoc⟩ := exists_keywordIndex
  have hf : ix.schema.getField? (str "n") = some keywordField := by
    rw [hschema]
    rfl
  have hfinds := h _ ix (hschema ▸ createdSchema_keywordIndex) (str "n") _ _ keywordPost 5 0 0 hf
    rfl (by decide) parse_keywordPost (by decide) rfl hdoc
  obtain ⟨doc, hdoc', hsat⟩ := (finds_iff ix _ {}).1 hfinds
  obtain rfl := Option.some.inj (hdoc.symm.trans hdoc')
  have htext := ((satisfiesTerm_keyword_iff hf rfl).1 hsat).2
  exact absurd htext (by decide +kernel)

end Spp.Server
