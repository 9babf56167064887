import SearchPlusPlus.Analyze.Words
import SearchPlusPlus.Query.QueryGrammar
import SearchPlusPlus.Query.Results

/-!
# The query of a document's own words

The words of a text, with spaces between them, are parsed to a conjunction of terms
(`parse_ownWords`). A document with that text has every term that is not a stop word, and `Build`
makes an empty iterator of one that is: the document is found exactly if no word of its text is a
stop word (`returns_ownWords_iff`).
-/

namespace Spp.Query

open Index Analyze

/-- The words of a text, with a space between any two. -/
def ownWords (value : Bytes) : Bytes := [32].intercalate (runs value)

/-! ### Parsing -/

theorem isIdentChar_of_isTokenChar {c : UInt8} (h : isTokenChar c = true) :
    isIdentChar c = true := by
  rw [isTokenChar] at h
  rw [isIdentChar, h]
  rfl

/-- The lexemes of words with spaces between them are the words. -/
theorem lexemes_intercalate {words : List Bytes}
    (h : ∀ word ∈ words, word ≠ [] ∧ ∀ c ∈ word, isIdentChar c = true) :
    lexemes ([32].intercalate words) = words.map .ident := by
  induction words with
  | nil => rfl
  | cons word words ih =>
    obtain ⟨⟨hne, hword⟩, hwords⟩ := List.forall_mem_cons.1 h
    cases words with
    | nil =>
      have hlex := lexemes_word_append hne hword (show startsIdent [] = false from rfl)
      rw [List.append_nil] at hlex
      rw [List.intercalate_singleton, hlex]
      rfl
    | cons word' words =>
      have hspace : ∀ rest, lexemes (32 :: rest) = lexemes rest := fun rest ↦
        (lexemes_skipWs (32 :: rest)).symm.trans (lexemes_skipWs rest)
      rw [List.intercalate_cons_cons, List.append_assoc, List.singleton_append,
        lexemes_word_append hne hword rfl, hspace, ih hwords]
      rfl

section Parse

variable (field : Bytes) {words : List Bytes}

/-- Words beside each other, none of them a keyword, are the rest of a conjunction. -/
theorem derives_beside (h : ∀ word ∈ words, word ≠ [] ∧ word ≠ str "AND" ∧ word ≠ str "OR") :
    Derives ReadsAsWord field .andRest (words.map .ident) (words.map (.term field)) := by
  induction words with
  | nil => exact .andNil
  | cons word words ih =>
    obtain ⟨⟨hne, hand, hor⟩, hwords⟩ := List.forall_mem_cons.1 h
    have hword : ReadsAsWord .beside (.ident word) := by
      refine ⟨hne, ?_⟩
      rintro (heq | heq)
      · exact hand (Lexeme.ident.inj heq)
      · exact hor (Lexeme.ident.inj heq)
    exact .andBeside (.term hword) (ih hwords)

/-- **Words with spaces between them** are the conjunction of their terms. -/
theorem parse_ownWords {value : Bytes} (hne : runs value ≠ []) (hand : str "AND" ∉ runs value)
    (hor : str "OR" ∉ runs value) : parse (ownWords value) field =
      .ok (unlessOne .conjunction ((runs value).map (.term field))) := by
  have hlex : lexemes (ownWords value) = (runs value).map .ident :=
    lexemes_intercalate fun word hword ↦ ⟨(mem_runs hword).1, fun c hc ↦
      isIdentChar_of_isTokenChar ((mem_runs hword).2 c hc)⟩
  have hwords : ∀ word ∈ runs value, word ≠ [] ∧ word ≠ str "AND" ∧ word ≠ str "OR" :=
    fun word hword ↦ ⟨(mem_runs hword).1, fun heq ↦ hand (heq ▸ hword), fun heq ↦
      hor (heq ▸ hword)⟩
  rw [parse_iff_readsAsWord, hlex]
  generalize runs value = words at hne hwords
  obtain ⟨word, words, rfl⟩ := List.exists_cons_of_ne_nil hne
  obtain ⟨⟨hword, -⟩, hrest⟩ := List.forall_mem_cons.1 hwords
  have hfirst : ReadsAsWord .start (.ident word) := ⟨hword, not_false⟩
  have hand := Derives.and (.term hfirst) (derives_beside field hrest)
  have hor := Derives.or hand .orNil
  rw [List.append_nil] at hor
  exact .inr hor

end Parse

/-! ### Matching -/

section Match

variable {schema : Schema} {doc : Document} {field value : Bytes} {f : FieldMapping}

/-- A document with a word has its term, unless it is a stop word. -/
theorem satisfiesTerm_word_iff (hf : schema.getField? field = some f) (htype : f.type = .text)
    (hvalue : fieldValue f doc = some value) {word : Bytes} (hword : word ∈ runs value) :
    satisfiesTerm schema doc field word = true ↔ lowered word ∉ stopWords := by
  have hanalyzer : analyzerForField f = .standard := by rw [analyzerForField, htype]
  have hruns : runs word = [word] := runs_word (mem_runs hword).1 (mem_runs hword).2
  have htexts : (Analyzer.standard.analyze word).map (·.text) = terms word :=
    texts_analyze_standard word
  have hdoc : (docTokens f doc).map (·.text) = terms value := by
    rw [docTokens, hvalue]
    show ((analyzerForField f).analyze value).map (·.text) = _
    rw [hanalyzer, texts_analyze_standard]
  have hiff : satisfiesTerm schema doc field word = true ↔
      terms word ≠ [] ∧ ∀ text ∈ terms word, text ∈ terms value := by
    rw [satisfiesTerm_iff hf, hanalyzer, ← htexts, ← hdoc]
    simp
  rw [hiff, terms, hruns, List.map_singleton]
  by_cases hstop : lowered word ∉ stopWords
  · have hmem : lowered word ∈ terms value :=
      List.mem_filter.2 ⟨List.mem_map_of_mem hword, decide_eq_true hstop⟩
    simp [hstop, hmem]
  · simp [hstop]

theorem satisfies_unlessOne_iff {qs : List QueryAst} (hne : qs ≠ []) :
    satisfies schema doc (unlessOne .conjunction qs) = true ↔
      ∀ q ∈ qs, satisfies schema doc q = true := by
  obtain ⟨q, qs, rfl⟩ := List.exists_cons_of_ne_nil hne
  cases qs with
  | nil =>
    rw [List.forall_mem_singleton]
    rfl
  | cons q' qs =>
    show satisfies schema doc (.conjunction (q :: q' :: qs)) = true ↔ _
    rw [satisfies, ← satisfiesEach_iff]
    rfl

theorem satisfies_ownWords_iff (hf : schema.getField? field = some f) (htype : f.type = .text)
    (hvalue : fieldValue f doc = some value) (hne : runs value ≠ []) :
    satisfies schema doc (unlessOne .conjunction ((runs value).map (.term field))) = true ↔
      ∀ word ∈ runs value, lowered word ∉ stopWords := by
  have hword : ∀ word ∈ runs value, satisfies schema doc (.term field word) = true ↔
      lowered word ∉ stopWords := fun word hword ↦ by
    rw [satisfies]
    exact satisfiesTerm_word_iff hf htype hvalue hword
  rw [satisfies_unlessOne_iff (by simpa using hne), List.forall_mem_map]
  exact forall₂_congr hword

end Match

/-! ### Searching -/

section Search

variable {R : Type} [Arith R] [LibcDecimal] [SortByKey] [SortByScore]

/-- A search returns the document at a place. -/
def ReturnsAt (ix : SealedIndex) (q : QueryAst) (opts : SearchOptions R)
    (segmentIndex docId : ℕ) : Prop :=
  ∃ result order, search ix.reader q opts = some result ∧ ranked ix.reader q opts = some order ∧
    result.hits = order.map (hit ix.reader) ∧
    ∃ e ∈ order, e.segmentIndex = segmentIndex ∧ e.docId = docId

/-- With room for all documents that satisfy a query, a search returns a document if it does. -/
theorem returnsAt_iff {ix : SealedIndex} {q : QueryAst} {opts : SearchOptions R} {i d : ℕ}
    {doc : Document} (hdoc : ix.docAt i d = some doc)
    (hsize : (ix.selected q).length ≤ opts.size) :
    ReturnsAt ix q opts i d ↔ satisfies ix.schema doc q = true := by
  have hplaces : ∀ order : List (ScoredEntry R),
      order.Perm ((matchingEntries ix.posted q opts.bm25).map
      (rescore ix.reader q opts)) → ((∃ e ∈ order, e.segmentIndex = i ∧ e.docId = d) ↔
        satisfies ix.schema doc q = true) := fun order hperm ↦ by
    rw [exists_mem_places_iff hperm, hdoc]
    simp only [Option.some.injEq, exists_eq_left']
  constructor
  · rintro ⟨result, order, hsearch, hranked, -, he⟩
    have hroom := exists_search_sealed_iff.1 ⟨result, hsearch⟩
    obtain ⟨order', hranked', hperm⟩ := perm_of_selected_le hsize hroom
    obtain rfl := Option.some.inj (hranked.symm.trans hranked')
    exact (hplaces order hperm).1 he
  · intro hsat
    have hmem : doc ∈ ix.selected q :=
      List.mem_filter.2 ⟨SealedIndex.mem_docs_of_docAt hdoc, hsat⟩
    have hroom : 0 < opts.topN ∨ ix.selected q = [] :=
      .inl ((List.length_pos_of_mem hmem).trans_le (hsize.trans size_le_topN))
    obtain ⟨order, hranked, hperm⟩ := perm_of_selected_le hsize hroom
    have hsearch : search ix.reader q opts = _ := search_sealed_eq
    rw [hranked, Option.map_some] at hsearch
    exact ⟨_, order, hsearch, hranked, rfl, (hplaces order hperm).2 hsat⟩

/-- **A document is found by its own words** exactly if none of them is a stop word. -/
theorem returns_ownWords_iff {ix : SealedIndex} {i d : ℕ} {doc : Document} {field value : Bytes}
    {f : FieldMapping} (hdoc : ix.docAt i d = some doc) (hf : ix.schema.getField? field = some f)
    (htype : f.type = .text) (hvalue : fieldValue f doc = some value)
    (htokens : Analyzer.standard.analyze value ≠ []) (hand : str "AND" ∉ runs value)
    (hor : str "OR" ∉ runs value) :
    (∃ q, parse (ownWords value) field = .ok q ∧ ∀ opts : SearchOptions R,
        (ix.selected q).length ≤ opts.size → ReturnsAt ix q opts i d) ↔
      ∀ word ∈ runs value, lowered word ∉ stopWords := by
  have hne : runs value ≠ [] := by
    intro hnil
    have htexts := texts_analyze_standard value
    rw [terms, hnil] at htexts
    exact htokens (List.map_eq_nil_iff.1 htexts)
  rw [← satisfies_ownWords_iff hf htype hvalue hne, parse_ownWords field hne hand hor]
  simp only [Except.ok.injEq, exists_eq_left']
  constructor
  · intro h
    -- A search for as many documents as there are has room for those that match.
    let opts : SearchOptions R := { size := ix.docs.length }
    have hsize := ix.length_selected_le (unlessOne .conjunction ((runs value).map (.term field)))
    exact (returnsAt_iff hdoc hsize).1 (h opts hsize)
  · exact fun hsat opts hsize ↦ (returnsAt_iff hdoc hsize).2 hsat

end Search

theorem returns_ownWords_iff_sample : ∃ ix : @SealedIndex .integral,
    @SealedIndex.docAt .integral ix 0 0 = some foxDoc ∧
      ((∃ q, parse (ownWords (str "the fox")) (str "t") = .ok q ∧ ∀ opts : SearchOptions ℝ,
          (@SealedIndex.selected .integral ix q).length ≤ opts.size →
            @ReturnsAt ℝ _ .integral mergeSortByKey mergeSortByScore ix q opts 0 0) ↔
        ∀ word ∈ runs (str "the fox"), lowered word ∉ stopWords) := by
  obtain ⟨ix, hschema, hdoc⟩ := exists_foxIndex
  have hf : (@SealedIndex.schema .integral ix).getField? (str "t") =
      sampleSchema.getField? (str "t") := by rw [hschema]
  refine ⟨ix, hdoc, ?_⟩
  exact @returns_ownWords_iff ℝ _ .integral mergeSortByKey mergeSortByScore ix 0 0 foxDoc (str "t")
    (str "the fox") _ hdoc (hf.trans rfl) rfl rfl (by decide) (by decide) (by decide)

/-- The words of "the fox" do not find the document they are from. -/
theorem not_returns_ownWords : ¬∀ (ix : @SealedIndex .integral) (i d : ℕ) (doc : Document)
    (field value : Bytes) (f : FieldMapping), @SealedIndex.docAt .integral ix i d = some doc →
      (@SealedIndex.schema .integral ix).getField? field = some f → f.type = .text →
      fieldValue f doc = some value → Analyzer.standard.analyze value ≠ [] →
      str "AND" ∉ runs value → str "OR" ∉ runs value →
      ∃ q, parse (ownWords value) field = .ok q ∧ ∀ opts : SearchOptions ℝ,
        (@SealedIndex.selected .integral ix q).length ≤ opts.size →
          @ReturnsAt ℝ _ .integral mergeSortByKey mergeSortByScore ix q opts i d := by
  let _ := mergeSortByKey
  let _ := mergeSortByScore
  let _ := LibcDecimal.integral
  intro h
  obtain ⟨ix, hschema, hdoc⟩ := exists_foxIndex
  have hf : ix.schema.getField? (str "t") = sampleSchema.getField? (str "t") := by rw [hschema]
  obtain ⟨q, hq, hreturns⟩ := h ix 0 0 foxDoc (str "t") (str "the fox") _ hdoc (hf.trans rfl) rfl
    rfl (by decide) (by decide) (by decide)
  have hparse : parse (ownWords (str "the fox")) (str "t") = .ok (.conjunction
      [.term (str "t") (str "the"), .term (str "t") (str "fox")]) :=
    parse_ownWords (str "t") (by decide) (by decide) (by decide)
  obtain rfl := Except.ok.inj (hq.symm.trans hparse)
  let opts : SearchOptions ℝ := { size := ix.docs.length }
  have hsize := ix.length_selected_le
    (.conjunction [.term (str "t") (str "the"), .term (str "t") (str "fox")])
  have hsat := (returnsAt_iff hdoc hsize).1 (hreturns opts hsize)
  rw [hschema] at hsat
  exact absurd hsat (by decide)

end Spp.Query
