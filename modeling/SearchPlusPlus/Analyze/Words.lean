import Mathlib.Data.List.TakeWhile
import SearchPlusPlus.Analyze.Analyzer

/-!
# The words of a text

What the standard analyzer does, without its loop: the maximal runs of token characters
(`runs`), lowercased, without the stop words (`texts_analyze_standard`). A text that was analyzed
comes out as itself when it is analyzed again (`analyze_text`).
-/

namespace Spp.Analyze

/-- The maximal runs of token characters. -/
def runs (input : Bytes) : List Bytes :=
  (input.splitOnP fun c ↦ !isTokenChar c).filter (· ≠ [])

/-- A word in lower case. -/
def lowered (word : Bytes) : Bytes := word.map asciiLower

/-! ### Runs -/

theorem runs_nil : runs [] = [] := by
  rw [runs, List.splitOnP_nil]
  rfl

/-- A separator ends a run. -/
theorem runs_append_cons (xs as : Bytes) {c : UInt8} (hc : isTokenChar c = false) :
    runs (xs ++ c :: as) = runs xs ++ runs as := by
  rw [runs, List.splitOnP_append_cons xs as (by rw [hc]; rfl), List.filter_append]
  rfl

theorem runs_cons {c : UInt8} (as : Bytes) (hc : isTokenChar c = false) :
    runs (c :: as) = runs as := by
  have happend := runs_append_cons [] as hc
  rwa [List.nil_append, runs_nil, List.nil_append] at happend

/-- A word is one run. -/
theorem runs_word {word : Bytes} (hne : word ≠ []) (h : ∀ c ∈ word, isTokenChar c = true) :
    runs word = [word] := by
  rw [runs, List.splitOnP_eq_singleton fun c hc ↦ by rw [h c hc]; rfl]
  simp [hne]

theorem runs_dropWhile (input : Bytes) :
    runs (input.dropWhile fun c ↦ !isTokenChar c) = runs input := by
  induction input with
  | nil => rfl
  | cons c input ih =>
    cases hc : isTokenChar c with
    | true => rw [List.dropWhile_cons_of_neg (by simp [hc])]
    | false => rw [List.dropWhile_cons_of_pos (by simp [hc]), ih, runs_cons input hc]

/-- The first run, and what comes after it. -/
theorem runs_takeWhile {input : Bytes} (hne : input.takeWhile isTokenChar ≠ []) :
    runs input = input.takeWhile isTokenChar :: runs (input.dropWhile isTokenChar) := by
  have hword : ∀ c ∈ input.takeWhile isTokenChar, isTokenChar c = true := fun c hc ↦
    List.mem_takeWhile_imp hc
  have hsplit := List.takeWhile_append_dropWhile (p := isTokenChar) (l := input)
  generalize input.takeWhile isTokenChar = word at *
  cases hrest : input.dropWhile isTokenChar with
  | nil =>
    rw [hrest, List.append_nil] at hsplit
    rw [← hsplit, runs_word hne hword, runs_nil]
  | cons c rest =>
    have hc : isTokenChar c = false := by
      have hhead := List.head_dropWhile_not isTokenChar (l := input) (by rw [hrest]; simp)
      simpa [hrest] using hhead
    rw [hrest] at hsplit
    rw [← hsplit, runs_append_cons word rest hc, runs_word hne hword, runs_cons rest hc]
    rfl

theorem forall_mem_splitOnP {α : Type} {p : α → Bool} (xs : List α) :
    ∀ word ∈ xs.splitOnP p, ∀ c ∈ word, p c = false := by
  induction xs with
  | nil => simp
  | cons x xs ih =>
    rw [List.splitOnP_cons_eq_if_modifyHead]
    cases hx : p x with
    | true =>
      rw [if_pos rfl]
      intro word hword
      rcases List.mem_cons.1 hword with rfl | hword
      · exact fun c hc ↦ absurd hc List.not_mem_nil
      · exact ih word hword
    | false =>
      rw [if_neg Bool.false_ne_true]
      obtain ⟨word₀, words, hsplit⟩ := List.exists_cons_of_ne_nil (List.splitOnP_ne_nil p xs)
      rw [hsplit] at ih ⊢
      intro word hword c hc
      rcases List.mem_cons.1 hword with rfl | hword
      · rcases List.mem_cons.1 hc with rfl | hc
        · exact hx
        · exact ih word₀ List.mem_cons_self c hc
      · exact ih word (List.mem_cons_of_mem _ hword) c hc

/-- A run has token characters only, and some. -/
theorem mem_runs {input word : Bytes} (h : word ∈ runs input) :
    word ≠ [] ∧ ∀ c ∈ word, isTokenChar c = true := by
  obtain ⟨hmem, hne⟩ := List.mem_filter.1 h
  refine ⟨of_decide_eq_true hne, fun c hc ↦ ?_⟩
  simpa using forall_mem_splitOnP input word hmem c hc

/-! ### Analysis -/

/-- The words of a text that are not stop words, in lower case. -/
def terms (input : Bytes) : List Bytes := ((runs input).map lowered).filter (· ∉ stopWords)

theorem texts_standardLoop (fuel : ℕ) : ∀ {position : UInt32} {i : ℕ} {input : Bytes},
    input.length ≤ fuel → (standardLoop fuel position i input).map (·.text) = terms input := by
  induction fuel with
  | zero =>
    intro position i input hlen
    obtain rfl := List.length_eq_zero_iff.1 (Nat.le_zero.1 hlen)
    rw [terms, runs_nil]
    rfl
  | succ fuel ih =>
    intro position i input hlen
    rw [standardLoop, terms, ← runs_dropWhile]
    have hdrop : (input.dropWhile fun c ↦ !isTokenChar c).length ≤ input.length :=
      (List.dropWhile_sublist _).length_le
    have hhead : ∀ c rest, (input.dropWhile fun c ↦ !isTokenChar c) = c :: rest →
        isTokenChar c = true := fun c rest hcons ↦ by
      have hnot := List.head_dropWhile_not (fun c ↦ !isTokenChar c) (l := input)
        (by rw [hcons]; simp)
      simpa [hcons] using hnot
    generalize (input.dropWhile fun c ↦ !isTokenChar c) = rest at hdrop hhead
    by_cases hrest : rest = []
    · subst hrest
      rw [runs_nil]
      rfl
    · obtain ⟨c, rest', rfl⟩ := List.exists_cons_of_ne_nil hrest
      have htake : (c :: rest').takeWhile isTokenChar = c :: rest'.takeWhile isTokenChar :=
        List.takeWhile_cons_of_pos (hhead c rest' rfl)
      have hne : (c :: rest').takeWhile isTokenChar ≠ [] := by rw [htake]; simp
      have hafter : ((c :: rest').dropWhile isTokenChar).length ≤ fuel := by
        rw [List.dropWhile_cons_of_pos (hhead c rest' rfl)]
        have hle := (List.dropWhile_sublist (l := rest') isTokenChar).length_le
        rw [List.length_cons] at hdrop
        omega
      rw [runs_takeWhile hne, List.map_cons]
      dsimp only
      rw [if_neg hrest, List.filter_cons]
      by_cases hstop : ((c :: rest').takeWhile isTokenChar).map asciiLower ∈ stopWords
      · have hnot : ¬decide (lowered ((c :: rest').takeWhile isTokenChar) ∉ stopWords) = true :=
          fun h ↦ of_decide_eq_true h hstop
        rw [if_pos hstop, if_neg hnot]
        exact ih hafter
      · have hkept : decide (lowered ((c :: rest').takeWhile isTokenChar) ∉ stopWords) = true :=
          decide_eq_true hstop
        rw [if_neg hstop, if_pos hkept, List.map_cons, ih hafter]
        rfl

/-- **The standard analyzer** gives the words that are not stop words. -/
theorem texts_analyze_standard (input : Bytes) :
    (Analyzer.standard.analyze input).map (·.text) = terms input :=
  texts_standardLoop _ le_rfl

theorem isTokenChar_asciiLower {c : UInt8} (h : isTokenChar c = true) :
    isTokenChar (asciiLower c) = true ∧ asciiLower (asciiLower c) = asciiLower c := by
  have hall : ∀ i : Fin 256, isTokenChar (UInt8.ofFin i) = true →
      isTokenChar (asciiLower (UInt8.ofFin i)) = true ∧
        asciiLower (asciiLower (UInt8.ofFin i)) = asciiLower (UInt8.ofFin i) := by
    decide +kernel
  exact hall c.toFin h

/-- A term is a word that lowercasing leaves as it is. -/
theorem mem_terms {input text : Bytes} (h : text ∈ terms input) :
    text ≠ [] ∧ (∀ c ∈ text, isTokenChar c = true) ∧ lowered text = text ∧ text ∉ stopWords := by
  obtain ⟨hword, hstop⟩ := List.mem_filter.1 h
  obtain ⟨word, hrun, rfl⟩ := List.mem_map.1 hword
  obtain ⟨hne, htoken⟩ := mem_runs hrun
  have hlower : ∀ c ∈ lowered word, isTokenChar c = true ∧ asciiLower c = c := by
    intro c hc
    obtain ⟨c', hc', rfl⟩ := List.mem_map.1 hc
    exact isTokenChar_asciiLower (htoken c' hc')
  have hsame : lowered (lowered word) = lowered word :=
    List.map_congr_left (fun c hc ↦ (hlower c hc).2) |>.trans (List.map_id _)
  refine ⟨?_, fun c hc ↦ (hlower c hc).1, hsame, of_decide_eq_true hstop⟩
  simpa [lowered] using hne

/-- A text that came out of an analyzer stays as it is. -/
theorem analyze_text {a : Analyzer} {input : Bytes} {t : Token} (h : t ∈ a.analyze input) :
    (a.analyze t.text).map (·.text) = [t.text] := by
  cases a with
  | standard =>
    have hmem : t.text ∈ terms input := by
      rw [← texts_analyze_standard]
      exact List.mem_map_of_mem h
    obtain ⟨hne, htoken, hsame, hstop⟩ := mem_terms hmem
    rw [texts_analyze_standard, terms, runs_word hne htoken, List.map_singleton, hsame]
    exact List.filter_eq_self.2 fun x hx ↦ decide_eq_true (List.mem_singleton.1 hx ▸ hstop)
  | keyword =>
    rw [Analyzer.analyze] at h
    split_ifs at h with hnil
    · cases h
    · obtain rfl := List.mem_singleton.1 h
      rw [Analyzer.analyze, if_neg hnil]
      rfl

end Spp.Analyze
