import SearchPlusPlus.Analyze.Words

/-!
# Where the tokens of a text are

A token stands for a maximal run of token characters (`MaximalRun`). The standard analyzer goes
through these runs in order, so the place and the number of each token's run can be read off it
(`analyze_standard`). Its texts, with spaces between them, are analyzed as themselves.
-/

namespace Spp.Analyze

/-- A maximal run of token characters, from its first byte to the byte behind it. -/
structure MaximalRun (input : Bytes) (start stop : ℕ) : Prop where
  lt : start < stop
  le : stop ≤ input.length
  inside : ∀ i c, start ≤ i → i < stop → input[i]? = some c → isTokenChar c = true
  before : ∀ i c, i + 1 = start → input[i]? = some c → isTokenChar c = false
  after : ∀ c, input[stop]? = some c → isTokenChar c = false

/-- The texts with one space between each two. -/
def joined (texts : List Bytes) : Bytes := [32].intercalate texts

/-! ### Pieces of a list -/

section Pieces

variable {α : Type} {p : α → Bool}

theorem dropWhile_eq_drop_takeWhile (l : List α) :
    l.dropWhile p = l.drop (l.takeWhile p).length := by
  conv_rhs => rw [← List.takeWhile_append_dropWhile (p := p) (l := l)]
  rw [List.drop_append_of_le_length, List.drop_of_length_le, List.nil_append]
  all_goals simp

theorem of_getElem?_takeWhile {l : List α} {k : ℕ} {a : α} (hk : k < (l.takeWhile p).length)
    (ha : l[k]? = some a) : p a = true := by
  rw [← List.takeWhile_append_dropWhile (p := p) (l := l), List.getElem?_append_left hk] at ha
  exact List.mem_takeWhile_imp (List.mem_of_getElem? ha)

theorem of_getElem?_dropWhile {l : List α} {a : α}
    (ha : l[(l.takeWhile p).length]? = some a) : p a = false := by
  rw [← List.head?_drop, ← dropWhile_eq_drop_takeWhile] at ha
  have hne : l.dropWhile p ≠ [] := fun h ↦ by rw [h] at ha; cases ha
  have hhead := List.head_dropWhile_not p (l := l) hne
  rw [List.head?_eq_some_head hne] at ha
  cases ha
  exact hhead

end Pieces

/-! ### The runs in order -/

/-- The runs the loop of `Analyze` finds from byte `i` on, with `input` still to read. -/
def spansFrom : ℕ → ℕ → Bytes → List (ℕ × ℕ)
  | 0, _, _ => []
  | fuel + 1, i, input =>
    let rest := input.dropWhile fun c ↦ !isTokenChar c
    if rest = [] then []
    else
      let start := i + (input.length - rest.length)
      let stop := start + (rest.takeWhile isTokenChar).length
      (start, stop) :: spansFrom fuel stop (rest.dropWhile isTokenChar)

/-- The runs of a text. -/
def spans (input : Bytes) : List (ℕ × ℕ) := spansFrom input.length 0 input

/-- What a round finds: separators up to a run, and the run. -/
structure Round (whole : Bytes) (i start stop : ℕ) : Prop where
  le : i ≤ start
  lt : start < stop
  le_length : stop ≤ whole.length
  separators : ∀ k c, i ≤ k → k < start → whole[k]? = some c → isTokenChar c = false
  inside : ∀ k c, start ≤ k → k < stop → whole[k]? = some c → isTokenChar c = true
  after : ∀ c, whole[stop]? = some c → isTokenChar c = false

theorem Round.of_drop {whole rest : Bytes} {i : ℕ}
    (hrest : ((whole.drop i).dropWhile fun c ↦ !isTokenChar c) = rest) (hne : rest ≠ []) :
    let start := i + ((whole.drop i).length - rest.length)
    let stop := start + (rest.takeWhile isTokenChar).length
    Round whole i start stop ∧ whole.drop start = rest ∧
      whole.drop stop = rest.dropWhile isTokenChar := by
  intro start stop
  have hdrop := dropWhile_eq_drop_takeWhile (p := fun c ↦ !isTokenChar c) (whole.drop i)
  have hsplit := congrArg List.length
    (List.takeWhile_append_dropWhile (p := fun c ↦ !isTokenChar c) (l := whole.drop i))
  rw [List.length_append, hrest] at hsplit
  rw [hrest, List.drop_drop] at hdrop
  have hstart : start = i + ((whole.drop i).takeWhile fun c ↦ !isTokenChar c).length := by
    omega
  rw [← hstart] at hdrop
  have hstop : whole.drop stop = rest.dropWhile isTokenChar := by
    rw [dropWhile_eq_drop_takeWhile rest]
    conv_rhs => rw [hdrop, List.drop_drop, ← hdrop]
  -- The byte that ended the search is the first of the run.
  have hpos : 0 < (rest.takeWhile isTokenChar).length := by
    obtain ⟨c, rest', rfl⟩ := List.exists_cons_of_ne_nil hne
    have hhead := List.head_dropWhile_not (fun c ↦ !isTokenChar c) (l := whole.drop i)
      (by rw [hrest]; exact hne)
    have hc : isTokenChar c = true := by simpa [hrest] using hhead
    rw [List.takeWhile_cons_of_pos hc]
    exact Nat.succ_pos _
  have hlen : rest.length = whole.length - start := by rw [hdrop, List.length_drop]
  have htake := (List.takeWhile_sublist (l := rest) isTokenChar).length_le
  have hget : ∀ {j k : ℕ}, j ≤ k → whole[k]? = (whole.drop j)[k - j]? := fun {j k} h ↦ by
    rw [List.getElem?_drop, Nat.add_sub_cancel' h]
  refine ⟨⟨by omega, by omega, by omega, ?_, ?_, ?_⟩, hdrop.symm, hstop⟩
  · intro k c hik hk hc
    rw [hget hik] at hc
    simpa using of_getElem?_takeWhile (p := fun c ↦ !isTokenChar c) (by omega) hc
  · intro k c hk hk' hc
    rw [hget hk, ← hdrop] at hc
    exact of_getElem?_takeWhile (p := isTokenChar) (by omega) hc
  · intro c hc
    rw [hget (Nat.le_of_lt (by omega : start < stop)), ← hdrop, Nat.add_sub_cancel_left] at hc
    exact of_getElem?_dropWhile hc

theorem Round.maximalRun {whole : Bytes} {i start stop : ℕ} (h : Round whole i start stop)
    (hi : i = 0 ∨ ∀ c, whole[i]? = some c → isTokenChar c = false) :
    MaximalRun whole start stop where
  lt := h.lt
  le := h.le_length
  inside := h.inside
  before k c hk hc := by
    by_cases hik : i ≤ k
    · exact h.separators k c hik (by omega) hc
    · -- The run starts at `i`, so nothing is before it.
      have hstart : start = i := by have := h.le; omega
      have hlt : i < whole.length := by have := h.lt; have := h.le_length; omega
      rcases hi with rfl | hi
      · omega
      · have htoken := h.inside i _ hstart.le (hstart ▸ h.lt) (List.getElem?_eq_getElem hlt)
        rw [hi _ (List.getElem?_eq_getElem hlt)] at htoken
        cases htoken
  after := h.after

/-- A run from `i` on is the one of the round or behind it. -/
theorem Round.first {whole : Bytes} {i start stop a b : ℕ} (h : Round whole i start stop)
    (hrun : MaximalRun whole a b) (hia : i ≤ a) : (a, b) = (start, stop) ∨ stop ≤ a := by
  have hab := hrun.lt
  have hb := hrun.le
  have hstop := h.le_length
  have hss := h.lt
  have htoken : ∀ k (hk : k < whole.length), isTokenChar whole[k] = true →
      ∀ {P : Prop}, isTokenChar whole[k] = false → P := fun k hk ht _ hf ↦ by
    rw [ht] at hf
    cases hf
  have hget : ∀ k (hk : k < whole.length), whole[k]? = some whole[k] :=
    fun k hk ↦ List.getElem?_eq_getElem hk
  by_cases hstart : a < start
  · have hk : a < whole.length := by omega
    exact htoken a hk (hrun.inside a _ le_rfl hab (hget a hk))
      (h.separators a _ hia hstart (hget a hk))
  · by_cases hbefore : start < a ∧ a < stop
    · have hk : a - 1 < whole.length := by omega
      exact htoken _ hk (h.inside _ _ (by omega) (by omega) (hget _ hk))
        (hrun.before _ _ (by omega) (hget _ hk))
    · by_cases hbehind : stop ≤ a
      · exact Or.inr hbehind
      · have hsame : a = start := by omega
        rcases Nat.lt_trichotomy b stop with hlt | heq | hgt
        · have hk : b < whole.length := by omega
          exact htoken b hk (h.inside b _ (by omega) hlt (hget b hk)) (hrun.after _ (hget b hk))
        · exact Or.inl (Prod.ext hsame heq)
        · have hk : stop < whole.length := by omega
          exact htoken stop hk (hrun.inside stop _ (by omega) hgt (hget stop hk))
            (h.after _ (hget stop hk))

/-- Without a token character there is no run. -/
theorem no_run_of_separators {whole : Bytes} {i a b : ℕ}
    (h : ((whole.drop i).dropWhile fun c ↦ !isTokenChar c) = []) (hia : i ≤ a) :
    ¬MaximalRun whole a b := by
  intro hrun
  have hlt : a < whole.length := hrun.lt.trans_le hrun.le
  have hget : (whole.drop i)[a - i]? = some whole[a] := by
    rw [List.getElem?_drop, Nat.add_sub_cancel' hia, List.getElem?_eq_getElem hlt]
  have hall := List.dropWhile_eq_nil_iff.1 h _ (List.mem_of_getElem? hget)
  have htoken := hrun.inside a _ le_rfl hrun.lt (List.getElem?_eq_getElem hlt)
  rw [htoken] at hall
  cases hall

/-- **The runs from a byte on**, which is not in the middle of one. -/
theorem spansFrom_spec (fuel : ℕ) : ∀ (whole : Bytes) (i : ℕ), (whole.drop i).length ≤ fuel →
    i = 0 ∨ (∀ c, whole[i]? = some c → isTokenChar c = false) →
    (∀ p, p ∈ spansFrom fuel i (whole.drop i) ↔ i ≤ p.1 ∧ MaximalRun whole p.1 p.2) ∧
      (spansFrom fuel i (whole.drop i)).Pairwise fun p q ↦ p.2 < q.1 := by
  induction fuel with
  | zero =>
    intro whole i hfuel _
    have hnil : whole.drop i = [] := List.length_eq_zero_iff.1 (Nat.le_zero.1 hfuel)
    refine ⟨fun p ↦ iff_of_false List.not_mem_nil fun hp ↦ ?_, .nil⟩
    exact no_run_of_separators (by rw [hnil]; rfl) hp.1 hp.2
  | succ fuel ih =>
    intro whole i hfuel hi
    rw [spansFrom]
    generalize hsep : ((whole.drop i).dropWhile fun c ↦ !isTokenChar c) = rest
    by_cases hrest : rest = []
    · rw [hrest]
      exact ⟨fun p ↦ iff_of_false List.not_mem_nil fun hp ↦
        no_run_of_separators (hsep.trans hrest) hp.1 hp.2, .nil⟩
    obtain ⟨hround, -, hstop⟩ := Round.of_drop hsep hrest
    dsimp only
    rw [if_neg hrest, ← hstop]
    set stop := i + ((whole.drop i).length - rest.length) + (rest.takeWhile isTokenChar).length
    have hless : (whole.drop stop).length ≤ fuel := by
      have hlt := hround.lt
      have hle := hround.le
      rw [List.length_drop] at hfuel ⊢
      omega
    obtain ⟨hmem, hpw⟩ := ih whole stop hless (Or.inr hround.after)
    have hbehind : ∀ q ∈ spansFrom fuel stop (whole.drop stop), stop < q.1 := by
      intro q hq
      obtain ⟨hle, hrun⟩ := (hmem q).1 hq
      refine lt_of_le_of_ne hle fun heq ↦ ?_
      have hlt : stop < whole.length := heq ▸ hrun.lt.trans_le hrun.le
      have htoken := hrun.inside stop _ heq.ge (heq ▸ hrun.lt) (List.getElem?_eq_getElem hlt)
      rw [hround.after _ (List.getElem?_eq_getElem hlt)] at htoken
      cases htoken
    refine ⟨fun p ↦ ?_, List.pairwise_cons.2 ⟨hbehind, hpw⟩⟩
    rw [List.mem_cons, hmem]
    constructor
    · rintro (rfl | ⟨hle, hrun⟩)
      · exact ⟨hround.le, hround.maximalRun hi⟩
      · exact ⟨hround.le.trans (hround.lt.le.trans hle), hrun⟩
    · rintro ⟨hle, hrun⟩
      exact (hround.first hrun hle).imp id fun h ↦ ⟨h, hrun⟩

theorem mem_spans {input : Bytes} {p : ℕ × ℕ} : p ∈ spans input ↔ MaximalRun input p.1 p.2 := by
  have h := (spansFrom_spec input.length input 0 le_rfl (Or.inl rfl)).1 p
  rw [spans]
  simpa using h

theorem spans_pairwise (input : Bytes) : (spans input).Pairwise fun p q ↦ p.2 < q.1 :=
  (spansFrom_spec input.length input 0 le_rfl (Or.inl rfl)).2

/-! ### The tokens -/

/-- What a token says: its text, its position, and where it starts and ends. -/
def Token.values (t : Token) : Bytes × ℕ × ℕ × ℕ :=
  (t.text, t.position.toNat, t.startOffset.toNat, t.endOffset.toNat)

/-- What the token of a run says, if the run is no stop word; the number is that of the run. -/
def runValues (input : Bytes) (run : (ℕ × ℕ) × ℕ) : Option (Bytes × ℕ × ℕ × ℕ) :=
  let text := lowered ((input.drop run.1.1).take (run.1.2 - run.1.1))
  if text ∈ stopWords then none else some (text, run.2, run.1.1, run.1.2)

theorem values_standardLoop (fuel : ℕ) : ∀ {whole : Bytes} {i k : ℕ}, whole.length < 2 ^ 32 →
    k ≤ i →
    (standardLoop fuel (UInt32.ofNat k) i (whole.drop i)).map Token.values =
      ((spansFrom fuel i (whole.drop i)).zipIdx k).filterMap (runValues whole) := by
  induction fuel with
  | zero => exact fun _ _ ↦ rfl
  | succ fuel ih =>
    intro whole i k hlen hk
    rw [standardLoop, spansFrom]
    generalize hsep : ((whole.drop i).dropWhile fun c ↦ !isTokenChar c) = rest
    by_cases hrest : rest = []
    · rw [hrest]
      rfl
    obtain ⟨hround, hstart, hdrop⟩ := Round.of_drop hsep hrest
    dsimp only
    rw [if_neg hrest, if_neg hrest, ← hdrop]
    set start := i + ((whole.drop i).length - rest.length)
    set stop := start + (rest.takeWhile isTokenChar).length with hstop
    have hle := hround.le
    have hlt := hround.lt
    have hend := hround.le_length
    have hnext : UInt32.ofNat k + 1 = UInt32.ofNat (k + 1) := (UInt32.ofNat_add k 1).symm
    have htext : (whole.drop start).take (stop - start) = rest.takeWhile isTokenChar := by
      rw [hstart, hstop, Nat.add_sub_cancel_left]
      exact (List.prefix_iff_eq_take.1 (List.takeWhile_prefix _)).symm
    rw [List.zipIdx_cons, List.filterMap_cons, runValues]
    dsimp only
    rw [htext, hnext]
    by_cases hword : (rest.takeWhile isTokenChar).map asciiLower ∈ stopWords
    · rw [if_pos hword, if_pos (show lowered _ ∈ stopWords from hword)]
      exact ih hlen (by omega)
    · rw [if_neg hword, if_neg (show ¬lowered _ ∈ stopWords from hword), List.map_cons,
        ih hlen (by omega)]
      refine congrArg (· :: _) ?_
      simp only [Token.values, UInt32.toNat_ofNat']
      rw [Nat.mod_eq_of_lt (by omega), Nat.mod_eq_of_lt (by omega), Nat.mod_eq_of_lt (by omega)]
      rfl

/-- Words with spaces between them are the runs. -/
theorem runs_joined {words : List Bytes}
    (h : ∀ word ∈ words, word ≠ [] ∧ ∀ c ∈ word, isTokenChar c = true) :
    runs (joined words) = words := by
  induction words with
  | nil => exact runs_nil
  | cons word words ih =>
    obtain ⟨⟨hne, htoken⟩, hwords⟩ := List.forall_mem_cons.1 h
    cases words with
    | nil =>
      rw [joined, List.intercalate_singleton]
      exact runs_word hne htoken
    | cons word' words =>
      have hjoined : joined (word :: word' :: words) =
          word ++ 32 :: joined (word' :: words) := by
        rw [joined, List.intercalate_cons_cons, List.append_assoc]
        rfl
      rw [hjoined, runs_append_cons word _ rfl, runs_word hne htoken, ih hwords]
      rfl

theorem terms_joined (input : Bytes) : terms (joined (terms input)) = terms input := by
  have hsame : (terms input).map lowered = terms input :=
    (List.map_congr_left fun text htext ↦ (mem_terms htext).2.2.1).trans (List.map_id _)
  rw [terms, runs_joined fun text htext ↦ ⟨(mem_terms htext).1, (mem_terms htext).2.1⟩, hsame]
  exact List.filter_eq_self.2 fun text htext ↦ decide_eq_true (mem_terms htext).2.2.2

/-- **The standard analyzer** gives the maximal runs in order, each in lower case with its place
and its number, without the stop words; its texts are analyzed as themselves. -/
theorem analyze_standard {input : Bytes} (hlen : input.length < 2 ^ 32) :
    (∃ runs : List (ℕ × ℕ), (∀ p, p ∈ runs ↔ MaximalRun input p.1 p.2) ∧
        (runs.Pairwise fun p q ↦ p.2 < q.1) ∧
        (Analyzer.standard.analyze input).map Token.values =
          runs.zipIdx.filterMap (runValues input)) ∧
      (Analyzer.standard.analyze (joined ((Analyzer.standard.analyze input).map (·.text)))).map
        (·.text) = (Analyzer.standard.analyze input).map (·.text) := by
  refine ⟨⟨spans input, fun p ↦ mem_spans, spans_pairwise input, ?_⟩, ?_⟩
  · exact values_standardLoop input.length (i := 0) hlen le_rfl
  · rw [texts_analyze_standard, texts_analyze_standard, terms_joined]

theorem analyze_standard_sample :
    (∃ runs : List (ℕ × ℕ), (∀ p, p ∈ runs ↔ MaximalRun (str "The Fox") p.1 p.2) ∧
        (runs.Pairwise fun p q ↦ p.2 < q.1) ∧
        (Analyzer.standard.analyze (str "The Fox")).map Token.values =
          runs.zipIdx.filterMap (runValues (str "The Fox"))) ∧
      (Analyzer.standard.analyze (joined ((Analyzer.standard.analyze (str "The Fox")).map
        (·.text)))).map (·.text) = (Analyzer.standard.analyze (str "The Fox")).map (·.text) :=
  analyze_standard (by decide)

end Spp.Analyze
