import SearchPlusPlus.Query.Printing

/-!
# Writing queries

How a query may be written down so that `Parse` makes it: the field and the text of every term in
quotes, parentheses around every child that has an operator, an `AND` or nothing between the
children of a conjunction, an `OR` between those of a disjunction, and white space in front of any
token. Whatever is written so is parsed to the query (`written_and_parsed`).
-/

namespace Spp.Query

/-- White space, or nothing. -/
def Blanks (b : Bytes) : Prop := ∀ c ∈ b, isBlank c = true

/-- A word in quotes. -/
def inQuotes (w : Bytes) : Bytes := 34 :: (w ++ [34])

/-- A word that can be put in quotes. -/
def Quotable (w : Bytes) : Prop := w ≠ [] ∧ 34 ∉ w

/-- What is written: a query, a child of an operator, or the children of a conjunction or a
disjunction behind the first. -/
inductive Part where
  | query
  | child
  | ands
  | ors

/-- **The ways to write** the queries of a part. -/
inductive Writes : Part → List QueryAst → Bytes → Prop
  | term {b₁ b₂ b₃ : Bytes} (h₁ : Blanks b₁) (h₂ : Blanks b₂) (h₃ : Blanks b₃)
      (field text : Bytes) : Writes .child [.term field text]
        (b₁ ++ inQuotes field ++ (b₂ ++ str ":") ++ (b₃ ++ inQuotes text))
  | group {b₁ b₂ s : Bytes} {q : QueryAst} (h₁ : Blanks b₁) (h₂ : Blanks b₂)
      (h : Writes .query [q] s) : Writes .child [q] (b₁ ++ str "(" ++ s ++ (b₂ ++ str ")"))
  | single {field text s : Bytes} (h : Writes .child [.term field text] s) :
      Writes .query [.term field text] s
  | conjunction {q : QueryAst} {qs : List QueryAst} {s s' : Bytes} (h : Writes .child [q] s)
      (hs : Writes .ands qs s') : Writes .query [.conjunction (q :: qs)] (s ++ s')
  | disjunction {q : QueryAst} {qs : List QueryAst} {s s' : Bytes} (h : Writes .child [q] s)
      (hs : Writes .ors qs s') : Writes .query [.disjunction (q :: qs)] (s ++ s')
  | andNil : Writes .ands [] []
  | andMore {q : QueryAst} {qs : List QueryAst} {b s s' : Bytes} (hb : Blanks b)
      (h : Writes .child [q] s) (hs : Writes .ands qs s') :
      Writes .ands (q :: qs) (b ++ str "AND" ++ (s ++ s'))
  | andBeside {q : QueryAst} {qs : List QueryAst} {s s' : Bytes} (h : Writes .child [q] s)
      (hs : Writes .ands qs s') : Writes .ands (q :: qs) (s ++ s')
  | orNil : Writes .ors [] []
  | orMore {q : QueryAst} {qs : List QueryAst} {b s s' : Bytes} (hb : Blanks b)
      (h : Writes .child [q] s) (hs : Writes .ors qs s') :
      Writes .ors (q :: qs) (b ++ str "OR" ++ (s ++ s'))

/-! ### Tokens -/

section Tokens

variable {b : Bytes}

theorem lexemes_blanks_append (hb : Blanks b) (s : Bytes) : lexemes (b ++ s) = lexemes s := by
  have hskip : skipWs (b ++ s) = skipWs s := List.dropWhile_append_of_pos hb
  rw [← lexemes_skipWs, hskip, lexemes_skipWs]

theorem lexemes_inQuotes_append {w : Bytes} (hw : 34 ∉ w) (rest : Bytes) :
    lexemes (inQuotes w ++ rest) = .quoted w true :: lexemes rest := by
  have hall : ∀ c ∈ w, decide (c ≠ 34) = true := fun c hc ↦
    decide_eq_true fun heq ↦ hw (heq ▸ hc)
  have hclosed : decide (34 ∈ w ++ 34 :: rest) = true := by simp
  have hscan : scan 34 (w ++ 34 :: rest) = (.quoted w true, rest) := by
    show (Lexeme.quoted _ (decide (34 ∈ w ++ 34 :: rest)), _) = _
    rw [hclosed, List.takeWhile_append_of_pos hall, List.dropWhile_append_of_pos hall]
    simp
  have hsplit : inQuotes w ++ rest = 34 :: (w ++ 34 :: rest) := by simp [inQuotes]
  have hskip : skipWs (inQuotes w ++ rest) = 34 :: (w ++ 34 :: rest) :=
    hsplit ▸ List.dropWhile_cons_of_neg (by decide)
  rw [lexemes_of_skipWs_cons hskip, hscan]

theorem startsIdent_blanks_append (hb : Blanks b) {s : Bytes} (hs : startsIdent s = false) :
    startsIdent (b ++ s) = false := by
  cases b with
  | nil => exact hs
  | cons c b =>
    have hblank := hb c List.mem_cons_self
    simp only [isBlank, Bool.or_eq_true, decide_eq_true_eq] at hblank
    rcases hblank with ((rfl | rfl) | rfl) | rfl <;> rfl

end Tokens

/-! ### Parsing what is written -/

section Parse

variable {field : Bytes} {part : Part} {qs : List QueryAst} {s : Bytes}

/-- No identifier starts a child. -/
theorem Writes.startsIdent (h : Writes .child qs s) (rest : Bytes) :
    startsIdent (s ++ rest) = false := by
  cases h with
  | term h₁ h₂ h₃ field text =>
    rw [List.append_assoc, List.append_assoc, List.append_assoc]
    exact startsIdent_blanks_append h₁ rfl
  | group h₁ h₂ h =>
    rw [List.append_assoc, List.append_assoc, List.append_assoc]
    exact startsIdent_blanks_append h₁ rfl

/-- The derivations of what a part is written as. A child may stand at any place, since no keyword
is in quotes. -/
def Part.Derives (field : Bytes) (ts : List Lexeme) (qs : List QueryAst) : Part → Prop
  | .query => Query.Derives ReadsAsWord field .or ts qs
  | .child => ∀ p, Query.Derives ReadsAsWord field (.atom p) ts qs
  | .ands => Query.Derives ReadsAsWord field .andRest ts qs
  | .ors => Query.Derives ReadsAsWord field .orRest ts qs

theorem readsAsWord_quoted {w : Bytes} (hne : w ≠ []) (p : Place) :
    ReadsAsWord p (.quoted w true) := by
  refine ⟨hne, fun h ↦ ?_⟩
  rcases h.isKeyword with h | h <;> cases h

theorem derives_or_of_and {ts : List Lexeme} {q : QueryAst}
    (h : Derives ReadsAsWord field .and ts [q]) : Derives ReadsAsWord field .or ts [q] := by
  have hor := Derives.or h .orNil
  rwa [List.append_nil] at hor

theorem derives_and_of_atom {ts : List Lexeme} {q : QueryAst}
    (h : Derives ReadsAsWord field (.atom .start) ts [q]) :
    Derives ReadsAsWord field .and ts [q] := by
  have hand := Derives.and h .andNil
  rwa [List.append_nil] at hand

/-- What is written is read as lexemes that derive it, whatever stands behind. -/
theorem Writes.derives (h : Writes part qs s) (hreg : ∀ q ∈ qs, q.Regular Quotable) :
    ∃ ts, (∀ rest, lexemes (s ++ rest) = ts ++ lexemes rest) ∧ part.Derives field ts qs := by
  induction h with
  | term h₁ h₂ h₃ f t =>
    obtain ⟨hf, ht⟩ : Quotable f ∧ Quotable t := by
      cases hreg _ List.mem_cons_self with
      | term hf ht => exact ⟨hf, ht⟩
    refine ⟨[.quoted f true, .colon, .quoted t true], fun rest ↦ ?_, fun p ↦
      .qualified (readsAsWord_quoted hf.1 p) (readsAsWord_quoted ht.1 .value)⟩
    have hcolon : ∀ rest, lexemes (str ":" ++ rest) = .colon :: lexemes rest :=
      lexemes_punctuation_cons (by decide)
    simp only [List.append_assoc]
    rw [lexemes_blanks_append h₁, lexemes_inQuotes_append hf.2, lexemes_blanks_append h₂, hcolon,
      lexemes_blanks_append h₃, lexemes_inQuotes_append ht.2]
    rfl
  | group h₁ h₂ h ih =>
    obtain ⟨ts, hts, hd⟩ := ih hreg
    refine ⟨.lparen :: (ts ++ [.rparen]), fun rest ↦ ?_, fun p ↦ .group hd⟩
    have hopen : ∀ rest, lexemes (str "(" ++ rest) = .lparen :: lexemes rest :=
      lexemes_punctuation_cons (by decide)
    have hclose : ∀ rest, lexemes (str ")" ++ rest) = .rparen :: lexemes rest :=
      lexemes_punctuation_cons (by decide)
    simp only [List.append_assoc]
    rw [lexemes_blanks_append h₁, hopen, hts, lexemes_blanks_append h₂, hclose]
    simp
  | single h ih =>
    obtain ⟨ts, hts, hd⟩ := ih hreg
    exact ⟨ts, hts, derives_or_of_and (derives_and_of_atom (hd .start))⟩
  | @conjunction q qs s s' h hs ih ihs =>
    obtain ⟨hlen, hq, hqs⟩ : 1 ≤ qs.length ∧ q.Regular Quotable ∧ ∀ q' ∈ qs,
        q'.Regular Quotable := by
      cases hreg _ List.mem_cons_self with
      | conjunction hlen hall =>
        exact ⟨Nat.le_of_succ_le_succ hlen, List.forall_mem_cons.1 hall⟩
    obtain ⟨ts, hts, hd⟩ := ih (List.forall_mem_singleton.2 hq)
    obtain ⟨ts', hts', hd'⟩ := ihs hqs
    obtain ⟨q', qs, rfl⟩ := List.exists_cons_of_length_pos hlen
    refine ⟨ts ++ ts', fun rest ↦ ?_, derives_or_of_and (.and (hd .start) hd')⟩
    rw [List.append_assoc, hts, hts', List.append_assoc]
  | @disjunction q qs s s' h hs ih ihs =>
    obtain ⟨hlen, hq, hqs⟩ : 1 ≤ qs.length ∧ q.Regular Quotable ∧ ∀ q' ∈ qs,
        q'.Regular Quotable := by
      cases hreg _ List.mem_cons_self with
      | disjunction hlen hall =>
        exact ⟨Nat.le_of_succ_le_succ hlen, List.forall_mem_cons.1 hall⟩
    obtain ⟨ts, hts, hd⟩ := ih (List.forall_mem_singleton.2 hq)
    obtain ⟨ts', hts', hd'⟩ := ihs hqs
    obtain ⟨q', qs, rfl⟩ := List.exists_cons_of_length_pos hlen
    refine ⟨ts ++ ts', fun rest ↦ ?_, .or (derives_and_of_atom (hd .start)) hd'⟩
    rw [List.append_assoc, hts, hts', List.append_assoc]
  | andNil => exact ⟨[], fun rest ↦ rfl, .andNil⟩
  | andMore hb h hs ih ihs =>
    obtain ⟨hq, hqs⟩ := List.forall_mem_cons.1 hreg
    obtain ⟨ts, hts, hd⟩ := ih (List.forall_mem_singleton.2 hq)
    obtain ⟨ts', hts', hd'⟩ := ihs hqs
    refine ⟨.and :: (ts ++ ts'), fun rest ↦ ?_, .andMore (hd .afterAnd) hd'⟩
    simp only [List.append_assoc]
    rw [lexemes_blanks_append hb,
      lexemes_word_append isKeyword_and.1 isKeyword_and.2 (h.startsIdent _), hts, hts']
    simp [Lexeme.and]
  | andBeside h hs ih ihs =>
    obtain ⟨hq, hqs⟩ := List.forall_mem_cons.1 hreg
    obtain ⟨ts, hts, hd⟩ := ih (List.forall_mem_singleton.2 hq)
    obtain ⟨ts', hts', hd'⟩ := ihs hqs
    refine ⟨ts ++ ts', fun rest ↦ ?_, .andBeside (hd .beside) hd'⟩
    rw [List.append_assoc, hts, hts', List.append_assoc]
  | orNil => exact ⟨[], fun rest ↦ rfl, .orNil⟩
  | orMore hb h hs ih ihs =>
    obtain ⟨hq, hqs⟩ := List.forall_mem_cons.1 hreg
    obtain ⟨ts, hts, hd⟩ := ih (List.forall_mem_singleton.2 hq)
    obtain ⟨ts', hts', hd'⟩ := ihs hqs
    refine ⟨.or :: (ts ++ ts'), fun rest ↦ ?_, .orMore (derives_and_of_atom (hd .start)) hd'⟩
    simp only [List.append_assoc]
    rw [lexemes_blanks_append hb,
      lexemes_word_append isKeyword_or.1 isKeyword_or.2 (h.startsIdent _), hts, hts']
    simp [Lexeme.or]

/-- What is written is parsed to the query. -/
theorem parse_writes {q : QueryAst} {b : Bytes} (hreg : q.Regular Quotable)
    (h : Writes .query [q] s) (hb : Blanks b) (field : Bytes) : parse (s ++ b) field = .ok q := by
  obtain ⟨ts, hts, hd⟩ := h.derives (List.forall_mem_singleton.2 hreg)
  have hblank : lexemes b = [] := by
    have := lexemes_blanks_append hb []
    rwa [List.append_nil] at this
  have hlex := hts b
  rw [hblank, List.append_nil] at hlex
  exact parse_of_derives hlex hd

end Parse

/-! ### Writing every query -/

section Exists

variable {P : Bytes → Prop} {q : QueryAst} {qs : List QueryAst}

theorem exists_writes_ands (h : ∀ q ∈ qs, ∃ s, Writes .child [q] s) : ∃ s, Writes .ands qs s := by
  induction qs with
  | nil => exact ⟨[], .andNil⟩
  | cons q qs ih =>
    obtain ⟨⟨s, hs⟩, hqs⟩ := List.forall_mem_cons.1 h
    obtain ⟨s', hs'⟩ := ih hqs
    exact ⟨_, .andBeside hs hs'⟩

theorem exists_writes_ors (h : ∀ q ∈ qs, ∃ s, Writes .child [q] s) : ∃ s, Writes .ors qs s := by
  induction qs with
  | nil => exact ⟨[], .orNil⟩
  | cons q qs ih =>
    obtain ⟨⟨s, hs⟩, hqs⟩ := List.forall_mem_cons.1 h
    obtain ⟨s', hs'⟩ := ih hqs
    have hnone : Blanks [] := fun _ hc ↦ absurd hc List.not_mem_nil
    exact ⟨_, .orMore hnone hs hs'⟩

/-- There is a way to write a query, and one to write it as a child. -/
theorem exists_writes (h : q.Regular P) :
    (∃ s, Writes .query [q] s) ∧ ∃ s, Writes .child [q] s := by
  have hnone : Blanks [] := fun _ hc ↦ absurd hc List.not_mem_nil
  have hboth : ∀ {q s}, Writes .query [q] s →
      (∃ s, Writes .query [q] s) ∧ ∃ s, Writes .child [q] s := fun h ↦
    ⟨⟨_, h⟩, _, .group hnone hnone h⟩
  induction h with
  | @term field text => exact hboth (.single (.term hnone hnone hnone field text))
  | @conjunction children hlen _ ih =>
    obtain ⟨q, qs, rfl⟩ := List.exists_cons_of_length_pos (Nat.zero_lt_of_lt hlen)
    obtain ⟨⟨-, s, hs⟩, hqs⟩ := List.forall_mem_cons.1 ih
    obtain ⟨s', hs'⟩ := exists_writes_ands fun q hq ↦ (hqs q hq).2
    exact hboth (.conjunction hs hs')
  | @disjunction children hlen _ ih =>
    obtain ⟨q, qs, rfl⟩ := List.exists_cons_of_length_pos (Nat.zero_lt_of_lt hlen)
    obtain ⟨⟨-, s, hs⟩, hqs⟩ := List.forall_mem_cons.1 ih
    obtain ⟨s', hs'⟩ := exists_writes_ors fun q hq ↦ (hqs q hq).2
    exact hboth (.disjunction hs hs')

/-- **Every boolean query can be written**, and whatever is written for it is parsed to it. -/
theorem written_and_parsed (h : q.Regular Quotable) :
    (∃ s, Writes .query [q] s) ∧ ∀ s b field : Bytes, Writes .query [q] s → Blanks b →
      parse (s ++ b) field = .ok q :=
  ⟨(exists_writes h).1, fun _ _ field hs hb ↦ parse_writes h hs hb field⟩

end Exists

theorem written_and_parsed_sample :
    let q : QueryAst := .conjunction [.term (str "t") (str "a b"),
      .disjunction [.term (str "AND") (str "(:"), .term (str "OR") (str "c")]]
    (∃ s, Writes .query [q] s) ∧ ∀ s b field : Bytes, Writes .query [q] s → Blanks b →
      parse (s ++ b) field = .ok q := by
  have hquotable : ∀ w : Bytes, w ≠ [] ∧ 34 ∉ w → Quotable w := fun _ h ↦ h
  have hor : QueryAst.Regular Quotable
      (.disjunction [.term (str "AND") (str "(:"), .term (str "OR") (str "c")]) :=
    .disjunction le_rfl (List.forall_mem_cons.2
      ⟨.term (hquotable _ (by decide)) (hquotable _ (by decide)), List.forall_mem_singleton.2
        (.term (hquotable _ (by decide)) (hquotable _ (by decide)))⟩)
  exact written_and_parsed (.conjunction le_rfl (List.forall_mem_cons.2
    ⟨.term (hquotable _ (by decide)) (hquotable _ (by decide)), List.forall_mem_singleton.2 hor⟩))

end Spp.Query
