import Mathlib.Data.List.Chain
import SearchPlusPlus.Query.OperatorWords

/-!
# Printing queries

`QueryAst::ToString`, and when `Parse` reads back what it prints. A term is printed without quotes,
so its field and its text have to be names; and behind the ` AND ` of a conjunction the parser looks
for `OR` before it reads an operand, so no term of a field `OR` may stand there
(`parse_toString_iff`).
-/

namespace Spp.Query

mutual

/-- `QueryAst::ToString`. -/
def QueryAst.toString : QueryAst → Bytes
  | .matchAll => str "*"
  | .term field text => field ++ str ":" ++ text
  | .conjunction children => str "(" ++ (str " AND ").intercalate (toStrings children) ++ str ")"
  | .disjunction children => str "(" ++ (str " OR ").intercalate (toStrings children) ++ str ")"

/-- `QueryAst::ToString` on the children of an operator. -/
def toStrings : List QueryAst → List Bytes
  | [] => []
  | q :: qs => q.toString :: toStrings qs

end

/-! ### The queries that the parser makes -/

/-- A query whose operators have two children or more, with `P` of every field and every text. -/
inductive QueryAst.Regular (P : Bytes → Prop) : QueryAst → Prop
  | term {field text : Bytes} (hfield : P field) (htext : P text) : Regular P (.term field text)
  | conjunction {children : List QueryAst} (hlen : 2 ≤ children.length)
      (h : ∀ q ∈ children, Regular P q) : Regular P (.conjunction children)
  | disjunction {children : List QueryAst} (hlen : 2 ≤ children.length)
      (h : ∀ q ∈ children, Regular P q) : Regular P (.disjunction children)

/-- A word that needs no quotes. -/
def IsName (w : Bytes) : Prop := w ≠ [] ∧ ∀ c ∈ w, isIdentChar c = true

section Regular

variable {P : Bytes → Prop} {field : Bytes} {ph : Phrase} {ts : List Lexeme} {q : QueryAst}
  {qs : List QueryAst}

theorem regular_unlessOne {operator : List QueryAst → QueryAst}
    (hop : ∀ {children : List QueryAst}, 2 ≤ children.length → (∀ q ∈ children, q.Regular P) →
      (operator children).Regular P)
    (h : q.Regular P) (hs : ∀ q ∈ qs, q.Regular P) : (unlessOne operator (q :: qs)).Regular P := by
  cases qs with
  | nil => exact h
  | cons q' qs => exact hop (Nat.le_add_left 2 _) (List.forall_mem_cons.2 ⟨h, hs⟩)

/-- What holds of the default field and of the words of a query holds of all its fields and
texts. -/
theorem Derives.regular (h : Derives ReadsAsWord field ph ts qs) (hfield : P field)
    (hts : ∀ t ∈ ts, t.text ≠ [] → P t.text) : ∀ q ∈ qs, q.Regular P := by
  induction h with
  | or h hs ih ihs =>
    obtain ⟨hleft, hright⟩ := List.forall_mem_append.1 hts
    exact List.forall_mem_singleton.2
      (regular_unlessOne .disjunction (List.forall_mem_singleton.1 (ih hleft)) (ihs hright))
  | and h hs ih ihs =>
    obtain ⟨hleft, hright⟩ := List.forall_mem_append.1 hts
    exact List.forall_mem_singleton.2
      (regular_unlessOne .conjunction (List.forall_mem_singleton.1 (ih hleft)) (ihs hright))
  | orNil | andNil => exact fun q hq ↦ absurd hq List.not_mem_nil
  | orMore h hs ih ihs | andMore h hs ih ihs =>
    obtain ⟨hleft, hright⟩ := List.forall_mem_append.1 (List.forall_mem_cons.1 hts).2
    exact List.forall_mem_cons.2 ⟨List.forall_mem_singleton.1 (ih hleft), ihs hright⟩
  | andBeside h hs ih ihs =>
    obtain ⟨hleft, hright⟩ := List.forall_mem_append.1 hts
    exact List.forall_mem_cons.2 ⟨List.forall_mem_singleton.1 (ih hleft), ihs hright⟩
  | group h ih => exact ih (List.forall_mem_append.1 (List.forall_mem_cons.1 hts).2).1
  | term h =>
    exact List.forall_mem_singleton.2 (.term hfield (List.forall_mem_singleton.1 hts h.1))
  | qualified h h' =>
    obtain ⟨ht, -, ht'⟩ : (_ ∧ _ ∧ _) := by simpa using hts
    exact List.forall_mem_singleton.2 (.term (ht h.1) (ht' h'.1))

/-- No word has a quote in it. -/
theorem quote_notMem_text {s : Bytes} : ∀ t ∈ lexemes s, 34 ∉ t.text := by
  refine forall_mem_lexemes fun c rest _ ↦ ?_
  have hident : ∀ {c : UInt8}, isIdentChar c = true → 34 ≠ c := fun h heq ↦
    absurd (heq ▸ h) (by decide)
  unfold scan
  split_ifs with h40 h41 h58 h34 hc
  · exact List.not_mem_nil
  · exact List.not_mem_nil
  · exact List.not_mem_nil
  · exact fun hmem ↦ absurd (List.mem_takeWhile_imp hmem) (by decide)
  · exact List.not_mem_cons_of_ne_of_not_mem (hident hc) fun hmem ↦
      hident (List.mem_takeWhile_imp hmem) rfl
  · exact List.not_mem_nil

/-- Without a quote in the input, the words are names. -/
theorem isName_text {s : Bytes} (h : 34 ∉ s) : ∀ t ∈ lexemes s, t.text ≠ [] → IsName t.text := by
  refine forall_mem_lexemes fun c rest hsuffix ↦ ?_
  have hc34 : c ≠ 34 := fun heq ↦ h (hsuffix.subset (heq ▸ List.mem_cons_self))
  unfold scan
  split_ifs with h40 h41 h58 hc
  · exact fun hne ↦ absurd rfl hne
  · exact fun hne ↦ absurd rfl hne
  · exact fun hne ↦ absurd rfl hne
  · exact fun hne ↦ ⟨hne, List.forall_mem_cons.2 ⟨hc, fun c' hc' ↦ List.mem_takeWhile_imp hc'⟩⟩
  · exact fun hne ↦ absurd rfl hne

end Regular

/-! ### What is printed -/

mutual

/-- The lexemes that a query is printed as. -/
def QueryAst.shown : QueryAst → List Lexeme
  | .matchAll => [.other 42]
  | .term field text => [.ident field, .colon, .ident text]
  | .conjunction children => .lparen :: ([.and].intercalate (shownEach children) ++ [.rparen])
  | .disjunction children => .lparen :: ([.or].intercalate (shownEach children) ++ [.rparen])

/-- The lexemes that each of some queries is printed as. -/
def shownEach : List QueryAst → List (List Lexeme)
  | [] => []
  | q :: qs => q.shown :: shownEach qs

end

theorem toStrings_eq_map (qs : List QueryAst) : toStrings qs = qs.map (·.toString) := by
  induction qs with
  | nil => rfl
  | cons q qs ih => exact congrArg (q.toString :: ·) ih

theorem shownEach_eq_map (qs : List QueryAst) : shownEach qs = qs.map (·.shown) := by
  induction qs with
  | nil => rfl
  | cons q qs ih => exact congrArg (q.shown :: ·) ih

theorem exists_eq_cons_cons {α : Type} {l : List α} (h : 2 ≤ l.length) :
    ∃ a b l', l = a :: b :: l' := by
  obtain ⟨a, l, rfl⟩ := List.exists_cons_of_length_pos (Nat.zero_lt_of_lt h)
  obtain ⟨b, l, rfl⟩ := List.exists_cons_of_length_pos (Nat.le_of_succ_le_succ h)
  exact ⟨a, b, l, rfl⟩

/-- What stands between lists, put in front of each of them but the first. -/
theorem intercalate_cons {α : Type} (sep l : List α) (ls : List (List α)) :
    sep.intercalate (l :: ls) = l ++ ls.flatMap (sep ++ ·) := by
  induction ls generalizing l with
  | nil => rw [List.intercalate_singleton, List.flatMap_nil, List.append_nil]
  | cons l' ls ih =>
    rw [List.intercalate_cons_cons, ih, List.append_assoc, List.flatMap_cons, List.append_assoc]

/-- A query without quotes is printed without quotes. -/
theorem quote_notMem_toString {q : QueryAst} (h : q.Regular (34 ∉ ·)) : 34 ∉ q.toString := by
  have heach : ∀ (sep : Bytes) (children : List QueryAst), 34 ∉ sep →
      (∀ q ∈ children, 34 ∉ q.toString) →
      34 ∉ str "(" ++ sep.intercalate (toStrings children) ++ str ")" := by
    intro sep children hsep hchildren
    have hbody : 34 ∉ sep.intercalate (toStrings children) := by
      cases children with
      | nil => exact List.not_mem_nil
      | cons q qs =>
        obtain ⟨hq, hqs⟩ := List.forall_mem_cons.1 hchildren
        rw [toStrings_eq_map, List.map_cons, intercalate_cons, List.flatMap_map]
        simp only [List.mem_append, List.mem_flatMap, not_or, not_exists, not_and]
        exact ⟨hq, fun q' hq' ↦ ⟨hsep, hqs q' hq'⟩⟩
    simp only [List.mem_append, not_or]
    exact ⟨⟨by decide, hbody⟩, by decide⟩
  induction h with
  | term hfield htext =>
    show 34 ∉ _ ++ str ":" ++ _
    simp only [List.mem_append, not_or]
    exact ⟨⟨hfield, by decide⟩, htext⟩
  | conjunction _ _ ih => exact heach _ _ (by decide) ih
  | disjunction _ _ ih => exact heach _ _ (by decide) ih

theorem lexemes_space (rest : Bytes) : lexemes (32 :: rest) = lexemes rest :=
  (lexemes_skipWs (32 :: rest)).symm.trans (lexemes_skipWs rest)

/-- A keyword with spaces around it. -/
theorem lexemes_spaced {kw : Bytes} (hkw : IsKeyword kw) (rest : Bytes) :
    lexemes (32 :: kw ++ 32 :: rest) = .ident kw :: lexemes rest := by
  rw [List.cons_append, lexemes_space, lexemes_word_append hkw.1 hkw.2 rfl, lexemes_space]

theorem lexemes_punctuation_cons {c : UInt8} {t : Lexeme} (h : (c, t) ∈ punctuation)
    (rest : Bytes) : lexemes (c :: rest) = t :: lexemes rest := by
  refine (lexemes_punctuation_iff h).2 ⟨rest, ?_, rfl⟩
  refine List.dropWhile_cons_of_neg ?_
  simp only [punctuation, List.mem_cons, Prod.mk.injEq, List.not_mem_nil, or_false] at h
  obtain ⟨rfl, -⟩ | ⟨rfl, -⟩ | ⟨rfl, -⟩ := h <;> decide

/-- The children of an operator, printed with what stands between them. -/
theorem lexemes_intercalate_toStrings {sep : Bytes} {t : Lexeme} {q : QueryAst}
    {qs : List QueryAst}
    (hsep : ∀ rest, lexemes (sep ++ rest) = t :: lexemes rest)
    (hstart : ∀ rest, startsIdent (sep ++ rest) = false)
    (h : ∀ q' ∈ q :: qs, ∀ rest, startsIdent rest = false →
      lexemes (q'.toString ++ rest) = q'.shown ++ lexemes rest)
    {rest : Bytes} (hrest : startsIdent rest = false) :
    lexemes (sep.intercalate (toStrings (q :: qs)) ++ rest) =
      [t].intercalate (shownEach (q :: qs)) ++ lexemes rest := by
  obtain ⟨hq, hqs⟩ := List.forall_mem_cons.1 h
  have htail : ∀ qs : List QueryAst, (∀ q' ∈ qs, ∀ rest, startsIdent rest = false →
        lexemes (q'.toString ++ rest) = q'.shown ++ lexemes rest) →
      startsIdent ((qs.map (·.toString)).flatMap (sep ++ ·) ++ rest) = false ∧
        lexemes ((qs.map (·.toString)).flatMap (sep ++ ·) ++ rest) =
          (qs.map (·.shown)).flatMap ([t] ++ ·) ++ lexemes rest := by
    intro qs hqs
    induction qs with
    | nil => exact ⟨hrest, rfl⟩
    | cons q qs ih =>
      obtain ⟨hq, hqs⟩ := List.forall_mem_cons.1 hqs
      obtain ⟨hnext, hlex⟩ := ih hqs
      simp only [List.map_cons, List.flatMap_cons, List.append_assoc]
      refine ⟨hstart _, ?_⟩
      rw [hsep, hq _ hnext, hlex]
      rfl
  obtain ⟨hnext, hlex⟩ := htail qs hqs
  rw [toStrings_eq_map, shownEach_eq_map, List.map_cons, List.map_cons, intercalate_cons,
    intercalate_cons, List.append_assoc, List.append_assoc, hq _ hnext, hlex]

/-- What `ToString` prints is read as the lexemes it stands for. -/
theorem lexemes_toString_append {q : QueryAst} (h : q.Regular IsName) :
    ∀ rest, startsIdent rest = false → lexemes (q.toString ++ rest) = q.shown ++ lexemes rest := by
  have hoperator : ∀ {sep : Bytes} {t : Lexeme} {children : List QueryAst},
      (∀ rest, lexemes (sep ++ rest) = t :: lexemes rest) →
      (∀ rest, startsIdent (sep ++ rest) = false) → 2 ≤ children.length →
      (∀ q' ∈ children, ∀ rest, startsIdent rest = false →
        lexemes (q'.toString ++ rest) = q'.shown ++ lexemes rest) →
      ∀ rest, lexemes (str "(" ++ sep.intercalate (toStrings children) ++ str ")" ++ rest) =
        .lparen :: ([t].intercalate (shownEach children) ++ [.rparen]) ++ lexemes rest := by
    intro sep t children hsep hstart hlen hchildren rest
    obtain ⟨q, qs, rfl⟩ := List.exists_cons_of_length_pos (Nat.zero_lt_of_lt hlen)
    have hbody := lexemes_intercalate_toStrings hsep hstart hchildren
      (show startsIdent (41 :: rest) = false from rfl)
    rw [lexemes_punctuation_cons (c := 41) (t := .rparen) (by decide)] at hbody
    rw [List.append_assoc, List.append_assoc]
    show lexemes (40 :: (_ ++ 41 :: rest)) = _
    rw [lexemes_punctuation_cons (c := 40) (t := .lparen) (by decide), hbody]
    simp
  induction h with
  | @term field text hfield htext =>
    intro rest hrest
    show lexemes (field ++ [58] ++ text ++ rest) = _
    rw [List.append_assoc, List.append_assoc, List.singleton_append,
      lexemes_word_append hfield.1 hfield.2 rfl,
      lexemes_punctuation_cons (c := 58) (t := .colon) (by decide),
      lexemes_word_append htext.1 htext.2 hrest]
    rfl
  | conjunction hlen _ ih =>
    exact fun rest _ ↦ hoperator (fun rest ↦ lexemes_spaced isKeyword_and rest)
      (fun rest ↦ rfl) hlen ih rest
  | disjunction hlen _ ih =>
    exact fun rest _ ↦ hoperator (fun rest ↦ lexemes_spaced isKeyword_or rest)
      (fun rest ↦ rfl) hlen ih rest

/-! ### Reading it back -/

/-- The queries that can be read back: fields and texts are names, and no child of a conjunction
but the first is a term of a field `OR`. -/
inductive QueryAst.Readable : QueryAst → Prop
  | term {field text : Bytes} (hfield : IsName field) (htext : IsName text) :
      Readable (.term field text)
  | conjunction {children : List QueryAst} (h : ∀ q ∈ children, Readable q)
      (hor : ∀ text, .term (str "OR") text ∉ children.tail) : Readable (.conjunction children)
  | disjunction {children : List QueryAst} (h : ∀ q ∈ children, Readable q) :
      Readable (.disjunction children)

/-- The parser reads an operand at a place where it does not look for the field of a term. -/
def QueryAst.StandsAt (p : Place) (q : QueryAst) : Prop :=
  ∀ field text, q = .term field text → ¬LookedFor p (.ident field)

theorem standsAt_start (q : QueryAst) : q.StandsAt .start := fun _ _ _ ↦ not_false

theorem standsAt_afterAnd {qs : List QueryAst} (hor : ∀ text, .term (str "OR") text ∉ qs)
    {q : QueryAst} (hq : q ∈ qs) : q.StandsAt .afterAnd := by
  rintro field text rfl hlooked
  exact hor text (Lexeme.ident.inj hlooked ▸ hq)

section Read

variable {field : Bytes} {q : QueryAst} {qs : List QueryAst}

theorem regular_of_readable (hreg : q.Regular fun _ ↦ True) (h : q.Readable) :
    q.Regular IsName := by
  induction hreg with
  | term =>
    cases h with
    | term hfield htext => exact .term hfield htext
  | conjunction hlen _ ih =>
    cases h with
    | conjunction h => exact .conjunction hlen fun q hq ↦ ih q hq (h q hq)
  | disjunction hlen _ ih =>
    cases h with
    | disjunction h => exact .disjunction hlen fun q hq ↦ ih q hq (h q hq)

/-- The children behind the first, each behind an `AND`. -/
theorem derives_andRest (h : ∀ q ∈ qs, Derives ReadsAsWord field (.atom .afterAnd) q.shown [q]) :
    Derives ReadsAsWord field .andRest ((qs.map (·.shown)).flatMap ([.and] ++ ·)) qs := by
  induction qs with
  | nil => exact .andNil
  | cons q qs ih =>
    obtain ⟨hq, hqs⟩ := List.forall_mem_cons.1 h
    exact .andMore hq (ih hqs)

/-- The children behind the first, each behind an `OR`. -/
theorem derives_orRest (h : ∀ q ∈ qs, Derives ReadsAsWord field (.atom .start) q.shown [q]) :
    Derives ReadsAsWord field .orRest ((qs.map (·.shown)).flatMap ([.or] ++ ·)) qs := by
  induction qs with
  | nil => exact .orNil
  | cons q qs ih =>
    obtain ⟨hq, hqs⟩ := List.forall_mem_cons.1 h
    have hand := Derives.and hq .andNil
    rw [List.append_nil] at hand
    exact .orMore hand (ih hqs)

/-- What is printed of a readable query derives it. -/
theorem derives_shown (hreg : q.Regular IsName) (h : q.Readable) :
    ∀ p, q.StandsAt p → Derives ReadsAsWord field (.atom p) q.shown [q] := by
  induction hreg with
  | term hfield htext =>
    intro p hp
    exact .qualified ⟨hfield.1, hp _ _ rfl⟩ ⟨htext.1, not_false⟩
  | @conjunction children hlen _ ih =>
    cases h with
    | conjunction h hor =>
      intro p _
      obtain ⟨q, q', qs, rfl⟩ := exists_eq_cons_cons hlen
      have hfirst := ih q List.mem_cons_self (h q List.mem_cons_self) .start (standsAt_start q)
      have hrest := derives_andRest fun q₁ hq₁ ↦ ih q₁ (List.mem_cons_of_mem q hq₁)
        (h q₁ (List.mem_cons_of_mem q hq₁)) .afterAnd (standsAt_afterAnd hor hq₁)
      have hor := Derives.or (.and hfirst hrest) .orNil
      rw [List.append_nil] at hor
      rw [QueryAst.shown, shownEach_eq_map, List.map_cons, intercalate_cons]
      exact .group hor
  | @disjunction children hlen _ ih =>
    cases h with
    | disjunction h =>
      intro p _
      obtain ⟨q, q', qs, rfl⟩ := exists_eq_cons_cons hlen
      have hfirst := ih q List.mem_cons_self (h q List.mem_cons_self) .start (standsAt_start q)
      have hrest := derives_orRest fun q₁ hq₁ ↦ ih q₁ (List.mem_cons_of_mem q hq₁)
        (h q₁ (List.mem_cons_of_mem q hq₁)) .start (standsAt_start q₁)
      have hand := Derives.and hfirst .andNil
      rw [List.append_nil] at hand
      rw [QueryAst.shown, shownEach_eq_map, List.map_cons, intercalate_cons]
      exact .group (.or hand hrest)

/-! ### What cannot be read back -/

/-- A colon does not follow `OR`. -/
def Separate (t t' : Lexeme) : Prop := t' = .colon → t ≠ .or

/-- A colon follows a word, and `OR` is none in the documented grammar. -/
theorem Derives.separate {ph : Phrase} {ts : List Lexeme} (h : Derives IsWord field ph ts qs) :
    ts.IsChain Separate ∧ .colon ∉ ts.head? := by
  have hjoin : ∀ {ts ts' : List Lexeme}, ts.IsChain Separate → ts'.IsChain Separate →
      .colon ∉ ts'.head? → (ts ++ ts').IsChain Separate := fun h h' hhead ↦
    h.append h' fun t _ t' ht' heq ↦ absurd (heq ▸ ht') hhead
  have hhead : ∀ {ts ts' : List Lexeme}, .colon ∉ ts.head? → .colon ∉ ts'.head? →
      .colon ∉ (ts ++ ts').head? := by
    intro ts ts' h h'
    cases ts with
    | nil => exact h'
    | cons t ts => exact h
  have hcons : ∀ {t : Lexeme} {ts : List Lexeme}, ts.IsChain Separate → .colon ∉ ts.head? →
      (t :: ts).IsChain Separate := fun h hhead ↦
    h.cons fun t' ht' heq ↦ absurd (heq ▸ ht') hhead
  have hword : ∀ {p : Place} {t : Lexeme}, IsWord p t → t ≠ .colon := fun h heq ↦
    h.1 (heq ▸ rfl)
  induction h with
  | or h hs ih ihs | and h hs ih ihs | andBeside h hs ih ihs =>
    exact ⟨hjoin ih.1 ihs.1 ihs.2, hhead ih.2 ihs.2⟩
  | orNil | andNil => exact ⟨.nil, by simp⟩
  | orMore h hs ih ihs | andMore h hs ih ihs =>
    exact ⟨hcons (hjoin ih.1 ihs.1 ihs.2) (hhead ih.2 ihs.2), by simp [Lexeme.and, Lexeme.or]⟩
  | group h ih =>
    exact ⟨hcons (hjoin ih.1 (.singleton _) (by simp)) (hhead ih.2 (by simp)), by simp⟩
  | term h => exact ⟨.singleton _, fun hmem ↦ hword h (Option.some.inj hmem)⟩
  | @qualified p t t' h h' =>
    refine ⟨?_, fun hmem ↦ hword h (Option.some.inj hmem)⟩
    exact .cons_cons (fun _ ↦ h.2.2.2) (.cons_cons (fun heq ↦ absurd heq (hword h'))
      (.singleton t'))

/-- However the lexemes that a query is printed as are mended, a colon follows `OR` in them. -/
def QueryAst.Spoiled (q : QueryAst) : Prop :=
  ∀ p rest, ¬(mended p (q.shown ++ rest)).IsChain Separate

theorem mended_shown_append (hreg : q.Regular IsName) (h : q.Readable) {p : Place}
    (hp : q.StandsAt p) (rest : List Lexeme) :
    ∃ ts, mended p (q.shown ++ rest) = ts ++ mended .beside rest := by
  have hderives : Derives ReadsAsWord [] (.atom p) q.shown [q] := derives_shown hreg h p hp
  obtain ⟨ts, hts, -⟩ := hderives.isWord_mended rest
  exact ⟨ts, hts⟩

section Operator

/-! The parser looks for the operator `sep` behind an operand, and for nothing but `OR` at the
place `p` where the next operand stands. -/

variable {sep : Lexeme} {p : Place} (hsep : LookedFor .beside sep)
  (hafter : Place.beside.after sep = p) (hlooked : ∀ t, LookedFor p t → t = .or)
include hsep hafter hlooked

omit hlooked in
theorem mended_beside_sep (ts : List Lexeme) :
    mended .beside (sep :: ts) = sep :: mended p ts := by
  rw [mended, mended_of_lookedFor hsep, hafter]

/-- The children behind the first: all can be read, or a colon follows `OR`. -/
theorem readable_or_spoiled_rest (hreg : ∀ q ∈ qs, q.Regular IsName)
    (h : ∀ q ∈ qs, q.Readable ∨ q.Spoiled) :
    (∀ q ∈ qs, q.Readable ∧ q.StandsAt p) ∨ ∀ rest,
      ¬(mended .beside ((qs.map (·.shown)).flatMap ([sep] ++ ·) ++ rest)).IsChain Separate := by
  induction qs with
  | nil => exact .inl fun q hq ↦ absurd hq List.not_mem_nil
  | cons q qs ih =>
    obtain ⟨hq, hqs⟩ := List.forall_mem_cons.1 h
    obtain ⟨hregq, hregqs⟩ := List.forall_mem_cons.1 hreg
    have hsplit : ∀ rest, mended .beside (((q :: qs).map (·.shown)).flatMap ([sep] ++ ·) ++ rest) =
        sep :: mended p (q.shown ++ ((qs.map (·.shown)).flatMap ([sep] ++ ·) ++ rest)) := by
      intro rest
      rw [List.map_cons, List.flatMap_cons, List.append_assoc, List.append_assoc]
      exact mended_beside_sep hsep hafter _
    rcases hq with hq | hq
    · by_cases hstands : q.StandsAt p
      · refine (ih hregqs hqs).imp (fun hrest ↦ List.forall_mem_cons.2 ⟨⟨hq, hstands⟩, hrest⟩)
          fun hrest rest hchain ↦ ?_
        rw [hsplit] at hchain
        obtain ⟨ts, hts⟩ := mended_shown_append hregq hq hstands
          ((qs.map (·.shown)).flatMap ([sep] ++ ·) ++ rest)
        rw [hts] at hchain
        exact hrest rest hchain.tail.right_of_append
      · -- The field of the child is taken for the operator, and its colon is left.
        refine .inr fun rest hchain ↦ hstands ?_
        rintro field text rfl hfield
        rw [hsplit] at hchain
        have hmended : mended p ((QueryAst.term field text).shown ++
            ((qs.map (·.shown)).flatMap ([sep] ++ ·) ++ rest)) = .ident field :: .colon ::
              mended ((p.after (.ident field)).after .colon) (.ident text ::
                ((qs.map (·.shown)).flatMap ([sep] ++ ·) ++ rest)) := by
          show Lexeme.mended p (.ident field) :: Lexeme.mended _ .colon :: _ = _
          rw [mended_of_lookedFor hfield]
          rfl
        rw [hmended] at hchain
        exact hchain.tail.rel rfl (hlooked _ hfield)
    · refine .inr fun rest hchain ↦ ?_
      rw [hsplit] at hchain
      exact hq p _ hchain.tail

/-- The children of an operator: all can be read, or a colon follows `OR`. -/
theorem readable_or_spoiled_children {children : List QueryAst} (hlen : 2 ≤ children.length)
    (hreg : ∀ q ∈ children, q.Regular IsName) (h : ∀ q ∈ children, q.Readable ∨ q.Spoiled) :
    ((∀ q ∈ children, q.Readable) ∧ ∀ q ∈ children.tail, q.StandsAt p) ∨ ∀ p' rest,
      ¬(mended p' (.lparen :: ([sep].intercalate (shownEach children) ++ [.rparen]) ++
        rest)).IsChain Separate := by
  obtain ⟨q, q', qs, rfl⟩ := exists_eq_cons_cons hlen
  obtain ⟨hq, hqs⟩ := List.forall_mem_cons.1 h
  obtain ⟨hregq, hregqs⟩ := List.forall_mem_cons.1 hreg
  have hsplit : ∀ p' rest, mended p' (.lparen :: ([sep].intercalate
      (shownEach (q :: q' :: qs)) ++ [.rparen]) ++ rest) = .lparen :: mended .start (q.shown ++
        (((q' :: qs).map (·.shown)).flatMap ([sep] ++ ·) ++ .rparen :: rest)) := by
    intro p' rest
    rw [shownEach_eq_map, List.map_cons, intercalate_cons, List.cons_append, List.append_assoc,
      List.append_assoc]
    rfl
  rcases hq with hq | hq
  · refine (readable_or_spoiled_rest hsep hafter hlooked hregqs hqs).imp (fun hrest ↦ ?_)
      fun hrest p' rest hchain ↦ ?_
    · exact ⟨List.forall_mem_cons.2 ⟨hq, fun q hq ↦ (hrest q hq).1⟩, fun q hq ↦ (hrest q hq).2⟩
    · rw [hsplit] at hchain
      obtain ⟨ts, hts⟩ := mended_shown_append hregq hq (standsAt_start q)
        (((q' :: qs).map (·.shown)).flatMap ([sep] ++ ·) ++ .rparen :: rest)
      rw [hts] at hchain
      exact hrest _ hchain.tail.right_of_append
  · refine .inr fun p' rest hchain ↦ ?_
    rw [hsplit] at hchain
    exact hq .start _ hchain.tail

end Operator

theorem readable_or_spoiled (h : q.Regular IsName) : q.Readable ∨ q.Spoiled := by
  induction h with
  | term hfield htext => exact .inl (.term hfield htext)
  | conjunction hlen hreg ih =>
    have hand : LookedFor .beside .and := .inl rfl
    refine (readable_or_spoiled_children (p := .afterAnd) hand rfl (fun _ h ↦ h) hlen hreg
      ih).imp_left fun ⟨h, hstands⟩ ↦ .conjunction h fun text hmem ↦ ?_
    exact hstands _ hmem (str "OR") text rfl rfl
  | disjunction hlen hreg ih =>
    have hor : LookedFor .beside .or := .inr rfl
    exact (readable_or_spoiled_children (p := .start) hor rfl (fun _ h ↦ h.elim) hlen hreg
      ih).imp_left fun h ↦ .disjunction h.1

/-! ### The round trip -/

theorem parse_of_derives {input : Bytes} {ts : List Lexeme} (hlex : lexemes input = ts)
    (h : Derives ReadsAsWord field .or ts [q]) : parse input field = .ok q :=
  parse_iff_readsAsWord.2 (.inr (hlex ▸ h))

/-- **A query that was parsed is printed and parsed back** exactly if it is readable. -/
theorem parse_toString_iff {input : Bytes} (hfield : IsName field)
    (h : parse input field = .ok q) : parse q.toString field = .ok q ↔ q.Readable := by
  have hfield34 : 34 ∉ field := fun hmem ↦ absurd (hfield.2 34 hmem) (by decide)
  rcases parse_iff_readsAsWord.1 h with ⟨-, rfl⟩ | hd
  · -- An input without words is the query of all documents, and `*` is not an input for that.
    refine ⟨fun h ↦ ?_, fun h ↦ by cases h⟩
    rcases parse_iff_readsAsWord.1 h with ⟨hnil, -⟩ | hd
    · exact absurd hnil (by decide)
    · cases hd.regular (P := fun _ ↦ True) trivial (fun _ _ _ ↦ trivial) _ (.head _)
  have hreg : q.Regular (34 ∉ ·) :=
    hd.regular hfield34 (fun t ht _ ↦ quote_notMem_text t ht) _ (.head _)
  constructor
  · intro h
    rcases parse_iff_readsAsWord.1 h with ⟨-, rfl⟩ | hd'
    · cases hreg
    have hname : q.Regular IsName :=
      hd'.regular hfield (isName_text (quote_notMem_toString hreg)) _ (.head _)
    refine (readable_or_spoiled hname).resolve_right fun hspoiled ↦ ?_
    have hlex := lexemes_toString_append hname [] rfl
    rw [List.append_nil] at hlex
    obtain ⟨ts, hts, hword⟩ := hd'.isWord_mended []
    rw [List.append_nil] at hts
    refine hspoiled .start (lexemes []) ?_
    rw [← hlex]
    have heq : mended .start (lexemes q.toString) = ts ++ [] := hts
    rw [heq, List.append_nil]
    exact hword.separate.1
  · intro h
    have htrue : q.Regular fun _ ↦ True :=
      hd.regular trivial (fun _ _ _ ↦ trivial) _ (.head _)
    have hname := regular_of_readable htrue h
    have hlex := lexemes_toString_append hname [] rfl
    rw [List.append_nil, show lexemes [] = [] from rfl, List.append_nil] at hlex
    have hand : Derives ReadsAsWord field .and (q.shown ++ []) [q] :=
      .and (derives_shown hname h .start (standsAt_start q)) .andNil
    have hor := Derives.or hand .orNil
    rw [List.append_nil, List.append_nil] at hor
    exact parse_of_derives hlex hor

end Read

theorem readsAsWord_ident {p : Place} (hp : p = .start ∨ p = .value) {name : Bytes}
    (hne : name ≠ []) : ReadsAsWord p (.ident name) := by
  rcases hp with rfl | rfl
  · exact ⟨hne, not_false⟩
  · exact ⟨hne, not_false⟩

theorem parse_toString_iff_sample :
    ∃ q : QueryAst, parse (str "a OR u:b") (str "t") = .ok q ∧
      (parse q.toString (str "t") = .ok q ↔ q.Readable) := by
  have hlex : lexemes (str "a OR u:b") =
      [.ident (str "a"), .or, .ident (str "u"), .colon, .ident (str "b")] := by decide
  have hfirst : Derives ReadsAsWord (str "t") .and [.ident (str "a")] [.term (str "t") (str "a")] :=
    .and (.term (readsAsWord_ident (.inl rfl) (by decide))) .andNil
  have hsecond : Derives ReadsAsWord (str "t") .and [.ident (str "u"), .colon, .ident (str "b")]
      [.term (str "u") (str "b")] :=
    .and (.qualified (readsAsWord_ident (.inl rfl) (by decide))
      (readsAsWord_ident (.inr rfl) (by decide))) .andNil
  have hparse := parse_of_derives hlex (.or hfirst (.orMore hsecond .orNil))
  exact ⟨_, hparse, parse_toString_iff ⟨by decide, List.all_eq_true.1 (by decide)⟩ hparse⟩

/-- A quoted text with a space in it is printed without its quotes. -/
theorem not_parse_toString : ¬∀ (input field : Bytes) (q : QueryAst), IsName field →
    parse input field = .ok q → parse q.toString field = .ok q := by
  intro h
  have hname : IsName (str "t") := ⟨by decide, List.all_eq_true.1 (by decide)⟩
  have hlex : lexemes (str "\"a b\"") = [.quoted (str "a b") true] := by decide
  have hquoted : ReadsAsWord .start (.quoted (str "a b") true) := ⟨by decide, not_false⟩
  have hparse : parse (str "\"a b\"") (str "t") = .ok (.term (str "t") (str "a b")) :=
    parse_of_derives hlex (.or (.and (.term hquoted) .andNil) .orNil)
  -- What is printed are two words, and the second is a term of its own.
  have hlex' : lexemes (QueryAst.toString (.term (str "t") (str "a b"))) =
      [.ident (str "t"), .colon, .ident (str "a"), .ident (str "b")] := by decide
  have hfirst : Derives ReadsAsWord (str "t") (.atom .start)
      [.ident (str "t"), .colon, .ident (str "a")] [.term (str "t") (str "a")] :=
    .qualified (readsAsWord_ident (.inl rfl) (by decide))
      (readsAsWord_ident (.inr rfl) (by decide))
  have hsecond : Derives ReadsAsWord (str "t") .andRest [.ident (str "b")]
      [.term (str "t") (str "b")] :=
    .andBeside (.term ⟨by decide, by decide⟩) .andNil
  have hparts := parse_of_derives hlex' (.or (.and hfirst hsecond) .orNil)
  cases (h _ _ _ hname hparse).symm.trans hparts

end Spp.Query
