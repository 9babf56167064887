import SearchPlusPlus.Query.QueryGrammar

/-!
# Operator words

What the parser takes for a word is more than the documented grammar allows: `AND` and `OR` where
an operand is expected, and a quoted string that is never closed. `mended` puts these into closed
quotes, where they are words; the parser accepts exactly the inputs that the documented grammar
derives once they are mended (`parse_iff_isWord_mended`).
-/

namespace Spp.Query

/-- A keyword, outside quotes. -/
def Lexeme.IsKeyword (t : Lexeme) : Prop := t = .and ∨ t = .or

instance (t : Lexeme) : Decidable t.IsKeyword := inferInstanceAs (Decidable (_ ∨ _))

instance (p : Place) (t : Lexeme) : Decidable (LookedFor p t) :=
  match p with
  | .start | .value => inferInstanceAs (Decidable False)
  | .afterAnd => inferInstanceAs (Decidable (t = .or))
  | .beside => inferInstanceAs (Decidable (t = .and ∨ t = .or))

/-- A lexeme at a place, in closed quotes if it is a keyword that no one looks for there or a
quoted string left open. -/
def Lexeme.mended (p : Place) (t : Lexeme) : Lexeme :=
  if (t.IsKeyword ∧ ¬LookedFor p t) ∨ ¬t.Closed then .quoted t.text true else t

/-- The place after a lexeme. -/
def Place.after (p : Place) (t : Lexeme) : Place :=
  if t = .lparen then .start
  else if t = .colon then .value
  else if LookedFor p t then if t = .and then .afterAnd else .start
  else .beside

/-- Some lexemes from a place on, each of them mended. -/
def mended : Place → List Lexeme → List Lexeme
  | _, [] => []
  | p, t :: ts => t.mended p :: mended (p.after t) ts

/-- An operator that stands between operands is left alone. -/
example : mended .start [.or, .and, .lparen, .and] =
    [.quoted (str "OR") true, .and, .lparen, .quoted (str "AND") true] := by decide

/-! ### One lexeme -/

section Lexeme

variable {p : Place} {t : Lexeme}

theorem mended_text (p : Place) (t : Lexeme) : (t.mended p).text = t.text := by
  rw [Lexeme.mended]
  split_ifs <;> rfl

theorem LookedFor.isKeyword (h : LookedFor p t) : t.IsKeyword := by
  cases p with
  | start | value => exact absurd h not_false
  | afterAnd => exact .inr h
  | beside => exact h

theorem mended_of_lookedFor (h : LookedFor p t) : t.mended p = t := by
  rw [Lexeme.mended, if_neg]
  rintro (⟨-, hnot⟩ | hopen)
  · exact hnot h
  · rcases h.isKeyword with rfl | rfl <;> exact hopen (by decide)

/-- A lexeme that the parser reads as a word is a word once it is mended. -/
theorem ReadsAsWord.isWord_mended (h : ReadsAsWord p t) (p' : Place) : IsWord p' (t.mended p) := by
  refine ⟨by rw [mended_text]; exact h.1, ?_⟩
  rw [Lexeme.mended]
  split_ifs with hmend
  · exact ⟨fun text heq ↦ (by cases heq), Lexeme.noConfusion, Lexeme.noConfusion⟩
  · obtain ⟨hkey, hclosed⟩ := not_or.1 hmend
    have hnot : ¬t.IsKeyword := fun hk ↦ hkey ⟨hk, h.2⟩
    exact ⟨not_not.1 hclosed, fun heq ↦ hnot (.inl heq), fun heq ↦ hnot (.inr heq)⟩

theorem ReadsAsWord.after (h : ReadsAsWord p t) : p.after t = .beside := by
  have htext : ∀ t' : Lexeme, t'.text = [] → t ≠ t' := fun t' ht' heq ↦
    h.1 (heq ▸ ht')
  rw [Place.after, if_neg (htext _ rfl), if_neg (htext _ rfl), if_neg h.2]

/-- Only what the parser reads as a word is mended to one. -/
theorem readsAsWord_of_mended {p' : Place} (h : IsWord p' (t.mended p)) : ReadsAsWord p t := by
  refine ⟨by rw [← mended_text p]; exact h.1, fun hlooked ↦ ?_⟩
  rw [mended_of_lookedFor hlooked] at h
  exact hlooked.isKeyword.elim h.2.2.1 h.2.2.2

theorem IsWord.mended_eq {p' : Place} (h : IsWord p' t) : t.mended p = t := by
  rw [Lexeme.mended, if_neg]
  rintro (⟨hkey, -⟩ | hopen)
  · exact hkey.elim h.2.2.1 h.2.2.2
  · exact hopen h.2.1

/-- A lexeme that is no quoted string once it is mended was not touched. -/
theorem eq_of_mended_eq {t' : Lexeme} (h : t.mended p = t')
    (hquoted : ∀ text, t' ≠ .quoted text true) : t = t' := by
  rw [Lexeme.mended] at h
  split_ifs at h
  · exact absurd h.symm (hquoted _)
  · exact h

end Lexeme

/-! ### Phrases -/

/-- The place where a phrase starts. -/
def Phrase.place : Phrase → Place
  | .or | .and => .start
  | .orRest | .andRest => .beside
  | .atom p => p

section Phrase

variable {field : Bytes} {ph : Phrase} {ts : List Lexeme} {qs : List QueryAst}

/-- What the parser reads is documented once it is mended. -/
theorem Derives.isWord_mended (h : Derives ReadsAsWord field ph ts qs) :
    ∀ post, ∃ ts', mended ph.place (ts ++ post) = ts' ++ mended .beside post ∧
      Derives IsWord field ph ts' qs := by
  induction h with
  | @or ts ts₁ q qs h hs ih ihs =>
    intro post
    obtain ⟨pre, hpre, hd⟩ := ih (ts₁ ++ post)
    obtain ⟨pre', hpre', hd'⟩ := ihs post
    refine ⟨pre ++ pre', ?_, .or hd hd'⟩
    rw [List.append_assoc, List.append_assoc, ← hpre']
    exact hpre
  | orNil => exact fun post ↦ ⟨[], rfl, .orNil⟩
  | @orMore ts ts₁ q qs h hs ih ihs =>
    intro post
    obtain ⟨pre, hpre, hd⟩ := ih (ts₁ ++ post)
    obtain ⟨pre', hpre', hd'⟩ := ihs post
    refine ⟨.or :: (pre ++ pre'), ?_, .orMore hd hd'⟩
    rw [List.cons_append, List.append_assoc, List.cons_append, List.append_assoc, ← hpre']
    exact congrArg (Lexeme.or :: ·) hpre
  | @and ts ts₁ q qs h hs ih ihs =>
    intro post
    obtain ⟨pre, hpre, hd⟩ := ih (ts₁ ++ post)
    obtain ⟨pre', hpre', hd'⟩ := ihs post
    refine ⟨pre ++ pre', ?_, .and hd hd'⟩
    rw [List.append_assoc, List.append_assoc, ← hpre']
    exact hpre
  | andNil => exact fun post ↦ ⟨[], rfl, .andNil⟩
  | @andMore ts ts₁ q qs h hs ih ihs =>
    intro post
    obtain ⟨pre, hpre, hd⟩ := ih (ts₁ ++ post)
    obtain ⟨pre', hpre', hd'⟩ := ihs post
    refine ⟨.and :: (pre ++ pre'), ?_, .andMore hd hd'⟩
    rw [List.cons_append, List.append_assoc, List.cons_append, List.append_assoc, ← hpre']
    exact congrArg (Lexeme.and :: ·) hpre
  | @andBeside ts ts₁ q qs h hs ih ihs =>
    intro post
    obtain ⟨pre, hpre, hd⟩ := ih (ts₁ ++ post)
    obtain ⟨pre', hpre', hd'⟩ := ihs post
    refine ⟨pre ++ pre', ?_, .andBeside hd hd'⟩
    rw [List.append_assoc, List.append_assoc, ← hpre']
    exact hpre
  | @group p ts q h ih =>
    intro post
    obtain ⟨pre, hpre, hd⟩ := ih (.rparen :: post)
    refine ⟨.lparen :: (pre ++ [.rparen]), ?_, .group hd⟩
    simp only [List.cons_append, List.append_assoc, List.nil_append]
    exact congrArg (Lexeme.lparen :: ·) hpre
  | @term p t h =>
    intro post
    refine ⟨[t.mended p], ?_, ?_⟩
    · show t.mended p :: mended (p.after t) post = _
      rw [h.after]
      rfl
    · rw [← mended_text p]
      exact .term (h.isWord_mended p)
  | @qualified p t t' h h' =>
    intro post
    refine ⟨[t.mended p, .colon, t'.mended .value], ?_, ?_⟩
    · show t.mended p :: mended (p.after t) (.colon :: t' :: post) = _
      rw [h.after]
      show t.mended p :: .colon :: t'.mended .value :: mended (Place.value.after t') post = _
      rw [h'.after]
      rfl
    · rw [← mended_text p t, ← mended_text .value t']
      exact .qualified (h.isWord_mended p) (h'.isWord_mended .value)

theorem mended_eq_cons {p : Place} {t : Lexeme} {rest : List Lexeme}
    (h : mended p ts = t :: rest) :
    ∃ t' ts', ts = t' :: ts' ∧ t'.mended p = t ∧ rest = mended (p.after t') ts' := by
  cases ts with
  | nil => cases h
  | cons t' ts' =>
    obtain ⟨hhead, htail⟩ := List.cons.inj h
    exact ⟨t', ts', rfl, hhead, htail.symm⟩

/-- What is documented once it is mended, the parser reads. -/
theorem Derives.of_mended (h : Derives IsWord field ph ts qs) :
    ∀ {us rest : List Lexeme}, mended ph.place us = ts ++ rest →
      ∃ pre post, us = pre ++ post ∧ rest = mended .beside post ∧
        Derives ReadsAsWord field ph pre qs := by
  induction h with
  | or h hs ih ihs =>
    intro us rest hus
    rw [List.append_assoc] at hus
    obtain ⟨pre, post, rfl, hrest, hd⟩ := ih hus
    obtain ⟨pre', post', rfl, hrest', hd'⟩ := ihs hrest.symm
    exact ⟨pre ++ pre', post', (List.append_assoc _ _ _).symm, hrest', .or hd hd'⟩
  | orNil => exact fun {us rest} hus ↦ ⟨[], us, rfl, hus.symm, .orNil⟩
  | orMore h hs ih ihs =>
    intro us rest hus
    rw [List.cons_append, List.append_assoc] at hus
    obtain ⟨t, us, rfl, ht, hus'⟩ := mended_eq_cons hus
    obtain rfl := eq_of_mended_eq ht fun text heq ↦ by cases heq
    obtain ⟨pre, post, rfl, hrest, hd⟩ := ih hus'.symm
    obtain ⟨pre', post', rfl, hrest', hd'⟩ := ihs hrest.symm
    exact ⟨.or :: (pre ++ pre'), post', by simp, hrest', .orMore hd hd'⟩
  | and h hs ih ihs =>
    intro us rest hus
    rw [List.append_assoc] at hus
    obtain ⟨pre, post, rfl, hrest, hd⟩ := ih hus
    obtain ⟨pre', post', rfl, hrest', hd'⟩ := ihs hrest.symm
    exact ⟨pre ++ pre', post', (List.append_assoc _ _ _).symm, hrest', .and hd hd'⟩
  | andNil => exact fun {us rest} hus ↦ ⟨[], us, rfl, hus.symm, .andNil⟩
  | andMore h hs ih ihs =>
    intro us rest hus
    rw [List.cons_append, List.append_assoc] at hus
    obtain ⟨t, us, rfl, ht, hus'⟩ := mended_eq_cons hus
    obtain rfl := eq_of_mended_eq ht fun text heq ↦ by cases heq
    obtain ⟨pre, post, rfl, hrest, hd⟩ := ih hus'.symm
    obtain ⟨pre', post', rfl, hrest', hd'⟩ := ihs hrest.symm
    exact ⟨.and :: (pre ++ pre'), post', by simp, hrest', .andMore hd hd'⟩
  | andBeside h hs ih ihs =>
    intro us rest hus
    rw [List.append_assoc] at hus
    obtain ⟨pre, post, rfl, hrest, hd⟩ := ih hus
    obtain ⟨pre', post', rfl, hrest', hd'⟩ := ihs hrest.symm
    exact ⟨pre ++ pre', post', (List.append_assoc _ _ _).symm, hrest', .andBeside hd hd'⟩
  | group h ih =>
    intro us rest hus
    rw [List.cons_append, List.append_assoc] at hus
    obtain ⟨t, us, rfl, ht, hus'⟩ := mended_eq_cons hus
    obtain rfl := eq_of_mended_eq ht fun text heq ↦ by cases heq
    obtain ⟨pre, post, rfl, hrest, hd⟩ := ih hus'.symm
    obtain ⟨t', post', rfl, ht', hrest'⟩ := mended_eq_cons hrest.symm
    obtain rfl := eq_of_mended_eq ht' fun text heq ↦ by cases heq
    exact ⟨.lparen :: (pre ++ [.rparen]), post', by simp, hrest', .group hd⟩
  | term h =>
    intro us rest hus
    obtain ⟨t, us, rfl, rfl, hus'⟩ := mended_eq_cons hus
    have hword := readsAsWord_of_mended h
    refine ⟨[t], us, rfl, by rw [← hword.after]; exact hus', ?_⟩
    rw [mended_text]
    exact .term hword
  | qualified h h' =>
    intro us rest hus
    obtain ⟨t, us, rfl, rfl, hus'⟩ := mended_eq_cons hus
    have hword := readsAsWord_of_mended h
    obtain ⟨t₁, us, rfl, ht₁, hus'⟩ := mended_eq_cons hus'.symm
    obtain rfl := eq_of_mended_eq ht₁ fun text heq ↦ by cases heq
    obtain ⟨t', us, rfl, rfl, hrest⟩ := mended_eq_cons hus'.symm
    have hplace : (Phrase.place (.atom _)).after t = .beside := hword.after
    rw [hplace] at h' hrest ⊢
    have hword' : ReadsAsWord .value t' := readsAsWord_of_mended h'
    refine ⟨[t, .colon, t'], us, rfl, by rw [← hword'.after]; exact hrest, ?_⟩
    rw [mended_text, mended_text]
    exact .qualified hword hword'

/-- The documented grammar leaves nothing to mend. -/
theorem Derives.mended_eq (h : Derives IsWord field ph ts qs) :
    ∀ post, mended ph.place (ts ++ post) = ts ++ mended .beside post := by
  induction h with
  | or h hs ih ihs | and h hs ih ihs | andBeside h hs ih ihs =>
    intro post
    rw [List.append_assoc, List.append_assoc, ← show _ = _ from ihs post]
    exact ih _
  | orNil | andNil => exact fun post ↦ rfl
  | orMore h hs ih ihs =>
    intro post
    rw [List.cons_append, List.append_assoc, List.cons_append, List.append_assoc,
      ← show _ = _ from ihs post]
    exact congrArg (Lexeme.or :: ·) (ih _)
  | andMore h hs ih ihs =>
    intro post
    rw [List.cons_append, List.append_assoc, List.cons_append, List.append_assoc,
      ← show _ = _ from ihs post]
    exact congrArg (Lexeme.and :: ·) (ih _)
  | group h ih =>
    intro post
    simp only [List.cons_append, List.append_assoc, List.nil_append]
    exact congrArg (Lexeme.lparen :: ·) (ih _)
  | @term p t h =>
    intro post
    show t.mended p :: mended (p.after t) post = _
    rw [h.mended_eq, h.readsAsWord.after]
    rfl
  | @qualified p t t' h h' =>
    intro post
    show t.mended p :: mended (p.after t) (.colon :: t' :: post) = _
    rw [h.mended_eq, h.readsAsWord.after]
    show t :: .colon :: t'.mended .value :: mended (Place.value.after t') post = _
    rw [h'.mended_eq, h'.readsAsWord.after]
    rfl

end Phrase

/-! ### What the parser accepts -/

/-- **The parser accepts the documented grammar**, once its inputs are mended, and blank inputs. -/
theorem parse_iff_isWord_mended {input field : Bytes} {q : QueryAst} :
    parse input field = .ok q ↔
      lexemes input = [] ∧ q = .matchAll ∨
        Derives IsWord field .or (mended .start (lexemes input)) [q] := by
  have hiff : Derives ReadsAsWord field .or (lexemes input) [q] ↔
      Derives IsWord field .or (mended .start (lexemes input)) [q] := by
    constructor
    · intro h
      obtain ⟨ts', hts', hd⟩ := h.isWord_mended []
      rw [List.append_nil] at hts'
      rw [show mended .start (lexemes input) = ts' ++ [] from hts', List.append_nil]
      exact hd
    · intro h
      obtain ⟨pre, post, hsplit, hrest, hd⟩ := h.of_mended (List.append_nil _).symm
      cases post with
      | nil =>
        rw [hsplit, List.append_nil]
        exact hd
      | cons t post => cases hrest
  rw [parse_iff_readsAsWord, hiff]

/-- The parser succeeds exactly on blank inputs and those that the documented grammar derives, if
and only if the input has nothing to mend, or is outside that grammar even when mended. -/
theorem parse_iff_documented_iff (input field : Bytes) :
    ((∃ q, parse input field = .ok q) ↔
        (∀ c ∈ input, isBlank c = true) ∨
          ∃ q, Derives IsWord field .or (lexemes input) [q]) ↔
      mended .start (lexemes input) = lexemes input ∨
        ¬∃ q, Derives IsWord field .or (mended .start (lexemes input)) [q] := by
  have hblank : (∀ c ∈ input, isBlank c = true) ↔ lexemes input = [] :=
    List.dropWhile_eq_nil_iff.symm.trans lexemes_eq_nil_iff.symm
  have hparse : (∃ q, parse input field = .ok q) ↔ (∀ c ∈ input, isBlank c = true) ∨
      ∃ q, Derives IsWord field .or (mended .start (lexemes input)) [q] := by
    simp only [parse_iff_isWord_mended, hblank, exists_or, exists_and_left, exists_eq, and_true]
  have hmended : ∀ q, Derives IsWord field .or (lexemes input) [q] →
      mended .start (lexemes input) = lexemes input := fun q h ↦ by
    have heq := h.mended_eq []
    rw [List.append_nil] at heq
    exact heq.trans (List.append_nil _)
  rw [hparse]
  constructor
  · intro hiff
    refine or_iff_not_imp_right.2 fun hd ↦ ?_
    rcases hiff.1 (.inr (not_not.1 hd)) with hall | ⟨q, h⟩
    · rw [hblank.1 hall]
      rfl
    · exact hmended q h
  · rintro (heq | hnot)
    · rw [heq]
    · refine or_congr_right ⟨fun h ↦ absurd h hnot, fun ⟨q, h⟩ ↦ absurd ⟨q, ?_⟩ hnot⟩
      rw [hmended q h]
      exact h

/-- The input `OR` is a term to the parser. -/
theorem not_parse_iff_documented :
    ¬∀ input field : Bytes, (∃ q, parse input field = .ok q) ↔
        (∀ c ∈ input, isBlank c = true) ∨
          ∃ q, Derives IsWord field .or (lexemes input) [q] := by
  intro hall
  have hlex : lexemes (str "OR") = [.or] := by decide
  have hword : ReadsAsWord .start .or := ⟨by decide, not_false⟩
  have hparse : parse (str "OR") (str "body") = .ok (.term (str "body") (str "OR")) :=
    parse_iff_readsAsWord.2 (.inr (hlex ▸ .or (.and (.term hword) .andNil) .orNil))
  rcases (hall (str "OR") (str "body")).1 ⟨_, hparse⟩ with hblank | ⟨q, h⟩
  · exact absurd (hblank 79 (by decide)) (by decide)
  · exact absurd (h.mended_eq []) (by decide)

end Spp.Query
