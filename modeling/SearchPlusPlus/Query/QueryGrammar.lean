import Mathlib.Data.List.DropRight
import SearchPlusPlus.Query.QueryParser

/-!
# The grammar of queries

The grammar that the query parser documents, over lexemes, as a relation between a sequence of
lexemes and the queries it stands for.

Which lexemes are words is a parameter of the grammar, and may depend on the place where a word
is expected. `IsWord` is the documented choice, with `AND` and `OR` reserved and quotes closed;
`ReadsAsWord` is what the parser takes for a word, and the parser accepts exactly the inputs that
the grammar derives with it (`parse_iff_readsAsWord`).

* Soundness goes by induction on the fuel: what a function consumed is a derivation.
* Completeness goes by induction on the derivation, with the fuel that its length asks for.
-/

namespace Spp.Query

/-! ### Lexemes -/

/-- A lexeme of a query. A quoted string is open when the input ends before its quote. -/
inductive Lexeme where
  | lparen
  | rparen
  | colon
  | ident (name : Bytes)
  | quoted (text : Bytes) (closed : Bool)
  | other (c : UInt8)
  deriving DecidableEq, Repr

/-- The keyword `AND`. -/
def Lexeme.and : Lexeme := .ident (str "AND")

/-- The keyword `OR`. -/
def Lexeme.or : Lexeme := .ident (str "OR")

/-- The text of a lexeme that can be a word. -/
def Lexeme.text : Lexeme → Bytes
  | .ident name => name
  | .quoted text _ => text
  | _ => []

/-- No quote is left open. -/
def Lexeme.Closed (t : Lexeme) : Prop := ∀ text, t ≠ .quoted text false

instance (t : Lexeme) : Decidable t.Closed :=
  match t with
  | .quoted _ false => .isFalse fun h ↦ h _ rfl
  | .quoted _ true => .isTrue fun _ h ↦ by cases h
  | .lparen | .rparen | .colon | .ident _ | .other _ => .isTrue fun _ h ↦ by cases h

/-- The lexeme that starts with a byte, and what follows it. An identifier is as long as it can
be. -/
def scan (c : UInt8) (s : Bytes) : Lexeme × Bytes :=
  if c = 40 then (.lparen, s)
  else if c = 41 then (.rparen, s)
  else if c = 58 then (.colon, s)
  else if c = 34 then
    (.quoted (s.takeWhile (· ≠ 34)) (34 ∈ s), (s.dropWhile (· ≠ 34)).drop 1)
  else if isIdentChar c then (.ident (c :: s.takeWhile isIdentChar), s.dropWhile isIdentChar)
  else (.other c, s)

/-- The lexemes of an input with at most `fuel` bytes. -/
def lexemesWithin : ℕ → Bytes → List Lexeme
  | 0, _ => []
  | fuel + 1, s =>
    match skipWs s with
    | [] => []
    | c :: rest => (scan c rest).1 :: lexemesWithin fuel (scan c rest).2

/-- The lexemes of an input. White space stands between them and is no part of any but a quoted
string. -/
def lexemes (s : Bytes) : List Lexeme := lexemesWithin s.length s

/-- A keyword is an identifier, and a quoted one is not a keyword. -/
example : lexemes (str "a OR(\"OR\"") =
    [.ident (str "a"), .or, .lparen, .quoted (str "OR") true] := by decide

theorem scan_suffix (c : UInt8) (s : Bytes) : (scan c s).2 <:+ s := by
  unfold scan
  split_ifs
  · exact List.suffix_refl s
  · exact List.suffix_refl s
  · exact List.suffix_refl s
  · exact (List.drop_suffix _ _).trans (List.dropWhile_suffix _)
  · exact List.dropWhile_suffix _
  · exact List.suffix_refl s

theorem length_scan_le (c : UInt8) (s : Bytes) : (scan c s).2.length ≤ s.length :=
  (scan_suffix c s).length_le

theorem length_skipWs_le (s : Bytes) : (skipWs s).length ≤ s.length :=
  (List.dropWhile_sublist _).length_le

@[simp] theorem skipWs_skipWs (s : Bytes) : skipWs (skipWs s) = skipWs s :=
  List.dropWhile_idempotent _ s

/-- More fuel than the input has bytes changes nothing. -/
theorem lexemesWithin_eq {fuel : ℕ} : ∀ {fuel' : ℕ} {s : Bytes}, s.length ≤ fuel →
    s.length ≤ fuel' → lexemesWithin fuel s = lexemesWithin fuel' s := by
  induction fuel with
  | zero =>
    intro fuel' s h _
    obtain rfl := List.length_eq_zero_iff.1 (Nat.le_zero.1 h)
    cases fuel' <;> rfl
  | succ fuel ih =>
    intro fuel' s h h'
    have hskip := length_skipWs_le s
    cases fuel' with
    | zero =>
      obtain rfl := List.length_eq_zero_iff.1 (Nat.le_zero.1 h')
      rfl
    | succ fuel' =>
      unfold lexemesWithin
      cases hs : skipWs s with
      | nil => rfl
      | cons c rest =>
        rw [hs, List.length_cons] at hskip
        have hscan := length_scan_le c rest
        exact congrArg (_ :: ·) (ih (by omega) (by omega))

theorem lexemes_of_skipWs_nil {s : Bytes} (h : skipWs s = []) : lexemes s = [] := by
  rw [lexemes]
  cases s.length with
  | zero => rfl
  | succ fuel => rw [lexemesWithin, h]

/-- The lexemes of an input, one at a time. -/
theorem lexemes_of_skipWs_cons {s rest : Bytes} {c : UInt8} (h : skipWs s = c :: rest) :
    lexemes s = (scan c rest).1 :: lexemes (scan c rest).2 := by
  have hskip := length_skipWs_le s
  rw [h, List.length_cons] at hskip
  have hscan := length_scan_le c rest
  obtain ⟨fuel, hfuel⟩ := Nat.exists_eq_add_of_le' (Nat.le_of_add_left_le hskip)
  rw [lexemes, hfuel, lexemesWithin, h]
  exact congrArg (_ :: ·) (lexemesWithin_eq (by omega) le_rfl)

@[simp] theorem lexemes_skipWs (s : Bytes) : lexemes (skipWs s) = lexemes s := by
  cases hs : skipWs s with
  | nil => rw [lexemes_of_skipWs_nil hs, lexemes_of_skipWs_nil rfl]
  | cons c rest =>
    rw [lexemes_of_skipWs_cons hs, ← hs, lexemes_of_skipWs_cons (by rw [skipWs_skipWs, hs])]

theorem lexemes_eq_nil_iff {s : Bytes} : lexemes s = [] ↔ skipWs s = [] := by
  refine ⟨fun h ↦ ?_, lexemes_of_skipWs_nil⟩
  cases hs : skipWs s with
  | nil => rfl
  | cons c rest => exact absurd ((lexemes_of_skipWs_cons hs).symm.trans h) (List.cons_ne_nil _ _)

theorem length_lexemes_le (s : Bytes) : (lexemes s).length ≤ s.length := by
  have hwithin : ∀ fuel s, (lexemesWithin fuel s).length ≤ fuel := fun fuel ↦ by
    induction fuel with
    | zero => exact fun _ ↦ le_rfl
    | succ fuel ih =>
      intro s
      unfold lexemesWithin
      cases skipWs s with
      | nil => exact Nat.zero_le _
      | cons c rest => exact Nat.succ_le_succ (ih _)
  exact hwithin _ s

/-- What holds of every lexeme that can be scanned in an input holds of its lexemes. -/
theorem forall_mem_lexemes {P : Lexeme → Prop} {s : Bytes}
    (h : ∀ c rest, c :: rest <:+ s → P (scan c rest).1) : ∀ t ∈ lexemes s, P t := by
  induction hn : s.length using Nat.strong_induction_on generalizing s with
  | _ n ih =>
    cases hskip : skipWs s with
    | nil =>
      rw [lexemes_of_skipWs_nil hskip]
      exact fun t ht ↦ absurd ht List.not_mem_nil
    | cons c rest =>
      have hsuffix : c :: rest <:+ s := hskip ▸ List.dropWhile_suffix _
      have hrest : (scan c rest).2 <:+ s :=
        (scan_suffix c rest).trans ((List.suffix_cons c rest).trans hsuffix)
      have hlt : (scan c rest).2.length < n := by
        have := length_scan_le c rest
        have := hsuffix.length_le
        rw [List.length_cons] at this
        omega
      rw [lexemes_of_skipWs_cons hskip]
      exact List.forall_mem_cons.2 ⟨h c rest hsuffix,
        ih _ hlt (fun c' rest' h' ↦ h c' rest' (h'.trans hrest)) rfl⟩

/-! ### The parser's reading of lexemes -/

/-- The lexemes of one byte. -/
def punctuation : List (UInt8 × Lexeme) := [(40, .lparen), (41, .rparen), (58, .colon)]

theorem scan_punctuation {c : UInt8} {t : Lexeme} (h : (c, t) ∈ punctuation) (s : Bytes) :
    scan c s = (t, s) := by
  simp only [punctuation, List.mem_cons, Prod.mk.injEq, List.not_mem_nil, or_false] at h
  obtain ⟨rfl, rfl⟩ | ⟨rfl, rfl⟩ | ⟨rfl, rfl⟩ := h <;> rfl

theorem scan_fst_eq_punctuation {c c' : UInt8} {t : Lexeme} (h : (c, t) ∈ punctuation) {s : Bytes}
    (hscan : (scan c' s).1 = t) : c' = c := by
  unfold scan at hscan
  simp only [punctuation, List.mem_cons, Prod.mk.injEq, List.not_mem_nil, or_false] at h
  obtain ⟨rfl, rfl⟩ | ⟨rfl, rfl⟩ | ⟨rfl, rfl⟩ := h <;> split_ifs at hscan <;> assumption

/-- Looking at the next byte tells a lexeme of one byte. -/
theorem lexemes_punctuation_iff {c : UInt8} {t : Lexeme} (h : (c, t) ∈ punctuation) {s : Bytes}
    {ts : List Lexeme} :
    lexemes s = t :: ts ↔ ∃ rest, skipWs s = c :: rest ∧ lexemes rest = ts := by
  constructor
  · intro hs
    cases hskip : skipWs s with
    | nil => exact absurd (hs.symm.trans (lexemes_of_skipWs_nil hskip)) (List.cons_ne_nil _ _)
    | cons c' rest =>
      rw [lexemes_of_skipWs_cons hskip] at hs
      obtain ⟨hhead, htail⟩ := List.cons.inj hs
      obtain rfl := scan_fst_eq_punctuation h hhead
      rw [scan_punctuation h] at htail
      exact ⟨rest, rfl, htail⟩
  · rintro ⟨rest, hskip, rfl⟩
    rw [lexemes_of_skipWs_cons hskip, scan_punctuation h]

theorem readIdentOrQuoted_of_nil {s : Bytes} (h : lexemes s = []) :
    (readIdentOrQuoted s).1 = [] := by
  rw [readIdentOrQuoted, lexemes_eq_nil_iff.1 h]
  rfl

/-- `ReadIdentOrQuoted` reads a lexeme with a text, and nothing off any other. -/
theorem readIdentOrQuoted_of_cons {s : Bytes} {t : Lexeme} {ts : List Lexeme}
    (h : lexemes s = t :: ts) :
    (readIdentOrQuoted s).1 = t.text ∧ (t.text ≠ [] → lexemes (readIdentOrQuoted s).2 = ts) := by
  cases hskip : skipWs s with
  | nil => exact absurd (h.symm.trans (lexemes_of_skipWs_nil hskip)) (List.cons_ne_nil _ _)
  | cons c rest =>
    rw [lexemes_of_skipWs_cons hskip] at h
    obtain ⟨rfl, rfl⟩ := List.cons.inj h
    rw [readIdentOrQuoted, hskip]
    by_cases hquote : c = 34
    · subst hquote
      exact ⟨rfl, fun _ ↦ rfl⟩
    have hread : (c :: rest).takeWhile isIdentChar = (scan c rest).1.text ∧
        ((scan c rest).1.text ≠ [] → (c :: rest).dropWhile isIdentChar = (scan c rest).2) := by
      unfold scan
      split_ifs with h40 h41 h58 hident
      · subst h40
        exact ⟨rfl, fun hne ↦ absurd rfl hne⟩
      · subst h41
        exact ⟨rfl, fun hne ↦ absurd rfl hne⟩
      · subst h58
        exact ⟨rfl, fun hne ↦ absurd rfl hne⟩
      · exact ⟨List.takeWhile_cons_of_pos hident, fun _ ↦ List.dropWhile_cons_of_pos hident⟩
      · exact ⟨List.takeWhile_cons_of_neg hident, fun hne ↦ absurd rfl hne⟩
    split
    · exact absurd (List.cons.inj ‹_›).1 hquote
    · exact ⟨hread.1, fun hne ↦ congrArg lexemes (hread.2 hne)⟩

/-- A text that `ConsumeKeyword` can be asked for. -/
def IsKeyword (kw : Bytes) : Prop := kw ≠ [] ∧ ∀ c ∈ kw, isIdentChar c = true

theorem isKeyword_and : IsKeyword (str "AND") :=
  ⟨by decide, List.all_eq_true.1 (by decide)⟩

theorem isKeyword_or : IsKeyword (str "OR") :=
  ⟨by decide, List.all_eq_true.1 (by decide)⟩

theorem startsIdent_dropWhile (s : Bytes) : startsIdent (s.dropWhile isIdentChar) = false := by
  cases hs : s.dropWhile isIdentChar with
  | nil => rfl
  | cons c rest =>
    have hhead := List.head_dropWhile_not isIdentChar (l := s) (by rw [hs]; simp)
    rw [startsIdent]
    simpa only [hs, List.head_cons] using hhead

/-- An identifier, by its first character. -/
theorem scan_of_isIdentChar {c : UInt8} (h : isIdentChar c = true) (s : Bytes) :
    scan c s = (.ident (c :: s.takeWhile isIdentChar), s.dropWhile isIdentChar) := by
  have hne : ∀ c', isIdentChar c' = false → c ≠ c' := fun c' h' heq ↦ by
    rw [heq, h'] at h
    exact Bool.false_ne_true h
  rw [scan, if_neg (hne 40 (by decide)), if_neg (hne 41 (by decide)), if_neg (hne 58 (by decide)),
    if_neg (hne 34 (by decide)), if_pos h]

/-- A word, and what stands behind it. -/
theorem lexemes_word_append {word rest : Bytes} (hne : word ≠ [])
    (hword : ∀ c ∈ word, isIdentChar c = true) (hrest : startsIdent rest = false) :
    lexemes (word ++ rest) = .ident word :: lexemes rest := by
  obtain ⟨c, word, rfl⟩ := List.exists_cons_of_ne_nil hne
  obtain ⟨hc, hword⟩ := List.forall_mem_cons.1 hword
  have hskip : skipWs (c :: word ++ rest) = c :: (word ++ rest) := by
    refine List.dropWhile_cons_of_neg fun hblank ↦ ?_
    simp only [isBlank, Bool.or_eq_true, decide_eq_true_eq] at hblank
    rcases hblank with ((rfl | rfl) | rfl) | rfl <;> exact absurd hc (by decide)
  have htake : rest.takeWhile isIdentChar = [] ∧ rest.dropWhile isIdentChar = rest := by
    cases rest with
    | nil => exact ⟨rfl, rfl⟩
    | cons c' rest =>
      have hc' : ¬isIdentChar c' = true := by simpa [startsIdent] using hrest
      exact ⟨List.takeWhile_cons_of_neg hc', List.dropWhile_cons_of_neg hc'⟩
  rw [lexemes_of_skipWs_cons hskip, scan_of_isIdentChar hc, List.takeWhile_append_of_pos hword,
    List.dropWhile_append_of_pos hword, htake.1, htake.2, List.append_nil]

theorem scan_fst_eq_ident {c : UInt8} {s name : Bytes} (h : (scan c s).1 = .ident name) :
    isIdentChar c = true := by
  unfold scan at h
  split_ifs at h
  assumption

/-- What `ConsumeKeyword` consumes is the keyword as a lexeme. -/
theorem lexemes_of_consumeKeyword {kw s s' : Bytes} (hkw : IsKeyword kw)
    (h : consumeKeyword kw s = some s') : lexemes s = .ident kw :: lexemes s' := by
  rw [consumeKeyword] at h
  dsimp only at h
  split_ifs at h with hstarts hident
  obtain rfl := Option.some.inj h
  obtain ⟨after, hafter⟩ := List.isPrefixOf_iff_prefix.1 hstarts
  rw [← hafter, List.drop_left] at hident ⊢
  obtain ⟨c, kw, rfl⟩ := List.exists_cons_of_ne_nil hkw.1
  have hstop : after.takeWhile isIdentChar = [] ∧ after.dropWhile isIdentChar = after := by
    cases after with
    | nil => exact ⟨rfl, rfl⟩
    | cons c' rest => exact ⟨List.takeWhile_cons_of_neg hident, List.dropWhile_cons_of_neg hident⟩
  have hall : ∀ c' ∈ kw, isIdentChar c' = true := fun c' hc' ↦
    hkw.2 c' (List.mem_cons_of_mem c hc')
  rw [List.cons_append] at hafter
  rw [lexemes_of_skipWs_cons hafter.symm, scan_of_isIdentChar (hkw.2 c List.mem_cons_self),
    List.takeWhile_append_of_pos hall, List.dropWhile_append_of_pos hall, hstop.1, hstop.2,
    List.append_nil]

/-- `ConsumeKeyword` consumes the keyword where it is the next lexeme. -/
theorem consumeKeyword_of_lexemes {kw s : Bytes} {ts : List Lexeme}
    (h : lexemes s = .ident kw :: ts) :
    ∃ s', consumeKeyword kw s = some s' ∧ lexemes s' = ts := by
  cases hskip : skipWs s with
  | nil => exact absurd (h.symm.trans (lexemes_of_skipWs_nil hskip)) (List.cons_ne_nil _ _)
  | cons c rest =>
    rw [lexemes_of_skipWs_cons hskip] at h
    obtain ⟨hhead, rfl⟩ := List.cons.inj h
    have hident := scan_fst_eq_ident hhead
    rw [scan_of_isIdentChar hident] at hhead ⊢
    obtain rfl := Lexeme.ident.inj hhead
    have hsplit : c :: rest = c :: rest.takeWhile isIdentChar ++ rest.dropWhile isIdentChar := by
      rw [List.cons_append, List.takeWhile_append_dropWhile]
    have hstarts : (c :: rest.takeWhile isIdentChar).isPrefixOf (c :: rest) = true :=
      List.isPrefixOf_iff_prefix.2 ⟨_, hsplit.symm⟩
    have hdrop : (c :: rest).drop (c :: rest.takeWhile isIdentChar).length =
        rest.dropWhile isIdentChar := by
      nth_rewrite 1 [hsplit]
      exact List.drop_left
    refine ⟨rest.dropWhile isIdentChar, ?_, rfl⟩
    rw [consumeKeyword, hskip, if_pos hstarts, hdrop]
    exact if_neg (by rw [startsIdent_dropWhile]; exact Bool.false_ne_true)

theorem consumeKeyword_eq_none {kw s : Bytes} (hkw : IsKeyword kw)
    (h : (lexemes s).head? ≠ some (.ident kw)) : consumeKeyword kw s = none := by
  cases hs : consumeKeyword kw s with
  | none => rfl
  | some s' => exact absurd (by rw [lexemes_of_consumeKeyword hkw hs]; rfl) h

/-- The lexemes at which the loop of `ParseAnd` ends. -/
def Ends (ts : List Lexeme) : Prop := ∀ t ∈ ts.head?, t = .rparen ∨ t = .or

theorem endsAnd_iff (s : Bytes) : endsAnd (skipWs s) = true ↔ Ends (lexemes s) := by
  have hlook : lookingAt (str "OR") (skipWs s) = true ↔ ∃ ts, lexemes s = .or :: ts := by
    rw [lookingAt, skipWs_skipWs, Option.isSome_iff_exists]
    refine ⟨fun ⟨s', h⟩ ↦ ⟨lexemes s', ?_⟩, fun ⟨ts, h⟩ ↦ ?_⟩
    · rw [← lexemes_skipWs]
      exact lexemes_of_consumeKeyword isKeyword_or h
    · rw [← lexemes_skipWs] at h
      obtain ⟨s', hs', -⟩ := consumeKeyword_of_lexemes h
      exact ⟨s', hs'⟩
  have hparen : (skipWs s).head? = some 41 ↔ ∃ ts, lexemes s = .rparen :: ts := by
    have hiff (ts : List Lexeme) :
        lexemes s = .rparen :: ts ↔ ∃ rest, skipWs s = 41 :: rest ∧ lexemes rest = ts :=
      lexemes_punctuation_iff (by decide)
    simp only [hiff]
    cases skipWs s with
    | nil => simp
    | cons c rest => simp
  rw [endsAnd, Bool.or_eq_true, Bool.or_eq_true, hlook, decide_eq_true_iff, decide_eq_true_iff,
    hparen, ← lexemes_eq_nil_iff, Ends]
  cases lexemes s with
  | nil => simp
  | cons t ts => simp

/-! ### The grammar -/

/-- Where a word may be expected: where a query or a part of one starts, after `AND`, right
after another operand, and after a colon. -/
inductive Place where
  | start
  | afterAnd
  | beside
  | value
  deriving DecidableEq, Repr

/-- The phrases of the grammar; `orRest` and `andRest` are what may follow the first part. -/
inductive Phrase where
  | or
  | orRest
  | and
  | andRest
  | atom (p : Place)

/-- **The grammar**, with the queries that the parts of a phrase stand for. `word` says which
lexemes are words at a place. -/
inductive Derives (word : Place → Lexeme → Prop) (field : Bytes) :
    Phrase → List Lexeme → List QueryAst → Prop
  | or {ts ts' : List Lexeme} {q : QueryAst} {qs : List QueryAst}
      (h : Derives word field .and ts [q]) (hs : Derives word field .orRest ts' qs) :
      Derives word field .or (ts ++ ts') [unlessOne .disjunction (q :: qs)]
  | orNil : Derives word field .orRest [] []
  | orMore {ts ts' : List Lexeme} {q : QueryAst} {qs : List QueryAst}
      (h : Derives word field .and ts [q]) (hs : Derives word field .orRest ts' qs) :
      Derives word field .orRest (.or :: (ts ++ ts')) (q :: qs)
  | and {ts ts' : List Lexeme} {q : QueryAst} {qs : List QueryAst}
      (h : Derives word field (.atom .start) ts [q]) (hs : Derives word field .andRest ts' qs) :
      Derives word field .and (ts ++ ts') [unlessOne .conjunction (q :: qs)]
  | andNil : Derives word field .andRest [] []
  | andMore {ts ts' : List Lexeme} {q : QueryAst} {qs : List QueryAst}
      (h : Derives word field (.atom .afterAnd) ts [q])
      (hs : Derives word field .andRest ts' qs) :
      Derives word field .andRest (.and :: (ts ++ ts')) (q :: qs)
  | andBeside {ts ts' : List Lexeme} {q : QueryAst} {qs : List QueryAst}
      (h : Derives word field (.atom .beside) ts [q])
      (hs : Derives word field .andRest ts' qs) :
      Derives word field .andRest (ts ++ ts') (q :: qs)
  | group {p : Place} {ts : List Lexeme} {q : QueryAst} (h : Derives word field .or ts [q]) :
      Derives word field (.atom p) (.lparen :: (ts ++ [.rparen])) [q]
  | term {p : Place} {t : Lexeme} (h : word p t) :
      Derives word field (.atom p) [t] [.term field t.text]
  | qualified {p : Place} {t t' : Lexeme} (h : word p t) (h' : word .value t') :
      Derives word field (.atom p) [t, .colon, t'] [.term t.text t'.text]

/-- The documented words: identifiers but for `AND` and `OR`, and closed quoted strings that are
not empty. -/
def IsWord (_ : Place) (t : Lexeme) : Prop :=
  t.text ≠ [] ∧ t.Closed ∧ t ≠ .and ∧ t ≠ .or

/-- The keywords that `ParseAtom` is never entered with at a place, since the loops of `ParseAnd`
and `ParseOr` have looked for them there. -/
def LookedFor : Place → Lexeme → Prop
  | .start, _ | .value, _ => False
  | .afterAnd, t => t = .or
  | .beside, t => t = .and ∨ t = .or

/-- What the parser takes for a word. -/
def ReadsAsWord (p : Place) (t : Lexeme) : Prop := t.text ≠ [] ∧ ¬LookedFor p t

theorem IsWord.readsAsWord {p : Place} {t : Lexeme} (h : IsWord p t) : ReadsAsWord p t := by
  obtain ⟨htext, -, hand, hor⟩ := h
  refine ⟨htext, fun hlooked ↦ ?_⟩
  cases p with
  | start | value => exact hlooked
  | afterAnd => exact hor hlooked
  | beside => exact hlooked.elim hand hor

section Derives

variable {word word' : Place → Lexeme → Prop} {field : Bytes} {ph : Phrase} {ts : List Lexeme}
  {qs : List QueryAst}

/-- More words derive more. -/
theorem Derives.mono (hword : ∀ p t, word p t → word' p t) (h : Derives word field ph ts qs) :
    Derives word' field ph ts qs := by
  induction h with
  | or _ _ ih ihs => exact .or ih ihs
  | orNil => exact .orNil
  | orMore _ _ ih ihs => exact .orMore ih ihs
  | and _ _ ih ihs => exact .and ih ihs
  | andNil => exact .andNil
  | andMore _ _ ih ihs => exact .andMore ih ihs
  | andBeside _ _ ih ihs => exact .andBeside ih ihs
  | group _ ih => exact .group ih
  | term h => exact .term (hword _ _ h)
  | qualified h h' => exact .qualified (hword _ _ h) (hword _ _ h')

/-- An operand starts with a parenthesis or a word. -/
theorem Derives.atom_eq_cons {p : Place} (h : Derives word field (.atom p) ts qs) :
    ∃ t ts', ts = t :: ts' ∧ (t = .lparen ∨ word p t) := by
  cases h with
  | group h => exact ⟨_, _, rfl, .inl rfl⟩
  | term h => exact ⟨_, _, rfl, .inr h⟩
  | qualified h h' => exact ⟨_, _, rfl, .inr h⟩

/-- A query has a lexeme. -/
theorem Derives.or_ne_nil (h : Derives word field .or ts qs) : ts ≠ [] := by
  cases h with
  | or h hs =>
    cases h with
    | and h hs' =>
      obtain ⟨t, ts', rfl, -⟩ := h.atom_eq_cons
      exact List.cons_ne_nil _ _

end Derives

/-! ### Soundness -/

section Sound

variable (n : ℕ) (field : Bytes)

theorem lexemes_of_match {c : UInt8} {t : Lexeme} (h : (c, t) ∈ punctuation) {s rest : Bytes}
    (hskip : skipWs s = c :: rest) : lexemes s = t :: lexemes rest :=
  (lexemes_punctuation_iff h).2 ⟨rest, hskip, rfl⟩

/-- A text that was read is that of the first lexeme. -/
theorem lexemes_of_readIdentOrQuoted {s : Bytes} (h : (readIdentOrQuoted s).1 ≠ []) :
    ∃ t, lexemes s = t :: lexemes (readIdentOrQuoted s).2 ∧ t.text = (readIdentOrQuoted s).1 := by
  cases hs : lexemes s with
  | nil => exact absurd (readIdentOrQuoted_of_nil hs) h
  | cons t ts =>
    obtain ⟨htext, hrest⟩ := readIdentOrQuoted_of_cons hs
    rw [htext] at h
    exact ⟨t, by rw [hrest h], htext.symm⟩

/-- With this much fuel, what a function of the parser consumes is a derivation. -/
structure SoundAt (fuel : ℕ) : Prop where
  or : ∀ {s r : Bytes} {q : QueryAst}, parseOr n field fuel s = .ok (q, r) →
    ∃ ts, lexemes s = ts ++ lexemes r ∧ Derives ReadsAsWord field .or ts [q]
  orRest : ∀ {s r : Bytes} {qs : List QueryAst}, parseOrRest n field fuel s = .ok (qs, r) →
    ∃ ts, lexemes s = ts ++ lexemes r ∧ Derives ReadsAsWord field .orRest ts qs
  and : ∀ {s r : Bytes} {q : QueryAst}, parseAnd n field fuel s = .ok (q, r) →
    ∃ ts, lexemes s = ts ++ lexemes r ∧ Derives ReadsAsWord field .and ts [q]
  andRest : ∀ {s r : Bytes} {qs : List QueryAst}, parseAndRest n field fuel s = .ok (qs, r) →
    ∃ ts, lexemes s = ts ++ lexemes r ∧ Derives ReadsAsWord field .andRest ts qs
  atom : ∀ {s r : Bytes} {q : QueryAst} (p : Place), parseAtom n field fuel s = .ok (q, r) →
    (∀ t ∈ (lexemes s).head?, ¬LookedFor p t) →
    ∃ ts, lexemes s = ts ++ lexemes r ∧ Derives ReadsAsWord field (.atom p) ts [q]

variable {n field} {fuel : ℕ} {s r : Bytes} {q : QueryAst} {qs : List QueryAst}

theorem SoundAt.parseOr_succ (hf : SoundAt n field fuel)
    (h : parseOr n field (fuel + 1) s = .ok (q, r)) :
    ∃ ts, lexemes s = ts ++ lexemes r ∧ Derives ReadsAsWord field .or ts [q] := by
  rw [parseOr] at h
  obtain ⟨⟨left, s₁⟩, hleft, h⟩ := bind_eq_ok.1 h
  obtain ⟨⟨children, s₂⟩, hchildren, h⟩ := bind_eq_ok.1 h
  obtain ⟨rfl, rfl⟩ := Prod.mk.inj (Except.ok.inj h)
  obtain ⟨ts, hts, hd⟩ := hf.and hleft
  obtain ⟨ts', hts', hd'⟩ := hf.orRest hchildren
  exact ⟨ts ++ ts', by rw [hts, hts', List.append_assoc], .or hd hd'⟩

theorem SoundAt.parseOrRest_succ (hf : SoundAt n field fuel)
    (h : parseOrRest n field (fuel + 1) s = .ok (qs, r)) :
    ∃ ts, lexemes s = ts ++ lexemes r ∧ Derives ReadsAsWord field .orRest ts qs := by
  rw [parseOrRest] at h
  cases hkw : consumeKeyword (str "OR") s with
  | none =>
    rw [hkw] at h
    obtain ⟨rfl, rfl⟩ := Prod.mk.inj (Except.ok.inj h)
    exact ⟨[], rfl, .orNil⟩
  | some s₁ =>
    rw [hkw] at h
    obtain ⟨⟨right, s₂⟩, hright, h⟩ := bind_eq_ok.1 h
    obtain ⟨⟨children, s₃⟩, hchildren, h⟩ := bind_eq_ok.1 h
    obtain ⟨rfl, rfl⟩ := Prod.mk.inj (Except.ok.inj h)
    obtain ⟨ts, hts, hd⟩ := hf.and hright
    obtain ⟨ts', hts', hd'⟩ := hf.orRest hchildren
    refine ⟨.or :: (ts ++ ts'), ?_, .orMore hd hd'⟩
    rw [lexemes_of_consumeKeyword isKeyword_or hkw, hts, hts', List.cons_append,
      List.append_assoc]
    rfl

theorem SoundAt.parseAnd_succ (hf : SoundAt n field fuel)
    (h : parseAnd n field (fuel + 1) s = .ok (q, r)) :
    ∃ ts, lexemes s = ts ++ lexemes r ∧ Derives ReadsAsWord field .and ts [q] := by
  rw [parseAnd] at h
  obtain ⟨⟨first, s₁⟩, hfirst, h⟩ := bind_eq_ok.1 h
  obtain ⟨⟨children, s₂⟩, hchildren, h⟩ := bind_eq_ok.1 h
  obtain ⟨rfl, rfl⟩ := Prod.mk.inj (Except.ok.inj h)
  obtain ⟨ts, hts, hd⟩ := hf.atom .start hfirst fun _ _ ↦ not_false
  obtain ⟨ts', hts', hd'⟩ := hf.andRest hchildren
  exact ⟨ts ++ ts', by rw [hts, hts', List.append_assoc], .and hd hd'⟩

theorem SoundAt.parseAndRest_succ (hf : SoundAt n field fuel)
    (h : parseAndRest n field (fuel + 1) s = .ok (qs, r)) :
    ∃ ts, lexemes s = ts ++ lexemes r ∧ Derives ReadsAsWord field .andRest ts qs := by
  rw [parseAndRest] at h
  dsimp only at h
  split_ifs at h with hends
  · obtain ⟨rfl, rfl⟩ := Prod.mk.inj (Except.ok.inj h)
    exact ⟨[], rfl, .andNil⟩
  obtain ⟨⟨next, s₁⟩, hnext, h⟩ := bind_eq_ok.1 h
  obtain ⟨⟨children, s₂⟩, hchildren, h⟩ := bind_eq_ok.1 h
  obtain ⟨rfl, rfl⟩ := Prod.mk.inj (Except.ok.inj h)
  obtain ⟨ts', hts', hd'⟩ := hf.andRest hchildren
  rw [endsAnd_iff] at hends
  have hor : ∀ t ∈ (lexemes ((consumeKeyword (str "AND") s).getD s)).head?, t ≠ .or :=
    fun t ht heq ↦ hends fun t' ht' ↦ .inr (by rw [Option.mem_unique ht' ht, heq])
  cases hkw : consumeKeyword (str "AND") s with
  | none =>
    rw [hkw, Option.getD_none] at hnext hor
    have hand : ∀ t ∈ (lexemes s).head?, t ≠ .and := fun t ht heq ↦ by
      obtain ⟨ts, hs⟩ : ∃ ts, lexemes s = .and :: ts := by
        rw [← heq]
        exact List.head?_eq_some_iff.1 ht
      obtain ⟨s', hs', -⟩ := consumeKeyword_of_lexemes hs
      exact Option.some_ne_none s' (hs'.symm.trans hkw)
    rw [← lexemes_skipWs] at hor hand
    obtain ⟨ts, hts, hd⟩ := hf.atom .beside hnext fun t ht ↦ not_or.2 ⟨hand t ht, hor t ht⟩
    exact ⟨ts ++ ts', by rw [← lexemes_skipWs, hts, hts', List.append_assoc], .andBeside hd hd'⟩
  | some s' =>
    rw [hkw, Option.getD_some] at hnext hor
    rw [← lexemes_skipWs] at hor
    obtain ⟨ts, hts, hd⟩ := hf.atom .afterAnd hnext hor
    refine ⟨.and :: (ts ++ ts'), ?_, .andMore hd hd'⟩
    rw [lexemes_of_consumeKeyword isKeyword_and hkw, ← lexemes_skipWs s', hts, hts',
      List.cons_append, List.append_assoc]
    rfl

theorem SoundAt.parseAtom_succ (hf : SoundAt n field fuel) (p : Place)
    (h : parseAtom n field (fuel + 1) s = .ok (q, r))
    (hp : ∀ t ∈ (lexemes s).head?, ¬LookedFor p t) :
    ∃ ts, lexemes s = ts ++ lexemes r ∧ Derives ReadsAsWord field (.atom p) ts [q] := by
  rw [parseAtom] at h
  split at h
  · cases h
  · -- A group: the query inside runs to a closing parenthesis.
    rename_i rest hskip
    obtain ⟨⟨inner, s₁⟩, hinner, h⟩ := bind_eq_ok.1 h
    obtain ⟨ts, hts, hd⟩ := hf.or hinner
    dsimp only at h
    split at h
    · rename_i rest' hskip'
      obtain ⟨rfl, rfl⟩ := Prod.mk.inj (Except.ok.inj h)
      refine ⟨.lparen :: (ts ++ [.rparen]), ?_, .group hd⟩
      rw [lexemes_of_match (t := .lparen) (by decide) hskip, hts,
        lexemes_of_match (t := .rparen) (by decide) hskip']
      simp
    · cases h
  · dsimp only at h
    rw [← lexemes_skipWs] at hp ⊢
    generalize skipWs s = s at h hp ⊢
    split_ifs at h with hempty
    obtain ⟨t, hts, htext⟩ := lexemes_of_readIdentOrQuoted hempty
    have hword : ReadsAsWord p t :=
      ⟨by rw [htext]; exact hempty, hp t (by rw [hts]; rfl)⟩
    split at h
    · -- A field, a colon and a term.
      rename_i rest hskip
      split_ifs at h with hempty'
      obtain ⟨rfl, rfl⟩ := Prod.mk.inj (Except.ok.inj h)
      obtain ⟨t', hts', htext'⟩ := lexemes_of_readIdentOrQuoted hempty'
      have hword' : ReadsAsWord .value t' := ⟨by rw [htext']; exact hempty', not_false⟩
      refine ⟨[t, .colon, t'], ?_, ?_⟩
      · rw [hts, lexemes_of_match (t := .colon) (by decide) hskip, hts']
        rfl
      · rw [← htext, ← htext']
        exact .qualified hword hword'
    · obtain ⟨rfl, rfl⟩ := Prod.mk.inj (Except.ok.inj h)
      refine ⟨[t], ?_, ?_⟩
      · rw [hts, lexemes_skipWs]
        rfl
      · rw [← htext]
        exact .term hword

variable (n field) in
theorem soundAt (fuel : ℕ) : SoundAt n field fuel := by
  induction fuel with
  | zero =>
    exact ⟨fun h ↦ (by cases h), fun h ↦ (by cases h), fun h ↦ (by cases h),
      fun h ↦ (by cases h), fun _ h ↦ (by cases h)⟩
  | succ fuel ih =>
    exact ⟨ih.parseOr_succ, ih.parseOrRest_succ, ih.parseAnd_succ, ih.parseAndRest_succ,
      ih.parseAtom_succ⟩

end Sound

/-! ### Completeness -/

section Complete

/-- The fuel that a phrase asks for. -/
def Phrase.fuel : Phrase → List Lexeme → ℕ
  | .or, ts => 3 * ts.length + 3
  | .orRest, ts => 3 * ts.length + 1
  | .and, ts => 3 * ts.length + 2
  | .andRest, ts => 3 * ts.length + 1
  | .atom _, ts => 3 * ts.length

/-- What may come after a phrase, so that the function of the phrase stops there. -/
def Phrase.Follows : Phrase → List Lexeme → Prop
  | .or, post | .orRest, post => ∀ t ∈ post.head?, t = .rparen
  | .and, post | .andRest, post => Ends post
  | .atom _, post => ∀ t ∈ post.head?, t ≠ .colon

/-- The function of a phrase, when it succeeds. -/
def Phrase.Parses (n : ℕ) (field : Bytes) (fuel : ℕ) (s r : Bytes) (qs : List QueryAst) :
    Phrase → Prop
  | .or => ∃ q, qs = [q] ∧ parseOr n field fuel s = .ok (q, r)
  | .orRest => parseOrRest n field fuel s = .ok (qs, r)
  | .and => ∃ q, qs = [q] ∧ parseAnd n field fuel s = .ok (q, r)
  | .andRest => parseAndRest n field fuel s = .ok (qs, r)
  | .atom _ => ∃ q, qs = [q] ∧ parseAtom n field fuel s = .ok (q, r)

variable {n : ℕ} {field : Bytes} {fuel : ℕ} {s : Bytes}

/-- What may follow an operand, inside what follows the operands. -/
theorem follows_atom_of_andRest {p : Place} {ts post : List Lexeme} {qs : List QueryAst}
    (h : Derives ReadsAsWord field .andRest ts qs) (hpost : Ends post) :
    (Phrase.atom p).Follows (ts ++ post) := by
  cases h with
  | andNil =>
    intro t ht
    rcases hpost t ht with rfl | rfl <;> decide
  | andMore h hs =>
    intro t ht
    obtain rfl := Option.some.inj ht
    decide
  | andBeside h hs =>
    obtain ⟨t', ts', rfl, hstart⟩ := h.atom_eq_cons
    intro t ht
    obtain rfl := Option.some.inj ht
    rcases hstart with rfl | hword
    · decide
    · rintro rfl
      exact hword.1 rfl

theorem follows_and_of_orRest {ts post : List Lexeme} {qs : List QueryAst}
    (h : Derives ReadsAsWord field .orRest ts qs) (hpost : Phrase.orRest.Follows post) :
    Phrase.and.Follows (ts ++ post) := by
  cases h with
  | orNil => exact fun t ht ↦ .inl (hpost t ht)
  | orMore h hs => exact fun t ht ↦ .inr (Option.some.inj ht).symm

/-- An operand does not end the loop of `ParseAnd`. -/
theorem not_ends_of_atom (p : Place) (hp : LookedFor p .or) {ts post : List Lexeme}
    {qs : List QueryAst} (h : Derives ReadsAsWord field (.atom p) ts qs) :
    ¬Ends (ts ++ post) := by
  obtain ⟨t, ts', rfl, hstart⟩ := h.atom_eq_cons
  intro hends
  rcases hends t rfl with rfl | rfl
  · rcases hstart with h | h
    · cases h
    · exact h.1 rfl
  · rcases hstart with h | h
    · cases h
    · exact h.2 hp

theorem parseOr_of_parts {r r' : Bytes} {q : QueryAst} {qs : List QueryAst}
    (h : parseAnd n field fuel s = .ok (q, r)) (hs : parseOrRest n field fuel r = .ok (qs, r')) :
    parseOr n field (fuel + 1) s = .ok (unlessOne .disjunction (q :: qs), r') := by
  rw [parseOr, h]
  dsimp only [bind, Except.bind]
  rw [hs]

theorem parseAnd_of_parts {r r' : Bytes} {q : QueryAst} {qs : List QueryAst}
    (h : parseAtom n field fuel s = .ok (q, r))
    (hs : parseAndRest n field fuel r = .ok (qs, r')) :
    parseAnd n field (fuel + 1) s = .ok (unlessOne .conjunction (q :: qs), r') := by
  rw [parseAnd, h]
  dsimp only [bind, Except.bind]
  rw [hs]

theorem parseOrRest_of_parts {s' r r' : Bytes} {q : QueryAst} {qs : List QueryAst}
    (hkw : consumeKeyword (str "OR") s = some s') (h : parseAnd n field fuel s' = .ok (q, r))
    (hs : parseOrRest n field fuel r = .ok (qs, r')) :
    parseOrRest n field (fuel + 1) s = .ok (q :: qs, r') := by
  rw [parseOrRest, hkw]
  dsimp only
  rw [h]
  dsimp only [bind, Except.bind]
  rw [hs]

theorem parseAndRest_of_parts {s' r r' : Bytes} {q : QueryAst} {qs : List QueryAst}
    (hkw : (consumeKeyword (str "AND") s).getD s = s') (hends : ¬Ends (lexemes s'))
    (h : parseAtom n field fuel (skipWs s') = .ok (q, r))
    (hs : parseAndRest n field fuel r = .ok (qs, r')) :
    parseAndRest n field (fuel + 1) s = .ok (q :: qs, r') := by
  rw [parseAndRest, hkw]
  dsimp only
  rw [if_neg (by rw [endsAnd_iff]; exact hends), h]
  dsimp only [bind, Except.bind]
  rw [hs]

theorem parseAndRest_of_ends (h : Ends (lexemes s)) :
    parseAndRest n field (fuel + 1) s = .ok ([], s) := by
  have hhead : (lexemes s).head? ≠ some (.ident (str "AND")) := fun hand ↦ by
    rcases h _ hand with h | h <;> revert h <;> decide
  rw [parseAndRest, consumeKeyword_eq_none isKeyword_and hhead]
  exact if_pos ((endsAnd_iff s).2 h)

theorem parseAtom_group {s' r r' : Bytes} {q : QueryAst} (hs : skipWs s = 40 :: s')
    (h : parseOr n field fuel s' = .ok (q, r)) (hr : skipWs r = 41 :: r') :
    parseAtom n field (fuel + 1) s = .ok (q, r') := by
  rw [parseAtom, hs]
  simp only [h, hr, bind, Except.bind]

/-- A word in front of anything but a colon is a term of the default field. -/
theorem parseAtom_term {t : Lexeme} {ts : List Lexeme} (hs : lexemes s = t :: ts)
    (ht : t.text ≠ []) (hts : ∀ t ∈ ts.head?, t ≠ .colon) :
    ∃ r, parseAtom n field (fuel + 1) s = .ok (.term field t.text, r) ∧ lexemes r = ts := by
  rw [← lexemes_skipWs] at hs
  obtain ⟨htext, hrest⟩ := readIdentOrQuoted_of_cons hs
  rw [parseAtom]
  split
  · rename_i hskip
    rw [hskip] at hs
    cases hs
  · rename_i hskip
    obtain rfl := (List.cons.inj (hs.symm.trans (congrArg lexemes hskip))).1
    exact absurd rfl ht
  · dsimp only
    rw [htext, if_neg ht]
    split
    · rename_i hskip
      rw [← hrest ht, lexemes_of_match (t := .colon) (by decide) hskip] at hts
      exact absurd rfl (hts .colon rfl)
    · exact ⟨_, rfl, by rw [lexemes_skipWs, hrest ht]⟩

theorem parseAtom_qualified {t t' : Lexeme} {ts : List Lexeme}
    (hs : lexemes s = t :: .colon :: t' :: ts) (ht : t.text ≠ []) (ht' : t'.text ≠ []) :
    ∃ r, parseAtom n field (fuel + 1) s = .ok (.term t.text t'.text, r) ∧ lexemes r = ts := by
  rw [← lexemes_skipWs] at hs
  obtain ⟨htext, hrest⟩ := readIdentOrQuoted_of_cons hs
  rw [parseAtom]
  split
  · rename_i hskip
    rw [hskip] at hs
    cases hs
  · rename_i hskip
    obtain rfl := (List.cons.inj (hs.symm.trans (congrArg lexemes hskip))).1
    exact absurd rfl ht
  · dsimp only
    rw [htext, if_neg ht]
    obtain ⟨rest, hskip, hrest'⟩ :=
      (lexemes_punctuation_iff (c := 58) (t := .colon) (by decide)).1 (hrest ht)
    obtain ⟨htext', hlast⟩ := readIdentOrQuoted_of_cons hrest'
    simp only [hskip, htext', if_neg ht']
    exact ⟨_, rfl, hlast ht'⟩

/-- **Completeness** for every phrase: its function reads it, and leaves what follows. -/
theorem Derives.parses {ph : Phrase} {ts : List Lexeme} {qs : List QueryAst}
    (h : Derives ReadsAsWord field ph ts qs) :
    ∀ {fuel : ℕ} {s : Bytes} {post : List Lexeme}, lexemes s = ts ++ post → ph.fuel ts ≤ fuel →
      ph.Follows post → ∃ r, ph.Parses n field fuel s r qs ∧ lexemes r = post := by
  induction h with
  | @or ts ts' q qs h hs ih ihs =>
    intro fuel s post hlex hfuel hpost
    rw [Phrase.fuel, List.length_append] at hfuel
    obtain ⟨fuel, rfl⟩ : ∃ m, fuel = m + 1 := Nat.exists_eq_add_of_le' (by omega)
    rw [List.append_assoc] at hlex
    have hfuel₁ : Phrase.and.fuel ts ≤ fuel := by
      rw [Phrase.fuel]
      omega
    obtain ⟨r, ⟨q', hq, hr⟩, hpost'⟩ := ih hlex hfuel₁ (follows_and_of_orRest hs hpost)
    have hfuel₂ : Phrase.orRest.fuel ts' ≤ fuel := by
      rw [Phrase.fuel]
      omega
    obtain ⟨r', hr', hpost''⟩ := ihs hpost' hfuel₂ hpost
    obtain rfl := List.singleton_inj.1 hq
    exact ⟨r', ⟨_, rfl, parseOr_of_parts hr hr'⟩, hpost''⟩
  | orNil =>
    intro fuel s post hlex hfuel hpost
    obtain ⟨fuel, rfl⟩ : ∃ m, fuel = m + 1 := Nat.exists_eq_add_of_le' hfuel
    have hor : (lexemes s).head? ≠ some (.ident (str "OR")) := fun h ↦ by
      rw [hlex] at h
      exact absurd (hpost _ h) (by decide)
    refine ⟨s, ?_, hlex⟩
    rw [Phrase.Parses, parseOrRest, consumeKeyword_eq_none isKeyword_or hor]
  | @orMore ts ts' q qs h hs ih ihs =>
    intro fuel s post hlex hfuel hpost
    rw [Phrase.fuel, List.length_cons, List.length_append] at hfuel
    obtain ⟨fuel, rfl⟩ : ∃ m, fuel = m + 1 := Nat.exists_eq_add_of_le' (by omega)
    rw [List.cons_append, List.append_assoc] at hlex
    obtain ⟨s', hkw, hlex'⟩ := consumeKeyword_of_lexemes hlex
    have hfuel₁ : Phrase.and.fuel ts ≤ fuel := by
      rw [Phrase.fuel]
      omega
    obtain ⟨r, ⟨q', hq, hr⟩, hpost'⟩ := ih hlex' hfuel₁ (follows_and_of_orRest hs hpost)
    have hfuel₂ : Phrase.orRest.fuel ts' ≤ fuel := by
      rw [Phrase.fuel]
      omega
    obtain ⟨r', hr', hpost''⟩ := ihs hpost' hfuel₂ hpost
    obtain rfl := List.singleton_inj.1 hq
    exact ⟨r', parseOrRest_of_parts hkw hr hr', hpost''⟩
  | @and ts ts' q qs h hs ih ihs =>
    intro fuel s post hlex hfuel hpost
    rw [Phrase.fuel, List.length_append] at hfuel
    obtain ⟨fuel, rfl⟩ : ∃ m, fuel = m + 1 := Nat.exists_eq_add_of_le' (by omega)
    rw [List.append_assoc] at hlex
    have hfuel₁ : (Phrase.atom .start).fuel ts ≤ fuel := by
      rw [Phrase.fuel]
      omega
    obtain ⟨r, ⟨q', hq, hr⟩, hpost'⟩ := ih hlex hfuel₁ (follows_atom_of_andRest hs hpost)
    have hfuel₂ : Phrase.andRest.fuel ts' ≤ fuel := by
      rw [Phrase.fuel]
      omega
    obtain ⟨r', hr', hpost''⟩ := ihs hpost' hfuel₂ hpost
    obtain rfl := List.singleton_inj.1 hq
    exact ⟨r', ⟨_, rfl, parseAnd_of_parts hr hr'⟩, hpost''⟩
  | andNil =>
    intro fuel s post hlex hfuel hpost
    obtain ⟨fuel, rfl⟩ : ∃ m, fuel = m + 1 := Nat.exists_eq_add_of_le' hfuel
    exact ⟨s, parseAndRest_of_ends (by rw [hlex]; exact hpost), hlex⟩
  | @andMore ts ts' q qs h hs ih ihs =>
    intro fuel s post hlex hfuel hpost
    rw [Phrase.fuel, List.length_cons, List.length_append] at hfuel
    obtain ⟨fuel, rfl⟩ : ∃ m, fuel = m + 1 := Nat.exists_eq_add_of_le' (by omega)
    rw [List.cons_append, List.append_assoc] at hlex
    obtain ⟨s', hkw, hlex'⟩ := consumeKeyword_of_lexemes hlex
    have hends : ¬Ends (lexemes s') := by
      rw [hlex']
      exact not_ends_of_atom .afterAnd rfl h
    rw [← lexemes_skipWs] at hlex'
    have hfuel₁ : (Phrase.atom .afterAnd).fuel ts ≤ fuel := by
      rw [Phrase.fuel]
      omega
    obtain ⟨r, ⟨q', hq, hr⟩, hpost'⟩ := ih hlex' hfuel₁ (follows_atom_of_andRest hs hpost)
    have hfuel₂ : Phrase.andRest.fuel ts' ≤ fuel := by
      rw [Phrase.fuel]
      omega
    obtain ⟨r', hr', hpost''⟩ := ihs hpost' hfuel₂ hpost
    obtain rfl := List.singleton_inj.1 hq
    exact ⟨r', parseAndRest_of_parts (by rw [hkw, Option.getD_some]) hends hr hr', hpost''⟩
  | @andBeside ts ts' q qs h hs ih ihs =>
    intro fuel s post hlex hfuel hpost
    obtain ⟨t, ts₁, rfl, hstart⟩ := h.atom_eq_cons
    rw [Phrase.fuel, List.length_append, List.length_cons] at hfuel
    obtain ⟨fuel, rfl⟩ : ∃ m, fuel = m + 1 := Nat.exists_eq_add_of_le' (by omega)
    rw [List.append_assoc] at hlex
    have hends : ¬Ends (lexemes s) := by
      rw [hlex]
      exact not_ends_of_atom .beside (.inr rfl) h
    have hand : (lexemes s).head? ≠ some (.ident (str "AND")) := by
      rw [hlex]
      intro heq
      obtain rfl := Option.some.inj heq
      rcases hstart with hparen | hword
      · cases hparen
      · exact hword.2 (.inl rfl)
    rw [← lexemes_skipWs] at hlex
    have hfuel₁ : (Phrase.atom .beside).fuel (t :: ts₁) ≤ fuel := by
      rw [Phrase.fuel, List.length_cons]
      omega
    obtain ⟨r, ⟨q', hq, hr⟩, hpost'⟩ := ih hlex hfuel₁ (follows_atom_of_andRest hs hpost)
    have hfuel₂ : Phrase.andRest.fuel ts' ≤ fuel := by
      rw [Phrase.fuel]
      omega
    obtain ⟨r', hr', hpost''⟩ := ihs hpost' hfuel₂ hpost
    obtain rfl := List.singleton_inj.1 hq
    have hkw : (consumeKeyword (str "AND") s).getD s = s := by
      rw [consumeKeyword_eq_none isKeyword_and hand, Option.getD_none]
    exact ⟨r', parseAndRest_of_parts hkw hends hr hr', hpost''⟩
  | @group p ts q h ih =>
    intro fuel s post hlex hfuel _
    rw [Phrase.fuel, List.length_cons, List.length_append] at hfuel
    obtain ⟨fuel, rfl⟩ : ∃ m, fuel = m + 1 := Nat.exists_eq_add_of_le' (by omega)
    rw [List.cons_append, List.append_assoc] at hlex
    obtain ⟨s', hs', hlex'⟩ :=
      (lexemes_punctuation_iff (c := 40) (t := .lparen) (by decide)).1 hlex
    have hfuel₁ : Phrase.or.fuel ts ≤ fuel := by
      rw [Phrase.fuel]
      rw [List.length_singleton] at hfuel
      omega
    obtain ⟨r, ⟨q', hq, hr⟩, hpost'⟩ := ih hlex' hfuel₁
      (fun t ht ↦ (Option.some.inj ht).symm)
    obtain ⟨r', hr', hpost''⟩ :=
      (lexemes_punctuation_iff (c := 41) (t := .rparen) (by decide)).1 hpost'
    obtain rfl := List.singleton_inj.1 hq
    exact ⟨r', ⟨_, rfl, parseAtom_group hs' hr hr'⟩, hpost''⟩
  | @term p t h =>
    intro fuel s post hlex hfuel hpost
    obtain ⟨fuel, rfl⟩ : ∃ m, fuel = m + 1 :=
      Nat.exists_eq_add_of_le' (le_trans (by simp [Phrase.fuel]) hfuel)
    obtain ⟨r, hr, hpost'⟩ := parseAtom_term hlex h.1 hpost
    exact ⟨r, ⟨_, rfl, hr⟩, hpost'⟩
  | @qualified p t t' h h' =>
    intro fuel s post hlex hfuel _
    obtain ⟨fuel, rfl⟩ : ∃ m, fuel = m + 1 :=
      Nat.exists_eq_add_of_le' (le_trans (by simp [Phrase.fuel]) hfuel)
    obtain ⟨r, hr, hpost'⟩ := parseAtom_qualified hlex h.1 h'.1
    exact ⟨r, ⟨_, rfl, hr⟩, hpost'⟩

/-- **The parser accepts what the grammar derives**, with what it takes for words, and blank
inputs. -/
theorem parse_iff_readsAsWord {input : Bytes} {q : QueryAst} :
    parse input field = .ok q ↔
      lexemes input = [] ∧ q = .matchAll ∨
        Derives ReadsAsWord field .or (lexemes input) [q] := by
  constructor
  · intro h
    rw [parse] at h
    split at h
    · rename_i hskip
      exact .inl ⟨lexemes_of_skipWs_nil hskip, (Except.ok.inj h).symm⟩
    obtain ⟨⟨q', rest⟩, hparse, h⟩ := bind_eq_ok.1 h
    dsimp only at h
    split at h
    · rename_i hskip
      obtain rfl := Except.ok.inj h
      obtain ⟨ts, hts, hd⟩ := (soundAt _ _ _).or hparse
      rw [lexemes_skipWs, lexemes_of_skipWs_nil hskip, List.append_nil] at hts
      exact .inr (hts ▸ hd)
    · cases h
  · rintro (⟨hnil, rfl⟩ | h)
    · rw [parse, lexemes_eq_nil_iff.1 hnil]
    have hlex : lexemes (skipWs input) = lexemes input ++ [] := by
      rw [lexemes_skipWs, List.append_nil]
    have hfuel : Phrase.or.fuel (lexemes input) ≤ 3 * input.length + 3 := by
      have := length_lexemes_le input
      rw [Phrase.fuel]
      omega
    have hend : Phrase.or.Follows [] := fun t ht ↦ by cases ht
    obtain ⟨r, ⟨q', hq, hr⟩, hrest⟩ := h.parses (n := input.length) hlex hfuel hend
    obtain rfl := List.singleton_inj.1 hq
    rw [parse]
    split
    · rename_i hskip
      exact absurd (lexemes_of_skipWs_nil hskip) h.or_ne_nil
    · simp only [hr, lexemes_eq_nil_iff.1 hrest, bind, Except.bind]

end Complete

end Spp.Query
