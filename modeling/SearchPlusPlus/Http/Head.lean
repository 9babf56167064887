import SearchPlusPlus.Http.HttpParser

/-!
# The head of a request

`TryParseRequest` works on offsets into everything that was received. What it makes of the bytes in
front of the first blank line depends on these bytes alone, and is best said in terms of their
lines: `parseHead` is steps 2 to 4 on the lines of a head, and `tryParseRequest_eq` says that the
parser is that.
-/

namespace Spp.Http

open Substring

/-! ### Lines -/

theorem findCrlfLoop_eq (sv : Bytes) : ∀ {fuel start : ℕ}, sv.length - start ≤ fuel →
    findCrlfLoop sv fuel start = find sv crlf start := by
  intro fuel
  induction fuel with
  | zero =>
    intro start hfuel
    rw [find, List.drop_eq_nil_of_le (by omega)]
    rfl
  | succ fuel ih =>
    intro start hfuel
    rw [findCrlfLoop]
    split_ifs with hstart
    · cases hfind : locate [13] (sv.drop start) with
      | none =>
        have hnone : locate crlf (sv.drop start) = none := by
          refine (locate_eq_none_iff (List.cons_ne_nil _ _)).2 fun j hpre ↦ ?_
          exact locate_singleton_eq_none_iff.1 hfind
            (List.mem_of_mem_drop (hpre.subset List.mem_cons_self))
        rw [find, find, hfind, hnone]
        rfl
      | some i =>
        obtain ⟨hnot, hsplit⟩ := exists_append_of_locate_singleton hfind
        have hlen : ((sv.drop start).take i).length = i := by
          have := le_length_of_locate hfind
          rw [List.length_singleton] at this
          rw [List.length_take]
          omega
        generalize (sv.drop start).take i = pre at hnot hsplit hlen
        have hdrop : (sv.drop start).drop (i + 1) = sv.drop (i + start + 1) := by
          rw [List.drop_drop]
          congr 1
          omega
        rw [hdrop] at hsplit
        have hskip : ∀ t, locate crlf (pre ++ t) = (locate crlf t).map (· + pre.length) := fun t ↦
          locate_append_right (not_prefix_drop hnot [10] t)
        have hget : sv[i + start + 1]? = (sv.drop (i + start + 1)).head? := List.head?_drop.symm
        rw [find, hfind, Option.map_some]
        dsimp only
        rw [hget, find, hsplit]
        split_ifs with hlf
        · obtain ⟨post, hpost⟩ := List.head?_eq_some_iff.1 hlf
          have hhead : crlf <+: 13 :: 10 :: post := ⟨post, rfl⟩
          rw [hpost, hskip, locate_of_starts hhead, Option.map_some, Option.map_some, hlen,
            Nat.zero_add]
        · have hhead : ¬crlf <+: 13 :: sv.drop (i + start + 1) := by
            rintro ⟨post, hpost⟩
            rw [← (List.cons.inj hpost).2] at hlf
            exact hlf rfl
          rw [ih (by omega), find, hskip, locate_cons_of_not_starts hhead, Option.map_map,
            Option.map_map, hlen]
          refine congrFun (congrArg Option.map (funext fun k ↦ ?_)) _
          show k + (i + start + 1) = k + 1 + i + start
          omega
    · rw [find, List.drop_eq_nil_of_le (not_lt.1 hstart)]
      rfl

/-- `FindCrlf` finds the next line end. -/
theorem findCrlf_eq (sv : Bytes) (start : ℕ) : findCrlf sv start = find sv crlf start :=
  findCrlfLoop_eq sv (Nat.sub_le _ _)

/-- A line runs to the line end behind it, whatever comes then. -/
theorem locate_crlf_append {x : Bytes} (h : locate crlf x = none) (t : Bytes) :
    locate crlf (x ++ (crlf ++ t)) = some x.length := by
  have hnot := (locate_eq_none_iff (List.cons_ne_nil _ _)).1 h
  have hbefore : ∀ j < x.length, ¬crlf <+: (x ++ (crlf ++ t)).drop j := by
    intro j hj hpre
    rw [List.drop_append_of_le_length hj.le] at hpre
    have hlen : (x.drop j).length = x.length - j := List.length_drop
    cases hdrop : x.drop j with
    | nil =>
      rw [hdrop, List.length_nil] at hlen
      omega
    | cons c l =>
      cases l with
      | nil =>
        -- The line ends in a carriage return of its own.
        rw [hdrop] at hpre
        obtain ⟨rest, hrest⟩ := hpre
        obtain ⟨-, htail⟩ := List.cons.inj hrest
        exact absurd (List.cons.inj htail).1 (by decide)
      | cons c' l =>
        refine hnot j ?_
        rw [hdrop] at hpre ⊢
        exact List.prefix_of_prefix_length_le hpre (List.prefix_append _ _) (by simp)
  rw [locate_append_right hbefore, locate_of_starts (List.prefix_append crlf t), Option.map_some,
    Nat.zero_add]

/-- The lines of at most `fuel` line ends. -/
def linesWithin : ℕ → Bytes → List Bytes
  | 0, s => [s]
  | fuel + 1, s =>
    match locate crlf s with
    | none => [s]
    | some i => s.take i :: linesWithin fuel (s.drop (i + 2))

/-- The lines of a text, which line ends separate. -/
def lines (s : Bytes) : List Bytes := linesWithin s.length s

theorem linesWithin_eq {fuel : ℕ} : ∀ {fuel' : ℕ} {s : Bytes}, s.length ≤ fuel →
    s.length ≤ fuel' → linesWithin fuel s = linesWithin fuel' s := by
  induction fuel with
  | zero =>
    intro fuel' s h _
    obtain rfl := List.length_eq_zero_iff.1 (Nat.le_zero.1 h)
    cases fuel' <;> rfl
  | succ fuel ih =>
    intro fuel' s h h'
    cases fuel' with
    | zero =>
      obtain rfl := List.length_eq_zero_iff.1 (Nat.le_zero.1 h')
      rfl
    | succ fuel' =>
      unfold linesWithin
      cases hs : locate crlf s with
      | none => rfl
      | some i =>
        have hlen := List.length_drop (i := i + 2) (l := s)
        exact congrArg (s.take i :: ·) (ih (by omega) (by omega))

theorem lines_of_none {s : Bytes} (h : locate crlf s = none) : lines s = [s] := by
  rw [lines]
  cases s.length with
  | zero => rfl
  | succ fuel => rw [linesWithin, h]

theorem lines_of_some {s : Bytes} {i : ℕ} (h : locate crlf s = some i) :
    lines s = s.take i :: lines (s.drop (i + 2)) := by
  have hle := le_length_of_locate h
  have hlen := List.length_drop (i := i + 2) (l := s)
  obtain ⟨fuel, hfuel⟩ : ∃ m, s.length = m + 1 :=
    Nat.exists_eq_add_of_le' ((Nat.le_add_left 1 _).trans hle)
  rw [lines, hfuel, linesWithin, h]
  exact congrArg (s.take i :: ·) (linesWithin_eq (by omega) le_rfl)

/-- Lines, with line ends between them. -/
def joinLines (l : Bytes) (ls : List Bytes) : Bytes := l ++ ls.flatMap (crlf ++ ·)

theorem locate_crlf_of_notMem {l : Bytes} (h : 13 ∉ l) : locate crlf l = none := by
  refine (locate_eq_none_iff (List.cons_ne_nil _ _)).2 fun j hpre ↦ ?_
  exact h (List.mem_of_mem_drop (hpre.subset List.mem_cons_self))

theorem joinLines_cons (l l' : Bytes) (ls : List Bytes) :
    joinLines l (l' :: ls) = l ++ (crlf ++ joinLines l' ls) := by
  rw [joinLines, List.flatMap_cons, List.append_assoc]
  rfl

/-- Lines that were put together are the lines of the whole. -/
theorem lines_joinLines {ls : List Bytes} : ∀ {l : Bytes}, 13 ∉ l → (∀ l' ∈ ls, 13 ∉ l') →
    lines (joinLines l ls) = l :: ls := by
  induction ls with
  | nil =>
    intro l hl _
    rw [joinLines, List.flatMap_nil, List.append_nil, lines_of_none (locate_crlf_of_notMem hl)]
  | cons l' ls ih =>
    intro l hl hls
    obtain ⟨hl', hls⟩ := List.forall_mem_cons.1 hls
    have hdrop : (l ++ (crlf ++ joinLines l' ls)).drop (l.length + 2) = joinLines l' ls := by
      rw [← List.drop_drop, List.drop_left]
      rfl
    rw [joinLines_cons, lines_of_some (locate_crlf_append (locate_crlf_of_notMem hl) _),
      List.take_left, hdrop, ih hl' hls]

/-- A blank line is found behind the lines of a head, none of which is empty. -/
theorem locate_blank_line {ls : List Bytes} (rest : Bytes) : ∀ {l : Bytes}, 13 ∉ l →
    (∀ l' ∈ ls, l' ≠ [] ∧ 13 ∉ l') →
      locate (crlf ++ crlf) (joinLines l ls ++ (crlf ++ crlf ++ rest)) =
        some (joinLines l ls).length := by
  have hskip : ∀ {l : Bytes}, 13 ∉ l → ∀ t, locate (crlf ++ crlf) (l ++ t) =
      (locate (crlf ++ crlf) t).map (· + l.length) := fun hl t ↦
    locate_append_right (not_prefix_drop hl [10, 13, 10] t)
  induction ls with
  | nil =>
    intro l hl _
    rw [joinLines, List.flatMap_nil, List.append_nil, hskip hl,
      locate_of_starts (List.prefix_append _ _), Option.map_some, Nat.zero_add]
  | cons l' ls ih =>
    intro l hl hls
    obtain ⟨⟨hne, hl'⟩, hrest⟩ := List.forall_mem_cons.1 hls
    obtain ⟨c, l', rfl⟩ := List.exists_cons_of_ne_nil hne
    have hc : c ≠ 13 := fun heq ↦ hl' (heq ▸ List.mem_cons_self)
    -- The line end behind `l` is no blank line, since `l'` is not empty.
    have hcr : ¬crlf ++ crlf <+:
        13 :: 10 :: (joinLines (c :: l') ls ++ (crlf ++ crlf ++ rest)) := by
      rintro ⟨t, ht⟩
      obtain ⟨-, ht⟩ := List.cons.inj ht
      obtain ⟨-, ht⟩ := List.cons.inj ht
      exact hc (List.cons.inj ht).1.symm
    have hlf : ¬crlf ++ crlf <+: 10 :: (joinLines (c :: l') ls ++ (crlf ++ crlf ++ rest)) := by
      rintro ⟨t, ht⟩
      exact absurd (List.cons.inj ht).1 (by decide)
    have hnext : locate (crlf ++ crlf)
        (crlf ++ (joinLines (c :: l') ls ++ (crlf ++ crlf ++ rest))) =
        some ((joinLines (c :: l') ls).length + 2) := by
      refine (locate_cons_of_not_starts hcr).trans ?_
      rw [locate_cons_of_not_starts hlf, ih hl' hrest]
      rfl
    rw [joinLines_cons, List.append_assoc, List.append_assoc, hskip hl, hnext]
    simp only [Option.map_some, List.length_append]
    congr 1
    show _ = l.length + (2 + _)
    omega

/-- The first line of a head. -/
def requestLine (head : Bytes) : Bytes := (lines head).headD []

/-- The other lines of a head. -/
def headerLines (head : Bytes) : List Bytes := (lines head).tail

/-- Steps 2 to 4 on the lines of a head, up to the length of the body. -/
def parseHead (limits : ParseLimits) (head : Bytes) : Except HttpError (HttpRequest × ℕ) :=
  if limits.maxRequestLine < (requestLine head).length then
    .error ⟨414, str "request line too long"⟩
  else do
    let out ← readRequestLine (requestLine head)
    let headers ← (headerLines head).foldlM readHeader .empty
    let bodyLen ← bodyLength limits headers
    .ok ({ out with headers }, bodyLen)

/-! ### The parser on lines -/

section Parser

variable {limits : ParseLimits} {buf : Bytes} {e : ℕ}

/-- What stands between a position of the head and the blank line. -/
theorem drop_eq_append (h : locate (crlf ++ crlf) buf = some e) {pos : ℕ} (hpos : pos ≤ e) :
    buf.drop pos = (buf.take e).drop pos ++ (crlf ++ (crlf ++ buf.drop (e + 4))) := by
  have hle := le_length_of_locate h
  have hsplit := eq_append_of_locate h
  have hlen : (buf.take e).length = e := List.length_take_of_le (by omega)
  have hdrop : (buf.take e ++ (crlf ++ crlf ++ buf.drop (e + (crlf ++ crlf).length))).drop pos =
      (buf.take e).drop pos ++ (crlf ++ crlf ++ buf.drop (e + (crlf ++ crlf).length)) :=
    List.drop_append_of_le_length (by omega)
  rw [← hsplit] at hdrop
  rw [hdrop]
  simp only [List.append_assoc]
  rfl

/-- The next line end from a position of the head on: that of a line of the head, or the one in
front of the blank line. -/
theorem findCrlf_of_head (h : locate (crlf ++ crlf) buf = some e) {pos : ℕ} (hpos : pos ≤ e) :
    findCrlf buf pos =
      some (((locate crlf ((buf.take e).drop pos)).getD (e - pos)) + pos) := by
  have hle := le_length_of_locate h
  rw [findCrlf_eq, find, drop_eq_append h hpos]
  cases hline : locate crlf ((buf.take e).drop pos) with
  | none =>
    have hlen : ((buf.take e).drop pos).length = e - pos := by
      rw [List.length_drop, List.length_take_of_le (by omega)]
    rw [locate_crlf_append hline, hlen]
    rfl
  | some i =>
    rw [locate_append hline]
    rfl

theorem parseHeadersLoop_eq (h : locate (crlf ++ crlf) buf = some e) :
    ∀ {fuel pos : ℕ} {headers : SortedMap Bytes Bytes}, buf.length - pos ≤ fuel → pos ≤ e →
      parseHeadersLoop buf e fuel pos headers =
        (lines ((buf.take e).drop pos)).foldlM readHeader headers := by
  have hle : e + 4 ≤ buf.length := le_length_of_locate h
  intro fuel
  induction fuel with
  | zero =>
    intro pos headers hfuel hpos
    omega
  | succ fuel ih =>
    intro pos headers hfuel hpos
    have hlen : ((buf.take e).drop pos).length = e - pos := by
      rw [List.length_drop, List.length_take_of_le (by omega)]
    rw [parseHeadersLoop]
    split_ifs with hlt
    · have hline : ∀ i ≤ e - pos, (buf.drop pos).take (i + pos - pos) =
          ((buf.take e).drop pos).take i := fun i hi ↦ by
        rw [Nat.add_sub_cancel, drop_eq_append h hpos, List.take_append_of_le_length (by omega)]
      rw [findCrlf_of_head h hpos]
      dsimp only
      cases hnext : locate crlf ((buf.take e).drop pos) with
      | none =>
        -- The last line of the head.
        rw [Option.getD_none, if_neg (by omega), hline _ le_rfl, lines_of_none hnext, ← hlen,
          List.take_length]
        have hstop : ∀ headers, parseHeadersLoop buf e fuel
            (((buf.take e).drop pos).length + pos + 2) headers = .ok headers := fun headers ↦ by
          cases fuel with
          | zero => rfl
          | succ fuel => rw [parseHeadersLoop, if_neg (by omega)]
        simp only [hstop]
        rfl
      | some i =>
        have hi : i + 2 ≤ e - pos := hlen ▸ le_length_of_locate hnext
        rw [Option.getD_some, if_neg (by omega), hline _ (by omega), lines_of_some hnext,
          List.foldlM_cons]
        have hrest : ((buf.take e).drop pos).drop (i + 2) = (buf.take e).drop (i + pos + 2) := by
          rw [List.drop_drop]
          congr 1
          omega
        rw [hrest]
        exact congrArg (readHeader headers _ >>= ·) (funext fun headers' ↦ ih (by omega) (by omega))
    · have hnil : (buf.take e).drop pos = [] := List.length_eq_zero_iff.1 (by omega)
      rw [hnil, lines_of_none rfl]
      rfl

/-- **The parser on a head and what follows it.** -/
theorem tryParseRequest_eq (limits : ParseLimits) (h : locate (crlf ++ crlf) buf = some e) :
    tryParseRequest limits buf =
      match parseHead limits (buf.take e) with
      | .error e => .error e
      | .ok (out, bodyLen) =>
        if buf.length - (e + 4) < bodyLen then .needMore
        else
          .complete (e + 4 + bodyLen) { out with body := (buf.drop (e + 4)).take bodyLen } := by
  have hle : e + 4 ≤ buf.length := le_length_of_locate h
  have hlen : (buf.take e).length = e := List.length_take_of_le (by omega)
  have hfirst := findCrlf_of_head h (Nat.zero_le e)
  rw [List.drop_zero, Nat.sub_zero, Nat.add_zero] at hfirst
  have hhead : readHead limits buf e = parseHead limits (buf.take e) := by
    rw [readHead, parseRequestLine, hfirst, parseHead, requestLine, headerLines]
    dsimp only
    cases hnext : locate crlf (buf.take e) with
    | none =>
      have hstop : parseHeaders buf e (e + 2) = .ok .empty := by
        rw [parseHeaders]
        cases buf.length with
        | zero => rfl
        | succ fuel => rw [parseHeadersLoop, if_neg (by omega)]
      rw [Option.getD_none, lines_of_none hnext, if_neg (lt_irrefl e)]
      show _ = if limits.maxRequestLine < (buf.take e).length then _ else _
      rw [hlen]
      split_ifs
      · rfl
      · show (readRequestLine (buf.take e) >>= _) >>= _ = readRequestLine (buf.take e) >>= _
        cases readRequestLine (buf.take e) with
        | error err => rfl
        | ok out =>
          show (parseHeaders buf e (e + 2) >>= _) = _
          rw [hstop]
          rfl
    | some i =>
      have hi : i + 2 ≤ e := by
        have := le_length_of_locate hnext
        rwa [hlen] at this
      have htake : (buf.take e).take i = buf.take i := by
        rw [List.take_take, min_eq_left (by omega)]
      have hilen : (buf.take i).length = i := List.length_take_of_le (by omega)
      rw [Option.getD_some, lines_of_some hnext, if_neg (by omega), htake]
      show _ = if limits.maxRequestLine < (buf.take i).length then _ else _
      rw [hilen]
      split_ifs
      · rfl
      · show (readRequestLine (buf.take i) >>= _) >>= _ = readRequestLine (buf.take i) >>= _
        cases readRequestLine (buf.take i) with
        | error err => rfl
        | ok out =>
          show (parseHeaders buf e (i + 2) >>= _) = _
          rw [parseHeaders, parseHeadersLoop_eq h (Nat.sub_le _ _) hi]
          rfl
  rw [tryParseRequest, find_zero, h]
  dsimp only
  cases hparsed : parseHead limits (buf.take e) with
  | error err =>
    rw [hparsed] at hhead
    simp only [hhead]
  | ok p =>
    rw [hparsed] at hhead
    simp only [hhead]

end Parser

end Spp.Http
