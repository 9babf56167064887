import SearchPlusPlus.Http.Head

/-!
# Reading a request

The loop of `HttpServer::HandleClient`, which calls the parser after each read, and what it makes
of a stream of bytes that may come in any number of reads. A head that is too large is only
complained about while its end has not come: where the head ends behind the limit, but within one
read of it, the outcome depends on the reads (`sameOutcome_iff`).
-/

namespace Spp.Http

open Substring

/-- `HttpServerOptions`, as far as the loop reads them. -/
structure HttpServerOptions where
  parseLimits : ParseLimits := {}
  maxTotalRequestBytes : ℕ := 64 * 1024 * 1024

/-- How the loop ends: with a request to dispatch, with an error that is sent, or with the
connection closed since nothing more came. -/
inductive Received where
  | request (req : HttpRequest)
  | failed (e : HttpError)
  | closed

/-- What a round of the loop ends with, unless it goes on to read. -/
def answer (opts : HttpServerOptions) (buf : Bytes) : Option Received :=
  match tryParseRequest opts.parseLimits buf with
  | .complete _ req => some (.request req)
  | .error e => some (.failed { e with status := if e.status = 0 then 400 else e.status })
  | .needMore =>
    if opts.maxTotalRequestBytes < buf.length then some (.failed ⟨413, str "request too large"⟩)
    else none

/-- The loop of `HandleClient`, with the bytes received and the reads to come. -/
def receive (opts : HttpServerOptions) : Bytes → List Bytes → Received
  | buf, [] => (answer opts buf).getD .closed
  | buf, r :: reads =>
    match answer opts buf with
    | some outcome => outcome
    | none => receive opts (buf ++ r) reads

/-- The size of `scratch`, which no read exceeds. -/
def readSize : ℕ := 8192

/-- The reads are the stream, cut into pieces that are not empty. -/
structure IsCut (s : Bytes) (reads : List Bytes) : Prop where
  flatten_eq : reads.flatten = s
  ne_nil : ∀ r ∈ reads, r ≠ []
  length_le : ∀ r ∈ reads, r.length ≤ readSize

/-- The same request, errors of the same status, or no end in either. -/
def SameOutcome : Received → Received → Prop
  | .request req, .request req' => req = req'
  | .failed e, .failed e' => e.status = e'.status
  | .closed, .closed => True
  | _, _ => False

/-! ### Heads -/

section Head

variable {limits : ParseLimits} {head : Bytes}

/-- The headers of some lines. Of two with the same name the last is kept. -/
def headersOf (ls : List Bytes) : SortedMap Bytes Bytes :=
  (ls.filterMap headerOf).foldl (fun headers p ↦ headers.insert p.1 p.2) .empty

theorem headerOf_nil : headerOf [] = none := rfl

theorem foldlM_readHeader (ls : List Bytes) (headers : SortedMap Bytes Bytes) :
    ls.foldlM readHeader headers =
      if ∃ l ∈ ls, l ≠ [] ∧ headerOf l = none then .error ⟨400, str "missing ':' in header"⟩
      else .ok ((ls.filterMap headerOf).foldl
        (fun headers p ↦ headers.insert p.1 p.2) headers) := by
  induction ls generalizing headers with
  | nil => rfl
  | cons l ls ih =>
    rw [List.foldlM_cons, readHeader]
    by_cases hnil : l = []
    · subst hnil
      rw [if_pos rfl]
      refine (ih headers).trans ?_
      rw [List.filterMap_cons_none headerOf_nil]
      simp
    rw [if_neg hnil]
    cases hl : headerOf l with
    | none =>
      rw [if_pos ⟨l, List.mem_cons_self, hnil, hl⟩]
      rfl
    | some p =>
      refine (ih _).trans ?_
      simp [hl]

/-- A head that is answered with status 400: its request line is not too long, and has no two
spaces, or has a version that is supported, but there is a header line without a colon or a
content length that is no 64-bit number. -/
def Malformed (limits : ParseLimits) (head : Bytes) : Prop :=
  (requestLine head).length ≤ limits.maxRequestLine ∧
    (splitRequestLine (requestLine head) = none ∨
      ∃ method target version,
        splitRequestLine (requestLine head) = some (method, target, version) ∧
          isSupported version = true ∧
          ((∃ l ∈ headerLines head, l ≠ [] ∧ headerOf l = none) ∨
            ∃ value, (headersOf (headerLines head)).find? (str "content-length") = some value ∧
              fromChars value = none))

theorem bodyLength_error {headers : SortedMap Bytes Bytes} {e : HttpError}
    (h : bodyLength limits headers = .error e) : e.status = 400 ∧
        (∃ value, headers.find? (str "content-length") = some value ∧ fromChars value = none) ∨
      (e.status = 413 ∨ e.status = 411) ∧
        ∀ value, headers.find? (str "content-length") = some value → fromChars value ≠ none := by
  rw [bodyLength] at h
  cases hvalue : headers.find? (str "content-length") with
  | none =>
    rw [hvalue] at h
    change (if _ then _ else _) = _ at h
    split_ifs at h
    obtain rfl := Except.error.inj h
    exact .inr ⟨.inr rfl, fun value hv ↦ by cases hv⟩
  | some value =>
    rw [hvalue] at h
    cases hn : fromChars value with
    | none =>
      simp only [hn] at h
      obtain rfl := Except.error.inj h
      exact .inl ⟨rfl, value, rfl, hn⟩
    | some n =>
      have hsome : ∀ value', some value = some value' → fromChars value' ≠ none :=
        fun value' hv ↦ by
        rw [← Option.some.inj hv, hn]
        exact Option.some_ne_none n
      simp only [hn] at h
      split_ifs at h with hlarge htransfer htransfer
      · obtain rfl := Except.error.inj h
        exact .inr ⟨.inl rfl, hsome⟩
      · obtain rfl := Except.error.inj h
        exact .inr ⟨.inl rfl, hsome⟩
      · obtain rfl := Except.error.inj h
        exact .inr ⟨.inr rfl, hsome⟩
      · cases h

/-- The status of a head that is refused, and when it is 400. -/
theorem parseHead_error {e : HttpError} (h : parseHead limits head = .error e) :
    e.status ≠ 0 ∧ (e.status = 400 ↔ Malformed limits head) := by
  rw [parseHead] at h
  split_ifs at h with hlong
  · obtain rfl := Except.error.inj h
    exact ⟨by decide, fun h ↦ absurd h (by decide), fun h ↦ absurd h.1 (not_le.2 hlong)⟩
  have hshort := not_lt.1 hlong
  rw [readRequestLine] at h
  cases hsplit : splitRequestLine (requestLine head) with
  | none =>
    rw [hsplit] at h
    obtain rfl := Except.error.inj h
    exact ⟨by decide, fun _ ↦ ⟨hshort, .inl hsplit⟩, fun _ ↦ rfl⟩
  | some parts =>
    obtain ⟨method, target, version⟩ := parts
    rw [hsplit] at h
    dsimp only at h
    have hmalformed : ∀ {e : HttpError}, e.status ≠ 400 → e.status ≠ 0 →
        (isSupported version = true → ¬((∃ l ∈ headerLines head, l ≠ [] ∧ headerOf l = none) ∨
          ∃ value, (headersOf (headerLines head)).find? (str "content-length") = some value ∧
            fromChars value = none)) →
        e.status ≠ 0 ∧ (e.status = 400 ↔ Malformed limits head) := by
      refine fun hne hzero hnot ↦ ⟨hzero, fun h ↦ absurd h hne, ?_⟩
      rintro ⟨-, hnone | ⟨method', target', version', heq, hsupported, hbad⟩⟩
      · cases hsplit.symm.trans hnone
      · cases hsplit.symm.trans heq
        exact absurd hbad (hnot hsupported)
    split_ifs at h with hsupported
    · change ((headerLines head).foldlM readHeader .empty >>= _) = _ at h
      rw [foldlM_readHeader] at h
      split_ifs at h with hline
      · obtain rfl := Except.error.inj h
        exact ⟨by decide, fun _ ↦ ⟨hshort, .inr ⟨_, _, _, hsplit, hsupported, .inl hline⟩⟩,
          fun _ ↦ rfl⟩
      · change (bodyLength limits (headersOf (headerLines head)) >>= _) = _ at h
        cases hbody : bodyLength limits (headersOf (headerLines head)) with
        | ok n =>
          rw [hbody] at h
          cases h
        | error e' =>
          rw [hbody] at h
          obtain rfl := Except.error.inj h
          rcases bodyLength_error hbody with ⟨hstatus, hvalue⟩ | ⟨hstatus, hvalue⟩
          · exact ⟨by rw [hstatus]; decide, fun _ ↦ ⟨hshort,
              .inr ⟨_, _, _, hsplit, hsupported, .inr hvalue⟩⟩, fun _ ↦ hstatus⟩
          · refine hmalformed ?_ ?_ fun _ hbad ↦ ?_
            · rcases hstatus with h | h <;> rw [h] <;> decide
            · rcases hstatus with h | h <;> rw [h] <;> decide
            · obtain ⟨value, hv, hnone⟩ := hbad.resolve_left hline
              exact hvalue value hv hnone
    · obtain rfl := Except.error.inj h
      exact hmalformed (show 505 ≠ 400 by decide) (show 505 ≠ 0 by decide) fun h ↦
        absurd h hsupported

theorem parseHead_of_malformed (h : Malformed limits head) :
    ∃ e, parseHead limits head = .error e := by
  obtain ⟨hshort, hbad⟩ := h
  rw [parseHead, if_neg (not_lt.2 hshort), readRequestLine]
  rcases hbad with hnone | ⟨method, target, version, hsplit, hsupported, hbad⟩
  · rw [hnone]
    exact ⟨_, rfl⟩
  rw [hsplit]
  dsimp only
  rw [if_pos hsupported]
  change ∃ e, ((headerLines head).foldlM readHeader .empty >>= _) = .error e
  rw [foldlM_readHeader]
  split_ifs with hline
  · exact ⟨_, rfl⟩
  · obtain ⟨value, hvalue, hnone⟩ := hbad.resolve_left hline
    change ∃ e, (bodyLength limits (headersOf (headerLines head)) >>= _) = .error e
    rw [bodyLength, hvalue]
    simp only [hnone]
    exact ⟨_, rfl⟩

end Head

/-! ### Rounds -/

section Rounds

variable {opts : HttpServerOptions} {s p t : Bytes} {e : ℕ}

/-- What a head is answered with once it has come, with `m` bytes of the stream received. -/
def settle (opts : HttpServerOptions) (s : Bytes) (e m : ℕ) : Option Received :=
  match parseHead opts.parseLimits (s.take e) with
  | .error err => some (.failed err)
  | .ok (out, n) =>
    if m - (e + 4) < n then none
    else some (.request { out with body := (s.drop (e + 4)).take n })

/-- What comes of a stream whose head is not complained about before its end comes. -/
def settled (opts : HttpServerOptions) (s : Bytes) (e : ℕ) : Received :=
  (settle opts s e s.length).getD .closed

/-- What comes of a head that is complained about before its end comes. -/
def tooLarge : Received := .failed ⟨400, str "headers too large"⟩

theorem settle_mono {m m' : ℕ} {outcome : Received} (hm : m ≤ m')
    (h : settle opts s e m = some outcome) : settle opts s e m' = some outcome := by
  rw [settle] at h ⊢
  cases hhead : parseHead opts.parseLimits (s.take e) with
  | error err =>
    rw [hhead] at h
    exact h
  | ok out =>
    obtain ⟨out, n⟩ := out
    rw [hhead] at h
    dsimp only at h ⊢
    split_ifs at h with hshort
    rw [if_neg (by omega)]
    exact h

theorem answer_of_locate_none (hnone : locate (crlf ++ crlf) p = none)
    (hlen : p.length ≤ opts.maxTotalRequestBytes) :
    answer opts p = if opts.parseLimits.head < p.length then some tooLarge else none := by
  rw [answer, tryParseRequest, find_zero, hnone]
  dsimp only
  by_cases hlong : opts.parseLimits.head < p.length
  · rw [if_pos hlong, if_pos hlong]
    rfl
  · rw [if_neg hlong, if_neg hlong]
    exact if_neg (not_lt.2 hlen)

/-- A round before the end of the head has come. -/
theorem answer_of_lt (he : locate (crlf ++ crlf) (p ++ t) = some e) (hp : p.length < e + 4)
    (hlen : p.length ≤ opts.maxTotalRequestBytes) :
    answer opts p = if opts.parseLimits.head < p.length then some tooLarge else none := by
  refine answer_of_locate_none ?_ hlen
  cases hnone : locate (crlf ++ crlf) p with
  | none => rfl
  | some i =>
    have hle : i + 4 ≤ p.length := le_length_of_locate hnone
    cases (locate_append hnone t).symm.trans he
    omega

/-- A round after the end of the head has come. -/
theorem answer_of_le (he : locate (crlf ++ crlf) (p ++ t) = some e) (hp : e + 4 ≤ p.length)
    (hlen : p.length ≤ opts.maxTotalRequestBytes) :
    answer opts p = settle opts (p ++ t) e p.length := by
  have hloc : locate (crlf ++ crlf) p = some e := by
    cases hnone : locate (crlf ++ crlf) p with
    | none =>
      have hlt : p.length < e + 4 := length_lt_of_locate_append hnone he
      omega
    | some i => rw [← he, locate_append hnone]
  rw [answer, tryParseRequest_eq _ hloc, settle, List.take_append_of_le_length (by omega),
    List.drop_append_of_le_length hp]
  cases hhead : parseHead opts.parseLimits (p.take e) with
  | error err =>
    dsimp only
    rw [if_neg (parseHead_error hhead).1]
  | ok out =>
    obtain ⟨out, n⟩ := out
    dsimp only
    by_cases hshort : p.length - (e + 4) < n
    · rw [if_pos hshort, if_pos hshort]
      exact if_neg (not_lt.2 hlen)
    · have htake : (p.drop (e + 4) ++ t).take n = (p.drop (e + 4)).take n :=
        List.take_append_of_le_length (by rw [List.length_drop]; omega)
      rw [if_neg hshort, if_neg hshort, htake]

end Rounds

/-! ### Runs -/

section Runs

variable {opts : HttpServerOptions} {s : Bytes} {e : ℕ}

/-- A run in which the end of the head has come. -/
theorem receive_of_le (he : locate (crlf ++ crlf) s = some e)
    (hlen : s.length ≤ opts.maxTotalRequestBytes) : ∀ {reads : List Bytes} {p : Bytes},
      p ++ reads.flatten = s → e + 4 ≤ p.length → receive opts p reads = settled opts s e := by
  intro reads
  induction reads with
  | nil =>
    intro p hp hle
    rw [List.flatten_nil, List.append_nil] at hp
    subst hp
    have hanswer := answer_of_le (t := []) (by rw [List.append_nil]; exact he) hle hlen
    rw [List.append_nil] at hanswer
    rw [receive, hanswer]
    rfl
  | cons r reads ih =>
    intro p hp hle
    have hplen : p.length ≤ s.length := by
      rw [← hp, List.length_append]
      exact Nat.le_add_right _ _
    have hanswer := answer_of_le (hp.symm ▸ he) hle (hplen.trans hlen)
    rw [hp] at hanswer
    rw [receive, hanswer, settled]
    cases hsettle : settle opts s e p.length with
    | some outcome => rw [settle_mono hplen hsettle, Option.getD_some]
    | none =>
      refine ih (by rw [List.append_assoc]; exact hp) (hle.trans ?_)
      rw [List.length_append]
      exact Nat.le_add_right _ _

/-- A run in which the end of the head comes in the course of it: the head is complained about
early, or not at all. -/
theorem receive_of_lt (he : locate (crlf ++ crlf) s = some e)
    (hlen : s.length ≤ opts.maxTotalRequestBytes) : ∀ {reads : List Bytes} {p : Bytes},
      p ++ reads.flatten = s → p.length < e + 4 →
        receive opts p reads = settled opts s e ∨
          receive opts p reads = tooLarge ∧ opts.parseLimits.head + 1 < e + 4 := by
  have hend : e + 4 ≤ s.length := le_length_of_locate he
  intro reads
  induction reads with
  | nil =>
    intro p hp hlt
    rw [List.flatten_nil, List.append_nil] at hp
    subst hp
    omega
  | cons r reads ih =>
    intro p hp hlt
    rw [receive, answer_of_lt (hp.symm ▸ he) hlt (by omega)]
    split_ifs with hlong
    · exact .inr ⟨rfl, by omega⟩
    · have hp' : p ++ r ++ reads.flatten = s := by
        rw [List.append_assoc]
        exact hp
      rcases Nat.lt_or_ge (p ++ r).length (e + 4) with hlt' | hle'
      · exact ih hp' hlt'
      · exact .inl (receive_of_le he hlen hp' hle')

/-- A run in which no read can step over the bytes where the head is complained about. -/
theorem receive_of_far (he : locate (crlf ++ crlf) s = some e)
    (hlen : s.length ≤ opts.maxTotalRequestBytes)
    (hfar : opts.parseLimits.head + readSize < e + 4) : ∀ {reads : List Bytes} {p : Bytes},
      p ++ reads.flatten = s → (∀ r ∈ reads, r.length ≤ readSize) →
        p.length ≤ opts.parseLimits.head + readSize → receive opts p reads = tooLarge := by
  have hend : e + 4 ≤ s.length := le_length_of_locate he
  intro reads
  induction reads with
  | nil =>
    intro p hp _ hle
    rw [List.flatten_nil, List.append_nil] at hp
    subst hp
    omega
  | cons r reads ih =>
    intro p hp hreads hle
    obtain ⟨hr, hreads⟩ := List.forall_mem_cons.1 hreads
    rw [receive, answer_of_lt (hp.symm ▸ he) (by omega) (by omega)]
    split_ifs with hlong
    · rfl
    · refine ih (by rw [List.append_assoc]; exact hp) hreads ?_
      rw [List.length_append]
      omega

/-- A run over a stream whose head does not end. -/
theorem receive_of_none (hnone : locate (crlf ++ crlf) s = none)
    (hlen : s.length ≤ opts.maxTotalRequestBytes) : ∀ {reads : List Bytes} {p : Bytes},
      p ++ reads.flatten = s →
        receive opts p reads = if opts.parseLimits.head < s.length then tooLarge else .closed := by
  intro reads
  induction reads with
  | nil =>
    intro p hp
    rw [List.flatten_nil, List.append_nil] at hp
    subst hp
    rw [receive, answer_of_locate_none hnone hlen]
    split_ifs <;> rfl
  | cons r reads ih =>
    intro p hp
    have hplen : p.length ≤ s.length := by
      rw [← hp, List.length_append]
      exact Nat.le_add_right _ _
    have hpnone : locate (crlf ++ crlf) p = none := by
      cases hp' : locate (crlf ++ crlf) p with
      | none => rfl
      | some i => exact absurd ((locate_append hp' _).symm.trans (hp ▸ hnone)) (by simp)
    rw [receive, answer_of_locate_none hpnone (hplen.trans hlen)]
    split_ifs with hlong hlong'
    · rfl
    · omega
    · exact (ih (by rw [List.append_assoc]; exact hp)).trans (if_pos ‹_›)
    · exact (ih (by rw [List.append_assoc]; exact hp)).trans (if_neg ‹_›)

/-- Reads before the end of the head, that stay within the limit, are put together. -/
theorem receive_append (he : locate (crlf ++ crlf) s = some e)
    (hlen : s.length ≤ opts.maxTotalRequestBytes) : ∀ {reads rest : List Bytes} {p : Bytes},
      p ++ (reads ++ rest).flatten = s → (∀ r ∈ reads, r ≠ []) →
        (p ++ reads.flatten).length < e + 4 →
        (p ++ reads.flatten).length ≤ opts.parseLimits.head + 1 →
        receive opts p (reads ++ rest) = receive opts (p ++ reads.flatten) rest := by
  intro reads
  induction reads with
  | nil =>
    intro rest p _ _ _ _
    rw [List.flatten_nil, List.append_nil, List.nil_append]
  | cons r reads ih =>
    intro rest p hp hne hlt hle
    obtain ⟨hr, hne⟩ := List.forall_mem_cons.1 hne
    have hrlen := List.length_pos_iff.2 hr
    have hplen : p.length + r.length ≤ (p ++ r ++ reads.flatten).length := by
      rw [List.length_append, List.length_append]
      omega
    have hs : p.length ≤ s.length := by
      rw [← hp, List.length_append]
      exact Nat.le_add_right _ _
    rw [List.flatten_cons, ← List.append_assoc] at hlt hle ⊢
    rw [List.cons_append, receive, answer_of_lt (hp.symm ▸ he) (by omega) (by omega),
      if_neg (by omega)]
    refine ih ?_ hne hlt hle
    rw [List.append_assoc]
    exact hp

theorem receive_of_answer {p : Bytes} {outcome : Received} (h : answer opts p = some outcome)
    (reads : List Bytes) : receive opts p reads = outcome := by
  cases reads with
  | nil => rw [receive, h, Option.getD_some]
  | cons r reads => rw [receive, h]

end Runs

/-! ### Cuts -/

section Cuts

variable {opts : HttpServerOptions} {s : Bytes} {e : ℕ}

theorem SameOutcome.refl (outcome : Received) : SameOutcome outcome outcome := by
  cases outcome with
  | request req => exact rfl
  | failed e => exact rfl
  | closed => exact trivial

/-- Bytes read one at a time. -/
def oneByOne (s : Bytes) : List Bytes := s.map fun c ↦ [c]

@[simp] theorem flatten_oneByOne (s : Bytes) : (oneByOne s).flatten = s := by
  induction s with
  | nil => rfl
  | cons c s ih => exact congrArg (c :: ·) ih

theorem oneByOne_append (s t : Bytes) : oneByOne (s ++ t) = oneByOne s ++ oneByOne t :=
  List.map_append

theorem mem_oneByOne {s r : Bytes} (h : r ∈ oneByOne s) : r ≠ [] ∧ r.length ≤ readSize := by
  obtain ⟨c, -, rfl⟩ := List.mem_map.1 h
  exact ⟨List.cons_ne_nil c [], show 1 ≤ 8192 by decide⟩

theorem isCut_oneByOne (s : Bytes) : IsCut s (oneByOne s) :=
  ⟨flatten_oneByOne s, fun _ hr ↦ (mem_oneByOne hr).1, fun _ hr ↦ (mem_oneByOne hr).2⟩

theorem receive_oneByOne_append (he : locate (crlf ++ crlf) s = some e)
    (hlen : s.length ≤ opts.maxTotalRequestBytes) {p : Bytes} {rest : List Bytes}
    (hp : p ++ rest.flatten = s) (hlt : p.length < e + 4)
    (hle : p.length ≤ opts.parseLimits.head + 1) :
    receive opts [] (oneByOne p ++ rest) = receive opts p rest := by
  have hflat : [] ++ (oneByOne p).flatten = p := flatten_oneByOne p
  have hall : [] ++ (oneByOne p ++ rest).flatten = s := by
    rw [List.flatten_append, flatten_oneByOne]
    exact hp
  rw [receive_append he hlen hall (fun _ hr ↦ (mem_oneByOne hr).1) (hflat.symm ▸ hlt)
    (hflat.symm ▸ hle), hflat]

/-- Byte by byte, a head that ends behind the limit is complained about. -/
theorem receive_oneByOne (he : locate (crlf ++ crlf) s = some e)
    (hlen : s.length ≤ opts.maxTotalRequestBytes) (hlong : opts.parseLimits.head + 1 < e + 4) :
    receive opts [] (oneByOne s) = tooLarge := by
  have hend : e + 4 ≤ s.length := le_length_of_locate he
  have hsplit := List.take_append_drop (opts.parseLimits.head + 1) s
  have htake : (s.take (opts.parseLimits.head + 1)).length = opts.parseLimits.head + 1 :=
    List.length_take_of_le (by omega)
  have hparts : s.take (opts.parseLimits.head + 1) ++
      (oneByOne (s.drop (opts.parseLimits.head + 1))).flatten = s := by
    rw [flatten_oneByOne, hsplit]
  have happend := receive_oneByOne_append he hlen hparts (by omega) htake.le
  rw [← oneByOne_append, hsplit] at happend
  rw [happend]
  refine receive_of_answer ?_ _
  rw [answer_of_lt (hsplit.symm ▸ he) (by omega) (by omega), if_pos (by omega)]

/-- In a cut that steps over the bytes behind the limit, such a head is not complained about. -/
theorem exists_cut_settled (he : locate (crlf ++ crlf) s = some e)
    (hlen : s.length ≤ opts.maxTotalRequestBytes) (hlong : opts.parseLimits.head + 1 < e + 4)
    (hnear : e + 4 ≤ opts.parseLimits.head + readSize) :
    ∃ reads, IsCut s reads ∧ receive opts [] reads = settled opts s e := by
  have hend : e + 4 ≤ s.length := le_length_of_locate he
  let L := opts.parseLimits.head
  let r := (s.drop L).take (e + 4 - L)
  have hL : (s.take L).length = L := List.length_take_of_le (by omega)
  have hrlen : r.length = e + 4 - L := by
    rw [List.length_take, List.length_drop]
    omega
  have hr : s.take L ++ r = s.take (e + 4) := by
    have hadd : L + (e + 4 - L) = e + 4 := by omega
    rw [← hadd, List.take_add]
  have hflatten : (oneByOne (s.take L) ++ r :: oneByOne (s.drop (e + 4))).flatten = s := by
    rw [List.flatten_append, List.flatten_cons, flatten_oneByOne, flatten_oneByOne,
      ← List.append_assoc, hr, List.take_append_drop]
  refine ⟨oneByOne (s.take L) ++ r :: oneByOne (s.drop (e + 4)), ⟨hflatten, ?_, ?_⟩, ?_⟩
  · refine List.forall_mem_append.2 ⟨fun _ h ↦ (mem_oneByOne h).1, List.forall_mem_cons.2
      ⟨List.ne_nil_of_length_pos (by omega), fun _ h ↦ (mem_oneByOne h).1⟩⟩
  · refine List.forall_mem_append.2 ⟨fun _ h ↦ (mem_oneByOne h).2, List.forall_mem_cons.2
      ⟨by omega, fun _ h ↦ (mem_oneByOne h).2⟩⟩
  · have hparts : s.take L ++ (r :: oneByOne (s.drop (e + 4))).flatten = s := by
      rw [List.flatten_append, flatten_oneByOne] at hflatten
      exact hflatten
    rw [receive_oneByOne_append he hlen hparts (by omega) (by omega), receive,
      answer_of_lt (t := s.drop L) (by rw [List.take_append_drop]; exact he) (by omega) (by omega),
      if_neg (by omega), hr]
    refine receive_of_le he hlen ?_ ?_
    · rw [flatten_oneByOne, List.take_append_drop]
    · rw [List.length_take_of_le hend]

/-- Only a malformed head is answered as one that is too large. -/
theorem malformed_of_sameOutcome (h : SameOutcome tooLarge (settled opts s e)) :
    Malformed opts.parseLimits (s.take e) := by
  rw [settled, settle] at h
  cases hhead : parseHead opts.parseLimits (s.take e) with
  | error err =>
    rw [hhead] at h
    have hstatus : err.status = 400 := Eq.symm h
    exact (parseHead_error hhead).2.1 hstatus
  | ok out =>
    rw [hhead] at h
    dsimp only at h
    split_ifs at h
    · exact h.elim
    · exact h.elim

/-- **The outcome does not depend on the reads** exactly if the head ends within the limit or out
of the reach of a read from there, or does not end, or is malformed. -/
theorem sameOutcome_iff (hlen : s.length ≤ opts.maxTotalRequestBytes) :
    (∀ reads reads', IsCut s reads → IsCut s reads' →
        SameOutcome (receive opts [] reads) (receive opts [] reads')) ↔
      ∀ e, locate (crlf ++ crlf) s = some e →
        e + 4 ≤ opts.parseLimits.head + 1 ∨ opts.parseLimits.head + readSize < e + 4 ∨
          Malformed opts.parseLimits (s.take e) := by
  constructor
  · intro h e he
    by_contra hnot
    obtain ⟨hlong, hnot⟩ := not_or.1 hnot
    obtain ⟨hnear, hwell⟩ := not_or.1 hnot
    obtain ⟨reads, hcut, hsettled⟩ := exists_cut_settled he hlen (not_le.1 hlong) (not_lt.1 hnear)
    have hsame := h _ _ (isCut_oneByOne s) hcut
    rw [receive_oneByOne he hlen (not_le.1 hlong), hsettled] at hsame
    exact hwell (malformed_of_sameOutcome hsame)
  · intro h reads reads' hcut hcut'
    have hflat : ∀ {reads : List Bytes}, IsCut s reads → [] ++ reads.flatten = s := fun hcut ↦
      hcut.flatten_eq
    cases hend : locate (crlf ++ crlf) s with
    | none =>
      rw [receive_of_none hend hlen (hflat hcut), receive_of_none hend hlen (hflat hcut')]
      exact .refl _
    | some e =>
      rcases h e hend with hshort | hfar | hmalformed
      · have hnever : ∀ {reads : List Bytes}, IsCut s reads →
            receive opts [] reads = settled opts s e := fun hcut ↦
          (receive_of_lt hend hlen (hflat hcut) (Nat.zero_lt_succ _)).resolve_right fun hlong ↦ by
            omega
        rw [hnever hcut, hnever hcut']
        exact .refl _
      · rw [receive_of_far hend hlen hfar (hflat hcut) hcut.length_le (Nat.zero_le _),
          receive_of_far hend hlen hfar (hflat hcut') hcut'.length_le (Nat.zero_le _)]
        exact .refl _
      · obtain ⟨err, herr⟩ := parseHead_of_malformed hmalformed
        have hstatus := (parseHead_error herr).2.2 hmalformed
        have hfailed : ∀ {reads : List Bytes}, IsCut s reads →
            ∃ e' : HttpError, receive opts [] reads = .failed e' ∧ e'.status = 400 := fun hcut ↦ by
          rcases receive_of_lt hend hlen (hflat hcut) (Nat.zero_lt_succ _) with hrun | hrun
          · refine ⟨err, ?_, hstatus⟩
            rw [hrun, settled, settle, herr]
            rfl
          · exact ⟨_, hrun.1, rfl⟩
        obtain ⟨e₁, hrun₁, h₁⟩ := hfailed hcut
        obtain ⟨e₂, hrun₂, h₂⟩ := hfailed hcut'
        rw [hrun₁, hrun₂]
        exact h₁.trans h₂.symm

end Cuts

/-- The head of a request with a header of `n` bytes. -/
def wideHead (n : ℕ) : Bytes :=
  joinLines (str "GET / HTTP/1.1") [str "a:" ++ List.replicate n 97]

theorem wideHead_lines (n : ℕ) :
    lines (wideHead n) = [str "GET / HTTP/1.1", str "a:" ++ List.replicate n 97] := by
  refine lines_joinLines (by decide) (List.forall_mem_singleton.2 ?_)
  simp only [List.mem_append, not_or]
  exact ⟨by decide, fun h ↦ absurd (List.eq_of_mem_replicate h) (by decide)⟩

theorem locate_wideHead (n : ℕ) :
    locate (crlf ++ crlf) (wideHead n ++ (crlf ++ crlf)) = some (wideHead n).length := by
  have hplain : ∀ l ∈ [str "a:" ++ List.replicate n 97], l ≠ [] ∧ 13 ∉ l := by
    refine List.forall_mem_singleton.2 ⟨List.cons_ne_nil _ _, ?_⟩
    simp only [List.mem_append, not_or]
    exact ⟨by decide, fun h ↦ absurd (List.eq_of_mem_replicate h) (by decide)⟩
  have hblank := locate_blank_line [] (l := str "GET / HTTP/1.1") (by decide) hplain
  rwa [List.append_nil] at hblank

theorem not_malformed_wideHead (n : ℕ) : ¬Malformed {} (wideHead n) := by
  have hfirst : requestLine (wideHead n) = str "GET / HTTP/1.1" := by
    rw [requestLine, wideHead_lines]
    rfl
  have hrest : headerLines (wideHead n) = [str "a:" ++ List.replicate n 97] := by
    rw [headerLines, wideHead_lines]
    rfl
  have hcolon : headerOf (str "a:" ++ List.replicate n 97) =
      some (str "a", rTrimAscii (lTrimAscii (List.replicate n 97))) := by
    have hname : (58 : UInt8) ∉ str "a" := by decide
    have hfind : find (str "a:" ++ List.replicate n 97) (str ":") 0 = some 1 := by
      rw [find_zero]
      exact locate_singleton_append hname (List.replicate n 97)
    rw [headerOf, hfind]
    rfl
  rintro ⟨-, hnone | ⟨method, target, version, -, -, ⟨l, hl, -, hnone⟩ | ⟨value, hvalue, -⟩⟩⟩
  · rw [hfirst] at hnone
    exact absurd hnone (by decide)
  · rw [hrest] at hl
    obtain rfl := List.mem_singleton.1 hl
    rw [hcolon] at hnone
    cases hnone
  · rw [hrest, headersOf, List.filterMap_cons_some hcolon] at hvalue
    change (SortedMap.empty.insert (str "a") _).find? _ = _ at hvalue
    rw [SortedMap.find?_insert_of_ne _ (by decide)] at hvalue
    cases hvalue

theorem length_wideHead (n : ℕ) : (wideHead n).length = n + 18 := by
  rw [wideHead, joinLines, List.flatMap_singleton]
  simp only [List.length_append, List.length_replicate]
  show 14 + (2 + (2 + n)) = n + 18
  omega

theorem sameOutcome_iff_sample :
    locate (crlf ++ crlf) (wideHead 1 ++ (crlf ++ crlf)) = some 19 ∧
      ∀ reads reads', IsCut (wideHead 1 ++ (crlf ++ crlf)) reads →
        IsCut (wideHead 1 ++ (crlf ++ crlf)) reads' →
          SameOutcome (receive {} [] reads) (receive {} [] reads') := by
  have he := locate_wideHead 1
  rw [length_wideHead] at he
  refine ⟨he, (sameOutcome_iff ?_).2 fun e h ↦ Or.inl ?_⟩
  · rw [List.length_append, length_wideHead]
    decide
  · obtain rfl := Option.some.inj (he.symm.trans h)
    decide

/-- A wide head is too large byte by byte, and is not in larger reads. -/
theorem outcomes_wideHead {n : ℕ} (hlong : 40961 < n + 22) (hnear : n + 22 ≤ 49152) :
    ¬∀ reads reads', IsCut (wideHead n ++ (crlf ++ crlf)) reads →
      IsCut (wideHead n ++ (crlf ++ crlf)) reads' →
        SameOutcome (receive {} [] reads) (receive {} [] reads') := by
  intro h
  have he := locate_wideHead n
  have hhead := length_wideHead n
  have hlen : (wideHead n ++ (crlf ++ crlf)).length ≤
      ({} : HttpServerOptions).maxTotalRequestBytes := by
    rw [List.length_append, hhead]
    show n + 18 + 4 ≤ 67108864
    omega
  have hlong' : ({} : HttpServerOptions).parseLimits.head + 1 < (wideHead n).length + 4 := by
    rw [hhead]
    exact hlong
  have hnear' : (wideHead n).length + 4 ≤ ({} : HttpServerOptions).parseLimits.head + readSize := by
    rw [hhead]
    exact hnear
  obtain ⟨reads, hcut, hsettled⟩ := exists_cut_settled he hlen hlong' hnear'
  have hsame := h _ _ (isCut_oneByOne _) hcut
  rw [receive_oneByOne he hlen hlong', hsettled] at hsame
  have hmalformed := malformed_of_sameOutcome hsame
  rw [List.take_left] at hmalformed
  exact not_malformed_wideHead n hmalformed

/-- Read byte by byte, a head of 41018 bytes is too large; in larger reads, it is not. -/
theorem not_sameOutcome : ¬∀ (opts : HttpServerOptions) (s : Bytes),
    s.length ≤ opts.maxTotalRequestBytes → ∀ reads reads', IsCut s reads → IsCut s reads' →
      SameOutcome (receive opts [] reads) (receive opts [] reads') := by
  intro h
  have hlen : (wideHead 41000 ++ (crlf ++ crlf)).length ≤
      ({} : HttpServerOptions).maxTotalRequestBytes := by
    rw [List.length_append, length_wideHead]
    decide
  have hlong : 40961 < 41000 + 22 := by decide
  have hnear : 41000 + 22 ≤ 49152 := by decide
  exact outcomes_wideHead hlong hnear (h {} _ hlen)

end Spp.Http
