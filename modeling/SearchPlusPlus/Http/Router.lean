import SearchPlusPlus.Http.HttpParser

/-!
# Router

`Router::Split`, `Match` and `Dispatch`. A handler is a value of any type, which `dispatch` returns
with the request that the handler is called with.
-/

namespace Spp.Http

open Substring

variable {H : Type}

/-- `Route`. -/
structure Route (H : Type) where
  method : Bytes
  segments : List Bytes
  handler : H

/-- The second loop of `Split`. Every round takes up a byte. -/
def splitLoop : ℕ → Bytes → List Bytes
  | 0, _ => []
  | fuel + 1, path =>
    if path = [] then []
    else
      match find path (str "/") 0 with
      | none => [path]
      | some j => (if 0 < j then [path.take j] else []) ++ splitLoop fuel (path.drop (j + 1))

/-- `Router::Split`. -/
def split (path : Bytes) : List Bytes :=
  splitLoop path.length (path.dropWhile (· = 47))

/-- `Router::Add`. -/
def route (method pattern : String) (handler : H) : Route H :=
  { method := str method, segments := split (str pattern), handler }

/-- The body of the loop of `Match`: a segment that starts with a colon is captured. -/
def capture (captured : SortedMap Bytes Bytes) (p : Bytes × Bytes) :
    Option (SortedMap Bytes Bytes) :=
  if p.1.head? = some 58 then some (captured.insert (p.1.drop 1) p.2)
  else if p.1 ≠ p.2 then none
  else some captured

/-- `Router::Match`, with what it captures. -/
def matchRoute (r : Route H) (segs : List Bytes) : Option (SortedMap Bytes Bytes) :=
  if r.segments.length ≠ segs.length then none
  else (r.segments.zip segs).foldlM capture .empty

/-- What `Dispatch` responds when no route is taken. -/
def notDispatched (anyPathMatched : Bool) : HttpResponse :=
  if anyPathMatched then
    { status := 405
      body := str "\x7b\"error\":\x7b\"type\":\"method_not_allowed\"," ++
        str "\"reason\":\"method not allowed for this path\"\x7d\x7d" }
  else
    { status := 404
      body := str "\x7b\"error\":\x7b\"type\":\"not_found\"," ++
        str "\"reason\":\"no route matches this path\"\x7d\x7d" }

/-- The loop of `Dispatch`. -/
def dispatchLoop (req : HttpRequest) (segs : List Bytes) :
    Bool → List (Route H) → Except HttpResponse (H × HttpRequest)
  | anyPathMatched, [] => .error (notDispatched anyPathMatched)
  | anyPathMatched, r :: routes =>
    match matchRoute r segs with
    | none => dispatchLoop req segs anyPathMatched routes
    | some captured =>
      if r.method = req.method then .ok (r.handler, { req with pathParams := captured })
      else dispatchLoop req segs true routes

/-- `Router::Dispatch`, up to the call of the handler. -/
def dispatch (routes : List (Route H)) (req : HttpRequest) :
    Except HttpResponse (H × HttpRequest) :=
  dispatchLoop req (split req.path) false routes

/-! ### Parts of a path -/

/-- The parts of a path: what is between its slashes, unless that is empty. -/
def urlParts (path : Bytes) : List Bytes := (path.splitOn 47).filter (· ≠ [])

theorem urlParts_of_notMem {path : Bytes} (hne : path ≠ []) (h : 47 ∉ path) :
    urlParts path = [path] := by
  have hsplit : path.splitOn 47 = [path] := List.splitOnP_eq_singleton fun c hc ↦ by
    rw [beq_eq_false_iff_ne]
    exact fun hslash ↦ h (hslash ▸ hc)
  rw [urlParts, hsplit, List.filter_cons_of_pos (by simpa using hne), List.filter_nil]

theorem urlParts_append {part : Bytes} (rest : Bytes) (h : 47 ∉ part) :
    urlParts (part ++ 47 :: rest) = (if 0 < part.length then [part] else []) ++ urlParts rest := by
  have hsplit : part.splitOn 47 = [part] := List.splitOnP_eq_singleton fun c hc ↦ by
    rw [beq_eq_false_iff_ne]
    exact fun hslash ↦ h (hslash ▸ hc)
  have hparts : (part ++ 47 :: rest).splitOn 47 = part.splitOn 47 ++ rest.splitOn 47 :=
    List.splitOnP_append_cons part rest (beq_self_eq_true 47)
  rw [urlParts, hparts, hsplit, List.filter_append, urlParts]
  congr 1
  cases part with
  | nil => rfl
  | cons c part => rfl

theorem splitLoop_eq : ∀ {fuel : ℕ} {path : Bytes}, path.length ≤ fuel →
    splitLoop fuel path = urlParts path := by
  intro fuel
  induction fuel with
  | zero =>
    intro path hfuel
    obtain rfl := List.length_eq_zero_iff.1 (Nat.le_zero.1 hfuel)
    rfl
  | succ fuel ih =>
    intro path hfuel
    rw [splitLoop]
    split_ifs with hnil
    · subst hnil
      rfl
    rw [find_zero]
    cases hslash : locate (str "/") path with
    | none =>
      have hnot : 47 ∉ path := locate_singleton_eq_none_iff.1 hslash
      exact (urlParts_of_notMem hnil hnot).symm
    | some j =>
      obtain ⟨hnot, hsplit⟩ : 47 ∉ path.take j ∧ path = path.take j ++ 47 :: path.drop (j + 1) :=
        exists_append_of_locate_singleton hslash
      have hle : j + 1 ≤ path.length := le_length_of_locate hslash
      have hlen : (path.take j).length = j := List.length_take_of_le (by omega)
      have hrest : splitLoop fuel (path.drop (j + 1)) = urlParts (path.drop (j + 1)) :=
        ih (by rw [List.length_drop]; omega)
      have hparts := urlParts_append (path.drop (j + 1)) hnot
      rw [← hsplit, hlen] at hparts
      show (if 0 < j then [path.take j] else []) ++ splitLoop fuel (path.drop (j + 1)) = _
      rw [hrest, hparts]

/-- **`Split` finds the parts of a path.** -/
theorem split_eq (path : Bytes) : split path = urlParts path := by
  have hskip : urlParts (path.dropWhile (· = 47)) = urlParts path := by
    induction path with
    | nil => rfl
    | cons c path ih =>
      by_cases hc : c = 47
      · subst hc
        rw [List.dropWhile_cons_of_pos (by decide), ih]
        exact (urlParts_append path (List.not_mem_nil)).symm
      · rw [List.dropWhile_cons_of_neg (by simpa using hc)]
  rw [split, splitLoop_eq (List.length_dropWhile_le _ _), hskip]

/-! ### Routes -/

/-- A segment of a route stands for a part of a path if it is that part, or starts with a colon. -/
def Stands (segment part : Bytes) : Prop := segment.head? = some 58 ∨ segment = part

instance : DecidableRel Stands := fun _ _ ↦ inferInstanceAs (Decidable (_ ∨ _))

/-- The segments of a route stand for the parts of a path, one for one. -/
def Route.Matches (r : Route H) (path : Bytes) : Prop :=
  List.Forall₂ Stands r.segments (urlParts path)

instance (r : Route H) (path : Bytes) : Decidable (r.Matches path) :=
  inferInstanceAs (Decidable (List.Forall₂ _ _ _))

/-- What a route captures under a name: the part that the last segment with that name stands for. -/
def Route.captured (r : Route H) (path name : Bytes) : Option Bytes :=
  Assoc.find? (58 :: name) (r.segments.zip (urlParts path)).reverse

/-- The name and the part, if the segment starts with a colon. -/
def captureOf (p : Bytes × Bytes) : Option (Bytes × Bytes) :=
  if p.1.head? = some 58 then some (p.1.drop 1, p.2) else none

theorem foldlM_capture_iff {ps : List (Bytes × Bytes)}
    {captured captured' : SortedMap Bytes Bytes} : ps.foldlM capture captured = some captured' ↔
      (∀ p ∈ ps, Stands p.1 p.2) ∧
        captured' = (ps.filterMap captureOf).foldl (fun m p ↦ m.insert p.1 p.2) captured := by
  induction ps generalizing captured with
  | nil => simp [eq_comm]
  | cons p ps ih =>
    rw [List.foldlM_cons, List.forall_mem_cons, Stands]
    by_cases hcolon : p.1.head? = some 58
    · have hcapture : capture captured p = some (captured.insert (p.1.drop 1) p.2) := if_pos hcolon
      have hsome : captureOf p = some (p.1.drop 1, p.2) := if_pos hcolon
      rw [hcapture, List.filterMap_cons_some hsome]
      exact ih.trans (by simp [hcolon])
    · have hnone : captureOf p = none := if_neg hcolon
      rw [capture, if_neg hcolon, List.filterMap_cons_none hnone]
      by_cases hsame : p.1 = p.2
      · rw [if_neg (not_not_intro hsame)]
        exact ih.trans (by simp [hsame])
      · rw [if_pos hsame]
        simp [hcolon, hsame]

theorem captureOf_eq_iff {p : Bytes × Bytes} {name value : Bytes} :
    captureOf p = some (name, value) ↔ p = (58 :: name, value) := by
  obtain ⟨segment, part⟩ := p
  cases segment with
  | nil => simp [captureOf]
  | cons c segment =>
    by_cases hc : c = 58
    · subst hc
      simp [captureOf]
    · simp [captureOf, hc]

theorem find?_captureOf (ps : List (Bytes × Bytes)) (name : Bytes) :
    Assoc.find? name (ps.filterMap captureOf) = Assoc.find? (58 :: name) ps := by
  induction ps with
  | nil => rfl
  | cons p ps ih =>
    cases hp : captureOf p with
    | none =>
      have hne : 58 :: name ≠ p.1 := fun h ↦ by
        have hsome : captureOf p = some (name, p.2) := captureOf_eq_iff.2 (Prod.ext h.symm rfl)
        cases hp.symm.trans hsome
      rw [List.filterMap_cons_none hp, ih, Assoc.find?_cons, if_neg hne]
    | some q =>
      obtain ⟨name', value⟩ := q
      obtain rfl := captureOf_eq_iff.1 hp
      rw [List.filterMap_cons_some hp, Assoc.find?_cons, Assoc.find?_cons, ih]
      simp

/-- **`Match`**: it fails unless the segments stand for the parts, and captures the parts. -/
theorem matchRoute_spec (r : Route H) (path : Bytes) :
    (¬r.Matches path ∧ matchRoute r (split path) = none) ∨
      r.Matches path ∧ ∃ captured, matchRoute r (split path) = some captured ∧
        ∀ name, captured.find? name = r.captured path name := by
  rw [split_eq, Route.Matches, List.forall₂_iff_zip, matchRoute]
  by_cases hlen : r.segments.length = (urlParts path).length
  · rw [if_neg (not_not_intro hlen)]
    cases hcaptured : (r.segments.zip (urlParts path)).foldlM capture .empty with
    | some captured =>
      obtain ⟨hall, rfl⟩ := foldlM_capture_iff.1 hcaptured
      refine Or.inr ⟨⟨hlen, fun h ↦ hall _ h⟩, _, rfl, fun name ↦ ?_⟩
      rw [SortedMap.find?_foldl_insert, ← List.filterMap_reverse, find?_captureOf]
      exact Option.or_none
    | none =>
      refine Or.inl ⟨fun h ↦ ?_, rfl⟩
      cases hcaptured.symm.trans (foldlM_capture_iff.2 ⟨fun p hp ↦ h.2 hp, rfl⟩)
  · rw [if_pos hlen]
    exact Or.inl ⟨fun h ↦ hlen h.1, rfl⟩

/-- The route that is taken: the first of those that match the path and have the method. -/
def taken (routes : List (Route H)) (req : HttpRequest) : Option (Route H) :=
  routes.find? fun r ↦ r.Matches req.path ∧ r.method = req.method

theorem dispatchLoop_spec (req : HttpRequest) (routes : List (Route H)) (anyPathMatched : Bool) :
    (∃ r captured, taken routes req = some r ∧
      dispatchLoop req (split req.path) anyPathMatched routes =
        .ok (r.handler, { req with pathParams := captured }) ∧
      ∀ name, captured.find? name = r.captured req.path name) ∨
    taken routes req = none ∧ dispatchLoop req (split req.path) anyPathMatched routes =
      .error (notDispatched (anyPathMatched || routes.any fun r ↦ r.Matches req.path)) := by
  induction routes generalizing anyPathMatched with
  | nil => exact Or.inr ⟨rfl, by simp [dispatchLoop]⟩
  | cons r routes ih =>
    rw [dispatchLoop]
    rcases matchRoute_spec r req.path with ⟨hnot, hnone⟩ | ⟨hmatches, captured, hsome, hcaptured⟩
    · have hskip : taken (r :: routes) req = taken routes req :=
        List.find?_cons_of_neg (by simp [hnot])
      rw [hskip, hnone]
      simpa [hnot] using ih anyPathMatched
    · rw [hsome]
      by_cases hmethod : r.method = req.method
      · have htaken : taken (r :: routes) req = some r :=
          List.find?_cons_of_pos (by simp [hmatches, hmethod])
        exact Or.inl ⟨r, captured, htaken, if_pos hmethod, hcaptured⟩
      · have hskip : taken (r :: routes) req = taken routes req :=
          List.find?_cons_of_neg (by simp [hmethod])
        rw [hskip]
        simpa [hmatches, hmethod] using ih true

/-- **A request goes to the first route that matches its path and has its method**, with the parts
of the path that the route names. Without one the response is 405 if some route matches the path,
and 404 if none does. -/
theorem dispatch_spec (routes : List (Route H)) (req : HttpRequest) :
    (∃ r captured, taken routes req = some r ∧
      dispatch routes req = .ok (r.handler, { req with pathParams := captured }) ∧
      ∀ name, captured.find? name = r.captured req.path name) ∨
    taken routes req = none ∧
      dispatch routes req = .error (notDispatched (routes.any fun r ↦ r.Matches req.path)) :=
  dispatchLoop_spec req routes false

end Spp.Http
