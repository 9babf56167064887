import SearchPlusPlus.Http.Router
import SearchPlusPlus.Json.Serializer
import SearchPlusPlus.Lib.LexicalPath

/-!
# The directory of an index

Which directory `CreateIndex` makes for a request. `Sanitize` keeps names to letters, digits, `_`,
`-` and `.`, so that a name is one part of a path; but `.` and `..` are parts of a path that are no
names of directories (`staysInside_iff`).
-/

namespace Spp.Server

open Http LexicalPath

/-- The handlers of the server. -/
inductive Handler where
  | health
  | createIndex
  | postDoc
  | refresh
  | search
  | getLtr
  | putLtrLinear
  deriving DecidableEq

/-- `BuildRoutes`. -/
def routes : List (Route Handler) :=
  [route "GET" "/_health" .health,
    route "PUT" "/:index" .createIndex,
    route "POST" "/:index/_doc" .postDoc,
    route "POST" "/:index/_refresh" .refresh,
    route "GET" "/:index/_search" .search,
    route "GET" "/:index/_ltr" .getLtr,
    route "PUT" "/:index/_ltr/linear" .putLtrLinear]

/-- The bytes that `Sanitize` keeps. -/
def isNameByte (c : UInt8) : Bool :=
  (97 ≤ c && c ≤ 122) || (65 ≤ c && c ≤ 90) || (48 ≤ c && c ≤ 57) || c = 95 || c = 45 || c = 46

/-- `Sanitize`. -/
def sanitize (rawName : Bytes) : Bytes := rawName.filter isNameByte

section Name

variable [LibcDecimal]

/-- `ErrorJson`. -/
def errorJson (status : ℕ) (type reason : Bytes) : HttpResponse where
  status := status
  headers := SortedMap.empty.insert (str "Content-Type") (str "application/json")
  body := Json.serialize (Json.mkObject [(str "error",
    Json.mkObject [(str "type", .string type), (str "reason", .string reason)])])

/-- The name of the index that `CreateIndex` is asked for. -/
def indexName (req : HttpRequest) : Except HttpResponse Bytes :=
  match req.pathParams.find? (str "index") with
  | none => .error (errorJson 400 (str "bad_request") (str "missing index name"))
  | some raw =>
    let name := sanitize raw
    if name = [] ∨ name ≠ raw then
      .error (errorJson 400 (str "invalid_index_name") (str "index name has forbidden characters"))
    else .ok name

end Name

/-! ### Paths -/

/-- `std::filesystem::path::operator/`. -/
def joinPath (dir name : Bytes) : Bytes :=
  if name.head? = some 47 then name
  else if dir = [] ∨ dir.getLast? = some 47 then dir ++ name
  else dir ++ str "/" ++ name

/-- A part of a path, from its text. -/
def partOf (s : Bytes) : PathPart Bytes :=
  if s = str "." then .here else if s = str ".." then .up else .entry s

theorem partOf_eq_entry_iff {s : Bytes} :
    (∃ x, partOf s = .entry x) ↔ s ≠ str "." ∧ s ≠ str ".." := by
  rw [partOf]
  split_ifs with hdot hup
  · exact iff_of_false (fun ⟨x, h⟩ ↦ by cases h) fun h ↦ h.1 hdot
  · exact iff_of_false (fun ⟨x, h⟩ ↦ by cases h) fun h ↦ h.2 hup
  · exact iff_of_true ⟨s, rfl⟩ ⟨hdot, hup⟩

/-- The text of a part. -/
def textOf : PathPart Bytes → Bytes
  | .here => str "."
  | .up => str ".."
  | .entry s => s

theorem textOf_partOf (s : Bytes) : textOf (partOf s) = s := by
  rw [partOf]
  split_ifs with hdot hup
  · exact hdot.symm
  · exact hup.symm
  · rfl

/-- The texts of the parts of a path. -/
def pathParts (path : Bytes) : List Bytes := (path.splitOn 47).filter (· ≠ [])

/-- Where a path leads. -/
def location (path : Bytes) : Place Bytes :=
  Place.walk ⟨path.head? = some 47, 0, []⟩ ((pathParts path).map partOf)

/-- The directory that `CreateIndex` makes and opens. -/
def indexPath (indexDir name : Bytes) : Bytes := joinPath indexDir name

theorem pathParts_append (dir name : Bytes) :
    pathParts (dir ++ 47 :: name) = pathParts dir ++ pathParts name := by
  rw [pathParts, List.splitOn_append_cons_self, List.filter_append]
  rfl

theorem pathParts_of_notMem {name : Bytes} (hne : name ≠ []) (hname : 47 ∉ name) :
    pathParts name = [name] := by
  rw [pathParts, List.splitOn_eq_singleton hname]
  simp [hne]

/-- A name put behind a directory is one part further. -/
theorem location_joinPath (dir : Bytes) {name : Bytes} (hne : name ≠ []) (hname : 47 ∉ name) :
    location (joinPath dir name) = (location dir).step (partOf name) := by
  have hhead : name.head? ≠ some 47 := fun h ↦ hname (List.mem_of_head? h)
  have hparts : ∀ {path : Bytes}, path.head? = dir.head? ∨ dir = [] ∧ path = name →
      pathParts path = pathParts dir ++ [name] →
      location path = (location dir).step (partOf name) := by
    intro path hroot hsplit
    have habsolute : (path.head? = some 47) ↔ (dir.head? = some 47) := by
      rcases hroot with heq | ⟨rfl, rfl⟩
      · rw [heq]
      · exact iff_of_false hhead (by simp)
    simp only [location, habsolute, hsplit, List.map_append, Place.walk_append]
    rfl
  rw [joinPath, if_neg hhead]
  split_ifs with hend
  · rcases hend with rfl | hlast
    · exact hparts (.inr ⟨rfl, rfl⟩) (pathParts_of_notMem hne hname)
    · obtain ⟨pre, rfl⟩ := List.getLast?_eq_some_iff.1 hlast
      have hpre : pathParts (pre ++ [47]) = pathParts pre := by
        rw [pathParts_append]
        exact List.append_nil _
      refine hparts (.inl ?_) ?_
      · cases pre <;> rfl
      · rw [hpre, List.append_assoc]
        exact (pathParts_append pre name).trans (by rw [pathParts_of_notMem hne hname])
  · have hne' : dir ≠ [] := fun h ↦ hend (.inl h)
    refine hparts (.inl ?_) ?_
    · cases dir with
      | nil => exact absurd rfl hne'
      | cons c dir => rfl
    · rw [List.append_assoc]
      exact (pathParts_append dir name).trans (by rw [pathParts_of_notMem hne hname])

/-! ### Accepted names -/

section Accepted

variable [LibcDecimal] {req req' : HttpRequest} {name name' : Bytes}

/-- A request that reaches `CreateIndex`, with a name that passes. -/
def Accepts (req : HttpRequest) (name : Bytes) : Prop :=
  ∃ req', dispatch routes req = .ok (.createIndex, req') ∧ indexName req' = .ok name

/-- The directory of a name is a child of the root, and of no other accepted name. -/
def StaysInside (indexDir name : Bytes) : Prop :=
  Place.IsChild (location (indexPath indexDir name)) (location indexDir) ∧
    ∀ req' name', Accepts req' name' → name' ≠ name →
      location (indexPath indexDir name') ≠ location (indexPath indexDir name)

theorem indexName_plain (h : indexName req = .ok name) : name ≠ [] ∧ 47 ∉ name := by
  rw [indexName] at h
  split at h
  · cases h
  · dsimp only at h
    split_ifs at h with hbad
    obtain ⟨hne, -⟩ := not_or.1 hbad
    obtain rfl := Except.ok.inj h
    exact ⟨hne, fun hmem ↦ absurd (List.mem_filter.1 hmem).2 (by decide)⟩

/-- **A created index stays inside the root**, in a directory of its own, exactly if its name is
neither `.` nor `..`. -/
theorem staysInside_iff (indexDir : Bytes) (h : Accepts req name) :
    StaysInside indexDir name ↔ name ≠ str "." ∧ name ≠ str ".." := by
  have hlocation : ∀ {req name}, Accepts req name →
      location (indexPath indexDir name) = (location indexDir).step (partOf name) := by
    rintro req name ⟨req', -, hname⟩
    obtain ⟨hne, hslash⟩ := indexName_plain hname
    exact location_joinPath indexDir hne hslash
  rw [StaysInside, hlocation h, Place.isChild_step_iff, ← partOf_eq_entry_iff]
  refine and_iff_left_of_imp fun ⟨x, hx⟩ req' name' h' hne heq ↦ hne ?_
  rw [hlocation h', hx] at heq
  have hpart : partOf name' = partOf name := (Place.eq_of_step_eq heq).trans hx.symm
  rw [← textOf_partOf name', hpart, textOf_partOf]

end Accepted

/-- `PUT /<name>`. -/
def putIndex (name : String) : HttpRequest where
  method := str "PUT"
  target := str "/" ++ str name
  path := str "/" ++ str name
  version := str "HTTP/1.1"

theorem staysInside_iff_sample :
    @StaysInside .integral (str "/data") (str "wiki") ↔
      str "wiki" ≠ str "." ∧ str "wiki" ≠ str ".." := by
  have h : @Accepts .integral (putIndex "wiki") (str "wiki") :=
    ⟨{ putIndex "wiki" with pathParams := SortedMap.empty.insert (str "index") (str "wiki") },
      rfl, rfl⟩
  exact @staysInside_iff .integral (putIndex "wiki") (str "wiki") (str "/data") h

/-- `PUT /..` is accepted, and leads out of the root. -/
theorem not_staysInside : ¬∀ (req : HttpRequest) (name indexDir : Bytes),
    @Accepts .integral req name → @StaysInside .integral indexDir name := by
  intro h
  have haccepts : @Accepts .integral (putIndex "..") (str "..") :=
    ⟨{ putIndex ".." with pathParams := SortedMap.empty.insert (str "index") (str "..") },
      rfl, rfl⟩
  obtain ⟨⟨name, hname⟩, -⟩ := h _ _ (str "/data") haccepts
  -- from `/data` it leads to the root, which has no name
  have hnames : ([] : List Bytes) = [str "data"] ++ [name] := congrArg Place.names hname
  exact absurd hnames (by simp)

end Spp.Server
