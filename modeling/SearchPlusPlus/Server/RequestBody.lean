import SearchPlusPlus.Index.Document
import SearchPlusPlus.Index.Schema
import SearchPlusPlus.Server.IndexDirectory

/-!
# The bodies of requests

The schema that `CreateIndex` makes of the body of a request, and the document that `PostDoc`
makes of one. A member of the posted object reaches one part of the document only, so each part is
read off the object by the key it comes under (`find?_fields_postedDocument`,
`find?_weights_postedDocument`, `docQuality_postedDocument`).
-/

namespace Spp.Server

open Http Index Json

variable [LibcDecimal]

/-- The parsed body of a request. -/
def parseBody (body : Bytes) : Except HttpResponse JsonValue :=
  match parse body with
  | .ok v => .ok v
  | .error e => .error (errorJson 400 (str "bad_request") e.message)

/-- The part of `CreateIndex` that reads the body. -/
def createdSchema (body : Bytes) : Except HttpResponse Schema := do
  let parsed ← parseBody body
  match parsed.find (str "mappings") with
  | some (.object mappings) =>
    match Schema.fromMappingsJson (.object mappings) with
    | .ok schema => .ok schema
    | .error e => .error (errorJson 400 (str "bad_request") e.message)
  | _ => .error (errorJson 400 (str "bad_request") (str "missing \"mappings\" object"))

/-! ### Documents -/

/-- The name before `_weights`. -/
def weightsField (k : Bytes) : Option Bytes :=
  if 8 < k.length ∧ k.drop (k.length - 8) = str "_weights" then some (k.take (k.length - 8))
  else none

/-- The weights that `PostDoc` takes from an array: its numbers. -/
def numberWeights (a : JsonArray) : List F32 :=
  (a.filter JsonValue.isNumber).map fun wv ↦ wv.asDouble.toF32

/-- The text that a value is indexed as, if any. -/
def fieldText : JsonValue → Option Bytes
  | .string s => some s
  | .int i => some (LibcDecimal.toString (F64.ofInt64 i))
  | .double d => some (LibcDecimal.toString d)
  | .bool b => some (if b then str "true" else str "false")
  | _ => none

/-- The round of the loop of `PostDoc` for a member that is neither weights nor quality. -/
def readField (doc : Document) (k : Bytes) (v : JsonValue) : Document :=
  match fieldText v with
  | some text => { doc with fields := doc.fields.insert k text }
  | none => doc

/-- The round of the loop of `PostDoc` for a member that is no array of weights. -/
def readValue (doc : Document) (k : Bytes) (v : JsonValue) : Document :=
  if k = str "_quality" ∧ v.isNumber then { doc with docQuality := some v.asDouble.toF32 }
  else readField doc k v

/-- One round of the loop of `PostDoc`. -/
def readMember (doc : Document) (p : Bytes × JsonValue) : Document :=
  if p.1 = str "_id" then doc
  else
    match weightsField p.1, p.2 with
    | some field, .array a =>
      { doc with fieldTokenWeights := doc.fieldTokenWeights.insert field (numberWeights a) }
    | _, v => readValue doc p.1 v

/-- The document that `PostDoc` makes of an object. -/
def postedDocument (obj : JsonObject) : Document :=
  obj.foldl readMember { id := ((JsonValue.object obj).findString (str "_id")).getD [] }

/-- The part of `PostDoc` that reads the body. -/
def readDocument (body : Bytes) : Except HttpResponse Document := do
  match ← parseBody body with
  | .object obj => .ok (postedDocument obj)
  | _ => .error (errorJson 400 (str "bad_request") (str "doc must be a JSON object"))

/-! ### Documents by key -/

omit [LibcDecimal] in
theorem weightsField_eq_some_iff {k field : Bytes} (hfield : field ≠ []) :
    weightsField k = some field ↔ k = field ++ str "_weights" := by
  have hlen : (str "_weights").length = 8 := rfl
  rw [weightsField]
  constructor
  · intro h
    split_ifs at h with hk
    obtain rfl := Option.some.inj h
    conv_lhs => rw [← List.take_append_drop (k.length - 8) k, hk.2]
  · rintro rfl
    have hpos := List.length_pos_of_ne_nil hfield
    have hsub : (field ++ str "_weights").length - 8 = field.length := by
      rw [List.length_append, hlen, Nat.add_sub_cancel]
    rw [hsub, List.drop_left, List.take_left, List.length_append, hlen,
      if_pos ⟨by omega, rfl⟩]

theorem fieldTokenWeights_readValue (doc : Document) (k : Bytes) (v : JsonValue) :
    (readValue doc k v).fieldTokenWeights = doc.fieldTokenWeights := by
  rw [readValue, readField]
  split_ifs
  · rfl
  · split <;> rfl

/-- The weights of a value under the key of a field's weights. -/
def arrayWeights : JsonValue → Option (List F32)
  | .array a => some (numberWeights a)
  | _ => none

/-- A field of weights takes an array and nothing else. -/
theorem readMember_weights {field : Bytes} (hfield : field ≠ []) (doc : Document) (v : JsonValue) :
    readMember doc (field ++ str "_weights", v) =
      (arrayWeights v).elim (readValue doc (field ++ str "_weights") v) fun ws ↦
        { doc with fieldTokenWeights := doc.fieldTokenWeights.insert field ws } := by
  have hid : field ++ str "_weights" ≠ str "_id" := fun h ↦ by
    have hlen := congrArg List.length h
    rw [List.length_append] at hlen
    exact absurd hlen (by simp [str])
  rw [readMember, if_neg hid]
  simp only [(weightsField_eq_some_iff hfield).2 rfl]
  cases v <;> rfl

/-- The text that a value under a key is indexed as: a number is the quality of the document under
its key. -/
def indexedText (k : Bytes) (v : JsonValue) : Option Bytes :=
  if k = str "_quality" ∧ v.isNumber then none else fieldText v

variable {obj : JsonObject}

/-- **The weights of a posted field.** -/
theorem find?_weights_postedDocument (hobj : Assoc.Sorted obj) {field : Bytes}
    (hfield : field ≠ []) : (postedDocument obj).fieldTokenWeights.find? field =
      (Assoc.find? (field ++ str "_weights") obj).bind arrayWeights := by
  have hother : ∀ doc p, p.1 ≠ field ++ str "_weights" →
      (readMember doc p).fieldTokenWeights.find? field = doc.fieldTokenWeights.find? field := by
    intro doc p hp
    rw [readMember]
    split_ifs
    · rfl
    · split
      · next field' a hk _ =>
        have hne : field ≠ field' := fun heq ↦
          hp ((weightsField_eq_some_iff hfield).1 (heq ▸ hk))
        exact SortedMap.find?_insert_of_ne _ hne _
      · rw [fieldTokenWeights_readValue]
  have hkey : ∀ doc v, (readMember doc (field ++ str "_weights", v)).fieldTokenWeights.find? field =
      (arrayWeights v).or (doc.fieldTokenWeights.find? field) := by
    intro doc v
    rw [readMember_weights hfield]
    cases arrayWeights v with
    | none =>
      rw [Option.elim_none, fieldTokenWeights_readValue]
      rfl
    | some ws => exact SortedMap.find?_insert_self ..
  refine (Assoc.foldl_part (fun doc : Document ↦ doc.fieldTokenWeights.find? field) _
    (fun v old ↦ (arrayWeights v).or old) hother hkey hobj _).trans ?_
  cases Assoc.find? (field ++ str "_weights") obj with
  | none => rfl
  | some v => exact Option.or_none

/-- **The text of a posted field.** -/
theorem find?_fields_postedDocument (hobj : Assoc.Sorted obj) {k : Bytes} (hk : k ≠ str "_id") :
    (postedDocument obj).fields.find? k = (Assoc.find? k obj).bind (indexedText k) := by
  have hother : ∀ doc p, p.1 ≠ k → (readMember doc p).fields.find? k = doc.fields.find? k := by
    intro doc p hp
    rw [readMember]
    split_ifs
    · rfl
    · split
      · rfl
      · rw [readValue, readField]
        split_ifs
        · rfl
        · split
          · exact SortedMap.find?_insert_of_ne _ (Ne.symm hp) _
          · rfl
  have hkey : ∀ doc v, (readMember doc (k, v)).fields.find? k =
      (indexedText k v).or (doc.fields.find? k) := by
    intro doc v
    rw [readMember, if_neg hk]
    split
    · next hv =>
      obtain rfl : v = _ := hv
      rw [indexedText, if_neg fun h ↦ Bool.false_ne_true h.2]
      rfl
    · rw [readValue, indexedText, readField]
      split_ifs
      · rfl
      · cases fieldText v with
        | none => rfl
        | some text => exact SortedMap.find?_insert_self ..
  refine (Assoc.foldl_part (fun doc : Document ↦ doc.fields.find? k) k
    (fun v old ↦ (indexedText k v).or old) hother hkey hobj _).trans ?_
  cases Assoc.find? k obj with
  | none => rfl
  | some v => exact Option.or_none

/-- **The quality of a posted document.** -/
theorem docQuality_postedDocument (hobj : Assoc.Sorted obj) : (postedDocument obj).docQuality =
    ((JsonValue.object obj).findNumber (str "_quality")).map F64.toF32 := by
  have hother : ∀ doc p, p.1 ≠ str "_quality" → (readMember doc p).docQuality = doc.docQuality := by
    intro doc p hp
    rw [readMember]
    split_ifs
    · rfl
    · split
      · rfl
      · rw [readValue, if_neg fun h ↦ hp h.1, readField]
        split <;> rfl
  have hkey : ∀ doc v, (readMember doc (str "_quality", v)).docQuality =
      if v.isNumber then some v.asDouble.toF32 else doc.docQuality := by
    intro doc v
    have hid : str "_quality" ≠ str "_id" := by decide
    have hweights : weightsField (str "_quality") = none := by decide
    rw [readMember, if_neg hid]
    simp only [hweights]
    rw [readValue, readField]
    split_ifs with hv hnum
    · rfl
    · exact absurd hv.2 hnum
    · exact absurd ⟨rfl, ‹_›⟩ hv
    · split <;> rfl
  refine (Assoc.foldl_part (fun doc : Document ↦ doc.docQuality) _
    (fun v old ↦ if v.isNumber then some v.asDouble.toF32 else old) hother hkey hobj _).trans ?_
  rw [JsonValue.findNumber, JsonValue.find]
  cases Assoc.find? (str "_quality") obj with
  | none => rfl
  | some v =>
    show (if v.isNumber then some v.asDouble.toF32 else none) = Option.map _ (if _ then _ else _)
    split_ifs <;> rfl

end Spp.Server
