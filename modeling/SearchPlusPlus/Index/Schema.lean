import SearchPlusPlus.Json.RoundTrip

/-!
# Schemas

`FieldMapping` and `Schema`, with the JSON readers and writer of `schema.json` and of the
mappings of an index request. A `Schema` is only ever built by `AddField`, so the conditions
`AddField` checks are fields of the structure: names are non-empty and distinct, and there are
fewer of them than `kInvalidFieldId`. The map `by_name_` sends a name to its position, which
`getFieldId` looks up in the list itself.
-/

namespace Spp.Index

open Json

/-- `FieldType`. -/
inductive FieldType where
  | text
  | keyword
  deriving DecidableEq, Repr

/-- `FieldTypeName`. -/
def fieldTypeName : FieldType → Bytes
  | .text => str "text"
  | .keyword => str "keyword"

/-- `ParseFieldType`. -/
def parseFieldType (name : Bytes) : Expected FieldType :=
  if name = str "text" then .ok .text
  else if name = str "keyword" then .ok .keyword
  else .error (.invalidArgument (str "unknown field type: " ++ name))

/-- `FieldMapping`. -/
structure FieldMapping where
  name : Bytes
  type : FieldType := .text
  analyzer : Bytes := str "standard"
  stored : Bool := false
  boost : F32 := F32.one
  positionDecay : F32 := F32.zero
  storeTokenWeights : Bool := false
  deriving DecidableEq, Repr

/-- `Schema`. -/
structure Schema where
  fields : List FieldMapping := []
  storeDocQuality : Bool := false
  /-- `AddField` rejects an empty name. -/
  name_ne_nil : ∀ f ∈ fields, f.name ≠ [] := by simp
  /-- `AddField` rejects a name that is taken. -/
  nodup_names : (fields.map (·.name)).Nodup := by simp
  /-- `AddField` rejects a field too many. -/
  length_le : fields.length ≤ kInvalidFieldId := by simp

namespace Schema

theorem eq_of_fields {s s' : Schema} (h : s.fields = s'.fields)
    (hq : s.storeDocQuality = s'.storeDocQuality) : s = s' := by
  cases s
  cases s'
  obtain rfl : _ = _ := h
  obtain rfl : _ = _ := hq
  rfl

/-- `kIdField`. -/
def kIdField : Bytes := str "_id"

/-- `field_count`. -/
def fieldCount (s : Schema) : ℕ := s.fields.length

/-- `HasField`. -/
def hasField (s : Schema) (name : Bytes) : Bool := name ∈ s.fields.map (·.name)

/-- `GetFieldId`. -/
def getFieldId (s : Schema) (name : Bytes) : ℕ :=
  match s.fields.findIdx? fun f ↦ f.name = name with
  | some i => i
  | none => kInvalidFieldId

/-- `GetField` on the id of a name: the mapping when the name is there. -/
def getField? (s : Schema) (name : Bytes) : Option FieldMapping :=
  s.fields.find? fun f ↦ f.name = name

/-- `AddField`. -/
def addField (s : Schema) (mapping : FieldMapping) : Expected Schema :=
  if hname : mapping.name = [] then .error (.invalidArgument (str "empty field name"))
  else if hdup : s.hasField mapping.name = true then
    .error (.alreadyExists (str "duplicate field: " ++ mapping.name))
  else if hlen : kInvalidFieldId ≤ s.fields.length then
    .error (.outOfRange (str "too many fields"))
  else
    .ok
      { fields := s.fields ++ [mapping]
        storeDocQuality := s.storeDocQuality
        name_ne_nil := fun f hf ↦ by
          rcases List.mem_append.1 hf with hf | hf
          · exact s.name_ne_nil f hf
          · rwa [List.mem_singleton.1 hf]
        nodup_names := by
          rw [List.map_append, List.map_singleton, ← List.concat_eq_append]
          exact s.nodup_names.concat (by simpa [hasField] using hdup)
        length_le := by
          rw [List.length_append, List.length_singleton]
          exact Nat.lt_of_not_le hlen }

/-- `set_store_doc_quality`. -/
def setStoreDocQuality (s : Schema) (v : Bool) : Schema := { s with storeDocQuality := v }

/-! ### JSON -/

/-- One entry of the `fields` array of `ToJson`. -/
def fieldToJson (f : FieldMapping) : JsonValue :=
  mkObject [
    (str "name", .string f.name),
    (str "type", .string (fieldTypeName f.type)),
    (str "analyzer", .string f.analyzer),
    (str "stored", .bool f.stored),
    (str "boost", .double f.boost.toF64),
    (str "position_decay", .double f.positionDecay.toF64),
    (str "store_token_weights", .bool f.storeTokenWeights)]

/-- `ToJson`. -/
def toJson (s : Schema) : JsonValue :=
  mkObject [
    (str "fields", .array (s.fields.map fieldToJson)),
    (str "store_doc_quality", .bool s.storeDocQuality)]

/-- The optional settings that `FromJson` and `FromMappingsJson` read alike, over the mapping's
values before; the type comes first and is the one that can fail. -/
def readType (cfg : JsonValue) (m : FieldMapping) : Expected FieldMapping :=
  match cfg.findString (str "type") with
  | some t => (parseFieldType t).map fun t ↦ { m with type := t }
  | none => .ok m

/-- The settings that follow the type. -/
def readSettings (cfg : JsonValue) (m : FieldMapping) : FieldMapping :=
  { m with
    analyzer := (cfg.findString (str "analyzer")).getD m.analyzer
    stored := (cfg.findBool (str "stored")).getD m.stored
    boost := ((cfg.findNumber (str "boost")).map F64.toF32).getD m.boost
    positionDecay := ((cfg.findNumber (str "position_decay")).map F64.toF32).getD m.positionDecay
    storeTokenWeights := (cfg.findBool (str "store_token_weights")).getD m.storeTokenWeights }

/-- One round of the loop of `FromJson`. -/
def addFieldJson (s : Schema) (fv : JsonValue) : Expected Schema :=
  match fv with
  | .object _ =>
    match fv.findString (str "name") with
    | some n => do
      let m ← readType fv { name := n }
      s.addField (readSettings fv m)
    | none => .error (.invalidArgument (str "schema: field missing 'name'"))
  | _ => .error (.invalidArgument (str "schema: field must be an object"))

/-- `FromJson`. -/
def fromJson (v : JsonValue) : Expected Schema :=
  match v with
  | .object _ =>
    match v.find (str "fields") with
    | some (.array fields) => do
      let s ← fields.foldlM addFieldJson {}
      if s.hasField kIdField then
        match v.findBool (str "store_doc_quality") with
        | some q => .ok (s.setStoreDocQuality q)
        | none => .ok s
      else .error (.invalidArgument (str "schema must define an '_id' field"))
    | _ => .error (.invalidArgument (str "schema: missing 'fields' array"))
  | _ => .error (.invalidArgument (str "schema: expected object"))

/-- One round of the loop of `FromMappingsJson`. -/
def addMappingJson (s : Schema) (p : Bytes × JsonValue) : Expected Schema :=
  let (name, cfg) := p
  match cfg with
  | .object _ => do
    let m ← readType cfg { name }
    let m := if m.type = .keyword then { m with analyzer := str "keyword" } else m
    s.addField (readSettings cfg m)
  | _ => .error (.invalidArgument (str "mappings: '" ++ name ++ str "' must be an object"))

/-- `FromMappingsJson`: `_id` comes first when the mappings do not have it. -/
def fromMappingsJson (mappings : JsonValue) : Expected Schema :=
  match mappings with
  | .object members => do
    let s ← if (mappings.find kIdField).isNone then
        addField {}
          { name := kIdField, type := .keyword, stored := true, analyzer := str "keyword" }
      else .ok {}
    members.foldlM addMappingJson s
  | _ =>
    -- The three bytes are the arrow of the message in UTF-8.
    .error (.invalidArgument (str "mappings: expected object of field-name " ++
      [226, 134, 146] ++ str " field-config"))

end Schema

end Spp.Index
