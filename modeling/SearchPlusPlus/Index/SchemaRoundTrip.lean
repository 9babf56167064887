import SearchPlusPlus.Index.Schema
import SearchPlusPlus.Json.Grammar

/-!
# Schemas on disk

The text of `schema.json` and what reading it gives. A schema is read back field by field
(`Schema.ofText_toText`): every attribute as it was, the two floats as their printed text reads,
and an infinity or a NaN, which JSON cannot hold, as the default. `Schema.same_readBack_iff` says
when nothing was lost. A schema without an `_id` field is written but not read.

No proper prefix of the text is read either (`Schema.ofText_of_part`).
-/

namespace Spp.Index

open Json

variable [LibcDecimal]

/-- The text of `WriteSchemaJson`. -/
def Schema.toText (s : Schema) : Bytes := serializePretty s.toJson 2

/-- What `ReadSchemaJson` makes of the bytes of the file. -/
def Schema.ofText (text : Bytes) : Expected Schema := do
  let v ← parse text
  fromJson v

/-! ### Sameness -/

/-- The same mapping, floats compared as floats. -/
structure FieldMapping.Same (f g : FieldMapping) : Prop where
  name : f.name = g.name
  type : f.type = g.type
  analyzer : f.analyzer = g.analyzer
  stored : f.stored = g.stored
  boost : f.boost.Same g.boost
  positionDecay : f.positionDecay.Same g.positionDecay
  storeTokenWeights : f.storeTokenWeights = g.storeTokenWeights

/-- The same schema: the same fields in the same order. -/
structure Schema.Same (s t : Schema) : Prop where
  fields : List.Forall₂ FieldMapping.Same s.fields t.fields
  storeDocQuality : s.storeDocQuality = t.storeDocQuality

omit [LibcDecimal] in
theorem Schema.same_refl (s : Schema) : s.Same s where
  fields := List.forall₂_same.2 fun _ _ ↦ ⟨rfl, rfl, rfl, rfl, Or.inl rfl, Or.inl rfl, rfl⟩
  storeDocQuality := rfl

/-- The printed text of a double reads back as a number equal to it. -/
def ReadsBack (d : F64) : Prop := ∃ v, PrintsAs d v ∧ v.isNumber = true ∧ v.asDouble.eq d = true

section Integral

omit [LibcDecimal]

theorem readsBack_integral {d : F64} (i : Int64)
    (htext : @LibcDecimal.formatG17 .integral d = decimalInt i.toInt)
    (heq : (F64.ofInt64 i).eq d = true) : @ReadsBack .integral d := by
  have hprints : @PrintsAs .integral d (.int i) := by
    intro n rest hrest
    have hparse := @parseNumber_decimalInt .integral n i rest hrest
    rwa [← htext] at hparse
  exact ⟨.int i, hprints, rfl, heq⟩

theorem readsBack_zero : @ReadsBack .integral F32.zero.toF64 :=
  readsBack_integral 0 (by decide +kernel) (by decide +kernel)

theorem readsBack_one : @ReadsBack .integral F32.one.toF64 :=
  readsBack_integral 1 (by decide +kernel) (by decide +kernel)

end Integral

/-- Decimal printing and reading is exact on the finite floats of a mapping. -/
structure FieldMapping.Exact (f : FieldMapping) : Prop where
  boost : f.boost.isFinite = true → ReadsBack f.boost.toF64
  positionDecay : f.positionDecay.isFinite = true → ReadsBack f.positionDecay.toF64

/-- A mapping whose floats JSON can hold. -/
def FieldMapping.Finite (f : FieldMapping) : Prop :=
  f.boost.isFinite = true ∧ f.positionDecay.isFinite = true

instance : DecidablePred FieldMapping.Finite := fun f ↦
  inferInstanceAs (Decidable (f.boost.isFinite = true ∧ f.positionDecay.isFinite = true))

/-! ### What is read back -/

/-- The float a written float is read back as. -/
def rereadFloat (x unset : F32) : F32 :=
  if (rereadDouble x.toF64).isNumber then (rereadDouble x.toF64).asDouble.toF32 else unset

/-- The mapping a written mapping is read back as. -/
def FieldMapping.readBack (f : FieldMapping) : FieldMapping :=
  { f with
    boost := rereadFloat f.boost F32.one
    positionDecay := rereadFloat f.positionDecay F32.zero }

/-- The schema a written schema is read back as. -/
def Schema.readBack (s : Schema) : Schema where
  fields := s.fields.map FieldMapping.readBack
  storeDocQuality := s.storeDocQuality
  name_ne_nil f hf := by
    obtain ⟨g, hg, rfl⟩ := List.mem_map.1 hf
    exact s.name_ne_nil g hg
  nodup_names := by
    rw [List.map_map]
    exact s.nodup_names
  length_le := by
    rw [List.length_map]
    exact s.length_le

theorem rereadFloat_of_finite {x unset : F32} (hx : x.isFinite = true) (h : ReadsBack x.toF64) :
    x.eq (rereadFloat x unset) = true := by
  obtain ⟨v, hv, hnum, heq⟩ := h
  have hval : rereadDouble x.toF64 = v := rereadDouble_of_printsAs (x.isFinite_toF64.trans hx) hv
  rw [rereadFloat, hval, if_pos hnum]
  exact F32.eq_toF32 hx heq

theorem rereadFloat_of_not_finite {x unset : F32} (hx : x.isFinite = false) :
    rereadFloat x unset = unset := by
  have hval : rereadDouble x.toF64 = .null := by
    rw [rereadDouble, x.isFinite_toF64, hx]
    rfl
  rw [rereadFloat, hval]
  rfl

/-- A float is read back exactly when it is finite. -/
theorem same_rereadFloat_iff {x : F32} (unset : F32) (hunset : unset.isFinite = true)
    (h : x.isFinite = true → ReadsBack x.toF64) :
    x.Same (rereadFloat x unset) ↔ x.isFinite = true := by
  constructor
  · intro hsame
    by_contra hx
    rw [rereadFloat_of_not_finite (by simpa using hx)] at hsame
    rcases hsame with rfl | heq
    · exact hx hunset
    · rcases F32.eq_or_zero_of_eq heq with rfl | ⟨rfl | rfl, -⟩
      · exact hx hunset
      · exact hx (by decide)
      · exact hx (by decide)
  · exact fun hx ↦ Or.inr (rereadFloat_of_finite hx (h hx))

theorem FieldMapping.same_readBack_iff {f : FieldMapping} (h : f.Exact) :
    f.Same f.readBack ↔ f.Finite := by
  have hboost := same_rereadFloat_iff F32.one (by decide) h.boost
  have hdecay := same_rereadFloat_iff F32.zero (by decide) h.positionDecay
  constructor
  · exact fun hs ↦ ⟨hboost.1 hs.boost, hdecay.1 hs.positionDecay⟩
  · exact fun hf ↦ ⟨rfl, rfl, rfl, rfl, hboost.2 hf.1, hdecay.2 hf.2, rfl⟩

/-- **A schema is read back the same exactly when its floats are finite.** -/
theorem Schema.same_readBack_iff {s : Schema} (h : ∀ f ∈ s.fields, f.Exact) :
    s.Same s.readBack ↔ ∀ f ∈ s.fields, f.Finite := by
  have hfields : List.Forall₂ FieldMapping.Same s.fields s.readBack.fields ↔
      ∀ f ∈ s.fields, f.Same f.readBack := by
    rw [readBack, List.forall₂_map_right_iff, List.forall₂_same]
  constructor
  · exact fun hs f hf ↦ (FieldMapping.same_readBack_iff (h f hf)).1 (hfields.1 hs.fields f hf)
  · exact fun hf ↦
      ⟨hfields.2 fun f hmem ↦ (FieldMapping.same_readBack_iff (h f hmem)).2 (hf f hmem), rfl⟩

/-! ### Writing and reading -/

omit [LibcDecimal] in
theorem Schema.ext {s t : Schema} (hf : s.fields = t.fields)
    (hq : s.storeDocQuality = t.storeDocQuality) : s = t := by
  cases s
  cases t
  cases hf
  cases hq
  rfl

omit [LibcDecimal] in
theorem Schema.addField_of_new {s : Schema} {f : FieldMapping} (hname : f.name ≠ [])
    (hnew : f.name ∉ s.fields.map (·.name)) (hlen : s.fields.length < kInvalidFieldId) :
    ∃ t, s.addField f = .ok t ∧ t.fields = s.fields ++ [f] ∧
      t.storeDocQuality = s.storeDocQuality := by
  rw [addField, dif_neg hname, dif_neg (by simpa [hasField] using hnew),
    dif_neg (Nat.not_le_of_lt hlen)]
  exact ⟨_, rfl, rfl, rfl⟩

omit [LibcDecimal] in
/-- Adding the fields of a schema one by one. -/
theorem Schema.foldlM_addField (l : List FieldMapping) : ∀ (s : Schema),
    (∀ f ∈ l, f.name ≠ []) → ((s.fields ++ l).map (·.name)).Nodup →
      (s.fields ++ l).length ≤ kInvalidFieldId →
      ∃ t, l.foldlM addField s = .ok t ∧ t.fields = s.fields ++ l ∧
        t.storeDocQuality = s.storeDocQuality := by
  induction l with
  | nil => exact fun s _ _ _ ↦ ⟨s, rfl, by rw [List.append_nil], rfl⟩
  | cons f l ih =>
    intro s hname hnodup hlen
    have hnew : f.name ∉ s.fields.map (·.name) := by
      rw [List.map_append, List.map_cons] at hnodup
      exact fun hmem ↦ (List.disjoint_of_nodup_append hnodup) hmem List.mem_cons_self
    obtain ⟨t, ht, hfields, hq⟩ := addField_of_new (hname f List.mem_cons_self) hnew (by
      rw [List.length_append, List.length_cons] at hlen
      omega)
    have happend : t.fields ++ l = s.fields ++ f :: l := by
      rw [hfields, List.append_assoc, List.singleton_append]
    obtain ⟨u, hu, hufields, huq⟩ := ih t (fun g hg ↦ hname g (List.mem_cons_of_mem _ hg))
      (by rwa [happend]) (by rwa [happend])
    refine ⟨u, ?_, by rw [hufields, happend], huq.trans hq⟩
    rw [List.foldlM_cons, ht]
    exact hu

omit [LibcDecimal] in
theorem fieldToJson_eq (f : FieldMapping) : Schema.fieldToJson f = .object [
    (str "analyzer", .string f.analyzer),
    (str "boost", .double f.boost.toF64),
    (str "name", .string f.name),
    (str "position_decay", .double f.positionDecay.toF64),
    (str "store_token_weights", .bool f.storeTokenWeights),
    (str "stored", .bool f.stored),
    (str "type", .string (fieldTypeName f.type))] := rfl

omit [LibcDecimal] in
theorem Schema.toJson_eq (s : Schema) : s.toJson = .object [
    (str "fields", .array (s.fields.map fieldToJson)),
    (str "store_doc_quality", .bool s.storeDocQuality)] := rfl

omit [LibcDecimal] in
theorem parseFieldType_fieldTypeName (t : FieldType) :
    parseFieldType (fieldTypeName t) = .ok t := by
  cases t <;> rfl

/-- **A written mapping is read back** and added. -/
theorem Schema.addFieldJson_reread (s : Schema) (f : FieldMapping) :
    s.addFieldJson (reread (fieldToJson f)) = s.addField f.readBack := by
  have hname : (reread (fieldToJson f)).findString (str "name") = some f.name := rfl
  have htype : readType (reread (fieldToJson f)) { name := f.name } =
      .ok { name := f.name, type := f.type } := by
    have hfound : (reread (fieldToJson f)).findString (str "type") =
        some (fieldTypeName f.type) := rfl
    rw [readType, hfound]
    simp only [parseFieldType_fieldTypeName, Except.map]
  have hnumber : ∀ (key : Bytes) (x unset : F32),
      (reread (fieldToJson f)).find key = some (rereadDouble x.toF64) →
      (((reread (fieldToJson f)).findNumber key).map F64.toF32).getD unset =
        rereadFloat x unset := by
    intro key x unset hfind
    rw [JsonValue.findNumber, hfind, rereadFloat]
    simp only
    split <;> rfl
  have hobj : ∃ o, reread (fieldToJson f) = .object o := ⟨_, rfl⟩
  obtain ⟨o, ho⟩ := hobj
  have hsettings : readSettings (reread (fieldToJson f)) { name := f.name, type := f.type } =
      f.readBack := by
    have hanalyzer : (reread (fieldToJson f)).findString (str "analyzer") = some f.analyzer := rfl
    have hstored : (reread (fieldToJson f)).findBool (str "stored") = some f.stored := rfl
    have hweights : (reread (fieldToJson f)).findBool (str "store_token_weights") =
        some f.storeTokenWeights := rfl
    rw [readSettings, hanalyzer, hstored, hweights, hnumber _ f.boost _ rfl,
      hnumber _ f.positionDecay _ rfl]
    rfl
  rw [ho] at hname htype hsettings ⊢
  simp only [addFieldJson, hname, htype, bind, Except.bind, hsettings]

theorem Schema.reread_toJson (s : Schema) : reread s.toJson = .object [
    (str "fields", .array (s.fields.map fun f ↦ reread (fieldToJson f))),
    (str "store_doc_quality", .bool s.storeDocQuality)] := by
  have helems : ∀ l : List FieldMapping, rereadElems (l.map fieldToJson) =
      l.map fun f ↦ reread (fieldToJson f) := by
    intro l
    induction l with
    | nil => rfl
    | cons f l ih => rw [List.map_cons, rereadElems, ih, List.map_cons]
  rw [toJson_eq, reread, rereadMembers, rereadMembers, rereadMembers, reread, helems, reread]
  all_goals simp

/-- What a written schema is read back as; without an `_id` field it is refused. -/
theorem Schema.fromJson_reread (s : Schema) : fromJson (reread s.toJson) =
    if s.hasField kIdField then .ok s.readBack
    else .error (.invalidArgument (str "schema must define an '_id' field")) := by
  obtain ⟨t, ht, hfields, hq⟩ := foldlM_addField s.readBack.fields {}
    (fun f hf ↦ s.readBack.name_ne_nil f hf) s.readBack.nodup_names s.readBack.length_le
  rw [List.nil_append] at hfields
  have hfold : (s.fields.map fun f ↦ reread (fieldToJson f)).foldlM addFieldJson {} = .ok t := by
    rw [← ht, readBack, List.foldlM_map, List.foldlM_map]
    simp only [addFieldJson_reread]
  have hhas : t.hasField kIdField = s.hasField kIdField := by
    rw [hasField, hasField, hfields, readBack, List.map_map]
    rfl
  have hset : t.setStoreDocQuality s.storeDocQuality = s.readBack := Schema.ext hfields rfl
  have harr : (JsonValue.object [
      (str "fields", .array (s.fields.map fun f ↦ reread (fieldToJson f))),
      (str "store_doc_quality", .bool s.storeDocQuality)]).find (str "fields") =
      some (.array (s.fields.map fun f ↦ reread (fieldToJson f))) := rfl
  have hquality : (JsonValue.object [
      (str "fields", .array (s.fields.map fun f ↦ reread (fieldToJson f))),
      (str "store_doc_quality", .bool s.storeDocQuality)]).findBool (str "store_doc_quality") =
      some s.storeDocQuality := rfl
  rw [reread_toJson]
  simp only [fromJson, harr, hquality, hfold, bind, Except.bind, hhas, hset]

omit [LibcDecimal] in
theorem Schema.toJson_wellFormed (s : Schema) : s.toJson.WellFormed := by
  have helems : ∀ l : List FieldMapping, JsonValue.WellFormedElems (l.map fieldToJson) := by
    intro l
    induction l with
    | nil => trivial
    | cons f l ih => exact ⟨JsonValue.wellFormed_mkObject (by simp [JsonValue.WellFormed]), ih⟩
  refine JsonValue.wellFormed_mkObject fun p hp ↦ ?_
  simp only [List.mem_cons, List.not_mem_nil, or_false] at hp
  rcases hp with rfl | rfl
  · exact helems s.fields
  · trivial

theorem Schema.toJson_doublesPrint {s : Schema} (h : ∀ f ∈ s.fields, f.Exact) :
    DoublesPrint s.toJson := by
  have hfloat : ∀ x : F32, (x.isFinite = true → ReadsBack x.toF64) →
      DoublesPrint (.double x.toF64) := by
    intro x hx hfin
    obtain ⟨v, hv, -⟩ := hx (x.isFinite_toF64.symm.trans hfin)
    exact ⟨v, hv⟩
  have helems : ∀ l : List FieldMapping, (∀ f ∈ l, f.Exact) →
      DoublesPrintElems (l.map fieldToJson) := by
    intro l
    induction l with
    | nil => exact fun _ ↦ trivial
    | cons f l ih =>
      intro hl
      have hf := hl f List.mem_cons_self
      refine ⟨?_, ih fun g hg ↦ hl g (List.mem_cons_of_mem _ hg)⟩
      rw [fieldToJson_eq]
      exact ⟨trivial, hfloat _ hf.boost, trivial, hfloat _ hf.positionDecay, trivial, trivial,
        trivial, trivial⟩
  rw [toJson_eq]
  exact ⟨helems s.fields h, trivial, trivial⟩

/-- **What reading `schema.json` gives.** -/
theorem Schema.ofText_toText {s : Schema} (h : ∀ f ∈ s.fields, f.Exact) : ofText s.toText =
    if s.hasField kIdField then .ok s.readBack
    else .error (.invalidArgument (str "schema must define an '_id' field")) := by
  rw [ofText, toText, parse_serializePretty s.toJson_wellFormed (toJson_doublesPrint h)]
  exact s.fromJson_reread

/-- A part of the text is not read. -/
theorem Schema.ofText_of_part (hread : ReadsNumbers) {s : Schema} (h : ∀ f ∈ s.fields, f.Exact)
    {text : Bytes} (hpre : text <+: s.toText) (hne : text ≠ s.toText) (t : Schema) :
    ofText text ≠ .ok t := by
  have hparse := parse_prefix_writeObject hread s.toJson_wellFormed (toJson_doublesPrint h)
    (by rw [toJson_eq]; exact ⟨_, rfl⟩) 2 hpre hne
  intro ht
  cases hv : parse text with
  | error e =>
    rw [ofText, hv] at ht
    cases ht
  | ok v => exact hparse v hv

end Spp.Index
