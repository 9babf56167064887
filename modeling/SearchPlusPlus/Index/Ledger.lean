import SearchPlusPlus.Index.IndexWriter
import SearchPlusPlus.Index.WriterRun
import SearchPlusPlus.Json.Grammar

/-!
# The ledger of an index

What an index is for, without files: the documents of its sealed segments, the records of its log,
and the documents a writer has in memory (`Ledger`). What an event does to it is a `LedgerStep`; a
document moves from memory to the shelves when a `Refresh` seals it, and from the log back to memory
when the index is opened. What holds of every ledger is proved on these steps.

A record stands for the document that `DocFromJson` makes of it (`replayedDoc`), which has the id of
the document that was logged (`replayedId_logRecord`).
-/

namespace Spp.Index

open Json Store

/-! ### What a record stands for -/

section Members

/-- The text that `DocFromJson` takes from a value. -/
def loggedText : JsonValue → Option Bytes
  | .string v => some v
  | _ => none

theorem findString_object (obj : JsonObject) (k : Bytes) :
    (JsonValue.object obj).findString k = (Assoc.find? k obj).bind loggedText := by
  rw [JsonValue.findString, JsonValue.find]
  cases Assoc.find? k obj with
  | none => rfl
  | some v => cases v <;> rfl

theorem addMember_id (doc : Document) (v : JsonValue) :
    (addMember doc (Schema.kIdField, v)).id = (loggedText v).getD doc.id := by
  cases v <;> rfl

theorem addMember_of_ne (doc : Document) {p : Bytes × JsonValue} (hp : p.1 ≠ Schema.kIdField) :
    addMember doc p = (loggedText p.2).elim doc fun text ↦
      { doc with fields := doc.fields.insert p.1 text } := by
  obtain ⟨k, v⟩ := p
  cases v with
  | string text => exact if_neg hp
  | null | bool | int | double | array | object => rfl

/-- The id that `DocFromJson` reads from an object. -/
theorem id_foldl_addMember {obj : JsonObject} (hobj : Assoc.Sorted obj) :
    (obj.foldl addMember {}).id = ((JsonValue.object obj).findString Schema.kIdField).getD [] := by
  have hother : ∀ (doc : Document) (p : Bytes × JsonValue), p.1 ≠ Schema.kIdField →
      (addMember doc p).id = doc.id := by
    intro doc p hp
    rw [addMember_of_ne doc hp]
    cases loggedText p.2 <;> rfl
  refine (Assoc.foldl_part (fun doc : Document ↦ doc.id) Schema.kIdField
    (fun v old ↦ (loggedText v).getD old) hother addMember_id hobj _).trans ?_
  rw [findString_object]
  cases Assoc.find? Schema.kIdField obj <;> rfl

/-- The fields that `DocFromJson` reads from an object. -/
theorem find?_foldl_addMember {obj : JsonObject} (hobj : Assoc.Sorted obj) {k : Bytes}
    (hk : k ≠ Schema.kIdField) :
    (obj.foldl addMember {}).fields.find? k = (Assoc.find? k obj).bind loggedText := by
  have hother : ∀ (doc : Document) (p : Bytes × JsonValue), p.1 ≠ k →
      (addMember doc p).fields.find? k = doc.fields.find? k := by
    rintro doc ⟨k', v⟩ hp
    cases v with
    | string text =>
      by_cases hid : k' = Schema.kIdField
      · subst hid
        rfl
      · rw [addMember_of_ne doc hid]
        exact SortedMap.find?_insert_of_ne _ (Ne.symm hp) _
    | null | bool | int | double | array | object => rfl
  have hkey : ∀ (doc : Document) (v : JsonValue), (addMember doc (k, v)).fields.find? k =
      (loggedText v).or (doc.fields.find? k) := by
    intro doc v
    rw [addMember_of_ne doc hk]
    cases loggedText v with
    | none => rfl
    | some text => exact SortedMap.find?_insert_self ..
  refine (Assoc.foldl_part (fun doc : Document ↦ doc.fields.find? k) k
    (fun v old ↦ (loggedText v).or old) hother hkey hobj _).trans ?_
  cases Assoc.find? k obj with
  | none => rfl
  | some v => exact Option.or_none

theorem find?_foldl_addMember_id (obj : JsonObject) :
    (obj.foldl addMember {}).fields.find? Schema.kIdField = none := by
  have hstart : ({} : Document).fields.find? Schema.kIdField = none := rfl
  refine List.foldlRecOn (motive := fun doc ↦ doc.fields.find? Schema.kIdField = none) obj
    addMember hstart fun doc hdoc p _ ↦ ?_
  by_cases hp : p.1 = Schema.kIdField
  · obtain ⟨k, v⟩ := p
    obtain rfl : k = Schema.kIdField := hp
    cases v <;> exact hdoc
  · rw [addMember_of_ne doc hp]
    cases loggedText p.2 with
    | none => exact hdoc
    | some text => exact (SortedMap.find?_insert_of_ne _ (Ne.symm hp) _).trans hdoc

/-- `DocFromJson` reads neither weights nor a quality. -/
theorem foldl_addMember_rest (obj : JsonObject) :
    (obj.foldl addMember {}).fieldTokenWeights = .empty ∧
      (obj.foldl addMember {}).docQuality = none := by
  have hstart : ({} : Document).fieldTokenWeights = .empty ∧ ({} : Document).docQuality = none :=
    ⟨rfl, rfl⟩
  refine List.foldlRecOn
    (motive := fun doc ↦ doc.fieldTokenWeights = .empty ∧ doc.docQuality = none) obj addMember
    hstart fun doc hdoc p _ ↦ ?_
  obtain ⟨k, v⟩ := p
  cases v with
  | string text =>
    rw [addMember]
    dsimp only
    split_ifs <;> exact hdoc
  | null | bool | int | double | array | object => exact hdoc

end Members

section Records

variable [LibcDecimal]

/-- The document that is replayed for a record, if any. -/
def replayedDoc (rec : Bytes) : Option Document := (docFromJson rec).toOption

/-- The documents that are replayed for some records, if there is room for them. -/
def replayedDocs (recs : List Bytes) : List Document := recs.filterMap replayedDoc

theorem replayedDocs_append (recs recs' : List Bytes) :
    replayedDocs (recs ++ recs') = replayedDocs recs ++ replayedDocs recs' :=
  List.filterMap_append

/-- The id of the document that is replayed for a record, if any. -/
def replayedId (rec : Bytes) : Option Bytes := (replayedDoc rec).map (·.id)

theorem map_id_replayedDocs (recs : List Bytes) :
    (replayedDocs recs).map (·.id) = recs.filterMap replayedId := by
  rw [replayedDocs, List.map_filterMap]
  rfl

theorem replayedId_of_parse {rec : Bytes} {obj : JsonObject} (h : parse rec = .ok (.object obj)) :
    replayedId rec =
      if ((JsonValue.object obj).findString Schema.kIdField).getD [] = [] then none
      else some (((JsonValue.object obj).findString Schema.kIdField).getD []) := by
  have hid := id_foldl_addMember (wellFormed_of_parse h).1
  rw [replayedId, replayedDoc, docFromJson, h, ← hid]
  show Option.map _ (Except.toOption (if _ then _ else _)) = _
  split_ifs <;> rfl

/-- A replayed document has an id. -/
theorem id_ne_nil_of_docFromJson {rec : Bytes} {doc : Document} (h : docFromJson rec = .ok doc) :
    doc.id ≠ [] := by
  obtain ⟨v, -, h⟩ := bind_eq_ok.1 h
  cases v with
  | object obj =>
    dsimp only at h
    split_ifs at h with hid
    obtain rfl := Except.ok.inj h
    exact hid
  | null | bool | int | double | string | array => exact absurd h (by simp)

/-- A document and the JSON it is logged with, as `PostDoc` and `spp_index` hand them over: no field
has the name of the id, and the JSON, if any, is the body the id was read from. -/
structure Loggable (doc : Document) (rawJson : Bytes) : Prop where
  noId : doc.fields.find? Schema.kIdField = none
  body : rawJson ≠ [] → ∃ obj, parse rawJson = .ok (.object obj) ∧
    doc.id = ((JsonValue.object obj).findString Schema.kIdField).getD []

omit [LibcDecimal] in
theorem find?_docFields {doc : Document} (hno : doc.fields.find? Schema.kIdField = none) :
    (docFields doc).find? Schema.kIdField = some doc.id := by
  refine (Assoc.foldl_part (fun o : SortedMap Bytes Bytes ↦ o.find? Schema.kIdField)
    Schema.kIdField (fun v _ ↦ some v) (fun o p hp ↦ SortedMap.find?_insert_of_ne _ (Ne.symm hp) _)
    (fun o v ↦ SortedMap.find?_insert_self ..) doc.fields.sorted _).trans ?_
  have hnone : Assoc.find? Schema.kIdField doc.fields.toList = none := hno
  rw [hnone]
  exact SortedMap.find?_insert_self ..

omit [LibcDecimal] in
theorem find?_docFields_of_ne (doc : Document) {k : Bytes} (hk : k ≠ Schema.kIdField) :
    (docFields doc).find? k = doc.fields.find? k := by
  refine (Assoc.foldl_part (fun o : SortedMap Bytes Bytes ↦ o.find? k) k (fun v _ ↦ some v)
    (fun o p hp ↦ SortedMap.find?_insert_of_ne _ (Ne.symm hp) _)
    (fun o v ↦ SortedMap.find?_insert_self ..) doc.fields.sorted _).trans ?_
  rw [SortedMap.find?_insert_of_ne _ hk, SortedMap.find?_empty]
  show _ = Assoc.find? k doc.fields.toList
  cases Assoc.find? k doc.fields.toList <;> rfl

/-- What `DocToJson` writes is read back, but for the weights and the quality. -/
theorem docFromJson_docToJson {doc : Document} (hno : doc.fields.find? Schema.kIdField = none)
    (hid : doc.id ≠ []) :
    docFromJson (docToJson doc) = .ok { id := doc.id, fields := doc.fields } := by
  obtain ⟨obj, hobj⟩ : ∃ obj, ofStrings (docFields doc) = .object obj := ⟨_, rfl⟩
  have hparse : parse (docToJson doc) = .ok (.object obj) :=
    (parse_serialize_ofStrings (docFields doc)).trans (congrArg _ hobj)
  have hsorted := (wellFormed_of_parse hparse).1
  have hfound : ∀ k, (Assoc.find? k obj).bind loggedText = (docFields doc).find? k := fun k ↦ by
    rw [← findString_object, ← hobj, findString_ofStrings]
  have hread : obj.foldl addMember {} = { id := doc.id, fields := doc.fields } := by
    obtain ⟨hweights, hquality⟩ := foldl_addMember_rest obj
    have hdoc : (obj.foldl addMember {}).id = doc.id := by
      rw [id_foldl_addMember hsorted, findString_object, hfound, find?_docFields hno,
        Option.getD_some]
    have hfields : (obj.foldl addMember {}).fields = doc.fields := SortedMap.ext_find? fun k ↦ by
      by_cases hk : k = Schema.kIdField
      · rw [hk, find?_foldl_addMember_id, hno]
      · rw [find?_foldl_addMember hsorted hk, hfound, find?_docFields_of_ne doc hk]
    generalize obj.foldl addMember {} = read at hdoc hfields hweights hquality
    obtain ⟨_, _, _, _⟩ := read
    exact Document.mk.injEq .. ▸ ⟨hdoc, hfields, hweights, hquality⟩
  rw [docFromJson, hparse]
  show (if _ then _ else _) = _
  rw [hread, if_neg hid]

/-- **The record of a document** stands for it, if it has an id at all. -/
theorem replayedId_logRecord {doc : Document} {rawJson : Bytes} (h : Loggable doc rawJson) :
    replayedId (logRecord doc rawJson) = if doc.id = [] then none else some doc.id := by
  by_cases hraw : rawJson = []
  · have hparse : parse (logRecord doc rawJson) = .ok (ofStrings (docFields doc)) := by
      rw [logRecord, if_pos hraw]
      exact parse_serialize_ofStrings (docFields doc)
    rw [replayedId_of_parse hparse]
    have hid : (ofStrings (docFields doc)).findString Schema.kIdField = some doc.id := by
      rw [findString_ofStrings, find?_docFields h.noId]
    rw [ofStrings] at hid
    rw [hid, Option.getD_some]
  · obtain ⟨obj, hparse, hid⟩ := h.body hraw
    rw [logRecord, if_neg hraw, replayedId_of_parse hparse, hid]

/-- A record is not empty. -/
theorem logRecord_ne_nil (doc : Document) (rawJson : Bytes) : logRecord doc rawJson ≠ [] := by
  rw [logRecord]
  split_ifs with hraw
  · intro hnil
    have hparse := parse_serialize_ofStrings (docFields doc)
    rw [docToJson] at hnil
    rw [hnil] at hparse
    cases hparse
  · exact hraw

/-! ### Building from documents -/

variable {schema : Schema} {held : List Document} {seg : MutableSegment}

/-- A segment of some documents takes one more that has an id, while ids last. -/
theorem addDocument_build {doc : Document} {n : ℕ}
    (h : (MutableSegment.build schema held).addDocument doc = .ok (seg, n)) :
    doc.id ≠ [] ∧ held.length ≠ kNoMoreDocs ∧ seg = .build schema (held ++ [doc]) := by
  rw [MutableSegment.addDocument] at h
  split_ifs at h with hid hfull
  obtain ⟨rfl, -⟩ := Prod.mk.inj (Except.ok.inj h)
  exact ⟨hid, hfull, (MutableSegment.build_append_singleton schema held doc).symm⟩

theorem addDocument_build_error {doc : Document} {e : Status}
    (h : (MutableSegment.build schema held).addDocument doc = .error e) :
    doc.id = [] ∨ held.length = kNoMoreDocs := by
  rw [MutableSegment.addDocument] at h
  split_ifs at h with hid hfull
  · exact Or.inl hid
  · exact Or.inr hfull

/-- **The replay** adds the documents of the records, in order. -/
theorem replayRecords_build : ∀ {recs : List Bytes} {held : List Document},
    held.length ≤ kNoMoreDocs → replayRecords recs (.build schema held) = .ok seg →
      seg = .build schema (held ++ replayedDocs recs) ∧
        (held ++ replayedDocs recs).length ≤ kNoMoreDocs
  | [], held, hlen, h => by
    obtain rfl := Except.ok.inj h
    rw [replayedDocs, List.filterMap_nil, List.append_nil]
    exact ⟨rfl, hlen⟩
  | rec :: recs, held, hlen, h => by
    rw [replayRecords] at h
    rw [replayedDocs, List.filterMap_cons, replayedDoc]
    cases hdoc : docFromJson rec with
    | error e =>
      rw [hdoc] at h
      exact replayRecords_build hlen h
    | ok doc =>
      rw [hdoc] at h
      obtain ⟨⟨seg₁, n⟩, hadd, h⟩ := bind_eq_ok.1 h
      obtain ⟨-, hfull, rfl⟩ := addDocument_build hadd
      have hlen₁ : (held ++ [doc]).length ≤ kNoMoreDocs := by
        rw [List.length_append, List.length_singleton]
        exact lt_of_le_of_ne hlen hfull
      have hrest := replayRecords_build hlen₁ h
      rwa [List.append_assoc, List.singleton_append] at hrest

end Records

/-! ### Ledgers -/

/-- What an index has: the documents of its sealed segments, the records of its log, and, while
there is a writer, the documents this has in memory. -/
structure Ledger where
  shelves : List (List Document) := []
  log : List Bytes := []
  pending : Option (List Document) := none

variable [LibcDecimal]

/-- The steps of a ledger. A loose one says nothing about the records of the log, and lets calls
fail. -/
inductive LedgerStep (loose : Prop) (L : Ledger) : WriterEvent → Ledger → Prop
  | opened {initial : Option Schema} (h : L.pending = none) :
      LedgerStep loose L (.opened initial true) { L with pending := some (replayedDocs L.log) }
  | notOpened {initial : Option Schema} (h : L.pending = none) :
      LedgerStep loose L (.opened initial false) L
  | openCut (h : L.pending = none) : LedgerStep loose L .openCut L
  | refused {doc : Document} {rawJson : Bytes} : LedgerStep loose L (.added doc rawJson false) L
  | notLogged {doc : Document} {rawJson : Bytes} (h : loose) (log : List Bytes) :
      LedgerStep loose L (.added doc rawJson false) { L with log }
  | rejected {docs : List Document} {doc : Document} {rawJson : Bytes} {log : List Bytes}
      (h : L.pending = some docs) (hrej : doc.id = [] ∨ docs.length = kNoMoreDocs)
      (hlog : loose ∨ log = L.log ++ [logRecord doc rawJson]) :
      LedgerStep loose L (.added doc rawJson false) { L with log }
  | accepted {docs : List Document} {doc : Document} {rawJson : Bytes} {log : List Bytes}
      (h : L.pending = some docs) (hid : doc.id ≠ [])
      (hlog : loose ∨ log = L.log ++ [logRecord doc rawJson]) :
      LedgerStep loose L (.added doc rawJson true) { L with log, pending := some (docs ++ [doc]) }
  | addCut {doc : Document} {rawJson : Bytes} {log : List Bytes}
      (hlog : loose ∨ log = L.log ∨ log = L.log ++ [logRecord doc rawJson]) :
      LedgerStep loose L (.addCut doc rawJson) { L with log, pending := none }
  /-- The documents stay in memory. -/
  | notSealed : LedgerStep loose L (.refreshed false) L
  | idle (h : L.pending = some []) : LedgerStep loose L (.refreshed true) L
  | shelved {docs : List Document} (h : L.pending = some docs) (hne : docs ≠ []) :
      LedgerStep loose L (.refreshed true)
        { shelves := L.shelves ++ [docs], log := [], pending := some [] }
  /-- The log could not be truncated. -/
  | notTruncated {docs : List Document} (hloose : loose) (h : L.pending = some docs)
      (hne : docs ≠ []) (log : List Bytes) :
      LedgerStep loose L (.refreshed false)
        { shelves := L.shelves ++ [docs], log, pending := some [] }
  | sealCut : LedgerStep loose L .refreshCut { L with pending := none }
  /-- The manifest lists the documents, and the log still has them. -/
  | savedCut {docs : List Document} (h : L.pending = some docs) (hne : docs ≠ []) :
      LedgerStep loose L .refreshCut { L with shelves := L.shelves ++ [docs], pending := none }
  | truncatedCut {docs : List Document} (h : L.pending = some docs) (hne : docs ≠ []) :
      LedgerStep loose L .refreshCut { shelves := L.shelves ++ [docs], log := [], pending := none }
  | closed : LedgerStep loose L .closed { L with pending := none }
  | crashed : LedgerStep loose L .crashed { L with pending := none }

end Spp.Index
