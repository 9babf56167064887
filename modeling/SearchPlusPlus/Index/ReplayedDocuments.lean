import SearchPlusPlus.Index.InvertedIndex
import SearchPlusPlus.Index.Recovery
import Mathlib.Data.List.DropRight

/-!
# What a replay keeps

`Open` rebuilds the segment in memory from the log. What it replays for a document has its id and
those of its fields that were strings in the log, but neither weights nor a quality
(`LoggedAs`). So the segment is the one there was exactly if no document lost anything that the
schema asks for (`sameContent_build_iff`), and then a writer that is closed and opened again goes
on as if nothing had happened (`reopened_sameContent_iff`).
-/

namespace Spp.Index

open Analyze Json Store

/-! ### Equal segments -/

/-- The same documents in memory, whatever the schemas. -/
structure MutableSegment.SameContent (seg seg' : MutableSegment) : Prop where
  fieldData : seg.fieldData = seg'.fieldData
  storedBlobs : seg.storedBlobs = seg'.storedBlobs
  docIds : seg.docIds = seg'.docIds
  docQuality : seg.docQuality = seg'.docQuality
  nextDocId : seg.nextDocId = seg'.nextDocId

theorem MutableSegment.SameContent.symm {seg seg' : MutableSegment} (h : seg.SameContent seg') :
    seg'.SameContent seg :=
  ⟨h.fieldData.symm, h.storedBlobs.symm, h.docIds.symm, h.docQuality.symm, h.nextDocId.symm⟩

theorem MutableSegment.SameContent.trans {seg seg' seg'' : MutableSegment}
    (h : seg.SameContent seg') (h' : seg'.SameContent seg'') : seg.SameContent seg'' :=
  ⟨h.fieldData.trans h'.fieldData, h.storedBlobs.trans h'.storedBlobs, h.docIds.trans h'.docIds,
    h.docQuality.trans h'.docQuality, h.nextDocId.trans h'.nextDocId⟩

/-! ### One document -/

/-- What is replayed for a document that was logged: fields may be missing, and the weights and
the quality are. -/
structure LoggedAs (doc kept : Document) : Prop where
  id : kept.id = doc.id
  fields : ∀ k, kept.fields.find? k = doc.fields.find? k ∨ kept.fields.find? k = none
  weights : kept.fieldTokenWeights = .empty
  quality : kept.docQuality = none

/-- Nothing that the schema asks for is lost with a document: a field is there, or it is not stored
and its text has no token; the greatest weight of every term is the one it has without weights; and
the quality is the one a document without a quality has. -/
structure Schema.KeptWhole (schema : Schema) (doc kept : Document) : Prop where
  fields : ∀ f ∈ schema.fields, f.name ≠ Schema.kIdField →
    kept.fields.find? f.name = doc.fields.find? f.name ∨ f.stored = false ∧ docTokens f doc = []
  weights : ∀ f ∈ schema.fields, ∀ ws, fieldWeights f doc = some ws → ∀ term st,
    (termStats (some ws) (docTokens f doc)).find? term = some st → st.maxWeight = F32.one
  quality : schema.storeDocQuality = true → doc.docQuality.getD F32.zero = F32.zero

section Terms

variable {f : FieldMapping} {doc kept : Document} {ws : Option (List F32)} {tokens : List Token}

/-- The frequency and the first position of a term, without its weight. -/
def unweighted (st : PerDocTermStats) : UInt32 × UInt16 := (st.tf, st.firstPos)

theorem termStats_unweighted (ws ws' : Option (List F32)) (tokens : List Token) (term : Bytes) :
    ((termStats ws tokens).find? term).map unweighted =
      ((termStats ws' tokens).find? term).map unweighted := by
  induction tokens using List.reverseRecOn generalizing term with
  | nil => rfl
  | append_singleton tokens t ih =>
    rw [termStats_append_singleton, termStats_append_singleton, SortedMap.find?_insert,
      SortedMap.find?_insert]
    split_ifs with hterm
    · have hold : unweighted (((termStats ws tokens).find? t.text).getD {}) =
          unweighted (((termStats ws' tokens).find? t.text).getD {}) := by
        have hmap := congrArg (·.getD (unweighted {})) (ih t.text)
        simpa only [Option.getD_map] using hmap
      obtain ⟨htf, hpos⟩ := Prod.mk.inj hold
      refine congrArg some (Prod.ext ?_ ?_)
      · show (tokenStats ws _ _).tf = (tokenStats ws' _ _).tf
        rw [tf_tokenStats, tf_tokenStats, htf]
      · show (tokenStats ws _ _).firstPos = (tokenStats ws' _ _).firstPos
        rw [firstPos_tokenStats, firstPos_tokenStats, htf, hpos]
    · exact ih term

/-- A posting does not depend on its weights when these are the ones of a document without. -/
theorem docPosting_eq_iff (hkept : fieldWeights f kept = none)
    (htokens : docTokens f kept = docTokens f doc) (id : ℕ) :
    (∀ term, docPosting f kept id term = docPosting f doc id term) ↔
      ∀ ws, fieldWeights f doc = some ws → ∀ term st,
        (termStats (some ws) (docTokens f doc)).find? term = some st → st.maxWeight = F32.one := by
  cases hws : fieldWeights f doc with
  | none =>
    refine iff_of_true (fun term ↦ ?_) fun ws h ↦ by cases h
    rw [docPosting, docPosting, hkept, hws, htokens]
  | some ws =>
    have hmap : ∀ term, ((termStats none (docTokens f doc)).find? term).map unweighted =
        ((termStats (some ws) (docTokens f doc)).find? term).map unweighted :=
      termStats_unweighted _ _ _
    constructor
    · rintro h _ ⟨⟩ term st hst
      have hterm := h term
      rw [docPosting, docPosting, hkept, hws, htokens, hst] at hterm
      obtain ⟨st', -, hst'⟩ := Option.map_eq_some_iff.1 hterm
      exact (congrArg Posting.maxTokenWeight hst').symm
    · intro h term
      have hterm := hmap term
      rw [docPosting, docPosting, hkept, hws, htokens]
      cases hst : (termStats (some ws) (docTokens f doc)).find? term with
      | none =>
        rw [hst] at hterm
        rw [Option.map_eq_none_iff.1 hterm]
        rfl
      | some st =>
        rw [hst] at hterm
        obtain ⟨st', hst', heq⟩ := Option.map_eq_some_iff.1 hterm
        obtain ⟨htf, hpos⟩ := Prod.mk.inj heq
        rw [hst']
        show some (toPosting none id st') = some (toPosting (some ws) id st)
        rw [toPosting, toPosting, htf, hpos, Option.isSome_some, if_pos rfl, h ws rfl term st hst]
        rfl

end Terms

section Fields

variable {f : FieldMapping} {schema : Schema} {doc kept : Document} {docs kepts : List Document}

/-- The data of a field depends on the tokens and the postings of its documents. -/
theorem indexField_congr {id : ℕ} (htokens : docTokens f kept = docTokens f doc)
    (hposting : ∀ term, docPosting f kept id term = docPosting f doc id term)
    (fd : MutableFieldData) : indexField kept id f fd = indexField doc id f fd := by
  have hlength : ∀ d : Document, (indexField d id f fd).sumFieldLength =
      if docTokens f d = [] then fd.sumFieldLength
      else fd.sumFieldLength + UInt64.ofNat (docTokens f d).length := by
    intro d
    rw [indexField, docTokens]
    cases fieldValue f d with
    | none => exact (if_pos rfl).symm
    | some value =>
      dsimp only
      split_ifs <;> rfl
  have hpostings : (indexField kept id f fd).postings = (indexField doc id f fd).postings :=
    SortedMap.ext_find? fun term ↦ by rw [find?_indexField, find?_indexField, hposting]
  have hsum :
      (indexField kept id f fd).sumFieldLength = (indexField doc id f fd).sumFieldLength := by
    rw [hlength, hlength, htokens]
  have hcount : (indexField kept id f fd).docCount = (indexField doc id f fd).docCount := by
    rw [docCount_indexField, docCount_indexField, htokens]
  generalize indexField kept id f fd = left at hpostings hsum hcount ⊢
  generalize indexField doc id f fd = right at hpostings hsum hcount ⊢
  obtain ⟨_, _, _⟩ := left
  obtain ⟨_, _, _⟩ := right
  exact MutableFieldData.mk.injEq .. ▸ ⟨hpostings, hsum, hcount⟩

/-- Documents that add the same to a field make the same data. -/
theorem fieldDataOf_congr (h : List.Forall₂ (fun doc kept ↦
    ∀ id fd, indexField kept id f fd = indexField doc id f fd) docs kepts) :
    fieldDataOf f docs = fieldDataOf f kepts := by
  have hfold : ∀ (n : ℕ) (fd : MutableFieldData),
      (docs.zipIdx n).foldl (fun fd p ↦ indexField p.1 p.2 f fd) fd =
        (kepts.zipIdx n).foldl (fun fd p ↦ indexField p.1 p.2 f fd) fd := by
    induction h with
    | nil => exact fun _ _ ↦ rfl
    | cons hdoc _ ih =>
      intro n fd
      rw [List.zipIdx_cons, List.zipIdx_cons, List.foldl_cons, List.foldl_cons, ih, hdoc]
  exact hfold 0 {}

/-- The postings of a field say what each of its documents contributed. -/
theorem docPosting_of_postingsOf {i : ℕ} {term : Bytes} (hdoc : docs[i]? = some doc)
    (hkept : kepts[i]? = some kept) (h : postingsOf f docs term = postingsOf f kepts term) :
    docPosting f kept i term = docPosting f doc i term := by
  have hmem : ∀ {docs : List Document} {d : Document} {p : Posting}, docs[i]? = some d →
      (docPosting f d i term = some p ↔ p ∈ postingsOf f docs term ∧ p.docId = i) := by
    intro docs d p hd
    rw [mem_postingsOf]
    constructor
    · intro hp
      have hid := docId_of_docPosting hp
      exact ⟨⟨d, hid ▸ hd, hid ▸ hp⟩, hid⟩
    · rintro ⟨⟨d', hd', hp⟩, rfl⟩
      rwa [Option.some.inj (hd.symm.trans hd')]
  refine Option.ext fun p ↦ ?_
  rw [hmem hkept, hmem hdoc, h]

theorem postingsOf_of_fieldDataOf (h : fieldDataOf f docs = fieldDataOf f kepts) (term : Bytes) :
    postingsOf f docs term = postingsOf f kepts term := by
  rw [← list_fieldDataOf, ← list_fieldDataOf, h]

/-- The tokens of a field of a replayed document. -/
theorem LoggedAs.docTokens (h : LoggedAs doc kept) (f : FieldMapping) :
    docTokens f kept = docTokens f doc ∨
      f.name ≠ Schema.kIdField ∧ kept.fields.find? f.name = none ∧ docTokens f kept = [] := by
  rw [Spp.Index.docTokens, Spp.Index.docTokens, fieldValue, fieldValue]
  split_ifs with hid
  · rw [h.id]
    exact Or.inl rfl
  · rcases h.fields f.name with hsame | hnone
    · rw [hsame]
      exact Or.inl rfl
    · rw [hnone]
      exact Or.inr ⟨hid, rfl, rfl⟩

theorem LoggedAs.fieldWeights (h : LoggedAs doc kept) (f : FieldMapping) :
    fieldWeights f kept = none := by
  rw [Spp.Index.fieldWeights, h.weights, SortedMap.find?_empty, ite_self]

/-- A round of the loop that collects the stored fields. -/
def storeField (doc : Document) (stored : SortedMap Bytes Bytes) (f : FieldMapping) :
    SortedMap Bytes Bytes :=
  if f.stored ∧ f.name ≠ Schema.kIdField then
    match doc.fields.find? f.name with
    | some value => stored.insert f.name value
    | none => stored
  else stored

theorem find?_storeField (doc : Document) {k : Bytes} (hk : k ≠ Schema.kIdField)
    (stored : SortedMap Bytes Bytes) (f : FieldMapping) : (storeField doc stored f).find? k =
      if f.stored = true ∧ f.name = k then (doc.fields.find? k).or (stored.find? k)
      else stored.find? k := by
  rw [storeField]
  by_cases hf : f.stored = true ∧ f.name = k
  · obtain ⟨hstored, rfl⟩ := hf
    rw [if_pos ⟨hstored, hk⟩, if_pos ⟨hstored, rfl⟩]
    cases doc.fields.find? f.name with
    | none => rfl
    | some value => exact SortedMap.find?_insert_self ..
  · rw [if_neg hf]
    split_ifs with hstored
    · cases doc.fields.find? f.name with
      | none => rfl
      | some value =>
        exact SortedMap.find?_insert_of_ne _ (fun heq ↦ hf ⟨hstored.1, heq.symm⟩) _
    · rfl

/-- The loop that collects the stored fields, at one name. -/
theorem find?_foldl_storeField (doc : Document) {k : Bytes} (hk : k ≠ Schema.kIdField)
    (l : List FieldMapping) : ∀ stored : SortedMap Bytes Bytes,
    (l.foldl (storeField doc) stored).find? k =
      if ∃ f ∈ l, f.stored = true ∧ f.name = k then (doc.fields.find? k).or (stored.find? k)
      else stored.find? k := by
  induction l with
  | nil => exact fun _ ↦ by simp
  | cons f l ih =>
    intro stored
    rw [List.foldl_cons, ih, find?_storeField doc hk]
    simp only [List.exists_mem_cons_iff]
    by_cases hf : f.stored = true ∧ f.name = k
    · rw [if_pos hf, if_pos (Or.inl hf), ← Option.or_assoc, Option.or_self, ite_self]
    · rw [if_neg hf]
      simp only [hf, false_or]

/-- What is stored of a document under a name. -/
theorem find?_storedFields_of_ne (schema : Schema) (doc : Document) {k : Bytes}
    (hk : k ≠ Schema.kIdField) : (storedFields schema doc).find? k =
      if ∃ f ∈ schema.fields, f.stored = true ∧ f.name = k then doc.fields.find? k else none := by
  have hstart : (SortedMap.empty.insert Schema.kIdField doc.id).find? k = none :=
    SortedMap.find?_insert_of_ne _ hk _
  show (schema.fields.foldl (storeField doc) _).find? k = _
  rw [find?_foldl_storeField doc hk, hstart, Option.or_none]

/-- A document that is kept whole has the tokens it had. -/
theorem Schema.KeptWhole.docTokens (h : schema.KeptWhole doc kept) (hlogged : LoggedAs doc kept)
    (hf : f ∈ schema.fields) : Spp.Index.docTokens f kept = Spp.Index.docTokens f doc := by
  rcases hlogged.docTokens f with hsame | ⟨hid, hnone, hempty⟩
  · exact hsame
  rcases h.fields f hf hid with hsame | ⟨-, hdoc⟩
  · rw [hempty, Spp.Index.docTokens, fieldValue, if_neg hid, ← hsame, hnone]
  · rw [hempty, hdoc]

theorem Schema.KeptWhole.indexField (h : schema.KeptWhole doc kept) (hlogged : LoggedAs doc kept)
    (hf : f ∈ schema.fields) (id : ℕ) (fd : MutableFieldData) :
    Spp.Index.indexField kept id f fd = Spp.Index.indexField doc id f fd := by
  have htokens := h.docTokens hlogged hf
  exact indexField_congr htokens
    ((docPosting_eq_iff (hlogged.fieldWeights f) htokens id).2 (h.weights f hf)) fd

theorem Schema.KeptWhole.storedFields (h : schema.KeptWhole doc kept)
    (hlogged : LoggedAs doc kept) :
    storedFields schema kept = storedFields schema doc := SortedMap.ext_find? fun k ↦ by
  by_cases hk : k = Schema.kIdField
  · rw [hk, find?_storedFields, find?_storedFields, hlogged.id]
  · rw [find?_storedFields_of_ne schema _ hk, find?_storedFields_of_ne schema _ hk]
    split_ifs with hstored
    · obtain ⟨f, hf, hstored, rfl⟩ := hstored
      refine (h.fields f hf hk).resolve_right fun hlost ↦ ?_
      exact absurd (hstored.symm.trans hlost.1) (by decide)
    · rfl

/-- A document that adds the same postings and is stored the same was kept whole. -/
theorem keptWhole_of_same (hlogged : LoggedAs doc kept) (i : ℕ)
    (hposting : ∀ f ∈ schema.fields, ∀ term, docPosting f kept i term = docPosting f doc i term)
    (hstored : storedFields schema kept = storedFields schema doc)
    (hquality : schema.storeDocQuality = true →
      kept.docQuality.getD F32.zero = doc.docQuality.getD F32.zero) :
    schema.KeptWhole doc kept := by
  -- Without a posting there is no token.
  have hempty : ∀ f ∈ schema.fields, docTokens f kept = [] → docTokens f doc = [] := by
    intro f hf hnone
    refine List.eq_nil_iff_forall_not_mem.2 fun t ht ↦ ?_
    have hsome : (docPosting f doc i t.text).isSome := docPosting_isSome_iff.2 ⟨t, ht, rfl⟩
    rw [← hposting f hf, docPosting_isSome_iff, hnone] at hsome
    obtain ⟨t', ht', -⟩ := hsome
    exact List.not_mem_nil ht'
  refine ⟨fun f hf hid ↦ ?_, fun f hf ws hws term st hst ↦ ?_, fun hq ↦ ?_⟩
  · by_cases hfs : f.stored = true
    · have hfind := congrArg (·.find? f.name) hstored
      simp only [find?_storedFields_of_ne schema _ hid] at hfind
      rw [if_pos ⟨f, hf, hfs, rfl⟩, if_pos ⟨f, hf, hfs, rfl⟩] at hfind
      exact Or.inl hfind
    · rcases hlogged.fields f.name with hsame | hnone
      · exact Or.inl hsame
      · refine Or.inr ⟨Bool.eq_false_iff.2 hfs, hempty f hf ?_⟩
        rw [docTokens, fieldValue, if_neg hid, hnone]
  · rcases hlogged.docTokens f with hsame | ⟨_, _, hnone⟩
    · exact (docPosting_eq_iff (hlogged.fieldWeights f) hsame i).1 (hposting f hf) ws hws term st
        hst
    · rw [hempty f hf hnone] at hst
      cases hst
  · rw [← hquality hq, hlogged.quality]
    rfl

end Fields

section Segments

variable [LibcDecimal] {schema : Schema} {doc kept : Document} {docs kepts : List Document}

theorem storedFields_of_storedBlob
    (h : MutableSegment.storedBlob schema kept = MutableSegment.storedBlob schema doc) :
    storedFields schema kept = storedFields schema doc := by
  have hjson : ofStrings (storedFields schema kept) = ofStrings (storedFields schema doc) := by
    have hparse := congrArg parse h
    rw [MutableSegment.storedBlob, MutableSegment.storedBlob, parse_serialize_ofStrings,
      parse_serialize_ofStrings] at hparse
    exact Except.ok.inj hparse
  refine SortedMap.ext_find? fun k ↦ ?_
  rw [← findString_ofStrings, hjson, findString_ofStrings]

/-- A schema that is read back makes the same segments. -/
theorem sameContent_build_readBack (schema : Schema) (docs : List Document) :
    (MutableSegment.build schema.readBack docs).SameContent (.build schema docs) where
  fieldData := List.map_map
  storedBlobs := List.map_congr_left fun doc _ ↦ by
    rw [MutableSegment.storedBlob, MutableSegment.storedBlob, storedFields, storedFields]
    exact congrArg (fun o ↦ serialize (ofStrings o)) List.foldl_map
  docIds := rfl
  docQuality := rfl
  nextDocId := rfl

open MutableSegment in
/-- **The segment is the same exactly if every document was kept whole.** -/
theorem sameContent_build_iff (schema : Schema) (h : List.Forall₂ LoggedAs docs kepts) :
    (build schema docs).SameContent (build schema kepts) ↔
      List.Forall₂ schema.KeptWhole docs kepts := by
  constructor
  · intro hsame
    obtain ⟨hlen, hlogged⟩ := List.forall₂_iff_get.1 h
    refine List.forall₂_iff_get.2 ⟨hlen, fun i hi hi' ↦
      keptWhole_of_same (hlogged i hi hi') i ?_ ?_ ?_⟩
    · intro f hf term
      have hdata := List.map_inj_left.1 hsame.fieldData f hf
      exact docPosting_of_postingsOf (List.getElem?_eq_getElem hi) (List.getElem?_eq_getElem hi')
        (postingsOf_of_fieldDataOf hdata term)
    · have hblob := congrArg (·[i]?) hsame.storedBlobs
      simp only [build, List.getElem?_map, List.getElem?_eq_getElem hi,
        List.getElem?_eq_getElem hi', Option.map_some, Option.some.injEq] at hblob
      exact storedFields_of_storedBlob hblob.symm
    · intro hq
      have hquality := congrArg (·[i]?) hsame.docQuality
      simp only [build, hq, if_true, List.getElem?_map, List.getElem?_eq_getElem hi,
        List.getElem?_eq_getElem hi', Option.map_some, Option.some.injEq] at hquality
      exact hquality.symm
  · intro hwhole
    have hboth : List.Forall₂ (fun doc kept ↦ LoggedAs doc kept ∧ schema.KeptWhole doc kept)
        docs kepts := List.forall₂_iff_get.2 ⟨h.length_eq, fun i hi hi' ↦
      ⟨(List.forall₂_iff_get.1 h).2 i hi hi', (List.forall₂_iff_get.1 hwhole).2 i hi hi'⟩⟩
    have hmap : ∀ {β : Type} (g : Document → β), (∀ doc kept, LoggedAs doc kept ∧
        schema.KeptWhole doc kept → g doc = g kept) → docs.map g = kepts.map g := by
      intro β g hg
      rw [← List.forall₂_eq_eq_eq, List.forall₂_map_left_iff, List.forall₂_map_right_iff]
      exact hboth.imp hg
    refine ⟨?_, ?_, ?_, ?_, h.length_eq⟩
    · refine List.map_congr_left fun f hf ↦ fieldDataOf_congr (hboth.imp fun doc kept hdoc ↦ ?_)
      exact hdoc.2.indexField hdoc.1 hf
    · refine hmap _ fun doc kept hdoc ↦ ?_
      rw [storedBlob, storedBlob, hdoc.2.storedFields hdoc.1]
    · exact hmap _ fun doc kept hdoc ↦ hdoc.1.id.symm
    · show (if schema.storeDocQuality then _ else _) = if schema.storeDocQuality then _ else _
      split_ifs with hq
      · refine hmap _ fun doc kept hdoc ↦ ?_
        rw [hdoc.2.quality hq, hdoc.1.quality]
        rfl
      · rfl

end Segments


/-! ### What the log keeps -/

variable [LibcDecimal]

/-- A document and its JSON, as `PostDoc` and `spp_index` hand them over: every string of the JSON
is the text of its field. -/
structure Handed (doc : Document) (rawJson : Bytes) : Prop extends Loggable doc rawJson where
  strings : ∀ obj, parse rawJson = .ok (.object obj) → ∀ k text, k ≠ Schema.kIdField →
    Assoc.find? k obj = some (.string text) → doc.fields.find? k = some text

/-- The replay of its record keeps the document whole. -/
def Schema.Survives (schema : Schema) (doc : Document) (rawJson : Bytes) : Prop :=
  ∀ kept, replayedDoc (logRecord doc rawJson) = some kept → schema.KeptWhole doc kept

section Replays

variable {doc kept : Document} {rawJson rec : Bytes} {schema : Schema}

theorem replayedDoc_of_parse {obj : JsonObject} (h : parse rec = .ok (.object obj))
    (hid : ((JsonValue.object obj).findString Schema.kIdField).getD [] ≠ []) :
    replayedDoc rec = some (obj.foldl addMember {}) := by
  have hdoc := id_foldl_addMember (wellFormed_of_parse h).1
  rw [replayedDoc, docFromJson, h]
  show Except.toOption (if _ then _ else _) = _
  rw [hdoc, if_neg hid]
  rfl

/-- What is replayed has neither weights nor a quality. -/
theorem loggedAs_self (h : replayedDoc rec = some doc) : LoggedAs doc doc := by
  cases hdoc : docFromJson rec with
  | error => rw [replayedDoc, hdoc] at h; cases h
  | ok doc' =>
    rw [replayedDoc, hdoc] at h
    obtain rfl := Option.some.inj h
    obtain ⟨v, -, hv⟩ := bind_eq_ok.1 hdoc
    cases v with
    | object obj =>
      dsimp only at hv
      split_ifs at hv
      obtain rfl := Except.ok.inj hv
      obtain ⟨hweights, hquality⟩ := foldl_addMember_rest obj
      exact ⟨rfl, fun _ ↦ Or.inl rfl, hweights, hquality⟩
    | null | bool | int | double | string | array => exact absurd hv (by simp)

omit [LibcDecimal] in
/-- What was replayed once is kept whole. -/
theorem LoggedAs.keptWhole_self (h : LoggedAs doc doc) : schema.KeptWhole doc doc := by
  refine ⟨fun _ _ _ ↦ Or.inl rfl, fun f _ ws hws ↦ ?_, fun _ ↦ ?_⟩
  · cases (h.fieldWeights f).symm.trans hws
  · rw [h.quality]
    rfl

/-- **What is replayed for a document** that has an id. -/
theorem Handed.loggedAs (h : Handed doc rawJson) (hid : doc.id ≠ []) :
    ∃ kept, replayedDoc (logRecord doc rawJson) = some kept ∧ LoggedAs doc kept := by
  by_cases hraw : rawJson = []
  · refine ⟨{ id := doc.id, fields := doc.fields }, ?_, rfl, fun _ ↦ Or.inl rfl, rfl, rfl⟩
    rw [logRecord, if_pos hraw, replayedDoc, docFromJson_docToJson h.noId hid]
    rfl
  · obtain ⟨obj, hparse, hdoc⟩ := h.body hraw
    have hobj := (wellFormed_of_parse hparse).1
    obtain ⟨hweights, hquality⟩ := foldl_addMember_rest obj
    refine ⟨obj.foldl addMember {}, ?_, ?_, fun k ↦ ?_, hweights, hquality⟩
    · rw [logRecord, if_neg hraw]
      exact replayedDoc_of_parse hparse (hdoc ▸ hid)
    · rw [id_foldl_addMember hobj, hdoc]
    · by_cases hk : k = Schema.kIdField
      · rw [hk, find?_foldl_addMember_id]
        exact Or.inr rfl
      rw [find?_foldl_addMember hobj hk]
      cases hv : Assoc.find? k obj with
      | none => exact Or.inr rfl
      | some v =>
        cases v with
        | string text => exact Or.inl (h.strings obj hparse k text hk hv).symm
        | null | bool | int | double | array | object => exact Or.inr rfl

theorem replayedDoc_eq_none (h : Loggable doc rawJson) (hid : doc.id = []) :
    replayedDoc (logRecord doc rawJson) = none := by
  have hnone := replayedId_logRecord h
  rw [if_pos hid, replayedId] at hnone
  exact Option.map_eq_none_iff.1 hnone

end Replays

/-! ### The history of a segment -/

/-- The segment in memory is a new one. -/
def WriterEvent.renews : WriterEvent → Bool
  | .refreshed ok | .opened _ ok => ok
  | _ => false

/-- The call of `AddDocument` that was accepted, if any. -/
def WriterEvent.acceptedCall : WriterEvent → Option (Document × Bytes)
  | .added doc rawJson true => some (doc, rawJson)
  | _ => none

/-- The calls that were accepted since the segment in memory is there. -/
def pendingCalls (es : List WriterEvent) : List (Document × Bytes) :=
  (es.rtakeWhile fun e ↦ !e.renews).filterMap WriterEvent.acceptedCall

/-- The documents that are handed over come with their JSON. -/
def WriterEvent.HandedOver : WriterEvent → Prop
  | .added doc rawJson _ | .addCut doc rawJson => Handed doc rawJson
  | _ => True

section History

omit [LibcDecimal]

variable {es : List WriterEvent} {e : WriterEvent}

theorem pendingCalls_of_renews (h : e.renews = true) (es : List WriterEvent) :
    pendingCalls (es ++ [e]) = [] := by
  rw [pendingCalls, List.rtakeWhile_concat_neg _ _ _ (by simp [h]), List.filterMap_nil]

theorem pendingCalls_of_not (h : e.renews = false) (es : List WriterEvent) :
    pendingCalls (es ++ [e]) = pendingCalls es ++ e.acceptedCall.toList := by
  rw [pendingCalls, List.rtakeWhile_concat_pos _ _ _ (by simp [h]), List.filterMap_append,
    List.filterMap_cons]
  cases e.acceptedCall <;> rfl

end History

/-- A document that was accepted, and what is replayed for it. -/
def Relogged (call : Document × Bytes) (kept : Document) : Prop :=
  replayedDoc (logRecord call.1 call.2) = some kept ∧ LoggedAs call.1 kept

/-- What is in memory was replayed or accepted since, and so is what the log stands for. -/
def Ledger.Relogs (L : Ledger) (es : List WriterEvent) : Prop :=
  ∀ docs, L.pending = some docs → ∃ replayed kepts, (∀ doc ∈ replayed, LoggedAs doc doc) ∧
    docs = replayed ++ (pendingCalls es).map Prod.fst ∧
      replayedDocs L.log = replayed ++ kepts ∧ List.Forall₂ Relogged (pendingCalls es) kepts

section Ledgers

variable {L L' : Ledger} {e : WriterEvent} {es : List WriterEvent}

/-- What accepts nothing leaves the history of the segment as it is. -/
theorem Ledger.Relogs.silent (h : L.Relogs es) (hrenews : e.renews = false)
    (haccepted : e.acceptedCall = none) (hlog : replayedDocs L'.log = replayedDocs L.log)
    (hpending : ∀ docs, L'.pending = some docs → L.pending = some docs) :
    L'.Relogs (es ++ [e]) := by
  intro docs hdocs
  rw [pendingCalls_of_not hrenews, haccepted, hlog]
  simpa using h docs (hpending docs hdocs)

/-- After a step that begins a segment only what is replayed is in memory. -/
theorem Ledger.Relogs.renewed (hrenews : e.renews = true) {replayed : List Document}
    (hreplayed : ∀ doc ∈ replayed, LoggedAs doc doc) (hlog : replayedDocs L'.log = replayed)
    (hpending : ∀ docs, L'.pending = some docs → docs = replayed) : L'.Relogs (es ++ [e]) := by
  intro docs hdocs
  rw [pendingCalls_of_renews hrenews]
  exact ⟨replayed, [], hreplayed, by simp [hpending docs hdocs], by simp [hlog], .nil⟩

theorem loggedAs_of_mem_replayedDocs {recs : List Bytes} {doc : Document}
    (h : doc ∈ replayedDocs recs) : LoggedAs doc doc := by
  obtain ⟨rec, -, hrec⟩ := List.mem_filterMap.1 h
  exact loggedAs_self hrec

/-- **Every step keeps the history of the segment.** -/
theorem LedgerStep.relogs (hstep : LedgerStep False L e L') (hhanded : e.HandedOver)
    (hroom : L.RoomToLog e) (h : L.Relogs es) : L'.Relogs (es ++ [e]) := by
  have hgone : ∀ {shelves log}, Ledger.Relogs { shelves, log, pending := none } (es ++ [e]) := by
    rintro _ _ _ ⟨⟩
  cases hstep with
  | opened =>
    refine .renewed rfl (fun doc hdoc ↦ loggedAs_of_mem_replayedDocs hdoc) rfl ?_
    rintro _ ⟨⟩
    rfl
  | notOpened | openCut | refused | notSealed => exact h.silent rfl rfl rfl fun _ hdocs ↦ hdocs
  | notLogged hloose | notTruncated hloose => exact hloose.elim
  | @rejected docs doc rawJson log hdocs hrej hlog =>
    obtain rfl := hlog.resolve_left not_false
    obtain ⟨docs', hdocs', hleft⟩ := hroom doc rawJson (Or.inr ⟨_, rfl⟩)
    have hid : doc.id = [] := hrej.resolve_right fun hfull ↦
      hleft (Option.some.inj (hdocs'.symm.trans hdocs) ▸ hfull)
    refine h.silent rfl rfl ?_ fun _ hdocs ↦ hdocs
    have hnone : replayedDocs [logRecord doc rawJson] = [] := by
      rw [replayedDocs, List.filterMap_cons, replayedDoc_eq_none hhanded.toLoggable hid]
      rfl
    rw [replayedDocs_append, hnone, List.append_nil]
  | @accepted docs doc rawJson log hdocs hid hlog =>
    obtain rfl := hlog.resolve_left not_false
    obtain ⟨replayed, kepts, hreplayed, hheld, hlogged, hkepts⟩ := h docs hdocs
    obtain ⟨kept, hkept, hsame⟩ := Handed.loggedAs hhanded hid
    rintro _ ⟨⟩
    refine ⟨replayed, kepts ++ [kept], hreplayed, ?_, ?_, ?_⟩
    · rw [pendingCalls_of_not rfl, hheld, List.append_assoc]
      show _ = replayed ++ (pendingCalls es ++ [(doc, rawJson)]).map Prod.fst
      rw [List.map_append]
      rfl
    · show replayedDocs (L.log ++ [logRecord doc rawJson]) = _
      rw [replayedDocs_append, hlogged, List.append_assoc, replayedDocs, List.filterMap_cons, hkept]
      rfl
    · rw [pendingCalls_of_not rfl]
      exact List.rel_append hkepts (.cons ⟨hkept, hsame⟩ .nil)
  | idle hnil =>
    -- Nothing is in memory, so the log stands for nothing.
    obtain ⟨replayed, kepts, -, hheld, hlogged, hkepts⟩ := h [] hnil
    obtain ⟨rfl, hcalls⟩ := List.append_eq_nil_iff.1 hheld.symm
    rw [List.map_eq_nil_iff.1 hcalls, List.forall₂_nil_left_iff] at hkepts
    have hnone : ∀ doc ∈ ([] : List Document), LoggedAs doc doc := by simp
    refine .renewed rfl hnone (by rw [hlogged, hkepts]; rfl) ?_
    intro docs hdocs
    exact Option.some.inj (hdocs.symm.trans hnil)
  | shelved =>
    have hnone : ∀ doc ∈ ([] : List Document), LoggedAs doc doc := by simp
    refine .renewed rfl hnone rfl ?_
    rintro _ ⟨⟩
    rfl
  | addCut | savedCut | truncatedCut | sealCut | closed | crashed => exact hgone

end Ledgers

/-! ### Closing and opening again -/

/-- The sealed segments of the writer are those of their files. -/
def Reads (s : WriterState) : Prop :=
  ∀ w, s.writer = some w → ∀ r ∈ w.sealedSegments, SegmentReader.openDisk s.disk r.stem = .ok r

section Readers

variable {F : Faults} {s s' : WriterState} {e : WriterEvent} {w : IndexWriter} {d d₁ : Disk}

omit [LibcDecimal] in
theorem openDisk_of_mapM {l : List ManifestSegment} {rs : List SegmentReader}
    (h : (l.mapM fun ms ↦ SegmentReader.openDisk d ms.stem) = .ok rs) :
    ∀ r ∈ rs, SegmentReader.openDisk d r.stem = .ok r := by
  induction l generalizing rs with
  | nil =>
    cases h
    simp
  | cons ms l ih =>
    rw [List.mapM_cons] at h
    obtain ⟨r, hr, h⟩ := bind_eq_ok.1 h
    obtain ⟨rs, hrs, h⟩ := bind_eq_ok.1 h
    cases h
    intro r' hr'
    rcases List.mem_cons.1 hr' with rfl | hr'
    · rwa [(SegmentReader.openDisk_eq_ok hr).1]
    · exact ih hrs r' hr'

omit [LibcDecimal] in
/-- The files of some readers give these readers. -/
theorem mapM_openDisk {rs : List SegmentReader}
    (h : ∀ r ∈ rs, SegmentReader.openDisk d r.stem = .ok r) :
    ((rs.map fun r ↦ (⟨r.stem, r.docCount⟩ : ManifestSegment)).mapM
      fun ms ↦ SegmentReader.openDisk d ms.stem) = .ok rs := by
  induction rs with
  | nil => rfl
  | cons r rs ih =>
    rw [List.map_cons, List.mapM_cons]
    refine bind_eq_ok.2 ⟨r, h r List.mem_cons_self, bind_eq_ok.2 ⟨rs, ?_, rfl⟩⟩
    exact ih fun r' hr' ↦ h r' (List.mem_cons_of_mem _ hr')

/-- **The readers of a writer stay those of its files.** -/
theorem WriterMove.reads (hmove : WriterMove F s e s') (hF : F.Quiet) (h : StemsGiven s)
    (hlisted : ∀ w, s.writer = some w →
      Manifest.ofDisk s.disk = .ok (manifestOf w.currentGen w.sealedSegments))
    (hreads : Reads s) : Reads s' := by
  -- The files of a listed segment are as they were.
  have hstill : ∀ {w r}, s.writer = some w → r ∈ w.sealedSegments →
      SegmentReader.openDisk s'.disk r.stem = .ok r := by
    intro w r hw hr
    have hstem : r.stem ∈ listedStems s.disk := by
      rw [listedStems_of_ok (hlisted w hw), manifestOf, List.map_map]
      exact List.mem_map_of_mem (f := fun r : SegmentReader ↦ r.stem) hr
    rw [openDisk_congr fun n hn ↦ hmove.keeps h hstem hn]
    exact hreads w hw r hr
  have hexts : ∀ ext ∈ [kSegPostingsExt, kSegTermsExt, kSegStoredExt, kSegStoredIdxExt, kSegInfoExt,
      kSegDocQualityExt], ¬ext <:+ kTranslogName := by decide
  cases hmove with
  | @opened initial schema d₁ t w hnone hfound _ hw =>
    rintro _ ⟨⟩ r hr
    obtain ⟨w₁, hw₁, hw⟩ := bind_eq_ok.1 hw
    obtain ⟨seg, -, hw⟩ := bind_eq_ok.1 hw
    obtain ⟨m, -, hw₁⟩ := bind_eq_ok.1 hw₁
    obtain ⟨rs, hrs, hw₁⟩ := bind_eq_ok.1 hw₁
    cases hw₁
    cases hw
    rw [openDisk_congr fun n hn ↦ ?_]
    · exact openDisk_of_mapM hrs r hr
    · obtain ⟨ext, hext, rfl⟩ := List.mem_map.1 hn
      show touched d₁ (r.stem ++ ext) = d₁ (r.stem ++ ext)
      exact d₁.put_of_ne (IndexWriter.ne_kTranslogName _ ext (hexts ext hext)) _
  | notOpened | openCut | addCut | refreshCut | closed | crashed => rintro _ ⟨⟩
  | added hw hadd =>
    rintro _ ⟨⟩ r hr
    cases hadd with
    | refused | notLogged | rejected | accepted => exact hstill hw hr
  | refreshed hw href =>
    rintro _ ⟨⟩ r hr
    cases href with
    | refused | idle | sealFailed => exact hstill hw hr
    | saveFailed _ _ _ _ hf | truncateFailed _ _ _ _ _ _ hf =>
      obtain ⟨a, -, hf⟩ := hf
      exact absurd hf (hF _)
    | syncFailed _ _ _ _ hf => exact absurd hf (hF _)
    | @done r' t d₁ d₂ _ _ hs hp _ =>
      rcases List.mem_append.1 hr with hr | hr
      · exact hstill hw hr
      · obtain rfl := List.mem_singleton.1 hr
        have hopens := hs.reader.resolve_right fun hf ↦ hF _ hf.1
        rw [hs.reader_eq.1, openDisk_congr fun n hn ↦ ?_, hopens]
        have hne : n ≠ kTranslogName := fun heq ↦ not_mem_segmentNames (by decide) (heq ▸ hn)
        show d₂.put kTranslogName [] n = d₁ n
        rw [d₂.put_of_ne hne, hp.agree_segment hn]

end Readers

section Reopening

variable {F : Faults} {s : WriterState} {es : List WriterEvent} {schema : Schema}
  {calls : List (Document × Bytes)} {kepts : List Document}

/-- The documents of some calls are kept whole exactly if each survives. -/
theorem keptWhole_iff_survives (h : List.Forall₂ Relogged calls kepts) :
    List.Forall₂ schema.KeptWhole (calls.map Prod.fst) kepts ↔
      ∀ call ∈ calls, schema.Survives call.1 call.2 := by
  induction h with
  | nil => simp
  | @cons call kept _ _ hcall _ ih =>
    have hsurvives : schema.Survives call.1 call.2 ↔ schema.KeptWhole call.1 kept := by
      refine ⟨fun h ↦ h kept hcall.1, fun h kept' hkept' ↦ ?_⟩
      rwa [← Option.some.inj (hcall.1.symm.trans hkept')]
    rw [List.map_cons, List.forall₂_cons, List.forall_mem_cons, hsurvives, ih]

omit [LibcDecimal] in
theorem forall₂_append_iff {α β : Type*} {R : α → β → Prop} {l : List α} {m : List β}
    (hlen : l.length = m.length) {l' : List α} {m' : List β} :
    List.Forall₂ R (l ++ l') (m ++ m') ↔ List.Forall₂ R l m ∧ List.Forall₂ R l' m' := by
  induction l generalizing m with
  | nil =>
    obtain rfl := List.length_eq_zero_iff.1 hlen.symm
    simp
  | cons a l ih =>
    cases m with
    | nil => cases hlen
    | cons b m =>
      rw [List.cons_append, List.cons_append, List.forall₂_cons, List.forall₂_cons,
        ih (Nat.succ.inj hlen), and_assoc]

/-- The segment of a ledger is rebuilt from its log exactly if every pending call survives. -/
theorem Ledger.Relogs.sameContent_iff {L : Ledger} {docs : List Document} (h : L.Relogs es)
    (hdocs : L.pending = some docs) (schema : Schema) :
    (MutableSegment.build schema docs).SameContent (.build schema (replayedDocs L.log)) ↔
      ∀ call ∈ pendingCalls es, schema.Survives call.1 call.2 := by
  obtain ⟨replayed, kepts, hreplayed, rfl, hlogged, hkepts⟩ := h docs hdocs
  have hself : List.Forall₂ LoggedAs replayed replayed := List.forall₂_same.2 hreplayed
  have hwhole : List.Forall₂ schema.KeptWhole replayed replayed :=
    List.forall₂_same.2 fun doc hdoc ↦ (hreplayed doc hdoc).keptWhole_self
  have hcalls : List.Forall₂ LoggedAs ((pendingCalls es).map Prod.fst) kepts :=
    List.forall₂_map_left_iff.2 (hkepts.imp fun _ _ hcall ↦ hcall.2)
  rw [hlogged, sameContent_build_iff schema (List.rel_append hself hcalls),
    forall₂_append_iff rfl, keptWhole_iff_survives hkepts]
  exact and_iff_right hwhole

end Reopening

/-- What is known of an index whose documents are handed over with their JSON. -/
structure Relogging (es : List WriterEvent) (s : WriterState) (L : Ledger) : Prop
    extends Recoverable es s L where
  relogs : L.Relogs es
  reads : Reads s

section Reopened

variable {F : Faults} {s s' : WriterState} {e : WriterEvent} {es : List WriterEvent} {L : Ledger}
  {w : IndexWriter}

/-- **Every step keeps the history of the index.** -/
theorem RecoverableStep.relogging (hstep : RecoverableStep F s e s') (hhanded : e.HandedOver)
    (h : Relogging es s L) : ∃ L', Relogging (es ++ [e]) s' L' := by
  obtain ⟨L', hledger, h'⟩ := hstep.recoverable h.toRecoverable
  have hmove := hstep.step.move h.ready
  refine ⟨L', h', hledger.relogs hhanded (hstep.roomToLog h.toRecoverable) h.relogs, ?_⟩
  exact hmove.reads F.quiet_quiet h.kept.stems (fun _ ↦ h.kept.listed) h.reads

theorem exists_relogging
    (h : Run (fun s e s' ↦ RecoverableStep F s e s' ∧ e.HandedOver) .start es s) :
    ∃ L, Relogging es s L := by
  refine h.invariant_events (I := fun es s ↦ ∃ L, Relogging es s L) ?_ ?_
  · exact ⟨{}, recoverable_start, by rintro _ ⟨⟩, by rintro _ ⟨⟩⟩
  · rintro es s e s' ⟨L, h⟩ ⟨hstep, hhanded⟩
    exact hstep.relogging hhanded h

/-- A writer that is there was founded with its schema. -/
theorem Relogging.founded_of_writer (h : Relogging es s L) (hw : s.writer = some w) :
    ∃ schema, Founded s schema :=
  h.founded.resolve_left fun hempty ↦ Option.some_ne_none w (hw.symm.trans hempty.2)

/-- The files of a writer can be opened again. -/
theorem Relogging.reopens (h : Relogging es s L) (hw : s.writer = some w) (F : Faults) :
    ∃ w', RecoverableStep F ⟨none, s.disk⟩ (.opened none true) ⟨some w', touched s.disk⟩ := by
  obtain ⟨schema, hfounded⟩ := h.founded_of_writer hw
  obtain ⟨L', -, hcrashed⟩ := (RecoverableStep.of_crash F s).recoverable h.toRecoverable
  have hfounded' : Founded ⟨none, s.disk⟩ schema :=
    ⟨hfounded.exact, hfounded.hasId, hfounded.file, by rintro _ ⟨⟩⟩
  obtain ⟨t, w', -, hopen⟩ := hcrashed.reopens F rfl hfounded'
  exact ⟨w', hopen⟩

/-- **What opens the files of a writer** has its generation and its sealed segments, and its segment
in memory exactly if every document it accepted survives. -/
theorem Relogging.reopened {initial : Option Schema} (h : Relogging es s L)
    (hw : s.writer = some w)
    (hopen : WriterStep F ⟨none, s.disk⟩ (.opened initial true) s') :
    ∃ w', s' = ⟨some w', touched s.disk⟩ ∧ w'.currentGen = w.currentGen ∧
      w'.sealedSegments = w.sealedSegments ∧ w'.publishedReader.segments = w.sealedSegments ∧
        (w'.mutableSegment.SameContent w.mutableSegment ↔
          ∀ call ∈ pendingCalls es, w.schema.Survives call.1 call.2) := by
  obtain ⟨docs, hdocs, hkeeps⟩ := h.kept.writer w hw
  obtain ⟨schema, hfounded⟩ := h.founded_of_writer hw
  have hmove := hopen.move (by rintro _ ⟨⟩)
  cases hmove with
  | @opened _ schema' d₁ t w' _ hfound _ hw' =>
    obtain ⟨hschema, rfl⟩ := (hfounded.schemaFound initial).unique hfound
    obtain rfl := Except.ok.inj hschema
    obtain rfl := Except.ok.inj (hw'.symm.trans (IndexWriter.ofDisk_eq hkeeps.manifest
      (mapM_openDisk (h.reads w hw)) schema.readBack (h.replay _) t))
    refine ⟨_, rfl, rfl, rfl, rfl, ?_⟩
    have hsame : (MutableSegment.build schema.readBack (replayedDocs L.log)).SameContent
        (.build w.schema (replayedDocs L.log)) := by
      rcases hfounded.writer w hw with hschema | hschema <;> rw [hschema]
      · exact sameContent_build_readBack schema _
      · exact ⟨rfl, rfl, rfl, rfl, rfl⟩
    rw [hkeeps.pending, ← h.relogs.sameContent_iff hdocs w.schema]
    exact ⟨fun h ↦ (hsame.symm.trans h).symm, fun h ↦ hsame.trans h.symm⟩

end Reopened

/-- **Closing and opening again** gives the same generation and the same sealed segments, and the
same segment in memory exactly if every document accepted since the last `Refresh` or `Open` is
kept whole by its record. A crash in between is no different from a `Close`. -/
theorem reopened_sameContent_iff {F : Faults} {es : List WriterEvent} {s : WriterState}
    {w : IndexWriter} (h : Run (fun s e s' ↦ RecoverableStep F s e s' ∧ e.HandedOver) .start es s)
    (hw : s.writer = some w) :
    ∃ w', RecoverableStep F ⟨none, s.disk⟩ (.opened none true) ⟨some w', touched s.disk⟩ ∧
      w'.currentGen = w.currentGen ∧ w'.sealedSegments = w.sealedSegments ∧
        w'.publishedReader.segments = w.sealedSegments ∧
          (w'.mutableSegment.SameContent w.mutableSegment ↔
            ∀ call ∈ pendingCalls es, w.schema.Survives call.1 call.2) := by
  obtain ⟨L, hlog⟩ := exists_relogging h
  obtain ⟨w', hopen⟩ := hlog.reopens hw F
  obtain ⟨w'', hs', hsame⟩ := hlog.reopened hw hopen.step
  cases hs'
  exact ⟨w', hopen, hsame⟩

section Samples

omit [LibcDecimal]

theorem handed_sampleDoc : @Handed .integral sampleDoc [] := by
  refine @Handed.mk .integral _ _ loggable_sampleDoc fun obj h ↦ ?_
  cases h

theorem reopened_sameContent_iff_sample :
    ∃ (w : IndexWriter) (w' : IndexWriter), w.mutableSegment = sampleSegment ∧
      @RecoverableStep .integral Faults.none ⟨none, sampleDisk⟩ (.opened none true)
        ⟨some w', touched sampleDisk⟩ ∧
      w'.currentGen = w.currentGen ∧ w'.sealedSegments = w.sealedSegments ∧
        w'.publishedReader.segments = w.sealedSegments ∧
          (w'.mutableSegment.SameContent w.mutableSegment ↔
            ∀ call ∈ pendingCalls [.opened (some sampleSchema) true, .added sampleDoc [] true],
              @Schema.Survives .integral w.schema call.1 call.2) := by
  let _ := LibcDecimal.integral
  obtain ⟨t, hrun⟩ := recoverable_sample
  have hhanded : ∀ e ∈ [WriterEvent.opened (some sampleSchema) true, .added sampleDoc [] true],
      e.HandedOver := by
    simp [WriterEvent.HandedOver, handed_sampleDoc]
  obtain ⟨w', hw'⟩ := reopened_sameContent_iff (hrun.and_events hhanded) rfl
  exact ⟨sampleWriter t, w', rfl, hw'⟩

end Samples

end Spp.Index
