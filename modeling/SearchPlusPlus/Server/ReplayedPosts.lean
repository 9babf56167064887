import SearchPlusPlus.Index.ReplayedDocuments
import SearchPlusPlus.Server.ServedIndex
import SearchPlusPlus.Server.TokenWeights

/-!
# Replaying what was posted

`PostDoc` makes texts of numbers and Booleans, and takes weights and a quality from the body. The
log has the body, or what `DocToJson` writes where there is none, but `DocFromJson` reads its
strings only. So a writer that is closed and opened again has the segment it had exactly if nothing
else counted in the documents it accepted (`replayed_same_iff`).
-/

namespace Spp.Server

open Analyze Index Json Store

variable [LibcDecimal]

/-- A document and its JSON, as a writer gets them: the body it was posted with, or no JSON, and no
field that is called like the id. -/
inductive Given (doc : Document) : Bytes → Prop
  | posted {body : Bytes} (h : readDocument body = .ok doc) : Given doc body
  | plain (h : doc.fields.find? Schema.kIdField = none) : Given doc []

/-- The documents that are handed over come from a body or without JSON. -/
def GivesDocument : WriterEvent → Prop
  | .added doc rawJson _ | .addCut doc rawJson => Given doc rawJson
  | _ => True

/-- A value that `PostDoc` makes a text of and that is no string. -/
def Unlogged (k : Bytes) : JsonValue → Prop
  | .bool _ => True
  | .int _ | .double _ => k ≠ str "_quality"
  | _ => False

/-- The text of a field was made of a number or a Boolean. -/
def LosesText (rawJson k : Bytes) : Prop :=
  ∃ obj v, parse rawJson = .ok (.object obj) ∧ Assoc.find? k obj = some v ∧ Unlogged k v

/-- All that the schema asks for is in the strings of a document: a field with another text is not
stored and has no token; 1.0 is the greatest weight of every term; and the quality is 0. -/
structure OnlyStrings (schema : Schema) (doc : Document) (rawJson : Bytes) : Prop where
  texts : ∀ f ∈ schema.fields, f.name ≠ Schema.kIdField → LosesText rawJson f.name →
    f.stored = false ∧ docTokens f doc = []
  weights : ∀ f ∈ schema.fields, ∀ t ∈ docTokens f doc,
    F32.one.GreatestOf (weightsAt (usedWeight f doc) t.text (docTokens f doc))
  quality : schema.storeDocQuality = true → doc.docQuality.getD F32.zero = F32.zero

section Documents

variable {doc kept : Document} {rawJson body : Bytes} {schema : Schema} {f : FieldMapping}

theorem loggedText_eq_iff (k : Bytes) (v : JsonValue) :
    loggedText v = indexedText k v ↔ ¬Unlogged k v := by
  have hnumber : ∀ text : Bytes,
      none = (if k = str "_quality" then none else some text) ↔ ¬k ≠ str "_quality" := by
    intro text
    by_cases hk : k = str "_quality"
    · rw [if_pos hk]
      exact iff_of_true rfl (not_not.2 hk)
    · rw [if_neg hk]
      exact iff_of_false (Option.some_ne_none _).symm (not_not.2 hk)
  cases v with
  | int | double =>
    rw [indexedText]
    simp only [JsonValue.isNumber, and_true]
    exact hnumber _
  | bool b =>
    refine iff_of_false ?_ (not_not.2 trivial)
    rw [indexedText, if_neg fun h ↦ Bool.false_ne_true h.2]
    exact (Option.some_ne_none _).symm
  | null | string | array | object =>
    refine iff_of_true ?_ not_false
    rw [indexedText, if_neg fun h ↦ Bool.false_ne_true h.2]
    rfl

theorem exists_object_of_readDocument (h : readDocument body = .ok doc) :
    ∃ obj, parse body = .ok (.object obj) ∧ postedDocument obj = doc := by
  rw [readDocument, parseBody] at h
  cases hparse : Json.parse body with
  | error e =>
    rw [hparse] at h
    cases h
  | ok v =>
    rw [hparse] at h
    cases v with
    | object obj =>
      cases h
      exact ⟨obj, rfl, rfl⟩
    | null | bool | int | double | string | array => cases h

/-- What is given is handed over with its strings. -/
theorem Given.handed (h : Given doc rawJson) : Handed doc rawJson := by
  cases h with
  | posted h =>
    refine ⟨loggable_readDocument h, fun obj hobj k text hk hfind ↦ ?_⟩
    obtain ⟨obj', hobj', rfl⟩ := exists_object_of_readDocument h
    cases hobj.symm.trans hobj'
    rw [find?_fields_postedDocument (wellFormed_of_parse hobj).1 hk, hfind]
    exact if_neg fun hnumber ↦ Bool.false_ne_true hnumber.2
  | plain h =>
    refine ⟨⟨h, fun hne ↦ absurd rfl hne⟩, fun obj hobj ↦ ?_⟩
    cases hobj

/-- **The text of a field is replayed** unless it was made of a number or a Boolean. -/
theorem Given.find?_replayed (h : Given doc rawJson) (hid : doc.id ≠ [])
    (hkept : replayedDoc (logRecord doc rawJson) = some kept) {k : Bytes}
    (hk : k ≠ Schema.kIdField) :
    kept.fields.find? k = doc.fields.find? k ↔ ¬LosesText rawJson k := by
  cases h with
  | plain h =>
    rw [logRecord, if_pos rfl, replayedDoc, docFromJson_docToJson h hid] at hkept
    obtain rfl := Option.some.inj hkept
    refine iff_of_true rfl ?_
    rintro ⟨obj, v, hobj, -⟩
    cases hobj
  | posted h =>
    obtain ⟨obj, hobj, rfl⟩ := exists_object_of_readDocument h
    have hsorted := (wellFormed_of_parse hobj).1
    have hne : rawJson ≠ [] := by
      rintro rfl
      cases hobj
    rw [id_postedDocument] at hid
    rw [logRecord, if_neg hne, replayedDoc_of_parse hobj hid] at hkept
    obtain rfl := Option.some.inj hkept
    rw [find?_foldl_addMember hsorted hk, find?_fields_postedDocument hsorted hk]
    cases hfind : Assoc.find? k obj with
    | none =>
      refine iff_of_true rfl ?_
      rintro ⟨obj', v, hobj', hfind', -⟩
      cases hobj.symm.trans hobj'
      cases hfind.symm.trans hfind'
    | some v =>
      refine (loggedText_eq_iff k v).trans (not_congr ⟨fun hv ↦ ⟨obj, v, hobj, hfind, hv⟩, ?_⟩)
      rintro ⟨obj', v', hobj', hfind', hv⟩
      cases hobj.symm.trans hobj'
      cases hfind.symm.trans hfind'
      exact hv

omit [LibcDecimal] in
/-- A term weighs 1.0 as in a document without weights exactly if that is its greatest weight. -/
theorem maxWeight_eq_one_iff (f : FieldMapping) (doc : Document) :
    (∀ ws, fieldWeights f doc = some ws → ∀ term st,
      (termStats (some ws) (docTokens f doc)).find? term = some st → st.maxWeight = F32.one) ↔
    ∀ t ∈ docTokens f doc,
      F32.one.GreatestOf (weightsAt (usedWeight f doc) t.text (docTokens f doc)) := by
  cases hws : fieldWeights f doc with
  | none =>
    refine iff_of_true (fun ws h ↦ by cases h) fun t ht ↦ ?_
    have hone : ∀ w ∈ weightsAt (usedWeight f doc) t.text (docTokens f doc), w = F32.one := by
      intro w hw
      obtain ⟨p, -, rfl⟩ := List.mem_map.1 hw
      rw [usedWeight, hws]
      rfl
    refine ⟨Or.inr ?_, by decide, fun w hw ↦ (hone w hw).symm ▸ F32.lt_irrefl _⟩
    obtain ⟨i, hi, rfl⟩ := List.mem_iff_getElem.1 ht
    have hmem : usedWeight f doc i ∈
        weightsAt (usedWeight f doc) (docTokens f doc)[i].text (docTokens f doc) := by
      refine List.mem_map.2 ⟨((docTokens f doc)[i], i), List.mem_filter.2 ⟨?_, by simp⟩, rfl⟩
      exact List.mem_zipIdx_iff_getElem?.2 (List.getElem?_eq_getElem hi)
    rwa [hone _ hmem] at hmem
  | some ws =>
    have hused : usedWeight f doc = fun i ↦ ws.getD i F32.one := by
      funext i
      rw [usedWeight, hws]
      rfl
    have hmax : ∀ {term st}, (termStats (some ws) (docTokens f doc)).find? term = some st →
        F32.GreatestOf st.maxWeight (weightsAt (usedWeight f doc) term (docTokens f doc)) ∧
          (st.maxWeight = F32.zero ∨ F32.zero.lt st.maxWeight = true) := by
      intro term st hst
      have hgreatest := maxWeight_termStats ws (docTokens f doc) term
      have hpos := maxWeight_termStats_pos ws (docTokens f doc) term
      rw [hst, Option.getD_some] at hgreatest hpos
      exact ⟨hused ▸ hgreatest, hpos⟩
    constructor
    · intro h t ht
      obtain ⟨st, hst⟩ :=
        Option.isSome_iff_exists.1 ((termStats_isSome_iff (some ws) _ _).2 ⟨t, ht, rfl⟩)
      rw [← h ws rfl t.text st hst]
      exact (hmax hst).1
    · rintro h _ ⟨⟩ term st hst
      obtain ⟨t, ht, rfl⟩ := (termStats_isSome_iff (some ws) _ _).1 (Option.isSome_of_eq_some hst)
      exact (hmax hst).1.unique (h t ht) (hmax hst).2 (Or.inr (by decide))

/-- **A document survives its replay** exactly if all that counts is in its strings. -/
theorem Given.survives_iff (h : Given doc rawJson) (hid : doc.id ≠ []) (schema : Schema) :
    schema.Survives doc rawJson ↔ OnlyStrings schema doc rawJson := by
  obtain ⟨kept, hkept, -⟩ := h.handed.loggedAs hid
  have htexts : ∀ f : FieldMapping, f.name ≠ Schema.kIdField →
      ((kept.fields.find? f.name = doc.fields.find? f.name ∨
          f.stored = false ∧ docTokens f doc = []) ↔
        (LosesText rawJson f.name → f.stored = false ∧ docTokens f doc = [])) := by
    intro f hf
    rw [h.find?_replayed hid hkept hf]
    exact imp_iff_not_or.symm
  constructor
  · intro hwhole
    have hwhole := hwhole kept hkept
    exact ⟨fun f hf hne ↦ (htexts f hne).1 (hwhole.fields f hf hne),
      fun f hf ↦ (maxWeight_eq_one_iff f doc).1 (hwhole.weights f hf), hwhole.quality⟩
  · intro hstrings kept' hkept'
    obtain rfl := Option.some.inj (hkept.symm.trans hkept')
    exact ⟨fun f hf hne ↦ (htexts f hne).2 (hstrings.texts f hf hne),
      fun f hf ↦ (maxWeight_eq_one_iff f doc).2 (hstrings.weights f hf), hstrings.quality⟩

end Documents

/-! ### Closing and opening again -/

section Runs

variable {F : Faults} {s s' : WriterState} {es : List WriterEvent} {w : IndexWriter}

omit [LibcDecimal] in
theorem mem_of_mem_pendingCalls {call : Document × Bytes} (h : call ∈ pendingCalls es) :
    .added call.1 call.2 true ∈ es := by
  obtain ⟨e, he, hcall⟩ := List.mem_filterMap.1 h
  have hmem := (List.rtakeWhile_suffix _ es).subset he
  cases e with
  | added doc rawJson ok =>
    cases ok with
    | true =>
      obtain rfl := Option.some.inj hcall
      exact hmem
    | false => cases hcall
  | opened | openCut | addCut | refreshed | refreshCut | closed | crashed => cases hcall

/-- Closing a writer leaves its files, and so it is opened from them. -/
theorem opened_of_closed {initial : Option Schema} (hready : s.Ready)
    (h : Run (WriterStep F) s [.closed, .opened initial true] s') :
    WriterStep F ⟨none, s.disk⟩ (.opened initial true) s' := by
  have hboth : Run (WriterStep F) s ([] ++ [.closed] ++ [.opened initial true]) s' := h
  obtain ⟨s₁, hfirst, hopen⟩ := hboth.exists_last
  obtain ⟨s₀, hstart, hclosed⟩ := hfirst.exists_last
  obtain rfl := hstart.eq_of_nil
  have hmove := hclosed.move hready
  cases hmove with
  | closed => exact hopen

/-- A writer can be closed. -/
theorem RecoverableStep.of_closed (F : Faults) (hw : s.writer = some w) :
    RecoverableStep F s .closed ⟨none, s.disk⟩ := by
  have hwp : IndexWriter.close.wp (files Faults.none) w (fun _ _ d' ↦ d' = s.disk) (fun _ ↦ True)
      s.disk := IndexWriter.wp_close trivial fun _ _ ↦ rfl
  obtain ⟨r, w', d', hret, rfl⟩ := returns_of_wp F.quiet hwp
  exact ⟨⟨.closed hw hret, trivial, .of_not_refresh (by simp) (by simp),
    .of_not_add (by simp) (by simp)⟩, by simp, by simp, by simp⟩

theorem GivesDocument.handedOver {e : WriterEvent} (h : GivesDocument e) : e.HandedOver := by
  cases e with
  | added | addCut => exact Given.handed h
  | opened | openCut | refreshed | refreshCut | closed | crashed => trivial

/-- The documents of a run survive exactly if all that counts is in their strings. -/
theorem survives_iff_onlyStrings {L : Ledger} {docs : List Document} (h : L.Relogs es)
    (hdocs : L.pending = some docs) (hgiven : ∀ e ∈ es, GivesDocument e) (schema : Schema) :
    (∀ call ∈ pendingCalls es, schema.Survives call.1 call.2) ↔
      ∀ call ∈ pendingCalls es, OnlyStrings schema call.1 call.2 := by
  obtain ⟨_, kepts, -, -, -, hkepts⟩ := h docs hdocs
  refine forall₂_congr fun call hcall ↦ ?_
  have hcalled : Given call.1 call.2 := hgiven _ (mem_of_mem_pendingCalls hcall)
  refine hcalled.survives_iff (fun hid ↦ ?_) schema
  -- It was accepted, so it is replayed.
  obtain ⟨i, hi, rfl⟩ := List.mem_iff_getElem.1 hcall
  have hreplayed := ((List.forall₂_iff_get.1 hkepts).2 i hi (hkepts.length_eq ▸ hi)).1
  exact absurd (hreplayed.symm.trans (replayedDoc_eq_none hcalled.handed.toLoggable hid))
    (Option.some_ne_none _)

/-- What is known of an index in a run whose documents are given. -/
theorem exists_relogging_given
    (h : Run (fun s e s' ↦ RecoverableStep F s e s' ∧ GivesDocument e) .start es s) :
    (∃ L, Relogging es s L) ∧ ∀ e ∈ es, GivesDocument e := by
  constructor
  · exact exists_relogging <| h.mono fun s e s' hstep ↦ ⟨hstep.1, hstep.2.handedOver⟩
  · refine h.invariant_events (I := fun es _ ↦ ∀ e ∈ es, GivesDocument e) (by simp) ?_
    intro es s e s' hes hstep
    exact List.forall_mem_append.2 ⟨hes, List.forall_mem_singleton.2 hstep.2⟩

/-- **Replay and ingestion agree** on what was accepted since the last `Refresh` or `Open` exactly
if all that counts is in the strings of the documents. -/
theorem replayed_same_iff
    (h : Run (fun s e s' ↦ RecoverableStep F s e s' ∧ GivesDocument e) .start es s)
    (hw : s.writer = some w) :
    (∃ s', Run (RecoverableStep F) s [.closed, .opened none true] s') ∧
      ∀ G initial s', Run (WriterStep G) s [.closed, .opened initial true] s' →
        ∃ w', s'.writer = some w' ∧
          (w'.mutableSegment.SameContent w.mutableSegment ↔
            ∀ call ∈ pendingCalls es, OnlyStrings w.schema call.1 call.2) := by
  obtain ⟨⟨L, hlog⟩, hgiven⟩ := exists_relogging_given h
  obtain ⟨docs, hdocs, -⟩ := hlog.kept.writer w hw
  constructor
  · obtain ⟨w', hopen⟩ := hlog.reopens hw F
    exact ⟨_, (Run.single (RecoverableStep.of_closed F hw)).step hopen⟩
  · intro G initial s' hrun
    obtain ⟨w', rfl, -, -, -, hsame⟩ := hlog.reopened hw (opened_of_closed hlog.ready hrun)
    exact ⟨w', rfl, hsame.trans (survives_iff_onlyStrings hlog.relogs hdocs hgiven w.schema)⟩

end Runs

section Samples

omit [LibcDecimal]

/-- A document that comes without JSON. -/
def plainDoc : Document where
  id := str "b"
  fields := SortedMap.empty.insert (str "title") (str "world")

/-- The body of a document whose title is no string. -/
def boolPost : JsonValue := .object [(str "_id", .string (str "a")), (str "title", .bool true)]

/-- The document in it. -/
def boolDoc : Document where
  id := str "a"
  fields := SortedMap.empty.insert (str "title") (str "true")

theorem parse_boolPost : @parse .integral (@serialize .integral boolPost) = .ok boolPost :=
  @parse_serialize_of_noDoubles .integral boolPost ⟨by decide, trivial, trivial, trivial⟩
    ⟨trivial, trivial, trivial⟩

theorem readDocument_boolPost :
    @readDocument .integral (@serialize .integral boolPost) = .ok boolDoc := by
  let _ := LibcDecimal.integral
  rw [readDocument, parseBody, parse_boolPost]
  rfl

/-- An index whose documents are a posted one and one that came without JSON. -/
theorem exists_given : ∃ w d, w.schema = titleSchema ∧
    Run (fun s e s' ↦ @RecoverableStep .integral Faults.none s e s' ∧ @GivesDocument .integral e)
      .start [.opened (some titleSchema) true,
        .added qualityDoc (@serialize .integral qualityPost) true, .added plainDoc [] true]
      ⟨some w, d⟩ := by
  let _ := LibcDecimal.integral
  obtain ⟨w₁, w₂, t, d, ht, hlog, hschema, hseg, hwhole, hopen, hadd⟩ :=
    recoverable_titles readDocument_qualityPost (by decide) (by decide +kernel)
  have hrun := (Run.single hopen).step hadd
  have hplain : Given plainDoc [] := .plain (by decide)
  have haccepts : w₂.mutableSegment.addDocument plainDoc =
      .ok (w₂.mutableSegment.accept plainDoc, 1) := by
    rw [hseg]
    exact if_neg (by decide)
  obtain ⟨t', -, hadded⟩ := durable_added_whole Faults.none (s := ⟨some w₂, d⟩) rfl
    (ready_of_run (hrun.mono fun _ _ _ h ↦ h.step)) hlog ht hwhole hplain.handed.toLoggable
    (by decide +kernel) haccepts
  have hadd' := hadded.recoverable_added <| by
    rintro _ ⟨⟩
    rw [hseg]
    exact (by decide : (1 : ℕ) ≠ kNoMoreDocs)
  refine ⟨_, _, ?_, (((Run.single ⟨hopen, trivial⟩).step
    ⟨hadd, Given.posted readDocument_qualityPost⟩).step ⟨hadd', hplain⟩)⟩
  exact hschema

/-- No weight and no quality counts under `titleSchema`. -/
theorem onlyStrings_titleSchema {doc : Document} {rawJson : Bytes}
    (h : ¬@LosesText .integral rawJson (str "title")) :
    @OnlyStrings .integral titleSchema doc rawJson := by
  let _ := LibcDecimal.integral
  have hfields : ∀ f ∈ titleSchema.fields,
      f.storeTokenWeights = false ∧ (f.name ≠ Schema.kIdField → f.name = str "title") := by decide
  refine ⟨fun f hf hid hlost ↦ ?_, fun f hf ↦ (maxWeight_eq_one_iff f doc).1 fun ws hws ↦ ?_,
    fun hq ↦ ?_⟩
  · exact absurd ((hfields f hf).2 hid ▸ hlost) h
  · rw [fieldWeights, (hfields f hf).1] at hws
    cases hws
  · exact absurd hq (by decide)

theorem replayed_same_iff_sample : ∃ w d,
    Run (fun s e s' ↦ @RecoverableStep .integral Faults.none s e s' ∧ @GivesDocument .integral e)
      .start [.opened (some titleSchema) true,
        .added qualityDoc (@serialize .integral qualityPost) true, .added plainDoc [] true]
      ⟨some w, d⟩ ∧
    (∃ s', Run (@RecoverableStep .integral Faults.none) ⟨some w, d⟩
      [.closed, .opened none true] s') ∧
    ∀ G initial s', Run (@WriterStep .integral G) ⟨some w, d⟩ [.closed, .opened initial true] s' →
      ∃ w', s'.writer = some w' ∧ w'.mutableSegment.SameContent w.mutableSegment := by
  let _ := LibcDecimal.integral
  obtain ⟨w, d, hschema, hrun⟩ := exists_given
  obtain ⟨hopens, hall⟩ := replayed_same_iff hrun rfl
  refine ⟨w, d, hrun, hopens, fun G initial s' h ↦ ?_⟩
  obtain ⟨w', hw', hsame⟩ := hall G initial s' h
  refine ⟨w', hw', hsame.2 ?_⟩
  rw [hschema]
  intro call hcall
  have hcalls : call = (qualityDoc, serialize qualityPost) ∨ call = (plainDoc, []) := by
    simpa [pendingCalls, List.rtakeWhile, WriterEvent.renews, WriterEvent.acceptedCall] using hcall
  rcases hcalls with rfl | rfl
  · refine onlyStrings_titleSchema ?_
    rintro ⟨obj, v, hobj, hfind, hv⟩
    cases hobj.symm.trans parse_qualityPost
    cases hfind
    exact hv
  · refine onlyStrings_titleSchema ?_
    rintro ⟨obj, v, hobj, -⟩
    cases hobj

/-- A title that is a Boolean is not replayed. -/
theorem not_replayed_same : ¬∀ (F : Faults) (es : List WriterEvent) (s s' : WriterState)
    (w : IndexWriter),
    Run (fun s e s' ↦ @RecoverableStep .integral F s e s' ∧ @GivesDocument .integral e) .start es
        s → s.writer = some w →
      Run (@WriterStep .integral F) s [.closed, .opened none true] s' →
        ∃ w', s'.writer = some w' ∧ w'.mutableSegment.SameContent w.mutableSegment := by
  let _ := LibcDecimal.integral
  intro hall
  obtain ⟨w₁, w, t, d, -, -, hschema, -, -, hopen, hadd⟩ :=
    recoverable_titles readDocument_boolPost (by decide) (by decide +kernel)
  have hgiven : Given boolDoc (serialize boolPost) := .posted readDocument_boolPost
  have hfirst : Run (fun s e s' ↦ RecoverableStep Faults.none s e s' ∧ GivesDocument e) .start
      [.opened (some titleSchema) true] ⟨some w₁, newDisk titleSchema⟩ :=
    Run.single ⟨hopen, trivial⟩
  have hrun := hfirst.step ⟨hadd, hgiven⟩
  obtain ⟨⟨L, hlog⟩, -⟩ := exists_relogging_given hrun
  obtain ⟨w', hreopen⟩ := hlog.reopens rfl Faults.none
  have hsteps := (Run.single (RecoverableStep.of_closed Faults.none rfl)).step hreopen
  obtain ⟨_, ⟨⟩, hsame⟩ := hall _ _ _ _ w hrun rfl (hsteps.mono fun _ _ _ h ↦ h.step)
  obtain ⟨_, hs', -, -, -, hsurvives⟩ := hlog.reopened rfl hreopen.step
  cases hs'
  have hstrings := (hgiven.survives_iff (by decide) w.schema).1
    (hsurvives.1 hsame (boolDoc, serialize boolPost) List.mem_cons_self)
  rw [hschema] at hstrings
  have hlost : LosesText (serialize boolPost) (str "title") :=
    ⟨_, .bool true, parse_boolPost, rfl, trivial⟩
  obtain ⟨hstored, -⟩ := hstrings.texts { name := str "title", stored := true } (by decide)
    (by decide) hlost
  exact absurd hstored (by decide)

end Samples

end Spp.Server
