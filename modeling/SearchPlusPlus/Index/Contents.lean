import SearchPlusPlus.Index.AtomicRefresh
import SearchPlusPlus.Index.ReplayedDocuments
import SearchPlusPlus.Index.Visibility

/-!
# What an index contains

A document in an index is the one of a call of `AddDocument`, or what was replayed for it
(`StandsFor`). With crashes, every call that was accepted before a successful `Refresh` has a
document on the shelves, and every document there is from a call that was accepted or cut off
(`Ledger.Contents`); a document may be there twice. Without crashes the documents on the shelves are
those of the accepted calls, one by one (`Ledger.Tallies`).
-/

namespace Spp.Index

open Json Store

variable [LibcDecimal]

/-- A document is the one of a call, or what is replayed for it. -/
def StandsFor (call : Document × Bytes) (doc : Document) : Prop :=
  doc = call.1 ∨ replayedDoc (logRecord call.1 call.2) = some doc

/-- The call that was accepted or cut off, if any. -/
def WriterEvent.offeredCall : WriterEvent → Option (Document × Bytes)
  | .added doc rawJson true | .addCut doc rawJson => some (doc, rawJson)
  | _ => none

/-- There is such a document in the files, and in the writer if there is one. -/
structure Ledger.Has (L : Ledger) (P : Document → Prop) : Prop where
  kept : ∃ doc ∈ L.shelves.flatten ++ replayedDocs L.log, P doc
  held : ∀ docs, L.pending = some docs → ∃ doc ∈ L.shelves.flatten ++ docs, P doc

/-- All documents are such, in the files and in the writer. -/
structure Ledger.All (L : Ledger) (P : Document → Prop) : Prop where
  kept : ∀ doc ∈ L.shelves.flatten ++ replayedDocs L.log, P doc
  held : ∀ docs, L.pending = some docs → ∀ doc ∈ docs, P doc

section Steps

variable {L L' : Ledger} {e : WriterEvent} {P P' : Document → Prop} {doc : Document}
  {rawJson : Bytes}

/-- The document that is replayed for a call with an id. -/
theorem exists_replayedDoc (h : Loggable doc rawJson) (hid : doc.id ≠ []) :
    ∃ kept, replayedDoc (logRecord doc rawJson) = some kept := by
  have hreplayed := replayedId_logRecord h
  rw [if_neg hid, replayedId] at hreplayed
  obtain ⟨kept, hkept, -⟩ := Option.map_eq_some_iff.1 hreplayed
  exact ⟨kept, hkept⟩

theorem replayedDocs_singleton_of_nil (h : Loggable doc rawJson) (hid : doc.id = []) :
    replayedDocs [logRecord doc rawJson] = [] := by
  rw [replayedDocs, List.filterMap_cons, replayedDoc_eq_none h hid]
  rfl

/-- The shelves only grow. -/
theorem LedgerStep.shelves_subset {loose : Prop} (hstep : LedgerStep loose L e L') :
    L.shelves.flatten ⊆ L'.shelves.flatten := by
  rcases hstep.shelves_cases with hsame | ⟨docs, -, hmore⟩
  · rw [hsame]
    exact fun _ h ↦ h
  · rw [hmore, List.flatten_append]
    exact List.subset_append_left ..

namespace Ledger.Has

theorem of_shelves (h : ∃ doc ∈ L.shelves.flatten, P doc) : L.Has P := by
  obtain ⟨doc, hmem, hP⟩ := h
  exact ⟨⟨doc, List.mem_append_left _ hmem, hP⟩, fun _ _ ↦ ⟨doc, List.mem_append_left _ hmem, hP⟩⟩

/-- A log with more records. -/
theorem of_log (h : L.Has P) (recs : List Bytes) :
    Ledger.Has { L with log := L.log ++ recs } P := by
  obtain ⟨doc, hmem, hP⟩ := h.kept
  refine ⟨⟨doc, ?_, hP⟩, h.held⟩
  rw [replayedDocs_append, ← List.append_assoc]
  exact List.mem_append_left _ hmem

theorem of_crash (h : L.Has P) : Ledger.Has { L with pending := none } P :=
  ⟨h.kept, by rintro _ ⟨⟩⟩

/-- A shelf more holds what was pending. -/
theorem shelved {docs : List Document} (h : L.Has P) (hdocs : L.pending = some docs) :
    ∃ doc ∈ (L.shelves ++ [docs]).flatten, P doc := by
  rw [List.flatten_append, List.flatten_singleton]
  exact h.held docs hdocs

end Ledger.Has

/-- **What an index has stays.** -/
theorem LedgerStep.has (hstep : LedgerStep False L e L') (h : L.Has P) : L'.Has P := by
  cases hstep with
  | opened =>
    refine ⟨h.kept, ?_⟩
    rintro _ ⟨⟩
    exact h.kept
  | notOpened | openCut | refused | notSealed | idle => exact h
  | notLogged hloose | notTruncated hloose => exact hloose.elim
  | rejected _ _ hlog =>
    obtain rfl := hlog.resolve_left not_false
    exact h.of_log _
  | @accepted docs doc rawJson log hdocs _ hlog =>
    obtain rfl := hlog.resolve_left not_false
    refine ⟨(h.of_log _).kept, ?_⟩
    rintro _ ⟨⟩
    obtain ⟨doc', hmem, hP⟩ := h.held docs hdocs
    refine ⟨doc', ?_, hP⟩
    rw [← List.append_assoc]
    exact List.mem_append_left _ hmem
  | addCut hlog =>
    rcases hlog.resolve_left not_false with rfl | rfl
    · exact h.of_crash
    · exact (h.of_log _).of_crash
  | shelved hdocs | savedCut hdocs | truncatedCut hdocs => exact .of_shelves (h.shelved hdocs)
  | sealCut | closed | crashed => exact h.of_crash

/-- An accepted call has a document. -/
theorem LedgerStep.has_added (h : Loggable doc rawJson)
    (hstep : LedgerStep False L (.added doc rawJson true) L') :
    L'.Has (StandsFor (doc, rawJson)) := by
  cases hstep with
  | @accepted docs _ _ log _ hid hlog =>
    obtain rfl := hlog.resolve_left not_false
    obtain ⟨kept, hkept⟩ := exists_replayedDoc h hid
    constructor
    · refine ⟨kept, List.mem_append_right _ (List.mem_filterMap.2 ⟨_, ?_, hkept⟩), Or.inr hkept⟩
      exact List.mem_append_right _ (List.mem_singleton_self _)
    · rintro _ ⟨⟩
      refine ⟨doc, List.mem_append_right _ ?_, Or.inl rfl⟩
      exact List.mem_append_right _ (List.mem_singleton_self _)

/-- **A `Refresh` brings everything to the shelves.** -/
theorem LedgerStep.shelved_of_has (hstep : LedgerStep False L (.refreshed true) L')
    (h : L.Has P) : ∃ doc ∈ L'.shelves.flatten, P doc := by
  cases hstep with
  | idle hdocs => simpa using h.held [] hdocs
  | shelved hdocs => exact h.shelved hdocs

theorem Ledger.All.imp (h : L.All P) (hsub : ∀ doc, P doc → P' doc) : L.All P' :=
  ⟨fun doc hmem ↦ hsub doc (h.kept doc hmem),
    fun docs hdocs doc hmem ↦ hsub doc (h.held docs hdocs doc hmem)⟩

/-- All documents are such when those on the shelves, in the log and in memory are. -/
theorem Ledger.all_iff : L.All P ↔ (∀ doc ∈ L.shelves.flatten, P doc) ∧
    (∀ doc ∈ replayedDocs L.log, P doc) ∧ ∀ docs, L.pending = some docs → ∀ doc ∈ docs, P doc := by
  constructor
  · exact fun h ↦ ⟨fun doc hmem ↦ h.kept doc (List.mem_append_left _ hmem),
      fun doc hmem ↦ h.kept doc (List.mem_append_right _ hmem), h.held⟩
  · rintro ⟨hshelves, hlog, hheld⟩
    exact ⟨fun doc hmem ↦ (List.mem_append.1 hmem).elim (hshelves doc) (hlog doc), hheld⟩

/-- What is replayed for a document is known when it is logged. -/
theorem replayedDocs_log {log : List Bytes} (hlog : ∀ doc ∈ replayedDocs log, P doc)
    (hnew : ∀ kept, kept.id ≠ [] → StandsFor (doc, rawJson) kept → P kept) :
    ∀ kept ∈ replayedDocs (log ++ [logRecord doc rawJson]), P kept := by
  intro kept hkept
  rw [replayedDocs_append] at hkept
  rcases List.mem_append.1 hkept with hkept | hkept
  · exact hlog kept hkept
  · obtain ⟨rec, hrec, hreplayed⟩ := List.mem_filterMap.1 hkept
    obtain rfl := List.mem_singleton.1 hrec
    obtain hdoc : docFromJson (logRecord doc rawJson) = .ok kept := by
      rw [replayedDoc] at hreplayed
      cases hparse : docFromJson (logRecord doc rawJson) with
      | error e => rw [hparse] at hreplayed; cases hreplayed
      | ok doc' => rw [hparse] at hreplayed; exact congrArg _ (Option.some.inj hreplayed)
    exact hnew kept (id_ne_nil_of_docFromJson hdoc) (Or.inr hreplayed)

/-- **What all documents are stays so** if those of the calls are such. -/
theorem LedgerStep.all (hstep : LedgerStep False L e L') (hpromised : e.Promised)
    (hroom : L.RoomToLog e) (hnew : ∀ call, e.offeredCall = some call →
      ∀ doc, doc.id ≠ [] → StandsFor call doc → P doc) (h : L.All P) : L'.All P := by
  obtain ⟨hshelves, hlog, hheld⟩ := Ledger.all_iff.1 h
  have hmore : ∀ {docs}, L.pending = some docs → ∀ doc ∈ (L.shelves ++ [docs]).flatten, P doc := by
    intro docs hdocs doc hmem
    rw [List.flatten_append, List.flatten_singleton] at hmem
    exact (List.mem_append.1 hmem).elim (hshelves doc) (hheld docs hdocs doc)
  have hnone : ∀ docs, (none : Option (List Document)) = some docs → ∀ doc ∈ docs, P doc := by
    rintro _ ⟨⟩
  have hempty : ∀ docs, some [] = some docs → ∀ doc ∈ docs, P doc := by
    rintro _ ⟨⟩ _ ⟨⟩
  refine Ledger.all_iff.2 ?_
  cases hstep with
  | opened =>
    refine ⟨hshelves, hlog, ?_⟩
    rintro _ ⟨⟩
    exact hlog
  | notOpened | openCut | refused | notSealed | idle => exact ⟨hshelves, hlog, hheld⟩
  | notLogged hloose | notTruncated hloose => exact hloose.elim
  | @rejected docs doc rawJson log hdocs hrej hrec =>
    obtain rfl := hrec.resolve_left not_false
    obtain ⟨docs', hdocs', hleft⟩ := hroom doc rawJson (Or.inr ⟨_, rfl⟩)
    have hid : doc.id = [] := hrej.resolve_right fun hfull ↦
      hleft (Option.some.inj (hdocs'.symm.trans hdocs) ▸ hfull)
    refine ⟨hshelves, ?_, hheld⟩
    rw [replayedDocs_append, replayedDocs_singleton_of_nil hpromised hid, List.append_nil]
    exact hlog
  | @accepted docs doc rawJson log hdocs hid hrec =>
    obtain rfl := hrec.resolve_left not_false
    refine ⟨hshelves, replayedDocs_log hlog (hnew _ rfl), ?_⟩
    rintro _ ⟨⟩ doc' hmem
    rcases List.mem_append.1 hmem with hmem | hmem
    · exact hheld docs hdocs doc' hmem
    · obtain rfl := List.mem_singleton.1 hmem
      exact hnew _ rfl _ hid (Or.inl rfl)
  | addCut hrec =>
    rcases hrec.resolve_left not_false with rfl | rfl
    · exact ⟨hshelves, hlog, hnone⟩
    · exact ⟨hshelves, replayedDocs_log hlog (hnew _ rfl), hnone⟩
  | shelved hdocs => exact ⟨hmore hdocs, fun _ h ↦ absurd h List.not_mem_nil, hempty⟩
  | savedCut hdocs => exact ⟨hmore hdocs, hlog, hnone⟩
  | truncatedCut hdocs => exact ⟨hmore hdocs, fun _ h ↦ absurd h List.not_mem_nil, hnone⟩
  | sealCut | closed | crashed => exact ⟨hshelves, hlog, hnone⟩

end Steps

/-! ### With crashes -/

/-- What is known of the documents of an index after some events. -/
structure Ledger.Contents (L : Ledger) (es : List WriterEvent) : Prop where
  ids : L.All fun doc ↦ doc.id ≠ []
  sources : L.All fun doc ↦ ∃ call ∈ es.filterMap WriterEvent.offeredCall, StandsFor call doc
  acked : ∀ call ∈ es.filterMap WriterEvent.acceptedCall, L.Has (StandsFor call)
  visible : ∀ call ∈ (refreshedPart es).filterMap WriterEvent.acceptedCall,
    ∃ doc ∈ L.shelves.flatten, StandsFor call doc
  loggable : ∀ call ∈ es.filterMap WriterEvent.acceptedCall,
    Loggable call.1 call.2 ∧ call.1.id ≠ []

section Histories

variable {L L' : Ledger} {e : WriterEvent} {es : List WriterEvent}

omit [LibcDecimal] in
theorem eq_added_of_acceptedCall {call : Document × Bytes} (h : e.acceptedCall = some call) :
    e = .added call.1 call.2 true := by
  cases e with
  | added doc rawJson ok =>
    cases ok with
    | false => cases h
    | true => rw [← Option.some.inj h]
  | opened | openCut | addCut | refreshed | refreshCut | closed | crashed => cases h

theorem Ledger.contents_start : Ledger.Contents {} [] where
  ids := ⟨by simp [replayedDocs], by rintro _ ⟨⟩⟩
  sources := ⟨by simp [replayedDocs], by rintro _ ⟨⟩⟩
  acked := by simp
  visible := by simp [refreshedPart]
  loggable := by simp

/-- **Every step keeps the contents.** -/
theorem LedgerStep.contents (hstep : LedgerStep False L e L') (hpromised : e.Promised)
    (hroom : L.RoomToLog e) (h : L.Contents es) : L'.Contents (es ++ [e]) := by
  have hacked : ∀ call ∈ (es ++ [e]).filterMap WriterEvent.acceptedCall,
      L'.Has (StandsFor call) ∧ Loggable call.1 call.2 ∧ call.1.id ≠ [] := by
    intro call hcall
    rw [List.filterMap_append] at hcall
    rcases List.mem_append.1 hcall with hcall | hcall
    · exact ⟨hstep.has (h.acked call hcall), h.loggable call hcall⟩
    · obtain ⟨e', he', haccepted⟩ := List.mem_filterMap.1 hcall
      obtain rfl := List.mem_singleton.1 he'
      obtain rfl := eq_added_of_acceptedCall haccepted
      refine ⟨hstep.has_added hpromised, hpromised, ?_⟩
      cases hstep with
      | accepted _ hid => exact hid
  have hnew : ∀ call, e.offeredCall = some call → ∀ doc, doc.id ≠ [] → StandsFor call doc →
      ∃ call ∈ (es ++ [e]).filterMap WriterEvent.offeredCall, StandsFor call doc := by
    intro call hcall doc _ hstands
    refine ⟨call, List.mem_filterMap.2 ⟨e, ?_, hcall⟩, hstands⟩
    exact List.mem_append_right _ (List.mem_singleton_self e)
  have hold : L.All fun doc ↦
      ∃ call ∈ (es ++ [e]).filterMap WriterEvent.offeredCall, StandsFor call doc := by
    refine h.sources.imp ?_
    rintro doc ⟨call, hcall, hstands⟩
    rw [List.filterMap_append]
    exact ⟨call, List.mem_append_left _ hcall, hstands⟩
  refine ⟨hstep.all hpromised hroom (fun _ _ _ hid _ ↦ hid) h.ids,
    hstep.all hpromised hroom hnew hold, fun call hcall ↦ (hacked call hcall).1,
    fun call hcall ↦ ?_, fun call hcall ↦ (hacked call hcall).2⟩
  cases hrefresh : e.isRefresh with
  | false =>
    rw [refreshedPart_of_not hrefresh] at hcall
    obtain ⟨doc, hmem, hstands⟩ := h.visible call hcall
    exact ⟨doc, hstep.shelves_subset hmem, hstands⟩
  | true =>
    -- Nothing is accepted by a `Refresh`, and what was is on the shelves behind it.
    rw [refreshedPart_of_isRefresh hrefresh, List.filterMap_append] at hcall
    obtain rfl : e = .refreshed true := by
      cases e with
      | refreshed ok => exact congrArg _ hrefresh
      | opened | openCut | added | addCut | refreshCut | closed | crashed => cases hrefresh
    refine hstep.shelved_of_has (h.acked call ?_)
    simpa [WriterEvent.acceptedCall] using hcall

end Histories

/-! ### Without crashes -/

/-- The documents of a history without crashes, call by call: on the shelves those of the calls
accepted before the last `Refresh`, in the log and in memory those of the others. -/
structure Ledger.Tallies (L : Ledger) (es : List WriterEvent) : Prop where
  shelved : List.Forall₂ StandsFor ((refreshedPart es).filterMap WriterEvent.acceptedCall)
    L.shelves.flatten
  logged : List.Forall₂ StandsFor ((pendingPart es).filterMap WriterEvent.acceptedCall)
    (replayedDocs L.log)
  held : ∀ docs, L.pending = some docs →
    List.Forall₂ StandsFor ((pendingPart es).filterMap WriterEvent.acceptedCall) docs

namespace Ledger.Tallies

variable {L L' : Ledger} {e : WriterEvent} {es : List WriterEvent} {doc : Document}
  {rawJson : Bytes} {docs : List Document}

/-- What accepts nothing and refreshes nothing. -/
theorem silent (h : L.Tallies es) (hrefresh : e.isRefresh = false)
    (haccepted : e.acceptedCall = none) : L.Tallies (es ++ [e]) := by
  have hpending : (pendingPart (es ++ [e])).filterMap WriterEvent.acceptedCall =
      (pendingPart es).filterMap WriterEvent.acceptedCall := by
    rw [pendingPart_of_not hrefresh, List.filterMap_append]
    simp [haccepted]
  refine ⟨?_, ?_, ?_⟩
  · rw [refreshedPart_of_not hrefresh]
    exact h.shelved
  · rw [hpending]
    exact h.logged
  · rw [hpending]
    exact h.held

/-- An accepted document is behind the others. -/
theorem accepted (h : L.Tallies es) (hloggable : Loggable doc rawJson) (hid : doc.id ≠ [])
    (hdocs : L.pending = some docs) :
    Ledger.Tallies
      { L with log := L.log ++ [logRecord doc rawJson], pending := some (docs ++ [doc]) }
      (es ++ [.added doc rawJson true]) := by
  have hpending : (pendingPart (es ++ [.added doc rawJson true])).filterMap
      WriterEvent.acceptedCall =
        (pendingPart es).filterMap WriterEvent.acceptedCall ++ [(doc, rawJson)] := by
    rw [pendingPart_of_not rfl, List.filterMap_append]
    rfl
  obtain ⟨kept, hkept⟩ := exists_replayedDoc hloggable hid
  refine ⟨?_, ?_, ?_⟩
  · rw [refreshedPart_of_not rfl]
    exact h.shelved
  · have hreplayed : replayedDocs [logRecord doc rawJson] = [kept] := by
      rw [replayedDocs, List.filterMap_cons, hkept]
      rfl
    rw [hpending, replayedDocs_append, hreplayed]
    exact List.rel_append h.logged (.cons (Or.inr hkept) .nil)
  · rintro _ ⟨⟩
    rw [hpending]
    exact List.rel_append (h.held docs hdocs) (.cons (Or.inl rfl) .nil)

/-- A `Refresh` moves everything to the shelves. -/
theorem refreshed (h : L.Tallies es) (hdocs : L.pending = some docs)
    {shelves : List (List Document)} {log : List Bytes}
    (hshelves : shelves.flatten = L.shelves.flatten ++ docs) (hlog : replayedDocs log = []) :
    Ledger.Tallies { shelves, log, pending := some [] } (es ++ [.refreshed true]) := by
  have hpending : (pendingPart (es ++ [.refreshed true])).filterMap
      WriterEvent.acceptedCall = [] := by
    rw [pendingPart_of_isRefresh rfl]
    rfl
  have hparts : es.filterMap WriterEvent.acceptedCall =
      (refreshedPart es).filterMap WriterEvent.acceptedCall ++
        (pendingPart es).filterMap WriterEvent.acceptedCall := by
    rw [← List.filterMap_append, refreshedPart, pendingPart, List.rdropWhile_append_rtakeWhile]
  refine ⟨?_, ?_, ?_⟩
  · have hnew : [WriterEvent.refreshed true].filterMap WriterEvent.acceptedCall = [] := rfl
    rw [refreshedPart_of_isRefresh rfl, List.filterMap_append, hparts, hshelves, hnew,
      List.append_nil]
    exact List.rel_append h.shelved (h.held docs hdocs)
  · rw [hpending, hlog]
    exact .nil
  · rintro _ ⟨⟩
    rw [hpending]
    exact .nil

end Ledger.Tallies

/-- **Every step keeps the tally.** -/
theorem LedgerStep.tallies {L L' : Ledger} {e : WriterEvent} {es : List WriterEvent}
    (hstep : LedgerStep False L e L') (hreturned : e.Returned) (hpromised : e.Promised)
    (hroom : L.RoomToLog e) (h : L.Tallies es) : L'.Tallies (es ++ [e]) := by
  cases hstep with
  | @opened initial =>
    have hsame : L.Tallies (es ++ [.opened initial true]) := h.silent rfl rfl
    refine ⟨hsame.shelved, hsame.logged, ?_⟩
    rintro _ ⟨⟩
    exact hsame.logged
  | notOpened | refused | notSealed => exact h.silent rfl rfl
  | notLogged hloose | notTruncated hloose => exact hloose.elim
  | @rejected docs doc rawJson log hdocs hrej hlog =>
    obtain rfl := hlog.resolve_left not_false
    obtain ⟨docs', hdocs', hleft⟩ := hroom doc rawJson (Or.inr ⟨_, rfl⟩)
    have hid : doc.id = [] := hrej.resolve_right fun hfull ↦
      hleft (Option.some.inj (hdocs'.symm.trans hdocs) ▸ hfull)
    have hsame : L.Tallies (es ++ [.added doc rawJson false]) := h.silent rfl rfl
    refine ⟨hsame.shelved, ?_, hsame.held⟩
    rw [replayedDocs_append, replayedDocs_singleton_of_nil hpromised hid, List.append_nil]
    exact hsame.logged
  | @accepted docs doc rawJson log hdocs hid hlog =>
    obtain rfl := hlog.resolve_left not_false
    exact h.accepted hpromised hid hdocs
  | idle hdocs =>
    have hnone : replayedDocs L.log = [] := by
      have hheld := (h.held [] hdocs).length_eq
      exact List.length_eq_zero_iff.1 (h.logged.length_eq.symm.trans hheld)
    have hrefreshed := h.refreshed hdocs (List.append_nil _).symm hnone
    rwa [← hdocs] at hrefreshed
  | @shelved docs hdocs =>
    exact h.refreshed hdocs (by rw [List.flatten_append, List.flatten_singleton]) rfl
  | closed =>
    have hsame : L.Tallies (es ++ [.closed]) := h.silent rfl rfl
    exact ⟨hsame.shelved, hsame.logged, by rintro _ ⟨⟩⟩
  | openCut | addCut | sealCut | savedCut | truncatedCut | crashed => exact hreturned.elim

theorem Ledger.tallies_start : Ledger.Tallies {} [] :=
  ⟨.nil, .nil, by rintro _ ⟨⟩⟩

end Spp.Index
