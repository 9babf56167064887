import SearchPlusPlus.Index.Durability
import Mathlib.Data.List.DropRight

/-!
# What is visible when

Without crashes and failures the writer, the manifest, the published reader and the log are in step
(`writer_inStep`): readers see the documents that were accepted before the last successful
`Refresh`, and the log holds those that were accepted since. This needs records whose length a
32-bit header can hold (`not_writer_inStep`), and ids left in the segment.
-/

namespace Spp.Index

open Json Store

variable [LibcDecimal]

/-! ### The history -/

/-- A `Refresh` that succeeded. -/
def WriterEvent.isRefresh : WriterEvent → Bool
  | .refreshed ok => ok
  | _ => false

/-- The id of the document that was accepted, if any. -/
def WriterEvent.accepted : WriterEvent → Option Bytes
  | .added doc _ true => some doc.id
  | _ => none

/-- The ids of the documents that were accepted, in order. -/
def acceptedIds (es : List WriterEvent) : List Bytes := es.filterMap WriterEvent.accepted

/-- What happened up to the last `Refresh` that succeeded. -/
def refreshedPart (es : List WriterEvent) : List WriterEvent := es.rdropWhile fun e ↦ !e.isRefresh

/-- What happened since. -/
def pendingPart (es : List WriterEvent) : List WriterEvent := es.rtakeWhile fun e ↦ !e.isRefresh

section History

omit [LibcDecimal]

variable {es : List WriterEvent} {e : WriterEvent}

theorem acceptedIds_append (es : List WriterEvent) (e : WriterEvent) :
    acceptedIds (es ++ [e]) = acceptedIds es ++ e.accepted.toList := by
  rw [acceptedIds, List.filterMap_append, List.filterMap_cons]
  cases e.accepted <;> rfl

/-- The two parts make up the history. -/
theorem acceptedIds_parts (es : List WriterEvent) :
    acceptedIds (refreshedPart es) ++ acceptedIds (pendingPart es) = acceptedIds es := by
  rw [acceptedIds, acceptedIds, ← List.filterMap_append]
  exact congrArg acceptedIds (List.rdropWhile_append_rtakeWhile ..)

theorem refreshedPart_of_isRefresh (h : e.isRefresh = true) (es : List WriterEvent) :
    refreshedPart (es ++ [e]) = es ++ [e] :=
  List.rdropWhile_concat_neg _ _ _ (by simp [h])

theorem pendingPart_of_isRefresh (h : e.isRefresh = true) (es : List WriterEvent) :
    pendingPart (es ++ [e]) = [] :=
  List.rtakeWhile_concat_neg _ _ _ (by simp [h])

theorem refreshedPart_of_not (h : e.isRefresh = false) (es : List WriterEvent) :
    refreshedPart (es ++ [e]) = refreshedPart es :=
  List.rdropWhile_concat_pos _ _ _ (by simp [h])

theorem pendingPart_of_not (h : e.isRefresh = false) (es : List WriterEvent) :
    pendingPart (es ++ [e]) = pendingPart es ++ [e] :=
  List.rtakeWhile_concat_pos _ _ _ (by simp [h])

end History

/-! ### The ledger -/

section Ledgers

variable {L L' : Ledger} {e : WriterEvent} {es : List WriterEvent}

/-- The ledger of a history without crashes. -/
structure Ledger.InStep (L : Ledger) (es : List WriterEvent) : Prop where
  shelved : L.shelves.flatten.map (·.id) = acceptedIds (refreshedPart es)
  logged : L.log.filterMap replayedId = acceptedIds (pendingPart es)
  held : ∀ docs, L.pending = some docs → docs.map (·.id) = acceptedIds (pendingPart es)

/-- The segment in memory has an id left for the document. -/
def Ledger.HasRoom (L : Ledger) (e : WriterEvent) : Prop :=
  ∀ doc rawJson ok docs, e = .added doc rawJson ok → L.pending = some docs →
    docs.length ≠ kNoMoreDocs

namespace Ledger.InStep

/-- What accepts nothing and refreshes nothing. -/
theorem silent (h : L.InStep es) (hrefresh : e.isRefresh = false) (haccepted : e.accepted = none) :
    L.InStep (es ++ [e]) := by
  have hpending : acceptedIds (pendingPart (es ++ [e])) = acceptedIds (pendingPart es) := by
    rw [pendingPart_of_not hrefresh, acceptedIds_append, haccepted]
    exact List.append_nil _
  refine ⟨?_, ?_, ?_⟩
  · rw [refreshedPart_of_not hrefresh]
    exact h.shelved
  · rw [hpending]
    exact h.logged
  · rw [hpending]
    exact h.held

theorem closed (h : L.InStep es) : Ledger.InStep { L with pending := none } es :=
  ⟨h.shelved, h.logged, by rintro _ ⟨⟩⟩

/-- A rejected document has no id, and its record stands for none. -/
theorem rejected {doc : Document} {rawJson : Bytes} (h : L.InStep es)
    (hloggable : Loggable doc rawJson) (hid : doc.id = []) :
    Ledger.InStep { L with log := L.log ++ [logRecord doc rawJson] }
      (es ++ [.added doc rawJson false]) := by
  refine ⟨(h.silent rfl rfl).shelved, ?_, (h.silent rfl rfl).held⟩
  rw [← (h.silent rfl rfl).logged, List.filterMap_append, List.filterMap_cons,
    replayedId_logRecord hloggable, if_pos hid]
  exact List.append_nil _

/-- An accepted document is behind the others, in the log and in memory. -/
theorem accepted {doc : Document} {rawJson : Bytes} {docs : List Document} (h : L.InStep es)
    (hloggable : Loggable doc rawJson) (hid : doc.id ≠ []) (hdocs : L.pending = some docs) :
    Ledger.InStep
      { L with log := L.log ++ [logRecord doc rawJson], pending := some (docs ++ [doc]) }
      (es ++ [.added doc rawJson true]) := by
  have hpending : acceptedIds (pendingPart (es ++ [.added doc rawJson true])) =
      acceptedIds (pendingPart es) ++ [doc.id] := by
    rw [pendingPart_of_not rfl, acceptedIds_append]
    rfl
  refine ⟨?_, ?_, ?_⟩
  · rw [refreshedPart_of_not rfl]
    exact h.shelved
  · rw [hpending, ← h.logged, List.filterMap_append, List.filterMap_cons,
      replayedId_logRecord hloggable, if_neg hid]
    rfl
  · rintro _ ⟨⟩
    rw [hpending, ← h.held docs hdocs, List.map_append]
    rfl

/-- A `Refresh` moves everything to the shelves. -/
theorem refreshed {docs : List Document} (h : L.InStep es) (hdocs : L.pending = some docs)
    {shelves : List (List Document)} {log : List Bytes}
    (hshelves : shelves.flatten = L.shelves.flatten ++ docs)
    (hlog : log.filterMap replayedId = []) :
    Ledger.InStep { shelves, log, pending := some [] } (es ++ [.refreshed true]) := by
  have hpending : acceptedIds (pendingPart (es ++ [.refreshed true])) = [] := by
    rw [pendingPart_of_isRefresh rfl]
    rfl
  refine ⟨?_, ?_, ?_⟩
  · rw [refreshedPart_of_isRefresh rfl, acceptedIds_append, ← acceptedIds_parts, ← h.shelved,
      ← h.held docs hdocs, ← List.map_append, ← hshelves]
    exact (List.append_nil _).symm
  · rw [hpending]
    exact hlog
  · rintro _ ⟨⟩
    rw [hpending]
    rfl

end Ledger.InStep

/-- **Every step keeps the ledger in step.** -/
theorem LedgerStep.inStep (hstep : LedgerStep False L e L') (hreturned : e.Returned)
    (hpromised : e.Promised) (hroom : L.HasRoom e) (h : L.InStep es) : L'.InStep (es ++ [e]) := by
  cases hstep with
  | @opened initial =>
    have hsame : L.InStep (es ++ [.opened initial true]) := h.silent rfl rfl
    refine ⟨hsame.shelved, hsame.logged, ?_⟩
    rintro _ ⟨⟩
    rw [map_id_replayedDocs]
    exact hsame.logged
  | notOpened | refused | notSealed => exact h.silent rfl rfl
  | notLogged hloose | notTruncated hloose => exact hloose.elim
  | @rejected docs doc rawJson log hdocs hrej hlog =>
    obtain rfl := hlog.resolve_left not_false
    exact h.rejected hpromised (hrej.resolve_right (hroom _ _ _ docs rfl hdocs))
  | @accepted docs doc rawJson log hdocs hid hlog =>
    obtain rfl := hlog.resolve_left not_false
    exact h.accepted hpromised hid hdocs
  | idle hdocs =>
    have hnone : L.log.filterMap replayedId = [] := h.logged.trans (h.held [] hdocs).symm
    have hrefreshed := h.refreshed hdocs (List.append_nil _).symm hnone
    rwa [← hdocs] at hrefreshed
  | @shelved docs hdocs =>
    exact h.refreshed hdocs (by rw [List.flatten_append, List.flatten_singleton]) rfl
  | closed => exact (h.silent rfl rfl).closed
  | openCut | addCut | sealCut | savedCut | truncatedCut | crashed => exact hreturned.elim

theorem inStep_of_run
    (h : Run (fun L e L' ↦ LedgerStep False L e L' ∧ e.Returned ∧ e.Promised ∧ L.HasRoom e)
      {} es L) : L.InStep es := by
  refine h.invariant_events (I := fun es L ↦ L.InStep es) ⟨rfl, rfl, by rintro _ ⟨⟩⟩ ?_
  rintro es L e L' ih ⟨hstep, hreturned, hpromised, hroom⟩
  exact hstep.inStep hreturned hpromised hroom ih

end Ledgers

/-! ### Runs without crashes -/

/-- The steps of an index without crashes and failures, as long as sizes fit and ids last. -/
structure CleanStep (s : WriterState) (e : WriterEvent) (s' : WriterState) : Prop where
  step : WriterStep Faults.none s e s'
  returned : e.Returned
  promised : e.Promised
  fits : StepFits s e
  short : ∀ doc rawJson ok, e = .added doc rawJson ok → (logRecord doc rawJson).length < 2 ^ 32
  room : ∀ w doc rawJson ok, e = .added doc rawJson ok → s.writer = some w →
    w.mutableSegment.docCount ≠ kNoMoreDocs

/-- What holds of a writer without crashes and failures: its reader, its segments and the manifest
agree, the reader has what was accepted before the last `Refresh` and the segment in memory what was
accepted since, which is what the log stands for. -/
structure IndexWriter.InStep (w : IndexWriter) (es : List WriterEvent) (d : Disk) : Prop where
  published : w.publishedReader.segments = w.sealedSegments
  manifest : Manifest.ofDisk d = .ok (manifestOf w.currentGen w.sealedSegments)
  visible : w.publishedReader.ids = acceptedIds (refreshedPart es)
  pending : w.mutableSegment.docIds = acceptedIds (pendingPart es)
  logged : (records (d.content kTranslogName)).filterMap replayedId = w.mutableSegment.docIds

/-- Documents are pending. -/
def WriterState.Pending (s : WriterState) : Prop :=
  ∃ w, s.writer = some w ∧ w.mutableSegment.docCount ≠ 0

section Clean

variable {F : Faults} {s s' : WriterState} {e : WriterEvent} {es : List WriterEvent} {L : Ledger}

/-- Without crashes and failures the log stays one of whole records. -/
theorem WriterMove.whole (hmove : WriterMove F s e s') (hF : F.Quiet) (hreturned : e.Returned)
    (hshort : ∀ doc rawJson ok, e = .added doc rawJson ok →
      (logRecord doc rawJson).length < 2 ^ 32) (h : Whole (s.disk.content kTranslogName)) :
    Whole (s'.disk.content kTranslogName) := by
  cases hmove with
  | opened _ hfound =>
    show Whole ((touched _).content kTranslogName)
    rw [touched, Disk.content_put, content_found hfound]
    exact h
  | notOpened _ hcut =>
    show Whole (Disk.content _ kTranslogName)
    rw [hcut.content]
    exact h
  | added hw hadd =>
    cases hadd with
    | refused => exact h
    | notLogged _ _ _ hf => exact absurd hf.choose_spec.2 (hF _)
    | rejected | accepted =>
      show Whole ((IndexWriter.logged _ _).content kTranslogName)
      rw [IndexWriter.logged, Disk.content_put]
      exact h.append (hshort _ _ _ rfl)
  | @refreshed w w' r d hw href =>
    show Whole (d.content kTranslogName)
    rcases href.cut.leaves.log with hd | hd
    · rw [Disk.content, hd]
      exact h
    · rw [Disk.content, hd]
      exact whole_nil
  | closed => exact h
  | openCut | addCut | refreshCut | crashed => exact hreturned.elim

/-- Every clean run keeps a ledger that is in step. -/
theorem exists_ledger_of_clean (h : Run CleanStep .start es s) :
    ∃ L, Kept False s L ∧ L.InStep es ∧ s.Ready ∧ Whole (s.disk.content kTranslogName) := by
  have hF : Faults.none.Quiet := fun _ hf ↦ hf
  have hwhole₀ : Whole (WriterState.start.disk.content kTranslogName) := whole_nil
  have hinv : ∀ s e s', s.Ready ∧ Whole (s.disk.content kTranslogName) → CleanStep s e s' →
      s'.Ready ∧ Whole (s'.disk.content kTranslogName) := by
    rintro s e s' ⟨hready, hwhole⟩ hstep
    have hmove := hstep.step.move hready
    exact ⟨hmove.ready hready, hmove.whole hF hstep.returned hstep.short hwhole⟩
  have hrun := h.with_invariant ⟨WriterState.ready_start, hwhole₀⟩ hinv
  have hsafe : ∀ s e s', CleanStep s e s' ∧ s.Ready ∧ Whole (s.disk.content kTranslogName) →
      LogSafe s e := by
    rintro s e s' ⟨hstep, -, hwhole⟩ doc rawJson (rfl | ⟨ok, rfl⟩)
    · exact hstep.returned.elim
    · exact ⟨hstep.short _ _ _ rfl, hwhole.unread_eq⟩
  have hroom : ∀ s e s' L L', Kept False s L → Kept False s' L' →
      CleanStep s e s' ∧ s.Ready ∧ Whole (s.disk.content kTranslogName) →
        e.Returned ∧ e.Promised ∧ L.HasRoom e := by
    rintro s e s' L L' hkept - ⟨hstep, -⟩
    refine ⟨hstep.returned, hstep.promised, fun doc rawJson ok docs he hdocs ↦ ?_⟩
    cases hw : s.writer with
    | none => cases (hkept.closed hw).symm.trans hdocs
    | some w =>
      obtain ⟨docs', hdocs', hkeeps⟩ := hkept.writer w hw
      obtain rfl := Option.some.inj (hdocs'.symm.trans hdocs)
      rw [← hkeeps.docCount]
      exact hstep.room w doc rawJson ok he hw
  obtain ⟨L, hledger, hkept, -⟩ := exists_ledger False _
    (fun L e _ ↦ e.Returned ∧ e.Promised ∧ L.HasRoom e)
    (fun _ _ _ _ h ↦ ⟨Faults.none, h.1.step, h.1.fits, Or.inl (savesManifest_quiet Faults.none),
      Or.inr ⟨hF, hsafe _ _ _ h⟩⟩)
    hroom (kept_start False) WriterState.ready_start hrun
  exact ⟨L, hkept, inStep_of_run hledger, h.invariant ⟨WriterState.ready_start, hwhole₀⟩ hinv⟩

/-- A `Refresh` succeeds with documents pending. -/
def Ledger.Seals (L : Ledger) (e : WriterEvent) : Prop :=
  e.isRefresh = true ∧ ∃ docs, L.pending = some docs ∧ docs ≠ []

/-- There is a shelf more exactly after such a step. -/
theorem LedgerStep.shelves_length {L' : Ledger} (hstep : LedgerStep False L e L')
    (hreturned : e.Returned) :
    L.Seals e ∧ L'.shelves.length = L.shelves.length + 1 ∨
      ¬L.Seals e ∧ L'.shelves.length = L.shelves.length := by
  have hnot : e.isRefresh = false → ¬L.Seals e := fun hfalse hseals ↦
    absurd (hseals.1.symm.trans hfalse) (by decide)
  cases hstep with
  | opened | notOpened | refused | rejected | accepted | notSealed | closed =>
    exact Or.inr ⟨hnot rfl, rfl⟩
  | notLogged hloose | notTruncated hloose => exact hloose.elim
  | idle hdocs =>
    refine Or.inr ⟨fun hseals ↦ ?_, rfl⟩
    obtain ⟨-, docs, hdocs', hne⟩ := hseals
    exact hne (Option.some.inj (hdocs'.symm.trans hdocs))
  | @shelved docs hdocs hne =>
    exact Or.inl ⟨⟨rfl, docs, hdocs, hne⟩, List.length_append⟩
  | openCut | addCut | sealCut | savedCut | truncatedCut | crashed => exact hreturned.elim

theorem Kept.seals_iff {loose : Prop} (hkept : Kept loose s L) :
    L.Seals e ↔ e.isRefresh = true ∧ s.Pending := by
  refine and_congr_right' ⟨?_, ?_⟩
  · rintro ⟨docs, hdocs, hne⟩
    cases hw : s.writer with
    | none => cases (hkept.closed hw).symm.trans hdocs
    | some w =>
      obtain ⟨docs', hdocs', hkeeps⟩ := hkept.writer w hw
      obtain rfl := Option.some.inj (hdocs'.symm.trans hdocs)
      exact ⟨w, hw, fun hzero ↦ hne (List.length_eq_zero_iff.1 (hkeeps.docCount.symm.trans hzero))⟩
  · rintro ⟨w, hw, hcount⟩
    obtain ⟨docs, hdocs, hkeeps⟩ := hkept.writer w hw
    refine ⟨docs, hdocs, ?_⟩
    rintro rfl
    exact hcount hkeeps.docCount

end Clean

/-- **Memory, disk and readers are in step** without crashes and failures, and the generation grows
by one exactly when a `Refresh` succeeds with documents pending. -/
theorem writer_inStep {es : List WriterEvent} {s : WriterState} (h : Run CleanStep .start es s) :
    (∀ w, s.writer = some w → w.InStep es s.disk) ∧
      ∃ m, Manifest.ofDisk s.disk = .ok m ∧ ∀ e s', CleanStep s e s' →
        ∃ m', Manifest.ofDisk s'.disk = .ok m' ∧
          (e.isRefresh = true ∧ s.Pending → m'.generation = m.generation + 1) ∧
          (¬(e.isRefresh = true ∧ s.Pending) → m'.generation = m.generation) := by
  obtain ⟨L, hkept, hinStep, hready, hwhole⟩ := exists_ledger_of_clean h
  constructor
  · intro w hw
    obtain ⟨docs, hdocs, hkeeps⟩ := hkept.writer w hw
    have hpublished := hkeeps.published.resolve_left not_false
    have hmutable : w.mutableSegment.docIds = docs.map (·.id) := by
      rw [hkeeps.pending]
      rfl
    refine ⟨hpublished, hkeeps.manifest, ?_, ?_, ?_⟩
    · rw [IndexReader.ids, hpublished, flatMap_ids hkeeps.segments, hinStep.shelved]
    · rw [hmutable, hinStep.held docs hdocs]
    · rw [hkept.log, hinStep.logged, hmutable, hinStep.held docs hdocs]
  · obtain ⟨m, hm, hgen, -⟩ := hkept.manifest
    refine ⟨m, hm, fun e s' hstep ↦ ?_⟩
    have hsafe : LogSafe s e := by
      rintro doc rawJson (rfl | ⟨ok, rfl⟩)
      · exact hstep.returned.elim
      · exact ⟨hstep.short _ _ _ rfl, hwhole.unread_eq⟩
    obtain ⟨L', hledger, hkept'⟩ := (hstep.step.move hready).ledger hkept hstep.fits
      (Or.inl (savesManifest_quiet Faults.none)) (Or.inr ⟨fun _ hf ↦ hf, hsafe⟩)
    obtain ⟨m', hm', hgen', -⟩ := hkept'.manifest
    rw [← hkept.seals_iff]
    rcases hledger.shelves_length hstep.returned with ⟨hseals, hlen⟩ | ⟨hseals, hlen⟩
    · refine ⟨m', hm', fun _ ↦ ?_, fun h ↦ absurd hseals h⟩
      rw [hgen', hgen, hlen, UInt64.ofNat_add]
      rfl
    · refine ⟨m', hm', fun h ↦ absurd h hseals, fun _ ↦ ?_⟩
      rw [hgen', hgen, hlen]

/-! ### A record that is too long -/

section TooLong

omit [LibcDecimal] in
/-- The bytes of a record are behind the first header. -/
theorem mem_of_mem_recordsFrom {rec : Bytes} {b : UInt8} : ∀ {fuel : ℕ} {bytes : Bytes},
    rec ∈ recordsFrom fuel bytes → b ∈ rec → b ∈ bytes.drop 4
  | 0, bytes, hmem, _ => absurd hmem List.not_mem_nil
  | fuel + 1, bytes, hmem, hb => by
    rw [recordsFrom] at hmem
    split_ifs at hmem
    · exact absurd hmem List.not_mem_nil
    · dsimp only at hmem
      split_ifs at hmem
      · exact absurd hmem List.not_mem_nil
      rcases List.mem_cons.1 hmem with rfl | hmem
      · exact List.mem_of_mem_take hb
      · exact List.mem_of_mem_drop (List.mem_of_mem_drop (mem_of_mem_recordsFrom hmem hb))

omit [LibcDecimal] in
/-- A length the header cannot hold is taken for zero. -/
theorem records_record_of_dvd {payload : Bytes} (h : 2 ^ 32 ∣ payload.length) :
    records (record payload) = [] :: records payload := by
  have hheader : recordHeader payload = record [] := by
    rw [record, List.append_nil, recordHeader, recordHeader]
    refine congrArg u32LE (UInt32.toNat.inj ?_)
    rw [UInt32.toNat_ofNat', Nat.mod_eq_zero_of_dvd h]
    rfl
  rw [record, hheader, records_record_append (by decide)]

/-- The text of an object has a brace. -/
theorem mem_of_parse_object {s : Bytes} {obj : JsonObject} (h : parse s = .ok (.object obj)) :
    123 ∈ s := by
  obtain ⟨w, t, w', -, ht, -, rfl⟩ := derives_of_parse h
  refine List.mem_append_right _ (List.mem_append_left _ ?_)
  generalize hv : JsonValue.object obj = v at ht
  cases ht with
  | emptyObject | object => exact List.mem_cons_self
  | number t =>
    rw [NumberToken.value] at hv
    split_ifs at hv
  | nullLit | trueLit | falseLit | string | emptyArray | array => cases hv

/-- What has no brace stands for no document. -/
theorem replayedId_of_not_mem {rec : Bytes} (h : 123 ∉ rec) : replayedId rec = none := by
  have herror : ∃ e, docFromJson rec = .error e := by
    rw [docFromJson]
    cases hparse : parse rec with
    | error e => exact ⟨e, rfl⟩
    | ok v =>
      cases v with
      | object obj => exact absurd (mem_of_parse_object hparse) h
      | null | bool | int | double | string | array => exact ⟨_, rfl⟩
  obtain ⟨e, he⟩ := herror
  rw [replayedId, replayedDoc, he]
  rfl

/-- A record that is taken for an empty one stands for nothing. -/
theorem replayedIds_of_dvd {text : Bytes} (hdvd : 2 ^ 32 ∣ (123 :: text).length)
    (hbrace : 123 ∉ text) : (records (record (123 :: text))).filterMap replayedId = [] := by
  rw [records_record_of_dvd hdvd, List.filterMap_eq_nil_iff]
  intro rec hrec
  refine replayedId_of_not_mem fun hmem ↦ ?_
  rcases List.mem_cons.1 hrec with rfl | hrec
  · cases hmem
  · have htext : (123 : UInt8) ∈ text.drop 3 := mem_of_mem_recordsFrom hrec hmem
    exact hbrace (List.mem_of_mem_drop htext)

end TooLong

section Samples

omit [LibcDecimal]

/-- A document with an id of some length. -/
def wideDoc (n : ℕ) : Document := { id := List.replicate n 97 }

theorem logRecord_wideDoc (n : ℕ) : ∃ text, @logRecord .integral (wideDoc n) [] = 123 :: text ∧
    text.length = n + 9 ∧ 123 ∉ text := by
  let _ := LibcDecimal.integral
  have hescape : escapeString (List.replicate n 97) = List.replicate n 97 := by
    induction n with
    | zero => rfl
    | succ n ih =>
      rw [List.replicate_succ, escapeString, List.flatMap_cons, ← escapeString, ih]
      rfl
  have hwritten : writeEscapedString (List.replicate n 97) =
      34 :: List.replicate n 97 ++ [34] := by rw [writeEscapedString, hescape]
  have hjson : logRecord (wideDoc n) [] =
      123 :: (writeEscapedString Schema.kIdField ++ [58] ++ [] ++
        writeEscapedString (List.replicate n 97) ++ [] ++ [] ++ [125]) := by
    rfl
  have hkey : writeEscapedString Schema.kIdField = [34, 95, 105, 100, 34] := by decide
  refine ⟨_, hjson, ?_, ?_⟩
  · rw [hwritten, hkey]
    simp only [List.length_append, List.length_cons, List.length_nil, List.length_replicate]
    omega
  · rw [hwritten, hkey]
    simp [List.mem_replicate]

theorem writer_inStep_sample :
    ∃ w d, (∀ w', some w = some w' → @IndexWriter.InStep .integral w'
        [.opened (some sampleSchema) true, .added sampleDoc [] true, .refreshed true] d) ∧
      ∃ m, @Manifest.ofDisk .integral d = .ok m ∧
        ∀ e s', @CleanStep .integral ⟨some w, d⟩ e s' →
          ∃ m', @Manifest.ofDisk .integral s'.disk = .ok m' ∧
            (e.isRefresh = true ∧ WriterState.Pending ⟨some w, d⟩ →
              m'.generation = m.generation + 1) ∧
            (¬(e.isRefresh = true ∧ WriterState.Pending ⟨some w, d⟩) →
              m'.generation = m.generation) := by
  let _ := LibcDecimal.integral
  obtain ⟨w, d, hrun, -⟩ := refreshed_sample Faults.none
  have hclean := hrun.mono fun s e s' h ↦ (⟨h.1.step, h.2.1, h.1.promised, h.1.fits,
    fun doc rawJson ok he ↦ (h.1.logSafe doc rawJson (Or.inr ⟨ok, he⟩)).1,
    fun w _ _ _ _ hw ↦ h.2.2 w hw⟩ : CleanStep s e s')
  exact ⟨w, d, @writer_inStep .integral _ _ hclean⟩

/-- A document whose record has a length that a header takes for zero: it is accepted, and the log
does not have it. -/
theorem not_writer_inStep :
    ¬∀ (es : List WriterEvent) (s : WriterState) (w : IndexWriter),
      Run (fun s e s' ↦ @WriterStep .integral Faults.none s e s' ∧ e.Returned ∧
        @WriterEvent.Promised .integral e) .start es s → s.writer = some w →
        @IndexWriter.InStep .integral w es s.disk := by
  let _ := LibcDecimal.integral
  intro hall
  -- The length stays a variable: it is never computed with.
  obtain ⟨n, hn⟩ : ∃ n : ℕ, 2 ^ 32 ∣ n + 10 := ⟨4294967286, by norm_num⟩
  have hid : (wideDoc n).id ≠ [] := by
    obtain ⟨m, rfl⟩ : ∃ m, n = m + 1 := Nat.exists_eq_add_of_le' (by omega)
    exact List.cons_ne_nil _ _
  obtain ⟨t, ht, hopen⟩ := step_opened Faults.none sampleSchema
  have hready := (hopen.move WriterState.ready_start).ready WriterState.ready_start
  obtain ⟨seg, hseg⟩ : ∃ seg, (MutableSegment.new sampleSchema).addDocument (wideDoc n) =
      .ok (seg, 0) := by
    rw [MutableSegment.addDocument, if_neg hid, if_neg (by decide)]
    exact ⟨_, rfl⟩
  obtain ⟨t', -, hadd⟩ := step_added Faults.none rfl hready rfl ht hseg
  have hpromised : (WriterEvent.added (wideDoc n) [] true).Promised :=
    ⟨rfl, fun h ↦ absurd rfl h⟩
  have hinStep := hall _ _ _ ((Run.single ⟨hopen, trivial, trivial⟩).step
    ⟨hadd, trivial, hpromised⟩) rfl
  -- The log has nothing, the segment has the document.
  obtain ⟨text, htext, hlen, hbrace⟩ := logRecord_wideDoc n
  have hnone : (records (record (logRecord (wideDoc n) []))).filterMap replayedId = [] := by
    rw [htext]
    refine replayedIds_of_dvd ?_ hbrace
    rwa [List.length_cons, hlen]
  have hids : seg.docIds = [(wideDoc n).id] := by
    rw [← MutableSegment.build_nil] at hseg
    obtain ⟨-, -, rfl⟩ := addDocument_build hseg
    rfl
  have hlogged := hinStep.logged
  have hcontent : (IndexWriter.logged freshDisk (record (logRecord (wideDoc n) []))).content
      kTranslogName = record (logRecord (wideDoc n) []) := by
    rw [IndexWriter.logged, Disk.content_put, content_freshDisk, List.nil_append]
  have hlogged' : (records (record (logRecord (wideDoc n) []))).filterMap replayedId =
      seg.docIds := by
    rw [← hcontent]
    exact hlogged
  rw [hnone, hids] at hlogged'
  cases hlogged'

end Samples

end Spp.Index
