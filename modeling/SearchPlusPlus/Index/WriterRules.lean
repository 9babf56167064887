import SearchPlusPlus.Index.Opening
import SearchPlusPlus.Index.SegmentStem

/-!
# What the methods of the writer do

One rule for each of `AddDocument` and `Refresh`: their outcomes under any faults (`Added`,
`Refreshed`), each with the reason it needs, and the disks a crash may leave (`AddCut`,
`RefreshCut`). Every invariant of a run is derived from these.
-/

namespace Spp.Index

open Json Store

/-! ### Opened readers -/

theorem readInfo_eq_ok {stem bytes rest : Bytes} {info : SegmentInfo}
    (h : readInfo stem bytes = .ok (info, rest)) : info.stem = stem ∧ info.docCount < 2 ^ 32 := by
  obtain ⟨⟨version, docCount⟩, _, -, h⟩ := cursor_bind_eq_ok.1 h
  obtain ⟨fingerprint, _, -, h⟩ := cursor_bind_eq_ok.1 h
  obtain ⟨fieldCount, _, -, h⟩ := cursor_bind_eq_ok.1 h
  obtain ⟨fields, _, -, h⟩ := cursor_bind_eq_ok.1 h
  obtain ⟨rfl, -⟩ := Prod.mk.inj (Except.ok.inj h)
  exact ⟨rfl, Nat.mod_lt _ (by decide)⟩

namespace SegmentReader

theorem ofDisk_eq_ok {d : Disk} {stem : Bytes} {r : SegmentReader} (h : ofDisk d stem = .ok r) :
    r.stem = stem ∧ r.docCount < 2 ^ 32 := by
  obtain ⟨si, tim, doc, fdt, fdx, hparse⟩ := parse_of_ofDisk h
  obtain ⟨info, _, fields, fdxOffsets, hinfo, -, -, rfl⟩ := parse_eq_ok hparse
  exact readInfo_eq_ok hinfo

/-- A reader has the stem it was opened under, and a 32-bit document count. -/
theorem openDisk_eq_ok {d : Disk} {stem : Bytes} {r : SegmentReader}
    (h : openDisk d stem = .ok r) : r.stem = stem ∧ r.docCount < 2 ^ 32 := by
  obtain ⟨reader, hreader, h⟩ := bind_eq_ok.1 h
  have hinfo : r.info = reader.info := by
    cases hq : d (stem ++ kSegDocQualityExt) with
    | none =>
      rw [hq] at h
      cases h
      rfl
    | some dvq =>
      rw [hq] at h
      obtain ⟨⟨quality, _⟩, -, h⟩ := bind_eq_ok.1 h
      cases h
      rfl
  rw [SegmentReader.stem, SegmentReader.docCount, hinfo]
  exact ofDisk_eq_ok hreader

end SegmentReader

namespace Translog

/-- The sink, if any, writes the log file. -/
def Attached (t : Translog) : Prop := ∀ sink, t.sink = some sink → sink.path = kTranslogName

theorem Usable.attached {t : Translog} (h : t.Usable) : t.Attached := by
  obtain ⟨sink, hsink, hpath, -⟩ := h
  intro sink' hsink'
  cases hsink.symm.trans hsink'
  exact hpath

/-- A log with no sink to write to. -/
def Dead (t : Translog) : Prop := ∀ sink, t.sink = some sink → sink.closed = true

theorem Attached.usable_or_dead {t : Translog} (h : t.Attached) : t.Usable ∨ t.Dead := by
  cases hsink : t.sink with
  | none => exact Or.inr fun sink h ↦ by cases hsink.symm.trans h
  | some sink =>
    cases hclosed : sink.closed with
    | false => exact Or.inl ⟨sink, hsink, h sink hsink, hclosed⟩
    | true =>
      refine Or.inr fun sink' h' ↦ ?_
      cases hsink.symm.trans h'
      exact hclosed

end Translog

namespace IndexWriter

variable [LibcDecimal]

/-- The log of an open writer is attached to an existing file. -/
def LogReady (w : IndexWriter) (d : Disk) : Prop :=
  ∀ t, w.translog = some t → t.Attached ∧ d kTranslogName = some (d.content kTranslogName)

/-! ### AddDocument -/

/-- The disk with these bytes behind the log. -/
def logged (d : Disk) (b : Bytes) : Disk := d.put kTranslogName (d.content kTranslogName ++ b)

/-- The outcomes of `AddDocument`. -/
inductive Added (F : Faults) (w : IndexWriter) (doc : Document) (rawJson : Bytes) (d : Disk) :
    Expected Unit → IndexWriter → Disk → Prop
  /-- The writer is closed, or its log is. -/
  | refused (h : ∀ t, w.translog = some t → t.Dead) (e : Status) :
      Added F w doc rawJson d (.error e) w d
  /-- The log failed, and a part of the record is behind it. -/
  | notLogged {t : Translog} {b : Bytes} (hopen : w.translog ≠ none) (ht : t.Usable)
      (hb : Translog.Leaves F (logRecord doc rawJson) b)
      (hf : ∃ a ∈ Translog.appendActions (logRecord doc rawJson), F.fails (.act a)) (e : Status) :
      Added F w doc rawJson d (.error e) { w with translog := some t } (logged d b)
  /-- The record is in the log, the document is not in the segment. -/
  | rejected {t : Translog} {e : Status} (hopen : w.translog ≠ none) (ht : t.Usable)
      (h : w.mutableSegment.addDocument doc = .error e) :
      Added F w doc rawJson d (.error e) { w with translog := some t }
        (logged d (record (logRecord doc rawJson)))
  | accepted {t : Translog} {seg : MutableSegment} {id : ℕ} (hopen : w.translog ≠ none)
      (ht : t.Usable) (h : w.mutableSegment.addDocument doc = .ok (seg, id)) :
      Added F w doc rawJson d (.ok ()) { w with translog := some t, mutableSegment := seg }
        (logged d (record (logRecord doc rawJson)))

/-- What a crash in `AddDocument` leaves: the log, or a part of the record behind it. -/
def AddCut (F : Faults) (doc : Document) (rawJson : Bytes) (d d' : Disk) : Prop :=
  d' = d ∨ ∃ b, Translog.Leaves F (logRecord doc rawJson) b ∧ d' = logged d b

/-- **`AddDocument`.** -/
theorem wp_addDocument {F : Faults} {w : IndexWriter} {doc : Document} {rawJson : Bytes} {d : Disk}
    {Q : Expected Unit → IndexWriter → Disk → Prop} {C : Disk → Prop} (hlog : w.LogReady d)
    (hC : ∀ d', AddCut F doc rawJson d d' → C d')
    (hdone : ∀ r w' d', Added F w doc rawJson d r w' d' → Q r w' d') :
    (addDocument doc rawJson).wp (files F) w Q C d := by
  have hstart : C d := hC d (Or.inl rfl)
  have hcut : ∀ b, Translog.Leaves F (logRecord doc rawJson) b → C (logged d b) :=
    fun b hb ↦ hC _ (Or.inr ⟨b, hb, rfl⟩)
  refine Method.wp_bind.2 ⟨Method.seq_ok.2 ?_, hstart⟩
  cases ht : w.translog with
  | none =>
    exact ⟨hdone _ _ _ (.refused (fun t h ↦ by cases ht.symm.trans h) _), hstart⟩
  | some t =>
    have hopen : w.translog ≠ none := by rw [ht]; exact Option.some_ne_none t
    obtain ⟨hattached, hexists⟩ := hlog t ht
    rcases hattached.usable_or_dead with husable | hdead
    · refine Method.wp_bind.2 (Method.wp_owning.2 (Translog.wp_append husable hexists hcut ?_ ?_))
      · intro t' ht'
        have hwhole := hcut _ ⟨List.prefix_rfl, Or.inr (Or.inr (Or.inl rfl))⟩
        refine Method.wp_bind.2 ⟨Method.seq_ok.2 ?_, hwhole⟩
        cases hadd : w.mutableSegment.addDocument doc with
        | error e => exact ⟨hdone _ _ _ (.rejected hopen ht' hadd), hwhole⟩
        | ok r => exact ⟨hdone _ _ _ (.accepted hopen ht' hadd), hwhole⟩
      · intro hf m t' b ht' hb
        refine Method.wp_bind.2 ⟨⟨?_, hcut b hb⟩, hcut b hb⟩
        exact hdone _ _ _ (.notLogged hopen ht' hb hf _)
    · refine Method.wp_bind.2 (Method.wp_owning.2 (Translog.wp_append_refused hstart hdead ?_))
      intro e
      refine Method.wp_bind.2 ⟨⟨?_, hstart⟩, hstart⟩
      have hsame : { w with translog := some t } = w := by rw [← ht]
      rw [hsame]
      refine hdone _ _ _ (.refused (fun t' h ↦ ?_) _)
      cases ht.symm.trans h
      exact hdead

/-! ### Refresh -/

section Parts

omit [LibcDecimal]

variable (w : IndexWriter)

/-- The stem of the next segment. -/
def nextStem : Bytes := makeSegmentStem (w.currentGen + 1) w.nextSegmentId

/-- The manifest that lists one more segment. -/
def nextManifest (r : SegmentReader) : Manifest :=
  manifestOf (w.currentGen + 1) (w.sealedSegments ++ [r])

/-- The writer once a segment id was taken. -/
def counted : IndexWriter := { w with nextSegmentId := w.nextSegmentId + 1 }

/-- The writer once a segment was sealed and opened. -/
def withSealed (r : SegmentReader) : IndexWriter :=
  { w.counted with sealedSegments := w.sealedSegments ++ [r] }

/-- The writer once the manifest was saved. -/
def committed (r : SegmentReader) (t : Translog) : IndexWriter :=
  { w.withSealed r with
    currentGen := w.currentGen + 1
    mutableSegment := .new w.schema
    translog := some t }

/-- The writer once its segments were published. -/
def published : IndexWriter := { w with publishedReader := ⟨w.schema, w.sealedSegments⟩ }

/-- The files of the next segment. -/
def nextFiles : List (Bytes × Bytes) :=
  (sealBuffers w.mutableSegment w.nextStem).2.toList w.nextStem

/-- The pending documents are in the files of the next segment, and these were opened. -/
structure Sealed (F : Faults) (d d₁ : Disk) (r : SegmentReader) : Prop where
  agree : AgreeOff (w.nextFiles.map Prod.fst) d d₁
  holds : Holds w.nextFiles d₁
  reader : SegmentReader.openDisk d₁ w.nextStem = .ok r ∨
    F.fails (.load (w.nextStem ++ kSegDocQualityExt)) ∧ SegmentReader.ofDisk d₁ w.nextStem = .ok r

/-- Why the next segment may not come about. -/
def SealFault (F : Faults) (d : Disk) : Prop :=
  (∃ a ∈ sealActions w.mutableSegment w.nextStem, F.fails (.act a)) ∨
    (∃ name ∈ requiredNames w.nextStem, F.fails (.load name)) ∨
      ∃ d₁ e, AgreeOff (w.nextFiles.map Prod.fst) d d₁ ∧ Holds w.nextFiles d₁ ∧
        SegmentReader.openDisk d₁ w.nextStem = .error e

end Parts

/-- The outcomes of `Refresh`. -/
inductive Refreshed (F : Faults) (w : IndexWriter) (d : Disk) :
    Expected Generation → IndexWriter → Disk → Prop
  | refused (h : w.translog = none) (e : Status) : Refreshed F w d (.error e) w d
  /-- Nothing is pending: the sealed segments are published. -/
  | idle (hopen : w.translog ≠ none) (h : w.mutableSegment.docCount = 0) :
      Refreshed F w d (.ok w.currentGen) w.published d
  | sealFailed {d' : Disk} (hopen : w.translog ≠ none) (h : w.mutableSegment.docCount ≠ 0)
      (hoff : AgreeOff (segmentNames w.nextStem) d d') (hf : w.SealFault F d) (e : Status) :
      Refreshed F w d (.error e) w.counted d'
  /-- The old manifest is in place. -/
  | saveFailed {r : SegmentReader} {d₁ d' : Disk} (hopen : w.translog ≠ none)
      (h : w.mutableSegment.docCount ≠ 0) (hs : w.Sealed F d d₁ r)
      (hoff : AgreeOff [kManifestTmpName] d₁ d')
      (hf : ∃ a ∈ publishActions (w.nextManifest r), F.fails (.act a)) (e : Status) :
      Refreshed F w d (.error e) (w.withSealed r) d'
  /-- The new manifest is in place, and the writer does not know it. -/
  | syncFailed {r : SegmentReader} {d₁ d' : Disk} (hopen : w.translog ≠ none)
      (h : w.mutableSegment.docCount ≠ 0) (hs : w.Sealed F d d₁ r)
      (hp : Published (w.nextManifest r) d₁ d') (hf : F.fails (.act .fsyncDirectory))
      (e : Status) : Refreshed F w d (.error e) (w.withSealed r) d'
  /-- The new manifest is in place, and the log may still hold what it lists. -/
  | truncateFailed {r : SegmentReader} {t : Translog} {d₁ d₂ d' : Disk}
      (hopen : w.translog ≠ none) (h : w.mutableSegment.docCount ≠ 0) (hs : w.Sealed F d d₁ r)
      (hp : Published (w.nextManifest r) d₁ d₂) (ht : t.Attached)
      (hd' : d' = d₂ ∨ d' = d₂.put kTranslogName [])
      (hf : ∃ a ∈ Translog.truncateActions, F.fails (.act a)) (e : Status) :
      Refreshed F w d (.error e) (w.committed r t) d'
  | done {r : SegmentReader} {t : Translog} {d₁ d₂ : Disk} (hopen : w.translog ≠ none)
      (h : w.mutableSegment.docCount ≠ 0) (hs : w.Sealed F d d₁ r)
      (hp : Published (w.nextManifest r) d₁ d₂) (ht : t.Usable) :
      Refreshed F w d (.ok (w.currentGen + 1)) (w.committed r t).published
        (d₂.put kTranslogName [])

/-- The disks a crash in `Refresh` may leave. -/
inductive RefreshCut (F : Faults) (w : IndexWriter) (d : Disk) : Disk → Prop
  | start : RefreshCut F w d d
  | sealing {d' : Disk} (h : w.mutableSegment.docCount ≠ 0)
      (hoff : AgreeOff (segmentNames w.nextStem) d d') : RefreshCut F w d d'
  | saving {r : SegmentReader} {d₁ d' : Disk} (h : w.mutableSegment.docCount ≠ 0)
      (hs : w.Sealed F d d₁ r) (hoff : AgreeOff [kManifestTmpName] d₁ d') : RefreshCut F w d d'
  | saved {r : SegmentReader} {d₁ d' : Disk} (h : w.mutableSegment.docCount ≠ 0)
      (hs : w.Sealed F d d₁ r) (hp : Published (w.nextManifest r) d₁ d') : RefreshCut F w d d'
  | truncated {r : SegmentReader} {d₁ d₂ : Disk} (h : w.mutableSegment.docCount ≠ 0)
      (hs : w.Sealed F d d₁ r) (hp : Published (w.nextManifest r) d₁ d₂) :
      RefreshCut F w d (d₂.put kTranslogName [])

omit [LibcDecimal] in
/-- `SealCurrentSegment` with documents pending: the segment is sealed and opened, or it is
not. -/
theorem wp_sealCurrentSegment {F : Faults} {w : IndexWriter} {d : Disk}
    {Q : Expected (Option SegmentReader) → IndexWriter → Disk → Prop} {C : Disk → Prop}
    (h : w.mutableSegment.docCount ≠ 0) (hC : ∀ d', AgreeOff (segmentNames w.nextStem) d d' → C d')
    (hdone : ∀ r d₁, w.Sealed F d d₁ r → Q (.ok (some r)) w.counted d₁)
    (hfail : w.SealFault F d → ∀ e d', AgreeOff (segmentNames w.nextStem) d d' →
      Q (.error e) w.counted d') :
    sealCurrentSegment.wp (files F) w Q C d := by
  have hstart : C d := hC d (AgreeOff.refl _ _)
  have hsub := ((sealBuffers w.mutableSegment w.nextStem).2.toList_names w.nextStem).subset
  refine Method.wp_bind.2 ⟨Method.seq_ok.2 ?_, hstart⟩
  rw [if_neg h]
  refine Method.wp_bind.2 ⟨Method.seq_ok.2 ?_, hstart⟩
  refine Method.wp_bind.2 (wp_sealSegment w.mutableSegment w.nextStem hC ?_ ?_)
  · intro d₁ hoff hholds
    have hC₁ := hC d₁ (hoff.mono hsub)
    refine Method.seq_ok.2 (Method.wp_bind.2 (Spp.Index.wp_open w.nextStem hC₁ ?_ ?_ ?_))
    · cases hr : SegmentReader.openDisk d₁ w.nextStem with
      | error e =>
        exact hfail (Or.inr (Or.inr ⟨d₁, e, hoff, hholds, hr⟩)) e d₁ (hoff.mono hsub)
      | ok r => exact ⟨hdone r d₁ ⟨hoff, hholds, Or.inl hr⟩, hC₁⟩
    · exact fun hf m ↦ hfail (Or.inr (Or.inl hf)) _ d₁ (hoff.mono hsub)
    · intro hf
      cases hr : SegmentReader.ofDisk d₁ w.nextStem with
      | error e =>
        refine hfail (Or.inr (Or.inr ⟨d₁, e, hoff, hholds, ?_⟩)) e d₁ (hoff.mono hsub)
        rw [SegmentReader.openDisk, hr]
        rfl
      | ok r => exact ⟨hdone r d₁ ⟨hoff, hholds, Or.inr ⟨hf, hr⟩⟩, hC₁⟩
  · exact fun hf m d' hoff ↦ hfail (Or.inl hf) _ d' hoff

/-- **`Refresh`.** -/
theorem wp_refresh {F : Faults} {w : IndexWriter} {d : Disk}
    {Q : Expected Generation → IndexWriter → Disk → Prop} {C : Disk → Prop}
    (hattached : ∀ t, w.translog = some t → t.Attached) (hC : ∀ d', RefreshCut F w d d' → C d')
    (hdone : ∀ r w' d', Refreshed F w d r w' d' → Q r w' d') :
    refresh.wp (files F) w Q C d := by
  have hstart := hC d .start
  refine Method.wp_bind.2 ⟨Method.seq_ok.2 ?_, hstart⟩
  cases ht : w.translog with
  | none => exact ⟨hdone _ _ _ (.refused ht _), hstart⟩
  | some t =>
    have hopen : w.translog ≠ none := by rw [ht]; exact Option.some_ne_none t
    by_cases hpending : w.mutableSegment.docCount = 0
    · have hidle := hdone _ _ _ (.idle hopen hpending)
      refine Method.wp_bind.2 (Method.wp_bind.2 ⟨Method.seq_ok.2 ?_, hstart⟩)
      rw [if_pos hpending]
      exact ⟨⟨hidle, hstart⟩, hstart⟩
    · refine Method.wp_bind.2 (wp_sealCurrentSegment hpending
        (fun d' hoff ↦ hC d' (.sealing hpending hoff)) ?_ ?_)
      · intro r d₁ hs
        have hC₁ := hC d₁ (.saving hpending hs (AgreeOff.refl _ _))
        refine Method.seq_ok.2 (Method.wp_bind.2 ⟨Method.seq_ok.2 ?_, hC₁⟩)
        refine Method.wp_bind.2 ⟨Method.seq_ok.2 ?_, hC₁⟩
        refine Method.wp_bind.2 (wp_saveManifest
          (fun d' hoff ↦ hC d' (.saving hpending hs hoff))
          (fun d' hp ↦ hC d' (.saved hpending hs hp)) ?_ ?_ ?_)
        · intro d₂ hp
          have hC₂ := hC d₂ (.saved hpending hs hp)
          have hC₃ := hC _ (.truncated hpending hs hp)
          refine Method.seq_ok.2 (Method.wp_bind.2 (Method.wp_owning.2
            (Translog.wp_truncate (hattached t ht) hC₂ hC₃ ?_ ?_)))
          · intro t' ht'
            have hok := hdone _ _ _ (.done hopen hpending hs hp ht')
            refine Method.wp_bind.2 ⟨Method.seq_ok.2 ?_, hC₃⟩
            exact Method.wp_bind.2 ⟨⟨hok, hC₃⟩, hC₃⟩
          · intro hf m t' d' ht' hd'
            have hC' : C d' := by
              rcases hd' with rfl | rfl
              · exact hC₂
              · exact hC₃
            refine Method.wp_bind.2 ⟨⟨?_, hC'⟩, hC'⟩
            exact hdone _ _ _ (.truncateFailed hopen hpending hs hp ht' hd' hf _)
        · exact fun hf e d' hoff ↦ hdone _ _ _ (.saveFailed hopen hpending hs hoff hf _)
        · exact fun hf e d' hp ↦ hdone _ _ _ (.syncFailed hopen hpending hs hp hf _)
      · exact fun hf e d' hoff ↦ hdone _ _ _ (.sealFailed hopen hpending hoff hf e)

/-! ### What stays -/

section Frames

variable {F : Faults} {w w' : IndexWriter} {d d' d₁ : Disk} {r : SegmentReader}

omit [LibcDecimal] in
theorem Sealed.agree_segment (h : w.Sealed F d d₁ r) : AgreeOff (segmentNames w.nextStem) d d₁ :=
  h.agree.mono ((sealBuffers w.mutableSegment w.nextStem).2.toList_names w.nextStem).subset

omit [LibcDecimal] in
theorem Sealed.reader_eq (h : w.Sealed F d d₁ r) : r.stem = w.nextStem ∧ r.docCount < 2 ^ 32 := by
  rcases h.reader with h | ⟨-, h⟩
  · exact SegmentReader.openDisk_eq_ok h
  · exact SegmentReader.ofDisk_eq_ok h

/-- A returned `AddDocument` leaves what a crash could leave as well. -/
theorem Added.cut {doc : Document} {rawJson : Bytes} {res : Expected Unit}
    (h : Added F w doc rawJson d res w' d') : AddCut F doc rawJson d d' := by
  cases h with
  | refused => exact Or.inl rfl
  | notLogged _ _ hb => exact Or.inr ⟨_, hb, rfl⟩
  | rejected | accepted =>
    exact Or.inr ⟨_, ⟨List.prefix_rfl, Or.inr (Or.inr (Or.inl rfl))⟩, rfl⟩

/-- `AddDocument` changes the log only. -/
theorem AddCut.agree {doc : Document} {rawJson : Bytes} (h : AddCut F doc rawJson d d') :
    AgreeOff [kTranslogName] d d' := by
  rcases h with rfl | ⟨b, -, rfl⟩
  · exact AgreeOff.refl _ _
  · exact agreeOff_put (List.mem_singleton.2 rfl) d _

/-- A returned `Refresh` leaves what a crash could leave as well. -/
theorem Refreshed.cut {res : Expected Generation} (h : Refreshed F w d res w' d') :
    RefreshCut F w d d' := by
  cases h with
  | refused | idle => exact .start
  | sealFailed _ h hoff => exact .sealing h hoff
  | saveFailed _ h hs hoff => exact .saving h hs hoff
  | syncFailed _ h hs hp => exact .saved h hs hp
  | truncateFailed _ h hs hp _ hd' =>
    rcases hd' with rfl | rfl
    · exact .saved h hs hp
    · exact .truncated h hs hp
  | done _ h hs hp => exact .truncated h hs hp

/-- **What `Refresh` leaves alone**: everything but the files of its segment, the manifest and
the log. The manifest is the old one or lists one more segment, the log the old one or empty. -/
structure RefreshLeaves (F : Faults) (w : IndexWriter) (d d' : Disk) : Prop where
  other : AgreeOff
    (segmentNames w.nextStem ++ [kManifestTmpName, kManifestName, kTranslogName]) d d'
  log : d' kTranslogName = d kTranslogName ∨ d' kTranslogName = some []
  manifest : d' kManifestName = d kManifestName ∨ ∃ r d₁, w.mutableSegment.docCount ≠ 0 ∧
    w.Sealed F d d₁ r ∧ d' kManifestName = some (w.nextManifest r).toText

theorem RefreshCut.leaves (h : RefreshCut F w d d') : RefreshLeaves F w d d' := by
  have hlog : kTranslogName ∉ segmentNames w.nextStem := not_mem_segmentNames (by decide)
  have hmanifest : kManifestName ∉ segmentNames w.nextStem := not_mem_segmentNames (by decide)
  have hsealing : ∀ d₁, AgreeOff (segmentNames w.nextStem) d d₁ → RefreshLeaves F w d d₁ :=
    fun d₁ hoff ↦ ⟨hoff.mono (List.subset_append_left ..), Or.inl (hoff _ hlog),
      Or.inl (hoff _ hmanifest)⟩
  have hsaved : ∀ {r d₁ d₂}, w.mutableSegment.docCount ≠ 0 → w.Sealed F d d₁ r →
      Published (w.nextManifest r) d₁ d₂ → RefreshLeaves F w d d₂ := by
    intro r d₁ d₂ h hs hp
    refine ⟨?_, Or.inl ?_, Or.inr ⟨r, d₁, h, hs, hp.manifest⟩⟩
    · refine (hsealing d₁ hs.agree_segment).other.trans (hp.agree.mono fun n hn ↦ ?_)
      simp only [List.mem_cons, List.not_mem_nil, or_false] at hn
      simp only [List.mem_append, List.mem_cons]
      rcases hn with rfl | rfl <;> simp
    · rw [hp.agree _ (by decide), hs.agree_segment _ hlog]
  cases h with
  | start => exact ⟨AgreeOff.refl _ _, Or.inl rfl, Or.inl rfl⟩
  | sealing _ hoff => exact hsealing d' hoff
  | saving _ hs hoff =>
    have hs' := hsealing _ hs.agree_segment
    refine ⟨hs'.other.trans (hoff.mono (by simp)), Or.inl ?_, Or.inl ?_⟩
    · rw [hoff _ (by decide), hs.agree_segment _ hlog]
    · rw [hoff _ (by decide), hs.agree_segment _ hmanifest]
  | saved h hs hp => exact hsaved h hs hp
  | @truncated r d₁ d₂ h hs hp =>
    have hs' := hsaved h hs hp
    refine ⟨hs'.other.trans (agreeOff_put (by simp) d₂ []), Or.inr (Disk.put_self ..), Or.inr ?_⟩
    exact ⟨r, d₁, h, hs, by rw [d₂.put_of_ne (by decide), hp.manifest]⟩

end Frames

end IndexWriter

end Spp.Index
