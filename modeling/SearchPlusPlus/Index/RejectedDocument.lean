import SearchPlusPlus.Index.WriterRun

/-!
# Rejected documents

`AddDocument` logs a document before the segment has looked at it. When the segment rejects it,
the record stays: `Replay` returns it with the others, unless the log ended in a torn record that
takes it in (`rejected_iff`). The segment itself is as it was.
-/

namespace Spp.Index

open Json Store

/-- What `Replay` returns on a disk when no call fails. -/
def replayed (d : Disk) : Expected (List Bytes) := (run (Translog.replay ()) d).1.1

theorem replayed_eq (d : Disk) : replayed d = .ok (records (d.content kTranslogName)) := by
  have hwp : (Translog.replay : FileMethod Unit (List Bytes)).wp (files Faults.none) ()
      (fun r _ _ ↦ r = .ok (records (d.content kTranslogName))) (fun _ ↦ True) d :=
    Translog.wp_replay trivial rfl fun hf ↦ hf.elim
  exact (Method.wp_iff.1 hwp).1 _ _ _ (returns_run Faults.none _ d)

/-- The bytes behind the whole records of a log announce a longer record than they and the next
one make. -/
def TakesIn (log next : Bytes) : Prop :=
  (unread log ++ next).length < 4 + unpackLE ((unread log ++ next).take 4)

instance (log next : Bytes) : Decidable (TakesIn log next) := inferInstanceAs (Decidable (_ < _))

/-- A log without a torn record takes nothing in. -/
theorem not_takesIn {log payload : Bytes} (h : unread log = []) :
    ¬TakesIn log (record payload) := by
  have hhdr : (record payload).take 4 = recordHeader payload :=
    List.take_left' (by simp [recordHeader])
  have hlen : unpackLE (recordHeader payload) ≤ payload.length := by
    rw [recordHeader, u32LE, unpackLE_packLE]
    exact (Nat.mod_le _ _).trans ((UInt32.toNat_ofNat' ..).trans_le (Nat.mod_le _ _))
  rw [TakesIn, h, List.nil_append, hhdr, record_length]
  omega

theorem records_append_record_iff (log payload : Bytes) :
    records (log ++ record payload) = records log ↔ TakesIn log (record payload) := by
  have hlong : 4 ≤ (unread log ++ record payload).length := by
    rw [List.length_append, record_length]
    omega
  rw [records_append, List.append_right_eq_self, records_eq_nil_iff hlong, TakesIn]

namespace IndexWriter

variable [LibcDecimal]

/-- The status of a rejected document is none that the log can give. -/
theorem code_of_rejected {seg : MutableSegment} {doc : Document} {e : Status}
    (h : seg.addDocument doc = .error e) : e.code ≠ .ioError ∧ e.code ≠ .failedPrecondition := by
  rw [MutableSegment.addDocument] at h
  split_ifs at h <;> obtain rfl := Except.error.inj h <;> exact ⟨by decide, by decide⟩

/-- An `AddDocument` that ends in the status of the segment has logged the document. -/
theorem wp_addDocument_rejected {F : Faults} {w : IndexWriter} {doc : Document} {rawJson : Bytes}
    {d : Disk} {e : Status} {C : Disk → Prop} (hlog : w.LogReady d) (hC : ∀ d', C d')
    (hrej : w.mutableSegment.addDocument doc = .error e) :
    (addDocument doc rawJson).wp (files F) w
      (fun r w' d' ↦ r = .error e → w'.mutableSegment = w.mutableSegment ∧
        d' = logged d (record (logRecord doc rawJson))) C d := by
  obtain ⟨hio, hpre⟩ := code_of_rejected hrej
  have hother : ∀ {e' : Status} {P : Prop}, e.code ≠ e'.code →
      (.error e' : Expected Unit) = .error e → P :=
    fun hne h ↦ absurd (congrArg Status.code (Except.error.inj h)).symm hne
  refine Method.wp_bind.2 ⟨Method.seq_ok.2 ?_, hC d⟩
  cases ht : w.translog with
  | none => exact ⟨hother hpre, hC d⟩
  | some t =>
    obtain ⟨hattached, hexists⟩ := hlog t ht
    rcases hattached.usable_or_dead with husable | hdead
    · refine Method.wp_bind.2 (Method.wp_owning.2 (Translog.wp_append husable hexists
        (fun _ _ ↦ hC _) ?_ ?_))
      · intro t' ht'
        refine Method.seq_ok.2 (Method.wp_bind.2 ⟨Method.seq_ok.2 ?_, hC _⟩)
        rw [hrej]
        exact ⟨fun _ ↦ ⟨rfl, rfl⟩, hC _⟩
      · intro hf m t' b ht' hb
        exact Method.seq_ok.2 (Method.wp_bind.2 ⟨⟨hother hio, hC _⟩, hC _⟩)
    · refine Method.wp_bind.2 (Method.wp_owning.2
        (Translog.wp_append_refused (hC d) hdead fun m ↦ ?_))
      exact Method.seq_ok.2 (Method.wp_bind.2 ⟨⟨hother hpre, hC d⟩, hC d⟩)

theorem logged_of_rejected {F : Faults} {w w' : IndexWriter} {doc : Document} {rawJson : Bytes}
    {e : Status} {d d' : Disk} (hlog : w.LogReady d)
    (hrej : w.mutableSegment.addDocument doc = .error e)
    (hret : (addDocument doc rawJson w).Returns (files F) d (.error e, w') d') :
    w'.mutableSegment = w.mutableSegment ∧ d' = logged d (record (logRecord doc rawJson)) :=
  (Method.wp_iff.1 (wp_addDocument_rejected (C := fun _ ↦ True) hlog (fun _ ↦ trivial) hrej)).1
    _ _ _ hret rfl

/-- **A rejected document leaves the records that `Replay` returns and the segment as they were
exactly when the log ends in a torn record that takes its record in.** -/
theorem rejected_iff {F : Faults} {es : List WriterEvent} {s : WriterState} {w w' : IndexWriter}
    {doc : Document} {rawJson : Bytes} {e : Status} {d' : Disk}
    (hrun : Run (WriterStep F) .start es s) (hw : s.writer = some w)
    (hrej : w.mutableSegment.addDocument doc = .error e)
    (hret : (addDocument doc rawJson w).Returns (files F) s.disk (.error e, w') d') :
    replayed d' = replayed s.disk ∧ w'.mutableSegment = w.mutableSegment ↔
      TakesIn (s.disk.content kTranslogName) (record (logRecord doc rawJson)) := by
  obtain ⟨hsegment, rfl⟩ := logged_of_rejected (ready_of_run hrun w hw) hrej hret
  rw [replayed_eq, replayed_eq, logged, Disk.content_put, Except.ok.injEq,
    records_append_record_iff]
  exact and_iff_left hsegment

/-- A rejected document can be logged. -/
theorem exists_rejected (F : Faults) {s : WriterState} {w : IndexWriter} {t : Translog}
    {doc : Document} (rawJson : Bytes) {e : Status} (hw : s.writer = some w) (hready : s.Ready)
    (ht : w.translog = some t) (husable : t.Usable)
    (hrej : w.mutableSegment.addDocument doc = .error e) :
    ∃ w' d', (addDocument doc rawJson w).Returns (files F) s.disk (.error e, w') d' := by
  have hwp : (addDocument doc rawJson).wp (files Faults.none) w
      (fun r w' d' ↦ w.Added Faults.none doc rawJson s.disk r w' d') (fun _ ↦ True) s.disk :=
    wp_addDocument (hready w hw) (fun _ _ ↦ trivial) fun _ _ _ ↦ id
  obtain ⟨r, w', d', hret, hadded⟩ := returns_of_wp F hwp
  cases hadded with
  | refused h =>
    obtain ⟨sink, hsink, -, hclosed⟩ := husable
    cases (h t ht sink hsink).symm.trans hclosed
  | notLogged _ _ _ hf => exact hf.elim fun _ h ↦ h.2.elim
  | rejected _ _ h =>
    cases hrej.symm.trans h
    exact ⟨_, _, hret⟩
  | accepted _ _ h => cases hrej.symm.trans h

section Samples

omit [LibcDecimal]

/-- The status of a document without an id. -/
def emptyId : Status := .invalidArgument (str "document _id is empty")

/-- A document without an id, offered to a new index. -/
theorem rejected_sample (F : Faults) :
    ∃ (s : WriterState) (w w' : IndexWriter) (d' : Disk),
      Run (@WriterStep .integral F) .start [.opened (some sampleSchema) true] s ∧
      s.writer = some w ∧
      @MutableSegment.addDocument .integral w.mutableSegment {} = .error emptyId ∧
      s.disk.content kTranslogName = [] ∧
      (@addDocument .integral {} [] w).Returns (files F) s.disk (.error emptyId, w') d' := by
  let _ := LibcDecimal.integral
  obtain ⟨t, ht, hopen⟩ := step_opened F sampleSchema
  have hready := (hopen.move WriterState.ready_start).ready WriterState.ready_start
  have hrej : (fresh sampleSchema t).mutableSegment.addDocument {} = .error emptyId := rfl
  obtain ⟨w', d', hret⟩ := exists_rejected F [] rfl hready rfl ht hrej
  refine ⟨_, _, w', d', .single hopen, rfl, hrej, ?_, hret⟩
  show (touched (noFiles.put kSchemaFilename sampleSchema.toText)).content kTranslogName = []
  rw [touched, Disk.content_put]
  rfl

theorem rejected_iff_sample :
    ∃ (s : WriterState) (w w' : IndexWriter) (d' : Disk),
      Run (@WriterStep .integral Faults.none) .start [.opened (some sampleSchema) true] s ∧
      s.writer = some w ∧
      (replayed d' = replayed s.disk ∧ w'.mutableSegment = w.mutableSegment ↔
        TakesIn (s.disk.content kTranslogName) (record (@logRecord .integral {} []))) := by
  obtain ⟨s, w, w', d', hrun, hw, hrej, -, hret⟩ := rejected_sample Faults.none
  exact ⟨s, w, w', d', hrun, hw, @rejected_iff .integral _ _ _ _ _ _ _ _ _ hrun hw hrej hret⟩

/-- The rejected document is in the log, and `Replay` returns it. -/
theorem not_rejected :
    ¬∀ (F : Faults) (es : List WriterEvent) (s : WriterState) (w w' : IndexWriter)
      (doc : Document) (rawJson : Bytes) (e : Status) (d' : Disk),
      Run (@WriterStep .integral F) .start es s → s.writer = some w →
      @MutableSegment.addDocument .integral w.mutableSegment doc = .error e →
      (@addDocument .integral doc rawJson w).Returns (files F) s.disk (.error e, w') d' →
      replayed d' = replayed s.disk ∧ w'.mutableSegment = w.mutableSegment := by
  intro hall
  let _ := LibcDecimal.integral
  obtain ⟨s, w, w', d', hrun, hw, hrej, hlog, hret⟩ := rejected_sample Faults.none
  obtain ⟨hsame, -⟩ := hall Faults.none _ s w w' {} [] emptyId d' hrun hw hrej hret
  obtain ⟨-, rfl⟩ := logged_of_rejected (ready_of_run hrun w hw) hrej hret
  rw [replayed_eq, replayed_eq, logged, Disk.content_put, Except.ok.injEq,
    records_append_record_iff, hlog] at hsame
  exact not_takesIn rfl hsame

end Samples

end IndexWriter

end Spp.Index
