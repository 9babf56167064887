import SearchPlusPlus.Index.SegmentStem
import SearchPlusPlus.Index.WriterRules
import SearchPlusPlus.Lib.Run

/-!
# Runs of the writer

The index directory and the writer over it, if there is one, with every method as a step: it
returns, under the faults allowed, or a crash stops it and the writer is gone. `Open` itself does
not fail a call here, though it may be cut off. A closed writer refuses everything, so closing
ends it.

`WriterStep.move` says what each step does in terms of the outcomes of the methods.
-/

namespace Spp.Index

open Store

variable [LibcDecimal]

/-- An index directory, and the writer over it. -/
structure WriterState where
  writer : Option IndexWriter
  disk : Disk

/-- What happens to a writer. -/
inductive WriterEvent where
  | opened (initial : Option Schema) (ok : Bool)
  | openCut
  | added (doc : Document) (rawJson : Bytes) (ok : Bool)
  | addCut (doc : Document) (rawJson : Bytes)
  | refreshed (ok : Bool)
  | refreshCut
  | closed
  /-- A crash between two methods. -/
  | crashed

/-- The steps under some faults. -/
inductive WriterStep (F : Faults) : WriterState → WriterEvent → WriterState → Prop
  | opened {s : WriterState} {initial : Option Schema} {r : Expected IndexWriter} {d : Disk}
      (h : s.writer = none)
      (hret : (IndexWriter.open initial ()).Returns (files F.quiet) s.disk (r, ()) d) :
      WriterStep F s (.opened initial r.isOk) ⟨r.toOption, d⟩
  | openCut {s : WriterState} {initial : Option Schema} {d : Disk} (h : s.writer = none)
      (hstop : (IndexWriter.open initial ()).Stops (files F.quiet) s.disk d) :
      WriterStep F s .openCut ⟨none, d⟩
  | added {s : WriterState} {w w' : IndexWriter} {r : Expected Unit} {d : Disk} (doc : Document)
      (rawJson : Bytes) (h : s.writer = some w)
      (hret : (IndexWriter.addDocument doc rawJson w).Returns (files F) s.disk (r, w') d) :
      WriterStep F s (.added doc rawJson r.isOk) ⟨some w', d⟩
  | addCut {s : WriterState} {w : IndexWriter} {d : Disk} (doc : Document) (rawJson : Bytes)
      (h : s.writer = some w)
      (hstop : (IndexWriter.addDocument doc rawJson w).Stops (files F) s.disk d) :
      WriterStep F s (.addCut doc rawJson) ⟨none, d⟩
  | refreshed {s : WriterState} {w w' : IndexWriter} {r : Expected Generation} {d : Disk}
      (h : s.writer = some w)
      (hret : (IndexWriter.refresh w).Returns (files F) s.disk (r, w') d) :
      WriterStep F s (.refreshed r.isOk) ⟨some w', d⟩
  | refreshCut {s : WriterState} {w : IndexWriter} {d : Disk} (h : s.writer = some w)
      (hstop : (IndexWriter.refresh w).Stops (files F) s.disk d) :
      WriterStep F s .refreshCut ⟨none, d⟩
  | closed {s : WriterState} {w w' : IndexWriter} {r : Expected Unit} {d : Disk}
      (h : s.writer = some w) (hret : (IndexWriter.close w).Returns (files F) s.disk (r, w') d) :
      WriterStep F s .closed ⟨none, d⟩
  | crashed {s : WriterState} : WriterStep F s .crashed ⟨none, s.disk⟩

/-- An empty directory without a writer. -/
def WriterState.start : WriterState := ⟨none, IndexWriter.noFiles⟩

/-! ### What the steps do -/

/-- What a crash in `Open` leaves: a part of `schema.json`, or all it does to the disk. -/
def OpenCut (initial : Option Schema) (d d' : Disk) : Prop :=
  d' = d ∨ (∃ schema x, d kSchemaFilename = none ∧ initial = some schema ∧
    x <+: schema.toText ∧ d' = d.put kSchemaFilename x) ∨
      ∃ r d₁, SchemaFound initial d r d₁ ∧ d' = touched d₁

/-- `Open` writes the schema and the log only. -/
theorem OpenCut.agree {initial : Option Schema} {d d' : Disk} (h : OpenCut initial d d') :
    AgreeOff [kSchemaFilename, kTranslogName] d d' := by
  have hput : ∀ x, AgreeOff [kSchemaFilename, kTranslogName] d (d.put kSchemaFilename x) :=
    agreeOff_put (by simp) d
  rcases h with rfl | ⟨_, x, -, -, -, rfl⟩ | ⟨r, d₁, hfound, rfl⟩
  · exact AgreeOff.refl _ _
  · exact hput x
  · have hd₁ : AgreeOff [kSchemaFilename, kTranslogName] d d₁ :=
      hfound.crash (AgreeOff.refl _ _) fun _ x _ _ _ ↦ hput x
    exact hd₁.trans (agreeOff_put (by simp) d₁ _)

/-- The steps, by the outcomes of the methods. -/
inductive WriterMove (F : Faults) (s : WriterState) : WriterEvent → WriterState → Prop
  | opened {initial : Option Schema} {schema : Schema} {d₁ : Disk} {t : Translog}
      {w : IndexWriter} (h : s.writer = none) (hfound : SchemaFound initial s.disk (.ok schema) d₁)
      (ht : t.Usable) (hw : IndexWriter.ofDisk d₁ schema t = .ok w) :
      WriterMove F s (.opened initial true) ⟨some w, touched d₁⟩
  | notOpened {initial : Option Schema} {d : Disk} (h : s.writer = none)
      (hcut : OpenCut initial s.disk d) : WriterMove F s (.opened initial false) ⟨none, d⟩
  | openCut {initial : Option Schema} {d : Disk} (h : s.writer = none)
      (hcut : OpenCut initial s.disk d) : WriterMove F s .openCut ⟨none, d⟩
  | added {w w' : IndexWriter} {r : Expected Unit} {d : Disk} {doc : Document} {rawJson : Bytes}
      (h : s.writer = some w) (hadd : w.Added F doc rawJson s.disk r w' d) :
      WriterMove F s (.added doc rawJson r.isOk) ⟨some w', d⟩
  | addCut {w : IndexWriter} {d : Disk} {doc : Document} {rawJson : Bytes}
      (h : s.writer = some w) (hcut : IndexWriter.AddCut F doc rawJson s.disk d) :
      WriterMove F s (.addCut doc rawJson) ⟨none, d⟩
  | refreshed {w w' : IndexWriter} {r : Expected Generation} {d : Disk} (h : s.writer = some w)
      (href : w.Refreshed F s.disk r w' d) : WriterMove F s (.refreshed r.isOk) ⟨some w', d⟩
  | refreshCut {w : IndexWriter} {d : Disk} (h : s.writer = some w)
      (hcut : w.RefreshCut F s.disk d) : WriterMove F s .refreshCut ⟨none, d⟩
  | closed {w : IndexWriter} (h : s.writer = some w) : WriterMove F s .closed ⟨none, s.disk⟩
  | crashed : WriterMove F s .crashed ⟨none, s.disk⟩

/-- The log of the writer is attached to an existing file. -/
def WriterState.Ready (s : WriterState) : Prop := ∀ w, s.writer = some w → w.LogReady s.disk

section Moves

variable {F : Faults} {s s' : WriterState} {e : WriterEvent}

theorem open_cases (initial : Option Schema) (d : Disk) :
    (IndexWriter.open initial).wp (files F.quiet) ()
      (fun r _ d' ↦ (∃ w schema d₁ t, r = .ok w ∧ SchemaFound initial d (.ok schema) d₁ ∧
        Translog.Usable t ∧ IndexWriter.ofDisk d₁ schema t = .ok w ∧ d' = touched d₁) ∨
          ∃ e, r = .error e ∧ OpenCut initial d d')
      (OpenCut initial d) d := by
  refine IndexWriter.wp_open F.quiet_quiet (Or.inl rfl) ?_ ?_ ?_ ?_
  · exact fun schema x h hgiven hx ↦ Or.inr (Or.inl ⟨schema, x, h, hgiven, hx, rfl⟩)
  · exact fun r d₁ hfound ↦ Or.inr (Or.inr ⟨r, d₁, hfound, rfl⟩)
  · exact fun schema d₁ t w hfound ht hw ↦ Or.inl ⟨w, schema, d₁, t, rfl, hfound, ht, hw, rfl⟩
  · exact fun _ e d' hd' ↦ Or.inr ⟨e, rfl, hd'⟩

/-- **Every step is a move.** -/
theorem WriterStep.move (hstep : WriterStep F s e s') (hready : s.Ready) : WriterMove F s e s' := by
  cases hstep with
  | @opened initial r d h hret =>
    rcases (Method.wp_iff.1 (open_cases initial s.disk)).1 _ _ _ hret with
      ⟨w, schema, d₁, t, rfl, hfound, ht, hw, rfl⟩ | ⟨e, rfl, hcut⟩
    · exact .opened h hfound ht hw
    · exact .notOpened h hcut
  | @openCut initial d h hstop =>
    exact .openCut h ((Method.wp_iff.1 (open_cases initial s.disk)).2 _ hstop)
  | @added w w' r d doc rawJson h hret =>
    have hwp : (IndexWriter.addDocument doc rawJson).wp (files F) w
        (fun r w' d' ↦ w.Added F doc rawJson s.disk r w' d') (fun _ ↦ True) s.disk :=
      IndexWriter.wp_addDocument (hready w h) (fun _ _ ↦ trivial) fun _ _ _ ↦ id
    exact .added h ((Method.wp_iff.1 hwp).1 _ _ _ hret)
  | @addCut w d doc rawJson h hstop =>
    have hwp : (IndexWriter.addDocument doc rawJson).wp (files F) w
        (fun _ _ _ ↦ True) (IndexWriter.AddCut F doc rawJson s.disk) s.disk :=
      IndexWriter.wp_addDocument (hready w h) (fun _ ↦ id) fun _ _ _ _ ↦ trivial
    exact .addCut h ((Method.wp_iff.1 hwp).2 _ hstop)
  | @refreshed w w' r d h hret =>
    have hwp : IndexWriter.refresh.wp (files F) w
        (fun r w' d' ↦ w.Refreshed F s.disk r w' d') (fun _ ↦ True) s.disk :=
      IndexWriter.wp_refresh (fun t ht ↦ (hready w h t ht).1) (fun _ _ ↦ trivial) fun _ _ _ ↦ id
    exact .refreshed h ((Method.wp_iff.1 hwp).1 _ _ _ hret)
  | @refreshCut w d h hstop =>
    have hwp : IndexWriter.refresh.wp (files F) w (fun _ _ _ ↦ True) (w.RefreshCut F s.disk)
        s.disk :=
      IndexWriter.wp_refresh (fun t ht ↦ (hready w h t ht).1) (fun _ ↦ id) fun _ _ _ _ ↦ trivial
    exact .refreshCut h ((Method.wp_iff.1 hwp).2 _ hstop)
  | @closed w w' r d h hret =>
    have hwp : IndexWriter.close.wp (files F) w (fun _ _ d' ↦ d' = s.disk) (fun _ ↦ True) s.disk :=
      IndexWriter.wp_close trivial fun _ _ ↦ rfl
    obtain rfl := (Method.wp_iff.1 hwp).1 _ _ _ hret
    exact .closed h
  | crashed => exact .crashed

omit [LibcDecimal] in
theorem hasLog_put (d : Disk) (b : Bytes) : d.put kTranslogName b kTranslogName =
    some ((d.put kTranslogName b).content kTranslogName) := by
  rw [Disk.put_self, Disk.content_put]

omit [LibcDecimal] in
/-- `Open` leaves a log that can be appended to. -/
theorem Translog.Usable.ready {t : Translog} (ht : t.Usable) {w : IndexWriter}
    (hw : w.translog = some t) (d : Disk) : WriterState.Ready ⟨some w, touched d⟩ := by
  rintro _ ⟨⟩ t' ht'
  obtain rfl := Option.some.inj (hw.symm.trans ht')
  exact ⟨ht.attached, hasLog_put ..⟩

/-- The log stays attached. -/
theorem WriterMove.ready (h : WriterMove F s e s') (hready : s.Ready) : s'.Ready := by
  cases h with
  | opened h hfound ht hw =>
    rintro w ⟨⟩ t' ht'
    obtain ⟨w₁, hw₁, h⟩ := bind_eq_ok.1 hw
    obtain ⟨seg, -, h⟩ := bind_eq_ok.1 h
    obtain ⟨manifest, -, hw₁⟩ := bind_eq_ok.1 hw₁
    obtain ⟨segs, -, hw₁⟩ := bind_eq_ok.1 hw₁
    cases hw₁
    cases h
    cases ht'
    exact ⟨ht.attached, hasLog_put ..⟩
  | added h hadd =>
    rintro w' ⟨⟩ t' ht'
    cases hadd with
    | refused => exact hready _ h t' ht'
    | notLogged _ ht | rejected _ ht | accepted _ ht =>
      cases ht'
      exact ⟨ht.attached, hasLog_put ..⟩
  | @refreshed w w' r d h href =>
    rintro w'' ⟨⟩ t' ht'
    have hlog : ∀ t, w.translog = some t → d kTranslogName = some (d.content kTranslogName) := by
      intro t ht
      rcases href.cut.leaves.log with hd | hd
      · rw [Disk.content, hd]
        exact (hready w h t ht).2
      · rw [Disk.content, hd]
        rfl
    have hopen : ∃ t, w.translog = some t ∧ (t'.Attached ∨ t' = t) := by
      cases href with
      | refused h => cases h.symm.trans ht'
      | idle | sealFailed | saveFailed | syncFailed => exact ⟨t', ht', Or.inr rfl⟩
      | truncateFailed hopen _ _ _ ht =>
        obtain ⟨t, h⟩ := Option.ne_none_iff_exists'.1 hopen
        cases ht'
        exact ⟨t, h, Or.inl ht⟩
      | done hopen _ _ _ ht =>
        obtain ⟨t, h⟩ := Option.ne_none_iff_exists'.1 hopen
        cases ht'
        exact ⟨t, h, Or.inl ht.attached⟩
    obtain ⟨t, ht, hattached | rfl⟩ := hopen
    · exact ⟨hattached, hlog t ht⟩
    · exact ⟨(hready w h _ ht).1, hlog _ ht⟩
  | notOpened | openCut | addCut | refreshCut | closed | crashed => rintro _ ⟨⟩

omit [LibcDecimal] in
theorem WriterState.ready_start : WriterState.start.Ready := by
  rintro _ ⟨⟩

/-- **Every run is a run of moves**, whatever else its steps are known to satisfy. -/
theorem writerRun_moves {safe : WriterState → WriterEvent → Prop} {es : List WriterEvent}
    (h : Run (fun s e s' ↦ WriterStep F s e s' ∧ safe s e) .start es s) :
    Run (fun s e s' ↦ WriterMove F s e s' ∧ safe s e) .start es s ∧ s.Ready := by
  induction h with
  | start => exact ⟨.start, WriterState.ready_start⟩
  | step _ hstep ih =>
    have hmove := hstep.1.move ih.2
    exact ⟨ih.1.step ⟨hmove, hstep.2⟩, hmove.ready ih.2⟩

theorem ready_of_run {es : List WriterEvent} (h : Run (WriterStep F) .start es s) : s.Ready :=
  h.invariant WriterState.ready_start fun _ _ _ hready hstep ↦ (hstep.move hready).ready hready

end Moves

/-! ### Steps that succeed -/

section Steps

variable {F : Faults} {s : WriterState} {w : IndexWriter}

/-- An index can be created. -/
theorem step_opened (F : Faults) (schema : Schema) :
    ∃ t, Translog.Usable t ∧ WriterStep F .start (.opened (some schema) true)
      ⟨some (IndexWriter.fresh schema t),
        touched (IndexWriter.noFiles.put kSchemaFilename schema.toText)⟩ := by
  obtain ⟨t, hopen, ht, hdisk⟩ := IndexWriter.opened_ok IndexWriter.unused_noFiles
    (SchemaFound.written (d := IndexWriter.noFiles) rfl (rfl : some schema = some schema))
  have hret := returns_run F.quiet (IndexWriter.open (some schema) ()) IndexWriter.noFiles
  have hrun : run (IndexWriter.open (some schema) ()) IndexWriter.noFiles =
      ((.ok (IndexWriter.fresh schema t), ()),
        touched (IndexWriter.noFiles.put kSchemaFilename schema.toText)) :=
    Prod.ext (Prod.ext hopen rfl) hdisk
  rw [hrun] at hret
  exact ⟨t, ht, .opened (r := .ok (IndexWriter.fresh schema t)) rfl hret⟩

/-- An index whose files make a writer can be opened. -/
theorem step_reopened (F : Faults) {initial : Option Schema} {schema : Schema} {d₁ : Disk}
    (hnone : s.writer = none) (hfound : SchemaFound initial s.disk (.ok schema) d₁)
    (hof : ∀ t, ∃ w, IndexWriter.ofDisk d₁ schema t = .ok w) :
    ∃ t w, Translog.Usable t ∧ IndexWriter.ofDisk d₁ schema t = .ok w ∧
      WriterStep F s (.opened initial true) ⟨some w, touched d₁⟩ := by
  have hwp : (IndexWriter.open initial).wp (files Faults.none) ()
      (fun r _ d' ↦ ∃ t w, Translog.Usable t ∧ IndexWriter.ofDisk d₁ schema t = .ok w ∧
        r = .ok w ∧ d' = touched d₁) (fun _ ↦ True) s.disk := by
    refine IndexWriter.wp_open (fun _ h ↦ h) trivial (fun _ _ _ _ _ ↦ trivial)
      (fun _ _ _ ↦ trivial) ?_ ?_
    · intro schema' d₁' t w hfound' ht hw
      obtain ⟨hschema, rfl⟩ := hfound.unique hfound'
      cases hschema
      exact ⟨t, w, ht, hw, rfl, rfl⟩
    · intro h
      obtain ⟨w, hw⟩ := hof ⟨none, 0⟩
      exact absurd hw (h schema d₁ _ w hfound)
  obtain ⟨r, u, d', hret, t, w, ht, hw, rfl, rfl⟩ := returns_of_wp F.quiet hwp
  exact ⟨t, w, ht, hw, .opened (r := .ok w) hnone hret⟩

/-- A document that the segment accepts can be added. -/
theorem step_added (F : Faults) {t : Translog} (hw : s.writer = some w) (hready : s.Ready)
    (ht : w.translog = some t) (husable : t.Usable) {doc : Document} {rawJson : Bytes}
    {seg : MutableSegment} {n : ℕ} (hadd : w.mutableSegment.addDocument doc = .ok (seg, n)) :
    ∃ t', Translog.Usable t' ∧ WriterStep F s (.added doc rawJson true)
      ⟨some { w with translog := some t', mutableSegment := seg },
        IndexWriter.logged s.disk (record (logRecord doc rawJson))⟩ := by
  have hwp : (IndexWriter.addDocument doc rawJson).wp (files Faults.none) w
      (fun r w' d' ↦ w.Added Faults.none doc rawJson s.disk r w' d') (fun _ ↦ True) s.disk :=
    IndexWriter.wp_addDocument (hready w hw) (fun _ _ ↦ trivial) fun _ _ _ ↦ id
  obtain ⟨r, w', d', hret, hadded⟩ := returns_of_wp F hwp
  cases hadded with
  | refused h =>
    obtain ⟨sink, hsink, -, hclosed⟩ := husable
    cases (h t ht sink hsink).symm.trans hclosed
  | notLogged _ _ _ hf => exact hf.elim fun _ h ↦ h.2.elim
  | rejected _ _ h => cases hadd.symm.trans h
  | accepted _ ht' h =>
    cases hadd.symm.trans h
    exact ⟨_, ht', .added doc rawJson hw hret⟩

/-- Pending documents can be refreshed, if a reader opens the segment they make. -/
theorem step_refreshed (F : Faults) (hw : s.writer = some w) (hready : s.Ready)
    (hopen : w.translog ≠ none) (hpending : w.mutableSegment.docCount ≠ 0)
    (hopens : ∀ d, AgreeOff (w.nextFiles.map Prod.fst) s.disk d → Holds w.nextFiles d →
      ∃ r, SegmentReader.openDisk d w.nextStem = .ok r) :
    ∃ r t d₁ d₂, w.Sealed Faults.none s.disk d₁ r ∧ Published (w.nextManifest r) d₁ d₂ ∧
      Translog.Usable t ∧ WriterStep F s (.refreshed true)
        ⟨some (w.committed r t).published, d₂.put kTranslogName []⟩ := by
  have hwp : IndexWriter.refresh.wp (files Faults.none) w
      (fun r w' d' ↦ w.Refreshed Faults.none s.disk r w' d') (fun _ ↦ True) s.disk :=
    IndexWriter.wp_refresh (fun t ht ↦ (hready w hw t ht).1) (fun _ _ ↦ trivial) fun _ _ _ ↦ id
  obtain ⟨res, w', d', hret, href⟩ := returns_of_wp F hwp
  cases href with
  | refused h => exact absurd h hopen
  | idle _ h => exact absurd h hpending
  | sealFailed _ _ _ hf =>
    rcases hf with ⟨_, _, hf⟩ | ⟨_, _, hf⟩ | ⟨d₁, e, hoff, hholds, herror⟩
    · exact hf.elim
    · exact hf.elim
    · obtain ⟨r, hr⟩ := hopens d₁ hoff hholds
      cases hr.symm.trans herror
  | saveFailed _ _ _ _ hf => exact hf.elim fun _ h ↦ h.2.elim
  | syncFailed _ _ _ _ hf => exact hf.elim
  | truncateFailed _ _ _ _ _ _ hf => exact hf.elim fun _ h ↦ h.2.elim
  | @done r t d₁ d₂ _ _ hs hp ht => exact ⟨r, t, d₁, d₂, hs, hp, ht, .refreshed hw hret⟩

end Steps

section Samples

omit [LibcDecimal]

theorem readBack_sampleSchema : @Schema.readBack .integral sampleSchema = sampleSchema := by
  have hfields : (@Schema.readBack .integral sampleSchema).fields = sampleSchema.fields := by
    decide +kernel
  exact Schema.eq_of_fields hfields rfl

/-- The schema is found in its file. -/
theorem schemaFound_sample (initial : Option Schema) {d : Disk}
    (h : d kSchemaFilename = some (@Schema.toText .integral sampleSchema)) :
    @SchemaFound .integral initial d (.ok sampleSchema) d := by
  let _ := LibcDecimal.integral
  have hload : SchemaFound initial d (Schema.ofText sampleSchema.toText) d := .loaded h
  rwa [Schema.ofText_toText IndexWriter.exact_sampleSchema, if_pos (by decide),
    readBack_sampleSchema] at hload

/-- The segment of `sampleDoc`. -/
def sampleSegment : MutableSegment :=
  @MutableSegment.addDocuments .integral (.new sampleSchema) [sampleDoc]

theorem addDocument_sample : @MutableSegment.addDocument .integral (.new sampleSchema) sampleDoc =
    .ok (sampleSegment, 0) := rfl

theorem sampleSegment_ne_zero : sampleSegment.docCount ≠ 0 := by decide +kernel

theorem encodable_sampleSegment : sampleSegment.Encodable :=
  MutableSegment.encodable_of_fieldBytes (by decide) (by decide +kernel) (by decide +kernel)
    (by decide +kernel) (by decide +kernel)

/-- The files of `sampleSegment` can be opened. -/
theorem openDisk_sampleSegment {stem : Bytes} {d : Disk}
    (h : Holds ((sealBuffers sampleSegment stem).2.toList stem) d) :
    ∃ r, SegmentReader.openDisk d stem = .ok r ∧ Agrees r sampleSegment := by
  have hwf : sampleSegment.WellFormed := by
    rw [sampleSegment, @MutableSegment.addDocuments_new .integral]
    exact @MutableSegment.build_wellFormed .integral _ _ (MutableSegment.acceptedDocs_length_le _)
  exact openDisk_agrees hwf encodable_sampleSegment h fun h ↦ absurd h (by decide)

theorem sampleSegment_opens {stem : Bytes} {d : Disk}
    (h : Holds ((sealBuffers sampleSegment stem).2.toList stem) d) :
    ∃ r, SegmentReader.openDisk d stem = .ok r := by
  obtain ⟨r, hr, -⟩ := openDisk_sampleSegment h
  exact ⟨r, hr⟩

/-- A new index with `sampleDoc` pending. -/
def sampleWriter (t : Translog) : IndexWriter :=
  { IndexWriter.fresh sampleSchema t with mutableSegment := sampleSegment }

/-- Its files. -/
def sampleDisk : Disk :=
  IndexWriter.logged
    (touched (IndexWriter.noFiles.put kSchemaFilename (@Schema.toText .integral sampleSchema)))
    (record (@logRecord .integral sampleDoc []))

theorem steps_sample (F : Faults) :
    ∃ t t₁ d₁, t.Usable ∧
      @WriterStep .integral F .start (.opened (some sampleSchema) true)
        ⟨some (IndexWriter.fresh sampleSchema t₁), d₁⟩ ∧
      @WriterStep .integral F ⟨some (IndexWriter.fresh sampleSchema t₁), d₁⟩
        (.added sampleDoc [] true) ⟨some (sampleWriter t), sampleDisk⟩ := by
  let _ := LibcDecimal.integral
  obtain ⟨t₁, ht₁, hopen⟩ := step_opened F sampleSchema
  have hready := (hopen.move WriterState.ready_start).ready WriterState.ready_start
  obtain ⟨t, ht, hadd⟩ := step_added F rfl hready rfl ht₁ addDocument_sample
  exact ⟨t, t₁, _, ht, hopen, hadd⟩

end Samples

end Spp.Index
