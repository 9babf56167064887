import SearchPlusPlus.Index.Durability

/-!
# A Refresh that fails

A `Refresh` that fails may be called again: when one succeeds, readers see the documents that were
sealed or pending before, once each (`published_of_retried`). This does not hold when `SaveManifest`
failed: the segment stays in `sealed_segments_` and its documents stay pending, and the next call
seals them again (`not_published_of_retried`).
-/

namespace Spp.Index

open Json Store

variable [LibcDecimal]

/-! ### Calling it again -/

/-- In this call `SealCurrentSegment` fails. -/
def SealFails (F : Faults) (s s' : WriterState) : Prop :=
  ∃ w w' d, s.writer = some w ∧ s' = ⟨some w', d⟩ ∧
    ∃ e, (IndexWriter.sealCurrentSegment w).Returns (files F) s.disk (.error e, w') d

/-- The steps of an index, where calls fail as they like, as long as sizes fit and a `Refresh` that
fails does so in sealing or opening its segment or in truncating the log. -/
def RefreshStep (s : WriterState) (e : WriterEvent) (s' : WriterState) : Prop :=
  ∃ F, WriterStep F s e s' ∧ StepFits s e ∧
    (e = .refreshed false → SavesManifest F ∨ SealFails F s s')

section Retries

variable {F : Faults} {s s' : WriterState} {e : WriterEvent} {es : List WriterEvent}
  {L L' : Ledger} {loose : Prop}

omit [LibcDecimal] in
/-- `SealCurrentSegment` leaves the sealed segments alone. -/
theorem SealFails.saves (h : SealFails F s s') : Saves s s' := by
  obtain ⟨w, w', d, hw, rfl, e, hret⟩ := h
  have hwp : IndexWriter.sealCurrentSegment.wp (files F) w
      (fun _ w' _ ↦ w'.sealedSegments = w.sealedSegments) (fun _ ↦ True) s.disk := by
    by_cases hidle : w.mutableSegment.docCount = 0
    · refine Method.wp_bind.2 ⟨Method.seq_ok.2 ?_, trivial⟩
      rw [if_pos hidle]
      exact ⟨rfl, trivial⟩
    · exact IndexWriter.wp_sealCurrentSegment hidle (fun _ _ ↦ trivial) (fun _ _ _ ↦ rfl)
        fun _ _ _ _ ↦ rfl
  have hsame := (Method.wp_iff.1 hwp).1 _ _ _ hret
  rintro w₁ w₂ hw₁ ⟨⟩ hlen
  obtain rfl := Option.some.inj (hw.symm.trans hw₁)
  exact absurd (congrArg List.length hsame) hlen

/-- What is no failed `Refresh` adds a segment only with a generation. -/
theorem WriterMove.saves (hmove : WriterMove F s e s') (he : e ≠ .refreshed false) :
    Saves s s' := by
  intro w w' hw hw' hlen
  cases hmove with
  | opened hnone => cases hnone.symm.trans hw
  | notOpened | openCut | addCut | refreshCut | closed | crashed => cases hw'
  | added hw₁ hadd =>
    obtain rfl := Option.some.inj (hw₁.symm.trans hw)
    obtain rfl := Option.some.inj hw'
    cases hadd <;> exact absurd rfl hlen
  | @refreshed w₁ w₂ _ _ hw₁ href =>
    obtain rfl := Option.some.inj (hw₁.symm.trans hw)
    obtain rfl := Option.some.inj hw'
    cases href with
    | refused | sealFailed | saveFailed | syncFailed | truncateFailed => exact absurd rfl he
    | idle => exact absurd rfl hlen
    | done =>
      have hne : w₁.currentGen + 1 ≠ w₁.currentGen := by simp
      exact hne

/-- Such a step is one of the ledger. -/
theorem RefreshStep.ledgerSafe (h : RefreshStep s e s') (hready : s.Ready) :
    ∃ F, LedgerSafe True F s e s' := by
  obtain ⟨F, hstep, hfits, hsaves⟩ := h
  refine ⟨F, hstep, hfits, ?_, Or.inl trivial⟩
  by_cases he : e = .refreshed false
  · exact (hsaves he).imp_right SealFails.saves
  · exact Or.inr ((hstep.move hready).saves he)

/-- Calling `Refresh` moves documents to the shelves, or leaves them pending. -/
theorem LedgerStep.refreshed {ok : Bool} {docs : List Document}
    (hstep : LedgerStep loose L (.refreshed ok) L') (hdocs : L.pending = some docs) :
    ∃ docs', L'.pending = some docs' ∧
      L'.shelves.flatten ++ docs' = L.shelves.flatten ++ docs ∧ (ok = true → docs' = []) := by
  have hshelved : ∀ {docs'}, L.pending = some docs' →
      (L.shelves ++ [docs']).flatten ++ [] = L.shelves.flatten ++ docs := by
    intro docs' hdocs'
    obtain rfl := Option.some.inj (hdocs.symm.trans hdocs')
    rw [List.flatten_append, List.flatten_singleton, List.append_nil]
  cases hstep with
  | notSealed => exact ⟨docs, hdocs, rfl, by rintro ⟨⟩⟩
  | idle hnil =>
    obtain rfl := Option.some.inj (hnil.symm.trans hdocs)
    exact ⟨[], hdocs, rfl, fun _ ↦ rfl⟩
  | shelved hdocs' | notTruncated _ hdocs' => exact ⟨[], rfl, hshelved hdocs', fun _ ↦ rfl⟩

/-- Any number of calls moves documents to the shelves, or leaves them pending. -/
theorem refreshed_of_run {docs : List Document} {P : Ledger → WriterEvent → Ledger → Prop}
    (h : Run (fun L e L' ↦ LedgerStep loose L e L' ∧ P L e L') L es L')
    (hes : ∀ e ∈ es, ∃ ok, e = .refreshed ok) (hdocs : L.pending = some docs) :
    ∃ docs', L'.pending = some docs' ∧
      L'.shelves.flatten ++ docs' = L.shelves.flatten ++ docs := by
  induction h with
  | start => exact ⟨docs, hdocs, rfl⟩
  | @step es L₁ e L₂ _ hstep ih =>
    obtain ⟨docs₁, hdocs₁, hsame⟩ := ih fun e he ↦ hes e (List.mem_append_left _ he)
    obtain ⟨ok, rfl⟩ := hes e (List.mem_append_right _ (List.mem_singleton_self _))
    obtain ⟨docs₂, hdocs₂, hsame₂, -⟩ := hstep.1.refreshed hdocs₁
    exact ⟨docs₂, hdocs₂, hsame₂.trans hsame⟩

/-- A `Refresh` that succeeds publishes the sealed segments. -/
theorem WriterMove.published {w' : IndexWriter} (hmove : WriterMove F s (.refreshed true) s')
    (hw' : s'.writer = some w') : w'.publishedReader.segments = w'.sealedSegments := by
  generalize hok : true = ok at hmove
  cases hmove with
  | refreshed hw href =>
    obtain rfl := Option.some.inj hw'
    cases href with
    | idle | done => rfl
    | refused | sealFailed | saveFailed | syncFailed | truncateFailed => cases hok

end Retries

/-- **A `Refresh` that is called until it succeeds** publishes what was sealed and what was pending,
once each, and the manifest lists what is published. -/
theorem published_of_retried {es fails : List WriterEvent} {s s' : WriterState}
    {w w' : IndexWriter} (h : Run RefreshStep .start es s) (hw : s.writer = some w)
    (hfails : ∀ e ∈ fails, e = .refreshed false)
    (hretry : Run RefreshStep s (fails ++ [.refreshed true]) s') (hw' : s'.writer = some w') :
    w'.publishedReader.ids = w.sealedSegments.flatMap (·.ids) ++ w.mutableSegment.docIds ∧
      Manifest.ofDisk s'.disk = .ok (manifestOf w'.currentGen w'.publishedReader.segments) := by
  obtain ⟨L, -, hkept, hready⟩ := exists_ledger True RefreshStep (fun _ _ _ ↦ True)
    (fun _ _ _ hready h ↦ h.ledgerSafe hready) (fun _ _ _ _ _ _ _ _ ↦ trivial) (kept_start True)
    WriterState.ready_start h
  obtain ⟨s₁, hfailed, hlast⟩ := hretry.exists_last
  obtain ⟨L₁, hrun₁, hkept₁, hready₁⟩ := exists_ledger True RefreshStep (fun _ _ _ ↦ True)
    (fun _ _ _ hready h ↦ h.ledgerSafe hready) (fun _ _ _ _ _ _ _ _ ↦ trivial) hkept hready hfailed
  -- The documents are still where they were, or on a shelf.
  obtain ⟨docs, hdocs, hkeeps⟩ := hkept.writer w hw
  obtain ⟨docs₁, hdocs₁, hsame₁⟩ := refreshed_of_run hrun₁ (fun e he ↦ ⟨false, hfails e he⟩) hdocs
  -- The last call puts them all there.
  obtain ⟨F, hsafe⟩ := hlast.ledgerSafe hready₁
  have hmove := hsafe.step.move hready₁
  obtain ⟨L', hledger, hkept'⟩ := hmove.ledger hkept₁ hsafe.fits hsafe.saves hsafe.log
  obtain ⟨docs', -, hsame', hnil⟩ := hledger.refreshed hdocs₁
  obtain rfl := hnil rfl
  obtain ⟨_, -, hkeeps'⟩ := hkept'.writer w' hw'
  have hpublished := hmove.published hw'
  have hall : L'.shelves.flatten = L.shelves.flatten ++ docs := by
    rw [← hsame₁, ← hsame', List.append_nil]
  constructor
  · rw [IndexReader.ids, hpublished, flatMap_ids hkeeps'.segments, flatMap_ids hkeeps.segments,
      hall, List.map_append, hkeeps.pending]
    rfl
  · rw [hpublished]
    exact hkeeps'.manifest

/-! ### Failures -/

/-- The log cannot be closed. -/
def closeFault : Faults := ⟨fun op ↦ op = .act (.fclose kTranslogName), False⟩

section Failing

variable {w : IndexWriter} {t : Translog} {d : Disk}

theorem savesManifest_closeFault : SavesManifest closeFault := by
  refine ⟨fun m a ha hf ↦ ?_, fun hf ↦ ?_⟩
  · obtain rfl : a = .fclose kTranslogName := FileOp.act.inj hf
    have hname : kManifestTmpName ≠ kTranslogName := by decide
    simp [publishActions, writeFileActions, hname.symm] at ha
  · cases hf

omit [LibcDecimal] in
/-- `Truncate` may fail. -/
theorem returns_truncate_closing (husable : t.Usable) : ∃ e t', (Translog.truncate t).Returns
    (files closeFault) d (.error e, t') d := by
  obtain ⟨⟨path, n, closed⟩, hsink, rfl, rfl⟩ := husable
  obtain ⟨sink, bytes⟩ := t
  obtain rfl : sink = _ := hsink
  refine ⟨.ioError [], ⟨some ⟨kTranslogName, n, true⟩, bytes⟩, ?_⟩
  exact ⟨.ok (), d, Or.inl rfl, .error (.ioError []), d, Or.inr ⟨rfl, ⟨_, rfl⟩, rfl⟩, rfl, rfl⟩

/-- A `Refresh` that fails in truncating the log: the segment is sealed. -/
theorem returns_refresh_closing (ht : w.translog = some t) (husable : t.Usable)
    (hpending : w.mutableSegment.docCount ≠ 0)
    (hopens : ∀ d₁, Holds w.nextFiles d₁ → ∃ r, SegmentReader.openDisk d₁ w.nextStem = .ok r) :
    ∃ r e t' d₁ d₂, (IndexWriter.refresh w).Returns (files closeFault) d
      (.error e, w.committed r t') d₂ ∧ w.Sealed Faults.none d d₁ r := by
  obtain ⟨r, d₁, hseal, hs⟩ := returns_sealCurrentSegment (d := d) closeFault hpending hopens
  obtain ⟨d₂, hsave, -⟩ :=
    returns_saveManifest (d := d₁) closeFault (w.withSealed r) (w.nextManifest r)
  obtain ⟨e, t', htruncate⟩ := returns_truncate_closing (d := d₂) husable
  refine ⟨r, e, t', d₁, d₂, Method.returns_ok ⟨rfl, rfl⟩ ?_, hs⟩
  rw [ht]
  refine Method.returns_ok hseal (Method.returns_ok ⟨rfl, rfl⟩ (Method.returns_ok ⟨rfl, rfl⟩ ?_))
  refine Method.returns_ok hsave ?_
  refine Method.returns_ok (Prog.returns_bind.2 ⟨_, _, htruncate, rfl, rfl⟩) ?_
  exact ⟨rfl, rfl⟩

/-- With nothing pending a `Refresh` publishes what is sealed. -/
theorem returns_refresh_idle (F : Faults) (ht : w.translog = some t)
    (hidle : w.mutableSegment.docCount = 0) :
    (IndexWriter.refresh w).Returns (files F) d (.ok w.currentGen, w.published) d := by
  have hseal : (IndexWriter.sealCurrentSegment w).Returns (files F) d (.ok none, w) d := by
    refine Method.returns_ok ⟨rfl, rfl⟩ ?_
    rw [if_pos hidle]
    exact ⟨rfl, rfl⟩
  refine Method.returns_ok ⟨rfl, rfl⟩ ?_
  rw [ht]
  exact Method.returns_ok hseal ⟨rfl, rfl⟩

end Failing

section Samples

omit [LibcDecimal]

/-- A document, a `Refresh` that cannot write its segment, one that cannot close the log, and one
that succeeds. -/
theorem published_of_retried_sample :
    ∃ (t : Translog) (w' : IndexWriter) (d : Disk),
      Run (@RefreshStep .integral) .start
        [.opened (some sampleSchema) true, .added sampleDoc [] true]
        ⟨some (sampleWriter t), sampleDisk⟩ ∧
      Run (@RefreshStep .integral) ⟨some (sampleWriter t), sampleDisk⟩
        ([.refreshed false, .refreshed false] ++ [.refreshed true]) ⟨some w', d⟩ ∧
      @IndexReader.ids .integral w'.publishedReader = [] ++ [sampleDoc.id] ∧
      @Manifest.ofDisk .integral d =
        .ok (manifestOf w'.currentGen w'.publishedReader.segments) := by
  let _ := LibcDecimal.integral
  obtain ⟨t, ht, hrun⟩ := durable_sample Faults.none
  have hstart : Run RefreshStep .start [.opened (some sampleSchema) true, .added sampleDoc [] true]
      ⟨some (sampleWriter t), sampleDisk⟩ := hrun.mono fun s e s' h ↦
    ⟨Faults.none.quiet, h.1.step, h.1.fits, fun _ ↦ Or.inl (savesManifest_quiet Faults.none)⟩
  -- No file can be written.
  obtain ⟨e₁, hseal⟩ := returns_sealCurrentSegment_refused (w := sampleWriter t) (d := sampleDisk)
    sampleSegment_ne_zero
  obtain ⟨e₂, hret⟩ := returns_refresh_refused (w := sampleWriter t) (d := sampleDisk) rfl
    sampleSegment_ne_zero
  have hfits : ∀ {id : UInt32} (d : Disk) (e : WriterEvent), id.toNat + 1 < 2 ^ 32 →
      StepFits ⟨some { sampleWriter t with nextSegmentId := id }, d⟩ e := by
    refine fun d e hid ↦ ⟨?_, ?_⟩
    · rintro _ ⟨⟩ -
      exact ⟨fun _ ↦ (by decide : (0 : UInt64).toNat + 1 < 2 ^ 64), fun _ ↦ hid⟩
    · rintro _ ⟨⟩ -
      exact storable_sampleSegment
  have hfirst : RefreshStep ⟨some (sampleWriter t), sampleDisk⟩ (.refreshed false)
      ⟨some (sampleWriter t).counted, sampleDisk⟩ :=
    ⟨anyFault, .refreshed (r := .error e₂) rfl hret,
      hfits _ _ (by decide : (0 : UInt32).toNat + 1 < _),
      fun _ ↦ Or.inr ⟨_, _, _, rfl, rfl, e₁, hseal⟩⟩
  -- The segment is sealed and listed, and the log cannot be closed.
  obtain ⟨r, e₃, t', d₁, d₂, hret', -⟩ := returns_refresh_closing (w := (sampleWriter t).counted)
    (d := sampleDisk) rfl ht sampleSegment_ne_zero fun _ hd ↦ sampleSegment_opens hd
  have hsecond : RefreshStep ⟨some (sampleWriter t).counted, sampleDisk⟩ (.refreshed false)
      ⟨some ((sampleWriter t).counted.committed r t'), d₂⟩ :=
    ⟨closeFault, .refreshed (r := .error e₃) rfl hret',
      hfits _ _ (by decide : (1 : UInt32).toNat + 1 < _), fun _ ↦ Or.inl savesManifest_closeFault⟩
  -- Nothing is pending.
  have hthird : RefreshStep ⟨some ((sampleWriter t).counted.committed r t'), d₂⟩ (.refreshed true)
      ⟨some ((sampleWriter t).counted.committed r t').published, d₂⟩ := by
    refine ⟨Faults.none, .refreshed (r := .ok _) rfl (returns_refresh_idle _ rfl rfl), ⟨?_, ?_⟩, ?_⟩
    · rintro _ ⟨⟩ hpending
      exact absurd rfl hpending
    · rintro _ ⟨⟩ -
      exact ⟨by rintro _ ⟨⟩, (by decide : 0 < 2 ^ 64)⟩
    · rintro ⟨⟩
  have hretry := ((Run.single hfirst).step hsecond).step hthird
  obtain ⟨hids, hmanifest⟩ := @published_of_retried .integral _ [.refreshed false, .refreshed false]
    _ _ _ _ hstart rfl (by simp) hretry rfl
  exact ⟨t, _, d₂, hstart, hretry, hids, hmanifest⟩

/-- The last sync of `SaveManifest` fails once: the next `Refresh` seals the document again. -/
theorem not_published_of_retried :
    ¬∀ (es fails : List WriterEvent) (s s' : WriterState) (w w' : IndexWriter),
      Run (fun s e s' ↦ ∃ F, @WriterStep .integral F s e s') .start es s → s.writer = some w →
      (∀ e ∈ fails, e = .refreshed false) →
      Run (fun s e s' ↦ ∃ F, @WriterStep .integral F s e s') s (fails ++ [.refreshed true]) s' →
      s'.writer = some w' →
      @IndexReader.ids .integral w'.publishedReader =
        w.sealedSegments.flatMap (@SegmentReader.ids .integral) ++ w.mutableSegment.docIds := by
  let _ := LibcDecimal.integral
  intro hall
  obtain ⟨t, t₁, d₀, -, hopen, hadd⟩ := steps_sample anyFault
  have hrun := (Run.single hopen).step hadd
  obtain ⟨r, e, d', d₁, href, hs, -⟩ := returns_refresh_unsynced (d := sampleDisk)
    (w := sampleWriter t) rfl sampleSegment_ne_zero fun _ ↦ sampleSegment_opens
  have hfailed : WriterStep anyFault ⟨some (sampleWriter t), sampleDisk⟩ (.refreshed false)
      ⟨some ((sampleWriter t).withSealed r), d'⟩ := .refreshed (r := .error e) rfl href
  have hopens : ∀ d, Holds ((sampleWriter t).withSealed r).nextFiles d →
      ∃ r', SegmentReader.openDisk d ((sampleWriter t).withSealed r).nextStem = .ok r' :=
    fun d hd ↦ sampleSegment_opens hd
  obtain ⟨r₂, t₂, d₂, d₃, hs₂, -, -, href₂⟩ := step_refreshed anyFault rfl
    (ready_of_run (hrun.step hfailed)) (Option.some_ne_none t) sampleSegment_ne_zero
    fun d _ ↦ hopens d
  have hids := hall _ [.refreshed false] _ _ _ _ (hrun.mono fun _ _ _ h ↦ ⟨_, h⟩) rfl (by simp)
    ((Run.single ⟨_, hfailed⟩).step ⟨_, href₂⟩) rfl
  -- There are two segments with a document each.
  have hlen : ∀ r' : SegmentReader, r'.ids.length = r'.docCount := fun r' ↦ by
    rw [SegmentReader.ids, List.length_map, List.length_range]
  have hcount := docCount_sealed_sample hs rfl
  have hcount₂ := docCount_sealed_sample hs₂ rfl
  have hpublished : [r, r₂].flatMap (·.ids) = [] ++ [sampleDoc.id] := hids
  have htwo := congrArg List.length hpublished
  simp [hlen, hcount, hcount₂] at htwo

end Samples

end Spp.Index
