import SearchPlusPlus.Index.WriterRun

/-!
# Sealed segments stay

`SealSegment` is handed stems that nothing visible uses, in every run, whatever fails or crashes
(`sealed_stays`). The generation of a stem is at most the next one, and within the next one the
counter of the process is ahead; a restart that resets the counter finds the old generation only
if no manifest lists a stem of the next (`StemsGiven`).

This rests on counters that do not wrap around (`CountersLeft`). The counter of a process is a
`uint32_t` that every failed `Refresh` moves on, and `sealed_overwritten` follows it around.
-/

namespace Spp.Index

open Json Store

variable [LibcDecimal]

/-- The stems listed in the manifest of a disk. -/
def listedStems (d : Disk) : List Bytes :=
  match Manifest.ofDisk d with
  | .ok m => m.segments.map (·.stem)
  | .error _ => []

theorem listedStems_of_ok {d : Disk} {m : Manifest} (h : Manifest.ofDisk d = .ok m) :
    listedStems d = m.segments.map (·.stem) := by
  rw [listedStems, h]

theorem Manifest.ofDisk_congr {d d' : Disk} (h : d' kManifestName = d kManifestName) :
    Manifest.ofDisk d' = Manifest.ofDisk d := by
  rw [Manifest.ofDisk, Manifest.ofDisk, h]

theorem listedStems_congr {d d' : Disk} (h : d' kManifestName = d kManifestName) :
    listedStems d' = listedStems d := by
  rw [listedStems, listedStems, Manifest.ofDisk_congr h]

/-- A stem of a generation up to `gen`. Generation zero is that of an index without segments. -/
def StemUpTo (gen : Generation) (stem : Bytes) : Prop :=
  ∃ g i, stem = makeSegmentStem g i ∧ 0 < g.toNat ∧ g.toNat ≤ gen.toNat

namespace IndexWriter

omit [LibcDecimal]

variable (w : IndexWriter)

/-- The stems of `sealed_segments_`. -/
def stems : List Bytes := w.sealedSegments.map (·.stem)

/-- The stems of the published reader. -/
def publishedStems : List Bytes := w.publishedReader.segments.map (·.stem)

/-- A stem the writer does not give out any more. -/
def Taken (stem : Bytes) : Prop :=
  ∃ g i, stem = makeSegmentStem g i ∧ 0 < g.toNat ∧ (g.toNat ≤ w.currentGen.toNat ∨
    g.toNat = w.currentGen.toNat + 1 ∧ i.toNat < w.nextSegmentId.toNat)

theorem not_taken_nextStem : ¬w.Taken w.nextStem := by
  rintro ⟨g, i, heq, hpos, hg⟩
  obtain ⟨rfl, rfl⟩ := makeSegmentStem_inj heq
  have := w.currentGen.toNat_lt
  rw [UInt64.toNat_add, UInt64.toNat_one] at hpos hg
  omega

theorem Taken.ne_nextStem {w : IndexWriter} {stem : Bytes} (h : w.Taken stem) :
    stem ≠ w.nextStem := fun heq ↦ w.not_taken_nextStem (heq ▸ h)

theorem Taken.stemUpTo {w : IndexWriter} {stem : Bytes} (hgen : w.currentGen.toNat + 1 < 2 ^ 64)
    (h : w.Taken stem) : StemUpTo (w.currentGen + 1) stem := by
  obtain ⟨g, i, heq, hpos, hg⟩ := h
  refine ⟨g, i, heq, hpos, ?_⟩
  rw [UInt64.toNat_add, UInt64.toNat_one]
  omega

theorem stemUpTo_nextStem (hgen : w.currentGen.toNat + 1 < 2 ^ 64) :
    StemUpTo (w.currentGen + 1) w.nextStem := by
  refine ⟨_, _, rfl, ?_, le_rfl⟩
  rw [UInt64.toNat_add, UInt64.toNat_one]
  omega

/-- What the writer holds against a manifest: its segments have stems of its own, all the listed
ones among them, and readers see only listed ones. -/
structure StemsOver (onDisk : List Bytes) : Prop where
  nodup : w.stems.Nodup
  taken : ∀ n ∈ w.stems, w.Taken n
  listed : onDisk ⊆ w.stems
  /-- With nothing pending the manifest is up to date. -/
  settled : w.mutableSegment.docCount = 0 → w.stems ⊆ onDisk
  published : w.publishedStems ⊆ onDisk
  docCounts : ∀ r ∈ w.sealedSegments, r.docCount < 2 ^ 32

end IndexWriter

/-- **The invariant**: the manifest is readable and lists different stems of its generations, and
a writer agrees with it. -/
structure StemsGiven (s : WriterState) : Prop where
  manifest : ∃ m, Manifest.ofDisk s.disk = .ok m ∧ (listedStems s.disk).Nodup ∧
    ∀ n ∈ listedStems s.disk, StemUpTo m.generation n
  writer : ∀ w, s.writer = some w → w.StemsOver (listedStems s.disk)

/-- A `Refresh` with documents pending does not use up a counter: the generation does not wrap
around, and neither does the segment counter in one that fails. -/
def CountersLeft (s : WriterState) (e : WriterEvent) : Prop :=
  ∀ w, s.writer = some w → w.mutableSegment.docCount ≠ 0 →
    ((e = .refreshCut ∨ ∃ ok, e = .refreshed ok) → w.currentGen.toNat + 1 < 2 ^ 64) ∧
      (e = .refreshed false → w.nextSegmentId.toNat + 1 < 2 ^ 32)

/-! ### The writer -/

namespace IndexWriter.StemsOver

omit [LibcDecimal]

variable {w : IndexWriter} {onDisk : List Bytes} {F : Faults} {d d₁ : Disk} {r : SegmentReader}

theorem taken_counted {stem : Bytes} (hid : w.nextSegmentId.toNat + 1 < 2 ^ 32)
    (h : w.Taken stem) : w.counted.Taken stem := by
  obtain ⟨g, i, heq, hpos, hg⟩ := h
  refine ⟨g, i, heq, hpos, ?_⟩
  change _ ∨ _ ∧ _ < (w.nextSegmentId + 1).toNat
  rw [UInt32.toNat_add, UInt32.toNat_one]
  exact hg.imp id fun h ↦ ⟨h.1, by omega⟩

theorem taken_counted_nextStem (hgen : w.currentGen.toNat + 1 < 2 ^ 64)
    (hid : w.nextSegmentId.toNat + 1 < 2 ^ 32) : w.counted.Taken w.nextStem := by
  refine ⟨_, _, rfl, ?_, Or.inr ⟨?_, ?_⟩⟩
  · rw [UInt64.toNat_add, UInt64.toNat_one]
    omega
  · rw [UInt64.toNat_add, UInt64.toNat_one]
    exact Nat.mod_eq_of_lt hgen
  · change _ < (w.nextSegmentId + 1).toNat
    rw [UInt32.toNat_add, UInt32.toNat_one]
    omega

theorem stems_withSealed (hs : w.Sealed F d d₁ r) :
    (w.withSealed r).stems = w.stems ++ [w.nextStem] := by
  rw [stems, withSealed, List.map_append, List.map_singleton, hs.reader_eq.1]
  rfl

theorem nodup_append (h : w.StemsOver onDisk) : (w.stems ++ [w.nextStem]).Nodup := by
  refine List.nodup_append.2 ⟨h.nodup, List.nodup_singleton _, fun n hn n' hn' ↦ ?_⟩
  rw [List.mem_singleton.1 hn']
  exact (h.taken n hn).ne_nextStem

theorem docCounts_append (h : w.StemsOver onDisk) (hs : w.Sealed F d d₁ r) :
    ∀ r' ∈ w.sealedSegments ++ [r], r'.docCount < 2 ^ 32 := by
  intro r' hr'
  rcases List.mem_append.1 hr' with hr' | hr'
  · exact h.docCounts r' hr'
  · rw [List.mem_singleton.1 hr']
    exact hs.reader_eq.2

/-- A failed seal. -/
theorem counted (h : w.StemsOver onDisk) (hid : w.nextSegmentId.toNat + 1 < 2 ^ 32) :
    w.counted.StemsOver onDisk where
  nodup := h.nodup
  taken n hn := taken_counted hid (h.taken n hn)
  listed := h.listed
  settled := h.settled
  published := h.published
  docCounts := h.docCounts

/-- A sealed segment before the new manifest is known to be in place, listed there or not. -/
theorem withSealed (h : w.StemsOver onDisk) (hs : w.Sealed F d d₁ r)
    (hpending : w.mutableSegment.docCount ≠ 0) (hgen : w.currentGen.toNat + 1 < 2 ^ 64)
    (hid : w.nextSegmentId.toNat + 1 < 2 ^ 32) {onDisk' : List Bytes}
    (hl : onDisk' = onDisk ∨ onDisk' = w.stems ++ [w.nextStem]) :
    (w.withSealed r).StemsOver onDisk' where
  nodup := by
    rw [stems_withSealed hs]
    exact h.nodup_append
  taken n hn := by
    rw [stems_withSealed hs] at hn
    rcases List.mem_append.1 hn with hn | hn
    · exact taken_counted hid (h.taken n hn)
    · rw [List.mem_singleton.1 hn]
      exact taken_counted_nextStem hgen hid
  listed := by
    rw [stems_withSealed hs]
    rcases hl with rfl | rfl
    · exact List.subset_append_of_subset_left _ h.listed
    · exact List.Subset.refl _
  settled h := absurd h hpending
  published := by
    rcases hl with rfl | rfl
    · exact h.published
    · exact List.subset_append_of_subset_left _ (List.Subset.trans h.published h.listed)
  docCounts := h.docCounts_append hs

/-- A saved manifest that the writer knows. -/
theorem committed (h : w.StemsOver onDisk) (hs : w.Sealed F d d₁ r)
    (hgen : w.currentGen.toNat + 1 < 2 ^ 64) (t : Translog) :
    (w.committed r t).StemsOver (w.stems ++ [w.nextStem]) where
  nodup := by
    change (w.withSealed r).stems.Nodup
    rw [stems_withSealed hs]
    exact h.nodup_append
  taken n hn := by
    change n ∈ (w.withSealed r).stems at hn
    rw [stems_withSealed hs] at hn
    have hup : StemUpTo (w.currentGen + 1) n := by
      rcases List.mem_append.1 hn with hn | hn
      · exact (h.taken n hn).stemUpTo hgen
      · rw [List.mem_singleton.1 hn]
        exact w.stemUpTo_nextStem hgen
    obtain ⟨g, i, heq, hpos, hg⟩ := hup
    exact ⟨g, i, heq, hpos, Or.inl hg⟩
  listed := by
    change _ ⊆ (w.withSealed r).stems
    rw [stems_withSealed hs]
    exact List.Subset.refl _
  settled _ := by
    change (w.withSealed r).stems ⊆ _
    rw [stems_withSealed hs]
    exact List.Subset.refl _
  published := List.subset_append_of_subset_left _ (List.Subset.trans h.published h.listed)
  docCounts := h.docCounts_append hs

/-- Publishing settled segments. -/
theorem publish (h : w.StemsOver onDisk) (hidle : w.mutableSegment.docCount = 0) :
    w.published.StemsOver onDisk where
  nodup := h.nodup
  taken := h.taken
  listed := h.listed
  settled := h.settled
  published := h.settled hidle
  docCounts := h.docCounts

end IndexWriter.StemsOver

/-! ### The steps -/

section Steps

variable {F : Faults} {s s' : WriterState} {e : WriterEvent}

/-- The manifest that a `Refresh` may have saved. -/
theorem ofDisk_nextManifest {w : IndexWriter} {d d₁ d' : Disk} {r : SegmentReader}
    (h : w.StemsOver (listedStems d)) (hs : w.Sealed F d d₁ r)
    (hd' : d' kManifestName = some (w.nextManifest r).toText) :
    Manifest.ofDisk d' = .ok (w.nextManifest r) ∧ listedStems d' = w.stems ++ [w.nextStem] := by
  have hm : Manifest.ofDisk d' = .ok (w.nextManifest r) := by
    rw [Manifest.ofDisk, hd']
    refine Manifest.ofText_toText fun ms hms ↦ ?_
    obtain ⟨r', hr', rfl⟩ := List.mem_map.1 hms
    exact h.docCounts_append hs r' hr'
  refine ⟨hm, ?_⟩
  rw [listedStems_of_ok hm, ← IndexWriter.StemsOver.stems_withSealed hs]
  simp [IndexWriter.nextManifest, manifestOf, IndexWriter.stems, IndexWriter.withSealed,
    Function.comp_def]

/-- The manifest stays readable through a `Refresh`. -/
theorem StemsGiven.manifest_of_cut {w : IndexWriter} {d' : Disk} (h : StemsGiven s)
    (hw : s.writer = some w) (hcut : w.RefreshCut F s.disk d')
    (hgen : w.mutableSegment.docCount ≠ 0 → w.currentGen.toNat + 1 < 2 ^ 64) :
    ∃ m, Manifest.ofDisk d' = .ok m ∧ (listedStems d').Nodup ∧
      ∀ n ∈ listedStems d', StemUpTo m.generation n := by
  have hover := h.writer w hw
  rcases hcut.leaves.manifest with hd' | ⟨r, d₁, hpending, hs, hd'⟩
  · rw [Manifest.ofDisk_congr hd', listedStems_congr hd']
    exact h.manifest
  · obtain ⟨hm, hlisted⟩ := ofDisk_nextManifest hover hs hd'
    rw [hlisted]
    refine ⟨_, hm, hover.nodup_append, fun n hn ↦ ?_⟩
    change StemUpTo (w.currentGen + 1) n
    rcases List.mem_append.1 hn with hn | hn
    · exact (hover.taken n hn).stemUpTo (hgen hpending)
    · rw [List.mem_singleton.1 hn]
      exact w.stemUpTo_nextStem (hgen hpending)

omit [LibcDecimal] in
/-- The segments opened are those listed. -/
theorem stems_of_mapM {d : Disk} {l : List ManifestSegment} {segs : List SegmentReader}
    (h : (l.mapM fun ms ↦ SegmentReader.openDisk d ms.stem) = .ok segs) :
    segs.map (·.stem) = l.map (·.stem) ∧ ∀ r ∈ segs, r.docCount < 2 ^ 32 := by
  induction l generalizing segs with
  | nil =>
    cases h
    exact ⟨rfl, by simp⟩
  | cons ms l ih =>
    rw [List.mapM_cons] at h
    obtain ⟨seg, hseg, h⟩ := bind_eq_ok.1 h
    obtain ⟨segs, hsegs, h⟩ := bind_eq_ok.1 h
    cases h
    obtain ⟨hstem, hcount⟩ := SegmentReader.openDisk_eq_ok hseg
    obtain ⟨hstems, hcounts⟩ := ih hsegs
    refine ⟨by rw [List.map_cons, List.map_cons, hstem, hstems], fun r hr ↦ ?_⟩
    rcases List.mem_cons.1 hr with rfl | hr
    · exact hcount
    · exact hcounts r hr

/-- `Open` gives out stems of the next generation from the first. -/
theorem IndexWriter.StemsOver.of_ofDisk {d : Disk} {schema : Schema} {t : Translog}
    {w : IndexWriter} {m : Manifest} (hm : Manifest.ofDisk d = .ok m)
    (hnodup : (listedStems d).Nodup) (hup : ∀ n ∈ listedStems d, StemUpTo m.generation n)
    (hw : IndexWriter.ofDisk d schema t = .ok w) : w.StemsOver (listedStems d) := by
  obtain ⟨w₁, hw₁, hw⟩ := bind_eq_ok.1 hw
  obtain ⟨seg, -, hw⟩ := bind_eq_ok.1 hw
  cases hw
  obtain ⟨m', hm', hw₁⟩ := bind_eq_ok.1 hw₁
  obtain ⟨segs, hsegs, hw₁⟩ := bind_eq_ok.1 hw₁
  cases hm.symm.trans hm'
  cases hw₁
  obtain ⟨hstems, hcounts⟩ := stems_of_mapM hsegs
  rw [← listedStems_of_ok hm] at hstems
  have hsub : segs.map (·.stem) ⊆ listedStems d := hstems ▸ List.Subset.refl _
  have hsub' : listedStems d ⊆ segs.map (·.stem) := hstems ▸ List.Subset.refl _
  rw [← hstems] at hnodup
  refine ⟨hnodup, fun n hn ↦ ?_, hsub', fun _ ↦ hsub, hsub, hcounts⟩
  obtain ⟨g, i, heq, hpos, hg⟩ := hup n (hsub hn)
  exact ⟨g, i, heq, hpos, Or.inl hg⟩

theorem StemsGiven.of_manifest_eq (h : StemsGiven s)
    (hd : s'.disk kManifestName = s.disk kManifestName)
    (hw : ∀ w, s'.writer = some w → w.StemsOver (listedStems s.disk)) : StemsGiven s' where
  manifest := by
    rw [Manifest.ofDisk_congr hd, listedStems_congr hd]
    exact h.manifest
  writer := by
    rw [listedStems_congr hd]
    exact hw

/-- Adding a document leaves no segment without one. -/
theorem docCount_addDocument {seg seg' : MutableSegment} {doc : Document} {id : ℕ}
    (h : seg.addDocument doc = .ok (seg', id)) : seg'.docCount ≠ 0 := by
  unfold MutableSegment.addDocument at h
  split_ifs at h
  cases h
  exact Nat.succ_ne_zero _

/-- **The invariant is kept.** -/
theorem WriterMove.stemsGiven (hmove : WriterMove F s e s') (h : StemsGiven s)
    (hleft : CountersLeft s e) : StemsGiven s' := by
  cases hmove with
  | @opened initial schema d₁ t w _ hfound ht hw =>
    obtain ⟨m, hm, hnodup, hup⟩ := h.manifest
    have hcut : OpenCut initial s.disk (touched d₁) := Or.inr (Or.inr ⟨_, d₁, hfound, rfl⟩)
    have hd : touched d₁ kManifestName = s.disk kManifestName := hcut.agree _ (by decide)
    have hd₁ : d₁ kManifestName = s.disk kManifestName := by
      rw [← hd, touched, d₁.put_of_ne (by decide)]
    refine h.of_manifest_eq hd ?_
    rintro _ ⟨⟩
    rw [← listedStems_congr hd₁] at hnodup hup ⊢
    exact .of_ofDisk ((Manifest.ofDisk_congr hd₁).trans hm) hnodup hup hw
  | notOpened _ hcut | openCut _ hcut =>
    exact h.of_manifest_eq (hcut.agree _ (by decide)) (by simp)
  | @added w w' r d doc rawJson hw hadd =>
    have hover := h.writer w hw
    refine h.of_manifest_eq (hadd.cut.agree _ (by decide)) ?_
    rintro _ ⟨⟩
    cases hadd with
    | refused => exact hover
    | notLogged | rejected =>
      exact ⟨hover.nodup, hover.taken, hover.listed, hover.settled, hover.published,
        hover.docCounts⟩
    | accepted _ _ hadd =>
      exact ⟨hover.nodup, hover.taken, hover.listed,
        fun hzero ↦ absurd hzero (docCount_addDocument hadd), hover.published, hover.docCounts⟩
  | addCut _ hcut => exact h.of_manifest_eq (hcut.agree _ (by decide)) (by simp)
  | @refreshed w w' r d hw href =>
    have hover := h.writer w hw
    have hleft' := hleft w hw
    have hgen := fun hpending ↦ (hleft' hpending).1 (Or.inr ⟨_, rfl⟩)
    refine ⟨h.manifest_of_cut hw href.cut hgen, ?_⟩
    rintro _ ⟨⟩
    cases href with
    | refused => exact hover
    | idle _ hidle => exact hover.publish hidle
    | sealFailed _ hpending hoff =>
      have hd : d kManifestName = s.disk kManifestName :=
        hoff _ (not_mem_segmentNames (by decide))
      rw [listedStems_congr hd]
      exact hover.counted ((hleft' hpending).2 rfl)
    | @saveFailed r d₁ _ _ hpending hs hoff =>
      have hd : d kManifestName = s.disk kManifestName := by
        rw [hoff _ (by decide), hs.agree_segment _ (not_mem_segmentNames (by decide))]
      exact hover.withSealed hs hpending (hgen hpending) ((hleft' hpending).2 rfl)
        (Or.inl (listedStems_congr hd))
    | @syncFailed r d₁ _ _ hpending hs hp =>
      exact hover.withSealed hs hpending (hgen hpending) ((hleft' hpending).2 rfl)
        (Or.inr (ofDisk_nextManifest hover hs hp.manifest).2)
    | @truncateFailed r t d₁ d₂ _ _ hpending hs hp _ hd' =>
      have hd : d kManifestName = some (w.nextManifest r).toText := by
        rcases hd' with rfl | rfl
        · exact hp.manifest
        · rw [d₂.put_of_ne (by decide), hp.manifest]
      rw [(ofDisk_nextManifest hover hs hd).2]
      exact hover.committed hs (hgen hpending) t
    | @done r t d₁ d₂ _ hpending hs hp ht =>
      have hd : (d₂.put kTranslogName []) kManifestName = some (w.nextManifest r).toText := by
        rw [d₂.put_of_ne (by decide), hp.manifest]
      rw [(ofDisk_nextManifest hover hs hd).2]
      exact (hover.committed hs (hgen hpending) t).publish rfl
  | @refreshCut w d hw hcut =>
    refine ⟨h.manifest_of_cut hw hcut fun hpending ↦ (hleft w hw hpending).1 (Or.inl rfl), ?_⟩
    rintro _ ⟨⟩
  | closed | crashed => exact h.of_manifest_eq rfl (by simp)

/-- What is listed stays listed. -/
theorem WriterMove.listed_subset (hmove : WriterMove F s e s') (h : StemsGiven s) :
    listedStems s.disk ⊆ listedStems s'.disk := by
  have hsame : ∀ {d'}, d' kManifestName = s.disk kManifestName →
      listedStems s.disk ⊆ listedStems d' :=
    fun hd ↦ listedStems_congr hd ▸ List.Subset.refl _
  have hrefresh : ∀ {w d'}, s.writer = some w → w.RefreshCut F s.disk d' →
      listedStems s.disk ⊆ listedStems d' := by
    intro w d' hw hcut
    have hover := h.writer w hw
    rcases hcut.leaves.manifest with hd | ⟨r, d₁, -, hs, hd⟩
    · exact hsame hd
    · rw [(ofDisk_nextManifest hover hs hd).2]
      exact List.subset_append_of_subset_left _ hover.listed
  cases hmove with
  | @opened initial schema d₁ t w _ hfound =>
    have hcut : OpenCut initial s.disk (touched d₁) := Or.inr (Or.inr ⟨_, d₁, hfound, rfl⟩)
    have hd : touched d₁ kManifestName = s.disk kManifestName := hcut.agree _ (by decide)
    exact hsame hd
  | notOpened _ hcut | openCut _ hcut => exact hsame (hcut.agree _ (by decide))
  | added _ hadd => exact hsame (hadd.cut.agree _ (by decide))
  | addCut _ hcut => exact hsame (hcut.agree _ (by decide))
  | refreshed hw href => exact hrefresh hw href.cut
  | refreshCut hw hcut => exact hrefresh hw hcut
  | closed | crashed => exact List.Subset.refl _

/-- **The frame**: no step writes a file of a listed segment. -/
theorem WriterMove.keeps (hmove : WriterMove F s e s') (h : StemsGiven s) {stem n : Bytes}
    (hstem : stem ∈ listedStems s.disk) (hn : n ∈ segmentNames stem) :
    s'.disk n = s.disk n := by
  obtain ⟨m, -, -, hup⟩ := h.manifest
  obtain ⟨g, i, rfl, -⟩ := hup stem hstem
  have hother : ∀ {names d'}, (∀ n' ∈ names, n'.take 4 ≠ str "seg-") →
      AgreeOff names s.disk d' → d' n = s.disk n :=
    fun hnames hoff ↦ hoff n fun h ↦ not_mem_segmentNames (hnames n h) hn
  have hopen : ∀ {initial d'}, OpenCut initial s.disk d' → d' n = s.disk n :=
    fun hcut ↦ hother (by decide) hcut.agree
  have hadd : ∀ {doc rawJson d'}, IndexWriter.AddCut F doc rawJson s.disk d' →
      d' n = s.disk n := fun hcut ↦ hother (by decide) hcut.agree
  have hrefresh : ∀ {w d'}, s.writer = some w → w.RefreshCut F s.disk d' →
      d' n = s.disk n := by
    intro w d' hw hcut
    have hover := h.writer w hw
    -- The writer seals under another stem.
    have hne := (hover.taken _ (hover.listed hstem)).ne_nextStem
    refine hcut.leaves.other n fun hmem ↦ ?_
    rcases List.mem_append.1 hmem with hmem | hmem
    · exact segmentNames_disjoint hne hn hmem
    · have hnames : ∀ n' ∈ [kManifestTmpName, kManifestName, kTranslogName],
          n'.take 4 ≠ str "seg-" := by decide
      exact not_mem_segmentNames (hnames n hmem) hn
  cases hmove with
  | opened _ hfound => exact hopen (Or.inr (Or.inr ⟨_, _, hfound, rfl⟩))
  | notOpened _ hcut | openCut _ hcut => exact hopen hcut
  | added _ h => exact hadd h.cut
  | addCut _ hcut => exact hadd hcut
  | refreshed hw href => exact hrefresh hw href.cut
  | refreshCut hw hcut => exact hrefresh hw hcut
  | closed | crashed => rfl

end Steps

/-! ### Runs -/

/-- The runs in which no counter is used up. -/
def CountedRun (F : Faults) : WriterState → List WriterEvent → WriterState → Prop :=
  Run fun s e s' ↦ WriterStep F s e s' ∧ CountersLeft s e

theorem stemsGiven_start : StemsGiven .start where
  manifest := ⟨{}, rfl, List.nodup_nil, fun _ h ↦ by cases h⟩
  writer _ h := by cases h

theorem CountedRun.stemsGiven {F : Faults} {es : List WriterEvent} {s : WriterState}
    (h : CountedRun F .start es s) : StemsGiven s ∧ s.Ready := by
  obtain ⟨hmoves, hready⟩ := writerRun_moves h
  exact ⟨hmoves.invariant stemsGiven_start fun _ _ _ hs hstep ↦ hstep.1.stemsGiven hs hstep.2,
    hready⟩

/-- **Sealed segments are never overwritten**: the next stem is neither listed nor held, readers
see listed segments only, and the files of a listed segment stay as they are from then on. -/
theorem sealed_stays {F : Faults} {es : List WriterEvent} {s : WriterState}
    (h : CountedRun F .start es s) :
    (listedStems s.disk).Nodup ∧
      (∀ w, s.writer = some w → w.nextStem ∉ listedStems s.disk ∧ w.nextStem ∉ w.stems ∧
        w.publishedStems ⊆ listedStems s.disk) ∧
      ∀ es' s', CountedRun F s es' s' →
        ∀ stem ∈ listedStems s.disk, ∀ n ∈ segmentNames stem, s'.disk n = s.disk n := by
  obtain ⟨hgiven, hready⟩ := h.stemsGiven
  refine ⟨hgiven.manifest.choose_spec.2.1, fun w hw ↦ ?_, fun es' s' h' stem hstem n hn ↦ ?_⟩
  · have hover := hgiven.writer w hw
    have hnext : w.nextStem ∉ w.stems := fun hmem ↦ (hover.taken _ hmem).ne_nextStem rfl
    exact ⟨fun hmem ↦ hnext (hover.listed hmem), hnext, hover.published⟩
  · -- Along the rest of the run the stem stays listed.
    refine (h'.invariant (I := fun s₁ ↦ (StemsGiven s₁ ∧ s₁.Ready) ∧
      stem ∈ listedStems s₁.disk ∧ s₁.disk n = s.disk n) ⟨⟨hgiven, hready⟩, hstem, rfl⟩ ?_).2.2
    rintro s₁ e s₂ ⟨⟨hgiven₁, hready₁⟩, hlisted, hsame⟩ ⟨hstep, hleft⟩
    have hmove := hstep.move hready₁
    exact ⟨⟨hmove.stemsGiven hgiven₁ hleft, hmove.ready hready₁⟩,
      hmove.listed_subset hgiven₁ hlisted, (hmove.keeps hgiven₁ hlisted hn).trans hsame⟩

/-! ### A counter that wraps around -/

/-- Any call may fail. -/
def anyFault : Faults := ⟨fun _ ↦ True, False⟩

section Failing

variable {w : IndexWriter} {d : Disk}

omit [LibcDecimal] in
/-- A segment whose files open can be sealed. -/
theorem returns_sealCurrentSegment (F : Faults) (hpending : w.mutableSegment.docCount ≠ 0)
    (hopens : ∀ d₁, Holds w.nextFiles d₁ → ∃ r, SegmentReader.openDisk d₁ w.nextStem = .ok r) :
    ∃ r d₁, (IndexWriter.sealCurrentSegment w).Returns (files F) d (.ok (some r), w.counted) d₁ ∧
      w.Sealed Faults.none d d₁ r := by
  have hwp : IndexWriter.sealCurrentSegment.wp (files Faults.none) w
      (fun res w' d₁ ↦ ∃ r, (res, w') = (.ok (some r), w.counted) ∧
        w.Sealed Faults.none d d₁ r) (fun _ ↦ True) d := by
    refine IndexWriter.wp_sealCurrentSegment hpending (fun _ _ ↦ trivial)
      (fun r d₁ hs ↦ ⟨r, rfl, hs⟩) ?_
    rintro (⟨_, _, hf⟩ | ⟨_, _, hf⟩ | ⟨d₁, e, hoff, hholds, herr⟩)
    · exact hf.elim
    · exact hf.elim
    · obtain ⟨r, hr⟩ := hopens d₁ hholds
      cases hr.symm.trans herr
  obtain ⟨res, w', d₁, hret, r, hres, hs⟩ := returns_of_wp F hwp
  cases hres
  exact ⟨r, d₁, hret, hs⟩

/-- A manifest can be saved. -/
theorem returns_saveManifest {σ : Type} (F : Faults) (s : σ) (m : Manifest) :
    ∃ d', (saveManifest m s).Returns (files F) d (.ok (), s) d' ∧ Published m d d' := by
  have hwp : (saveManifest m).wp (files Faults.none) s
      (fun res s' d' ↦ (res, s') = (.ok (), s) ∧ Published m d d') (fun _ ↦ True) d := by
    refine wp_saveManifest (fun _ _ ↦ trivial) (fun _ _ ↦ trivial) (fun d' hp ↦ ⟨rfl, hp⟩) ?_ ?_
    · rintro ⟨_, _, hf⟩
      exact hf.elim
    · exact fun hf ↦ hf.elim
  obtain ⟨res, s', d', hsave, hres, hp⟩ := returns_of_wp F hwp
  cases hres
  exact ⟨d', hsave, hp⟩

/-- `SaveManifest` may fail once the new manifest is in place. -/
theorem returns_saveManifest_unsynced {σ : Type} (s : σ) (m : Manifest) :
    ∃ e d', (saveManifest m s).Returns (files anyFault) d (.error e, s) d' ∧
      d' kManifestName = some m.toText := by
  set d₁ := d.put kManifestTmpName m.toText with hd₁
  set d₂ := Disk.put (Function.update d₁ kManifestTmpName none) kManifestName m.toText with hd₂
  have hexec : (FileAction.rename kManifestTmpName kManifestName).exec d₁ = (.ok (), d₂) := by
    simp only [FileAction.exec, hd₁, hd₂, Disk.put_self]
  have hrename : (Directory.atomicRename kManifestTmpName kManifestName s).Returns
      (files anyFault) d₁ (.ok (), s) d₂ := ⟨.ok (), d₂, Or.inl hexec.symm, rfl, rfl⟩
  have hsync : (Directory.sync s).Returns (files anyFault) d₂ (.error (.ioError []), s) d₂ :=
    ⟨.error (.ioError []), d₂, Or.inr ⟨trivial, ⟨_, rfl⟩, rfl⟩, rfl, rfl⟩
  exact ⟨_, d₂, Method.returns_ok (returns_writeFile anyFault s _ _ d)
    (Method.returns_ok hrename hsync), Disk.put_self ..⟩

/-- A `Refresh` that fails in the end: the manifest lists the segment, the generation is the
old one. -/
theorem returns_refresh_unsynced {t : Translog} (ht : w.translog = some t)
    (hpending : w.mutableSegment.docCount ≠ 0)
    (hopens : ∀ d₁, Holds w.nextFiles d₁ → ∃ r, SegmentReader.openDisk d₁ w.nextStem = .ok r) :
    ∃ r e d' d₁, (IndexWriter.refresh w).Returns (files anyFault) d (.error e, w.withSealed r) d' ∧
      w.Sealed Faults.none d d₁ r ∧ d' kManifestName = some (w.nextManifest r).toText := by
  obtain ⟨r, d₁, hseal, hs⟩ := returns_sealCurrentSegment (d := d) anyFault hpending hopens
  obtain ⟨e, d', hsave, hd'⟩ := returns_saveManifest_unsynced (d := d₁) (w.withSealed r)
    (w.nextManifest r)
  refine ⟨r, e, d', d₁, ?_, hs, hd'⟩
  refine Method.returns_ok ⟨rfl, rfl⟩ ?_
  rw [ht]
  refine Method.returns_ok hseal (Method.returns_ok ⟨rfl, rfl⟩ (Method.returns_ok ⟨rfl, rfl⟩ ?_))
  exact Method.returns_error hsave

omit [LibcDecimal] in
/-- The first file of a segment may not come about. -/
theorem returns_sealCurrentSegment_refused (hpending : w.mutableSegment.docCount ≠ 0) :
    ∃ e, (IndexWriter.sealCurrentSegment w).Returns (files anyFault) d (.error e, w.counted) d := by
  refine ⟨.ioError [], Method.returns_ok ⟨rfl, rfl⟩ ?_⟩
  rw [if_neg hpending]
  refine Method.returns_ok ⟨rfl, rfl⟩ (Method.returns_error (Method.returns_error ?_))
  exact ⟨.error (.ioError []), d, Or.inr ⟨trivial, ⟨_, rfl⟩, rfl⟩, rfl, rfl⟩

/-- A `Refresh` that fails at once takes an id. -/
theorem returns_refresh_refused {t : Translog} (ht : w.translog = some t)
    (hpending : w.mutableSegment.docCount ≠ 0) :
    ∃ e, (IndexWriter.refresh w).Returns (files anyFault) d (.error e, w.counted) d := by
  obtain ⟨e, hseal⟩ := returns_sealCurrentSegment_refused (d := d) hpending
  refine ⟨e, Method.returns_ok ⟨rfl, rfl⟩ ?_⟩
  rw [ht]
  exact Method.returns_error hseal

/-- As many as one likes. -/
theorem run_refused {t : Translog} (ht : w.translog = some t)
    (hpending : w.mutableSegment.docCount ≠ 0) (k : ℕ) :
    ∃ es, Run (WriterStep anyFault) ⟨some w, d⟩ es
      ⟨some { w with nextSegmentId := w.nextSegmentId + UInt32.ofNat k }, d⟩ := by
  induction k with
  | zero => exact ⟨[], by simpa using Run.start⟩
  | succ k ih =>
    obtain ⟨es, hrun⟩ := ih
    set w' : IndexWriter := { w with nextSegmentId := w.nextSegmentId + UInt32.ofNat k } with hw'
    obtain ⟨e, hret⟩ := returns_refresh_refused (w := w') (d := d) ht hpending
    have hid : w.nextSegmentId + UInt32.ofNat (k + 1) = w'.nextSegmentId + 1 := by
      rw [hw', UInt32.ofNat_add, ← UInt32.add_assoc]
      rfl
    rw [hid]
    exact ⟨_, hrun.step (.refreshed rfl hret)⟩

end Failing

section Samples

omit [LibcDecimal]

/-- A document, and a `Refresh` that fails after the manifest was saved. -/
theorem run_unsynced :
    ∃ w d, @CountedRun .integral anyFault .start
        [.opened (some sampleSchema) true, .added sampleDoc [] true, .refreshed false] ⟨some w, d⟩ ∧
      w.mutableSegment.docCount ≠ 0 ∧ (∃ t, w.translog = some t) ∧ w.nextSegmentId = 1 ∧
      w.nextStem = makeSegmentStem 1 1 ∧ w.stems = [makeSegmentStem 1 0] ∧
      @listedStems .integral d = [makeSegmentStem 1 0] := by
  let _ := LibcDecimal.integral
  obtain ⟨t, t₁, d₂, -, hopen, hadd⟩ := steps_sample anyFault
  obtain ⟨r, e, d', d₁, href, hs, hd'⟩ := returns_refresh_unsynced (d := sampleDisk)
    (w := sampleWriter t) rfl sampleSegment_ne_zero fun _ ↦ sampleSegment_opens
  have hstems := IndexWriter.StemsOver.stems_withSealed hs
  have hrefresh : WriterStep anyFault ⟨some (sampleWriter t), sampleDisk⟩ (.refreshed false)
      ⟨some ((sampleWriter t).withSealed r), d'⟩ := .refreshed (r := .error e) rfl href
  have hrun : CountedRun anyFault .start
      [.opened (some sampleSchema) true, .added sampleDoc [] true, .refreshed false]
      ⟨some ((sampleWriter t).withSealed r), d'⟩ := by
    have hleft : CountersLeft .start (.opened (some sampleSchema) true) := by
      rintro w ⟨⟩
    have hleft₁ : CountersLeft ⟨some (IndexWriter.fresh sampleSchema t₁), d₂⟩
        (.added sampleDoc [] true) := by
      rintro w ⟨⟩ h
      exact absurd rfl h
    have hleft₂ : CountersLeft ⟨some (sampleWriter t), sampleDisk⟩ (.refreshed false) := by
      rintro w ⟨⟩ -
      exact ⟨fun _ ↦ (by decide : (0 : UInt64).toNat + 1 < 2 ^ 64),
        fun _ ↦ (by decide : (0 : UInt32).toNat + 1 < 2 ^ 32)⟩
    exact ((Run.single ⟨hopen, hleft⟩).step ⟨hadd, hleft₁⟩).step ⟨hrefresh, hleft₂⟩
  refine ⟨_, d', hrun, sampleSegment_ne_zero, ⟨t, rfl⟩, rfl, rfl, hstems, ?_⟩
  have hm : Manifest.ofDisk d' = .ok ((sampleWriter t).nextManifest r) := by
    rw [Manifest.ofDisk, hd']
    refine Manifest.ofText_toText fun ms hms ↦ ?_
    obtain rfl := List.mem_singleton.1 hms
    exact hs.reader_eq.2
  rw [listedStems_of_ok hm]
  exact congrArg (· :: []) hs.reader_eq.1

theorem sealed_stays_sample :
    ∃ w d, @CountedRun .integral anyFault .start
        [.opened (some sampleSchema) true, .added sampleDoc [] true, .refreshed false] ⟨some w, d⟩ ∧
      (@listedStems .integral d).Nodup ∧
        (∀ w', some w = some w' → w'.nextStem ∉ @listedStems .integral d ∧ w'.nextStem ∉ w'.stems ∧
          w'.publishedStems ⊆ @listedStems .integral d) ∧
        ∀ es' s', @CountedRun .integral anyFault ⟨some w, d⟩ es' s' →
          ∀ stem ∈ @listedStems .integral d, ∀ n ∈ segmentNames stem, s'.disk n = d n := by
  obtain ⟨w, d, hrun, -⟩ := run_unsynced
  exact ⟨w, d, hrun, @sealed_stays .integral anyFault _ _ hrun⟩

/-- **Once the counter has gone around**, the next segment is sealed over one that the manifest
lists: one `Refresh` fails after its manifest was saved, 4294967295 fail at once. -/
theorem sealed_overwritten :
    ∃ es w d, Run (@WriterStep .integral anyFault) .start es ⟨some w, d⟩ ∧
      w.mutableSegment.docCount ≠ 0 ∧ (∃ t, w.translog = some t) ∧
      w.nextStem ∈ w.stems ∧ w.nextStem ∈ @listedStems .integral d := by
  let _ := LibcDecimal.integral
  obtain ⟨w, d, hrun, hpending, ⟨t, ht⟩, hid, hnext, hstems, hlisted⟩ := run_unsynced
  obtain ⟨es, hfail⟩ := run_refused (d := d) ht hpending 4294967295
  have hwrap : w.nextSegmentId + UInt32.ofNat 4294967295 = 0 := by
    rw [hid]
    rfl
  rw [hwrap] at hfail
  have hstem : makeSegmentStem (w.currentGen + 1) 0 = makeSegmentStem 1 0 := by
    rw [(makeSegmentStem_inj hnext).1]
  refine ⟨_, _, d, (hrun.mono fun _ _ _ h ↦ h.1).trans hfail, hpending, ⟨t, ht⟩, ?_, ?_⟩
  · change makeSegmentStem (w.currentGen + 1) 0 ∈ w.stems
    rw [hstem, hstems]
    exact List.mem_singleton_self _
  · change makeSegmentStem (w.currentGen + 1) 0 ∈ listedStems d
    rw [hstem, hlisted]
    exact List.mem_singleton_self _

end Samples

end Spp.Index
