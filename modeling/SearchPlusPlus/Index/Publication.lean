import SearchPlusPlus.Index.AtomicRefresh

/-!
# Publication across crashes

A crash anywhere in a `Refresh` leaves an index that `Open` loads (`publication_atomic`): its
segments are those that were listed before, or those that the whole `Refresh` lists, and every one
of them reads back what was in memory when it was sealed. Sizes must fit the format: a
document of 2^32 bytes is published, and read back cut short (`not_publication_atomic`).
-/

namespace Spp.Index

open Analyze Json Store

variable [LibcDecimal]

/-! ### What is loaded -/

/-- A writer has loaded a manifest, and its segments agree with what they were sealed from. -/
structure Loaded (w : IndexWriter) (m : Manifest) (shelves : List Shelf) : Prop where
  generation : w.currentGen = m.generation
  segments : (w.sealedSegments.map fun r ↦ (⟨r.stem, r.docCount⟩ : ManifestSegment)) = m.segments
  agree : List.Forall₂ (fun r shelf ↦ Agrees r shelf.segment) w.sealedSegments shelves

/-- `Open` loads the manifest of a disk and the segments that it lists: `BootstrapInitial` succeeds,
and a writer that `Open` returns, once the log was replayed, has what was loaded. -/
structure OpenLoads (d : Disk) (m : Manifest) (shelves : List Shelf) : Prop where
  lists : Lists d m shelves
  bootstraps : ∀ initial, ∃ w, (run (IndexWriter.bootstrapInitial initial ()) d).1.1 = .ok w ∧
    Loaded w m shelves
  opened : ∀ initial w, (run (IndexWriter.open initial ()) d).1.1 = .ok w → Loaded w m shelves

section Loading

variable {d : Disk} {m : Manifest} {shelves : List Shelf}

/-- The segments of a manifest are opened, one reader for each. -/
theorem exists_mapM_openDisk {l : List ManifestSegment} (h : List.Forall₂ (ReadBack d) l shelves) :
    ∃ rs, (l.mapM fun ms ↦ SegmentReader.openDisk d ms.stem) = .ok rs ∧
      (rs.map fun r ↦ (⟨r.stem, r.docCount⟩ : ManifestSegment)) = l ∧
      List.Forall₂ (fun r shelf ↦ Agrees r shelf.segment) rs shelves := by
  induction h with
  | nil => exact ⟨[], rfl, rfl, .nil⟩
  | @cons ms shelf l shelves hread _ ih =>
    obtain ⟨r, hr, hcount, hagrees⟩ := hread
    obtain ⟨rs, hrs, hsegs, hall⟩ := ih
    refine ⟨r :: rs, ?_, ?_, .cons hagrees hall⟩
    · rw [List.mapM_cons]
      exact bind_eq_ok.2 ⟨r, hr, bind_eq_ok.2 ⟨rs, hrs, rfl⟩⟩
    · rw [List.map_cons, hsegs, (SegmentReader.openDisk_eq_ok hr).1, ← hcount]

/-- What is listed is loaded. -/
theorem Lists.exists_ofManifest (h : Lists d m shelves) (schema : Schema) (t : Translog) :
    ∃ w, IndexWriter.ofManifest d schema t = .ok w ∧ Loaded w m shelves := by
  obtain ⟨rs, hrs, hsegs, hall⟩ := exists_mapM_openDisk h.2
  exact ⟨_, bind_eq_ok.2 ⟨m, h.1, bind_eq_ok.2 ⟨rs, hrs, rfl⟩⟩, rfl, hsegs, hall⟩

/-- `schema.json` is complete: `Open` reads a schema from it. -/
def SchemaComplete (d : Disk) : Prop :=
  ∃ text schema, d kSchemaFilename = some text ∧ Schema.ofText text = .ok schema

/-- **`Open` loads what is listed** where there is a schema. -/
theorem Lists.openLoads (h : Lists d m shelves) (hschema : SchemaComplete d) :
    OpenLoads d m shelves := by
  obtain ⟨text, schema, htext, hschema⟩ := hschema
  have hfound : ∀ initial, SchemaFound initial d (.ok schema) d :=
    fun initial ↦ hschema ▸ .loaded htext
  have hloaded : ∀ {initial schema' d₁ t w}, SchemaFound initial d (.ok schema') d₁ →
      IndexWriter.ofManifest d₁ schema' t = .ok w → Loaded w m shelves := by
    intro initial schema' d₁ t w hfound' hw
    obtain ⟨hsame, rfl⟩ := (hfound initial).unique hfound'
    cases hsame
    obtain ⟨w', hw', hloaded⟩ := h.exists_ofManifest _ t
    obtain rfl := Except.ok.inj (hw.symm.trans hw')
    exact hloaded
  refine ⟨h, fun initial ↦ ?_, fun initial ↦ ?_⟩
  · have hwp : (IndexWriter.bootstrapInitial initial).wp (files Faults.none) ()
        (fun r _ _ ↦ ∃ w, r = .ok w ∧ Loaded w m shelves) (fun _ ↦ True) d := by
      refine IndexWriter.wp_bootstrapInitial (fun _ ↦ False.elim) trivial
        (fun _ _ _ _ _ ↦ trivial) (fun _ _ _ ↦ trivial) ?_ ?_
      · exact fun schema' d₁ t w hfound' _ hw ↦ ⟨w, rfl, hloaded hfound' hw⟩
      · intro hnone
        obtain ⟨w, hw, -⟩ := h.exists_ofManifest schema ⟨none, 0⟩
        exact absurd hw (hnone schema d _ w (hfound initial))
    exact (Method.wp_iff.1 hwp).1 _ _ _ (returns_run Faults.none _ d)
  · have hwp : (IndexWriter.open initial).wp (files Faults.none) ()
        (fun r _ _ ↦ ∀ w, r = .ok w → Loaded w m shelves) (fun _ ↦ True) d := by
      refine IndexWriter.wp_open (fun _ h ↦ h) trivial (fun _ _ _ _ _ ↦ trivial)
        (fun _ _ _ ↦ trivial) ?_ ?_
      · rintro schema' d₁ t w hfound' - hw _ ⟨⟩
        obtain ⟨w₁, hw₁, hw⟩ := bind_eq_ok.1 hw
        obtain ⟨seg, -, hw⟩ := bind_eq_ok.1 hw
        cases hw
        have hw₁ := hloaded hfound' hw₁
        exact ⟨hw₁.generation, hw₁.segments, hw₁.agree⟩
      · rintro - _ _ - _ ⟨⟩
    exact (Method.wp_iff.1 hwp).1 _ _ _ (returns_run Faults.none _ d)

end Loading

/-! ### Runs -/

/-- A `Refresh` of the run that led here, whole or cut off, listed this stem, with this in
memory. -/
def PublishedAlong (es : List WriterEvent) (s : StoredState) (stem : Bytes) (shelf : Shelf) :
    Prop :=
  ∃ es₁ e es₂ s₁ s₂, es = es₁ ++ e :: es₂ ∧ Run StoredStep .start es₁ s₁ ∧ StoredStep s₁ e s₂ ∧
    Publishes s₁ e s₂ stem shelf ∧ Run StoredStep s₂ es₂ s

section Runs

variable {s s' : StoredState} {e : WriterEvent} {es : List WriterEvent} {stem : Bytes}
  {shelf : Shelf} {w : IndexWriter}

/-- One more step. -/
theorem PublishedAlong.step (h : PublishedAlong es s stem shelf) (hstep : StoredStep s e s') :
    PublishedAlong (es ++ [e]) s' stem shelf := by
  obtain ⟨es₁, e₁, es₂, s₁, s₂, rfl, hbefore, hfirst, hlisted, hafter⟩ := h
  exact ⟨es₁, e₁, es₂ ++ [e], s₁, s₂, by simp, hbefore, hfirst, hlisted, hafter.step hstep⟩

/-- **What is listed was published along the run.** -/
theorem exists_publishedAlong
    (h : Run (fun s e s' ↦ StoredStep s e s' ∧ StoredFits s.seen e) .start es s) :
    ∃ L shelves, Persists s L shelves ∧
      List.Forall₂ (PublishedAlong es s) (listedStems s.storage.now) shelves := by
  induction h with
  | start => exact ⟨{}, [], persists_start, .nil⟩
  | @step es s e s' hrun hstep ih =>
    obtain ⟨L, shelves, hpersists, hlisted⟩ := ih
    have hold := hlisted.imp fun _ _ hshelf ↦ hshelf.step hstep.1
    rcases hstep.1.persists hstep.2 hpersists with
      ⟨hm, L', hpersists'⟩ | ⟨L', stem, shelf, hnew, hpersists'⟩
    · exact ⟨L', shelves, hpersists', (listedStems_congr hm).symm ▸ hold⟩
    · refine ⟨L', _, hpersists', ?_⟩
      rw [hnew.2.2]
      have hplain := hrun.mono fun _ _ _ h ↦ h.1
      exact List.rel_append hold (.cons ⟨es, e, [], s, s', rfl, hplain, hstep.1, hnew, .start⟩ .nil)

omit [LibcDecimal] in
/-- `Refresh` leaves `schema.json` alone. -/
theorem not_mem_refreshed (w : IndexWriter) :
    kSchemaFilename ∉ w.nextFiles.map Prod.fst ++ refreshedNames := by
  intro hmem
  rcases List.mem_append.1 hmem with hmem | hmem
  · exact (nextFiles_safe w hmem).1 (by decide)
  · exact absurd hmem (by decide)

/-- The file is settled once the directory was synced behind it. -/
theorem settling_bootstrapSchema {σ : Type} (initial : Option Schema) :
    Settling kSchemaFilename (IndexWriter.bootstrapSchema initial : FileMethod σ Schema) := by
  refine ((still_fileExists _).settling _).bind fun found ↦ ?_
  cases found with
  | true => exact ((still_readFile _).bind fun text ↦ still_done _).settling _
  | false =>
    cases initial with
    | none => exact (still_done _).settling _
    | some schema =>
      intro s S _
      have htrace := trace_writeFile kSchemaFilename schema.toText s S.now
      refine (trace_seq (run_writeFile kSchemaFilename schema.toText s S.now)).symm ▸ ?_
      rw [htrace, Storage.performs_append]
      exact (S.synced_writeTrace kSchemaFilename schema.toText).settled

theorem settling_open {σ : Type} (initial : Option Schema) :
    Settling kSchemaFilename (IndexWriter.open initial : FileMethod σ IndexWriter) := by
  obtain ⟨rest, replay, heq, hrest, hreplay⟩ := open_split (σ := σ) initial
  rw [heq]
  refine ((writesOnly_act (List.nil_subset [])).settling List.not_mem_nil).bind fun _ ↦
    Settling.bind ?_ fun w ↦ (hreplay w).settling (by decide)
  exact (settling_bootstrapSchema initial).bind fun schema ↦ (hrest schema).settling (by decide)

/-- **A settled `schema.json` stays settled**: only a crash can leave anything else of it. -/
theorem StoredStep.settled (hstep : StoredStep s e s') (hready : s.seen.Ready)
    (h : s.storage.Settled kSchemaFilename) : s'.storage.Settled kSchemaFilename := by
  cases hstep with
  | opened _ hret =>
    rw [(returns_seen hret).2]
    exact settling_open _ () _ h
  | added doc rawJson hw hret =>
    rw [(returns_seen hret).2]
    have hattached := fun t ht ↦ (hready _ hw t ht).1
    exact (writes_addDocument hattached doc rawJson _).settled (by decide) h
  | refreshed hw hret =>
    rw [(returns_seen hret).2]
    exact (writes_refresh _ _).settled (not_mem_refreshed _) h
  | closed hw hret =>
    rw [(returns_seen hret).2]
    exact (writesOnly_close [] _ _).settled List.not_mem_nil h
  | openCut | addCut | refreshCut | closeCut | crashed => exact Storage.settled_ofDisk _ _

theorem settled_of_run
    (h : Run (fun s e s' ↦ StoredStep s e s' ∧ StoredFits s.seen e) .start es s) :
    s.storage.Settled kSchemaFilename := by
  induction h with
  | start => exact Storage.settled_ofDisk _ _
  | step hrun hstep ih =>
    obtain ⟨_, _, hpersists⟩ := exists_persists hrun
    exact hstep.1.settled hpersists.ready ih

/-- A crash in a `Refresh` leaves a complete `schema.json` as it was. -/
theorem SchemaComplete.refreshCut (h : SchemaComplete s.storage.now)
    (hsettled : s.storage.Settled kSchemaFilename) (hstep : StoredStep s .refreshCut s') :
    SchemaComplete s'.storage.now := by
  obtain ⟨text, schema, htext, hschema⟩ := h
  cases hstep with
  | @refreshCut w S d hw hstop hd =>
    obtain ⟨acts, hacts, rfl⟩ := stops_stored_iff.1 hstop
    have hother : ∀ a ∈ acts, kSchemaFilename ∉ a.written := fun a ha hmem ↦
      not_mem_refreshed w (writes_refresh w _ a (hacts.subset ha) hmem)
    have hsame : d kSchemaFilename = some text := by
      rw [hd.eq (hsettled.performs hother), Storage.now_performs hother, htext]
    exact ⟨text, schema, hsame, hschema⟩

/-- What a crash in the next `Refresh` may leave: `Open` loads the manifest there was, or the one
that the whole `Refresh` leaves, with all segments, and every segment reads back what was in memory
when it was sealed. -/
def PublishesAtomically (es : List WriterEvent) (s : StoredState) (w : IndexWriter) : Prop :=
  ∃ m shelves m' shelves', Manifest.ofDisk s.storage.now = .ok m ∧
    List.Forall₂ (fun ms shelf ↦ PublishedAlong es s ms.stem shelf) m.segments shelves ∧
    Manifest.ofDisk (run (IndexWriter.refresh w) s.storage.now).2 = .ok m' ∧
    List.Forall₂ (fun ms shelf ↦ PublishedAlong es s ms.stem shelf ∨
      ms.stem = w.nextStem ∧ w.mutableSegment = shelf.segment) m'.segments shelves' ∧
    ∀ s', StoredStep s .refreshCut s' →
      OpenLoads s'.storage.now m shelves ∨ OpenLoads s'.storage.now m' shelves'

/-- **Publication is atomic across crashes.** -/
theorem publication_atomic
    (h : Run (fun s e s' ↦ StoredStep s e s' ∧ StoredFits s.seen e) .start es s)
    (hw : s.writer = some w) (hfits : StoredFits s.seen .refreshCut)
    (hschema : SchemaComplete s.storage.now) : PublishesAtomically es s w := by
  obtain ⟨L, shelves, hpersists, hlisted⟩ := exists_publishedAlong h
  obtain ⟨docs, -, hkeeps⟩ := hpersists.kept.writer w hw
  obtain ⟨m, hm⟩ := hpersists.lists
  obtain ⟨L', shelves', hdone, hcases⟩ := hpersists.refreshed hw (hfits.cut rfl)
    (hfits.encodable w hw (Or.inl rfl)) hkeeps.pending hkeeps.length
  obtain ⟨m', hm'⟩ := hdone.lists
  have hnow : (refreshedState s w).storage.now = (run (IndexWriter.refresh w) s.storage.now).2 :=
    now_performs_trace (IndexWriter.refresh w) s.storage
  refine ⟨m, shelves, m', shelves', hm.1, ?_, hnow ▸ hm'.1, ?_, fun s' hstep ↦ ?_⟩
  · rwa [listedStems_of_ok hm.1, List.forall₂_map_left_iff] at hlisted
  · rw [← List.forall₂_map_left_iff (f := ManifestSegment.stem)
      (R := fun stem shelf ↦ PublishedAlong es s stem shelf ∨
        stem = w.nextStem ∧ w.mutableSegment = shelf.segment), ← listedStems_of_ok hm'.1]
    have hold := hlisted.imp fun stem shelf hshelf ↦
      (Or.inl hshelf : _ ∨ stem = w.nextStem ∧ w.mutableSegment = shelf.segment)
    rcases hcases with ⟨-, rfl, hsame⟩ | ⟨-, -, rfl, -, -, hlisted'⟩
    · rwa [listedStems_congr hsame]
    · rw [hlisted']
      exact List.rel_append hold (.cons (Or.inr ⟨rfl, hkeeps.pending⟩) .nil)
  · have hschema' := hschema.refreshCut (settled_of_run h) hstep
    cases hstep with
    | @refreshCut w₁ S d hw₁ hstop hd =>
      obtain rfl := Option.some.inj (hw.symm.trans hw₁)
      rcases hpersists.refreshCut hw hdone hstop hd with ⟨hsame, L'', hcut⟩ | ⟨hsame, L'', hcut⟩
      · exact Or.inl ((hcut.lists_of_eq hm.1 hsame).openLoads hschema')
      · exact Or.inr ((hcut.lists_of_eq (hnow ▸ hm'.1) hsame).openLoads hschema')

/-! ### Crash points -/

/-- A crash behind the last call of a `Refresh` may lose nothing. -/
theorem exists_refreshCut_whole (h : Run StoredStep .start es s) (hw : s.writer = some w) :
    StoredStep s .refreshCut ⟨none, .ofDisk (run (IndexWriter.refresh w) s.storage.now).2⟩ := by
  have hdone := now_performs_trace (IndexWriter.refresh w) s.storage
  refine .refreshCut hw (stops_stored_iff.2 ⟨_, List.prefix_rfl, rfl⟩) ?_
  rw [← hdone]
  exact (coherent_of_run h).performs.survives

/-- A crash in the first file that a `Refresh` writes may leave anything in it. -/
theorem exists_refreshTorn (h : Run StoredStep .start es s) (hw : s.writer = some w)
    (hopen : w.translog ≠ none) (hpending : w.mutableSegment.docCount ≠ 0) {name bytes : Bytes}
    {files : List (Bytes × Bytes)} (hfiles : w.nextFiles = (name, bytes) :: files)
    (hbytes : bytes ≠ []) (hnone : s.storage.now name = none) (b : Bytes) :
    StoredStep s .refreshCut ⟨none, .ofDisk (s.storage.now.put name b)⟩ := by
  have hcoherent := (coherent_of_run h).survives
  have hwrites : [.create name true, .write name bytes] <+: Storage.filesTrace w.nextFiles := by
    rw [hfiles, Storage.filesTrace, List.flatMap_cons, Storage.writeTrace, if_neg hbytes]
    exact List.prefix_append _ _
  have hprefix : [.create name true, .write name bytes] <+:
      trace (IndexWriter.refresh w) s.storage.now := by
    rcases trace_refresh w s.storage.now with ⟨hidle, -⟩ | heq | ⟨text, rest, heq, -⟩
    · exact (hidle.elim hopen hpending).elim
    · exact heq ▸ hwrites.trans (List.prefix_append _ _)
    · rw [heq, Storage.publicationTrace, Storage.preparation]
      simp only [List.append_assoc]
      exact hwrites.trans (List.prefix_append _ _)
  refine .refreshCut hw (stops_stored_iff.2 ⟨_, hprefix, rfl⟩) fun n ↦ ?_
  by_cases hn : n = name
  · -- The file was created, and none of its bytes are synced.
    subst hn
    refine Or.inr (Or.inr ⟨b, ?_, ?_, Disk.put_self ..⟩)
    · simp [Storage.performs, Storage.perform, hnone]
    · simp [Storage.performs, Storage.perform, hnone]
  · have hmay := hcoherent n
    rw [Disk.put_of_ne _ hn]
    simpa [Storage.May, Storage.performs, Storage.perform, hnone, Disk.put_of_ne, hn] using hmay

/-- A run without a `Refresh` publishes nothing. -/
theorem not_publishedAlong (hes : ∀ e ∈ es, e ≠ .refreshCut ∧ ∀ ok, e ≠ .refreshed ok) :
    ¬PublishedAlong es s stem shelf := by
  rintro ⟨es₁, e, es₂, s₁, s₂, rfl, -, -, ⟨hrefresh, -⟩, -⟩
  obtain ⟨hcut, hrefreshed⟩ := hes e (List.mem_append_right _ List.mem_cons_self)
  rcases hrefresh with rfl | ⟨ok, rfl⟩
  · exact hcut rfl
  · exact hrefreshed ok rfl

end Runs

/-! ### Documents that are too long -/

section TooLong

omit [LibcDecimal]

/-- A reader gives back less than 2^32 bytes of a document. -/
theorem SegmentReader.storedFields_length_lt (r : SegmentReader) (i : ℕ) :
    (r.storedFields i).length < 2 ^ 32 := by
  have hempty : ([] : Bytes).length < 2 ^ 32 := by decide
  rw [SegmentReader.storedFields]
  split
  · exact hempty
  split_ifs
  · exact hempty
  split
  · next len rest _ =>
    split_ifs
    · exact hempty
    · rw [List.length_take]
      exact (Nat.min_le_left ..).trans_lt len.toNat_lt
  · exact hempty

theorem Agrees.blob_length_lt {r : SegmentReader} {seg : MutableSegment} (h : Agrees r seg)
    {b : Bytes} (hb : b ∈ seg.storedBlobs) : b.length < 2 ^ 32 := by
  obtain ⟨i, hi⟩ := List.mem_iff_getElem?.1 hb
  rw [← h.storedFields i b hi]
  exact r.storedFields_length_lt i

/-- A document of blanks, in which there is no token. -/
def blankDoc (n : ℕ) : Document :=
  { id := str "a", fields := SortedMap.empty.insert (str "t") (List.replicate n 32) }

/-- The segment of `blankDoc`. -/
def blankSegment (n : ℕ) : MutableSegment :=
  @MutableSegment.accept .integral (.new sampleSchema) (blankDoc n)

theorem analyze_blanks (n : ℕ) : Analyzer.standard.analyze (List.replicate n 32) = [] := by
  have hnone : (List.replicate n (32 : UInt8)).dropWhile (fun c ↦ !isTokenChar c) = [] := by
    rw [List.dropWhile_eq_nil_iff]
    intro c hc
    rw [(List.mem_replicate.1 hc).2]
    decide
  rw [Analyzer.analyze]
  cases n with
  | zero => rfl
  | succ n =>
    rw [List.length_replicate, standardLoop]
    exact if_pos hnone

/-- The blanks are not indexed. -/
theorem fieldData_blankSegment (n : ℕ) :
    (blankSegment n).fieldData = (blankSegment 0).fieldData := by
  have hblanks : ∀ n, indexField (blankDoc n) 0
      { name := str "t", stored := true, positionDecay := F32.one, storeTokenWeights := true } {} =
        {} := fun n ↦ if_pos (analyze_blanks n)
  have hsplit : ∀ n, (blankSegment n).fieldData =
      [indexField (blankDoc n) 0
        { name := Schema.kIdField, type := .keyword, stored := true, analyzer := str "keyword" } {},
      indexField (blankDoc n) 0
        { name := str "t", stored := true, positionDecay := F32.one,
          storeTokenWeights := true } {}] := fun n ↦ rfl
  rw [hsplit, hsplit, hblanks, hblanks]
  rfl

theorem openable_blankSegment (n : ℕ) : (blankSegment n).Openable := by
  have hempty : (blankSegment 0).Openable :=
    { names := by decide
      terms := by decide +kernel
      tim := by decide +kernel
      termCounts := by decide +kernel }
  have hmapped : (blankSegment n).mappedFields = (blankSegment 0).mappedFields := by
    rw [MutableSegment.mappedFields, fieldData_blankSegment]
    rfl
  exact ⟨hempty.names, fieldData_blankSegment n ▸ hempty.terms, hmapped ▸ hempty.tim,
    hmapped ▸ hempty.termCounts⟩

/-- What is stored is longer than the blanks. -/
theorem exists_blob_blankSegment (n : ℕ) : ∃ b ∈ (blankSegment n).storedBlobs, n ≤ b.length := by
  have hescape : escapeString (List.replicate n 32) = List.replicate n 32 := by
    rw [escapeString, List.flatMap_replicate, show escapeByte 32 = [32] from rfl,
      List.flatten_replicate_singleton]
  have hblob : (blankSegment n).storedBlobs = [123 :: (writeEscapedString Schema.kIdField ++ [58] ++
      [] ++ writeEscapedString (str "a") ++ [44] ++ (writeEscapedString (str "t") ++ [58] ++ [] ++
        writeEscapedString (List.replicate n 32)) ++ [] ++ [] ++ [125])] := by
    rfl
  refine ⟨_, hblob ▸ List.mem_singleton_self _, ?_⟩
  rw [show writeEscapedString (List.replicate n 32) = 34 :: List.replicate n 32 ++ [34] by
    rw [writeEscapedString, hescape]]
  simp only [List.length_append, List.length_cons, List.length_replicate]
  omega

end TooLong

section Samples

omit [LibcDecimal]

theorem schemaComplete_sample {d : Disk}
    (h : d kSchemaFilename = some (@Schema.toText .integral sampleSchema)) :
    @SchemaComplete .integral d := by
  let _ := LibcDecimal.integral
  refine ⟨_, sampleSchema, h, ?_⟩
  rw [Schema.ofText_toText IndexWriter.exact_sampleSchema, if_pos (by decide),
    readBack_sampleSchema]

/-- One document is pending. A crash comes before the first call of the `Refresh`, behind the last
one, or in the first file, which may then hold anything. -/
theorem publication_atomic_sample :
    ∃ (w : IndexWriter) (S : Storage), w.mutableSegment = sampleSegment ∧ S.now = sampleDisk ∧
      @StoredStep .integral ⟨some w, S⟩ .refreshCut ⟨none, .ofDisk S.now⟩ ∧
      (∀ b, @StoredStep .integral ⟨some w, S⟩ .refreshCut
        ⟨none, .ofDisk (S.now.put (w.nextStem ++ kSegPostingsExt) b)⟩) ∧
      @StoredStep .integral ⟨some w, S⟩ .refreshCut
        ⟨none, .ofDisk (run (@IndexWriter.refresh .integral w) S.now).2⟩ ∧
      @PublishesAtomically .integral
        [.opened (some sampleSchema) true, .added sampleDoc [] true] ⟨some w, S⟩ w := by
  let _ := LibcDecimal.integral
  obtain ⟨t, S, hS, hrun, hfits, hok⟩ := stored_sample
  have hplain := hrun.mono fun _ _ _ h ↦ h.1
  have hschema : sampleDisk kSchemaFilename = some sampleSchema.toText := by
    rw [sampleDisk, IndexWriter.logged, Disk.put_of_ne _ (by decide), touched,
      Disk.put_of_ne _ (by decide), Disk.put_self]
  have hnone : S.now (makeSegmentStem 1 0 ++ kSegPostingsExt) = none := by
    rw [hS, sampleDisk, IndexWriter.logged, Disk.put_of_ne _ (by decide), touched,
      Disk.put_of_ne _ (by decide), Disk.put_of_ne _ (by decide)]
    rfl
  refine ⟨sampleWriter t, S, rfl, hS, exists_refreshCut hplain rfl, fun b ↦ ?_,
    exists_refreshCut_whole hplain rfl,
    publication_atomic hrun rfl (hfits _) (hS ▸ schemaComplete_sample hschema)⟩
  have hbytes : (sealBuffers sampleSegment (makeSegmentStem 1 0)).2.doc ≠ [] := by decide +kernel
  exact exists_refreshTorn hplain rfl (Option.some_ne_none t) sampleSegment_ne_zero rfl hbytes
    hnone b

/-- The blanks are accepted. -/
theorem writer_blanks (n : ℕ) : ∃ (w : IndexWriter) (d : Disk), w.mutableSegment = blankSegment n ∧
    w.translog ≠ none ∧ w.sealedSegments = [] ∧ WriterState.Ready ⟨some w, d⟩ ∧
    d kSchemaFilename = some (@Schema.toText .integral sampleSchema) ∧
    Run (fun s e s' ↦ @WriterStep .integral Faults.none s e s' ∧ StoredFits s e ∧ e.Returned) .start
      [.opened (some sampleSchema) true, .added (blankDoc n) [] true] ⟨some w, d⟩ := by
  let _ := LibcDecimal.integral
  have hid : (blankDoc n).id ≠ [] := List.cons_ne_nil _ _
  have hadd : (MutableSegment.new sampleSchema).addDocument (blankDoc n) =
      .ok (blankSegment n, 0) := by
    rw [MutableSegment.addDocument, if_neg hid, if_neg (by decide)]
    rfl
  obtain ⟨t, ht, hopen⟩ := step_opened Faults.none sampleSchema
  have hready := (hopen.move WriterState.ready_start).ready WriterState.ready_start
  obtain ⟨t', -, hadded⟩ := step_added Faults.none rfl hready rfl ht hadd
  refine ⟨_, _, rfl, Option.some_ne_none t', rfl, (hadded.move hready).ready hready, ?_,
    (Run.single ⟨hopen, storedFits_of_ne (by simp) (by simp), trivial⟩).step
      ⟨hadded, storedFits_of_ne (by simp) (by simp), trivial⟩⟩
  show IndexWriter.logged (touched _) _ kSchemaFilename = _
  rw [IndexWriter.logged, Disk.put_of_ne _ (by decide), touched, Disk.put_of_ne _ (by decide),
    Disk.put_self]

/-- A whole `Refresh` lists their segment. -/
theorem stored_blanks (n : ℕ) :
    ∃ (w : IndexWriter) (S : Storage), w.mutableSegment = blankSegment n ∧
      S.now kSchemaFilename = some (@Schema.toText .integral sampleSchema) ∧
      Run (@StoredStep .integral) .start
        [.opened (some sampleSchema) true, .added (blankDoc n) [] true] ⟨some w, S⟩ ∧
      ∃ m ms, @Manifest.ofDisk .integral (run (@IndexWriter.refresh .integral w) S.now).2 = .ok m ∧
        m.segments = [ms] := by
  let _ := LibcDecimal.integral
  obtain ⟨w, d, hseg, hlog, hsealed, hready, hschema, hrun⟩ := writer_blanks n
  obtain ⟨S, rfl, hrun⟩ := exists_storedRun (S := .ofDisk IndexWriter.noFiles) rfl hrun
  obtain ⟨L, shelves, hpersists⟩ := exists_persists hrun
  have hwf : (blankSegment n).WellFormed := by
    rw [blankSegment, ← MutableSegment.build_nil, ← MutableSegment.build_append_singleton]
    exact MutableSegment.build_wellFormed sampleSchema (by decide : 1 ≤ kNoMoreDocs)
  have hopens : ∀ d, AgreeOff (w.nextFiles.map Prod.fst) S.now d → Holds w.nextFiles d →
      ∃ r, SegmentReader.openDisk d w.nextStem = .ok r := by
    intro d _ hd
    rw [IndexWriter.nextFiles, hseg] at hd
    exact ⟨_, openDisk_sealed hwf (openable_blankSegment n) hd (by rintro ⟨⟩)⟩
  have hpending : w.mutableSegment.docCount ≠ 0 := by
    rw [hseg]
    exact Nat.succ_ne_zero 0
  obtain ⟨r, t, d₁, d₂, hs, hp, -, hstep⟩ :=
    step_refreshed Faults.none rfl hready hlog hpending hopens
  have hm := (d₂.put_of_ne (by decide : kManifestName ≠ kTranslogName) []).trans hp.manifest
  have hdone : (run (IndexWriter.refresh w) S.now).2 = d₂.put kTranslogName [] :=
    (run_of_refreshed hstep rfl).2
  rw [← hdone] at hm
  refine ⟨w, S, hseg, hschema, hrun.mono fun _ _ _ h ↦ h.1, _, ⟨r.stem, r.docCount⟩,
    (ofDisk_nextManifest (hpersists.kept.stems.writer w rfl) hs hm).1, ?_⟩
  rw [IndexWriter.nextManifest, hsealed]
  rfl

/-- A document of 2^32 blanks is published, and no reader gives it back. -/
theorem not_publication_atomic :
    ¬∀ (es : List WriterEvent) (s : StoredState) (w : IndexWriter),
      Run (@StoredStep .integral) .start es s → s.writer = some w →
        @SchemaComplete .integral s.storage.now → @PublishesAtomically .integral es s w := by
  let _ := LibcDecimal.integral
  intro hall
  -- The length stays a variable: it is never computed with.
  obtain ⟨n, hn⟩ : ∃ n : ℕ, 2 ^ 32 ≤ n := ⟨2 ^ 32, le_rfl⟩
  obtain ⟨w, S, hseg, hschema, hrun, m₁, ms, hm₁, hsegs⟩ := stored_blanks n
  have hnever : ∀ {stem shelf}, ¬PublishedAlong [.opened (some sampleSchema) true,
      .added (blankDoc n) [] true] ⟨some w, S⟩ stem shelf := not_publishedAlong (by simp)
  obtain ⟨m, shelves, m', shelves', -, hold, -, hnew, hcrash⟩ :=
    hall _ _ w hrun rfl (schemaComplete_sample hschema)
  -- The crash comes behind the last call, and loses nothing.
  rcases hcrash _ (exists_refreshCut_whole hrun rfl) with hload | hload <;>
    obtain rfl := Except.ok.inj (hload.lists.1.symm.trans hm₁)
  · rw [hsegs] at hold
    cases hold with
    | cons hms => exact hnever hms
  · have hread := hload.lists.2
    rw [hsegs] at hnew hread
    cases hnew with
    | cons hms =>
      obtain ⟨-, hshelf⟩ := hms.resolve_left hnever
      cases hread with
      | cons hread =>
        obtain ⟨r, -, -, hagrees⟩ := hread
        obtain ⟨b, hb, hlen⟩ := exists_blob_blankSegment n
        rw [← hshelf, hseg] at hagrees
        exact absurd (hagrees.blob_length_lt hb) (by omega)

end Samples

end Spp.Index
