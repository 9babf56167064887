import SearchPlusPlus.Index.IndexWriter

/-!
# Opening an index

What `IndexWriter::Open` makes of a directory when no call fails (`IndexWriter.wp_open`): the
writer it returns is a function of the disk, `IndexWriter.ofDisk`, and a crash on the way leaves a
part of `schema.json` at most.

Two consequences. A schema comes back from its own file exactly when it has an `_id` field
(`reopens_iff`): the first `Open` does not ask for one, every later one does. And an index whose
first `Open` was cut off in the middle of `schema.json` can never be opened
(`reopens_after_crash_iff`).
-/

namespace Spp.Index

open Json Store

variable [LibcDecimal]

/-- How the schema is found: in its file, or given and written there. -/
inductive SchemaFound (initial : Option Schema) (d : Disk) : Expected Schema → Disk → Prop
  | loaded {text : Bytes} (h : d kSchemaFilename = some text) :
      SchemaFound initial d (Schema.ofText text) d
  | written {schema : Schema} (h : d kSchemaFilename = none) (hgiven : initial = some schema) :
      SchemaFound initial d (.ok schema) (d.put kSchemaFilename schema.toText)
  | missing (h : d kSchemaFilename = none) (hgiven : initial = none) (e : Status) :
      SchemaFound initial d (.error e) d

theorem SchemaFound.unique {initial : Option Schema} {d d₁ d₂ : Disk} {schema : Schema}
    {r : Expected Schema} (h : SchemaFound initial d (.ok schema) d₁)
    (h' : SchemaFound initial d r d₂) : r = .ok schema ∧ d₂ = d₁ := by
  generalize hr : Except.ok schema = r₁ at h
  cases h with
  | @loaded text h =>
    cases h' with
    | @loaded text' h₂ =>
      cases h.symm.trans h₂
      exact ⟨rfl, rfl⟩
    | written h₂ | missing h₂ => cases h.symm.trans h₂
  | @written s h hgiven =>
    cases hr
    cases h' with
    | loaded h₂ => cases h.symm.trans h₂
    | written h₂ hgiven₂ =>
      cases hgiven.symm.trans hgiven₂
      exact ⟨rfl, rfl⟩
    | missing h₂ hgiven₂ => cases hgiven.symm.trans hgiven₂
  | missing => cases hr

/-- The disk left is one that a crash on the way could leave. -/
theorem SchemaFound.crash {initial : Option Schema} {d d₁ : Disk} {r : Expected Schema}
    {C : Disk → Prop} (h : SchemaFound initial d r d₁) (hC : C d)
    (hcut : ∀ schema x, d kSchemaFilename = none → initial = some schema →
      x <+: schema.toText → C (d.put kSchemaFilename x)) : C d₁ := by
  cases h with
  | loaded | missing => exact hC
  | written h hgiven => exact hcut _ _ h hgiven List.prefix_rfl

/-- The disk once the translog was opened: its file exists. -/
def touched (d : Disk) : Disk := d.put kTranslogName (d.content kTranslogName)

namespace IndexWriter

/-- The writer of a disk under a schema, before the replay. -/
def ofManifest (d : Disk) (schema : Schema) (t : Translog) : Expected IndexWriter := do
  let manifest ← Manifest.ofDisk d
  let sealedSegments ← manifest.segments.mapM fun ms ↦ SegmentReader.openDisk d ms.stem
  pure
    { schema
      mutableSegment := .new schema
      translog := some t
      sealedSegments
      currentGen := manifest.generation
      nextSegmentId := 0
      publishedReader := ⟨schema, sealedSegments⟩ }

/-- The writer of a disk under a schema. -/
def ofDisk (d : Disk) (schema : Schema) (t : Translog) : Expected IndexWriter := do
  let w ← ofManifest d schema t
  let seg ← replayRecords (records (d.content kTranslogName)) w.mutableSegment
  pure { w with mutableSegment := seg }

theorem ofDisk_eq_ok {d : Disk} {schema : Schema} {t : Translog} {w : IndexWriter}
    (h : ofDisk d schema t = .ok w) : ∃ w₁, ofManifest d schema t = .ok w₁ ∧
      replayRecords (records (d.content kTranslogName)) w₁.mutableSegment =
        .ok w.mutableSegment := by
  obtain ⟨w₁, hw₁, h⟩ := bind_eq_ok.1 h
  obtain ⟨seg, hseg, h⟩ := bind_eq_ok.1 h
  cases h
  exact ⟨w₁, hw₁, hseg⟩

theorem mutableSegment_ofManifest {d : Disk} {schema : Schema} {t : Translog} {w : IndexWriter}
    (h : ofManifest d schema t = .ok w) : w.mutableSegment = .new schema := by
  obtain ⟨manifest, -, h⟩ := bind_eq_ok.1 h
  obtain ⟨segs, -, h⟩ := bind_eq_ok.1 h
  cases h
  rfl

section Rules

variable {F : Faults} {σ : Type} {s : σ} {d : Disk} {C : Disk → Prop} {initial : Option Schema}

omit [LibcDecimal] in
/-- The translog is no file of a segment. -/
theorem ne_kTranslogName (stem ext : Bytes) (h : ¬ext <:+ kTranslogName) :
    stem ++ ext ≠ kTranslogName :=
  fun heq ↦ h ⟨stem, heq⟩

omit [LibcDecimal] in
theorem wp_openSegments (hF : F.QuietBut kTranslogName) (hC : C d) (l : List ManifestSegment)
    {Q : Expected (List SegmentReader) → σ → Disk → Prop}
    (hdone : Q (l.mapM fun ms ↦ SegmentReader.openDisk d ms.stem) s d) :
    (openSegments l).wp (files F) s Q C d := by
  induction l generalizing Q with
  | nil => exact ⟨hdone, hC⟩
  | cons ms l ih =>
    rw [List.mapM_cons] at hdone
    refine Method.wp_bind.2 (Spp.Index.wp_open ms.stem hC ?_ ?_ ?_)
    · cases h : SegmentReader.openDisk d ms.stem with
      | error e =>
        rw [h] at hdone
        exact hdone
      | ok seg =>
        rw [h] at hdone
        refine Method.seq_ok.2 (Method.wp_bind.2 (ih ?_))
        cases h' : l.mapM fun ms ↦ SegmentReader.openDisk d ms.stem with
        | error e =>
          rw [h'] at hdone
          exact hdone
        | ok segs =>
          rw [h'] at hdone
          exact ⟨hdone, hC⟩
    · rintro ⟨name, hname, hf⟩
      obtain ⟨ext, hext, rfl⟩ := List.mem_map.1 hname
      have hno : ∀ ext ∈ [kSegInfoExt, kSegTermsExt, kSegPostingsExt, kSegStoredExt,
          kSegStoredIdxExt], ¬ext <:+ kTranslogName := by decide
      exact absurd (FileOp.load.inj (hF _ hf)) (ne_kTranslogName ms.stem ext (hno ext hext))
    · intro hf
      exact absurd (FileOp.load.inj (hF _ hf)) (ne_kTranslogName ms.stem _ (by decide))

omit [LibcDecimal] in
/-- `Close` leaves the disk alone. -/
theorem wp_close {w : IndexWriter} {Q : Expected Unit → IndexWriter → Disk → Prop} (hC : C d)
    (hdone : ∀ r w', Q r w' d) : close.wp (files F) w Q C d := by
  refine Method.wp_bind.2 ⟨Method.seq_ok.2 ?_, hC⟩
  cases w.translog with
  | none => exact ⟨hdone _ _, hC⟩
  | some t =>
    refine Method.wp_bind.2 (Method.wp_owning.2 (Translog.wp_close hC fun r ↦ ?_))
    exact ⟨hdone _ _, hC⟩

/-- A crash while the schema is found leaves a part of its file at most. -/
theorem wp_bootstrapSchema (hF : F.QuietBut kTranslogName) {Q : Expected Schema → σ → Disk → Prop}
    (hC : C d) (hcut : ∀ schema x, d kSchemaFilename = none → initial = some schema →
      x <+: schema.toText → C (d.put kSchemaFilename x))
    (hdone : ∀ r d', SchemaFound initial d r d' → Q r s d') :
    (bootstrapSchema initial).wp (files F) s Q C d := by
  refine Method.wp_bind.2 (Directory.wp_fileExists hC ?_ fun hf ↦
    absurd hf (hF.not_fails (by decide)))
  cases h : d kSchemaFilename with
  | some text =>
    refine Method.seq_ok.2 (Method.wp_bind.2 (Directory.wp_readFile hC ?_ fun hf ↦
      absurd hf (hF.not_fails (by decide))))
    rw [loadReply_of_some h]
    exact ⟨hdone _ _ (.loaded h), hC⟩
  | none =>
    rw [Method.seq_ok]
    cases initial with
    | none => exact ⟨hdone _ _ (.missing h rfl _), hC⟩
    | some schema =>
      have hput := fun x ↦ hcut schema x h rfl
      refine Method.wp_bind.2 (wp_writeFile hC hput ?_ ?_)
      · have hwhole := hput _ List.prefix_rfl
        refine Method.wp_bind.2 (wp_act_still rfl (fun _ ↦ id) hwhole ?_ fun hf ↦
          absurd hf (hF.not_fails (by decide)))
        exact ⟨hdone _ _ (.written h rfl), hwhole⟩
      · rintro ⟨a, -, hf⟩
        exact absurd hf (hF.not_fails FileOp.noConfusion)

/-- `BootstrapInitial` without failing calls; it does not read the translog. -/
theorem wp_bootstrapInitial (hF : F.QuietBut kTranslogName)
    {Q : Expected IndexWriter → σ → Disk → Prop} (hC : C d)
    (hcut : ∀ schema x, d kSchemaFilename = none → initial = some schema →
      x <+: schema.toText → C (d.put kSchemaFilename x))
    (htouch : ∀ r d₁, SchemaFound initial d r d₁ → C (touched d₁))
    (hdone : ∀ schema d₁ (t : Translog) w, SchemaFound initial d (.ok schema) d₁ → t.Usable →
      ofManifest d₁ schema t = .ok w → Q (.ok w) s (touched d₁))
    (hfail : (∀ schema d₁ t w, SchemaFound initial d (.ok schema) d₁ →
      ofManifest d₁ schema t ≠ .ok w) → ∀ e d', C d' → Q (.error e) s d') :
    (bootstrapInitial initial).wp (files F) s Q C d := by
  refine Method.wp_bind.2 (wp_bootstrapSchema hF hC hcut ?_)
  intro r d₁ hfound
  have hC₁ : C d₁ := hfound.crash hC hcut
  cases r with
  | error e =>
    refine hfail (fun schema d₁' t w hok ↦ ?_) e d₁ hC₁
    cases (hok.unique hfound).1
  | ok schema =>
    have hnone : (∀ t w, ofManifest d₁ schema t ≠ .ok w) → ∀ e d', C d' → Q (.error e) s d' := by
      refine fun h ↦ hfail fun schema' d₁' t w hok ↦ ?_
      obtain ⟨hschema, rfl⟩ := hok.unique hfound
      cases hschema
      exact h t w
    refine Method.seq_ok.2 (Method.wp_bind.2 (wp_loadManifest hC₁ ?_
      (fun hf ↦ absurd hf (hF.not_fails (by decide))) fun hf ↦
        absurd hf (hF.not_fails (by decide))))
    cases hm : Manifest.ofDisk d₁ with
    | error e =>
      refine hnone (fun t w h ↦ ?_) e d₁ hC₁
      obtain ⟨_, h, -⟩ := bind_eq_ok.1 h
      cases hm.symm.trans h
    | ok manifest =>
      refine Method.seq_ok.2 (Method.wp_bind.2 (wp_openSegments hF hC₁ _ ?_))
      cases hs : manifest.segments.mapM fun ms ↦ SegmentReader.openDisk d₁ ms.stem with
      | error e =>
        refine hnone (fun t w h ↦ ?_) e d₁ hC₁
        obtain ⟨_, h, h'⟩ := bind_eq_ok.1 h
        cases hm.symm.trans h
        obtain ⟨_, h', -⟩ := bind_eq_ok.1 h'
        cases hs.symm.trans h'
      | ok segs =>
        refine Method.seq_ok.2 (Method.wp_bind.2 (Translog.wp_open hC₁ (htouch _ _ hfound) ?_
          fun hf ↦ absurd hf (hF.not_fails (by decide))))
        refine fun t ht ↦ ⟨hdone schema d₁ t _ hfound ht ?_, htouch _ _ hfound⟩
        exact bind_eq_ok.2 ⟨_, hm, bind_eq_ok.2 ⟨_, hs, rfl⟩⟩

/-- **`Open`** without failing calls: the writer is that of the disk, or there is none. -/
theorem wp_open (hF : F.Quiet) {Q : Expected IndexWriter → σ → Disk → Prop} (hC : C d)
    (hcut : ∀ schema x, d kSchemaFilename = none → initial = some schema →
      x <+: schema.toText → C (d.put kSchemaFilename x))
    (htouch : ∀ r d₁, SchemaFound initial d r d₁ → C (touched d₁))
    (hdone : ∀ schema d₁ (t : Translog) w, SchemaFound initial d (.ok schema) d₁ → t.Usable →
      ofDisk d₁ schema t = .ok w → Q (.ok w) s (touched d₁))
    (hfail : (∀ schema d₁ t w, SchemaFound initial d (.ok schema) d₁ →
      ofDisk d₁ schema t ≠ .ok w) → ∀ e d', C d' → Q (.error e) s d') :
    (IndexWriter.open initial).wp (files F) s Q C d := by
  refine Method.wp_bind.2 (wp_act_still rfl (fun _ ↦ id) hC ?_ fun hf ↦ absurd hf (hF _))
  refine Method.seq_ok.2 (Method.wp_bind.2 (wp_bootstrapInitial (hF.quietBut _) hC
    hcut htouch ?_ ?_))
  · intro schema d₁ t w hfound ht hw
    have hC₁ := htouch _ _ hfound
    -- Opening the translog did not change what it holds.
    have hcontent : (touched d₁).content kTranslogName = d₁.content kTranslogName :=
      Disk.content_put ..
    refine Method.seq_ok.2 (Method.wp_bind.2 (Method.wp_owning.2 (Method.wp_bind.2 ⟨?_, hC₁⟩)))
    refine Method.seq_ok.2 (Method.wp_bind.2 (Translog.wp_replay hC₁ ?_ fun hf ↦ absurd hf (hF _)))
    rw [hcontent, Method.seq_ok]
    cases hr : replayRecords (records (d₁.content kTranslogName)) w.mutableSegment with
    | error e =>
      -- The writer is destroyed, which closes it.
      have hnone : ∀ e d', C d' → Q (.error e) s d' := by
        refine hfail fun schema' d₁' t' w' hfound' hw' ↦ ?_
        obtain ⟨hschema, rfl⟩ := hfound'.unique hfound
        cases hschema
        obtain ⟨w₁, hw₁, hrest⟩ := ofDisk_eq_ok hw'
        rw [mutableSegment_ofManifest hw₁] at hrest
        rw [mutableSegment_ofManifest hw, hrest] at hr
        cases hr
      refine ⟨Method.wp_bind.2 (Method.wp_owning.2 (wp_close hC₁ fun _ _ ↦ ?_)), hC₁⟩
      exact ⟨hnone e _ hC₁, hC₁⟩
    | ok seg =>
      refine ⟨⟨?_, hC₁⟩, hC₁⟩
      exact hdone schema d₁ t _ hfound ht (bind_eq_ok.2 ⟨_, hw, bind_eq_ok.2 ⟨_, hr, rfl⟩⟩)
  · refine fun h ↦ hfail fun schema d₁ t w hfound hw ↦ ?_
    obtain ⟨w₁, hw₁, -⟩ := ofDisk_eq_ok hw
    exact h schema d₁ t w₁ hfound hw₁

/-! ### An index without documents -/

/-- Nothing was published or logged yet. -/
structure Unused (d : Disk) : Prop where
  manifest : d kManifestName = none
  log : d.content kTranslogName = []

/-- The writer of an index without documents. -/
def fresh (schema : Schema) (t : Translog) : IndexWriter where
  schema := schema
  mutableSegment := .new schema
  translog := some t
  sealedSegments := []
  currentGen := 0
  nextSegmentId := 0
  publishedReader := ⟨schema, []⟩

theorem ofDisk_of_unused (h : Unused d) (schema : Schema) (t : Translog) :
    ofDisk d schema t = .ok (fresh schema t) := by
  have hm : Manifest.ofDisk d = .ok {} := by rw [Manifest.ofDisk, h.manifest]
  refine bind_eq_ok.2 ⟨{ fresh schema t with mutableSegment := .new schema }, ?_, ?_⟩
  · exact bind_eq_ok.2 ⟨_, hm, rfl⟩
  · rw [h.log]
    rfl

omit [LibcDecimal] in
theorem Unused.put_schema (h : Unused d) (x : Bytes) : Unused (d.put kSchemaFilename x) where
  manifest := by rw [d.put_of_ne (by decide), h.manifest]
  log := by rw [Disk.content, d.put_of_ne (by decide), ← Disk.content, h.log]

theorem Unused.of_found {d₁ : Disk} {r : Expected Schema} (hd : Unused d)
    (h : SchemaFound initial d r d₁) : Unused d₁ :=
  h.crash hd fun _ x _ _ _ ↦ hd.put_schema x

omit [LibcDecimal] in
theorem Unused.touched (h : Unused d) : Unused (touched d) where
  manifest := by rw [Spp.Index.touched, Disk.put_of_ne d (by decide), h.manifest]
  log := by rw [Spp.Index.touched, Disk.content_put, h.log]

/-- **`Open`** on an index without documents comes down to finding the schema. -/
theorem wp_open_unused (hF : F.Quiet) (hd : Unused d) {Q : Expected IndexWriter → σ → Disk → Prop}
    (hC : C d)
    (hcut : ∀ schema x, d kSchemaFilename = none → initial = some schema →
      x <+: schema.toText → C (d.put kSchemaFilename x))
    (htouch : ∀ r d₁, SchemaFound initial d r d₁ → C (Spp.Index.touched d₁))
    (hdone : ∀ schema d₁ (t : Translog), SchemaFound initial d (.ok schema) d₁ → t.Usable →
      Q (.ok (fresh schema t)) s (Spp.Index.touched d₁))
    (hfail : (∀ schema d₁, ¬SchemaFound initial d (.ok schema) d₁) →
      ∀ e d', C d' → Q (.error e) s d') :
    (IndexWriter.open initial).wp (files F) s Q C d := by
  refine wp_open hF hC hcut htouch ?_ ?_
  · intro schema d₁ t w hfound ht hw
    rw [ofDisk_of_unused (hd.of_found hfound)] at hw
    cases hw
    exact hdone schema d₁ t hfound ht
  · refine fun h ↦ hfail fun schema d₁ hfound ↦ ?_
    exact h schema d₁ ⟨none, 0⟩ _ hfound (ofDisk_of_unused (hd.of_found hfound) _ _)

end Rules

/-! ### Reopening -/

/-- An empty directory. -/
def noFiles : Disk := fun _ ↦ none

omit [LibcDecimal] in
theorem unused_noFiles : Unused noFiles := ⟨rfl, rfl⟩

/-- The result of `Open` without failures and crashes. -/
def opened (initial : Option Schema) (d : Disk) : Expected IndexWriter :=
  (run (IndexWriter.open initial ()) d).1.1

theorem opened_ok {d d₁ : Disk} {initial : Option Schema} {schema : Schema} (hd : Unused d)
    (hfound : SchemaFound initial d (.ok schema) d₁) :
    ∃ t, opened initial d = .ok (fresh schema t) ∧ t.Usable ∧
      (run (IndexWriter.open initial ()) d).2 = touched d₁ := by
  have hwp : (IndexWriter.open initial).wp (files Faults.none) ()
      (fun r _ d' ↦ ∃ t, r = .ok (fresh schema t) ∧ t.Usable ∧ d' = touched d₁)
      (fun _ ↦ True) d := by
    refine wp_open_unused (fun _ h ↦ h) hd trivial (fun _ _ _ _ _ ↦ trivial)
      (fun _ _ _ ↦ trivial) ?_ ?_
    · intro schema' d₁' t hfound' ht
      obtain ⟨hschema, rfl⟩ := hfound.unique hfound'
      cases hschema
      exact ⟨t, rfl, ht, rfl⟩
    · exact fun h ↦ absurd hfound (h _ _)
  exact (Method.wp_iff.1 hwp).1 _ _ _ (returns_run Faults.none _ d)

theorem opened_error {d : Disk} {initial : Option Schema} (hd : Unused d)
    (hmissing : ∀ schema d₁, ¬SchemaFound initial d (.ok schema) d₁) :
    ∃ e, opened initial d = .error e := by
  have hwp : (IndexWriter.open initial).wp (files Faults.none) ()
      (fun r _ _ ↦ ∃ e, r = .error e) (fun _ ↦ True) d := by
    refine wp_open_unused (fun _ h ↦ h) hd trivial (fun _ _ _ _ _ ↦ trivial)
      (fun _ _ _ ↦ trivial) (fun schema d₁ _ hfound _ ↦ absurd hfound (hmissing _ _)) ?_
    exact fun _ e _ _ ↦ ⟨e, rfl⟩
  exact (Method.wp_iff.1 hwp).1 _ _ _ (returns_run Faults.none _ d)

/-- Reading the schema file decides whether such an index opens. -/
theorem opened_same_iff {d : Disk} {initial : Option Schema} {text : Bytes} {schema : Schema}
    (hd : Unused d) (htext : d kSchemaFilename = some text) :
    (∃ w, opened initial d = .ok w ∧ schema.Same w.schema) ↔
      ∃ s, Schema.ofText text = .ok s ∧ schema.Same s := by
  have hloaded : SchemaFound initial d (Schema.ofText text) d := .loaded htext
  cases h : Schema.ofText text with
  | error e =>
    rw [h] at hloaded
    obtain ⟨e', he'⟩ := opened_error hd fun s d₁ hok ↦ by
      cases (hok.unique hloaded).1
    rw [he']
    constructor
    · rintro ⟨_, ⟨⟩, _⟩
    · rintro ⟨_, ⟨⟩, _⟩
  | ok s =>
    rw [h] at hloaded
    obtain ⟨t, ht, -⟩ := opened_ok hd hloaded
    rw [ht]
    constructor
    · rintro ⟨_, ⟨⟩, hs⟩
      exact ⟨s, rfl, hs⟩
    · rintro ⟨_, ⟨⟩, hs⟩
      exact ⟨_, rfl, hs⟩

/-- `Open`, `Close`, and `Open` without a schema. -/
def openCloseOpen (schema : Schema) : FileM IndexWriter := do
  let w ← IndexWriter.open (some schema)
  let _ ← Method.owning w close
  IndexWriter.open none

/-- The result of `openCloseOpen` on an empty directory. -/
def reopened (schema : Schema) : Expected IndexWriter := (run (openCloseOpen schema ()) noFiles).1.1

/-- What is reopened is what the written schema is read back as. -/
theorem reopened_same_iff {schema : Schema} {u : Schema} (h : ∀ f ∈ schema.fields, f.Exact) :
    (∃ w, reopened schema = .ok w ∧ u.Same w.schema) ↔
      schema.hasField Schema.kIdField = true ∧ u.Same schema.readBack := by
  have hwritten := SchemaFound.written (d := noFiles) rfl (rfl : some schema = some schema)
  obtain ⟨t, hopen, -, hdisk⟩ := opened_ok unused_noFiles hwritten
  set d₁ := noFiles.put kSchemaFilename schema.toText with hd₁
  have hunused : Unused (touched d₁) := (unused_noFiles.put_schema _).touched
  have htext : touched d₁ kSchemaFilename = some schema.toText := by
    rw [touched, Disk.put_of_ne d₁ (by decide), hd₁, Disk.put_self]
  -- `Close` changes no file, so the second `Open` sees the files of the first.
  have hfirst : run (IndexWriter.open (some schema) ()) noFiles =
      ((.ok (fresh schema t), ()), touched d₁) := Prod.ext (Prod.ext hopen rfl) hdisk
  have hclose : (run (close (fresh schema t)) (touched d₁)).2 = touched d₁ := by
    have hwp : close.wp (files Faults.none) (fresh schema t) (fun _ _ d' ↦ d' = touched d₁)
        (fun _ ↦ True) (touched d₁) := wp_close trivial fun _ _ ↦ rfl
    exact (Method.wp_iff.1 hwp).1 _ _ _ (returns_run Faults.none _ _)
  have hreopened : reopened schema = opened none (touched d₁) := by
    have howning : run (Method.owning (fresh schema t) close ()) (touched d₁) =
        ((.ok (run (close (fresh schema t)) (touched d₁)).1, ()), touched d₁) := by
      refine (run_bind _ _ _).trans ?_
      rw [hclose]
      rfl
    rw [reopened, openCloseOpen, run_seq hfirst, run_seq howning]
    rfl
  rw [hreopened, opened_same_iff hunused htext, Schema.ofText_toText h]
  split
  · next hid =>
    constructor
    · rintro ⟨_, ⟨⟩, hs⟩
      exact ⟨hid, hs⟩
    · exact fun hs ↦ ⟨_, rfl, hs.2⟩
  · next hid =>
    constructor
    · rintro ⟨_, ⟨⟩, _⟩
    · exact fun hs ↦ absurd hs.1 hid

/-- **A schema can be reopened exactly when it has an `_id` field**, though `Open` accepts any. -/
theorem reopens_iff {schema : Schema} (hexact : ∀ f ∈ schema.fields, f.Exact)
    (hfinite : ∀ f ∈ schema.fields, f.Finite) :
    (∃ w, opened (some schema) noFiles = .ok w) ∧
      ((∃ w, reopened schema = .ok w ∧ schema.Same w.schema) ↔
        schema.hasField Schema.kIdField = true) := by
  obtain ⟨t, hopen, -⟩ := opened_ok unused_noFiles (SchemaFound.written (d := noFiles) rfl rfl)
  refine ⟨⟨_, hopen⟩, ?_⟩
  rw [reopened_same_iff hexact]
  exact ⟨fun h ↦ h.1, fun h ↦ ⟨h, (Schema.same_readBack_iff hexact).2 hfinite⟩⟩

section Samples

omit [LibcDecimal]

theorem exact_integral {f : FieldMapping} (hboost : f.boost = F32.one)
    (hdecay : f.positionDecay = F32.zero ∨ f.positionDecay = F32.one) :
    @FieldMapping.Exact .integral f := by
  refine @FieldMapping.Exact.mk .integral f (fun _ ↦ hboost ▸ readsBack_one) fun _ ↦ ?_
  rcases hdecay with h | h
  · exact h ▸ readsBack_zero
  · exact h ▸ readsBack_one

theorem exact_sampleSchema : ∀ f ∈ sampleSchema.fields, @FieldMapping.Exact .integral f := by
  intro f hf
  simp only [sampleSchema, List.mem_cons, List.not_mem_nil, or_false] at hf
  rcases hf with rfl | rfl
  · exact exact_integral rfl (.inl rfl)
  · exact exact_integral rfl (.inr rfl)

theorem reopens_iff_sample :
    (∃ w, @opened .integral (some sampleSchema) noFiles = .ok w) ∧
      ((∃ w, @reopened .integral sampleSchema = .ok w ∧ sampleSchema.Same w.schema) ↔
        sampleSchema.hasField Schema.kIdField = true) :=
  @reopens_iff .integral sampleSchema exact_sampleSchema (by decide +kernel)

/-- A schema with one text field. -/
def titleSchema : Schema where
  fields := [{ name := str "title" }]
  name_ne_nil := by decide
  nodup_names := by decide
  length_le := by decide

/-- `Open` accepts the schema and cannot read it back. -/
theorem not_reopens_titleSchema :
    (∃ w, @opened .integral (some titleSchema) noFiles = .ok w) ∧
      ¬∃ w, @reopened .integral titleSchema = .ok w ∧ titleSchema.Same w.schema := by
  have hexact : ∀ f ∈ titleSchema.fields, @FieldMapping.Exact .integral f := by
    intro f hf
    simp only [titleSchema, List.mem_cons, List.not_mem_nil, or_false] at hf
    exact hf ▸ exact_integral rfl (.inl rfl)
  obtain ⟨t, hopen, -⟩ := @opened_ok .integral noFiles _ (some titleSchema) titleSchema
    unused_noFiles (@SchemaFound.written .integral _ noFiles titleSchema rfl rfl)
  refine ⟨⟨_, hopen⟩, fun h ↦ ?_⟩
  obtain ⟨hid, -⟩ := (@reopened_same_iff .integral _ _ hexact).1 h
  exact absurd hid (by decide)

end Samples

/-! ### Crashes while an index is created -/

/-- What a crash in the first `Open` leaves: a part of `schema.json`, and nothing else that
matters. -/
theorem stops_open {F : Faults} (hF : F.Quiet) {schema : Schema} {d : Disk}
    (h : (IndexWriter.open (some schema) ()).Stops (files F) noFiles d) :
    Unused d ∧ (d kSchemaFilename = none ∨
      ∃ x, x <+: schema.toText ∧ d kSchemaFilename = some x) := by
  have hput : ∀ x, x <+: schema.toText → Unused (noFiles.put kSchemaFilename x) ∧
      (noFiles.put kSchemaFilename x kSchemaFilename = none ∨ ∃ y, y <+: schema.toText ∧
        noFiles.put kSchemaFilename x kSchemaFilename = some y) :=
    fun x hx ↦ ⟨unused_noFiles.put_schema x, Or.inr ⟨x, hx, Disk.put_self ..⟩⟩
  have hwp : (IndexWriter.open (some schema)).wp (files F) () (fun _ _ _ ↦ True)
      (fun d ↦ Unused d ∧ (d kSchemaFilename = none ∨
        ∃ x, x <+: schema.toText ∧ d kSchemaFilename = some x)) noFiles := by
    refine wp_open_unused hF unused_noFiles ⟨unused_noFiles, Or.inl rfl⟩ ?_ ?_
      (fun _ _ _ _ _ ↦ trivial) fun _ _ _ _ ↦ trivial
    · rintro _ x - ⟨⟩ hx
      exact hput x hx
    · intro r d₁ hfound
      have hne : kSchemaFilename ≠ kTranslogName := by decide
      refine ⟨(unused_noFiles.of_found hfound).touched, ?_⟩
      rw [touched, d₁.put_of_ne hne]
      cases hfound with
      | loaded h => cases h
      | missing => exact Or.inl rfl
      | written _ hgiven =>
        cases hgiven
        exact Or.inr ⟨_, List.prefix_rfl, Disk.put_self ..⟩
  exact (Method.wp_iff.1 hwp).2 d h

/-- **An index whose creation was cut off can be opened exactly when `schema.json` is missing or
complete**; complete, it holds the floats that JSON can hold. -/
theorem reopens_after_crash_iff (hread : ReadsNumbers) {schema : Schema}
    (hexact : ∀ f ∈ schema.fields, f.Exact) (hid : schema.hasField Schema.kIdField = true)
    {F : Faults} (hF : F.Quiet) {d : Disk}
    (hcrash : (IndexWriter.open (some schema) ()).Stops (files F) noFiles d) :
    (∃ w, opened (some schema) d = .ok w ∧ schema.Same w.schema) ↔
      d kSchemaFilename = none ∨
        d kSchemaFilename = some schema.toText ∧ ∀ f ∈ schema.fields, f.Finite := by
  obtain ⟨hunused, hnone | ⟨x, hpre, hx⟩⟩ := stops_open hF hcrash
  · obtain ⟨t, ht, -⟩ := opened_ok hunused (SchemaFound.written hnone rfl)
    exact ⟨fun _ ↦ Or.inl hnone, fun _ ↦ ⟨_, ht, schema.same_refl⟩⟩
  · rw [opened_same_iff hunused hx, hx, ← Schema.same_readBack_iff hexact]
    simp only [Option.some.injEq, reduceCtorEq, false_or]
    by_cases hwhole : x = schema.toText
    · rw [hwhole, Schema.ofText_toText hexact, if_pos hid]
      constructor
      · rintro ⟨_, ⟨⟩, hs⟩
        exact ⟨rfl, hs⟩
      · exact fun h ↦ ⟨_, rfl, h.2⟩
    · constructor
      · rintro ⟨s, hs, -⟩
        exact absurd hs (Schema.ofText_of_part hread hexact hpre hwhole s)
      · exact fun h ↦ absurd h.1 hwhole

section Samples

omit [LibcDecimal]

/-- Crashes come between calls or in the middle of them. -/
def crashes : Faults := ⟨fun _ ↦ False, True⟩

/-- A crash once `schema.json` was created. -/
theorem stops_after_create (schema : Schema) :
    (@IndexWriter.open .integral _ (some schema) ()).Stops (files crashes) noFiles
      (noFiles.put kSchemaFilename []) :=
  Or.inr (Or.inr ⟨.ok (), noFiles, Or.inl rfl, Or.inr (Or.inr ⟨false, noFiles, ⟨rfl, Or.inl rfl⟩,
    Or.inr (Or.inr ⟨.ok (), _, Or.inl rfl, Prog.stops_start _ _⟩)⟩)⟩)

theorem reopens_after_crash_iff_sample :
    (∃ w, @opened .integral (some sampleSchema) (noFiles.put kSchemaFilename []) = .ok w ∧
        sampleSchema.Same w.schema) ↔
      noFiles.put kSchemaFilename [] kSchemaFilename = none ∨
        noFiles.put kSchemaFilename [] kSchemaFilename =
            some (@Schema.toText .integral sampleSchema) ∧
          ∀ f ∈ sampleSchema.fields, f.Finite :=
  @reopens_after_crash_iff .integral (fun _ ↦ rfl) sampleSchema exact_sampleSchema (by decide)
    crashes (fun _ h ↦ h) _ (stops_after_create sampleSchema)

/-- A crash between creating `schema.json` and writing it: the index can never be opened. -/
theorem not_reopens_after_crash :
    ∃ d, (@IndexWriter.open .integral _ (some sampleSchema) ()).Stops (files crashes) noFiles d ∧
      ¬∃ w, @opened .integral (some sampleSchema) d = .ok w ∧ sampleSchema.Same w.schema := by
  refine ⟨_, stops_after_create sampleSchema, fun h ↦ ?_⟩
  obtain ⟨s, hs, -⟩ := (@opened_same_iff .integral _ _ _ _ (unused_noFiles.put_schema [])
    (Disk.put_self ..)).1 h
  cases hs

end Samples

end IndexWriter

end Spp.Index
