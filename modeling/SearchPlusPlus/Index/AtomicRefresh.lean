import SearchPlusPlus.Index.Recovery
import SearchPlusPlus.Store.Storage

/-!
# A refresh is atomic

When a crash may lose whatever was not synced, the manifest is the old one or the new one after a
crash anywhere in a `Refresh`, and every segment that it lists is whole (`refresh_atomic`): a
`Refresh` does what `Storage.publication` asks for. So what was sealed once is there in every later
state (`sealed_persists`).

Nothing of the kind holds of the log, whose directory entry nothing syncs when it is created, nor of
`schema.json` before the first `Open` has returned.
-/

namespace Spp.Index

open Json Store

variable [LibcDecimal]

/-! ### What the methods do to the files -/

section Traces

variable {σ : Type} {s : σ} {d : Disk}

omit [LibcDecimal]

theorem still_openReader (stem : Bytes) : Still (SegmentReader.open stem : FileMethod σ _) := by
  refine (still_readFile _).bind fun si ↦ (still_readFile _).bind fun tim ↦
    (still_readFile _).bind fun doc ↦ (still_readFile _).bind fun fdt ↦
    (still_readFile _).bind fun fdx ↦ (still_done _).bind fun reader ↦
    (still_readFile _).attempt.bind fun dvq ↦ ?_
  cases dvq with
  | ok dvq => exact still_done _
  | error e => exact still_pure _

theorem run_openReader (stem : Bytes) (s : σ) (d : Disk) :
    run ((SegmentReader.open stem : FileMethod σ _) s) d =
      ((SegmentReader.openDisk d stem, s), d) := by
  have hwp : (SegmentReader.open stem : FileMethod σ _).wp (files Faults.none) s
      (fun r s' d' ↦ ((r, s'), d') = ((SegmentReader.openDisk d stem, s), d)) (fun _ ↦ True) d := by
    refine wp_open stem trivial rfl ?_ ?_
    · rintro ⟨_, _, hf⟩
      exact hf.elim
    · exact fun hf ↦ hf.elim
  obtain ⟨r, s', d', hret, heq⟩ := returns_of_wp Faults.none hwp
  rw [run_of_returns hret, heq]

theorem run_trace_sealSegment (seg : MutableSegment) (stem : Bytes) (s : σ) (d : Disk) :
    ∃ d', run (sealSegment seg stem s) d = ((.ok (sealBuffers seg stem).1, s), d') ∧
      trace (sealSegment seg stem s) d =
        Storage.filesTrace ((sealBuffers seg stem).2.toList stem) ++ [.fsyncDirectory] := by
  obtain ⟨⟨d', hrun⟩, htrace⟩ :=
    run_trace_writeFiles ((sealBuffers seg stem).2.toList stem) s d
  refine ⟨d', (run_seq hrun).trans rfl, ?_⟩
  rw [sealSegment]
  exact (trace_seq hrun).trans (congrArg (· ++ _) htrace)

/-- What a writer does to seal its next segment. -/
theorem run_trace_sealCurrentSegment {w : IndexWriter} (h : w.mutableSegment.docCount ≠ 0)
    (d : Disk) : trace (IndexWriter.sealCurrentSegment w) d =
        Storage.filesTrace w.nextFiles ++ [.fsyncDirectory] ∧
      ∃ d', run (IndexWriter.sealCurrentSegment w) d =
        (((SegmentReader.openDisk d' w.nextStem).map some, w.counted), d') := by
  obtain ⟨d', hrun, htrace⟩ := run_trace_sealSegment w.mutableSegment w.nextStem w.counted d
  have hunfold : (IndexWriter.sealCurrentSegment w : Prog FileOp FileOp.Result _) =
      (sealSegment w.mutableSegment w.nextStem >>= fun _ ↦
        SegmentReader.open w.nextStem >>= fun seg ↦ pure (some seg)) w.counted := by
    show (if w.mutableSegment.docCount = 0 then _ else _ : FileMethod IndexWriter _) w = _
    rw [if_neg h]
    rfl
  have hopen := run_openReader w.nextStem w.counted d'
  have hstill : Still (SegmentReader.open w.nextStem >>= fun seg ↦
      (pure (some seg) : FileMethod IndexWriter _)) :=
    (still_openReader w.nextStem).bind fun _ ↦ still_pure _
  rw [hunfold]
  refine ⟨?_, d', (run_seq hrun).trans ?_⟩
  · rw [trace_seq hrun, htrace, hstill, List.append_nil]
    rfl
  · cases hr : SegmentReader.openDisk d' w.nextStem with
    | error e =>
      rw [hr] at hopen
      refine (run_bind _ _ d').trans ?_
      rw [hopen]
      rfl
    | ok r =>
      rw [hr] at hopen
      exact run_seq hopen

theorem writesOnly_create {name : Bytes} (truncate : Bool) :
    WritesOnly [name] (FileSink.create name truncate : FileMethod σ FileSink) :=
  (writesOnly_act (List.Subset.refl _)).bind fun _ ↦ writesOnly_pure _ _

theorem Translog.writesOnly_truncate : WritesOnly [kTranslogName] Translog.truncate := by
  refine (writesOnly_self _).bind fun t ↦ ?_
  cases t.sink
  -- Whatever closing the log says, only the new file is written.
  all_goals
    first
    | refine (writesOnly_pure _ _).bind fun p ↦ ?_
    | refine ((FileSink.writesOnly_close _).owning _).bind fun p ↦ ?_
    obtain ⟨closed, _⟩ := p
    cases closed with
    | error e => exact (writesOnly_become _ _).bind fun _ ↦ writesOnly_done _ _
    | ok =>
      refine (writesOnly_become _ _).bind fun _ ↦ (writesOnly_create true).bind fun sink ↦
        ((FileSink.writesOnly_sync _).owning sink).bind fun p ↦ ?_
      obtain ⟨r, _⟩ := p
      exact (writesOnly_become _ _).bind fun _ ↦ writesOnly_done _ _

end Traces

section Saving

variable {σ : Type}

theorem run_trace_saveManifest (m : Manifest) (s : σ) (d : Disk) :
    ∃ d', run (saveManifest m s) d = ((.ok (), s), d') ∧ trace (saveManifest m s) d =
      Storage.writeTrace kManifestTmpName m.toText ++
        [.rename kManifestTmpName kManifestName, .fsyncDirectory] := by
  have hrun := run_writeFile kManifestTmpName m.toText s d
  have hexec : (FileAction.rename kManifestTmpName kManifestName).exec
      (d.put kManifestTmpName m.toText) = (.ok (), Disk.put (Function.update
        (d.put kManifestTmpName m.toText) kManifestTmpName none) kManifestName m.toText) := by
    rw [FileAction.exec, Disk.put_self]
  have hrename : run ((Directory.atomicRename kManifestTmpName kManifestName : FileMethod σ Unit) s)
      (d.put kManifestTmpName m.toText) = ((.ok (), s), Disk.put (Function.update
        (d.put kManifestTmpName m.toText) kManifestTmpName none) kManifestName m.toText) :=
    congrArg (fun p : Expected Unit × Disk ↦ ((p.1, s), p.2)) hexec
  refine ⟨_, (run_seq hrun).trans ((run_seq hrename).trans rfl), ?_⟩
  refine (trace_seq hrun).trans ?_
  rw [trace_writeFile]
  exact congrArg _ ((trace_seq hrename).trans rfl)

/-- What a writer does to publish a segment that it has sealed. -/
theorem trace_publishSegment (t : Translog) (seg : SegmentReader) (w : IndexWriter) (d : Disk) :
    ∃ text rest, trace (IndexWriter.publishSegment t seg w) d =
        Storage.writeTrace kManifestTmpName text ++
          [.rename kManifestTmpName kManifestName, .fsyncDirectory] ++ rest ∧
      ∀ a ∈ rest, a.written ⊆ [kTranslogName] := by
  obtain ⟨d', hrun, htrace⟩ := run_trace_saveManifest
    (manifestOf (w.currentGen + 1) (w.sealedSegments ++ [seg]))
    { w with sealedSegments := w.sealedSegments ++ [seg] } d
  rw [IndexWriter.publishSegment, self_bind]
  dsimp only
  rw [become_bind]
  rw [trace_seq hrun, htrace]
  refine ⟨_, _, rfl, ?_⟩
  refine (Translog.writesOnly_truncate.owning t).bind (fun p ↦ ?_) _ _
  obtain ⟨r, t'⟩ := p
  refine (writesOnly_become _ _).bind fun _ ↦ ?_
  cases r with
  | error e => exact writesOnly_done _ _
  | ok => exact (writesOnly_become _ _).bind fun _ ↦ writesOnly_pure _ _

/-- **What a `Refresh` does to the files**: nothing, the first part of a publication when the
segment cannot be opened, or a publication, and behind it something to the log. -/
theorem trace_refresh (w : IndexWriter) (d : Disk) :
    (w.translog = none ∨ w.mutableSegment.docCount = 0) ∧ trace (IndexWriter.refresh w) d = [] ∨
    trace (IndexWriter.refresh w) d = Storage.filesTrace w.nextFiles ++ [.fsyncDirectory] ∨
      ∃ text rest, trace (IndexWriter.refresh w) d =
          Storage.publicationTrace w.nextFiles kManifestTmpName kManifestName text ++ rest ∧
        ∀ a ∈ rest, a.written ⊆ [kTranslogName] := by
  rw [IndexWriter.refresh, self_bind]
  cases w.translog with
  | none => exact Or.inl ⟨Or.inl rfl, rfl⟩
  | some t =>
    dsimp only
    by_cases hpending : w.mutableSegment.docCount = 0
    · have hidle : IndexWriter.sealCurrentSegment w = .ret (.ok none, w) := by
        rw [IndexWriter.sealCurrentSegment, self_bind, if_pos hpending]
        rfl
      have hrun : run (IndexWriter.sealCurrentSegment w) d = ((.ok none, w), d) := by
        rw [hidle]
        rfl
      rw [trace_seq hrun, hidle]
      exact Or.inl ⟨Or.inr hpending, rfl⟩
    obtain ⟨htrace, d', hrun⟩ := run_trace_sealCurrentSegment hpending d
    cases hr : SegmentReader.openDisk d' w.nextStem with
    | error e =>
      rw [hr] at hrun
      rw [trace_seq_error hrun, htrace]
      exact Or.inr (Or.inl rfl)
    | ok r =>
      rw [hr] at hrun
      obtain ⟨text, rest, hpublish, hrest⟩ := trace_publishSegment t r w.counted d'
      refine Or.inr (Or.inr ⟨text, rest, ?_, hrest⟩)
      refine (trace_seq hrun).trans ?_
      rw [htrace, Storage.publicationTrace, Storage.preparation]
      show _ ++ trace (IndexWriter.publishSegment t r w.counted) d' = _
      rw [hpublish]
      simp only [List.append_assoc, List.cons_append, List.nil_append]

end Saving

/-! ### The files that a crash may damage -/

/-- The files that a crash may leave in any state. -/
def unsafeNames : List Bytes := [kSchemaFilename, kTranslogName, kManifestTmpName]

section Others

variable {σ : Type}

omit [LibcDecimal]

theorem still_fileExists (name : Bytes) : Still (Directory.fileExists name : FileMethod σ Bool) :=
  fun _ _ ↦ rfl

theorem writesOnly_writeFile {name : Bytes} {names : List Bytes} (h : name ∈ names)
    (bytes : Bytes) :
    WritesOnly names (writeFile name bytes : FileMethod σ Unit) := by
  intro s d a ha n hn
  rw [trace_writeFile] at ha
  rw [Storage.eq_of_mem_writeTrace ha hn]
  exact h

/-- A sink writes to its file, and stays with it. -/
theorem FileSink.writes_append (sink : FileSink) (bytes : Bytes) (d : Disk) :
    Writes [sink.path] (FileSink.append bytes sink) d ∧
      (run (FileSink.append bytes sink) d).1.2.path = sink.path := by
  rw [FileSink.append, self_bind]
  split_ifs
  · exact ⟨writesOnly_done _ _ _ _, rfl⟩
  · exact ⟨writesOnly_pure _ _ _ _, rfl⟩
  · exact ⟨((writesOnly_act (List.Subset.refl _)).bind fun _ ↦ writesOnly_become _ _) _ _, rfl⟩

theorem Translog.writes_appendRecord (payload : Bytes) (sink : FileSink) (d : Disk) :
    Writes [sink.path] (Translog.appendRecord payload sink) d := by
  obtain ⟨hheader, hpath⟩ := FileSink.writes_append sink (recordHeader payload) d
  refine hheader.bind ?_
  generalize run (FileSink.append (recordHeader payload) sink) d = res at hpath
  obtain ⟨⟨r, sink'⟩, d'⟩ := res
  cases r with
  | error e => exact fun a ha ↦ absurd ha List.not_mem_nil
  | ok =>
    obtain ⟨hpayload, -⟩ := FileSink.writes_append sink' payload d'
    rw [show sink'.path = sink.path from hpath] at hpayload
    exact hpayload.seq fun _ s' d' ↦ FileSink.writesOnly_sync _ s' d'

theorem Translog.writes_append {t : Translog} (h : t.Attached) (payload : Bytes) (d : Disk) :
    Writes [kTranslogName] (Translog.append payload t) d := by
  rw [Translog.append, self_bind]
  cases hsink : t.sink with
  | none => exact writesOnly_done _ _ _ _
  | some sink =>
    have hrecord := Translog.writes_appendRecord payload sink d
    rw [h sink hsink] at hrecord
    refine Writes.seq (hrecord.bind fun _ ha ↦ absurd ha List.not_mem_nil) fun p t' d' ↦ ?_
    obtain ⟨r, sink'⟩ := p
    cases r with
    | error e => exact ((writesOnly_become _ _).bind fun _ ↦ writesOnly_done _ _) t' d'
    | ok => exact writesOnly_become _ _ t' d'

end Others

section Methods

omit [LibcDecimal] in
/-- Closing a writer changes no file. -/
theorem writesOnly_close (names : List Bytes) : WritesOnly names IndexWriter.close := by
  refine (writesOnly_self _).bind fun w ↦ ?_
  cases w.translog with
  | none => exact writesOnly_pure _ _
  | some t =>
    have hclose : WritesOnly names Translog.close := by
      refine (writesOnly_self _).bind fun t ↦ ?_
      cases t.sink with
      | none => exact writesOnly_pure _ _
      | some sink =>
        refine ((FileSink.writesOnly_close _).owning sink).bind fun p ↦ ?_
        obtain ⟨r, sink'⟩ := p
        exact (writesOnly_become _ _).bind fun _ ↦ writesOnly_done _ _
    exact (hclose.owning t).bind fun _ ↦ writesOnly_become _ _

theorem writesOnly_bootstrapSchema {σ : Type} (initial : Option Schema) :
    WritesOnly unsafeNames (IndexWriter.bootstrapSchema initial : FileMethod σ Schema) := by
  refine ((still_fileExists _).writesOnly _).bind fun found ↦ ?_
  cases found with
  | true => exact ((still_readFile _).writesOnly _).bind fun text ↦ writesOnly_done _ _
  | false =>
    cases initial with
    | none => exact writesOnly_done _ _
    | some schema =>
      refine (writesOnly_writeFile (by decide) _).bind fun _ ↦ ?_
      exact (writesOnly_act (List.nil_subset _)).bind fun _ ↦ writesOnly_pure _ _

theorem still_loadManifest {σ : Type} : Still (loadManifest : FileMethod σ Manifest) := by
  refine (still_fileExists _).bind fun found ↦ ?_
  cases found with
  | true => exact (still_readFile _).bind fun text ↦ still_done _
  | false => exact still_pure _

omit [LibcDecimal] in
theorem still_openSegments {σ : Type} (l : List ManifestSegment) :
    Still (IndexWriter.openSegments l : FileMethod σ _) := by
  induction l with
  | nil => exact still_pure _
  | cons ms l ih =>
    exact (still_openReader ms.stem).bind fun seg ↦ ih.bind fun segs ↦ still_pure _

/-- What follows in `Open` once there is a schema: it creates the log and changes nothing else. -/
theorem open_split {σ : Type} (initial : Option Schema) :
    ∃ (rest : Schema → FileMethod σ IndexWriter) (replay : IndexWriter → FileMethod σ IndexWriter),
      IndexWriter.open initial = (act .createDirectories >>= fun _ ↦
        (IndexWriter.bootstrapSchema initial >>= rest) >>= replay) ∧
      (∀ schema, WritesOnly [kTranslogName] (rest schema)) ∧
        ∀ w, WritesOnly [kTranslogName] (replay w) := by
  refine ⟨_, _, rfl, fun schema ↦ ?_, fun w ↦ ?_⟩
  · refine (still_loadManifest.writesOnly _).bind fun m ↦
      ((still_openSegments _).writesOnly _).bind fun segs ↦ ?_
    refine WritesOnly.bind ?_ fun t ↦ writesOnly_pure _ _
    exact ((writesOnly_act (by decide)).bind fun _ ↦ writesOnly_pure _ _).bind fun _ ↦
      writesOnly_pure _ _
  · have hreplay : Still IndexWriter.replayTranslog := by
      refine Still.bind (fun _ _ ↦ rfl) fun w ↦ Still.bind ?_ fun recs ↦
        (still_done _).bind fun seg ↦ fun _ _ ↦ rfl
      refine (still_readFile _).attempt.bind fun src ↦ ?_
      cases src with
      | ok bytes => exact still_pure _
      | error e =>
        dsimp only
        split_ifs
        · exact still_pure _
        · exact still_done _
    refine ((hreplay.writesOnly _).owning w).bind fun p ↦ ?_
    obtain ⟨r, w'⟩ := p
    cases r with
    | ok => exact writesOnly_pure _ _
    | error e => exact ((writesOnly_close _).owning w').bind fun _ ↦ writesOnly_done _ _

/-- Opening an index writes its schema and its log. -/
theorem writesOnly_open {σ : Type} (initial : Option Schema) :
    WritesOnly unsafeNames (IndexWriter.open initial : FileMethod σ IndexWriter) := by
  obtain ⟨rest, replay, heq, hrest, hreplay⟩ := open_split (σ := σ) initial
  have hlog : [kTranslogName] ⊆ unsafeNames := by decide
  rw [heq]
  refine (writesOnly_act (List.nil_subset _)).bind fun _ ↦ WritesOnly.bind ?_ fun w s d ↦
    (hreplay w s d).mono hlog
  exact (writesOnly_bootstrapSchema initial).bind fun schema s d ↦ (hrest schema s d).mono hlog

/-- `AddDocument` writes to the log. -/
theorem writes_addDocument {w : IndexWriter} (hlog : ∀ t, w.translog = some t → t.Attached)
    (doc : Document) (rawJson : Bytes) (d : Disk) :
    Writes [kTranslogName] (IndexWriter.addDocument doc rawJson w) d := by
  rw [IndexWriter.addDocument, self_bind]
  cases ht : w.translog with
  | none => exact writesOnly_done _ _ _ _
  | some t =>
    have happend := Translog.writes_append (hlog t ht) (logRecord doc rawJson) d
    refine Writes.seq (happend.bind fun _ ha ↦ absurd ha List.not_mem_nil) fun p w' d' ↦ ?_
    obtain ⟨r, t'⟩ := p
    refine ((writesOnly_become _ _).bind fun _ ↦ ?_) w' d'
    cases r with
    | error e => exact writesOnly_done _ _
    | ok =>
      dsimp only
      cases w.mutableSegment.addDocument doc with
      | error e => exact writesOnly_done _ _
      | ok p => exact writesOnly_become _ _

/-- The files that a `Refresh` writes beside those of its segment. -/
def refreshedNames : List Bytes := [kManifestName, kManifestTmpName, kTranslogName]

/-- A `Refresh` writes its next segment, the manifest and the log. -/
theorem writes_refresh (w : IndexWriter) (d : Disk) :
    Writes (w.nextFiles.map Prod.fst ++ refreshedNames) (IndexWriter.refresh w) d := by
  intro a ha n hn
  rw [List.mem_append]
  rcases trace_refresh w d with ⟨-, htrace⟩ | htrace | ⟨text, rest, htrace, hrest⟩ <;>
    rw [htrace] at ha
  · cases ha
  · rcases List.mem_append.1 ha with ha | ha
    · exact Or.inl (Storage.mem_of_mem_filesTrace ha hn)
    · rw [List.mem_singleton.1 ha] at hn
      cases hn
  · rcases List.mem_append.1 ha with ha | ha
    · refine (Storage.mem_of_mem_publicationTrace ha hn).imp_right ?_
      rintro (rfl | rfl) <;> decide
    · rw [List.mem_singleton.1 (hrest a ha hn)]
      exact Or.inr (by decide)

end Methods

/-! ### What a crash leaves -/

/-- Nothing else can be lost. -/
def Safe (S : Storage) : Prop := ∀ n, n ∉ unsafeNames → S.Settled n

omit [LibcDecimal] in
theorem safe_ofDisk (d : Disk) : Safe (.ofDisk d) := fun n _ ↦ Storage.settled_ofDisk d n

section Crashes

variable {S : Storage} {w : IndexWriter} {acts : List FileAction} {d : Disk}

omit [LibcDecimal] in
/-- The files of a segment are none of these, and no manifest. -/
theorem nextFiles_safe (w : IndexWriter) {n : Bytes} (hn : n ∈ w.nextFiles.map Prod.fst) :
    n ∉ unsafeNames ∧ n ≠ kManifestName := by
  have hmem := ((sealBuffers w.mutableSegment w.nextStem).2.toList_names w.nextStem).subset hn
  have hnames : ∀ n' ∈ kManifestName :: unsafeNames, n'.take 4 ≠ str "seg-" := by decide
  refine ⟨fun h ↦ ?_, fun h ↦ ?_⟩
  · exact not_mem_segmentNames (hnames n (List.mem_cons_of_mem _ h)) hmem
  · exact not_mem_segmentNames (hnames n (h ▸ List.mem_cons_self)) hmem

omit [LibcDecimal] in
theorem Safe.performs (h : Safe S) (hacts : ∀ a ∈ acts, a.written ⊆ unsafeNames) :
    Safe (S.performs acts) := fun n hn ↦ (h n hn).performs fun a ha hmem ↦ hn (hacts a ha hmem)

/-- **A `Refresh` leaves nothing to be lost.** -/
theorem Safe.refresh (h : Safe S) (w : IndexWriter) :
    Safe (S.performs (trace (IndexWriter.refresh w) S.now)) := by
  have hnodup : (w.nextFiles.map Prod.fst).Nodup :=
    (sealBuffers w.mutableSegment w.nextStem).2.toList_nodup w.nextStem
  intro n hn
  rcases trace_refresh w S.now with ⟨-, htrace⟩ | htrace | ⟨text, rest, htrace, hrest⟩ <;>
    rw [htrace]
  · exact h n hn
  · rw [Storage.performs_append]
    by_cases hfile : n ∈ w.nextFiles.map Prod.fst
    · obtain ⟨p, hp, rfl⟩ := List.mem_map.1 hfile
      exact (Storage.synced_filesTrace hnodup p hp).settled
    · have hother : ∀ a ∈ Storage.filesTrace w.nextFiles, n ∉ a.written := fun a ha hmem ↦
        hfile (Storage.mem_of_mem_filesTrace ha hmem)
      have hsync : ∀ a ∈ [FileAction.fsyncDirectory], n ∉ a.written := by simp [FileAction.written]
      exact ((h n hn).performs hother).performs hsync
  · refine Storage.settled_publication hnodup ?_ ?_ ?_ (Or.inr (Or.inr (h n hn)))
    · exact fun hmem ↦ (nextFiles_safe w hmem).1 (by decide)
    · intro a ha hmem
      rw [List.mem_singleton.1 (hrest a ha hmem)] at hn
      exact hn (by decide)
    · rintro rfl
      exact hn (by decide)

/-- **What a crash in a `Refresh` leaves**: everything as it was but for the files of the next
segment, or everything as it is in the end. -/
theorem Safe.refreshCut (h : Safe S) (hacts : acts <+: trace (IndexWriter.refresh w) S.now)
    (hd : (S.performs acts).Survives d) :
    (∀ n, n ∉ unsafeNames → n ∉ w.nextFiles.map Prod.fst → d n = S.now n) ∨
      ∀ n, n ∉ unsafeNames → d n = (run (IndexWriter.refresh w) S.now).2 n := by
  have hnodup : (w.nextFiles.map Prod.fst).Nodup :=
    (sealBuffers w.mutableSegment w.nextStem).2.toList_nodup w.nextStem
  -- What is not written is what it was.
  have hstill : ∀ {n}, n ∉ unsafeNames → (∀ a ∈ acts, n ∉ a.written) → d n = S.now n :=
    fun hn hother ↦ (hd.eq ((h _ hn).performs hother)).trans (Storage.now_performs hother)
  have hrun := now_performs_trace (IndexWriter.refresh w) S
  rcases trace_refresh w S.now with ⟨-, htrace⟩ | htrace | ⟨text, rest, htrace, hrest⟩
  · left
    rw [htrace] at hacts
    obtain rfl := List.prefix_nil.1 hacts
    exact fun n hn _ ↦ hstill hn fun a ha ↦ absurd ha List.not_mem_nil
  · left
    refine fun n hn hfile ↦ hstill hn fun a ha hmem ↦ ?_
    rw [htrace] at hacts
    rcases List.mem_append.1 (hacts.subset ha) with ha | ha
    · exact hfile (Storage.mem_of_mem_filesTrace ha hmem)
    · rw [List.mem_singleton.1 ha] at hmem
      cases hmem
  have hlog : ∀ a ∈ rest, ∀ n, n ≠ kTranslogName → n ∉ a.written := fun a ha n hn hmem ↦
    hn (List.mem_singleton.1 (hrest a ha hmem))
  have haside : kManifestTmpName ∉ w.nextFiles.map Prod.fst := fun hmem ↦
    (nextFiles_safe w hmem).1 (by decide)
  have hlist : kManifestName ∉ w.nextFiles.map Prod.fst := fun hmem ↦ (nextFiles_safe w hmem).2 rfl
  have hother : ∀ a ∈ rest, kManifestName ∉ a.written ∧ ∀ p ∈ w.nextFiles, p.1 ∉ a.written := by
    refine fun a ha ↦ ⟨hlog a ha _ (by decide), fun p hp ↦ hlog a ha _ fun heq ↦ ?_⟩
    have hmem := List.mem_map_of_mem (f := Prod.fst) hp
    rw [heq] at hmem
    exact (nextFiles_safe w hmem).1 (by decide)
  rw [htrace] at hacts hrun
  -- Only the files of the segment and the manifest are written.
  have hframe : ∀ n, n ∉ unsafeNames → n ∉ w.nextFiles.map Prod.fst → n ≠ kManifestName →
      ∀ a ∈ Storage.publicationTrace w.nextFiles kManifestTmpName kManifestName text ++ rest,
        n ∉ a.written := by
    intro n hn hfile hne a ha hmem
    have hlogName : n ≠ kTranslogName := fun heq ↦ hn (heq ▸ by decide)
    rcases List.mem_append.1 ha with ha | ha
    · rcases Storage.mem_of_mem_publicationTrace ha hmem with hmem | rfl | rfl
      · exact hfile hmem
      · exact hn (by decide)
      · exact hne rfl
    · exact hlog a ha n hlogName hmem
  rcases Storage.publication hnodup haside hlist (by decide) (h _ (by decide)) hother hacts hd with
    hold | ⟨hnew, hfiles⟩
  · left
    intro n hn hfile
    by_cases hne : n = kManifestName
    · rw [hne, hold]
    · exact hstill hn fun a ha ↦ hframe n hn hfile hne a (hacts.subset ha)
  · right
    intro n hn
    obtain ⟨hlistNow, hfilesNow⟩ :=
      Storage.now_publication S text hnodup haside hlist hother
    rw [← hrun]
    by_cases hne : n = kManifestName
    · rw [hne, hnew, hlistNow]
    by_cases hfile : n ∈ w.nextFiles.map Prod.fst
    · obtain ⟨p, hp, rfl⟩ := List.mem_map.1 hfile
      rw [hfiles p hp, hfilesNow p hp]
    · rw [Storage.now_performs (hframe n hn hfile hne)]
      exact hstill hn fun a ha ↦ hframe n hn hfile hne a (hacts.subset ha)

end Crashes

/-! ### Runs -/

/-- A writer over storage that forgets. -/
structure StoredState where
  writer : Option IndexWriter
  storage : Storage

/-- What a program sees of it. -/
def StoredState.seen (s : StoredState) : WriterState := ⟨s.writer, s.storage.now⟩

/-- An empty directory without a writer. -/
def StoredState.start : StoredState := ⟨none, .ofDisk IndexWriter.noFiles⟩

/-- The steps when no call fails and a crash loses what was not synced: it comes between two
methods, or stops one of them. -/
inductive StoredStep (s : StoredState) : WriterEvent → StoredState → Prop
  | opened {initial : Option Schema} {r : Expected IndexWriter} {S : Storage} (h : s.writer = none)
      (hret : (IndexWriter.open initial ()).Returns stored s.storage (r, ()) S) :
      StoredStep s (.opened initial r.isOk) ⟨r.toOption, S⟩
  | openCut {initial : Option Schema} {S : Storage} {d : Disk} (h : s.writer = none)
      (hstop : (IndexWriter.open initial ()).Stops stored s.storage S) (hd : S.Survives d) :
      StoredStep s .openCut ⟨none, .ofDisk d⟩
  | added {w w' : IndexWriter} {r : Expected Unit} {S : Storage} (doc : Document) (rawJson : Bytes)
      (h : s.writer = some w)
      (hret : (IndexWriter.addDocument doc rawJson w).Returns stored s.storage (r, w') S) :
      StoredStep s (.added doc rawJson r.isOk) ⟨some w', S⟩
  | addCut {w : IndexWriter} {S : Storage} {d : Disk} (doc : Document) (rawJson : Bytes)
      (h : s.writer = some w)
      (hstop : (IndexWriter.addDocument doc rawJson w).Stops stored s.storage S)
      (hd : S.Survives d) : StoredStep s (.addCut doc rawJson) ⟨none, .ofDisk d⟩
  | refreshed {w w' : IndexWriter} {r : Expected Generation} {S : Storage} (h : s.writer = some w)
      (hret : (IndexWriter.refresh w).Returns stored s.storage (r, w') S) :
      StoredStep s (.refreshed r.isOk) ⟨some w', S⟩
  | refreshCut {w : IndexWriter} {S : Storage} {d : Disk} (h : s.writer = some w)
      (hstop : (IndexWriter.refresh w).Stops stored s.storage S) (hd : S.Survives d) :
      StoredStep s .refreshCut ⟨none, .ofDisk d⟩
  | closed {w w' : IndexWriter} {r : Expected Unit} {S : Storage} (h : s.writer = some w)
      (hret : (IndexWriter.close w).Returns stored s.storage (r, w') S) :
      StoredStep s .closed ⟨none, S⟩
  | closeCut {w : IndexWriter} {S : Storage} {d : Disk} (h : s.writer = some w)
      (hstop : (IndexWriter.close w).Stops stored s.storage S) (hd : S.Survives d) :
      StoredStep s .crashed ⟨none, .ofDisk d⟩
  | crashed {d : Disk} (hd : s.storage.Survives d) : StoredStep s .crashed ⟨none, .ofDisk d⟩

/-- Sizes fit and no counter is used up, also if a `Refresh` is cut off. -/
structure StoredFits (s : WriterState) (e : WriterEvent) : Prop where
  fits : StepFits s e
  cut : e = .refreshCut → ∀ ok, StepFits s (.refreshed ok)
  encodable : ∀ w, s.writer = some w → (e = .refreshCut ∨ ∃ ok, e = .refreshed ok) →
    w.mutableSegment.Encodable

/-! ### What a manifest lists -/

/-- What a segment was sealed from: documents, under the schema of their writer. -/
structure Shelf where
  schema : Schema
  docs : List Document

/-- The segment in memory that was sealed. -/
def Shelf.segment (shelf : Shelf) : MutableSegment := .build shelf.schema shelf.docs

/-- A listed segment can be opened and agrees with what it was sealed from. -/
def ReadBack (d : Disk) (ms : ManifestSegment) (shelf : Shelf) : Prop :=
  ∃ r, SegmentReader.openDisk d ms.stem = .ok r ∧ ms.docCount = r.docCount ∧
    Agrees r shelf.segment

/-- The manifest of a disk, and what the segments that it lists were sealed from. -/
def Lists (d : Disk) (m : Manifest) (shelves : List Shelf) : Prop :=
  Manifest.ofDisk d = .ok m ∧ List.Forall₂ (ReadBack d) m.segments shelves

section Lists

variable {s s' : WriterState} {e : WriterEvent} {L : Ledger} {w : IndexWriter} {d d' d₁ : Disk}
  {m : Manifest} {shelves : List Shelf} {docs : List Document} {r : SegmentReader}

/-- What is listed is read as it was, as long as its files are as they were. -/
theorem Lists.readBack (h : Lists d m shelves)
    (hsegs : ∀ stem ∈ listedStems d, ∀ n ∈ segmentNames stem, d' n = d n) :
    List.Forall₂ (ReadBack d') m.segments shelves := by
  obtain ⟨hlen, hall⟩ := List.forall₂_iff_zip.1 h.2
  refine List.forall₂_iff_zip.2 ⟨hlen, fun {ms shelf} hmem ↦ ?_⟩
  have hlisted : ms.stem ∈ listedStems d := by
    rw [listedStems_of_ok h.1]
    exact List.mem_map_of_mem (List.of_mem_zip hmem).1
  rw [ReadBack, openDisk_congr (hsegs _ hlisted)]
  exact hall hmem

theorem Lists.congr (h : Lists d m shelves) (hm : d' kManifestName = d kManifestName)
    (hsegs : ∀ stem ∈ listedStems d, ∀ n ∈ segmentNames stem, d' n = d n) :
    Lists d' m shelves :=
  ⟨(Manifest.ofDisk_congr hm).trans h.1, h.readBack hsegs⟩

/-- A step that leaves the manifest alone leaves what it lists. -/
theorem Lists.still (h : Lists s.disk m shelves) (hmove : WriterMove Faults.none s e s')
    (hstems : StemsGiven s) (hm : s'.disk kManifestName = s.disk kManifestName) :
    Lists s'.disk m shelves :=
  h.congr hm fun _ hstem _ hn ↦ hmove.keeps hstems hstem hn

/-- **The next manifest** lists the pending documents behind what was listed. -/
theorem Lists.next (h : Lists s.disk m shelves) (hmove : WriterMove Faults.none s e s')
    (hstems : StemsGiven s) (hw : s.writer = some w)
    (hlisted : Manifest.ofDisk s.disk = .ok (manifestOf w.currentGen w.sealedSegments))
    (hpending : w.mutableSegment = .build w.schema docs) (hlen : docs.length ≤ kNoMoreDocs)
    (henc : w.mutableSegment.Encodable) (hs : w.Sealed Faults.none s.disk d₁ r)
    (hm : s'.disk kManifestName = some (w.nextManifest r).toText)
    (hfiles : ∀ n ∈ segmentNames w.nextStem, s'.disk n = d₁ n) :
    Lists s'.disk (w.nextManifest r) (shelves ++ [⟨w.schema, docs⟩]) := by
  obtain rfl := Except.ok.inj (hlisted.symm.trans h.1)
  refine ⟨(ofDisk_nextManifest (hstems.writer w hw) hs hm).1, ?_⟩
  have hold := h.readBack fun _ hstem _ hn ↦ hmove.keeps hstems hstem hn
  have hreader := hs.reader.resolve_right fun hf ↦ hf.1
  have hholds := hs.holds
  rw [IndexWriter.nextFiles, hpending] at hholds
  rw [hpending] at henc
  have hagrees :=
    agrees_of_holds (MutableSegment.build_wellFormed w.schema hlen) henc hholds hreader
  have hnew : SegmentReader.openDisk s'.disk r.stem = .ok r := by
    rw [hs.reader_eq.1, openDisk_congr hfiles]
    exact hreader
  have hread : ReadBack s'.disk { stem := r.stem, docCount := r.docCount } ⟨w.schema, docs⟩ :=
    ⟨r, hnew, rfl, hagrees⟩
  have happend := List.rel_append hold (List.Forall₂.cons hread .nil)
  simpa only [IndexWriter.nextManifest, manifestOf, List.map_append, List.map_cons, List.map_nil]
    using happend

end Lists

/-- A `Refresh` lists the next stem of the writer, and what the writer had in memory. -/
def Publishes (s : StoredState) (e : WriterEvent) (s' : StoredState) (stem : Bytes)
    (shelf : Shelf) : Prop :=
  (e = .refreshCut ∨ ∃ ok, e = .refreshed ok) ∧
    (∃ w, s.writer = some w ∧ stem = w.nextStem ∧ w.mutableSegment = shelf.segment) ∧
    listedStems s'.storage.now = listedStems s.storage.now ++ [stem]

/-- What holds in every state: the writer and what it sees keep a ledger, the manifest lists what
was sealed, and nothing of it can be lost. -/
structure Persists (s : StoredState) (L : Ledger) (shelves : List Shelf) : Prop where
  kept : Kept True s.seen L
  ready : s.seen.Ready
  lists : ∃ m, Lists s.storage.now m shelves
  safe : Safe s.storage

section Runs

variable {s s' : StoredState} {e : WriterEvent} {L : Ledger} {shelves : List Shelf}
  {w : IndexWriter} {docs : List Document} {d : Disk}

/-- What holds behind a step: it left the manifest alone, or lists one segment more. -/
def PersistsNext (s : StoredState) (e : WriterEvent) (s' : StoredState) (shelves : List Shelf) :
    Prop :=
  s'.storage.now kManifestName = s.storage.now kManifestName ∧ (∃ L', Persists s' L' shelves) ∨
    ∃ L' stem shelf, Publishes s e s' stem shelf ∧ Persists s' L' (shelves ++ [shelf])

/-- What a crash leaves alone is still kept. -/
theorem Kept.survives {loose : Prop} {s : WriterState} (h : Kept loose s L)
    (hm : d kManifestName = s.disk kManifestName)
    (hsegs : ∀ stem ∈ listedStems s.disk, ∀ n ∈ segmentNames stem, d n = s.disk n) :
    Kept True ⟨none, d⟩ { L with log := records (d.content kTranslogName), pending := none } where
  stems := h.stems.of_manifest_eq hm (by rintro _ ⟨⟩)
  manifest := by
    rw [Manifest.ofDisk_congr hm]
    exact h.shelved hsegs
  log := rfl
  closed _ := rfl
  writer := by rintro _ ⟨⟩

/-- A crash that leaves the manifest and what it lists. -/
theorem Persists.survives (h : Persists s L shelves)
    (hm : d kManifestName = s.storage.now kManifestName)
    (hsegs : ∀ stem ∈ listedStems s.storage.now, ∀ n ∈ segmentNames stem,
      d n = s.storage.now n) :
    ∃ L', Persists ⟨none, .ofDisk d⟩ L' shelves := by
  obtain ⟨m, hlists⟩ := h.lists
  exact ⟨_, h.kept.survives hm hsegs, by rintro _ ⟨⟩, ⟨m, hlists.congr hm hsegs⟩, safe_ofDisk d⟩

/-- The next manifest lists the next stem. -/
theorem Persists.publishes {d₁ : Disk} {r : SegmentReader} (h : Persists s L shelves)
    (he : e = .refreshCut ∨ ∃ ok, e = .refreshed ok) (hw : s.writer = some w)
    (hpending : w.mutableSegment = .build w.schema docs)
    (hs : w.Sealed Faults.none s.storage.now d₁ r)
    (hm : s'.storage.now kManifestName = some (w.nextManifest r).toText) :
    Publishes s e s' w.nextStem ⟨w.schema, docs⟩ := by
  refine ⟨he, ⟨w, hw, rfl, hpending⟩, ?_⟩
  have hstems := (ofDisk_nextManifest (h.kept.stems.writer w hw) hs hm).2
  have hlisted := listedStems_of_ok (h.kept.listed hw)
  rw [manifestOf, List.map_map] at hlisted
  exact hstems.trans (congrArg (· ++ _) hlisted.symm)

/-- The names of listed segments are safe. -/
theorem safe_of_listed {s : WriterState} (h : StemsGiven s) {stem n : Bytes}
    (hstem : stem ∈ listedStems s.disk) (hn : n ∈ segmentNames stem) : n ∉ unsafeNames := by
  obtain ⟨m, -, -, hup⟩ := h.manifest
  obtain ⟨g, i, rfl, -⟩ := hup stem hstem
  have hnames : ∀ n' ∈ unsafeNames, n'.take 4 ≠ str "seg-" := by decide
  exact fun hmem ↦ not_mem_segmentNames (hnames n hmem) hn

/-- A crash in a method that changes unsafe files only. -/
theorem Persists.crashed {α : Type} {p : Prog FileOp FileOp.Result α} {S : Storage}
    (h : Persists s L shelves) (hwrites : Writes unsafeNames p s.storage.now)
    (hstop : p.Stops stored s.storage S) (hd : S.Survives d) :
    PersistsNext s e ⟨none, .ofDisk d⟩ shelves := by
  obtain ⟨acts, hacts, rfl⟩ := stops_stored_iff.1 hstop
  have hstill : ∀ n, n ∉ unsafeNames → d n = s.storage.now n := by
    intro n hn
    have hother : ∀ a ∈ acts, n ∉ a.written := fun a ha hmem ↦
      hn (hwrites a (hacts.subset ha) hmem)
    exact (hd.eq ((h.safe n hn).performs hother)).trans (Storage.now_performs hother)
  have hm : d kManifestName = s.storage.now kManifestName := hstill _ (by decide)
  exact Or.inl ⟨hm, h.survives hm fun stem hstem n hn ↦
    hstill n (safe_of_listed h.kept.stems hstem hn)⟩

/-- What a step of the ledger does to the shelves. -/
theorem LedgerStep.shelves_cases {loose : Prop} {L' : Ledger} (h : LedgerStep loose L e L') :
    L'.shelves = L.shelves ∨ ∃ docs, L.pending = some docs ∧ L'.shelves = L.shelves ++ [docs] := by
  cases h with
  | shelved hdocs | savedCut hdocs | truncatedCut hdocs => exact Or.inr ⟨_, hdocs, rfl⟩
  | notTruncated _ hdocs => exact Or.inr ⟨_, hdocs, rfl⟩
  | opened | notOpened | openCut | refused | notLogged | rejected | accepted | addCut | notSealed
  | idle | sealCut | closed | crashed => exact Or.inl rfl

/-- A step that leaves the manifest alone. -/
theorem Persists.still (h : Persists s L shelves) (hstep : WriterStep Faults.none s.seen e s'.seen)
    (hfits : StepFits s.seen e) (hsafe : Safe s'.storage)
    (hm : s'.storage.now kManifestName = s.storage.now kManifestName) :
    ∃ L', Persists s' L' shelves := by
  have hmove := hstep.move h.ready
  obtain ⟨L', -, hkept'⟩ := hmove.ledger h.kept hfits
    (Or.inl (savesManifest_quiet Faults.none)) (Or.inl trivial)
  obtain ⟨m, hlists⟩ := h.lists
  exact ⟨L', hkept', hmove.ready h.ready, ⟨m, hlists.still hmove h.kept.stems hm⟩, hsafe⟩

/-- A step that saves the next manifest. -/
theorem Persists.next {d₁ : Disk} {r : SegmentReader} (h : Persists s L shelves)
    (hstep : WriterStep Faults.none s.seen e s'.seen) (hfits : StepFits s.seen e)
    (hsafe : Safe s'.storage) (hw : s.writer = some w)
    (hpending : w.mutableSegment = .build w.schema docs) (hlen : docs.length ≤ kNoMoreDocs)
    (henc : w.mutableSegment.Encodable) (hs : w.Sealed Faults.none s.storage.now d₁ r)
    (hm : s'.storage.now kManifestName = some (w.nextManifest r).toText)
    (hfiles : ∀ n ∈ segmentNames w.nextStem, s'.storage.now n = d₁ n) :
    ∃ L', Persists s' L' (shelves ++ [⟨w.schema, docs⟩]) := by
  have hmove := hstep.move h.ready
  obtain ⟨L', -, hkept'⟩ := hmove.ledger h.kept hfits
    (Or.inl (savesManifest_quiet Faults.none)) (Or.inl trivial)
  obtain ⟨m, hlists⟩ := h.lists
  exact ⟨L', hkept', hmove.ready h.ready, ⟨_, hlists.next hmove h.kept.stems hw (h.kept.listed hw)
    hpending hlen henc hs hm hfiles⟩, hsafe⟩

/-- A step of the writer on what it sees. -/
theorem Persists.moved (h : Persists s L shelves)
    (hstep : WriterStep Faults.none s.seen e s'.seen) (hfits : StoredFits s.seen e)
    (hsafe : Safe s'.storage) : PersistsNext s e s' shelves := by
  rcases (hstep.move h.ready).manifest_cases with hm | ⟨w, r, d₁, hw, he, -, hs, hm, hfiles⟩
  · exact Or.inl ⟨hm, h.still hstep hfits.fits hsafe hm⟩
  · obtain ⟨docs, -, hkeeps⟩ := h.kept.writer w hw
    obtain ⟨L', hpersists⟩ := h.next hstep hfits.fits hsafe hw hkeeps.pending hkeeps.length
      (hfits.encodable w hw he) hs hm hfiles
    exact Or.inr ⟨L', _, _, h.publishes he hw hkeeps.pending hs hm, hpersists⟩

omit [LibcDecimal] in
/-- A method that returned did so on what it saw. -/
theorem returns_seen {α : Type} {p : Prog FileOp FileOp.Result α} {S S' : Storage} {a : α}
    (h : p.Returns stored S a S') :
    p.Returns (files Faults.none) S.now a S'.now ∧ S' = S.performs (trace p S.now) := by
  obtain ⟨rfl, rfl⟩ := returns_stored_iff.1 h
  rw [now_performs_trace]
  exact ⟨returns_run Faults.none p S.now, rfl⟩

omit [LibcDecimal] in
/-- A method that changes unsafe files only leaves the others safe. -/
theorem Safe.returned {α : Type} {p : Prog FileOp FileOp.Result α} {S S' : Storage} {a : α}
    (h : Safe S) (hwrites : Writes unsafeNames p S.now) (hret : p.Returns stored S a S') :
    Safe S' := by
  rw [(returns_seen hret).2]
  exact h.performs hwrites

/-- A `Refresh` saves the next manifest if it returns `Ok` and there was something to seal. -/
theorem IndexWriter.Refreshed.manifest_cases {res : Expected Generation} {w' : IndexWriter}
    {d' : Disk} (h : w.Refreshed Faults.none d res w' d') :
    (res.isOk = false ∨ w.mutableSegment.docCount = 0) ∧ d' kManifestName = d kManifestName ∨
      res.isOk = true ∧ w.mutableSegment.docCount ≠ 0 ∧ ∃ r d₁, w.Sealed Faults.none d d₁ r ∧
        d' kManifestName = some (w.nextManifest r).toText ∧
        ∀ n ∈ segmentNames w.nextStem, d' n = d₁ n := by
  cases h with
  | refused => exact Or.inl ⟨Or.inl rfl, rfl⟩
  | idle _ hidle => exact Or.inl ⟨Or.inr hidle, rfl⟩
  | sealFailed _ _ hoff => exact Or.inl ⟨Or.inl rfl, hoff _ (not_mem_segmentNames (by decide))⟩
  | saveFailed _ _ _ _ hf | truncateFailed _ _ _ _ _ _ hf =>
    obtain ⟨a, -, hf⟩ := hf
    exact hf.elim
  | syncFailed _ _ _ _ hf => exact hf.elim
  | @done r t d₁ d₂ _ hpending hs hp =>
    refine Or.inr ⟨rfl, hpending, r, d₁, hs, ?_, fun n hn ↦ ?_⟩
    · rw [d₂.put_of_ne (by decide), hp.manifest]
    · rw [d₂.put_of_ne fun heq ↦ not_mem_segmentNames (by decide) (heq ▸ hn), hp.agree_segment hn]

/-- What a whole `Refresh` leaves. -/
def refreshedState (s : StoredState) (w : IndexWriter) : StoredState :=
  ⟨some (run (IndexWriter.refresh w) s.storage.now).1.2,
    s.storage.performs (trace (IndexWriter.refresh w) s.storage.now)⟩

/-- A whole `Refresh`. -/
theorem Persists.refreshed (h : Persists s L shelves) (hw : s.writer = some w)
    (hfits : ∀ ok, StepFits s.seen (.refreshed ok)) (henc : w.mutableSegment.Encodable)
    (hpending : w.mutableSegment = .build w.schema docs) (hlen : docs.length ≤ kNoMoreDocs) :
    ∃ L' shelves', Persists (refreshedState s w) L' shelves' ∧
      (((run (IndexWriter.refresh w) s.storage.now).1.1.isOk = false ∨ docs = []) ∧
          shelves' = shelves ∧ (refreshedState s w).storage.now kManifestName =
            s.storage.now kManifestName ∨
        (run (IndexWriter.refresh w) s.storage.now).1.1.isOk = true ∧ docs ≠ [] ∧
          shelves' = shelves ++ [⟨w.schema, docs⟩] ∧
          Publishes s .refreshCut (refreshedState s w) w.nextStem ⟨w.schema, docs⟩) := by
  have hret := returns_run Faults.none (IndexWriter.refresh w) s.storage.now
  rw [← now_performs_trace] at hret
  have hstep : WriterStep Faults.none s.seen
      (.refreshed (run (IndexWriter.refresh w) s.storage.now).1.1.isOk)
      (refreshedState s w).seen := .refreshed hw hret
  have hsafe : Safe (refreshedState s w).storage := h.safe.refresh w
  have hempty : w.mutableSegment.docCount = 0 ↔ docs = [] := by
    rw [hpending]
    exact List.length_eq_zero_iff
  have hwp : IndexWriter.refresh.wp (files Faults.none) w
      (fun r w' d' ↦ w.Refreshed Faults.none s.storage.now r w' d') (fun _ ↦ True) s.storage.now :=
    IndexWriter.wp_refresh (fun t ht ↦ (h.ready w hw t ht).1) (fun _ _ ↦ trivial) fun _ _ _ ↦ id
  rcases ((Method.wp_iff.1 hwp).1 _ _ _ hret).manifest_cases with
    ⟨hwhy, hm⟩ | ⟨hok, hne, r, d₁, hs, hm, hfiles⟩
  · obtain ⟨L', hpersists⟩ := h.still hstep (hfits _) hsafe hm
    exact ⟨L', shelves, hpersists, Or.inl ⟨hwhy.imp_right hempty.1, rfl, hm⟩⟩
  · obtain ⟨L', hpersists⟩ := h.next hstep (hfits _) hsafe hw hpending hlen henc hs hm hfiles
    exact ⟨L', _, hpersists, Or.inr ⟨hok, fun hnil ↦ hne (hempty.2 hnil), rfl,
      h.publishes (Or.inl rfl) hw hpending hs hm⟩⟩

/-- **The states a crash in a `Refresh` may leave** list what was listed before, or what is listed
in the end. -/
theorem Persists.refreshCut {S : Storage} {L' : Ledger} {shelves' : List Shelf}
    (h : Persists s L shelves) (hw : s.writer = some w)
    (hdone : Persists (refreshedState s w) L' shelves')
    (hstop : (IndexWriter.refresh w).Stops stored s.storage S) (hd : S.Survives d) :
    d kManifestName = s.storage.now kManifestName ∧
        (∃ L'', Persists ⟨none, .ofDisk d⟩ L'' shelves) ∨
      d kManifestName = (run (IndexWriter.refresh w) s.storage.now).2 kManifestName ∧
        ∃ L'', Persists ⟨none, .ofDisk d⟩ L'' shelves' := by
  obtain ⟨acts, hacts, rfl⟩ := stops_stored_iff.1 hstop
  have hover := h.kept.stems.writer w hw
  rcases h.safe.refreshCut hacts hd with hold | hnew
  · have hm := hold kManifestName (by decide) fun hmem ↦ (nextFiles_safe w hmem).2 rfl
    refine Or.inl ⟨hm, h.survives hm fun stem hstem n hn ↦
      hold n (safe_of_listed h.kept.stems hstem hn) fun hmem ↦ ?_⟩
    -- The writer seals under another stem.
    obtain ⟨m, -, -, hup⟩ := h.kept.stems.manifest
    obtain ⟨g, i, rfl, -⟩ := hup stem hstem
    have hne := (hover.taken _ (hover.listed hstem)).ne_nextStem
    exact segmentNames_disjoint hne hn
      (((sealBuffers w.mutableSegment w.nextStem).2.toList_names w.nextStem).subset hmem)
  · -- The files are those that the whole `Refresh` leaves.
    have hnow := now_performs_trace (IndexWriter.refresh w) s.storage
    rw [← hnow] at hnew ⊢
    exact Or.inr ⟨hnew _ (by decide), hdone.survives (hnew _ (by decide)) fun stem hstem n hn ↦
      hnew n (safe_of_listed hdone.kept.stems hstem hn)⟩

/-- **Every step keeps what was sealed**, and may list what a `Refresh` seals. -/
theorem StoredStep.persists (hstep : StoredStep s e s') (hfits : StoredFits s.seen e)
    (h : Persists s L shelves) : PersistsNext s e s' shelves := by
  have hattached : ∀ {w}, s.writer = some w → ∀ t, w.translog = some t → t.Attached :=
    fun hw t ht ↦ (h.ready _ hw t ht).1
  cases hstep with
  | opened hw hret =>
    exact h.moved (.opened hw (returns_seen hret).1) hfits
      (h.safe.returned (writesOnly_open _ _ _) hret)
  | added doc rawJson hw hret =>
    exact h.moved (.added doc rawJson hw (returns_seen hret).1) hfits
      (h.safe.returned ((writes_addDocument (hattached hw) doc rawJson _).mono (by decide)) hret)
  | @refreshed w w' r S hw hret =>
    refine h.moved (.refreshed hw (returns_seen hret).1) hfits ?_
    show Safe S
    rw [(returns_seen hret).2]
    exact h.safe.refresh w
  | closed hw hret =>
    exact h.moved (.closed hw (returns_seen hret).1) hfits
      (h.safe.returned (writesOnly_close _ _ _) hret)
  | openCut _ hstop hd => exact h.crashed (writesOnly_open _ _ _) hstop hd
  | addCut doc rawJson hw hstop hd =>
    have hwrites := (writes_addDocument (hattached hw) doc rawJson s.storage.now).mono
      (by decide : [kTranslogName] ⊆ unsafeNames)
    exact h.crashed hwrites hstop hd
  | closeCut _ hstop hd => exact h.crashed (writesOnly_close _ _ _) hstop hd
  | crashed hd =>
    have hnone : Writes unsafeNames (.ret () : Prog FileOp FileOp.Result Unit) s.storage.now :=
      fun _ ha ↦ absurd ha List.not_mem_nil
    exact h.crashed hnone (show _ = _ from rfl) hd
  | @refreshCut w S d hw hstop hd =>
    obtain ⟨docs, -, hkeeps⟩ := h.kept.writer _ hw
    obtain ⟨L', shelves', hdone, hmore⟩ := h.refreshed hw (hfits.cut rfl)
      (hfits.encodable _ hw (Or.inl rfl)) hkeeps.pending hkeeps.length
    rcases h.refreshCut hw hdone hstop hd with hold | ⟨hm, L'', hnew⟩
    · exact Or.inl hold
    · -- The manifest is that of the whole `Refresh`.
      have hnow := now_performs_trace (IndexWriter.refresh w) s.storage
      rw [← hnow] at hm
      rcases hmore with ⟨-, rfl, hsame⟩ | ⟨-, -, rfl, he, hseals, hlisted⟩
      · exact Or.inl ⟨hm.trans hsame, L'', hnew⟩
      · exact Or.inr ⟨L'', _, _, ⟨he, hseals, (listedStems_congr hm).trans hlisted⟩, hnew⟩

theorem persists_start : Persists .start {} [] :=
  ⟨kept_start True, WriterState.ready_start, ⟨{}, rfl, .nil⟩, safe_ofDisk _⟩

/-- **Every run** keeps what was sealed at any point of it. -/
theorem Persists.run {es : List WriterEvent} (h : Persists s L shelves)
    (hrun : Run (fun s e s' ↦ StoredStep s e s' ∧ StoredFits s.seen e) s es s') :
    ∃ L' more, Persists s' L' (shelves ++ more) := by
  refine hrun.invariant (I := fun s' ↦ ∃ L' more, Persists s' L' (shelves ++ more))
    ⟨L, [], (List.append_nil shelves).symm ▸ h⟩ ?_
  rintro s e s' ⟨L', more, h⟩ ⟨hstep, hfits⟩
  rcases hstep.persists hfits h with ⟨-, L'', h'⟩ | ⟨L'', stem, shelf, -, h'⟩
  · exact ⟨L'', more, h'⟩
  · exact ⟨L'', more ++ [shelf], (List.append_assoc ..) ▸ h'⟩

theorem exists_persists {es : List WriterEvent}
    (h : Run (fun s e s' ↦ StoredStep s e s' ∧ StoredFits s.seen e) .start es s) :
    ∃ L shelves, Persists s L shelves := by
  obtain ⟨L, shelves, hpersists⟩ := persists_start.run h
  exact ⟨L, _, hpersists⟩

theorem coherent_of_run {es : List WriterEvent} (h : Run StoredStep .start es s) :
    s.storage.Coherent := by
  refine h.invariant (I := fun s ↦ s.storage.Coherent) (Storage.coherent_ofDisk _) ?_
  intro s e s' h hstep
  have hreturned : ∀ {α : Type} {p : Prog FileOp FileOp.Result α} {a : α} {S : Storage},
      p.Returns stored s.storage a S → S.Coherent := fun hret ↦ by
    rw [(returns_stored_iff.1 hret).2]
    exact h.performs
  cases hstep with
  | opened _ hret | added _ _ _ hret | refreshed _ hret | closed _ hret => exact hreturned hret
  | openCut | addCut | refreshCut | closeCut | crashed => exact Storage.coherent_ofDisk _

/-- A crash may come in any state in which there is a writer, and may lose nothing. -/
theorem exists_refreshCut {es : List WriterEvent} (h : Run StoredStep .start es s)
    (hw : s.writer = some w) :
    StoredStep s .refreshCut ⟨none, .ofDisk s.storage.now⟩ :=
  .refreshCut hw (Prog.stops_start _ _) (coherent_of_run h).survives

/-- `Open` returns, with a writer or an error. -/
theorem exists_opened (initial : Option Schema) (d : Disk) :
    ∃ ok s', StoredStep ⟨none, .ofDisk d⟩ (.opened initial ok) s' :=
  ⟨_, _, .opened rfl (returns_stored_iff.2 ⟨rfl, rfl⟩)⟩

/-- The manifest is the one of another disk with the same file. -/
theorem Persists.lists_of_eq {m : Manifest} (h : Persists s L shelves)
    (hm : Manifest.ofDisk d = .ok m) (hsame : s.storage.now kManifestName = d kManifestName) :
    Lists s.storage.now m shelves := by
  obtain ⟨m', hlists⟩ := h.lists
  obtain rfl := Except.ok.inj ((Manifest.ofDisk_congr hsame).symm.trans hlists.1 |>.symm.trans hm)
  exact hlists

end Runs

/-- **A `Refresh` is atomic**, whatever a crash loses of what was not synced: afterwards the
manifest is the one there was, or the one that the whole `Refresh` leaves, and every segment that it
lists can be opened and agrees with what was sealed into it. If the whole `Refresh` returns `Ok`,
its manifest lists the pending documents, under the schema of the writer. -/
theorem refresh_atomic {es : List WriterEvent} {s : StoredState} {w : IndexWriter}
    (h : Run (fun s e s' ↦ StoredStep s e s' ∧ StoredFits s.seen e) .start es s)
    (hw : s.writer = some w) (hfits : StoredFits s.seen .refreshCut) :
    ∃ docs m shelves m' shelves', w.mutableSegment = .build w.schema docs ∧
      Lists s.storage.now m shelves ∧
      Lists (run (IndexWriter.refresh w) s.storage.now).2 m' shelves' ∧
      (((run (IndexWriter.refresh w) s.storage.now).1.1.isOk = false ∨ docs = []) ∧
          shelves' = shelves ∨
        (run (IndexWriter.refresh w) s.storage.now).1.1.isOk = true ∧ docs ≠ [] ∧
          shelves' = shelves ++ [⟨w.schema, docs⟩]) ∧
        ∀ s', StoredStep s .refreshCut s' →
          Lists s'.storage.now m shelves ∨ Lists s'.storage.now m' shelves' := by
  obtain ⟨L, shelves, hpersists⟩ := exists_persists h
  obtain ⟨docs, -, hkeeps⟩ := hpersists.kept.writer w hw
  obtain ⟨m, hm⟩ := hpersists.lists
  obtain ⟨L', shelves', hdone, hcases⟩ := hpersists.refreshed hw (hfits.cut rfl)
    (hfits.encodable w hw (Or.inl rfl)) hkeeps.pending hkeeps.length
  obtain ⟨m', hm'⟩ := hdone.lists
  have hnow : (refreshedState s w).storage.now = _ :=
    now_performs_trace (IndexWriter.refresh w) s.storage
  refine ⟨docs, m, shelves, m', shelves', hkeeps.pending, hm, hnow ▸ hm', ?_, fun s' hstep ↦ ?_⟩
  · exact hcases.imp (And.imp_right And.left) (And.imp_right (And.imp_right And.left))
  cases hstep with
  | @refreshCut w₁ S d hw₁ hstop hd =>
    obtain rfl := Option.some.inj (hw.symm.trans hw₁)
    rcases hpersists.refreshCut hw hdone hstop hd with ⟨hsame, L'', hcut⟩ | ⟨hsame, L'', hcut⟩
    · exact Or.inl (hcut.lists_of_eq hm.1 hsame)
    · exact Or.inr (hcut.lists_of_eq (hnow ▸ hm'.1) hsame)

/-- **What was sealed persists**: what the manifest listed in one state is listed in every later
one, whatever crashes lost in between. -/
theorem sealed_persists {es es' : List WriterEvent} {s s' : StoredState}
    (h : Run (fun s e s' ↦ StoredStep s e s' ∧ StoredFits s.seen e) .start es s)
    (h' : Run (fun s e s' ↦ StoredStep s e s' ∧ StoredFits s.seen e) s es' s') :
    ∃ m shelves m' more,
      Lists s.storage.now m shelves ∧ Lists s'.storage.now m' (shelves ++ more) := by
  obtain ⟨L, shelves, hpersists⟩ := exists_persists h
  obtain ⟨m, hm⟩ := hpersists.lists
  obtain ⟨L', more, hpersists'⟩ := hpersists.run h'
  obtain ⟨m', hm'⟩ := hpersists'.lists
  exact ⟨m, shelves, m', more, hm, hm'⟩

/-! ### Runs without a crash -/

section Returned

omit [LibcDecimal] in
/-- What a method does on a disk it does on storage. -/
theorem exists_returns_stored {α : Type} {p : Prog FileOp FileOp.Result α} {S : Storage} {a : α}
    {d' : Disk} (h : p.Returns (files Faults.none) S.now a d') :
    ∃ S', S'.now = d' ∧ p.Returns stored S a S' := by
  have hrun := run_of_returns h
  refine ⟨_, ?_, returns_stored_iff.2 ⟨congrArg Prod.fst hrun, rfl⟩⟩
  rw [now_performs_trace, hrun]

theorem exists_storedStep {S : Storage} {s s' : WriterState} {e : WriterEvent} (hS : S.now = s.disk)
    (hstep : WriterStep Faults.none s e s') (hreturned : e.Returned) :
    ∃ S', S'.now = s'.disk ∧ StoredStep ⟨s.writer, S⟩ e ⟨s'.writer, S'⟩ := by
  cases hstep with
  | opened hw hret =>
    obtain ⟨S', hS', hret'⟩ := exists_returns_stored (hS ▸ hret)
    exact ⟨S', hS', .opened hw hret'⟩
  | added doc rawJson hw hret =>
    obtain ⟨S', hS', hret'⟩ := exists_returns_stored (hS ▸ hret)
    exact ⟨S', hS', .added doc rawJson hw hret'⟩
  | refreshed hw hret =>
    obtain ⟨S', hS', hret'⟩ := exists_returns_stored (hS ▸ hret)
    exact ⟨S', hS', .refreshed hw hret'⟩
  | closed hw hret =>
    obtain ⟨S', hS', hret'⟩ := exists_returns_stored (hS ▸ hret)
    exact ⟨S', hS', .closed hw hret'⟩
  | openCut | addCut | refreshCut | crashed => exact hreturned.elim

/-- **Runs without a crash** are the same over storage. -/
theorem exists_storedRun {S : Storage} {s s' : WriterState} {es : List WriterEvent}
    (hS : S.now = s.disk)
    (h : Run (fun s e s' ↦ WriterStep Faults.none s e s' ∧ StoredFits s e ∧ e.Returned) s es s') :
    ∃ S', S'.now = s'.disk ∧ Run (fun s e s' ↦ StoredStep s e s' ∧ StoredFits s.seen e)
      ⟨s.writer, S⟩ es ⟨s'.writer, S'⟩ := by
  induction h with
  | start => exact ⟨S, hS, .start⟩
  | @step _ s₁ e s₂ _ hstep ih =>
    obtain ⟨S₁, hS₁, hrun⟩ := ih
    obtain ⟨S₂, hS₂, hstep'⟩ := exists_storedStep hS₁ hstep.1 hstep.2.2
    have hseen : StoredState.seen ⟨s₁.writer, S₁⟩ = s₁ := congrArg (WriterState.mk s₁.writer) hS₁
    exact ⟨S₂, hS₂, hrun.step ⟨hstep', hseen ▸ hstep.2.1⟩⟩

/-- What a `Refresh` that returned did. -/
theorem run_of_refreshed {s s' : WriterState} {w : IndexWriter} {ok : Bool}
    (h : WriterStep Faults.none s (.refreshed ok) s') (hw : s.writer = some w) :
    (run (IndexWriter.refresh w) s.disk).1.1.isOk = ok ∧
      (run (IndexWriter.refresh w) s.disk).2 = s'.disk := by
  generalize he : WriterEvent.refreshed ok = e at h
  cases h with
  | refreshed hw' hret =>
    obtain rfl := Option.some.inj (hw.symm.trans hw')
    rw [run_of_returns hret]
    exact ⟨(WriterEvent.refreshed.inj he).symm, rfl⟩
  | opened | openCut | added | addCut | refreshCut | closed | crashed => cases he

end Returned

section Samples

omit [LibcDecimal]

/-- Steps that are no `Refresh` need nothing to fit. -/
theorem storedFits_of_ne {s : WriterState} {e : WriterEvent} (hcut : e ≠ .refreshCut)
    (hrefreshed : ∀ ok, e ≠ .refreshed ok) : StoredFits s e where
  fits := by
    refine ⟨fun w _ _ ↦ ⟨?_, fun h ↦ absurd h (hrefreshed false)⟩, ?_⟩
    · rintro (h | ⟨ok, h⟩)
      exacts [absurd h hcut, absurd h (hrefreshed ok)]
    · rintro _ - (h | ⟨ok, h⟩)
      exacts [absurd h hcut, absurd h (hrefreshed ok)]
  cut h := absurd h hcut
  encodable := by
    rintro _ - (h | ⟨ok, h⟩)
    exacts [absurd h hcut, absurd h (hrefreshed ok)]

/-- A new index and a document, over storage. -/
theorem stored_sample : ∃ t S, S.now = sampleDisk ∧
    Run (fun s e s' ↦ @StoredStep .integral s e s' ∧ StoredFits s.seen e) .start
      [.opened (some sampleSchema) true, .added sampleDoc [] true] ⟨some (sampleWriter t), S⟩ ∧
    (∀ e, StoredFits (StoredState.seen ⟨some (sampleWriter t), S⟩) e) ∧
    (run (@IndexWriter.refresh .integral (sampleWriter t)) S.now).1.1.isOk = true := by
  let _ := LibcDecimal.integral
  obtain ⟨t, -, hrun⟩ := durable_sample Faults.none
  have hready := ready_of_run (hrun.mono fun _ _ _ h ↦ h.1.step)
  obtain ⟨S, hS, hstored⟩ := exists_storedRun (S := .ofDisk IndexWriter.noFiles) rfl
    ((hrun.and_events (P := fun e ↦ e ≠ .refreshCut ∧ ∀ ok, e ≠ .refreshed ok) (by simp)).mono
      fun _ _ _ h ↦ ⟨h.1.1.step, storedFits_of_ne h.2.1 h.2.2, h.1.2.1⟩)
  have hfits : ∀ e, StepFits ⟨some (sampleWriter t), S.now⟩ e := by
    refine fun e ↦ ⟨?_, ?_⟩
    · rintro _ ⟨⟩ -
      exact ⟨fun _ ↦ (by decide : (0 : UInt64).toNat + 1 < 2 ^ 64),
        fun _ ↦ (by decide : (0 : UInt32).toNat + 1 < 2 ^ 32)⟩
    · rintro _ ⟨⟩ -
      exact storable_sampleSegment
  refine ⟨t, S, hS, hstored, fun e ↦ ⟨hfits e, fun _ _ ↦ hfits _, ?_⟩, ?_⟩
  · rintro _ ⟨⟩ -
    exact encodable_sampleSegment
  obtain ⟨w, d, hstep, -⟩ := durable_refreshed_sample Faults.none hready
  rw [hS]
  exact (run_of_refreshed hstep.step rfl).1

theorem refresh_atomic_sample :
    ∃ (w : IndexWriter) (S : Storage), w.mutableSegment = sampleSegment ∧ S.now = sampleDisk ∧
      @StoredStep .integral ⟨some w, S⟩ .refreshCut ⟨none, .ofDisk sampleDisk⟩ ∧
      ∃ docs m shelves m', w.mutableSegment = @MutableSegment.build .integral w.schema docs ∧
        docs ≠ [] ∧ @Lists .integral S.now m shelves ∧
        @Lists .integral (run (@IndexWriter.refresh .integral w) S.now).2 m'
          (shelves ++ [⟨w.schema, docs⟩]) ∧
        ∀ s', @StoredStep .integral ⟨some w, S⟩ .refreshCut s' →
          @Lists .integral s'.storage.now m shelves ∨
            @Lists .integral s'.storage.now m' (shelves ++ [⟨w.schema, docs⟩]) := by
  let _ := LibcDecimal.integral
  obtain ⟨t, S, hS, hrun, hfits, hok⟩ := stored_sample
  have hcut := exists_refreshCut (hrun.mono fun _ _ _ h ↦ h.1) rfl
  refine ⟨sampleWriter t, S, rfl, hS, hS ▸ hcut, ?_⟩
  obtain ⟨docs, m, shelves, m', shelves', hpending, hm, hm', hcases, hcrash⟩ :=
    refresh_atomic hrun rfl (hfits _)
  rcases hcases with ⟨hfailed | hnil, -⟩ | ⟨-, hne, rfl⟩
  · rw [hok] at hfailed
    cases hfailed
  · rw [hnil] at hpending
    have hcount : sampleSegment.docCount = 0 := congrArg MutableSegment.docCount hpending
    exact absurd hcount sampleSegment_ne_zero
  · exact ⟨docs, m, shelves, m', hpending, hne, hm, hm', hcrash⟩

/-- A document that is sealed, a crash, and another `Open`. -/
theorem sealed_persists_sample :
    ∃ (s s' : StoredState) (ok : Bool),
      Run (fun s e s' ↦ @StoredStep .integral s e s' ∧ StoredFits s.seen e) .start
        [.opened (some sampleSchema) true, .added sampleDoc [] true, .refreshed true] s ∧
      Run (fun s e s' ↦ @StoredStep .integral s e s' ∧ StoredFits s.seen e) s
        [.crashed, .opened none ok] s' ∧
      ∃ m shelves m' more, shelves ≠ [] ∧ @Lists .integral s.storage.now m shelves ∧
        @Lists .integral s'.storage.now m' (shelves ++ more) := by
  let _ := LibcDecimal.integral
  obtain ⟨t, S, hS, hrun, hfits, hok⟩ := stored_sample
  have hrefreshed : StoredStep ⟨some (sampleWriter t), S⟩ (.refreshed true)
      (refreshedState ⟨some (sampleWriter t), S⟩ (sampleWriter t)) := by
    rw [← hok]
    exact .refreshed rfl (returns_stored_iff.2 ⟨rfl, rfl⟩)
  have hbefore := hrun.step ⟨hrefreshed, hfits _⟩
  set s := refreshedState ⟨some (sampleWriter t), S⟩ (sampleWriter t)
  have hcrashed : StoredStep s .crashed ⟨none, .ofDisk s.storage.now⟩ :=
    .crashed (coherent_of_run (hbefore.mono fun _ _ _ h ↦ h.1)).survives
  obtain ⟨ok, s', hopened⟩ := exists_opened none s.storage.now
  have hafter : Run (fun s e s' ↦ StoredStep s e s' ∧ StoredFits s.seen e) s
      [.crashed, .opened none ok] s' :=
    (Run.single ⟨hcrashed, storedFits_of_ne (by simp) (by simp)⟩).step
      ⟨hopened, storedFits_of_ne (by simp) (by simp)⟩
  refine ⟨s, s', ok, hbefore, hafter, ?_⟩
  obtain ⟨m, shelves, m', more, hm, hm'⟩ := sealed_persists hbefore hafter
  refine ⟨m, shelves, m', more, ?_, hm, hm'⟩
  -- The manifest lists what the `Refresh` has sealed.
  obtain ⟨L, shelves₀, hpersists⟩ := exists_persists hrun
  obtain ⟨docs, -, hkeeps⟩ := hpersists.kept.writer _ rfl
  obtain ⟨L', shelves₁, hdone, ⟨hfailed | hnil, -⟩ | ⟨-, -, rfl, -⟩⟩ := hpersists.refreshed rfl
    (fun ok ↦ (hfits (.refreshed ok)).fits) ((hfits .refreshCut).encodable _ rfl (Or.inl rfl))
      hkeeps.pending hkeeps.length
  · rw [hok] at hfailed
    cases hfailed
  · have hcount : sampleSegment.docCount = 0 := by
      rw [show sampleSegment = _ from hkeeps.pending, hnil]
      rfl
    exact absurd hcount sampleSegment_ne_zero
  · obtain ⟨m₁, hm₁⟩ := hdone.lists
    obtain rfl := Except.ok.inj (hm₁.1.symm.trans hm.1)
    have hlen := hm.2.length_eq.symm.trans hm₁.2.length_eq
    rintro rfl
    simp at hlen

end Samples

end Spp.Index
