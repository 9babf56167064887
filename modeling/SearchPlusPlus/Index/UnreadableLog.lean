import SearchPlusPlus.Index.WriterRun

/-!
# An unreadable translog

`FileSource::LoadAll` reports one status code for a file that is missing and for one that cannot
be read, and `Replay` takes that code for an empty log. So an `Open` that cannot read the log
opens the index without the logged documents (`wp_open_unreadable`), and the next `Refresh` with a
document pending truncates the log they are in (`losesLog_sample`).
-/

namespace Spp.Index

open Store

/-! ### The world -/

/-- The outcome of a call when the translog cannot be read, with the message of that failure. -/
def UnreadableOutcome (m : Bytes) : (op : FileOp) → Disk → op.Result → Disk → Prop
  | .load name, d, r, d' =>
    d' = d ∧ r = if name = kTranslogName then .error (.ioError m) else loadReply d name
  | .stat name, d, r, d' => d' = d ∧ r = (d name).isSome
  | .act a, d, r, d' => (r, d') = a.exec d

/-- The world in which the translog cannot be read, and nothing else fails. -/
def unreadable (m : Bytes) : World FileOp FileOp.Result Disk :=
  ⟨UnreadableOutcome m, fun _ _ _ ↦ False⟩

/-- The failure of that world. -/
def logReadFault : Faults := ⟨fun op ↦ op = .load kTranslogName, False⟩

theorem logReadFault_quietBut : logReadFault.QuietBut kTranslogName := fun _ ↦ id

theorem unreadable_outcome {m : Bytes} {op : FileOp} {d d' : Disk} {r : op.Result}
    (h : UnreadableOutcome m op d r d') : Outcome logReadFault op d r d' := by
  cases op with
  | stat name => exact ⟨h.1, Or.inl h.2⟩
  | act a => exact Or.inl h
  | load name =>
    obtain ⟨rfl, rfl⟩ := h
    refine ⟨rfl, ?_⟩
    split_ifs with hname
    · exact Or.inr ⟨congrArg FileOp.load hname, m, rfl⟩
    · exact Or.inl rfl

/-- What holds of the runs in which the read of the log may fail holds of those in which it
does. -/
theorem wp_unreadable {m : Bytes} {σ α : Type} {p : FileMethod σ α} {s : σ} {d : Disk}
    {Q : Expected α → σ → Disk → Prop} {C : Disk → Prop}
    (h : p.wp (files logReadFault) s Q C d) : p.wp (unreadable m) s Q C d :=
  Prog.wp_world h (fun _ _ _ _ ↦ unreadable_outcome) fun _ _ _ h ↦ h.elim

/-- Every program has a run there. -/
theorem exists_returns_unreadable (m : Bytes) {α : Type} (p : Prog FileOp FileOp.Result α)
    (d : Disk) : ∃ a d', p.Returns (unreadable m) d a d' := by
  induction p generalizing d with
  | ret a => exact ⟨a, d, rfl, rfl⟩
  | call op k ih =>
    obtain ⟨r, d₁, hr⟩ : ∃ r d₁, UnreadableOutcome m op d r d₁ := by
      cases op with
      | stat name => exact ⟨_, d, rfl, rfl⟩
      | load name => exact ⟨_, d, rfl, rfl⟩
      | act a => exact ⟨_, _, rfl⟩
    obtain ⟨a, d', h⟩ := ih r d₁
    exact ⟨a, d', r, d₁, hr, h⟩

/-- `Replay` finds no record. -/
theorem Translog.wp_replay_unreadable {m : Bytes} {σ : Type} {s : σ} {d : Disk}
    {Q : Expected (List Bytes) → σ → Disk → Prop} {C : Disk → Prop} (hC : C d)
    (hdone : Q (.ok []) s d) :
    (Translog.replay : FileMethod σ (List Bytes)).wp (unreadable m) s Q C d := by
  refine Method.wp_bind.2 (Method.wp_attempt.2 (Method.wp_bind.2 (Method.wp_perform.2
    ⟨hC, fun _ h ↦ h.elim, ?_⟩)))
  rintro r d' ⟨rfl, rfl⟩
  rw [if_pos rfl]
  exact ⟨⟨⟨hdone, hC⟩, hC⟩, hC⟩

/-! ### Opening -/

namespace IndexWriter

variable [LibcDecimal]

/-- What comes before the replay fails: the schema cannot be found, the manifest cannot be loaded,
or a segment it lists cannot be opened. -/
def BootstrapFails (initial : Option Schema) (d : Disk) : Prop :=
  ∀ schema d₁ t w, SchemaFound initial d (.ok schema) d₁ → ofManifest d₁ schema t ≠ .ok w

/-- **`Open`** when the log cannot be read: the logged documents are left out. -/
theorem wp_open_unreadable (m : Bytes) (initial : Option Schema) (d : Disk) :
    (IndexWriter.open initial).wp (unreadable m) ()
      (fun r _ d' ↦ (∃ schema d₁ t w, r = .ok w ∧ SchemaFound initial d (.ok schema) d₁ ∧
        Translog.Usable t ∧ ofManifest d₁ schema t = .ok w ∧ d' = touched d₁) ∨
          (∃ e, r = .error e) ∧ BootstrapFails initial d)
      (fun _ ↦ True) d := by
  refine Method.wp_bind.2 (wp_unreadable (wp_act_still rfl (fun _ ↦ id) trivial ?_ ?_))
  · refine Method.seq_ok.2 (Method.wp_bind.2 (wp_unreadable (wp_bootstrapInitial
      logReadFault_quietBut trivial (fun _ _ _ _ _ ↦ trivial) (fun _ _ _ ↦ trivial) ?_ ?_)))
    · intro schema d₁ t w hfound ht hw
      refine Method.seq_ok.2 (Method.wp_bind.2
        (Method.wp_owning.2 (Method.wp_bind.2 ⟨?_, trivial⟩)))
      refine Method.seq_ok.2 (Method.wp_bind.2 (Translog.wp_replay_unreadable trivial ?_))
      exact ⟨⟨Or.inl ⟨schema, d₁, t, w, rfl, hfound, ht, hw, rfl⟩, trivial⟩, trivial⟩
    · exact fun h e d' _ ↦ Or.inr ⟨⟨e, rfl⟩, h⟩
  · intro hf
    cases hf

/-- `Open` succeeds without a document pending although the log holds something, and one
`AddDocument` and one `Refresh` later the log is empty. -/
def LosesLog (F : Faults) (m : Bytes) (initial : Option Schema) (d : Disk) : Prop :=
  d.content kTranslogName ≠ [] ∧ ∃ w d₁ doc rawJson s₁ s₂,
    (IndexWriter.open initial ()).Returns (unreadable m) d (.ok w, ()) d₁ ∧
      w.mutableSegment.docCount = 0 ∧
      WriterStep F ⟨some w, d₁⟩ (.added doc rawJson true) s₁ ∧
      WriterStep F s₁ (.refreshed true) s₂ ∧ s₂.disk.content kTranslogName = []

section Samples

omit [LibcDecimal]

/-- A log with one record, that of `sampleDoc`: after an `Open` that cannot read it, adding a
document and refreshing empties it. -/
theorem losesLog_sample (F : Faults) : @LosesLog .integral F (str "read") none sampleDisk := by
  let _ := LibcDecimal.integral
  obtain ⟨⟨r, _⟩, d', hret⟩ :=
    exists_returns_unreadable (str "read") (IndexWriter.open none ()) sampleDisk
  have hschema : sampleDisk kSchemaFilename = some sampleSchema.toText := by
    rw [sampleDisk, logged, Disk.put_of_ne _ (by decide), touched, Disk.put_of_ne _ (by decide),
      Disk.put_self]
  have hmanifest : sampleDisk kManifestName = none := by
    rw [sampleDisk, logged, Disk.put_of_ne _ (by decide), touched, Disk.put_of_ne _ (by decide),
      Disk.put_of_ne _ (by decide)]
    rfl
  have hfound := schemaFound_sample none hschema
  have hof : ∀ t, ofManifest sampleDisk sampleSchema t = .ok (fresh sampleSchema t) := fun t ↦ by
    have hm : Manifest.ofDisk sampleDisk = .ok {} := by rw [Manifest.ofDisk, hmanifest]
    exact bind_eq_ok.2 ⟨_, hm, rfl⟩
  have hcontent : sampleDisk.content kTranslogName ≠ [] := by
    rw [sampleDisk, logged, Disk.content_put]
    exact List.append_ne_nil_of_right_ne_nil _ (record_ne_nil _)
  rcases (Method.wp_iff.1 (wp_open_unreadable (str "read") none sampleDisk)).1 _ _ _ hret with
    ⟨schema, d₁, t, w, rfl, hfound', ht, hw, rfl⟩ | ⟨-, hfails⟩
  · obtain ⟨hschema', rfl⟩ := hfound'.unique hfound
    cases hschema'
    cases (hof t).symm.trans hw
    have hready : WriterState.Ready ⟨some (fresh sampleSchema t), touched sampleDisk⟩ :=
      ht.ready rfl sampleDisk
    obtain ⟨t', ht', hadd⟩ := step_added F rfl hready rfl ht addDocument_sample
    have hopens : ∀ d, Holds (sampleWriter t').nextFiles d →
        ∃ r, SegmentReader.openDisk d (sampleWriter t').nextStem = .ok r :=
      fun d hd ↦ sampleSegment_opens hd
    obtain ⟨r, t₂, d₁, d₂, -, -, -, href⟩ := step_refreshed F rfl
      ((hadd.move hready).ready hready) (Option.some_ne_none t') sampleSegment_ne_zero
        fun d _ ↦ hopens d
    exact ⟨hcontent, _, _, sampleDoc, [], _, _, hret, rfl, hadd, href, Disk.content_put ..⟩
  · exact absurd (hof ⟨none, 0⟩) (hfails _ _ _ _ hfound)

end Samples

end IndexWriter

end Spp.Index
