import SearchPlusPlus.Base.Types
import SearchPlusPlus.Lib.Program
import Mathlib.Logic.Function.Basic

/-!
# File operations

`FileSink`, `FileSource` and the parts of `Directory` and `platform` the index uses, over a disk
that maps file names to contents. Every operating-system call is one `FileOp`; `exec` is its
fault-free effect, and `files F` the world in which the calls selected by `F` may also fail, or
be cut off in the middle by a crash.

A write that fails or is cut off leaves a prefix of its bytes. The other calls that fail change
nothing.
-/

namespace Spp.Store

/-- The files of the index directory. -/
abbrev Disk := Bytes → Option Bytes

/-- The operating-system calls that change the disk or make a change durable. -/
inductive FileAction where
  /-- `fopen` for writing, with mode `"wb"` or `"ab"`. -/
  | create (name : Bytes) (truncate : Bool)
  /-- `fwrite`. -/
  | write (name : Bytes) (bytes : Bytes)
  /-- `fflush` and `fsync`. -/
  | fsync (name : Bytes)
  /-- `fclose`. -/
  | fclose (name : Bytes)
  /-- `rename`. -/
  | rename (src dst : Bytes)
  /-- `fsync` of the directory. -/
  | fsyncDirectory
  /-- `std::filesystem::create_directories`. -/
  | createDirectories
  deriving DecidableEq

/-- The operating-system calls. -/
inductive FileOp where
  /-- `std::filesystem::exists`. -/
  | stat (name : Bytes)
  /-- `fopen` for reading, `fread` to the end and `fclose`. -/
  | load (name : Bytes)
  | act (a : FileAction)
  deriving DecidableEq

/-- What a call replies. -/
@[reducible] def FileOp.Result : FileOp → Type
  | stat _ => Bool
  | load _ => Expected Bytes
  | act _ => Expected Unit

/-- The content of a file, none when it does not exist. -/
def Disk.content (d : Disk) (name : Bytes) : Bytes := (d name).getD []

/-- Replace the content of a file. -/
def Disk.put (d : Disk) (name bytes : Bytes) : Disk := Function.update d name (some bytes)

/-- The reply and effect of an action that does not fail. -/
def FileAction.exec : FileAction → Disk → Expected Unit × Disk
  | create name truncate, d => (.ok (), d.put name (if truncate then [] else d.content name))
  | write name bytes, d => (.ok (), d.put name (d.content name ++ bytes))
  | rename src dst, d =>
    match d src with
    | some b => (.ok (), Disk.put (Function.update d src none) dst b)
    | none => (.error (.ioError (str "rename: No such file or directory")), d)
  | fsync _, d | fclose _, d | fsyncDirectory, d | createDirectories, d => (.ok (), d)

/-- The reply of a read that does not fail. -/
def loadReply (d : Disk) (name : Bytes) : Expected Bytes :=
  match d name with
  | some b => .ok b
  | none =>
    .error (.ioError (str "open for read '" ++ name ++ str "': No such file or directory"))

/-- The reply and effect of a call that does not fail. -/
def reply : (op : FileOp) → Disk → op.Result × Disk
  | .stat name, d => ((d name).isSome, d)
  | .load name, d => (loadReply d name, d)
  | .act a, d => a.exec d

/-- Run a program with no failure and no crash. -/
def run {α : Type} : Prog FileOp FileOp.Result α → Disk → α × Disk
  | .ret a, d => (a, d)
  | .call op k, d => run (k (reply op d).1) (reply op d).2

/-- What an action that fails or is cut off leaves. -/
def FileAction.Partial : FileAction → Disk → Disk → Prop
  | write name bytes, d, d' => ∃ k, d' = d.put name (d.content name ++ bytes.take k)
  | _, d, d' => d' = d

/-- Which calls may fail, and whether a crash may cut one off. -/
structure Faults where
  /-- The calls that may report a failure. -/
  fails : FileOp → Prop
  /-- Crashes may cut a call off. -/
  torn : Prop

/-- No call fails, and crashes come between calls. -/
def Faults.none : Faults := ⟨fun _ ↦ False, False⟩

/-- No call reports a failure. -/
def Faults.Quiet (F : Faults) : Prop := ∀ op, ¬F.fails op

/-- The same crashes, without failures. -/
def Faults.quiet (F : Faults) : Faults := ⟨fun _ ↦ False, F.torn⟩

/-- No call reports a failure but the reading of one file. -/
def Faults.QuietBut (F : Faults) (name : Bytes) : Prop := ∀ op, F.fails op → op = .load name

theorem Faults.Quiet.quietBut {F : Faults} (h : F.Quiet) (name : Bytes) : F.QuietBut name :=
  fun op hf ↦ absurd hf (h op)

theorem Faults.QuietBut.not_fails {F : Faults} {name : Bytes} (h : F.QuietBut name) {op : FileOp}
    (hop : op ≠ .load name) : ¬F.fails op :=
  fun hf ↦ hop (h op hf)

theorem Faults.quiet_quiet (F : Faults) : F.quiet.Quiet := fun _ h ↦ h

/-- The outcomes of a call under some faults. -/
def Outcome (F : Faults) : (op : FileOp) → Disk → op.Result → Disk → Prop
  | .stat name, d, r, d' => d' = d ∧ (r = (d name).isSome ∨ F.fails (.stat name) ∧ r = false)
  | .load name, d, r, d' =>
    d' = d ∧ (r = loadReply d name ∨ F.fails (.load name) ∧ ∃ m, r = .error (.ioError m))
  | .act a, d, r, d' =>
    (r, d') = a.exec d ∨ F.fails (.act a) ∧ (∃ m, r = .error (.ioError m)) ∧ a.Partial d d'

/-- The states a crash in the middle of a call may leave. -/
def CutOff (F : Faults) : FileOp → Disk → Disk → Prop
  | .act a, d, d' => F.torn ∧ a.Partial d d'
  | _, _, _ => False

/-- The world of the disk under some faults. -/
def files (F : Faults) : World FileOp FileOp.Result Disk := ⟨Outcome F, CutOff F⟩

/-- A method that calls the file system. -/
abbrev FileMethod := Method FileOp FileOp.Result Status

/-- A function that calls the file system. -/
abbrev FileM := FileMethod Unit

theorem outcome_reply (F : Faults) (op : FileOp) (d : Disk) :
    Outcome F op d (reply op d).1 (reply op d).2 := by
  cases op with
  | stat name => exact ⟨rfl, Or.inl rfl⟩
  | load name => exact ⟨rfl, Or.inl rfl⟩
  | act a => exact Or.inl rfl

theorem run_bind {α β : Type} (p : Prog FileOp FileOp.Result α)
    (f : α → Prog FileOp FileOp.Result β) (d : Disk) :
    run (p.bind f) d = run (f (run p d).1) (run p d).2 := by
  induction p generalizing d with
  | ret a => rfl
  | call op k ih => exact ih _ _

/-- The run of a method that returned goes on with what follows. -/
theorem run_seq {σ α β : Type} {m : FileMethod σ α} {f : α → FileMethod σ β} {s s' : σ} {a : α}
    {d d' : Disk} (h : run (m s) d = ((.ok a, s'), d')) :
    run ((m >>= f) s) d = run (f a s') d' := by
  refine (run_bind _ _ d).trans ?_
  rw [h]
  rfl

/-- The run without failures is one of the runs under any faults. -/
theorem returns_run (F : Faults) {α : Type} (p : Prog FileOp FileOp.Result α) (d : Disk) :
    p.Returns (files F) d (run p d).1 (run p d).2 := by
  induction p generalizing d with
  | ret a => exact ⟨rfl, rfl⟩
  | call op k ih => exact ⟨_, _, outcome_reply F op d, ih _ _⟩

/-- What holds of the run without faults holds of a run under any faults. -/
theorem returns_of_wp (F : Faults) {σ α : Type} {m : FileMethod σ α} {s : σ} {d : Disk}
    {Q : Expected α → σ → Disk → Prop} (h : m.wp (files Faults.none) s Q (fun _ ↦ True) d) :
    ∃ r s' d', (m s).Returns (files F) d (r, s') d' ∧ Q r s' d' :=
  ⟨_, _, _, returns_run F (m s) d, (Method.wp_iff.1 h).1 _ _ _ (returns_run Faults.none _ d)⟩

/-- Without faults there is no other run. -/
theorem run_of_returns {α : Type} {p : Prog FileOp FileOp.Result α} {d d' : Disk} {a : α}
    (h : p.Returns (files Faults.none) d a d') : run p d = (a, d') := by
  induction p generalizing d with
  | ret b =>
    obtain ⟨rfl, rfl⟩ := h
    rfl
  | call op k ih =>
    obtain ⟨r, d₁, hr, hk⟩ := h
    have hreply : reply op d = (r, d₁) := by
      cases op with
      | stat name =>
        obtain ⟨rfl, hr | hr⟩ := hr
        · exact congrArg (·, d₁) hr.symm
        · exact hr.1.elim
      | load name =>
        obtain ⟨rfl, hr | hr⟩ := hr
        · exact congrArg (·, d₁) hr.symm
        · exact hr.1.elim
      | act a =>
        rcases hr with hr | hr
        · exact hr.symm
        · exact hr.1.elim
    rw [run, hreply]
    exact ih r hk

/-- Perform an action, failing when it fails. -/
def act {σ : Type} (a : FileAction) : FileMethod σ Unit := do
  let r ← Method.perform (.act a)
  Method.done r

/-! ### FileSink -/

/-- `FileSink`. -/
structure FileSink where
  path : Bytes
  written : UInt64 := 0
  closed : Bool := false

namespace FileSink

open Method

/-- `FileSink::Create`. -/
def create (path : Bytes) (truncate : Bool) {σ : Type} : FileMethod σ FileSink := do
  act (.create path truncate)
  pure { path }

/-- `FileSink::Append`. -/
def append (bytes : Bytes) : FileMethod FileSink Unit := do
  let s ← self
  if s.closed then fail (.failedPrecondition (str "FileSink already closed"))
  else if bytes = [] then pure ()
  else
    act (.write s.path bytes)
    become { s with written := s.written + UInt64.ofNat bytes.length }

/-- `FileSink::Sync`, with `FileSink::Flush` inlined. -/
def sync : FileMethod FileSink Unit := do
  let s ← self
  if s.closed then fail (.failedPrecondition (str "FileSink already closed"))
  else act (.fsync s.path)

/-- `FileSink::Close`: the file is closed whatever the final sync says. -/
def close : FileMethod FileSink Unit := do
  let s ← self
  if s.closed then pure ()
  else
    let st ← attempt sync
    let closed ← attempt (act (.fclose s.path))
    become { s with closed := true }
    match st with
    | .error e => fail e
    | .ok () => done closed

end FileSink

open Method in
/-- `CreateFile`, `Append`, `Close`: the sequence that writes a whole file. After a failed append
the sink's destructor closes it. -/
def writeFile {σ : Type} (name bytes : Bytes) : FileMethod σ Unit := do
  let sink ← FileSink.create name true
  let (r, sink) ← owning sink (FileSink.append bytes)
  match r with
  | .error e =>
    let _ ← owning sink FileSink.close
    fail e
  | .ok () =>
    let (r, _) ← owning sink FileSink.close
    done r

/-! ### FileSource and Directory -/

namespace Directory

open Method

variable {σ : Type}

/-- `Directory::Exists`. -/
def fileExists (name : Bytes) : FileMethod σ Bool := perform (FileOp.stat name)

/-- `Directory::ReadFile`, which is `FileSource::LoadAll`. -/
def readFile (name : Bytes) : FileMethod σ Bytes := do
  let r ← perform (FileOp.load name)
  done r

/-- `Directory::AtomicRenameWithin`. -/
def atomicRename (src dst : Bytes) : FileMethod σ Unit := act (.rename src dst)

/-- `Directory::Sync`. -/
def sync : FileMethod σ Unit := act .fsyncDirectory

end Directory

/-! ### What the calls do -/

@[simp] theorem Disk.put_self (d : Disk) (name b : Bytes) : d.put name b name = some b :=
  Function.update_self ..

theorem Disk.put_of_ne (d : Disk) {name name' : Bytes} (h : name' ≠ name) (b : Bytes) :
    d.put name b name' = d name' :=
  Function.update_of_ne h ..

@[simp] theorem Disk.put_put (d : Disk) (name b b' : Bytes) :
    (d.put name b).put name b' = d.put name b' :=
  Function.update_idem ..

@[simp] theorem Disk.content_put (d : Disk) (name b : Bytes) : (d.put name b).content name = b := by
  rw [Disk.content, Disk.put_self, Option.getD_some]

section Rules

variable {F : Faults} {σ : Type} {s : σ} {d : Disk} {C : Disk → Prop}

theorem wp_act {a : FileAction} {Q : Expected Unit → σ → Disk → Prop} (hC : C d)
    (hcut : F.torn → ∀ d', a.Partial d d' → C d')
    (hdone : Q (a.exec d).1 s (a.exec d).2 ∧ C (a.exec d).2)
    (hfail : F.fails (.act a) → ∀ m d', a.Partial d d' → Q (.error (.ioError m)) s d' ∧ C d') :
    (act a).wp (files F) s Q C d := by
  refine Method.wp_bind.2 (Method.wp_perform.2 ⟨hC, fun d' h ↦ hcut h.1 d' h.2, ?_⟩)
  rintro r d' (h | ⟨hf, ⟨m, rfl⟩, hp⟩)
  · rw [← h] at hdone
    exact ⟨hdone, hdone.2⟩
  · exact ⟨hfail hf m d' hp, (hfail hf m d' hp).2⟩

/-- The rule for the actions that change nothing on the disk. -/
theorem wp_act_still {a : FileAction} {Q : Expected Unit → σ → Disk → Prop}
    (hexec : a.exec d = (.ok (), d)) (hpart : ∀ d', a.Partial d d' → d' = d) (hC : C d)
    (hdone : Q (.ok ()) s d) (hfail : F.fails (.act a) → ∀ m, Q (.error (.ioError m)) s d) :
    (act a).wp (files F) s Q C d := by
  refine wp_act hC (fun _ d' h ↦ hpart d' h ▸ hC) (by rw [hexec]; exact ⟨hdone, hC⟩) ?_
  intro hf m d' h
  rw [hpart d' h]
  exact ⟨hfail hf m, hC⟩

theorem Directory.wp_fileExists {name : Bytes} {Q : Expected Bool → σ → Disk → Prop} (hC : C d)
    (hdone : Q (.ok (d name).isSome) s d) (hfail : F.fails (.stat name) → Q (.ok false) s d) :
    (Directory.fileExists name).wp (files F) s Q C d := by
  refine Method.wp_perform.2 ⟨hC, fun d' h ↦ h.elim, ?_⟩
  rintro r d' ⟨rfl, rfl | ⟨hf, rfl⟩⟩
  · exact ⟨hdone, hC⟩
  · exact ⟨hfail hf, hC⟩

theorem Directory.wp_readFile {name : Bytes} {Q : Expected Bytes → σ → Disk → Prop} (hC : C d)
    (hdone : Q (loadReply d name) s d)
    (hfail : F.fails (.load name) → ∀ m, Q (.error (.ioError m)) s d) :
    (Directory.readFile name).wp (files F) s Q C d := by
  refine Method.wp_bind.2 (Method.wp_perform.2 ⟨hC, fun d' h ↦ h.elim, ?_⟩)
  rintro r d' ⟨rfl, rfl | ⟨hf, m, rfl⟩⟩
  · exact ⟨⟨hdone, hC⟩, hC⟩
  · exact ⟨⟨hfail hf m, hC⟩, hC⟩

theorem loadReply_of_some {name b : Bytes} (h : d name = some b) : loadReply d name = .ok b := by
  rw [loadReply, h]

end Rules

section SinkRules

variable {F : Faults} {s : FileSink} {d : Disk} {C : Disk → Prop}
  {Q : Expected Unit → FileSink → Disk → Prop}

/-- `Append` on an open sink: everything is written, or a failure leaves a prefix. -/
theorem FileSink.wp_append {bytes : Bytes} (hopen : s.closed = false) (hC : C d)
    (hempty : bytes = [] → Q (.ok ()) s d)
    (hcut : F.torn → ∀ k, C (d.put s.path (d.content s.path ++ bytes.take k)))
    (hdone : bytes ≠ [] → ∀ n, Q (.ok ()) { s with written := n }
      (d.put s.path (d.content s.path ++ bytes)) ∧ C (d.put s.path (d.content s.path ++ bytes)))
    (hfail : F.fails (.act (.write s.path bytes)) → ∀ m k,
      Q (.error (.ioError m)) s (d.put s.path (d.content s.path ++ bytes.take k)) ∧
        C (d.put s.path (d.content s.path ++ bytes.take k))) :
    (FileSink.append bytes).wp (files F) s Q C d := by
  refine Method.wp_bind.2 (Method.wp_self.2 ⟨?_, hC⟩)
  rw [Method.seq_ok, if_neg (by simp [hopen])]
  by_cases hb : bytes = []
  · rw [if_pos hb]
    exact ⟨hempty hb, hC⟩
  · rw [if_neg hb]
    refine Method.wp_bind.2 (wp_act hC ?_ ?_ ?_)
    · rintro ht d' ⟨k, rfl⟩
      exact hcut ht k
    · exact ⟨hdone hb _, (hdone hb s.written).2⟩
    · rintro hf m d' ⟨k, rfl⟩
      exact hfail hf m k

/-- A closed sink refuses to append. -/
theorem FileSink.wp_append_closed {bytes : Bytes} (hclosed : s.closed = true) (hC : C d)
    (hrefuse : ∀ m, Q (.error (.failedPrecondition m)) s d) :
    (FileSink.append bytes).wp (files F) s Q C d := by
  refine Method.wp_bind.2 (Method.wp_self.2 ⟨?_, hC⟩)
  rw [Method.seq_ok, if_pos hclosed]
  exact ⟨hrefuse _, hC⟩

theorem FileSink.wp_sync (hopen : s.closed = false) (hC : C d) (hdone : Q (.ok ()) s d)
    (hfail : F.fails (.act (.fsync s.path)) → ∀ m, Q (.error (.ioError m)) s d) :
    FileSink.sync.wp (files F) s Q C d := by
  refine Method.wp_bind.2 (Method.wp_self.2 ⟨?_, hC⟩)
  rw [Method.seq_ok, if_neg (by simp [hopen])]
  exact wp_act_still rfl (fun _ ↦ id) hC hdone hfail

/-- `Close` leaves the disk alone and the sink closed, whatever it returns. -/
theorem FileSink.wp_close (hC : C d) (hdone : Q (.ok ()) { s with closed := true } d)
    (hfail : s.closed = false →
      F.fails (.act (.fsync s.path)) ∨ F.fails (.act (.fclose s.path)) →
      ∀ m, Q (.error (.ioError m)) { s with closed := true } d) :
    FileSink.close.wp (files F) s Q C d := by
  refine Method.wp_bind.2 (Method.wp_self.2 ⟨?_, hC⟩)
  simp only [Method.seq_ok]
  by_cases hopen : s.closed = true
  · rw [if_pos hopen]
    obtain ⟨path, written, closed⟩ := s
    cases hopen
    exact ⟨hdone, hC⟩
  · have hopen' : s.closed = false := by simpa using hopen
    rw [if_neg hopen]
    -- The file is closed after either outcome of the sync; only the status differs.
    refine Method.wp_bind.2 (Method.wp_attempt.2 (FileSink.wp_sync hopen' hC ?_ ?_))
    · refine Method.wp_bind.2 (Method.wp_attempt.2 (wp_act_still rfl (fun _ ↦ id) hC ?_ ?_))
      · exact Method.wp_bind.2 ⟨⟨hdone, hC⟩, hC⟩
      · exact fun hf m ↦ Method.wp_bind.2 ⟨⟨hfail hopen' (Or.inr hf) m, hC⟩, hC⟩
    · intro hf m
      have herror := hfail hopen' (Or.inl hf) m
      refine Method.wp_bind.2 (Method.wp_attempt.2 (wp_act_still rfl (fun _ ↦ id) hC ?_ ?_))
      · exact Method.wp_bind.2 ⟨⟨herror, hC⟩, hC⟩
      · exact fun _ _ ↦ Method.wp_bind.2 ⟨⟨herror, hC⟩, hC⟩

end SinkRules

/-- The actions `writeFile` performs. -/
def writeFileActions (name bytes : Bytes) : List FileAction :=
  [.create name true, .write name bytes, .fsync name, .fclose name]

/-- **Writing a whole file**: the disk differs at that name only; there it holds a prefix of the
bytes, and all of them when the result is `Ok`. -/
theorem wp_writeFile {F : Faults} {σ : Type} {s : σ} {d : Disk} {C : Disk → Prop}
    {Q : Expected Unit → σ → Disk → Prop} {name bytes : Bytes} (hC : C d)
    (hput : ∀ x, x <+: bytes → C (d.put name x)) (hdone : Q (.ok ()) s (d.put name bytes))
    (hfail : (∃ a ∈ writeFileActions name bytes, F.fails (.act a)) →
      ∀ m d', (d' = d ∨ ∃ x, d' = d.put name x) → Q (.error (.ioError m)) s d') :
    (writeFile name bytes).wp (files F) s Q C d := by
  have hempty := hput [] List.nil_prefix
  have hwhole := hput bytes List.prefix_rfl
  have htake := fun k ↦ hput (bytes.take k) (List.take_prefix k bytes)
  refine Method.wp_bind.2 (Method.wp_bind.2 (wp_act hC ?_ ?_ ?_))
  · rintro - d' rfl
    exact hC
  · refine ⟨⟨?_, hempty⟩, hempty⟩
    refine Method.wp_bind.2 (Method.wp_owning.2 (FileSink.wp_append rfl hempty ?_ ?_ ?_ ?_))
    · rintro rfl
      refine Method.wp_bind.2 (Method.wp_owning.2 (FileSink.wp_close hempty ?_ ?_))
      · exact ⟨hdone, hempty⟩
      · intro _ hf m
        refine ⟨hfail ?_ m _ (Or.inr ⟨_, rfl⟩), hempty⟩
        rcases hf with hf | hf
        · exact ⟨_, by simp [writeFileActions], hf⟩
        · exact ⟨_, by simp [writeFileActions], hf⟩
    · intro _ k
      simp only [FileAction.exec, if_true, Disk.content_put, List.nil_append, Disk.put_put]
      exact htake k
    · intro _ n
      simp only [FileAction.exec, if_true, Disk.content_put, List.nil_append, Disk.put_put]
      refine ⟨Method.wp_bind.2 (Method.wp_owning.2 (FileSink.wp_close hwhole ?_ ?_)), hwhole⟩
      · exact ⟨hdone, hwhole⟩
      · intro _ hf m
        refine ⟨hfail ?_ m _ (Or.inr ⟨_, rfl⟩), hwhole⟩
        rcases hf with hf | hf
        · exact ⟨_, by simp [writeFileActions], hf⟩
        · exact ⟨_, by simp [writeFileActions], hf⟩
    · intro hf m k
      have hwrite : ∃ a ∈ writeFileActions name bytes, F.fails (.act a) :=
        ⟨_, by simp [writeFileActions], hf⟩
      simp only [FileAction.exec, if_true, Disk.content_put, List.nil_append, Disk.put_put]
      refine ⟨Method.wp_bind.2 (Method.wp_owning.2 (FileSink.wp_close (htake k) ?_ ?_)), htake k⟩
      · exact ⟨hfail hwrite m _ (Or.inr ⟨_, rfl⟩), htake k⟩
      · exact fun _ _ _ ↦ ⟨hfail hwrite m _ (Or.inr ⟨_, rfl⟩), htake k⟩
  · rintro hf m d' rfl
    exact ⟨hfail ⟨_, by simp [writeFileActions], hf⟩ m d' (Or.inl rfl), hC⟩

/-- A whole file can be written. -/
theorem returns_writeFile (F : Faults) {σ : Type} (s : σ) (name bytes : Bytes) (d : Disk) :
    (writeFile name bytes s).Returns (files F) d (.ok (), s) (d.put name bytes) := by
  have hwp : (writeFile name bytes).wp (files Faults.none) s
      (fun r s' d' ↦ ((r, s'), d') = ((.ok (), s), d.put name bytes)) (fun _ ↦ True) d := by
    refine wp_writeFile trivial (fun _ _ ↦ trivial) rfl ?_
    rintro ⟨_, _, h⟩
    exact h.elim
  obtain ⟨r, s', d', hret, hd'⟩ := returns_of_wp F hwp
  cases hd'
  exact hret

/-! ### Writing several files -/

/-- The second disk differs from the first at these names only. -/
def AgreeOff (names : List Bytes) (d d' : Disk) : Prop := ∀ n, n ∉ names → d' n = d n

theorem AgreeOff.refl (names : List Bytes) (d : Disk) : AgreeOff names d d := fun _ _ ↦ rfl

theorem AgreeOff.trans {names : List Bytes} {d d' d'' : Disk} (h : AgreeOff names d d')
    (h' : AgreeOff names d' d'') : AgreeOff names d d'' :=
  fun n hn ↦ (h' n hn).trans (h n hn)

theorem AgreeOff.mono {names names' : List Bytes} {d d' : Disk} (h : AgreeOff names d d')
    (hsub : names ⊆ names') : AgreeOff names' d d' :=
  fun n hn ↦ h n fun h' ↦ hn (hsub h')

theorem agreeOff_put {names : List Bytes} {name : Bytes} (h : name ∈ names) (d : Disk) (b : Bytes) :
    AgreeOff names d (d.put name b) :=
  fun _ hn ↦ d.put_of_ne (fun h' ↦ hn (by rwa [h'])) b

/-- Write whole files one after the other. -/
def writeFiles {σ : Type} : List (Bytes × Bytes) → FileMethod σ Unit
  | [] => pure ()
  | (name, bytes) :: l => do
    writeFile name bytes
    writeFiles l

/-- **Writing several files** changes nothing else; after `Ok` each holds its bytes. -/
theorem wp_writeFiles {F : Faults} {σ : Type} {s : σ} {C : Disk → Prop}
    {Q : Expected Unit → σ → Disk → Prop} (l : List (Bytes × Bytes)) :
    ∀ {d : Disk}, (l.map Prod.fst).Nodup →
      (∀ d', AgreeOff (l.map Prod.fst) d d' → C d') →
      (∀ d', AgreeOff (l.map Prod.fst) d d' → (∀ p ∈ l, d' p.1 = some p.2) → Q (.ok ()) s d') →
      ((∃ p ∈ l, ∃ a ∈ writeFileActions p.1 p.2, F.fails (.act a)) →
        ∀ m d', AgreeOff (l.map Prod.fst) d d' → Q (.error (.ioError m)) s d') →
      (writeFiles l).wp (files F) s Q C d := by
  induction l with
  | nil =>
    intro d _ hC hdone _
    exact ⟨hdone d (AgreeOff.refl _ _) (by simp), hC d (AgreeOff.refl _ _)⟩
  | cons p l ih =>
    intro d hnodup hC hdone hfail
    obtain ⟨name, bytes⟩ := p
    obtain ⟨hnew, hnodup'⟩ := List.nodup_cons.1 hnodup
    have hput : ∀ x, AgreeOff (((name, bytes) :: l).map Prod.fst) d (d.put name x) :=
      agreeOff_put List.mem_cons_self d
    have htail : ∀ {d'}, AgreeOff (l.map Prod.fst) (d.put name bytes) d' →
        AgreeOff (((name, bytes) :: l).map Prod.fst) d d' :=
      fun h ↦ (hput bytes).trans (h.mono (List.subset_cons_self _ _))
    refine Method.wp_bind.2 (wp_writeFile (hC d (AgreeOff.refl _ _))
      (fun x _ ↦ hC _ (hput x)) ?_ ?_)
    · refine ih hnodup' (fun d' h ↦ hC d' (htail h)) (fun d' h hl ↦ hdone d' (htail h) ?_) ?_
      · intro q hq
        rcases List.mem_cons.1 hq with rfl | hq
        · rw [h _ hnew, Disk.put_self]
        · exact hl q hq
      · rintro ⟨q, hq, ha⟩ m d' h
        exact hfail ⟨q, List.mem_cons_of_mem _ hq, ha⟩ m d' (htail h)
    · rintro ha m d' (rfl | ⟨x, rfl⟩)
      · exact hfail ⟨_, List.mem_cons_self, ha⟩ m _ (AgreeOff.refl _ _)
      · exact hfail ⟨_, List.mem_cons_self, ha⟩ m _ (hput x)

end Spp.Store
