import SearchPlusPlus.Store.FileIo
import SearchPlusPlus.Store.FixedWidth
import Mathlib.Logic.Relation

/-!
# The translog

`Translog`: an append-only log of length-prefixed records that is fsynced on every append. The
first part is the code and one rule for each method. The second part is about runs: attempts that
succeed, fail or are cut off, with any number of crashes and reopenings between them.

A torn record shifts the framing of every byte after it. So what was appended is replayed as long
as nothing is appended behind a torn record (`LogRun.replays`), and not otherwise
(`not_replays_torn`).
-/

namespace Spp.Index

open Store

/-- The default `filename` of `Translog::Open`. -/
def kTranslogName : Bytes := str "translog.bin"

/-- `Translog`. -/
structure Translog where
  sink : Option FileSink
  bytes : UInt64 := 0

/-- The length prefix of a record. -/
def recordHeader (payload : Bytes) : Bytes := u32LE (UInt32.ofNat payload.length)

/-- The bytes of a record. -/
def record (payload : Bytes) : Bytes := recordHeader payload ++ payload

/-- The loop of `Replay`: it stops at the first record that is not all there. Every record takes
bytes, so the length of the file is fuel enough. -/
def recordsFrom : ℕ → Bytes → List Bytes
  | 0, _ => []
  | fuel + 1, bytes =>
    if bytes.length < 4 then []
    else
      let len := unpackLE (bytes.take 4)
      let rest := bytes.drop 4
      if rest.length < len then [] else rest.take len :: recordsFrom fuel (rest.drop len)

/-- The records of a file. -/
def records (bytes : Bytes) : List Bytes := recordsFrom bytes.length bytes

namespace Translog

open Method

/-- `Translog::Open`, with `OpenAppend` inlined. -/
def «open» {σ : Type} : FileMethod σ Translog := do
  let sink ← FileSink.create kTranslogName false
  pure { sink := some sink, bytes := sink.written }

/-- The calls on the sink of `Append`. -/
def appendRecord (payload : Bytes) : FileMethod FileSink Unit := do
  FileSink.append (recordHeader payload)
  FileSink.append payload
  FileSink.sync

/-- `Append`. -/
def append (payload : Bytes) : FileMethod Translog Unit := do
  let t ← self
  match t.sink with
  | none => fail (.failedPrecondition (str "translog not open"))
  | some sink =>
    let (r, sink) ← owning sink (appendRecord payload)
    match r with
    | .error e =>
      become { t with sink := some sink }
      fail e
    | .ok () => become { sink := some sink, bytes := t.bytes + UInt64.ofNat (4 + payload.length) }

/-- `Replay`: a file that cannot be read counts as empty. -/
def replay {σ : Type} : FileMethod σ (List Bytes) := do
  let src ← attempt (Directory.readFile kTranslogName)
  match src with
  | .ok bytes => pure (records bytes)
  | .error e => if e.code = .ioError then pure [] else fail e

/-- `Truncate`: close, recreate empty, fsync. -/
def truncate : FileMethod Translog Unit := do
  let t ← self
  let closed ← match t.sink with
    | some sink => owning sink FileSink.close
    | none => pure (.ok (), { path := kTranslogName, closed := true })
  match closed with
  | (.error e, sink) =>
    become { t with sink := some sink }
    fail e
  | (.ok (), _) =>
    become { t with sink := none }
    let sink ← FileSink.create kTranslogName true
    let (r, sink) ← owning sink FileSink.sync
    become { sink := some sink, bytes := 0 }
    done r

/-- `Close`. -/
def close : FileMethod Translog Unit := do
  let t ← self
  match t.sink with
  | none => pure ()
  | some sink =>
    let (r, _) ← owning sink FileSink.close
    become { t with sink := none }
    done r

end Translog

/-! ### Records -/

theorem record_length (payload : Bytes) : (record payload).length = 4 + payload.length := by
  simp [record, recordHeader]

theorem unpackLE_recordHeader {payload : Bytes} (h : payload.length < 2 ^ 32) :
    unpackLE (recordHeader payload) = payload.length := by
  have hval : (UInt32.ofNat payload.length).toNat = payload.length := by
    rw [UInt32.toNat_ofNat']
    exact Nat.mod_eq_of_lt h
  rw [recordHeader, u32LE, unpackLE_packLE, hval]
  exact Nat.mod_eq_of_lt h

/-- More fuel than bytes changes nothing. -/
theorem recordsFrom_fuel : ∀ (fuel fuel' : ℕ) (bytes : Bytes), bytes.length ≤ fuel →
    bytes.length ≤ fuel' → recordsFrom fuel bytes = recordsFrom fuel' bytes := by
  intro fuel
  induction fuel with
  | zero =>
    intro fuel' bytes h _
    cases fuel' with
    | zero => rfl
    | succ fuel' => rw [recordsFrom, recordsFrom, if_pos (by omega)]
  | succ fuel ih =>
    intro fuel' bytes h h'
    cases fuel' with
    | zero => rw [recordsFrom, recordsFrom, if_pos (by omega)]
    | succ fuel' =>
      rw [recordsFrom, recordsFrom]
      split
      · rfl
      · next hlong =>
        simp only
        split
        · rfl
        · rw [ih fuel' _ (by simp only [List.length_drop]; omega)
            (by simp only [List.length_drop]; omega)]

/-- Fewer bytes than a header and its payload are no record. -/
theorem records_of_starts {payload b : Bytes} (hlen : payload.length < 2 ^ 32)
    (hb : b <+: record payload) (hne : b ≠ record payload) : records b = [] := by
  have hshort : b.length < 4 + payload.length := by
    rw [← record_length]
    exact lt_of_le_of_ne hb.length_le fun h ↦ hne (hb.eq_of_length h)
  rw [records]
  cases hl : b.length with
  | zero => rfl
  | succ n =>
    rw [recordsFrom]
    split
    · rfl
    · next hlong =>
      have htake : b.take 4 = recordHeader payload := by
        obtain ⟨rest, hrest⟩ := hb
        have h4 : (b ++ rest).take 4 = recordHeader payload := by
          rw [hrest, record, List.take_append_of_le_length (by simp [recordHeader])]
          exact List.take_of_length_le (by simp [recordHeader])
        rwa [List.take_append_of_le_length (by omega)] at h4
      simp only [htake, unpackLE_recordHeader hlen, List.length_drop]
      rw [if_pos (by omega)]

/-- A whole record comes first. -/
theorem records_record_append {payload : Bytes} (h : payload.length < 2 ^ 32) (rest : Bytes) :
    records (record payload ++ rest) = payload :: records rest := by
  have hlen : (record payload ++ rest).length = (3 + payload.length + rest.length) + 1 := by
    rw [List.length_append, record_length]
    omega
  have hhdr : (recordHeader payload).length = 4 := by simp [recordHeader]
  have htake : (record payload ++ rest).take 4 = recordHeader payload := by
    rw [record, List.append_assoc, ← hhdr, List.take_left]
  have hdrop : (record payload ++ rest).drop 4 = payload ++ rest := by
    rw [record, List.append_assoc, ← hhdr, List.drop_left]
  rw [records, hlen, recordsFrom, if_neg (by omega)]
  simp only [htake, hdrop, unpackLE_recordHeader h]
  rw [if_neg (by simp), List.take_left, List.drop_left, records]
  rw [recordsFrom_fuel _ rest.length rest (by omega) le_rfl]

/-- **Replaying whole records** and a torn one gives the whole ones. -/
theorem records_flatMap {payloads : List Bytes} (h : ∀ p ∈ payloads, p.length < 2 ^ 32)
    (rest : Bytes) : records (payloads.flatMap record ++ rest) = payloads ++ records rest := by
  induction payloads with
  | nil => rfl
  | cons p payloads ih =>
    rw [List.flatMap_cons, List.append_assoc, records_record_append (h p List.mem_cons_self),
      ih fun q hq ↦ h q (List.mem_cons_of_mem _ hq)]
    rfl

/-- The bytes at which the loop of `Replay` stops. -/
def unreadFrom : ℕ → Bytes → Bytes
  | 0, bytes => bytes
  | fuel + 1, bytes =>
    if bytes.length < 4 then bytes
    else
      let len := unpackLE (bytes.take 4)
      let rest := bytes.drop 4
      if rest.length < len then bytes else unreadFrom fuel (rest.drop len)

/-- The bytes of a file that are in none of its records: nothing, or a torn record. -/
def unread (bytes : Bytes) : Bytes := unreadFrom bytes.length bytes

/-- More fuel than bytes changes nothing. -/
theorem unreadFrom_fuel : ∀ (fuel fuel' : ℕ) (bytes : Bytes), bytes.length ≤ fuel →
    bytes.length ≤ fuel' → unreadFrom fuel bytes = unreadFrom fuel' bytes := by
  intro fuel
  induction fuel with
  | zero =>
    intro fuel' bytes h _
    cases fuel' with
    | zero => rfl
    | succ fuel' => rw [unreadFrom, unreadFrom, if_pos (by omega)]
  | succ fuel ih =>
    intro fuel' bytes h h'
    cases fuel' with
    | zero => rw [unreadFrom, unreadFrom, if_pos (by omega)]
    | succ fuel' =>
      rw [unreadFrom, unreadFrom]
      split_ifs with hshort
      · rfl
      extract_lets len rest
      split_ifs
      · rfl
      · exact ih fuel' _ (by simp only [rest, List.length_drop]; omega)
          (by simp only [rest, List.length_drop]; omega)

/-- A log of whole records. -/
def Whole (bytes : Bytes) : Prop :=
  ∃ payloads : List Bytes, (∀ p ∈ payloads, p.length < 2 ^ 32) ∧ bytes = payloads.flatMap record

theorem whole_nil : Whole [] := ⟨[], by simp, rfl⟩

theorem Whole.append {bytes payload : Bytes} (h : Whole bytes) (hlen : payload.length < 2 ^ 32) :
    Whole (bytes ++ record payload) := by
  obtain ⟨payloads, hshort, rfl⟩ := h
  refine ⟨payloads ++ [payload], fun p hp ↦ ?_, by simp⟩
  rcases List.mem_append.1 hp with hp | hp
  · exact hshort p hp
  · rwa [List.mem_singleton.1 hp]

theorem unread_record_append {payload : Bytes} (h : payload.length < 2 ^ 32) (rest : Bytes) :
    unread (record payload ++ rest) = unread rest := by
  have hlen : (record payload ++ rest).length = (3 + payload.length + rest.length) + 1 := by
    rw [List.length_append, record_length]
    omega
  have hhdr : (recordHeader payload).length = 4 := by simp [recordHeader]
  have htake : (record payload ++ rest).take 4 = recordHeader payload := by
    rw [record, List.append_assoc, ← hhdr, List.take_left]
  have hdrop : (record payload ++ rest).drop 4 = payload ++ rest := by
    rw [record, List.append_assoc, ← hhdr, List.drop_left]
  rw [unread, hlen, unreadFrom, if_neg (by omega)]
  simp only [htake, hdrop, unpackLE_recordHeader h]
  rw [if_neg (by simp), List.drop_left]
  exact unreadFrom_fuel _ rest.length rest (by omega) le_rfl

/-- Every byte of it is in a record. -/
theorem Whole.unread_eq {bytes : Bytes} (h : Whole bytes) : unread bytes = [] := by
  obtain ⟨payloads, hshort, rfl⟩ := h
  induction payloads with
  | nil => rfl
  | cons p payloads ih =>
    rw [List.flatMap_cons, unread_record_append (hshort p List.mem_cons_self)]
    exact ih fun q hq ↦ hshort q (List.mem_cons_of_mem _ hq)

/-- Whatever comes behind a log, its records stay. -/
theorem recordsFrom_append (fuel : ℕ) : ∀ {bytes next : Bytes}, bytes.length ≤ fuel →
    records (bytes ++ next) =
      recordsFrom fuel bytes ++ records (unreadFrom fuel bytes ++ next) := by
  induction fuel with
  | zero => exact fun _ ↦ rfl
  | succ fuel ih =>
    intro bytes next hfuel
    rw [recordsFrom, unreadFrom]
    split_ifs with hshort
    · rfl
    have hlong : 4 ≤ bytes.length := Nat.le_of_not_lt hshort
    extract_lets len rest
    split_ifs with htorn
    · rfl
    have htake : (bytes ++ next).take 4 = bytes.take 4 := List.take_append_of_le_length hlong
    have hdrop : (bytes ++ next).drop 4 = rest ++ next := List.drop_append_of_le_length hlong
    have hlen : (bytes ++ next).length = (bytes ++ next).length - 1 + 1 := by
      rw [List.length_append]
      omega
    rw [records, hlen, recordsFrom, if_neg (by rw [List.length_append]; omega)]
    simp only [htake, hdrop]
    rw [if_neg (by rw [List.length_append]; omega),
      List.take_append_of_le_length (Nat.le_of_not_lt htorn),
      List.drop_append_of_le_length (Nat.le_of_not_lt htorn), List.cons_append, ← ih]
    · refine congrArg (_ :: ·) (recordsFrom_fuel _ _ _ ?_ le_rfl)
      simp only [rest, List.length_append, List.length_drop] at *
      omega
    · simp only [rest, List.length_drop]
      omega

theorem records_append (bytes next : Bytes) :
    records (bytes ++ next) = records bytes ++ records (unread bytes ++ next) :=
  recordsFrom_append _ le_rfl

/-- A log starts with no whole record when it is shorter than its first header announces. -/
theorem records_eq_nil_iff {bytes : Bytes} (h : 4 ≤ bytes.length) :
    records bytes = [] ↔ bytes.length < 4 + unpackLE (bytes.take 4) := by
  obtain ⟨fuel, hfuel⟩ : ∃ fuel, bytes.length = fuel + 1 := Nat.exists_eq_add_of_le' (by omega)
  rw [records, hfuel, recordsFrom, if_neg (by omega), ← hfuel]
  dsimp only
  split_ifs with htorn
  · rw [List.length_drop] at htorn
    exact iff_of_true rfl (by omega)
  · rw [List.length_drop] at htorn
    exact iff_of_false not_false (by omega)

/-! ### What the methods do -/

namespace Translog

/-- The log is open and its file may be written. -/
def Usable (t : Translog) : Prop :=
  ∃ sink, t.sink = some sink ∧ sink.path = kTranslogName ∧ sink.closed = false

/-- The actions `append` performs. -/
def appendActions (payload : Bytes) : List FileAction :=
  [.write kTranslogName (recordHeader payload), .write kTranslogName payload, .fsync kTranslogName]

/-- What an append may leave behind the log: between two writes the header or the whole record,
in the middle of one any prefix. -/
def Leaves (F : Faults) (payload b : Bytes) : Prop :=
  b <+: record payload ∧ (b = [] ∨ b = recordHeader payload ∨ b = record payload ∨ F.torn ∨
    ∃ a ∈ appendActions payload, F.fails (.act a))

section Rules

variable {F : Faults} {d : Disk} {C : Disk → Prop} {log : Bytes}

theorem put_of_some {name b : Bytes} (h : d name = some b) : d.put name b = d := by
  rw [Disk.put, ← h, Function.update_eq_self]

theorem wp_open {σ : Type} {s : σ} {Q : Expected Translog → σ → Disk → Prop} (hC : C d)
    (hC' : C (d.put kTranslogName (d.content kTranslogName)))
    (hdone : ∀ t : Translog, t.Usable →
      Q (.ok t) s (d.put kTranslogName (d.content kTranslogName)))
    (hfail : F.fails (.act (.create kTranslogName false)) → ∀ m, Q (.error (.ioError m)) s d) :
    («open» : FileMethod σ Translog).wp (files F) s Q C d := by
  refine Method.wp_bind.2 (Method.wp_bind.2 (wp_act hC ?_ ?_ ?_))
  · rintro - d' rfl
    exact hC
  · exact ⟨⟨⟨hdone _ ⟨_, rfl, rfl, rfl⟩, hC'⟩, hC'⟩, hC'⟩
  · rintro hf m d' rfl
    exact ⟨hfail hf m, hC⟩

/-- A log that is not usable refuses to append. -/
theorem wp_append_refused {t : Translog} {payload : Bytes} (hC : C d)
    {Q : Expected Unit → Translog → Disk → Prop}
    (ht : ∀ sink, t.sink = some sink → sink.closed = true)
    (hrefuse : ∀ m, Q (.error (.failedPrecondition m)) t d) :
    (append payload).wp (files F) t Q C d := by
  refine Method.wp_bind.2 ⟨?_, hC⟩
  obtain ⟨sink, bytes⟩ := t
  cases sink with
  | none => exact ⟨hrefuse _, hC⟩
  | some sink =>
    refine Method.wp_bind.2 (Method.wp_owning.2 (Method.wp_bind.2
      (FileSink.wp_append_closed (ht sink rfl) hC fun m ↦ ?_)))
    exact Method.wp_bind.2 ⟨⟨hrefuse m, hC⟩, hC⟩

/-- The record goes behind the log, or a failure leaves a part of it there. -/
theorem wp_appendRecord {sink : FileSink} {payload : Bytes}
    {Q : Expected Unit → FileSink → Disk → Prop} (hpath : sink.path = kTranslogName)
    (hopen : sink.closed = false) (hlog : d kTranslogName = some log)
    (hC : ∀ b, Leaves F payload b → C (d.put kTranslogName (log ++ b)))
    (hdone : ∀ n, Q (.ok ()) { sink with written := n }
      (d.put kTranslogName (log ++ record payload)))
    (hfail : (∃ a ∈ appendActions payload, F.fails (.act a)) → ∀ m n b, Leaves F payload b →
      Q (.error (.ioError m)) { sink with written := n } (d.put kTranslogName (log ++ b))) :
    (appendRecord payload).wp (files F) sink Q C d := by
  obtain ⟨path, written, closed⟩ := sink
  subst hpath hopen
  have hhdr : recordHeader payload <+: record payload := List.prefix_append ..
  have hstart : C d := by
    have := hC [] ⟨List.nil_prefix, Or.inl rfl⟩
    rwa [List.append_nil, put_of_some hlog] at this
  have hwhole : Leaves F payload (record payload) :=
    ⟨List.prefix_rfl, Or.inr (Or.inr (Or.inl rfl))⟩
  have hcontent : d.content kTranslogName = log := by rw [Disk.content, hlog, Option.getD_some]
  have hcutHdr : ∀ k, (recordHeader payload).take k <+: record payload :=
    fun k ↦ (List.take_prefix ..).trans hhdr
  have hcutPayload : ∀ k, recordHeader payload ++ payload.take k <+: record payload :=
    fun k ↦ List.prefix_append_right_inj _ |>.2 (List.take_prefix ..)
  -- After both writes only the sync is left.
  have hsync : ∀ n, FileSink.sync.wp (files F) ⟨kTranslogName, n, false⟩ Q C
      (d.put kTranslogName (log ++ record payload)) := by
    refine fun n ↦ FileSink.wp_sync rfl (hC _ hwhole) (hdone n) fun hf m ↦ ?_
    exact hfail ⟨_, by simp [appendActions], hf⟩ m n _ hwhole
  refine Method.wp_bind.2 (FileSink.wp_append rfl hstart ?_ ?_ ?_ ?_)
  · intro h
    exact absurd (congrArg List.length h) (by simp [recordHeader])
  · intro ht k
    rw [hcontent]
    exact hC _ ⟨hcutHdr k, Or.inr (Or.inr (Or.inr (Or.inl ht)))⟩
  · intro _ n
    rw [hcontent]
    have hmid := hC _ ⟨hhdr, Or.inr (Or.inl rfl)⟩
    refine ⟨Method.seq_ok.2 (Method.wp_bind.2 (FileSink.wp_append rfl hmid ?_ ?_ ?_ ?_)), hmid⟩
    · intro hnil
      have := hsync n
      rw [record, hnil, List.append_nil] at this
      rwa [hnil]
    · intro ht k
      simp only [Disk.content_put, Disk.put_put, List.append_assoc]
      exact hC _ ⟨hcutPayload k, Or.inr (Or.inr (Or.inr (Or.inl ht)))⟩
    · intro _ n'
      simp only [Disk.content_put, Disk.put_put, List.append_assoc]
      exact ⟨hsync n', hC _ hwhole⟩
    · intro hf m k
      have hwrite : ∃ a ∈ appendActions payload, F.fails (.act a) :=
        ⟨_, by simp [appendActions], hf⟩
      have hleft : Leaves F payload (recordHeader payload ++ payload.take k) :=
        ⟨hcutPayload k, Or.inr (Or.inr (Or.inr (Or.inr hwrite)))⟩
      simp only [Disk.content_put, Disk.put_put, List.append_assoc]
      exact ⟨hfail hwrite m n _ hleft, hC _ hleft⟩
  · intro hf m k
    have hwrite : ∃ a ∈ appendActions payload, F.fails (.act a) :=
      ⟨_, by simp [appendActions], hf⟩
    have hleft : Leaves F payload ((recordHeader payload).take k) :=
      ⟨hcutHdr k, Or.inr (Or.inr (Or.inr (Or.inr hwrite)))⟩
    rw [hcontent]
    exact ⟨hfail hwrite m written _ hleft, hC _ hleft⟩

/-- **`Append`** on a usable log: after `Ok` the whole record is behind the log, and the log
stays usable whatever happens. -/
theorem wp_append {t : Translog} {payload : Bytes} {Q : Expected Unit → Translog → Disk → Prop}
    (ht : t.Usable) (hlog : d kTranslogName = some log)
    (hC : ∀ b, Leaves F payload b → C (d.put kTranslogName (log ++ b)))
    (hdone : ∀ t' : Translog, t'.Usable →
      Q (.ok ()) t' (d.put kTranslogName (log ++ record payload)))
    (hfail : (∃ a ∈ appendActions payload, F.fails (.act a)) → ∀ m (t' : Translog) b, t'.Usable →
      Leaves F payload b → Q (.error (.ioError m)) t' (d.put kTranslogName (log ++ b))) :
    (append payload).wp (files F) t Q C d := by
  obtain ⟨sink, hsink, hpath, hopen⟩ := ht
  obtain ⟨_, bytes⟩ := t
  cases hsink
  have hstart : C d := by
    have := hC [] ⟨List.nil_prefix, Or.inl rfl⟩
    rwa [List.append_nil, put_of_some hlog] at this
  refine Method.wp_bind.2 ⟨?_, hstart⟩
  refine Method.wp_bind.2 (Method.wp_owning.2 (wp_appendRecord hpath hopen hlog hC ?_ ?_))
  · intro n
    have hwhole := hC (record payload) ⟨List.prefix_rfl, Or.inr (Or.inr (Or.inl rfl))⟩
    exact ⟨hdone _ ⟨{ sink with written := n }, rfl, hpath, hopen⟩, hwhole⟩
  · intro hf m n b hb
    refine Method.wp_bind.2 ⟨⟨?_, hC b hb⟩, hC b hb⟩
    exact hfail hf m _ b ⟨{ sink with written := n }, rfl, hpath, hopen⟩ hb

/-- `Replay` reads the records of the file, none when it is missing or unreadable. -/
theorem wp_replay {σ : Type} {s : σ} {Q : Expected (List Bytes) → σ → Disk → Prop} (hC : C d)
    (hdone : Q (.ok (records (d.content kTranslogName))) s d)
    (hfail : F.fails (.load kTranslogName) → Q (.ok []) s d) :
    (replay : FileMethod σ (List Bytes)).wp (files F) s Q C d := by
  refine Method.wp_bind.2 (Method.wp_attempt.2 (Directory.wp_readFile hC ?_ ?_))
  · cases h : d kTranslogName with
    | none =>
      rw [Disk.content, h] at hdone
      simp only [loadReply, h]
      exact ⟨hdone, hC⟩
    | some b =>
      rw [Disk.content, h] at hdone
      rw [loadReply_of_some h]
      exact ⟨hdone, hC⟩
  · exact fun hf m ↦ ⟨hfail hf, hC⟩

/-- `Close` leaves the disk alone and the log without a sink. -/
theorem wp_close {t : Translog} {Q : Expected Unit → Translog → Disk → Prop} (hC : C d)
    (hdone : ∀ r, Q r { t with sink := none } d) : close.wp (files F) t Q C d := by
  refine Method.wp_bind.2 ⟨?_, hC⟩
  obtain ⟨sink, bytes⟩ := t
  cases sink with
  | none => exact ⟨hdone _, hC⟩
  | some sink =>
    refine Method.wp_bind.2 (Method.wp_owning.2 (FileSink.wp_close hC ?_ ?_))
    · exact Method.wp_bind.2 ⟨⟨hdone _, hC⟩, hC⟩
    · exact fun _ _ m ↦ Method.wp_bind.2 ⟨⟨hdone _, hC⟩, hC⟩

/-- The actions `truncate` performs. -/
def truncateActions : List FileAction :=
  [.fsync kTranslogName, .fclose kTranslogName, .create kTranslogName true]

/-- **`Truncate`**: the log is empty after `Ok`; a failure leaves it as it was or empty. -/
theorem wp_truncate {t : Translog} {Q : Expected Unit → Translog → Disk → Prop}
    (ht : ∀ sink, t.sink = some sink → sink.path = kTranslogName) (hC : C d)
    (hC' : C (d.put kTranslogName []))
    (hdone : ∀ t' : Translog, t'.Usable → Q (.ok ()) t' (d.put kTranslogName []))
    (hfail : (∃ a ∈ truncateActions, F.fails (.act a)) → ∀ m (t' : Translog) d',
      (∀ sink, t'.sink = some sink → sink.path = kTranslogName) →
      d' = d ∨ d' = d.put kTranslogName [] → Q (.error (.ioError m)) t' d') :
    truncate.wp (files F) t Q C d := by
  obtain ⟨sink, bytes⟩ := t
  -- What follows a successful close.
  have hrecreate : ∀ t : Translog, (do
      Method.become { t with sink := none }
      let sink ← FileSink.create kTranslogName true
      let (r, sink) ← Method.owning sink FileSink.sync
      Method.become { sink := some sink, bytes := 0 : Translog }
      Method.done r : FileMethod Translog Unit).wp (files F) ⟨sink, bytes⟩ Q C d := by
    intro t
    refine Method.wp_bind.2 ⟨Method.wp_bind.2 (Method.wp_bind.2 (wp_act hC ?_ ?_ ?_)), hC⟩
    · rintro - d' rfl
      exact hC
    · refine ⟨⟨?_, hC'⟩, hC'⟩
      refine Method.wp_bind.2 (Method.wp_owning.2 (FileSink.wp_sync rfl hC' ?_ ?_))
      · exact Method.wp_bind.2 ⟨⟨hdone _ ⟨_, rfl, rfl, rfl⟩, hC'⟩, hC'⟩
      · intro hf m
        refine Method.wp_bind.2 ⟨⟨?_, hC'⟩, hC'⟩
        refine hfail ⟨_, by simp [truncateActions], hf⟩ m _ _ ?_ (Or.inr rfl)
        rintro _ ⟨⟩
        rfl
    · rintro hf m d' rfl
      refine ⟨hfail ⟨_, by simp [truncateActions], hf⟩ m _ _ ?_ (Or.inl rfl), hC⟩
      exact fun _ h ↦ by cases h
  refine Method.wp_bind.2 ⟨?_, hC⟩
  cases sink with
  | none => exact Method.wp_bind.2 ⟨hrecreate _, hC⟩
  | some sink =>
    have hpath := ht sink rfl
    refine Method.wp_bind.2 (Method.wp_owning.2 (FileSink.wp_close hC (hrecreate _) ?_))
    intro _ hf m
    refine Method.wp_bind.2 ⟨⟨hfail ?_ m _ _ ?_ (Or.inl rfl), hC⟩, hC⟩
    · rw [hpath] at hf
      rcases hf with hf | hf
      · exact ⟨_, by simp [truncateActions], hf⟩
      · exact ⟨_, by simp [truncateActions], hf⟩
    · rintro _ ⟨⟩
      exact hpath

end Rules

end Translog

/-! ### Runs of attempts -/

/-- An attempt to append: what it left behind the log, and whether `Append` returned `Ok`. -/
structure Attempt where
  payload : Bytes
  bytes : Bytes
  acked : Bool

/-- The whole record was written. -/
def Attempt.whole (a : Attempt) : Bool := a.bytes = record a.payload

/-- A log between two steps: the open object if there is one, the disk and the attempts so far. -/
structure LogState where
  log : Option Translog
  disk : Disk
  attempts : List Attempt

namespace LogState

/-- The bytes of the log file. -/
def content (s : LogState) : Bytes := s.disk.content kTranslogName

/-- The state after an attempt. -/
def attempted (s : LogState) (payload : Bytes) (log : Option Translog) (d : Disk) (acked : Bool) :
    LogState where
  log := log
  disk := d
  attempts := s.attempts ++
    [⟨payload, (d.content kTranslogName).drop s.content.length, acked⟩]

/-- A record of which some but not all bytes were written. -/
def Torn (s : LogState) : Prop := ∃ a ∈ s.attempts, a.bytes ≠ [] ∧ a.whole = false

/-- The payloads whose whole record was written, in order. -/
def recovered (s : LogState) : List Bytes := (s.attempts.filter (·.whole)).map (·.payload)

end LogState

/-- The steps of a log under some faults: every call may fail or be cut off where the faults say
so, and a crash may also come between two calls. -/
inductive LogStep (F : Faults) : LogState → LogState → Prop
  | openLog {s : LogState} {r : Expected Translog} {d : Disk} (h : s.log = none)
      (hret : ((Translog.open : FileM Translog) ()).Returns (files F) s.disk (r, ()) d) :
      LogStep F s { s with log := r.toOption, disk := d }
  | append {s : LogState} {t t' : Translog} {r : Expected Unit} {d : Disk} (payload : Bytes)
      (h : s.log = some t) (hlen : payload.length < 2 ^ 32)
      (hret : (Translog.append payload t).Returns (files F) s.disk (r, t') d) :
      LogStep F s (s.attempted payload (some t') d r.isOk)
  | crashInAppend {s : LogState} {t : Translog} {d : Disk} (payload : Bytes)
      (h : s.log = some t) (hlen : payload.length < 2 ^ 32)
      (hstop : (Translog.append payload t).Stops (files F) s.disk d) :
      LogStep F s (s.attempted payload none d false)
  | close {s : LogState} {t t' : Translog} {r : Expected Unit} {d : Disk} (h : s.log = some t)
      (hret : (Translog.close t).Returns (files F) s.disk (r, t') d) :
      LogStep F s { s with log := none, disk := d }
  | crash {s : LogState} : LogStep F s { s with log := none }

/-- Runs in which nothing is written behind a torn record. -/
inductive LogRun (F : Faults) (s₀ : LogState) : LogState → Prop
  | start : LogRun F s₀ s₀
  | step {s s' : LogState} (h : LogRun F s₀ s) (hstep : LogStep F s s')
      (hsafe : s.Torn → s'.content = s.content) : LogRun F s₀ s'

/-- A log that was never written to. -/
structure LogState.Fresh (s : LogState) : Prop where
  log : s.log = none
  content : s.content = []
  attempts : s.attempts = []

/-- What the log holds: the whole records, and behind them what is left of a torn one. -/
structure LogInv (s : LogState) : Prop where
  usable : ∀ t, s.log = some t → t.Usable ∧ s.disk kTranslogName = some s.content
  acked : ∀ a ∈ s.attempts, a.acked = true → a.whole = true
  short : ∀ p ∈ s.recovered, p.length < 2 ^ 32
  tail : ∃ tail, s.content = s.recovered.flatMap record ++ tail ∧ records tail = [] ∧
    (tail ≠ [] → s.Torn)

section Runs

variable {F : Faults} {s s' s₀ : LogState}

theorem LogInv.fresh (h : s.Fresh) : LogInv s where
  usable t ht := by
    rw [h.log] at ht
    cases ht
  acked a ha := by
    rw [h.attempts] at ha
    cases ha
  short p hp := by
    rw [LogState.recovered, h.attempts] at hp
    cases hp
  tail := ⟨[], by simp [h.content, LogState.recovered, h.attempts], rfl, fun h ↦ absurd rfl h⟩

theorem record_ne_nil (payload : Bytes) : record payload ≠ [] := fun h ↦ by
  have := record_length payload
  rw [h] at this
  simp at this
  omega

theorem content_attempted {payload b : Bytes} {t : Option Translog} {acked : Bool} :
    (s.attempted payload t (s.disk.put kTranslogName (s.content ++ b)) acked).content =
      s.content ++ b :=
  Disk.content_put ..

theorem attempts_attempted {payload b : Bytes} {t : Option Translog} {acked : Bool} :
    (s.attempted payload t (s.disk.put kTranslogName (s.content ++ b)) acked).attempts =
      s.attempts ++ [⟨payload, b, acked⟩] := by
  simp [LogState.attempted]

/-- An attempt that left `b` behind the log, not writing behind a torn record. -/
theorem LogInv.attempt {payload b : Bytes} {t : Option Translog} {acked : Bool} (h : LogInv s)
    (hlen : payload.length < 2 ^ 32) (hb : b <+: record payload)
    (hack : acked = true → b = record payload) (ht : ∀ t', t = some t' → t'.Usable)
    (hsafe : s.Torn → s.content ++ b = s.content) :
    LogInv (s.attempted payload t (s.disk.put kTranslogName (s.content ++ b)) acked) := by
  obtain ⟨tail, hcontent, hnone, htorn⟩ := h.tail
  have hrec : ∀ new : Attempt, ((s.attempts ++ [new]).filter (·.whole)).map (·.payload) =
      s.recovered ++ (if new.whole then [new.payload] else []) := by
    intro new
    rw [List.filter_append, List.map_append, LogState.recovered]
    cases hw : new.whole <;> simp [hw]
  have hwhole : (Attempt.mk payload b acked).whole = decide (b = record payload) := rfl
  constructor
  · intro t' ht'
    refine ⟨ht t' ht', ?_⟩
    rw [content_attempted]
    exact Disk.put_self s.disk kTranslogName (s.content ++ b)
  · intro a ha hacked
    rw [attempts_attempted, List.mem_append, List.mem_singleton] at ha
    rcases ha with ha | rfl
    · exact h.acked a ha hacked
    · exact decide_eq_true (hack hacked)
  · intro p hp
    rw [LogState.recovered, attempts_attempted, hrec, List.mem_append] at hp
    rcases hp with hp | hp
    · exact h.short p hp
    · split at hp
      · rw [List.mem_singleton.1 hp]
        exact hlen
      · cases hp
  · rw [content_attempted, LogState.recovered, attempts_attempted, hrec, hwhole]
    have htorn' : ∀ new : Attempt, s.Torn → ∃ a ∈ s.attempts ++ [new], a.bytes ≠ [] ∧
        a.whole = false := fun _ ⟨a, ha, hne⟩ ↦ ⟨a, List.mem_append_left _ ha, hne⟩
    by_cases hnil : b = []
    · -- Nothing was written.
      subst hnil
      rw [decide_eq_false (record_ne_nil payload).symm]
      refine ⟨tail, by simp [hcontent], hnone, fun hne ↦ ?_⟩
      obtain ⟨a, ha, hbad⟩ := htorn' ⟨payload, [], acked⟩ (htorn hne)
      exact ⟨a, by rw [attempts_attempted]; exact ha, hbad⟩
    · -- Something was, so there was no torn record before.
      have hclean : tail = [] := by
        by_contra hne
        have := hsafe (htorn hne)
        exact hnil (List.append_right_eq_self.1 this)
      subst hclean
      by_cases hall : b = record payload
      · refine ⟨[], by simp [hcontent, hall], rfl, fun hne ↦ absurd rfl hne⟩
      · rw [decide_eq_false hall]
        refine ⟨b, by simp [hcontent], records_of_starts hlen hb hall, fun _ ↦ ?_⟩
        refine ⟨⟨payload, b, acked⟩, ?_, hnil, decide_eq_false hall⟩
        rw [attempts_attempted]
        exact List.mem_append_right _ (List.mem_singleton.2 rfl)

/-- **The step lemma.** -/
theorem LogInv.step (h : LogInv s) (hstep : LogStep F s s')
    (hsafe : s.Torn → s'.content = s.content) : LogInv s' := by
  cases hstep with
  | @openLog r d hlog hret =>
    have hwp : (Translog.open : FileM Translog).wp (files F) ()
        (fun r _ d ↦ (∀ t, r = .ok t → t.Usable ∧ d kTranslogName = some s.content) ∧
          d.content kTranslogName = s.content) (fun _ ↦ True) s.disk := by
      refine Translog.wp_open trivial trivial (fun t ht ↦ ⟨?_, Disk.content_put ..⟩) ?_
      · rintro t' ⟨⟩
        exact ⟨ht, Disk.put_self ..⟩
      · exact fun _ m ↦ ⟨fun t ht ↦ (by cases ht), rfl⟩
    obtain ⟨hopen, hcontent⟩ := (Method.wp_iff.1 hwp).1 r () d hret
    have hsame : ({ s with log := r.toOption, disk := d } : LogState).content = s.content :=
      hcontent
    refine ⟨fun t ht ↦ ?_, h.acked, h.short, by rw [hsame]; exact h.tail⟩
    rw [hsame]
    cases r with
    | error e => cases ht
    | ok t' =>
      cases ht
      exact hopen t rfl
  | @append t t' r d payload ht hlen hret =>
    obtain ⟨husable, hexists⟩ := h.usable t ht
    have hwp : (Translog.append payload).wp (files F) t
        (fun r t' d ↦ t'.Usable ∧ ∃ b, b <+: record payload ∧
          (r = .ok () → b = record payload) ∧ d = s.disk.put kTranslogName (s.content ++ b))
        (fun _ ↦ True) s.disk := by
      refine Translog.wp_append husable hexists (fun _ _ ↦ trivial) ?_ ?_
      · exact fun t' ht' ↦ ⟨ht', record payload, List.prefix_rfl, fun _ ↦ rfl, rfl⟩
      · exact fun _ m t' b ht' hb ↦ ⟨ht', b, hb.1, fun h ↦ (by cases h), rfl⟩
    obtain ⟨ht', b, hb, hack, rfl⟩ := (Method.wp_iff.1 hwp).1 r t' d hret
    refine h.attempt hlen hb (fun hok ↦ hack ?_) (by rintro _ ⟨⟩; exact ht') ?_
    · cases r with
      | error e => cases hok
      | ok u => rfl
    · rwa [content_attempted] at hsafe
  | @crashInAppend t d payload ht hlen hstop =>
    obtain ⟨husable, hexists⟩ := h.usable t ht
    have hwp : (Translog.append payload).wp (files F) t (fun _ _ _ ↦ True)
        (fun d ↦ ∃ b, b <+: record payload ∧ d = s.disk.put kTranslogName (s.content ++ b))
        s.disk :=
      Translog.wp_append husable hexists (fun b hb ↦ ⟨b, hb.1, rfl⟩) (fun _ _ ↦ trivial)
        fun _ _ _ _ _ _ ↦ trivial
    obtain ⟨b, hb, rfl⟩ := (Method.wp_iff.1 hwp).2 d hstop
    refine h.attempt hlen hb (fun hack ↦ by cases hack) (by rintro _ ⟨⟩) ?_
    rwa [content_attempted] at hsafe
  | @close t t' r d ht hret =>
    have hwp : (Translog.close).wp (files F) t (fun _ _ d ↦ d = s.disk) (fun _ ↦ True) s.disk :=
      Translog.wp_close trivial fun _ ↦ rfl
    obtain rfl := (Method.wp_iff.1 hwp).1 r t' d hret
    exact ⟨by rintro _ ⟨⟩, h.acked, h.short, h.tail⟩
  | crash => exact ⟨by rintro _ ⟨⟩, h.acked, h.short, h.tail⟩

/-- **The run lemma.** -/
theorem LogInv.of_run (h₀ : s₀.Fresh) (h : LogRun F s₀ s) : LogInv s := by
  induction h with
  | start => exact LogInv.fresh h₀
  | step _ hstep hsafe ih => exact ih.step hstep hsafe

/-- **The translog survives torn appends** behind which nothing is written: replay returns, in
order, the payloads of the attempts that wrote their whole record, and every acknowledged one
did. -/
theorem LogRun.replays (h₀ : s₀.Fresh) (h : LogRun F s₀ s) :
    (run (Translog.replay ()) s.disk).1.1 = .ok s.recovered ∧
      ∀ a ∈ s.attempts, a.acked = true → a.whole = true := by
  have hinv := LogInv.of_run h₀ h
  obtain ⟨tail, hcontent, hnone, -⟩ := hinv.tail
  have hwp : (Translog.replay : FileM (List Bytes)).wp (files Faults.none) ()
      (fun r _ _ ↦ r = .ok (records s.content)) (fun _ ↦ True) s.disk :=
    Translog.wp_replay trivial rfl fun hf ↦ hf.elim
  have hrun := (Method.wp_iff.1 hwp).1 _ _ _ (returns_run Faults.none _ s.disk)
  rw [hrun, hcontent, records_flatMap hinv.short, hnone, List.append_nil]
  exact ⟨rfl, hinv.acked⟩

end Runs

/-- No log file yet. -/
def emptyLog : LogState := { log := none, disk := fun _ ↦ none, attempts := [] }

/-- Crashes may cut a write off. -/
def tornWrites : Faults := ⟨fun _ ↦ False, True⟩

/-- A crash in the first write of a record. -/
theorem stops_append (payload : Bytes) (k : ℕ) (n m : UInt64) (d : Disk) :
    (Translog.append payload ⟨some ⟨kTranslogName, n, false⟩, m⟩).Stops (files tornWrites) d
      (d.put kTranslogName (d.content kTranslogName ++ (recordHeader payload).take k)) :=
  Or.inr (Or.inl ⟨trivial, k, rfl⟩)

/-- The log after its first open. -/
def openedLog : LogState where
  log := some { sink := some { path := kTranslogName } }
  disk := emptyLog.disk.put kTranslogName []
  attempts := []

/-- Two records, a third that a crash cuts off after its first byte, and the log opened again. -/
theorem LogRun.replays_sample :
    ∃ s : LogState, s.attempts = [⟨str "A", record (str "A"), true⟩,
        ⟨str "B", record (str "B"), true⟩, ⟨str "C", (record (str "C")).take 1, false⟩] ∧
      s.log.isSome = true ∧ s.Torn ∧ (run (Translog.replay ()) s.disk).1.1 = .ok s.recovered ∧
      s.recovered = [str "A", str "B"] ∧ ∀ a ∈ s.attempts, a.acked = true → a.whole = true := by
  have hwhole : ∀ {s : LogState}, s.attempts.all (·.whole) = true → ¬s.Torn := by
    rintro s h ⟨a, ha, -, htorn⟩
    exact Bool.false_ne_true (htorn.symm.trans (List.all_eq_true.1 h a ha))
  have hstart : LogRun tornWrites emptyLog emptyLog := .start
  have hopen : LogRun tornWrites emptyLog openedLog :=
    hstart.step (.openLog rfl (returns_run _ _ _)) fun h ↦ absurd h (hwhole rfl)
  have hfirst := hopen.step (.append (str "A") rfl (by decide) (returns_run _ _ _))
    fun h ↦ absurd h (hwhole rfl)
  have hsecond := hfirst.step (.append (str "B") rfl (by decide) (returns_run _ _ _))
    fun h ↦ absurd h (hwhole (by decide +kernel))
  have htorn := hsecond.step (.crashInAppend (str "C") rfl (by decide)
    (stops_append (str "C") 1 _ _ _))
    fun h ↦ absurd h (hwhole (by decide +kernel))
  have hreopen := htorn.step (.openLog rfl (returns_run _ _ _)) fun _ ↦ by decide +kernel
  obtain ⟨hreplay, hacked⟩ := LogRun.replays ⟨rfl, rfl, rfl⟩ hreopen
  refine ⟨_, rfl, rfl, ⟨_, List.mem_append_right _ (List.mem_singleton_self _), ?_, ?_⟩, hreplay,
    ?_, hacked⟩
  · decide +kernel
  · decide +kernel
  · decide +kernel

/-- A crash after the first byte of a record, and an acknowledged record behind it: it is not
replayed. -/
theorem not_replays_torn :
    ∃ s, Relation.ReflTransGen (LogStep tornWrites) emptyLog s ∧
      (∃ a ∈ s.attempts, a.acked = true ∧ a.payload = str "B") ∧
      (run (Translog.replay ()) s.disk).1.1 = .ok [] := by
  have hopen : LogStep tornWrites emptyLog openedLog := .openLog rfl (returns_run _ _ _)
  have htorn : LogStep tornWrites openedLog _ :=
    .crashInAppend (str "A") rfl (by decide) (stops_append (str "A") 1 0 0 openedLog.disk)
  have hreopen := (Relation.ReflTransGen.single hopen).tail htorn |>.tail
    (.openLog rfl (returns_run _ _ _))
  have happend := hreopen.tail (.append (str "B") rfl (by decide) (returns_run _ _ _))
  refine ⟨_, happend, ⟨_, List.mem_append_right _ (List.mem_singleton.2 rfl), rfl, rfl⟩, ?_⟩
  rfl

end Spp.Index
