import SearchPlusPlus.Http.Exchange
import SearchPlusPlus.Lib.Run

/-!
# The connection pool

`AcceptLoop`, `WorkerLoop`, `Start` and `Stop`, one step at a time and in any order. What a thread
does while it has `queue_mu_` is one step, but for a worker that found nothing to do: it keeps the
mutex until it waits. `Start` and `Stop` are not called while `Stop` runs.

Every accepted connection is closed once (`conserved`), in the order of their arrival workers take
them (`taken_in_order`), no connection is left to workers that sleep (`awake`), and what a worker
handles a client with is what came from that client (`handled_reads`). `Stop` ends after a bounded
number of steps, and waits for nothing but clients (`stop_ends`).
-/

namespace Spp.Http

/-! ### Threads -/

/-- `kMaxQueueDepth`. -/
def kMaxQueueDepth : ℕ := 1024

/-- Where `AcceptLoop` is. -/
inductive Acceptor where
  /-- In front of the test of the loop. -/
  | testing
  | accepting
  /-- `Accept` failed. -/
  | retesting
  /-- With a connection, in front of the lock. -/
  | holding (c : ℕ)
  /-- The queue was full. -/
  | rejecting (c : ℕ)
  /-- Behind the lock, in front of `notify_one`. -/
  | notifying
  | ended
  deriving DecidableEq

/-- Where `WorkerLoop` is. -/
inductive Worker where
  /-- In front of the lock, or woken up. -/
  | locking
  /-- There was nothing to do, and the mutex is not released yet. -/
  | dozing
  | waiting
  /-- In `HandleClient`, with the reads so far. -/
  | serving (c : ℕ) (reads : List Bytes)
  | ended
  deriving DecidableEq

/-- Where `Stop` is. -/
inductive Stopper where
  | idle
  | begun
  /-- `stopping_` is set. -/
  | flagged
  /-- The listening socket is shut down. -/
  | shut
  /-- The acceptor is joined. -/
  | joined
  /-- The queue is cleared. -/
  | drained
  /-- Behind `notify_all`. -/
  | notified
  deriving DecidableEq

/-- How a connection was closed. -/
inductive Closing where
  /-- By the acceptor, since the queue was full. -/
  | overloaded
  /-- By `HandleClient`. -/
  | handled (reads : List Bytes)
  /-- By `Stop`. -/
  | dropped
  deriving DecidableEq

/-- The state of an `HttpServer`. The connections are numbered as they were accepted. -/
structure Pool where
  running : Bool := false
  stopping : Bool := false
  listening : Bool := false
  acceptor : Acceptor := .ended
  workers : List Worker := []
  stopper : Stopper := .idle
  queue : List ℕ := []
  accepted : ℕ := 0
  closed : List (ℕ × Closing) := []

/-- What a step does, as far as it is seen from outside. -/
inductive PoolEvent where
  | started
  | stopCalled
  | arrived
  | acceptFailed
  /-- A worker takes a connection from the queue. -/
  | taken (c : ℕ)
  /-- `Read` returned bytes. -/
  | received (c : ℕ) (r : Bytes)
  /-- `Read` returned none. -/
  | hungUp (c : ℕ)
  /-- The response was written, as far as the client took it. -/
  | responded (c : ℕ)
  /-- A worker woke up without a notification. -/
  | woken
  | internal
  deriving DecidableEq

/-- Steps that the threads do not take by themselves. -/
def PoolEvent.external : PoolEvent → Bool
  | .taken _ | .internal => false
  | _ => true

namespace Pool

/-- Nobody has `queue_mu_`. -/
def Free (s : Pool) : Prop := ∀ w ∈ s.workers, w ≠ .dozing

instance (s : Pool) : Decidable s.Free := inferInstanceAs (Decidable (∀ w ∈ s.workers, _))

/-- A worker that waits is woken up. -/
def wake : Worker → Worker
  | .waiting => .locking
  | w => w

end Pool

open Pool in
/-- The steps of a server with `n` worker threads. -/
inductive PoolStep (opts : HttpServerOptions) (n : ℕ) (s : Pool) : PoolEvent → Pool → Prop
  -- `AcceptLoop`
  | tested (ha : s.acceptor = .testing) : PoolStep opts n s .internal
      { s with acceptor := if s.stopping then .ended else .accepting }
  | arrived (ha : s.acceptor = .accepting) (hl : s.listening = true) : PoolStep opts n s .arrived
      { s with acceptor := .holding s.accepted, accepted := s.accepted + 1 }
  | acceptFailed (ha : s.acceptor = .accepting) : PoolStep opts n s .acceptFailed
      { s with acceptor := .retesting }
  | acceptShut (ha : s.acceptor = .accepting) (hl : s.listening = false) :
      PoolStep opts n s .internal { s with acceptor := .retesting }
  | retested (ha : s.acceptor = .retesting) : PoolStep opts n s .internal
      { s with acceptor := if s.stopping then .ended else .testing }
  | full {c : ℕ} (ha : s.acceptor = .holding c) (hfree : s.Free)
      (hq : kMaxQueueDepth ≤ s.queue.length) : PoolStep opts n s .internal
      { s with acceptor := .rejecting c }
  | rejected {c : ℕ} (ha : s.acceptor = .rejecting c) : PoolStep opts n s (.responded c)
      { s with acceptor := .testing, closed := s.closed ++ [(c, .overloaded)] }
  | pushed {c : ℕ} (ha : s.acceptor = .holding c) (hfree : s.Free)
      (hq : s.queue.length < kMaxQueueDepth) : PoolStep opts n s .internal
      { s with acceptor := .notifying, queue := s.queue ++ [c] }
  | notifiedOne {pre post : List Worker} (ha : s.acceptor = .notifying)
      (hw : s.workers = pre ++ .waiting :: post) : PoolStep opts n s .internal
      { s with acceptor := .testing, workers := pre ++ .locking :: post }
  | notifiedNone (ha : s.acceptor = .notifying) (hw : .waiting ∉ s.workers) :
      PoolStep opts n s .internal { s with acceptor := .testing }
  -- `WorkerLoop`
  | taken {pre post : List Worker} {c : ℕ} {rest : List ℕ}
      (hw : s.workers = pre ++ .locking :: post) (hfree : s.Free) (hq : s.queue = c :: rest) :
      PoolStep opts n s (.taken c)
        { s with workers := pre ++ .serving c [] :: post, queue := rest }
  | left {pre post : List Worker} (hw : s.workers = pre ++ .locking :: post) (hfree : s.Free)
      (hq : s.queue = []) (hs : s.stopping = true) : PoolStep opts n s .internal
      { s with workers := pre ++ .ended :: post }
  | dozed {pre post : List Worker} (hw : s.workers = pre ++ .locking :: post) (hfree : s.Free)
      (hq : s.queue = []) (hs : s.stopping = false) : PoolStep opts n s .internal
      { s with workers := pre ++ .dozing :: post }
  | waited {pre post : List Worker} (hw : s.workers = pre ++ .dozing :: post) :
      PoolStep opts n s .internal { s with workers := pre ++ .waiting :: post }
  | woken {pre post : List Worker} (hw : s.workers = pre ++ .waiting :: post) :
      PoolStep opts n s .woken { s with workers := pre ++ .locking :: post }
  -- `HandleClient`
  | received {pre post : List Worker} {c : ℕ} {reads : List Bytes} {r : Bytes}
      (hw : s.workers = pre ++ .serving c reads :: post) (hmore : answer opts reads.flatten = none)
      (hne : r ≠ []) (hlen : r.length ≤ readSize) : PoolStep opts n s (.received c r)
      { s with workers := pre ++ .serving c (reads ++ [r]) :: post }
  | hungUp {pre post : List Worker} {c : ℕ} {reads : List Bytes}
      (hw : s.workers = pre ++ .serving c reads :: post)
      (hmore : answer opts reads.flatten = none) : PoolStep opts n s (.hungUp c)
      { s with workers := pre ++ .locking :: post, closed := s.closed ++ [(c, .handled reads)] }
  | responded {pre post : List Worker} {c : ℕ} {reads : List Bytes} {outcome : Received}
      (hw : s.workers = pre ++ .serving c reads :: post)
      (hanswer : answer opts reads.flatten = some outcome) : PoolStep opts n s (.responded c)
      { s with workers := pre ++ .locking :: post, closed := s.closed ++ [(c, .handled reads)] }
  -- `Start` and `Stop`
  | started (hs : s.stopper = .idle) (hr : s.running = false) : PoolStep opts n s .started
      { s with
        running := true, stopping := false, listening := true, acceptor := .testing
        workers := List.replicate n .locking }
  | stopCalled (hs : s.stopper = .idle) (hr : s.running = true) : PoolStep opts n s .stopCalled
      { s with running := false, stopper := .begun }
  | flagged (hs : s.stopper = .begun) : PoolStep opts n s .internal
      { s with stopping := true, stopper := .flagged }
  | shut (hs : s.stopper = .flagged) : PoolStep opts n s .internal
      { s with listening := false, stopper := .shut }
  | joined (hs : s.stopper = .shut) (ha : s.acceptor = .ended) : PoolStep opts n s .internal
      { s with stopper := .joined }
  | drained (hs : s.stopper = .joined) (hfree : s.Free) : PoolStep opts n s .internal
      { s with
        queue := [], closed := s.closed ++ s.queue.map (·, .dropped), stopper := .drained }
  | notifiedAll (hs : s.stopper = .drained) : PoolStep opts n s .internal
      { s with workers := s.workers.map wake, stopper := .notified }
  | stopped (hs : s.stopper = .notified) (hw : ∀ w ∈ s.workers, w = .ended) :
      PoolStep opts n s .internal { s with workers := [], stopper := .idle }

/-! ### Invariants -/

namespace Pool

/-- The connection that the acceptor has. -/
def inHand : Acceptor → List ℕ
  | .holding c | .rejecting c => [c]
  | _ => []

@[simp] theorem inHand_holding (c : ℕ) : inHand (.holding c) = [c] := rfl

@[simp] theorem inHand_rejecting (c : ℕ) : inHand (.rejecting c) = [c] := rfl

@[simp] theorem inHand_rest : inHand .testing = [] ∧ inHand .accepting = [] ∧
    inHand .retesting = [] ∧ inHand .notifying = [] ∧ inHand .ended = [] :=
    ⟨rfl, rfl, rfl, rfl, rfl⟩

/-- The connection that a worker has. -/
def served : Worker → List ℕ
  | .serving c _ => [c]
  | _ => []

@[simp] theorem served_serving (c : ℕ) (reads : List Bytes) : served (.serving c reads) = [c] := rfl

@[simp] theorem served_rest : served .locking = [] ∧ served .dozing = [] ∧ served .waiting = [] ∧
    served .ended = [] := ⟨rfl, rfl, rfl, rfl⟩

/-- The connections in the hands of the server, and those that it closed. -/
def connections (s : Pool) : List ℕ :=
  inHand s.acceptor ++ s.queue ++ s.workers.flatMap served ++ s.closed.map Prod.fst

/-- How far `Stop` is. -/
def progress : Stopper → ℕ
  | .idle => 0
  | .begun => 1
  | .flagged => 2
  | .shut => 3
  | .joined => 4
  | .drained => 5
  | .notified => 6

/-- What is known of a server that runs or stops. -/
structure Sound (s : Pool) : Prop where
  connections : s.connections.Perm (List.range s.accepted)
  queue : s.queue.length ≤ kMaxQueueDepth
  stopped : s.stopper = .idle → s.running = false →
    s.acceptor = .ended ∧ s.workers = [] ∧ s.queue = []
  running : s.running = true → s.stopper = .idle
  flagged : 2 ≤ progress s.stopper → s.stopping = true
  shut : 3 ≤ progress s.stopper → s.listening = false
  joined : 4 ≤ progress s.stopper → s.acceptor = .ended
  drained : 5 ≤ progress s.stopper → s.queue = [] ∧ s.Free
  notified : 6 ≤ progress s.stopper → .waiting ∉ s.workers
  dozing : .dozing ∈ s.workers → s.queue = []

theorem sound_start : Sound {} := by
  constructor <;> simp [connections, inHand, progress]

theorem flatMap_served_wake (ws : List Worker) :
    (ws.map wake).flatMap served = ws.flatMap served := by
  rw [List.flatMap_map]
  exact List.flatMap_congr fun w _ ↦ by cases w <;> rfl

theorem flatMap_served_replicate (n : ℕ) :
    (List.replicate n Worker.locking).flatMap served = [] := by
  induction n with
  | zero => rfl
  | succ n ih => exact ih

variable {opts : HttpServerOptions} {n : ℕ} {s s' : Pool} {e : PoolEvent}

theorem connections_step (h : PoolStep opts n s e s') (hs : s.Sound) :
    s'.connections.Perm (List.range s'.accepted) := by
  have hids := hs.connections
  rw [connections, List.perm_iff_count] at hids ⊢
  intro x
  have hx := hids x
  simp only [List.count_append] at hx ⊢
  cases h with
  | tested ha | retested ha => cases hstop : s.stopping <;> simpa [ha] using hx
  | acceptFailed ha | acceptShut ha | full ha | notifiedNone ha => simpa [ha] using hx
  | arrived ha =>
    simp only [ha, inHand_rest, inHand_holding, List.count_nil, List.range_succ,
      List.count_append] at hx ⊢
    omega
  | rejected ha | pushed ha =>
    simp only [ha, inHand_rest, inHand_rejecting, inHand_holding, List.count_nil, List.map_append,
      List.map_cons, List.map_nil, List.count_append] at hx ⊢
    omega
  | notifiedOne ha hw => simpa [ha, hw] using hx
  | taken hw _ hq =>
    simp only [hw, hq, List.flatMap_append, List.flatMap_cons, served_rest, served_serving,
      List.count_append, List.count_nil, List.count_cons] at hx ⊢
    omega
  | left hw | dozed hw | waited hw | woken hw | received hw => simpa [hw] using hx
  | hungUp hw | responded hw =>
    simp only [hw, List.flatMap_append, List.flatMap_cons, served_rest, served_serving,
      List.count_append, List.count_nil, List.map_append, List.map_cons, List.map_nil] at hx ⊢
    omega
  | started hidle hr =>
    obtain ⟨ha, hw, hq⟩ := hs.stopped hidle hr
    simpa [ha, hw, hq, flatMap_served_replicate] using hx
  | stopCalled | flagged | shut | joined => exact hx
  | drained =>
    have hdropped : (s.queue.map (·, Closing.dropped)).map Prod.fst = s.queue := by
      simp [Function.comp_def]
    simp only [List.map_append, hdropped, List.count_append, List.count_nil] at hx ⊢
    omega
  | notifiedAll => simpa only [flatMap_served_wake] using hx
  | stopped _ hw =>
    have hnone : s.workers.flatMap served = [] := List.flatMap_eq_nil_iff.2 fun w hmem ↦ by
      rw [hw w hmem]
      rfl
    simpa [hnone] using hx

theorem queue_step (h : PoolStep opts n s e s') (hs : s.Sound) :
    s'.queue.length ≤ kMaxQueueDepth := by
  have hqueue := hs.queue
  cases h with
  | pushed _ _ hq =>
    rw [List.length_append, List.length_singleton]
    exact hq
  | taken _ _ hq =>
    rw [hq, List.length_cons] at hqueue
    exact (Nat.le_succ _).trans hqueue
  | drained => exact Nat.zero_le _
  | _ => exact hqueue

/-- Once the acceptor has ended, it does nothing until the next start. -/
theorem ended_step (h : PoolStep opts n s e s') (ha : s.acceptor = .ended) (he : e ≠ .started) :
    s'.acceptor = .ended ∧ s'.queue <:+ s.queue := by
  cases h with
  | tested h | arrived h | acceptFailed h | acceptShut h | retested h | full h | rejected h
  | pushed h | notifiedOne h | notifiedNone h => cases h.symm.trans ha
  | started => exact absurd rfl he
  | taken _ _ hq => exact ⟨ha, hq ▸ List.suffix_cons _ _⟩
  | drained => exact ⟨ha, List.nil_suffix⟩
  | _ => exact ⟨ha, List.suffix_refl _⟩

/-- A worker that finds nothing to do does not wait when the server stops. -/
theorem free_step (h : PoolStep opts n s e s') (hstop : s.stopping = true) (hfree : s.Free) :
    s'.Free := by
  cases h with
  | dozed _ _ _ hs => cases hs.symm.trans hstop
  | notifiedOne _ hw | taken hw | left hw | waited hw | woken hw | received hw | hungUp hw
  | responded hw =>
    simp only [Free, hw, List.forall_mem_append, List.forall_mem_cons] at hfree ⊢
    exact ⟨hfree.1, by simp, hfree.2.2⟩
  | started => exact fun w hw ↦ List.eq_of_mem_replicate hw ▸ (by decide)
  | notifiedAll =>
    refine List.forall_mem_map.2 fun w hw ↦ ?_
    have hne := hfree w hw
    cases w <;> simp_all [wake]
  | stopped => exact fun w hw ↦ absurd hw List.not_mem_nil
  | _ => exact hfree

/-- Nobody waits without having dozed. -/
theorem waiting_step (h : PoolStep opts n s e s') (hfree : s.Free) (hw : .waiting ∉ s.workers) :
    .waiting ∉ s'.workers := by
  cases h with
  | notifiedOne _ hw' | woken hw' => simp [hw'] at hw
  | waited hw' => exact absurd rfl (hfree .dozing (by simp [hw']))
  | taken hw' | left hw' | dozed hw' | received hw' | hungUp hw' | responded hw' =>
    simp only [hw', List.mem_append, List.mem_cons, not_or] at hw ⊢
    exact ⟨hw.1, by simp, hw.2.2⟩
  | started => exact fun hmem ↦ absurd (List.eq_of_mem_replicate hmem) (by decide)
  | notifiedAll =>
    intro hmem
    obtain ⟨w, -, hwake⟩ := List.mem_map.1 hmem
    cases w <;> cases hwake
  | stopped => exact List.not_mem_nil
  | _ => exact hw

theorem dozing_step (h : PoolStep opts n s e s') (hs : s.Sound) :
    .dozing ∈ s'.workers → s'.queue = [] := by
  have hdozing := hs.dozing
  intro hmem
  cases h with
  | pushed _ hfree => exact absurd rfl (hfree _ hmem)
  | taken hw hfree =>
    simp only [List.mem_append, List.mem_cons, reduceCtorEq, false_or] at hmem
    exact absurd rfl (hfree .dozing (by simpa [hw] using hmem))
  | dozed _ _ hq => exact hq
  | waited hw => exact hdozing (by simp [hw])
  | notifiedOne _ hw | left hw | woken hw | received hw | hungUp hw | responded hw =>
    refine hdozing ?_
    simp only [hw, List.mem_append, List.mem_cons, reduceCtorEq, false_or] at hmem ⊢
    exact hmem
  | started => exact absurd (List.eq_of_mem_replicate hmem) (by decide)
  | drained => rfl
  | notifiedAll =>
    obtain ⟨w, hw, hwake⟩ := List.mem_map.1 hmem
    cases w with
    | dozing => exact hdozing hw
    | _ => cases hwake
  | stopped => exact absurd hmem List.not_mem_nil
  | _ => exact hdozing hmem

/-- A server that has stopped does nothing until the next start. -/
theorem started_of_stopped (h : PoolStep opts n s e s') (hs : s.Sound) (hidle : s.stopper = .idle)
    (hr : s.running = false) : e = .started := by
  obtain ⟨hended, hnone, -⟩ := hs.stopped hidle hr
  cases h with
  | started => rfl
  | tested ha | arrived ha | acceptFailed ha | acceptShut ha | retested ha | full ha | rejected ha
  | pushed ha | notifiedOne ha | notifiedNone ha => cases ha.symm.trans hended
  | taken hw | left hw | dozed hw | waited hw | woken hw | received hw | hungUp hw | responded hw =>
    have hnil := hw.symm.trans hnone
    exact absurd hnil (List.append_ne_nil_of_right_ne_nil _ (List.cons_ne_nil _ _))
  | stopCalled _ hrun => cases hrun.symm.trans hr
  | flagged hst | shut hst | joined hst | drained hst | notifiedAll hst | stopped hst =>
    cases hst.symm.trans hidle

theorem stopped_step (h : PoolStep opts n s e s') (hs : s.Sound) (hidle : s'.stopper = .idle)
    (hr : s'.running = false) : s'.acceptor = .ended ∧ s'.workers = [] ∧ s'.queue = [] := by
  have hstart := started_of_stopped h hs
  cases h with
  | stopped hnotified _ =>
    exact ⟨hs.joined (by rw [hnotified]; decide), rfl, (hs.drained (by rw [hnotified]; decide)).1⟩
  | started => cases hr
  | stopCalled | flagged | shut | joined | drained | notifiedAll => cases hidle
  | _ => cases hstart hidle hr

theorem joined_step (h : PoolStep opts n s e s') (hs : s.Sound)
    (hp : 4 ≤ progress s'.stopper) : s'.acceptor = .ended := by
  have hended : 4 ≤ progress s.stopper → e ≠ .started → s'.acceptor = .ended := fun hp he ↦
    (ended_step h (hs.joined hp) he).1
  cases h with
  | started hidle => exact absurd hp (by simp [progress, hidle])
  | joined _ ha => exact ha
  | stopCalled | flagged | shut | stopped => exact absurd hp (by simp [progress])
  | drained hjoined => exact hended (by rw [hjoined]; decide) (by decide)
  | notifiedAll hdrained => exact hended (by rw [hdrained]; decide) (by decide)
  | _ => exact hended hp (by simp)

theorem drained_step (h : PoolStep opts n s e s') (hs : s.Sound)
    (hp : 5 ≤ progress s'.stopper) : s'.queue = [] ∧ s'.Free := by
  have hkept : 5 ≤ progress s.stopper → e ≠ .started → s'.queue = [] ∧ s'.Free := by
    intro hp he
    obtain ⟨hqueue, hfree⟩ := hs.drained hp
    have hsuffix := (ended_step h (hs.joined (by omega)) he).2
    rw [hqueue] at hsuffix
    exact ⟨List.suffix_nil.1 hsuffix, free_step h (hs.flagged (by omega)) hfree⟩
  cases h with
  | started hidle => exact absurd hp (by simp [progress, hidle])
  | drained _ hfree => exact ⟨rfl, hfree⟩
  | stopCalled | flagged | shut | joined | stopped => exact absurd hp (by simp [progress])
  | notifiedAll hdrained => exact hkept (by rw [hdrained]; decide) (by decide)
  | _ => exact hkept hp (by simp)

theorem notified_step (h : PoolStep opts n s e s') (hs : s.Sound)
    (hp : 6 ≤ progress s'.stopper) : .waiting ∉ s'.workers := by
  have hkept : 6 ≤ progress s.stopper → .waiting ∉ s'.workers := fun hp ↦
    waiting_step h (hs.drained (by omega)).2 (hs.notified hp)
  cases h with
  | started hidle => exact absurd hp (by simp [progress, hidle])
  | stopCalled | flagged | shut | joined | drained | stopped =>
    exact absurd hp (by simp [progress])
  | notifiedAll hdrained =>
    intro hmem
    obtain ⟨w, -, hwake⟩ := List.mem_map.1 hmem
    cases w <;> cases hwake
  | _ => exact hkept hp

/-- **Every step keeps the server sound.** -/
theorem Sound.step (h : PoolStep opts n s e s') (hs : s.Sound) : s'.Sound where
  connections := connections_step h hs
  queue := queue_step h hs
  stopped := stopped_step h hs
  running := by
    have hrunning := hs.running
    cases h with
    | started hidle => exact fun _ ↦ hidle
    | stopCalled => rintro ⟨⟩
    | flagged hst | shut hst | joined hst | drained hst | notifiedAll hst | stopped hst =>
      intro hr
      cases hst.symm.trans (hrunning hr)
    | _ => exact hrunning
  flagged := by
    have hflagged := hs.flagged
    cases h with
    | started hidle => exact fun hp ↦ absurd hp (by simp [progress, hidle])
    | stopCalled | stopped => exact fun hp ↦ absurd hp (by simp [progress])
    | flagged => exact fun _ ↦ rfl
    | shut hst | joined hst | drained hst | notifiedAll hst =>
      exact fun _ ↦ hflagged (by rw [hst]; decide)
    | _ => exact hflagged
  shut := by
    have hshut := hs.shut
    cases h with
    | started hidle => exact fun hp ↦ absurd hp (by simp [progress, hidle])
    | stopCalled | flagged | stopped => exact fun hp ↦ absurd hp (by simp [progress])
    | shut => exact fun _ ↦ rfl
    | joined hst | drained hst | notifiedAll hst => exact fun _ ↦ hshut (by rw [hst]; decide)
    | _ => exact hshut
  joined := joined_step h hs
  drained := drained_step h hs
  notified := notified_step h hs
  dozing := dozing_step h hs

/-! ### Notifications -/

/-- While a worker waits, there is for every connection in the queue a worker that is awake and will
look for it, or one that is about to be woken up. -/
def Awake (s : Pool) : Prop :=
  .waiting ∈ s.workers →
    s.queue.length ≤ s.workers.count .locking + if s.acceptor = .notifying then 1 else 0

theorem awake_step (h : PoolStep opts n s e s') (hs : s.Sound) (hawake : s.Awake) : s'.Awake := by
  intro hmem
  cases h with
  | tested ha | retested ha =>
    have hle := hawake hmem
    cases hstop : s.stopping <;> simpa [ha] using hle
  | arrived ha | acceptFailed ha | acceptShut ha | full ha | rejected ha =>
    have hle := hawake hmem
    simpa [ha] using hle
  | pushed ha =>
    have hle := hawake hmem
    simpa [ha] using hle
  | notifiedOne ha hw =>
    have hle := hawake (by simp [hw])
    simpa [ha, hw, List.count_cons, Nat.add_assoc] using hle
  | notifiedNone _ hw => exact absurd hmem hw
  | taken hw _ hq =>
    have hle := hawake (by simpa [hw] using hmem)
    simp only [hw, hq, List.length_cons, List.count_append, List.count_cons, beq_self_eq_true,
      if_true] at hle
    simp only [List.count_append, List.count_cons, beq_iff_eq, reduceCtorEq, if_false]
    omega
  | left _ _ hq | dozed _ _ hq =>
    show s.queue.length ≤ _
    rw [hq]
    exact Nat.zero_le _
  | waited hw =>
    show s.queue.length ≤ _
    rw [hs.dozing (by simp [hw])]
    exact Nat.zero_le _
  | woken hw =>
    have hle := hawake (by simp [hw])
    simp only [hw, List.count_append, List.count_cons, beq_iff_eq, reduceCtorEq, if_false] at hle ⊢
    omega
  | received hw | hungUp hw | responded hw =>
    have hle := hawake (by simpa [hw] using hmem)
    simp only [hw, List.count_append, List.count_cons, beq_iff_eq, reduceCtorEq, if_false] at hle ⊢
    omega
  | started => exact absurd (List.eq_of_mem_replicate hmem) (by decide)
  | drained => exact Nat.zero_le _
  | notifiedAll =>
    obtain ⟨w, -, hwake⟩ := List.mem_map.1 hmem
    cases w <;> cases hwake
  | stopped => exact absurd hmem List.not_mem_nil
  | _ => exact hawake hmem

/-! ### The order of connections -/

/-- The connection that is taken. -/
def takenIn : PoolEvent → Option ℕ
  | .taken c => some c
  | _ => none

/-- The connections that were taken, those in the queue and the one in the acceptor's hand. -/
def inOrder (es : List PoolEvent) (s : Pool) : List ℕ :=
  es.filterMap takenIn ++ s.queue ++ inHand s.acceptor

/-- They are in the order of their arrival. -/
structure Ordered (es : List PoolEvent) (s : Pool) : Prop where
  increasing : (inOrder es s).Pairwise (· < ·)
  lt_accepted : ∀ c ∈ inOrder es s, c < s.accepted

theorem Ordered.sublist {es es' : List PoolEvent} (h : Ordered es s)
    (hsub : List.Sublist (inOrder es' s') (inOrder es s)) (haccepted : s'.accepted = s.accepted) :
    Ordered es' s' :=
  ⟨h.increasing.sublist hsub, fun c hc ↦ haccepted ▸ h.lt_accepted c (hsub.subset hc)⟩

theorem ordered_step {es : List PoolEvent} (h : PoolStep opts n s e s') (hord : Ordered es s) :
    Ordered (es ++ [e]) s' := by
  have hquiet : takenIn e = none → (es ++ [e]).filterMap takenIn = es.filterMap takenIn :=
    fun he ↦ by rw [List.filterMap_append, List.filterMap_cons_none he, List.filterMap_nil,
      List.append_nil]
  cases h with
  | arrived ha =>
    have hlt := hord.lt_accepted
    have hinc := hord.increasing
    simp only [inOrder, ha, inHand_rest, List.append_nil] at hlt hinc
    refine ⟨?_, ?_⟩
    · rw [inOrder, hquiet rfl, List.pairwise_append]
      exact ⟨hinc, List.pairwise_singleton _ _, fun c hc c' hc' ↦
        List.mem_singleton.1 hc' ▸ hlt c hc⟩
    · rw [inOrder, hquiet rfl]
      refine List.forall_mem_append.2 ⟨fun c hc ↦ Nat.lt_succ_of_lt (hlt c hc), ?_⟩
      exact List.forall_mem_singleton.2 (Nat.lt_succ_self _)
  | tested ha | retested ha =>
    refine hord.sublist ?_ rfl
    rw [inOrder, inOrder, hquiet rfl]
    cases hstop : s.stopping <;> simp [ha]
  | full ha | rejected ha | acceptFailed ha | acceptShut ha | pushed ha | notifiedOne ha
  | notifiedNone ha | started _ _ =>
    refine hord.sublist ?_ rfl
    rw [inOrder, inOrder, hquiet rfl]
    simp [*]
  | taken _ _ hq =>
    refine hord.sublist ?_ rfl
    simp [inOrder, hq, takenIn]
  | drained =>
    refine hord.sublist ?_ rfl
    rw [inOrder, inOrder, hquiet rfl]
    simp
  | _ =>
    refine hord.sublist ?_ rfl
    rw [inOrder, inOrder, hquiet rfl]

/-! ### Reads -/

/-- What a step reads from a connection. -/
def readFrom (c : ℕ) : PoolEvent → Option Bytes
  | .received c' r => if c' = c then some r else none
  | _ => none

/-- What was read from a connection. -/
def readsOf (c : ℕ) (es : List PoolEvent) : List Bytes := es.filterMap (readFrom c)

/-- Nothing was answered before the last of the reads. -/
def Unanswered (opts : HttpServerOptions) (reads : List Bytes) : Prop :=
  ∀ p, p <+: reads → p ≠ reads → answer opts p.flatten = none

/-- Every connection has the reads that came from it, and none before a worker has it. -/
structure Tracked (opts : HttpServerOptions) (es : List PoolEvent) (s : Pool) : Prop where
  serving : ∀ c reads, .serving c reads ∈ s.workers →
    reads = readsOf c es ∧ Unanswered opts reads
  handled : ∀ c reads, (c, .handled reads) ∈ s.closed →
    reads = readsOf c es ∧ Unanswered opts reads
  fresh : ∀ c, c ∈ s.queue ∨ c ∈ inHand s.acceptor ∨ s.accepted ≤ c → readsOf c es = []

theorem unanswered_nil (opts : HttpServerOptions) : Unanswered opts [] :=
  fun _ hp hne ↦ absurd (List.prefix_nil.1 hp) hne

theorem Unanswered.append {reads : List Bytes} (h : Unanswered opts reads)
    (hmore : answer opts reads.flatten = none) (r : Bytes) : Unanswered opts (reads ++ [r]) := by
  intro p hp hne
  rcases List.prefix_concat_iff.1 hp with rfl | hp
  · exact absurd rfl hne
  by_cases heq : p = reads
  · exact heq ▸ hmore
  · exact h p hp heq

/-- A step that reads nothing leaves the reads. -/
theorem readsOf_quiet {es : List PoolEvent} (c : ℕ) (he : readFrom c e = none) :
    readsOf c (es ++ [e]) = readsOf c es := by
  rw [readsOf, List.filterMap_append, List.filterMap_cons_none he, List.filterMap_nil,
    List.append_nil, readsOf]

/-- A connection is in one place. -/
theorem Sound.nodup (hs : s.Sound) : s.connections.Nodup :=
  hs.connections.nodup_iff.2 List.nodup_range

/-- What one worker has, nobody else has. -/
theorem Sound.elsewhere {pre post : List Worker} {c : ℕ} {reads : List Bytes} (hs : s.Sound)
    (hw : s.workers = pre ++ .serving c reads :: post) :
    c < s.accepted ∧ c ∉ inHand s.acceptor ∧ c ∉ s.queue ∧ c ∉ s.closed.map Prod.fst ∧
      ∀ w ∈ pre ++ post, c ∉ served w := by
  have hmem : c ∈ s.connections := by simp [Pool.connections, hw]
  have hcount := List.nodup_iff_count_le_one.1 hs.nodup c
  simp only [Pool.connections, hw, List.flatMap_append, List.flatMap_cons, served_serving,
    List.count_append, List.count_cons_self, List.count_nil] at hcount
  have hnone : ∀ {l : List ℕ}, l.count c = 0 → c ∉ l := List.count_eq_zero.1
  refine ⟨List.mem_range.1 (hs.connections.subset hmem), hnone (by omega), hnone (by omega),
    hnone (by omega), fun w hw' hc ↦ ?_⟩
  have hflat : c ∈ pre.flatMap served ∨ c ∈ post.flatMap served :=
    (List.mem_append.1 hw').imp (fun h ↦ List.mem_flatMap_of_mem h hc) fun h ↦
      List.mem_flatMap_of_mem h hc
  exact hflat.elim (hnone (by omega)) (hnone (by omega))

theorem tracked_received {es : List PoolEvent} {pre post : List Worker} {c : ℕ}
    {reads : List Bytes} {r : Bytes} (hs : s.Sound) (htracked : Tracked opts es s)
    (hw : s.workers = pre ++ .serving c reads :: post) (hmore : answer opts reads.flatten = none) :
    Tracked opts (es ++ [.received c r])
      { s with workers := pre ++ .serving c (reads ++ [r]) :: post } := by
  obtain ⟨hlt, hhand, hqueue, hclosed, hothers⟩ := hs.elsewhere hw
  -- No other place has the connection, so no other reads change.
  have hother : ∀ c', c' ≠ c → readsOf c' (es ++ [.received c r]) = readsOf c' es :=
    fun c' hne ↦ readsOf_quiet c' (if_neg (Ne.symm hne))
  obtain ⟨hreads, hun⟩ := htracked.serving c reads (by simp [hw])
  have hsame : readsOf c (es ++ [.received c r]) = reads ++ [r] := by
    have hsome : readFrom c (.received c r) = some r := if_pos rfl
    rw [readsOf, List.filterMap_append, List.filterMap_cons_some hsome, List.filterMap_nil, hreads,
      readsOf]
  refine ⟨fun c' reads' hmem ↦ ?_, fun c' reads' hmem ↦ ?_, fun c' hc' ↦ ?_⟩
  · have hcases : .serving c' reads' ∈ pre ++ post ∨
        Worker.serving c' reads' = .serving c (reads ++ [r]) := by
      simp only [List.mem_append, List.mem_cons] at hmem ⊢
      tauto
    rcases hcases with hmem | heq
    · have hne : c' ≠ c := fun heq ↦ hothers _ hmem (by simp [heq])
      have hbefore : .serving c' reads' ∈ s.workers := by
        rw [hw]
        simp only [List.mem_append, List.mem_cons] at hmem ⊢
        tauto
      rw [hother c' hne]
      exact htracked.serving c' reads' hbefore
    · cases heq
      exact ⟨hsame.symm, hun.append hmore r⟩
  · have hne : c' ≠ c := fun heq ↦ hclosed (heq ▸ List.mem_map_of_mem hmem)
    rw [hother c' hne]
    exact htracked.handled c' reads' hmem
  · have hne : c' ≠ c := by
      rintro rfl
      exact hc'.elim hqueue fun hc' ↦ hc'.elim hhand (not_le.2 hlt)
    rw [hother c' hne]
    exact htracked.fresh c' hc'

/-- A step that reads nothing, and only moves connections on. -/
theorem Tracked.quiet {es : List PoolEvent} (h : Tracked opts es s)
    (he : ∀ c, readFrom c e = none)
    (hserving : ∀ c reads, .serving c reads ∈ s'.workers →
      .serving c reads ∈ s.workers ∨ c ∈ s.queue ∧ reads = [])
    (hhandled : ∀ c reads, (c, .handled reads) ∈ s'.closed →
      (c, .handled reads) ∈ s.closed ∨ .serving c reads ∈ s.workers)
    (hfresh : ∀ c, c ∈ s'.queue ∨ c ∈ inHand s'.acceptor ∨ s'.accepted ≤ c →
      c ∈ s.queue ∨ c ∈ inHand s.acceptor ∨ s.accepted ≤ c) : Tracked opts (es ++ [e]) s' := by
  refine ⟨fun c reads hmem ↦ ?_, fun c reads hmem ↦ ?_, fun c hc ↦ ?_⟩
  · rw [readsOf_quiet c (he c)]
    rcases hserving c reads hmem with hmem | ⟨hqueue, rfl⟩
    · exact h.serving c reads hmem
    · exact ⟨(h.fresh c (Or.inl hqueue)).symm, unanswered_nil opts⟩
  · rw [readsOf_quiet c (he c)]
    exact (hhandled c reads hmem).elim (h.handled c reads) (h.serving c reads)
  · rw [readsOf_quiet c (he c)]
    exact h.fresh c (hfresh c hc)

theorem tracked_step {es : List PoolEvent} (h : PoolStep opts n s e s') (hs : s.Sound)
    (htracked : Tracked opts es s) : Tracked opts (es ++ [e]) s' := by
  cases h with
  | received hw hmore => exact tracked_received hs htracked hw hmore
  | tested ha | retested ha =>
    refine htracked.quiet (fun _ ↦ rfl) (fun _ _ ↦ Or.inl) (fun _ _ ↦ Or.inl) fun c hc ↦ ?_
    cases hstop : s.stopping <;> simpa [hstop, ha] using hc
  | arrived ha =>
    refine htracked.quiet (fun _ ↦ rfl) (fun _ _ ↦ Or.inl) (fun _ _ ↦ Or.inl) fun c hc ↦ ?_
    simp only [ha, inHand_rest, inHand_holding, List.mem_singleton, List.not_mem_nil] at hc ⊢
    grind
  | acceptFailed ha | acceptShut ha | full ha | notifiedNone ha =>
    refine htracked.quiet (fun _ ↦ rfl) (fun _ _ ↦ Or.inl) (fun _ _ ↦ Or.inl) fun c hc ↦ ?_
    simpa [ha] using hc
  | rejected ha =>
    refine htracked.quiet (fun _ ↦ rfl) (fun _ _ ↦ Or.inl) (fun c reads hmem ↦ Or.inl ?_)
      fun c hc ↦ ?_
    · simpa using hmem
    · simp only [inHand_rest, List.not_mem_nil] at hc
      grind
  | pushed ha =>
    refine htracked.quiet (fun _ ↦ rfl) (fun _ _ ↦ Or.inl) (fun _ _ ↦ Or.inl) fun c hc ↦ ?_
    simpa [ha, or_assoc] using hc
  | notifiedOne ha hw =>
    refine htracked.quiet (fun _ ↦ rfl) (fun c reads hmem ↦ Or.inl ?_) (fun _ _ ↦ Or.inl)
      fun c hc ↦ ?_
    · simpa [hw] using hmem
    · simpa [ha] using hc
  | taken hw _ hq =>
    refine htracked.quiet (fun _ ↦ rfl) (fun c reads hmem ↦ ?_) (fun _ _ ↦ Or.inl) fun c hc ↦ ?_
    · simp only [List.mem_append, List.mem_cons, Worker.serving.injEq] at hmem
      simp only [hw, hq, List.mem_append, List.mem_cons]
      grind
    · simp only [hq, List.mem_cons]
      grind
  | left hw | dozed hw | waited hw | woken hw =>
    refine htracked.quiet (fun _ ↦ rfl) (fun c reads hmem ↦ Or.inl ?_) (fun _ _ ↦ Or.inl)
      fun _ ↦ id
    simpa [hw] using hmem
  | hungUp hw | responded hw =>
    refine htracked.quiet (fun _ ↦ rfl) (fun c reads hmem ↦ Or.inl ?_) (fun c reads hmem ↦ ?_)
      fun _ ↦ id
    · simp only [hw, List.mem_append, List.mem_cons, reduceCtorEq, false_or] at hmem ⊢
      tauto
    · simp only [hw, List.mem_append, List.mem_cons, List.not_mem_nil, or_false, Prod.mk.injEq,
        Closing.handled.injEq] at hmem ⊢
      grind
  | started hidle hr =>
    obtain ⟨ha, -, -⟩ := hs.stopped hidle hr
    refine htracked.quiet (fun _ ↦ rfl) (fun c reads hmem ↦ ?_) (fun _ _ ↦ Or.inl) fun c hc ↦ ?_
    · cases List.eq_of_mem_replicate hmem
    · simpa [ha] using hc
  | stopCalled | flagged | shut | joined =>
    exact htracked.quiet (fun _ ↦ rfl) (fun _ _ ↦ Or.inl) (fun _ _ ↦ Or.inl) fun _ ↦ id
  | drained =>
    refine htracked.quiet (fun _ ↦ rfl) (fun _ _ ↦ Or.inl) (fun c reads hmem ↦ Or.inl ?_)
      fun c hc ↦ ?_
    · simpa using hmem
    · simp only [List.not_mem_nil, false_or] at hc
      exact Or.inr hc
  | notifiedAll =>
    refine htracked.quiet (fun _ ↦ rfl) (fun c reads hmem ↦ Or.inl ?_) (fun _ _ ↦ Or.inl)
      fun _ ↦ id
    obtain ⟨w, hw, hwake⟩ := List.mem_map.1 hmem
    cases w <;> cases hwake
    exact hw
  | stopped =>
    exact htracked.quiet (fun _ ↦ rfl) (fun _ _ hmem ↦ absurd hmem List.not_mem_nil)
      (fun _ _ ↦ Or.inl) fun _ ↦ id

/-! ### The end of `Stop` -/

/-- The reads that a connection may still come to, and closing it. -/
def readsLeft (opts : HttpServerOptions) (reads : List Bytes) : ℕ :=
  opts.maxTotalRequestBytes + 4 - reads.flatten.length

/-- What there is left for a worker to do. -/
def workLeft (opts : HttpServerOptions) : Worker → ℕ
  | .serving _ reads => max 3 (readsLeft opts reads)
  | .dozing => 4
  | .waiting => 3
  | .locking => 2
  | .ended => 0

/-- What there is left to do for a connection in the queue. -/
def queueLeft (opts : HttpServerOptions) : ℕ := opts.maxTotalRequestBytes + 3

/-- What there is left for the acceptor to do. -/
def acceptLeft (opts : HttpServerOptions) : Acceptor → ℕ
  | .accepting => queueLeft opts + 4
  | .holding _ => queueLeft opts + 3
  | .notifying | .rejecting _ => 2
  | .testing | .retesting => 1
  | .ended => 0

/-- What there is left to do until `Stop` returns. -/
def left (opts : HttpServerOptions) (s : Pool) : ℕ :=
  acceptLeft opts s.acceptor + s.queue.length * queueLeft opts +
    (s.workers.map (workLeft opts)).sum + (if s.stopper = .idle then 0 else 7 - progress s.stopper)

/-- The server is about to stop, or has stopped. -/
structure Stopping (s : Pool) : Prop where
  sound : s.Sound
  stopping : 2 ≤ progress s.stopper ∨ s.stopper = .idle ∧ s.running = false

theorem length_le_of_answer_none {reads : List Bytes} (h : answer opts reads.flatten = none) :
    reads.flatten.length ≤ opts.maxTotalRequestBytes := by
  by_contra hlong
  rw [answer] at h
  cases htry : tryParseRequest opts.parseLimits reads.flatten with
  | complete consumed req => simp [htry] at h
  | error e => simp [htry] at h
  | needMore =>
    simp only [htry] at h
    rw [if_pos (not_le.1 hlong)] at h
    cases h

theorem workLeft_received {reads : List Bytes} {r : Bytes}
    (hmore : answer opts reads.flatten = none) (hne : r ≠ []) :
    workLeft opts (.serving 0 (reads ++ [r])) < workLeft opts (.serving 0 reads) := by
  have hle := length_le_of_answer_none hmore
  have hpos := List.length_pos_iff.2 hne
  simp only [workLeft, readsLeft, List.flatten_append, List.flatten_cons, List.flatten_nil,
    List.append_nil, List.length_append]
  omega

theorem sum_map_workLeft (opts : HttpServerOptions) (pre post : List Worker) (w : Worker) :
    ((pre ++ w :: post).map (workLeft opts)).sum =
      (pre.map (workLeft opts)).sum + (workLeft opts w + (post.map (workLeft opts)).sum) := by
  rw [List.map_append, List.sum_append, List.map_cons, List.sum_cons]

theorem sum_workLeft_wake (opts : HttpServerOptions) (ws : List Worker) :
    ((ws.map wake).map (workLeft opts)).sum ≤ (ws.map (workLeft opts)).sum := by
  have hle : ∀ w, workLeft opts (wake w) ≤ workLeft opts w := by
    intro w
    cases w with
    | waiting => exact Nat.le_succ 2
    | _ => exact le_rfl
  induction ws with
  | nil => exact le_rfl
  | cons w ws ih =>
    simp only [List.map_cons, List.sum_cons]
    exact Nat.add_le_add (hle w) ih

theorem Stopping.step (h : PoolStep opts n s e s') (hs : s.Stopping) (he : e ≠ .started) :
    s'.Stopping ∧ left opts s' < left opts s := by
  obtain ⟨hsound, hstopping⟩ := hs
  have hsound' := hsound.step h
  rcases hstopping with hp | ⟨hidle, hr⟩
  · have hflag := hsound.flagged hp
    have hbusy : s.stopper ≠ .idle := fun heq ↦ by simp [heq, progress] at hp
    cases h with
    | tested ha | retested ha =>
      refine ⟨⟨hsound', Or.inl hp⟩, ?_⟩
      simp only [left, ha, hflag, if_true, acceptLeft]
      omega
    | arrived ha | acceptFailed ha | acceptShut ha | full ha | rejected ha | notifiedNone ha =>
      refine ⟨⟨hsound', Or.inl hp⟩, ?_⟩
      simp only [left, ha, acceptLeft]
      omega
    | pushed ha =>
      refine ⟨⟨hsound', Or.inl hp⟩, ?_⟩
      simp only [left, ha, acceptLeft, List.length_append, List.length_singleton, Nat.add_mul,
        Nat.one_mul]
      omega
    | notifiedOne ha hw =>
      refine ⟨⟨hsound', Or.inl hp⟩, ?_⟩
      simp only [left, ha, hw, acceptLeft, sum_map_workLeft, workLeft]
      omega
    | taken hw _ hq =>
      refine ⟨⟨hsound', Or.inl hp⟩, ?_⟩
      simp only [left, hw, hq, sum_map_workLeft, workLeft, readsLeft, List.flatten_nil,
        List.length_nil, List.length_cons, Nat.add_mul, Nat.one_mul]
      simp only [queueLeft]
      omega
    | left hw | waited hw | woken hw | hungUp hw | responded hw =>
      refine ⟨⟨hsound', Or.inl hp⟩, ?_⟩
      simp only [left, hw, sum_map_workLeft, workLeft]
      omega
    | dozed _ _ _ hs => cases hs.symm.trans hflag
    | received hw hmore hne =>
      refine ⟨⟨hsound', Or.inl hp⟩, ?_⟩
      have hless := workLeft_received hmore hne
      simp only [left, hw, sum_map_workLeft, workLeft] at hless ⊢
      omega
    | started hidle | stopCalled hidle => exact absurd hidle hbusy
    | flagged hst => simp [hst, progress] at hp
    | shut hst | joined hst =>
      refine ⟨⟨hsound', Or.inl (by simp [progress])⟩, ?_⟩
      simp only [left, hst, progress, reduceCtorEq, if_false]
      omega
    | drained hst =>
      refine ⟨⟨hsound', Or.inl (by simp [progress])⟩, ?_⟩
      simp only [left, hst, progress, reduceCtorEq, if_false, List.length_nil, Nat.zero_mul]
      omega
    | notifiedAll hst =>
      refine ⟨⟨hsound', Or.inl (by simp [progress])⟩, ?_⟩
      have hle := sum_workLeft_wake opts s.workers
      simp only [left, hst, progress, reduceCtorEq, if_false]
      omega
    | stopped hst =>
      refine ⟨⟨hsound', Or.inr ⟨rfl, ?_⟩⟩, ?_⟩
      · by_contra hr
        cases hst.symm.trans (hsound.running (Bool.eq_true_of_not_eq_false hr))
      · simp only [left, hst, progress, reduceCtorEq, if_false, if_true, List.map_nil,
          List.sum_nil]
        omega
  · exact absurd (started_of_stopped h hsound hidle hr) he

/-- A step that the threads take by themselves. -/
def CanStep (opts : HttpServerOptions) (n : ℕ) (s : Pool) : Prop :=
  ∃ e s', e.external = false ∧ PoolStep opts n s e s'

theorem canStep (h : PoolStep opts n s e s') (he : e.external = false) : CanStep opts n s :=
  ⟨e, s', he, h⟩

/-- The acceptor goes on, unless it waits for a client. -/
theorem canStep_of_acceptor (hfree : s.Free) (hended : s.acceptor ≠ .ended)
    (hlisten : s.acceptor = .accepting → s.listening = false)
    (hreject : ∀ c, s.acceptor ≠ .rejecting c) : CanStep opts n s := by
  cases ha : s.acceptor with
  | testing => exact canStep (.tested ha) rfl
  | accepting => exact canStep (.acceptShut ha (hlisten ha)) rfl
  | retesting => exact canStep (.retested ha) rfl
  | holding c =>
    rcases Nat.lt_or_ge s.queue.length kMaxQueueDepth with hq | hq
    · exact canStep (.pushed ha hfree hq) rfl
    · exact canStep (.full ha hfree hq) rfl
  | rejecting c => exact absurd ha (hreject c)
  | notifying =>
    by_cases hw : .waiting ∈ s.workers
    · obtain ⟨pre, post, hw⟩ := List.append_of_mem hw
      exact canStep (.notifiedOne ha hw) rfl
    · exact canStep (.notifiedNone ha hw) rfl
  | ended => exact absurd ha hended

/-- **`Stop` waits for nothing but clients.** -/
theorem canStep_of_stopping (hs : s.Sound) (hbusy : s.stopper ≠ .idle) :
    CanStep opts n s ∨ (∃ c reads, .serving c reads ∈ s.workers) ∨
      ∃ c, s.acceptor = .rejecting c := by
  by_cases hreject : ∃ c, s.acceptor = .rejecting c
  · exact Or.inr (Or.inr hreject)
  by_cases hserving : ∃ c reads, .serving c reads ∈ s.workers
  · exact Or.inr (Or.inl hserving)
  refine Or.inl ?_
  by_cases hdozing : .dozing ∈ s.workers
  · obtain ⟨pre, post, hw⟩ := List.append_of_mem hdozing
    exact canStep (.waited hw) rfl
  have hfree : s.Free := fun w hw hne ↦ hdozing (hne ▸ hw)
  have hacceptor : 3 ≤ progress s.stopper → s.acceptor ≠ .ended → CanStep opts n s :=
    fun hp hended ↦ canStep_of_acceptor hfree hended (fun _ ↦ hs.shut hp) fun c hc ↦ hreject ⟨c, hc⟩
  cases hst : s.stopper with
  | idle => exact absurd hst hbusy
  | begun => exact canStep (.flagged hst) rfl
  | flagged => exact canStep (.shut hst) rfl
  | shut =>
    by_cases hended : s.acceptor = .ended
    · exact canStep (.joined hst hended) rfl
    · exact hacceptor (by rw [hst]; decide) hended
  | joined => exact canStep (.drained hst hfree) rfl
  | drained => exact canStep (.notifiedAll hst) rfl
  | notified =>
    have hlast : 6 ≤ progress s.stopper := by rw [hst]; decide
    by_cases hlocking : .locking ∈ s.workers
    · obtain ⟨pre, post, hw⟩ := List.append_of_mem hlocking
      exact canStep (.left hw hfree (hs.drained (by omega)).1 (hs.flagged (by omega))) rfl
    · refine canStep (.stopped hst fun w hw ↦ ?_) rfl
      cases w with
      | ended => rfl
      | locking => exact absurd hw hlocking
      | dozing => exact absurd hw hdozing
      | waiting => exact absurd hw (hs.notified hlast)
      | serving c reads => exact absurd ⟨c, reads, hw⟩ hserving

end Pool

/-! ### Runs -/

section Runs

open Pool

variable {H : Type} {opts : HttpServerOptions} {n : ℕ} {es : List PoolEvent} {s : Pool}

theorem sound_of_run (h : Run (PoolStep opts n) {} es s) : s.Sound :=
  h.invariant sound_start fun _ _ _ hs hstep ↦ hs.step hstep

theorem accepted_eq_count (h : Run (PoolStep opts n) {} es s) : s.accepted = es.count .arrived := by
  refine h.invariant_events (I := fun es s ↦ s.accepted = es.count .arrived) rfl ?_
  intro es s e s' hcount hstep
  cases hstep <;> simp [hcount]

/-- **Every accepted connection is in one place**: in the acceptor's or a worker's hands, in the
queue, or closed; so it is closed once at most, and when the server has stopped, it was. -/
theorem conserved (h : Run (PoolStep opts n) {} es s) :
    s.connections.Perm (List.range (es.count .arrived)) ∧ s.queue.length ≤ kMaxQueueDepth ∧
      (s.stopper = .idle → s.running = false →
        (s.closed.map Prod.fst).Perm (List.range (es.count .arrived))) := by
  have hs := sound_of_run h
  have hconnections := hs.connections
  rw [accepted_eq_count h] at hconnections
  refine ⟨hconnections, hs.queue, fun hidle hr ↦ ?_⟩
  obtain ⟨ha, hw, hq⟩ := hs.stopped hidle hr
  simpa [Pool.connections, ha, hw, hq] using hconnections

/-- **No notification is lost**: a worker waits only while as many workers are awake as there are
connections in the queue. -/
theorem awake (h : Run (PoolStep opts n) {} es s) (hw : .waiting ∈ s.workers) :
    s.queue.length ≤ s.workers.count .locking + if s.acceptor = .notifying then 1 else 0 := by
  have hboth : s.Sound ∧ s.Awake := by
    refine h.invariant (I := fun s ↦ s.Sound ∧ s.Awake) ⟨sound_start, fun hw ↦ ?_⟩ ?_
    · cases hw
    · exact fun _ _ _ hs hstep ↦ ⟨hs.1.step hstep, awake_step hstep hs.1 hs.2⟩
  exact hboth.2 hw

/-- **Workers take the connections in the order of their arrival.** -/
theorem taken_in_order (h : Run (PoolStep opts n) {} es s) :
    (es.filterMap takenIn ++ s.queue).Pairwise (· < ·) := by
  have hord : Ordered es s := h.invariant_events ⟨List.Pairwise.nil, by simp [inOrder, inHand]⟩
    fun _ _ _ _ hord hstep ↦ ordered_step hstep hord
  exact hord.increasing.sublist (List.sublist_append_left _ _)

theorem tracked_of_run (h : Run (PoolStep opts n) {} es s) : Tracked opts es s := by
  have hboth : s.Sound ∧ Tracked opts es s := by
    refine h.invariant_events (I := fun es s ↦ s.Sound ∧ Tracked opts es s) ⟨sound_start, ?_⟩ ?_
    · exact ⟨fun _ _ hmem ↦ absurd hmem List.not_mem_nil, fun _ _ hmem ↦
        absurd hmem List.not_mem_nil, fun _ _ ↦ rfl⟩
    · exact fun _ _ _ _ hs hstep ↦ ⟨hs.1.step hstep, tracked_step hstep hs.1 hs.2⟩
  exact hboth.2

/-- What is written to a connection before it is closed. -/
def Closing.written (opts : HttpServerOptions) (routes : List (Route H))
    (call : H → HttpRequest → Except (Option Bytes) HttpResponse) : Closing → Option Bytes
  | .overloaded => some (serializeResponse
    { status := 503
      body := str "\x7b\"error\":\x7b\"type\":\"overloaded\",\"reason\":\"queue full\"\x7d\x7d" })
  | .handled reads => handleClient opts routes call reads
  | .dropped => none

/-- **A client gets the response to its own request**, whatever the other threads and clients do. -/
theorem client_answered {routes : List (Route H)}
    {call : H → HttpRequest → Except (Option Bytes) HttpResponse} {method path body : Bytes}
    (h : Run (PoolStep opts n) {} es s) {c : ℕ} {reads : List Bytes}
    (hclosed : (c, .handled reads) ∈ s.closed)
    (hcut : IsCut (makeRequest method path body) (readsOf c es))
    (hmethod : Word method) (hpath : Word path)
    (hline : method.length + 1 + path.length + 9 ≤ opts.parseLimits.maxRequestLine)
    (hbody : body.length ≤ opts.parseLimits.maxBody)
    (hheaders : (decimal body.length).length + 89 ≤ opts.parseLimits.maxHeadersTotal)
    (htotal : (makeRequest method path body).length ≤ opts.maxTotalRequestBytes)
    (hplain : ∀ handler req resp, call handler req = .ok resp → resp.Plain) :
    ∃ req wire, (Closing.handled reads).written opts routes call = some wire ∧
      req.method = method ∧ req.path = path.takeWhile (· ≠ 63) ∧
      req.query = (path.dropWhile (· ≠ 63)).drop 1 ∧ req.body = body ∧
      splitResponse wire = some (((respond routes call req).status : ℤ),
        (respond routes call req).body) := by
  obtain ⟨rfl, -⟩ := (tracked_of_run h).handled c reads hclosed
  exact exchange hmethod hpath hline hbody hheaders htotal hplain hcut

/-- **`Stop` ends**: once `stopping_` is set, the server takes a bounded number of steps until the
next start, and it always can take one, unless it has stopped or waits for a client. -/
theorem stop_ends (h : Run (PoolStep opts n) {} es s) (hflag : 2 ≤ progress s.stopper)
    {es' : List PoolEvent} {s' : Pool} (h' : Run (PoolStep opts n) s es' s')
    (hnew : .started ∉ es') :
    es'.length ≤ left opts s ∧
      (s'.stopper = .idle ∧ s'.running = false ∨ CanStep opts n s' ∨
        (∃ c reads, .serving c reads ∈ s'.workers) ∨ ∃ c, s'.acceptor = .rejecting c) := by
  have hstopping : s.Stopping := ⟨sound_of_run h, Or.inl hflag⟩
  have hquiet := h'.and_events fun e he ↦ (fun heq ↦ hnew (heq ▸ he) : e ≠ .started)
  have hbound := hquiet.length_add_le (I := Stopping) (left opts) hstopping
    fun _ _ _ hs hstep ↦ Stopping.step hstep.1 hs hstep.2
  have hstopping' : s'.Stopping :=
    hquiet.invariant hstopping fun _ _ _ hs hstep ↦ (Stopping.step hstep.1 hs hstep.2).1
  refine ⟨(Nat.le_add_right _ _).trans hbound, ?_⟩
  rcases hstopping'.stopping with hp | hstopped
  · refine Or.inr (canStep_of_stopping hstopping'.sound fun hidle ↦ ?_)
    simp [hidle, progress] at hp
  · exact Or.inl hstopped

end Runs

/-! ### A run -/

section Sample

open Pool

/-- A request for the health of the server. -/
def sampleRequest : Bytes := makeRequest (str "GET") (str "/_health?a=b") []

/-- A route to a handler. -/
def sampleRoutes : List (Route Unit) := [route "GET" "/_health" ()]

/-- A handler that responds with the query. -/
def sampleHandler (_ : Unit) (req : HttpRequest) : Except (Option Bytes) HttpResponse :=
  .ok { body := req.query }

/-- A server whose worker waits. -/
def sampleWaiting : Pool :=
  { running := true, listening := true, acceptor := .testing, workers := [.waiting] }

/-- The same server, about to wake up its worker for a connection. -/
def sampleNotifying : Pool :=
  { sampleWaiting with acceptor := .notifying, queue := [0], accepted := 1 }

/-- The same server, when the connection is closed. -/
def sampleClosed : Pool :=
  { sampleWaiting with
    workers := [.locking], accepted := 1, closed := [(0, .handled [sampleRequest])] }

/-- The same server, when it stops. -/
def sampleStopping : Pool :=
  { sampleClosed with running := false, stopping := true, stopper := .flagged }

/-- The server of `sampleWaiting` with two connections in its queue. -/
def sampleQueued : Pool :=
  { sampleWaiting with workers := [.locking], queue := [0, 1], accepted := 2 }

/-- The same server, when the first client hung up and the worker has the second one. -/
def sampleTaken : Pool :=
  { sampleQueued with workers := [.serving 1 []], queue := [], closed := [(0, .handled [])] }

/-- The server of `sampleStopping`, when it has stopped. -/
def sampleStopped : Pool :=
  { sampleStopping with listening := false, acceptor := .ended, workers := [], stopper := .idle }

theorem sampleWaiting_run :
    Run (PoolStep {} 1) {} [.started, .internal, .internal] sampleWaiting := by
  have hstart : Run (PoolStep {} 1) {} [.started] _ := .single (.started rfl rfl)
  have hfree : Free { sampleWaiting with workers := [.locking] } := by decide
  have hdozed := hstart.step (.dozed (show _ = [] ++ Worker.locking :: [] from rfl) hfree rfl rfl)
  exact hdozed.step (.waited (show _ = [] ++ Worker.dozing :: [] from rfl))

theorem sampleNotifying_run :
    Run (PoolStep {} 1) sampleWaiting [.internal, .arrived, .internal] sampleNotifying := by
  have hfree : sampleWaiting.Free := by decide
  have htested : Run (PoolStep {} 1) sampleWaiting [.internal] _ := .single (.tested rfl)
  exact (htested.step (.arrived rfl rfl)).step (.pushed rfl hfree (by decide))

theorem isCut_sampleRequest : IsCut sampleRequest [sampleRequest] where
  flatten_eq := List.append_nil _
  ne_nil := List.forall_mem_singleton.2 (by decide)
  length_le := List.forall_mem_singleton.2 (by decide)

theorem word_sampleRequest : Word (str "GET") ∧ Word (str "/_health?a=b") :=
  ⟨forall_mem_of_all (by decide), forall_mem_of_all (by decide)⟩

/-- The request of a client that is in one piece. -/
theorem receive_sampleRequest : ∃ req, receive {} [] [sampleRequest] = .request req := by
  obtain ⟨hmethod, hpath⟩ := word_sampleRequest
  have hline : (str "GET").length + 1 + (str "/_health?a=b").length + 9 ≤
      ({} : HttpServerOptions).parseLimits.maxRequestLine := by decide
  have hbody : ([] : Bytes).length ≤ ({} : HttpServerOptions).parseLimits.maxBody := by decide
  have hserialise := serialise_clientMessage hmethod hpath hline hbody
  have hlen := (clientMessage hmethod hpath hline hbody).length_serialise
  rw [hserialise] at hlen
  have hshort : (makeRequest (str "GET") (str "/_health?a=b") []).length ≤ 40961 := by
    rw [length_makeRequest]
    decide
  refine ⟨_, (clientMessage hmethod hpath hline hbody).receive_of_isCut ?_ ?_ ?_⟩
  · show _ ≤ 40961
    omega
  · rw [hserialise]
    decide
  · rw [hserialise]
    exact isCut_sampleRequest

theorem exists_answer_sampleRequest :
    ∃ outcome, answer {} ([sampleRequest] : List Bytes).flatten = some outcome := by
  obtain ⟨req, hreceive⟩ := receive_sampleRequest
  have hempty : answer {} [] = none := by decide
  rw [receive, hempty] at hreceive
  have hflatten : ([sampleRequest] : List Bytes).flatten = [] ++ sampleRequest := List.append_nil _
  rw [hflatten]
  cases hanswer : answer {} ([] ++ sampleRequest) with
  | some outcome => exact ⟨outcome, rfl⟩
  | none =>
    dsimp only at hreceive
    rw [receive, hanswer] at hreceive
    cases hreceive

theorem sampleClosed_run : Run (PoolStep {} 1) sampleNotifying
    [.internal, .taken 0, .received 0 sampleRequest, .responded 0] sampleClosed := by
  have hfree : Free { sampleNotifying with workers := [.locking] } := by decide
  have hempty : answer {} ([] : List Bytes).flatten = none := by decide
  have hcut := isCut_sampleRequest
  obtain ⟨outcome, hanswer⟩ := exists_answer_sampleRequest
  have hnotified : Run (PoolStep {} 1) sampleNotifying [.internal] _ :=
    .single (.notifiedOne rfl (show _ = [] ++ Worker.waiting :: [] from rfl))
  have htaken := hnotified.step
    (.taken (show _ = [] ++ Worker.locking :: [] from rfl) hfree (show _ = [0] from rfl))
  have hreceived := htaken.step (.received (show _ = [] ++ Worker.serving 0 [] :: [] from rfl)
    hempty (hcut.ne_nil _ List.mem_cons_self) (hcut.length_le _ List.mem_cons_self))
  exact hreceived.step
    (.responded (show _ = [] ++ Worker.serving 0 [sampleRequest] :: [] from rfl) hanswer)

theorem sampleStopping_run :
    Run (PoolStep {} 1) sampleClosed [.stopCalled, .internal] sampleStopping := by
  have hcalled : Run (PoolStep {} 1) sampleClosed [.stopCalled] _ := .single (.stopCalled rfl rfl)
  exact hcalled.step (.flagged rfl)

theorem sampleQueued_run : Run (PoolStep {} 1) sampleNotifying
    [.internal, .internal, .arrived, .internal, .internal] sampleQueued := by
  have hfree : Free { sampleNotifying with workers := [.locking] } := by decide
  have hnotified : Run (PoolStep {} 1) sampleNotifying [.internal] _ :=
    .single (.notifiedOne rfl (show _ = [] ++ Worker.waiting :: [] from rfl))
  have hpushed := ((hnotified.step (.tested rfl)).step (.arrived rfl rfl)).step
    (.pushed rfl hfree (by decide))
  exact hpushed.step (.notifiedNone rfl (by decide))

theorem sampleTaken_run :
    Run (PoolStep {} 1) sampleQueued [.taken 0, .hungUp 0, .taken 1] sampleTaken := by
  have hfree : sampleQueued.Free := by decide
  have hempty : answer {} ([] : List Bytes).flatten = none := by decide
  have htaken : Run (PoolStep {} 1) sampleQueued [.taken 0] _ :=
    .single (.taken (show _ = [] ++ Worker.locking :: [] from rfl) hfree (show _ = [0, 1] from rfl))
  have hhungUp := htaken.step (.hungUp (show _ = [] ++ Worker.serving 0 [] :: [] from rfl) hempty)
  exact hhungUp.step
    (.taken (show _ = [] ++ Worker.locking :: [] from rfl) hfree (show _ = [1] from rfl))

theorem sampleStopped_run :
    Run (PoolStep {} 1) sampleStopping (List.replicate 7 .internal) sampleStopped := by
  have hfree : sampleStopping.Free := by decide
  have hshut : Run (PoolStep {} 1) sampleStopping [.internal] _ := .single (.shut rfl)
  have hjoined := (hshut.step (.tested rfl)).step (.joined rfl rfl)
  have hnotified := (hjoined.step (.drained rfl hfree)).step (.notifiedAll rfl)
  have hleft := hnotified.step (.left (show _ = [] ++ Worker.locking :: [] from rfl) hfree rfl rfl)
  exact hleft.step (.stopped rfl (by decide))

/-- The steps up to the closing of the connection. -/
def sampleEvents : List PoolEvent :=
  [.started, .internal, .internal] ++ [.internal, .arrived, .internal] ++
    [.internal, .taken 0, .received 0 sampleRequest, .responded 0]

theorem sample_run : Run (PoolStep {} 1) {} sampleEvents sampleClosed :=
  (sampleWaiting_run.trans sampleNotifying_run).trans sampleClosed_run

theorem conserved_sample :
    sampleClosed.connections.Perm (List.range (sampleEvents.count .arrived)) ∧
      sampleClosed.queue.length ≤ kMaxQueueDepth ∧
      (sampleClosed.stopper = .idle → sampleClosed.running = false →
        (sampleClosed.closed.map Prod.fst).Perm (List.range (sampleEvents.count .arrived))) :=
  conserved sample_run

theorem awake_sample : sampleNotifying.queue.length ≤
    sampleNotifying.workers.count .locking +
      if sampleNotifying.acceptor = .notifying then 1 else 0 :=
  awake (sampleWaiting_run.trans sampleNotifying_run) List.mem_cons_self

theorem taken_in_order_sample :
    ∃ es, Run (PoolStep {} 1) {} es sampleTaken ∧ es.count .arrived = 2 ∧
      es.filterMap takenIn = [0, 1] ∧
        (es.filterMap takenIn ++ sampleTaken.queue).Pairwise (· < ·) := by
  have hrun := ((sampleWaiting_run.trans sampleNotifying_run).trans sampleQueued_run).trans
    sampleTaken_run
  exact ⟨_, hrun, rfl, rfl, taken_in_order hrun⟩

theorem client_answered_sample : ∃ req wire,
    (Closing.handled [sampleRequest]).written {} sampleRoutes sampleHandler = some wire ∧
      req.method = str "GET" ∧ req.path = (str "/_health?a=b").takeWhile (· ≠ 63) ∧
      req.query = ((str "/_health?a=b").dropWhile (· ≠ 63)).drop 1 ∧ req.body = [] ∧
      splitResponse wire = some (((respond sampleRoutes sampleHandler req).status : ℤ),
        (respond sampleRoutes sampleHandler req).body) := by
  refine client_answered sample_run List.mem_cons_self isCut_sampleRequest word_sampleRequest.1
    word_sampleRequest.2 (by decide) (by decide) (by decide) (by decide) ?_
  intro _ req resp h
  obtain rfl := Except.ok.inj h
  exact plain_of_empty rfl

theorem stop_ends_sample :
    Run (PoolStep {} 1) sampleStopping (List.replicate 7 .internal) sampleStopped ∧
      (List.replicate 7 PoolEvent.internal).length ≤ left {} sampleStopping ∧
      (sampleStopped.stopper = .idle ∧ sampleStopped.running = false ∨
        CanStep {} 1 sampleStopped ∨ (∃ c reads, .serving c reads ∈ sampleStopped.workers) ∨
          ∃ c, sampleStopped.acceptor = .rejecting c) :=
  ⟨sampleStopped_run,
    stop_ends (sample_run.trans sampleStopping_run) le_rfl sampleStopped_run (by decide)⟩

end Sample

end Spp.Http
