import Mathlib.Algebra.Order.Ring.Nat
import Mathlib.Order.Bounds.Basic
import SearchPlusPlus.Lib.Run

/-!
# Search slots

`SearchSlot`, run by any number of requests at once: each atomic operation of its constructor and
its destructor is one step, and a run is any interleaving of them. The semaphore bounds how many
requests are counted, and a request that has counted itself leaves the constructor only when the
peak has reached its count (`searches_capped`).
-/

namespace Spp.Server

/-- The objects that all slots share: the permits that `search_slots_` has left,
`in_flight_searches_` and `peak_in_flight_`. -/
structure SearchCounters where
  permits : ℕ
  inFlight : ℕ
  peak : ℕ

/-- Where a request is, and the locals `now` and `observed` of its constructor. A request that has
not been let in yet is `waiting`, whether or not it has called `acquire`. -/
inductive SlotPhase
  | waiting
  | acquired
  | counted (now : ℕ)
  | comparing (now observed : ℕ)
  | inside
  | leaving
  | finished

namespace SlotPhase

/-- The request has taken a permit and not given it back. -/
def holding : SlotPhase → Bool
  | waiting | finished => false
  | _ => true

/-- The request is counted in flight. -/
def flying : SlotPhase → Bool
  | counted _ | comparing _ _ | inside => true
  | _ => false

/-- The request is in the constructor, past `acquire`. -/
def constructing : SlotPhase → Bool
  | acquired | counted _ | comparing _ _ => true
  | _ => false

/-- The count with which the request may still raise the peak. -/
def now? : SlotPhase → Option ℕ
  | counted now | comparing now _ => some now
  | _ => none

/-- The locals of the constructor: the count is one of the values that were in flight, and what was
observed is a peak of the past. -/
def Sound (es : List ℕ) (peak : ℕ) : SlotPhase → Prop
  | counted now => now ∈ es
  | comparing now observed => now ∈ es ∧ observed ≤ peak
  | _ => True

theorem Sound.mono {es es' : List ℕ} {peak peak' : ℕ} {p : SlotPhase} (h : p.Sound es peak)
    (hes : es ⊆ es') (hpeak : peak ≤ peak') : p.Sound es' peak' := by
  cases p with
  | counted now => exact hes h
  | comparing now observed => exact ⟨hes h.1, h.2.trans hpeak⟩
  | _ => trivial

theorem Sound.now_mem {es : List ℕ} {peak n : ℕ} {p : SlotPhase} (h : p.Sound es peak)
    (hn : p.now? = some n) : n ∈ es := by
  cases p with
  | counted now =>
    obtain rfl : now = n := Option.some_inj.1 hn
    exact h
  | comparing now observed =>
    obtain rfl : now = n := Option.some_inj.1 hn
    exact h.1
  | _ => exact absurd hn (by simp [now?])

theorem now?_of_not_constructing {p : SlotPhase} (h : p.constructing = false) : p.now? = none := by
  cases p <;> first | rfl | exact absurd h (by simp [constructing])

end SlotPhase

/-- One atomic step of one request. Both counters are of `std::size_t`. -/
inductive SlotStep : SearchCounters → SlotPhase → SearchCounters → SlotPhase → Prop
  | acquire {k : SearchCounters} (h : 0 < k.permits) :
      SlotStep k .waiting { k with permits := k.permits - 1 } .acquired
  | fetchAdd {k : SearchCounters} :
      SlotStep k .acquired { k with inFlight := (k.inFlight + 1) % 2 ^ 64 }
        (.counted ((k.inFlight + 1) % 2 ^ 64))
  | load {k : SearchCounters} {now : ℕ} : SlotStep k (.counted now) k (.comparing now k.peak)
  | exchange {k : SearchCounters} {now observed : ℕ} (hlt : observed < now)
      (h : k.peak = observed) :
      SlotStep k (.comparing now observed) { k with peak := now } .inside
  -- it may fail spuriously, so nothing is asked of the peak it finds
  | exchangeFails {k : SearchCounters} {now observed : ℕ} (hlt : observed < now) :
      SlotStep k (.comparing now observed) k (.comparing now k.peak)
  | loopEnds {k : SearchCounters} {now observed : ℕ} (hle : now ≤ observed) :
      SlotStep k (.comparing now observed) k .inside
  | fetchSub {k : SearchCounters} :
      SlotStep k .inside { k with inFlight := (k.inFlight + (2 ^ 64 - 1)) % 2 ^ 64 } .leaving
  | release {k : SearchCounters} :
      SlotStep k .leaving { k with permits := k.permits + 1 } .finished

/-! ### What one step does -/

namespace SlotStep

variable {k k' : SearchCounters} {p p' : SlotPhase} {es : List ℕ}

theorem permits (h : SlotStep k p k' p') :
    k'.permits + p'.holding.toNat = k.permits + p.holding.toNat := by
  cases h with
  | acquire h => exact Nat.sub_add_cancel h
  | _ => rfl

/-- The count goes with the requests in flight, as long as it does not wrap. -/
theorem inFlight (h : SlotStep k p k' p') (hpos : p.flying.toNat ≤ k.inFlight)
    (hlt : k.inFlight + 1 < 2 ^ 64) :
    k'.inFlight + p.flying.toNat = k.inFlight + p'.flying.toNat := by
  cases h with
  | fetchAdd =>
    show (k.inFlight + 1) % 2 ^ 64 + 0 = k.inFlight + 1
    rw [Nat.mod_eq_of_lt hlt]
  | fetchSub =>
    have hone : 1 ≤ k.inFlight := hpos
    show (k.inFlight + (2 ^ 64 - 1)) % 2 ^ 64 + 1 = k.inFlight + 0
    omega
  | _ => rfl

theorem peak_le (h : SlotStep k p k' p') : k.peak ≤ k'.peak := by
  cases h with
  | exchange hlt h =>
    subst h
    exact hlt.le
  | _ => exact le_rfl

theorem peak_eq (h : SlotStep k p k' p') : k'.peak = k.peak ∨ p.now? = some k'.peak := by
  cases h with
  | exchange hlt h => exact Or.inr rfl
  | _ => exact Or.inl rfl

/-- A request that lets its count go has seen a peak that reaches it. -/
theorem now_kept (h : SlotStep k p k' p') (hp : p.Sound es k.peak) {n : ℕ}
    (hn : p.now? = some n) : p'.now? = some n ∨ n ≤ k'.peak := by
  cases h with
  | load => exact Or.inl hn
  | exchangeFails hlt => exact Or.inl hn
  | exchange hlt h =>
    obtain rfl := Option.some_inj.1 hn
    exact Or.inr le_rfl
  | loopEnds hle =>
    obtain rfl := Option.some_inj.1 hn
    exact Or.inr (hle.trans hp.2)
  | _ => exact absurd hn (by simp [SlotPhase.now?])

/-- A count goes up by a request that keeps it. -/
theorem inFlight_le (h : SlotStep k p k' p') (hpos : p.flying.toNat ≤ k.inFlight)
    (hlt : k.inFlight + 1 < 2 ^ 64) :
    k'.inFlight ≤ k.inFlight ∨ p'.now? = some k'.inFlight := by
  cases h with
  | fetchAdd => exact Or.inr rfl
  | fetchSub =>
    refine Or.inl ?_
    have hsub : (k.inFlight + (2 ^ 64 - 1)) % 2 ^ 64 + 1 = k.inFlight + 0 :=
      fetchSub.inFlight hpos hlt
    show (k.inFlight + (2 ^ 64 - 1)) % 2 ^ 64 ≤ k.inFlight
    omega
  | _ => exact Or.inl le_rfl

theorem sound (h : SlotStep k p k' p') (hp : p.Sound es k.peak) :
    p'.Sound (es ++ [k'.inFlight]) k'.peak := by
  cases h with
  | fetchAdd => exact List.mem_append_right _ (List.mem_singleton_self _)
  | load => exact ⟨List.mem_append_left _ hp, le_rfl⟩
  | exchangeFails hlt => exact ⟨List.mem_append_left _ hp.1, le_rfl⟩
  | _ => trivial

end SlotStep

/-! ### Runs -/

structure SearchSlots where
  counters : SearchCounters
  requests : List SlotPhase

/-- A step of one of the requests. The event is what is in flight after it. -/
inductive SearchStep : SearchSlots → ℕ → SearchSlots → Prop
  | request {k k' : SearchCounters} {p p' : SlotPhase} (as bs : List SlotPhase)
      (h : SlotStep k p k' p') :
      SearchStep ⟨k, as ++ p :: bs⟩ k'.inFlight ⟨k', as ++ p' :: bs⟩

/-- `n` requests that have not come yet, at a semaphore of `c` permits. -/
def SearchSlots.start (c n : ℕ) : SearchSlots where
  counters := { permits := c, inFlight := 0, peak := 0 }
  requests := List.replicate n .waiting

theorem countP_request (f : SlotPhase → Bool) (as bs : List SlotPhase) (p : SlotPhase) :
    (as ++ p :: bs).countP f = as.countP f + bs.countP f + (f p).toNat := by
  rw [List.countP_append, List.countP_cons]
  cases f p <;> simp [Nat.add_assoc]

/-- The counters and the requests, after a run in which `es` were in flight. -/
structure Accounted (c : ℕ) (es : List ℕ) (s : SearchSlots) : Prop where
  permits : s.counters.permits + s.requests.countP SlotPhase.holding = c
  inFlight : s.counters.inFlight = s.requests.countP SlotPhase.flying
  inFlight_mem : s.counters.inFlight ∈ 0 :: es
  le : ∀ v ∈ 0 :: es, v ≤ c
  sound : ∀ p ∈ s.requests, p.Sound es s.counters.peak
  peak_mem : s.counters.peak ∈ 0 :: es
  -- a value that the peak has not reached is waited for by a request in the constructor
  reached : ∀ v ∈ 0 :: es, v ≤ s.counters.peak ∨
    ∃ p ∈ s.requests, ∃ n, p.now? = some n ∧ v ≤ n

theorem Accounted.start (c n : ℕ) : Accounted c [] (SearchSlots.start c n) where
  permits := by
    show c + (List.replicate n SlotPhase.waiting).countP SlotPhase.holding = c
    rw [List.countP_replicate]
    rfl
  inFlight := by
    show 0 = (List.replicate n SlotPhase.waiting).countP SlotPhase.flying
    rw [List.countP_replicate]
    rfl
  inFlight_mem := List.mem_singleton_self 0
  le v hv := by
    rw [List.mem_singleton.1 hv]
    exact Nat.zero_le c
  sound p hp := by
    rw [List.eq_of_mem_replicate hp]
    trivial
  peak_mem := List.mem_singleton_self 0
  reached v hv := Or.inl (List.mem_singleton.1 hv).le

theorem flying_le_holding (ps : List SlotPhase) :
    ps.countP SlotPhase.flying ≤ ps.countP SlotPhase.holding :=
  List.countP_mono_left fun p _ h ↦ by cases p <;> first | rfl | exact h

theorem Accounted.step {c : ℕ} (hc : c < 2 ^ 63) {es : List ℕ} {s s' : SearchSlots} {e : ℕ}
    (hs : Accounted c es s) (h : SearchStep s e s') : Accounted c (es ++ [e]) s' := by
  cases h with
  | @request k k' p p' as bs h =>
  have hpermits : k.permits + (as.countP SlotPhase.holding + bs.countP SlotPhase.holding +
      p.holding.toNat) = c := by rw [← countP_request]; exact hs.permits
  have hinFlight : k.inFlight = as.countP SlotPhase.flying + bs.countP SlotPhase.flying +
      p.flying.toNat := by rw [← countP_request]; exact hs.inFlight
  have hkc : k.inFlight ≤ c := hs.le _ hs.inFlight_mem
  have hstep := h.permits
  have hcount := h.inFlight (by omega) (by omega)
  have hpermits' : k'.permits + (as ++ p' :: bs).countP SlotPhase.holding = c := by
    rw [countP_request]
    omega
  have hinFlight' : k'.inFlight = (as ++ p' :: bs).countP SlotPhase.flying := by
    rw [countP_request]
    omega
  have hp : p.Sound es k.peak := hs.sound p (List.mem_append_right _ List.mem_cons_self)
  have hold : ∀ {v}, v ∈ 0 :: es → v ∈ 0 :: (es ++ [k'.inFlight]) := fun hv ↦
    List.mem_append_left _ hv
  -- a request that waits for a value: it is the one that steps, or it stays as it is
  have hwaits : ∀ v, (v ≤ k.peak ∨ ∃ q ∈ as ++ p :: bs, ∃ n, q.now? = some n ∧ v ≤ n) →
      v ≤ k'.peak ∨ ∃ q ∈ as ++ p' :: bs, ∃ n, q.now? = some n ∧ v ≤ n := by
    intro v hv
    obtain hv | ⟨q, hq, n, hn, hv⟩ := hv
    · exact Or.inl (hv.trans h.peak_le)
    · rw [List.mem_append, List.mem_cons] at hq
      obtain hq | rfl | hq := hq
      · exact Or.inr ⟨q, List.mem_append_left _ hq, n, hn, hv⟩
      · obtain hn' | hn' := h.now_kept hp hn
        · exact Or.inr ⟨p', List.mem_append_right _ List.mem_cons_self, n, hn', hv⟩
        · exact Or.inl (hv.trans hn')
      · exact Or.inr ⟨q, List.mem_append_right _ (List.mem_cons_of_mem _ hq), n, hn, hv⟩
  refine ⟨hpermits', hinFlight', ?_, ?_, ?_, ?_, ?_⟩
  · show k'.inFlight ∈ (0 :: es) ++ [k'.inFlight]
    exact List.mem_append_right _ (List.mem_singleton_self _)
  · intro v hv
    obtain hv | hv := List.mem_append.1 (show v ∈ (0 :: es) ++ [k'.inFlight] from hv)
    · exact hs.le v hv
    · rw [List.mem_singleton.1 hv, hinFlight']
      have := flying_le_holding (as ++ p' :: bs)
      omega
  · intro q hq
    rw [List.mem_append, List.mem_cons] at hq
    have hsub : es ⊆ es ++ [k'.inFlight] := List.subset_append_left _ _
    obtain hq | rfl | hq := hq
    · exact (hs.sound q (List.mem_append_left _ hq)).mono hsub h.peak_le
    · exact h.sound hp
    · exact (hs.sound q (List.mem_append_right _ (List.mem_cons_of_mem _ hq))).mono hsub h.peak_le
  · obtain hpeak | hpeak := h.peak_eq
    · show k'.peak ∈ _
      rw [hpeak]
      exact hold hs.peak_mem
    · exact hold (List.mem_cons_of_mem _ (hp.now_mem hpeak))
  · intro v hv
    obtain hv | hv := List.mem_append.1 (show v ∈ (0 :: es) ++ [k'.inFlight] from hv)
    · exact hwaits v (hs.reached v hv)
    · rw [List.mem_singleton.1 hv]
      obtain hle | hnow := h.inFlight_le (by omega) (by omega)
      · obtain hk | ⟨q, hq, n, hn, hk⟩ := hwaits _ (hs.reached _ hs.inFlight_mem)
        · exact Or.inl (hle.trans hk)
        · exact Or.inr ⟨q, hq, n, hn, hle.trans hk⟩
      · exact Or.inr ⟨p', List.mem_append_right _ List.mem_cons_self, _, hnow, le_rfl⟩

theorem SearchStep.peak_le {s s' : SearchSlots} {e : ℕ} (h : SearchStep s e s') :
    s.counters.peak ≤ s'.counters.peak := by
  cases h with
  | request as bs h => exact h.peak_le

/-- **Search concurrency cap**: what is in flight and its peak stay within the permits that the
semaphore starts with, the peak never goes down, and when no request is in the constructor it is
the greatest value there was in flight. The counter of a semaphore is a `std::ptrdiff_t`. -/
theorem searches_capped {c n : ℕ} (hc : c < 2 ^ 63) {es : List ℕ} {s : SearchSlots}
    (h : Run SearchStep (SearchSlots.start c n) es s) :
    s.counters.inFlight ≤ c ∧ s.counters.peak ≤ c ∧
      (∀ es' s', Run SearchStep s es' s' → s.counters.peak ≤ s'.counters.peak) ∧
      ((∀ p ∈ s.requests, p.constructing = false) →
        IsGreatest {v | v ∈ 0 :: es} s.counters.peak) := by
  have hs : Accounted c es s :=
    h.invariant_events (Accounted.start c n) fun _ _ _ _ hs hstep ↦ hs.step hc hstep
  refine ⟨hs.le _ hs.inFlight_mem, hs.le _ hs.peak_mem, ?_, ?_⟩
  · intro es' s' h'
    exact h'.invariant (I := fun t ↦ s.counters.peak ≤ t.counters.peak) le_rfl
      fun _ _ _ ht hstep ↦ ht.trans hstep.peak_le
  · intro hnone
    refine ⟨hs.peak_mem, fun v hv ↦ ?_⟩
    obtain hle | ⟨p, hp, n, hn, -⟩ := hs.reached v hv
    · exact hle
    · rw [SlotPhase.now?_of_not_constructing (hnone p hp)] at hn
      exact absurd hn (by simp)

/-- Two requests at one permit, when the first is gone and the second is inside. -/
def sampleSlots : SearchSlots where
  counters := { permits := 0, inFlight := 1, peak := 1 }
  requests := [.finished, .inside]

/-- What is in flight on the way there. -/
def sampleFlights : List ℕ := [0, 1, 1, 1] ++ [0, 0] ++ [0, 1, 1, 1]

theorem sampleSlots_run : Run SearchStep (SearchSlots.start 1 2) sampleFlights sampleSlots := by
  have hpos : 0 < 1 := Nat.one_pos
  have hfirst : Run SearchStep (SearchSlots.start 1 2) [0, 1, 1, 1]
      ⟨{ permits := 0, inFlight := 1, peak := 1 }, [.inside, .waiting]⟩ :=
    (((Run.single (SearchStep.request [] [.waiting] (.acquire hpos))).step
      (.request [] [.waiting] .fetchAdd)).step (.request [] [.waiting] .load)).step
        (.request [] [.waiting] (.exchange hpos rfl))
  have hleft : Run SearchStep ⟨{ permits := 0, inFlight := 1, peak := 1 }, [.inside, .waiting]⟩
      [0, 0] ⟨{ permits := 1, inFlight := 0, peak := 1 }, [.finished, .waiting]⟩ :=
    (Run.single (SearchStep.request [] [.waiting] .fetchSub)).step (.request [] [.waiting] .release)
  -- The peak has been reached already, so the second request leaves the loop at once.
  have hsecond : Run SearchStep ⟨{ permits := 1, inFlight := 0, peak := 1 }, [.finished, .waiting]⟩
      [0, 1, 1, 1] sampleSlots :=
    (((Run.single (SearchStep.request [.finished] [] (.acquire hpos))).step
      (.request [.finished] [] .fetchAdd)).step (.request [.finished] [] .load)).step
        (.request [.finished] [] (.loopEnds le_rfl))
  exact (hfirst.trans hleft).trans hsecond

theorem searches_capped_sample :
    Run SearchStep (SearchSlots.start 1 2) sampleFlights sampleSlots ∧
      sampleSlots.counters.inFlight ≤ 1 ∧ sampleSlots.counters.peak ≤ 1 ∧
      (∀ es' s', Run SearchStep sampleSlots es' s' →
        sampleSlots.counters.peak ≤ s'.counters.peak) ∧
      IsGreatest {v | v ∈ 0 :: sampleFlights} sampleSlots.counters.peak := by
  obtain ⟨hflight, hpeak, hgrows, hgreatest⟩ := searches_capped (by decide) sampleSlots_run
  exact ⟨sampleSlots_run, hflight, hpeak, hgrows, hgreatest (by decide)⟩

end Spp.Server
