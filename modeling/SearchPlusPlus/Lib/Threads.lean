import Mathlib.Data.Nat.Basic
import Mathlib.Logic.Function.Basic
import Mathlib.Tactic.Set
import Mathlib.Tactic.SplitIfs
import SearchPlusPlus.Lib.Program
import SearchPlusPlus.Lib.Run

/-!
# Threads over a world

Requests are served by threads, one for each, that run programs over one world. Their calls
interleave in any order, each of them atomic. A crash ends all threads; it may come in the middle of
a call, and the world loses what does not survive it.

A run is a history of the calls. Those of one thread lead through its program (`Prog.Follows`), from
the request to the answer it ends with (`follows_of_answered`): what is known of the paths of a
program is so known of the history between a request and its answer, whatever the other threads do
in between.

What holds of every call that a program may make (`Prog.Calls`) holds of those in its history. Where
the calls of a path return, a thread that is left alone goes through it (`Returning.answered`).

Nothing here depends on the calls, the programs or the world.
-/

namespace Prog

variable {Op : Type} {Res : Op → Type} {α β : Type}

/-- What is left of a program when some calls have been made and answered. -/
inductive Follows : Prog Op Res α → List (Sigma Res) → Prog Op Res α → Prop
  | refl (p : Prog Op Res α) : Follows p [] p
  | call {op : Op} {f : Res op → Prog Op Res α} {r : Res op} {l : List (Sigma Res)}
      {p : Prog Op Res α} (h : Follows (f r) l p) : Follows (.call op f) (⟨op, r⟩ :: l) p

theorem Follows.append_call {p : Prog Op Res α} {l : List (Sigma Res)} {op : Op}
    {f : Res op → Prog Op Res α} (h : p.Follows l (.call op f)) (r : Res op) :
    p.Follows (l ++ [⟨op, r⟩]) (f r) := by
  generalize hq : Prog.call op f = q at h
  induction h with
  | refl p =>
    subst hq
    exact .call (.refl _)
  | call _ ih => exact .call (ih hq)

theorem follows_ret {a b : α} {l : List (Sigma Res)} :
    (ret a : Prog Op Res α).Follows l (.ret b) ↔ l = [] ∧ a = b := by
  constructor
  · intro h
    cases h
    exact ⟨rfl, rfl⟩
  · rintro ⟨rfl, rfl⟩
    exact .refl _

theorem follows_call {op : Op} {f : Res op → Prog Op Res α} {b : α} {l : List (Sigma Res)} :
    (call op f).Follows l (.ret b) ↔ ∃ r l', l = ⟨op, r⟩ :: l' ∧ (f r).Follows l' (.ret b) := by
  constructor
  · intro h
    cases h with
    | call h => exact ⟨_, _, rfl, h⟩
  · rintro ⟨r, l', rfl, h⟩
    exact .call h

/-- A path through a sequence is one through its first part and one through its second. -/
theorem follows_bind {p : Prog Op Res α} {f : α → Prog Op Res β} {b : β} {l : List (Sigma Res)} :
    (p.bind f).Follows l (.ret b) ↔
      ∃ a l₁ l₂, l = l₁ ++ l₂ ∧ p.Follows l₁ (.ret a) ∧ (f a).Follows l₂ (.ret b) := by
  induction p generalizing l with
  | ret a =>
    constructor
    · exact fun h ↦ ⟨a, [], l, rfl, .refl _, h⟩
    · rintro ⟨a', l₁, l₂, rfl, h, h'⟩
      obtain ⟨rfl, rfl⟩ := follows_ret.1 h
      exact h'
  | call op k ih =>
    constructor
    · intro h
      obtain ⟨r, l', rfl, hrest⟩ := follows_call.1 h
      obtain ⟨a, l₁, l₂, rfl, ha, hb⟩ := (ih r).1 hrest
      exact ⟨a, ⟨op, r⟩ :: l₁, l₂, rfl, .call ha, hb⟩
    · rintro ⟨a, l₁, l₂, rfl, ha, hb⟩
      obtain ⟨r, l', rfl, hrest⟩ := follows_call.1 ha
      exact .call ((ih r).2 ⟨a, l', l₂, rfl, hrest, hb⟩)

/-- This holds of every call that a program may make. -/
def Calls (P : Op → Prop) : Prog Op Res α → Prop
  | ret _ => True
  | call op f => P op ∧ ∀ r, Calls P (f r)

variable {P : Op → Prop}

theorem Calls.bind {p : Prog Op Res α} {f : α → Prog Op Res β} (h : p.Calls P)
    (hf : ∀ a, (f a).Calls P) : (p.bind f).Calls P := by
  induction p with
  | ret a => exact hf a
  | call op k ih => exact ⟨h.1, fun r ↦ ih r (h.2 r)⟩

/-- On the way through a program, the next call is the next of the path. -/
theorem Follows.next {p q : Prog Op Res α} {op : Op} {r : Res op} {l : List (Sigma Res)}
    (h : p.Follows (⟨op, r⟩ :: l) q) : ∃ f, p = .call op f ∧ (f r).Follows l q := by
  cases h with
  | call h => exact ⟨_, rfl, h⟩

end Prog

namespace Method

variable {Op : Type} {Res : Op → Type} {ε σ α β : Type} {s : σ} {l : List (Sigma Res)}
  {b : Except ε β × σ}

theorem follows_perform_bind {op : Op} {f : Res op → Method Op Res ε σ β} :
    Prog.Follows ((perform op >>= f) s) l (.ret b) ↔
      ∃ r l', l = ⟨op, r⟩ :: l' ∧ (f r s).Follows l' (.ret b) :=
  Prog.follows_call

theorem follows_done_bind {r : Except ε α} {f : α → Method Op Res ε σ β} :
    Prog.Follows ((done r >>= f) s) l (.ret b) ↔
      (∃ a, r = .ok a ∧ (f a s).Follows l (.ret b)) ∨
        ∃ e, r = .error e ∧ l = [] ∧ (.error e, s) = b := by
  cases r with
  | error e => exact Prog.follows_ret.trans (by simp)
  | ok a =>
    have hsame : (done (.ok a) >>= f : Method Op Res ε σ β) s = f a s := rfl
    rw [hsame]
    simp

theorem follows_pure {a : β} :
    Prog.Follows ((pure a : Method Op Res ε σ β) s) l (.ret b) ↔ l = [] ∧ (.ok a, s) = b :=
  Prog.follows_ret

theorem follows_fail {e : ε} :
    Prog.Follows ((fail e : Method Op Res ε σ β) s) l (.ret b) ↔ l = [] ∧ (.error e, s) = b :=
  Prog.follows_ret

variable {P : Op → Prop}

theorem calls_bind {m : Method Op Res ε σ α} {f : α → Method Op Res ε σ β}
    (h : (m s).Calls P) (hf : ∀ a s', (f a s').Calls P) : ((m >>= f) s).Calls P := by
  refine Prog.Calls.bind h ?_
  rintro ⟨r, s'⟩
  cases r with
  | error e => trivial
  | ok a => exact hf a s'

theorem calls_perform_bind {op : Op} {f : Res op → Method Op Res ε σ β} (h : P op)
    (hf : ∀ r, (f r s).Calls P) : ((perform op >>= f) s).Calls P :=
  ⟨h, hf⟩

theorem calls_done_bind {r : Except ε α} {f : α → Method Op Res ε σ β}
    (hf : ∀ a, r = .ok a → (f a s).Calls P) : ((done r >>= f) s).Calls P := by
  cases r with
  | error e => trivial
  | ok a => exact hf a rfl

end Method

/-! ### Threads -/

/-- What happens, to threads that serve requests `Q` with answers `α`. -/
inductive ThreadEvent (Q Op : Type) (Res : Op → Type) (α : Type) : Type where
  | started (k : ℕ) (q : Q)
  | called (k : ℕ) (op : Op) (r : Res op)
  | ended (k : ℕ) (a : α)
  /-- A crash, and the call it comes in the middle of, if any. -/
  | crashed (cut : Option Op)

/-- A world, and what is left of the program of each thread that runs. Threads are numbered as they
start. -/
structure Threads (Op : Type) (Res : Op → Type) (α W : Type) where
  world : W
  running : ℕ → Option (Prog Op Res α)
  count : ℕ

/-- The steps: a thread starts, makes the next call of its program, or ends; or there is a crash,
which leaves of a world what is not `lost`. -/
inductive ThreadStep {Q Op : Type} {Res : Op → Type} {α W : Type} (M : World Op Res W)
    (lost : W → W) (program : Q → Prog Op Res α) :
    Threads Op Res α W → ThreadEvent Q Op Res α → Threads Op Res α W → Prop
  | started {s : Threads Op Res α W} (q : Q) :
      ThreadStep M lost program s (.started s.count q)
        { s with running := Function.update s.running s.count (some (program q))
                 count := s.count + 1 }
  | called {s : Threads Op Res α W} {k : ℕ} {op : Op} {f : Res op → Prog Op Res α} {r : Res op}
      {w : W} (h : s.running k = some (.call op f)) (hret : M.returns op s.world r w) :
      ThreadStep M lost program s (.called k op r)
        { s with world := w, running := Function.update s.running k (some (f r)) }
  | ended {s : Threads Op Res α W} {k : ℕ} {a : α} (h : s.running k = some (.ret a)) :
      ThreadStep M lost program s (.ended k a)
        { s with running := Function.update s.running k none }
  | crashed {s : Threads Op Res α W} :
      ThreadStep M lost program s (.crashed none)
        { s with world := lost s.world, running := fun _ ↦ none }
  | cutOff {s : Threads Op Res α W} {k : ℕ} {op : Op} {f : Res op → Prog Op Res α} {w : W}
      (h : s.running k = some (.call op f)) (hstop : M.stops op s.world w) :
      ThreadStep M lost program s (.crashed (some op))
        { s with world := lost w, running := fun _ ↦ none }

section Histories

variable {Q Op : Type} {Res : Op → Type} {α W : Type}

/-- The call of a thread that an event is, if it is one. -/
def ThreadEvent.callOf (k : ℕ) : ThreadEvent Q Op Res α → Option (Sigma Res)
  | .called k' op r => if k' = k then some ⟨op, r⟩ else none
  | _ => none

/-- The calls of a thread. -/
def callsOf (k : ℕ) (es : List (ThreadEvent Q Op Res α)) : List (Sigma Res) :=
  es.filterMap (ThreadEvent.callOf k)

/-- The request of a thread and its answer are both in a part of the history. -/
structure Answered (es : List (ThreadEvent Q Op Res α)) (k : ℕ) (q : Q) (a : α) : Prop where
  started : .started k q ∈ es
  ended : .ended k a ∈ es

theorem callsOf_append (k : ℕ) (es es' : List (ThreadEvent Q Op Res α)) :
    callsOf k (es ++ es') = callsOf k es ++ callsOf k es' := List.filterMap_append

theorem mem_callsOf {k : ℕ} {es : List (ThreadEvent Q Op Res α)} {op : Op} {r : Res op} :
    ⟨op, r⟩ ∈ callsOf k es ↔ .called k op r ∈ es := by
  rw [callsOf, List.mem_filterMap]
  constructor
  · rintro ⟨e, he, hcall⟩
    cases e with
    | called k' op' r' =>
      rw [ThreadEvent.callOf] at hcall
      split_ifs at hcall with hk
      subst hk
      cases hcall
      exact he
    | started | ended | crashed => cases hcall
  · exact fun h ↦ ⟨_, h, if_pos rfl⟩

variable {M : World Op Res W} {lost : W → W} {program : Q → Prog Op Res α}
  {s s' s₀ : Threads Op Res α W} {e : ThreadEvent Q Op Res α}
  {es es' : List (ThreadEvent Q Op Res α)} {k : ℕ} {q : Q} {a : α}

/-- **What the history of threads is**: a thread that was not started has none, one that runs is
somewhere in the program of its request, and one that has ended is through. -/
structure Traced (program : Q → Prog Op Res α) (es : List (ThreadEvent Q Op Res α))
    (s : Threads Op Res α W) : Prop where
  new : ∀ k, s.count ≤ k → s.running k = none ∧ callsOf k es = [] ∧
    (∀ q, .started k q ∉ es) ∧ ∀ a, .ended k a ∉ es
  unique : ∀ k q q', .started k q ∈ es → .started k q' ∈ es → q = q'
  running : ∀ k p, s.running k = some p → (∀ a, .ended k a ∉ es) ∧
    ∃ q, .started k q ∈ es ∧ (program q).Follows (callsOf k es) p
  ended : ∀ k a, .ended k a ∈ es →
    ∃ q, .started k q ∈ es ∧ (program q).Follows (callsOf k es) (.ret a)

theorem traced_start (h : ∀ k, s.running k = none) : Traced program [] s where
  new k _ := ⟨h k, rfl, by simp, by simp⟩
  unique := by simp
  running k p hp := by cases (h k).symm.trans hp
  ended := by simp

/-- An event that is no call of a thread. -/
theorem callsOf_append_of_none (h : e.callOf k = none) : callsOf k (es ++ [e]) = callsOf k es := by
  rw [callsOf_append, callsOf, callsOf, List.filterMap_cons_none h, List.filterMap_nil,
    List.append_nil]

/-- What a step leaves alone that starts no thread. -/
theorem Traced.new_of_running (h : Traced program es s) {s' : Threads Op Res α W}
    (hrunning : ∀ k, s.running k = none → s'.running k = none) (hcount : s'.count = s.count)
    (hcalls : ∀ k, s.running k = none → callsOf k (es ++ [e]) = callsOf k es)
    (hstarted : ∀ k q, e ≠ .started k q) (hended : ∀ k a, e = .ended k a → s.running k ≠ none) :
    ∀ k, s'.count ≤ k → s'.running k = none ∧ callsOf k (es ++ [e]) = [] ∧
      (∀ q, .started k q ∉ es ++ [e]) ∧ ∀ a, .ended k a ∉ es ++ [e] := by
  intro k hk
  obtain ⟨hnone, hcalls', hstarted', hended'⟩ := h.new k (hcount ▸ hk)
  refine ⟨hrunning k hnone, (hcalls k hnone).trans hcalls', fun q hq ↦ ?_, fun a ha ↦ ?_⟩
  · rcases List.mem_append.1 hq with hq | hq
    · exact hstarted' q hq
    · exact hstarted k q (List.mem_singleton.1 hq).symm
  · rcases List.mem_append.1 ha with ha | ha
    · exact hended' a ha
    · exact hended k a (List.mem_singleton.1 ha).symm hnone

/-- **Every step goes on with the history.** -/
theorem ThreadStep.traced (hstep : ThreadStep M lost program s e s') (h : Traced program es s) :
    Traced program (es ++ [e]) s' := by
  cases hstep with
  | started q =>
    obtain ⟨-, hcalls, hstarted, hended⟩ := h.new s.count (Nat.le_refl _)
    have hsame : ∀ k, callsOf k (es ++ [.started s.count q]) = callsOf k es :=
      fun k ↦ callsOf_append_of_none rfl
    refine ⟨fun k hk ↦ ?_, fun k q₁ q₂ h₁ h₂ ↦ ?_, fun k p hp ↦ ?_, fun k a ha ↦ ?_⟩
    · have hlt : s.count < k := hk
      obtain ⟨hnone, hcalls, hstarted, hended⟩ := h.new k (Nat.le_of_lt hlt)
      refine ⟨(Function.update_of_ne (Nat.ne_of_gt hlt) _ _).trans hnone,
        (hsame k).trans hcalls, ?_, by simpa using hended⟩
      have hne := Nat.ne_of_gt hlt
      simpa [hne] using hstarted
    · have hsplit : ∀ {q'}, .started k q' ∈ es ++ [.started s.count q] →
          .started k q' ∈ es ∨ k = s.count ∧ q' = q := by simp
      rcases hsplit h₁ with hold₁ | ⟨rfl, rfl⟩
      · rcases hsplit h₂ with hold₂ | ⟨rfl, rfl⟩
        · exact h.unique k q₁ q₂ hold₁ hold₂
        · exact absurd hold₁ (hstarted q₁)
      · rcases hsplit h₂ with hold₂ | ⟨-, rfl⟩
        · exact absurd hold₂ (hstarted q₂)
        · rfl
    · rw [hsame]
      by_cases hk : k = s.count
      · subst hk
        obtain rfl : program q = p := by simpa using hp
        exact ⟨by simpa using hended, q, by simp, by rw [hcalls]; exact .refl _⟩
      · obtain ⟨hlive, q', hq', hfollows⟩ :=
          h.running k p ((Function.update_of_ne hk _ _).symm.trans hp)
        exact ⟨by simpa using hlive, q', List.mem_append_left _ hq', hfollows⟩
    · obtain ⟨q', hq', hfollows⟩ := h.ended k a (by simpa using ha)
      exact ⟨q', List.mem_append_left _ hq', by rwa [hsame]⟩
  | @called k op f r w hk hret =>
    obtain ⟨hlive, q, hq, hfollows⟩ := h.running k _ hk
    have hself : callsOf k (es ++ [.called k op r]) = callsOf k es ++ [⟨op, r⟩] := by
      rw [callsOf_append]
      congr 1
      exact List.filterMap_cons_some (if_pos rfl)
    have hother : ∀ k', k' ≠ k → callsOf k' (es ++ [.called k op r]) = callsOf k' es :=
      fun k' hk' ↦ callsOf_append_of_none (if_neg hk'.symm)
    have hne : ∀ {k'}, s.running k' = none → k' ≠ k := by
      rintro k' hnone rfl
      cases hnone.symm.trans hk
    refine ⟨h.new_of_running (fun k' hnone ↦ (Function.update_of_ne (hne hnone) _ _).trans hnone)
      rfl (fun k' hnone ↦ hother k' (hne hnone)) (by simp) (by simp), fun k' q₁ q₂ h₁ h₂ ↦ ?_,
      fun k' p hp ↦ ?_, fun k' a ha ↦ ?_⟩
    · exact h.unique k' q₁ q₂ (by simpa using h₁) (by simpa using h₂)
    · by_cases hk' : k' = k
      · subst hk'
        obtain rfl : f r = p := by simpa using hp
        exact ⟨by simpa using hlive, q, List.mem_append_left _ hq,
          hself ▸ hfollows.append_call r⟩
      · obtain ⟨hlive', q', hq', hfollows'⟩ :=
          h.running k' p ((Function.update_of_ne hk' _ _).symm.trans hp)
        exact ⟨by simpa using hlive', q', List.mem_append_left _ hq', by rwa [hother k' hk']⟩
    · have hold : .ended k' a ∈ es := by simpa using ha
      obtain ⟨q', hq', hfollows'⟩ := h.ended k' a hold
      refine ⟨q', List.mem_append_left _ hq', ?_⟩
      rwa [hother k' (by rintro rfl; exact hlive a hold)]
  | @ended k a hk =>
    obtain ⟨hlive, q, hq, hfollows⟩ := h.running k _ hk
    have hsame : ∀ k', callsOf k' (es ++ [.ended k a]) = callsOf k' es :=
      fun k' ↦ callsOf_append_of_none rfl
    refine ⟨h.new_of_running (fun k' hnone ↦ ?_) rfl (fun k' _ ↦ hsame k') (by simp) ?_,
      fun k' q₁ q₂ h₁ h₂ ↦ ?_, fun k' p hp ↦ ?_, fun k' a' ha ↦ ?_⟩
    · by_cases hk' : k' = k
      · subst hk'
        exact Function.update_self ..
      · exact (Function.update_of_ne hk' _ _).trans hnone
    · rintro k' a' he hnone
      cases he
      cases hnone.symm.trans hk
    · exact h.unique k' q₁ q₂ (by simpa using h₁) (by simpa using h₂)
    · have hk' : k' ≠ k := by
        rintro rfl
        cases (Function.update_self ..).symm.trans hp
      obtain ⟨hlive', q', hq', hfollows'⟩ :=
        h.running k' p ((Function.update_of_ne hk' _ _).symm.trans hp)
      exact ⟨by simpa [hk'] using hlive', q', List.mem_append_left _ hq', by rwa [hsame]⟩
    · rw [hsame]
      have hsplit : .ended k' a' ∈ es ∨ k' = k ∧ a' = a := by simpa using ha
      rcases hsplit with hold | ⟨rfl, rfl⟩
      · obtain ⟨q', hq', hfollows'⟩ := h.ended k' a' hold
        exact ⟨q', List.mem_append_left _ hq', hfollows'⟩
      · exact ⟨q, List.mem_append_left _ hq, hfollows⟩
  | crashed | cutOff =>
    have hsame : ∀ k' cut, callsOf k' (es ++ [.crashed cut]) = callsOf k' es :=
      fun k' cut ↦ callsOf_append_of_none rfl
    refine ⟨h.new_of_running (fun _ _ ↦ rfl) rfl (fun k' _ ↦ hsame k' _) (by simp) (by simp),
      fun k' q₁ q₂ h₁ h₂ ↦ ?_, (by rintro _ _ ⟨⟩), fun k' a ha ↦ ?_⟩
    · exact h.unique k' q₁ q₂ (by simpa using h₁) (by simpa using h₂)
    · obtain ⟨q', hq', hfollows'⟩ := h.ended k' a (by simpa using ha)
      exact ⟨q', List.mem_append_left _ hq', by rwa [hsame]⟩

theorem Run.traced (h : Run (ThreadStep M lost program) s₀ es s)
    (hstart : ∀ k, s₀.running k = none) : Traced program es s :=
  h.invariant_events (I := fun es s ↦ Traced program es s) (traced_start hstart)
    fun _ _ _ _ htraced hstep ↦ hstep.traced htraced

/-- A thread that starts in a part of a run was not there before. -/
theorem Run.count_le_of_started (h : Run (ThreadStep M lost program) s es s')
    (hq : .started k q ∈ es) : s.count ≤ k := by
  suffices hboth : s.count ≤ s'.count ∧ ∀ k q, .started k q ∈ es → s.count ≤ k from hboth.2 k q hq
  refine h.invariant_events
    (I := fun es s' ↦ s.count ≤ s'.count ∧ ∀ k q, .started k q ∈ es → s.count ≤ k)
    ⟨Nat.le_refl _, by simp⟩ ?_
  rintro es s₁ e s₂ ⟨hle, hall⟩ hstep
  cases hstep with
  | started q' =>
    refine ⟨Nat.le_succ_of_le hle, fun k q hq ↦ ?_⟩
    have hsplit : .started k q ∈ es ∨ k = s₁.count ∧ q = q' := by simpa using hq
    rcases hsplit with hold | ⟨rfl, -⟩
    · exact hall k q hold
    · exact hle
  | called | ended | crashed | cutOff => exact ⟨hle, by simpa using hall⟩

/-- **Between its request and its answer** a thread goes through the program of its request, and
makes no calls before or after. -/
theorem follows_of_answered (h : Run (ThreadStep M lost program) s₀ es s)
    (hstart : ∀ k, s₀.running k = none) (h' : Run (ThreadStep M lost program) s es' s')
    (ha : Answered es' k q a) : (program q).Follows (callsOf k es') (.ret a) := by
  have hwhole := (h.trans h').traced hstart
  obtain ⟨q', hq', hfollows⟩ := hwhole.ended k a (List.mem_append_right _ ha.ended)
  obtain rfl := hwhole.unique k q q' (List.mem_append_right _ ha.started) hq'
  have hbefore := ((h.traced hstart).new k (h'.count_le_of_started ha.started)).2.1
  rwa [callsOf_append, hbefore, List.nil_append] at hfollows

variable {P : Op → Prop}

/-- This holds of every call that a thread may still make. -/
def Threads.Calls (P : Op → Prop) (s : Threads Op Res α W) : Prop :=
  ∀ k p, s.running k = some p → p.Calls P

/-- What holds of the calls of all programs holds of those that threads may still make. -/
theorem ThreadStep.calls (hstep : ThreadStep M lost program s e s')
    (hprogram : ∀ q, (program q).Calls P) (h : s.Calls P) : s'.Calls P := by
  have hupdate : ∀ k (p : Option (Prog Op Res α)), (∀ p', p = some p' → p'.Calls P) →
      ∀ k' p', Function.update s.running k p k' = some p' → p'.Calls P := by
    intro k p hp k' p' hk'
    by_cases hk : k' = k
    · rw [hk, Function.update_self] at hk'
      exact hp p' hk'
    · rw [Function.update_of_ne hk] at hk'
      exact h k' p' hk'
  cases hstep with
  | started q =>
    refine hupdate _ _ ?_
    rintro _ ⟨⟩
    exact hprogram q
  | @called k op f r w hk hret =>
    refine hupdate k _ ?_
    rintro _ ⟨⟩
    exact (h k _ hk).2 r
  | ended hk =>
    refine hupdate _ _ ?_
    rintro _ ⟨⟩
  | crashed | cutOff => rintro k p ⟨⟩

/-! ### Threads that are left alone -/

/-- These calls return one after another, each under a condition. -/
inductive Returning (M : World Op Res W) (C : W → Sigma Res → Prop) :
    W → List (Sigma Res) → W → Prop
  | refl (w : W) : Returning M C w [] w
  | call {op : Op} {r : Res op} {l : List (Sigma Res)} {w w₁ w' : W} (hret : M.returns op w r w₁)
      (hcond : C w ⟨op, r⟩) (h : Returning M C w₁ l w') : Returning M C w (⟨op, r⟩ :: l) w'

/-- The steps without a crash whose calls meet a condition. -/
structure StepUnder (M : World Op Res W) (lost : W → W) (program : Q → Prog Op Res α)
    (C : W → Sigma Res → Prop) (s : Threads Op Res α W) (e : ThreadEvent Q Op Res α)
    (s' : Threads Op Res α W) : Prop where
  step : ThreadStep M lost program s e s'
  call : ∀ k op r, e = .called k op r → C s.world ⟨op, r⟩
  returned : ∀ cut, e ≠ .crashed cut

/-- What happens while a request is served alone. -/
def served (k : ℕ) (q : Q) (l : List (Sigma Res)) (a : α) : List (ThreadEvent Q Op Res α) :=
  .started k q :: (l.map (fun c ↦ .called k c.1 c.2) ++ [.ended k a])

variable {C : W → Sigma Res → Prop} {p q' : Prog Op Res α} {l m : List (Sigma Res)} {w w' : W}

/-- A thread on its way goes through the calls that return. -/
theorem Returning.goesOn (h : Returning M C w l w') (hw : s.world = w) (hk : s.running k = some p)
    (hp : p.Follows (l ++ m) q') :
    ∃ p', p'.Follows m q' ∧
      Run (StepUnder M lost program C) s (l.map fun c ↦ .called k c.1 c.2)
        { s with world := w', running := Function.update s.running k (some p') } := by
  induction h generalizing s p with
  | refl w =>
    refine ⟨p, hp, ?_⟩
    rw [← hk, Function.update_eq_self, ← hw]
    exact .start
  | @call op r l w w₁ w' hret hcond _ ih =>
    obtain ⟨f, rfl, hrest⟩ := hp.next
    subst hw
    obtain ⟨p', hp', hrun⟩ := ih (s := { s with
      world := w₁, running := Function.update s.running k (some (f r)) }) rfl
      (Function.update_self ..) hrest
    rw [Function.update_idem] at hrun
    have hfirst : StepUnder M lost program C s (.called k op r)
        { s with world := w₁, running := Function.update s.running k (some (f r)) } := by
      refine ⟨.called hk hret, ?_, by rintro _ ⟨⟩⟩
      rintro _ _ _ ⟨⟩
      exact hcond
    exact ⟨p', hp', (Run.single hfirst).trans hrun⟩

theorem StepUnder.first (s : Threads Op Res α W) (q : Q) :
    StepUnder M lost program C s (.started s.count q)
      ⟨s.world, Function.update s.running s.count (some (program q)), s.count + 1⟩ :=
  ⟨.started q, by rintro _ _ _ ⟨⟩, by rintro _ ⟨⟩⟩

theorem StepUnder.last (h : s.running k = some (.ret a)) :
    StepUnder M lost program C s (.ended k a)
      { s with running := Function.update s.running k none } :=
  ⟨.ended h, by rintro _ _ _ ⟨⟩, by rintro _ ⟨⟩⟩

/-- **A request that is left alone** is answered, once its calls return. -/
theorem Returning.answered (h : Returning M C s.world l w') (hnew : s.running s.count = none)
    (hp : (program q).Follows l (.ret a)) :
    Run (StepUnder M lost program C) s (served s.count q l a) ⟨w', s.running, s.count + 1⟩ := by
  set s₁ : Threads Op Res α W :=
    ⟨s.world, Function.update s.running s.count (some (program q)), s.count + 1⟩ with hs₁
  have hself : s₁.running s.count = some (program q) := Function.update_self ..
  rw [← List.append_nil l] at hp
  obtain ⟨p', hend, hrun⟩ : ∃ p' : Prog Op Res α, p'.Follows [] (.ret a) ∧
      Run (StepUnder M lost program C) s₁ (l.map fun c : Sigma Res ↦ .called s.count c.1 c.2)
        { s₁ with world := w', running := Function.update s₁.running s.count (some p') } :=
    h.goesOn rfl hself hp
  obtain rfl : p' = .ret a := by
    cases hend
    rfl
  have hback : Function.update (Function.update s₁.running s.count (some (.ret a))) s.count none =
      s.running := by
    rw [Function.update_idem, hs₁, Function.update_idem, ← hnew, Function.update_eq_self]
  rw [← hback]
  exact (Run.single (.first s q)).trans (hrun.step (.last (Function.update_self ..)))

end Histories
