import Mathlib.Logic.Basic
import Mathlib.Data.Nat.Notation

/-!
# Runs of labelled transition systems

A run is a list of events with the steps that make them. Invariants are proved once here: what a
start has and every step keeps, every run keeps (`Run.invariant`).

Nothing here depends on the states or the events.
-/

/-- The runs of a step relation from a state: the events in order, and the state reached. -/
inductive Run {S E : Type*} (step : S → E → S → Prop) (s₀ : S) : List E → S → Prop
  | start : Run step s₀ [] s₀
  | step {es : List E} {s : S} {e : E} {s' : S} (h : Run step s₀ es s) (hstep : step s e s') :
      Run step s₀ (es ++ [e]) s'

namespace Run

variable {S E : Type*} {step step' : S → E → S → Prop} {s₀ s s' : S} {es es' : List E} {e : E}

theorem single (h : step s₀ e s) : Run step s₀ [e] s := Run.start.step h

theorem trans (h : Run step s₀ es s) (h' : Run step s es' s') : Run step s₀ (es ++ es') s' := by
  induction h' with
  | start => rwa [List.append_nil]
  | step _ hstep ih =>
    rw [← List.append_assoc]
    exact ih.step hstep

/-- A run without steps stays where it starts. -/
theorem eq_of_nil (h : Run step s₀ [] s) : s = s₀ := by
  generalize hes : [] = es at h
  cases h with
  | start => rfl
  | step => exact absurd hes.symm (List.append_ne_nil_of_right_ne_nil _ (List.cons_ne_nil _ _))

/-- The last step of a run. -/
theorem exists_last (h : Run step s₀ (es ++ [e]) s') : ∃ s, Run step s₀ es s ∧ step s e s' := by
  generalize hl : es ++ [e] = l at h
  cases h with
  | start => exact absurd hl (List.append_ne_nil_of_right_ne_nil _ (List.cons_ne_nil _ _))
  | step h hstep =>
    obtain ⟨rfl, hlast⟩ := List.append_inj' hl rfl
    obtain rfl := List.singleton_inj.1 hlast
    exact ⟨_, h, hstep⟩

theorem mono (h : Run step s₀ es s) (hsub : ∀ s e s', step s e s' → step' s e s') :
    Run step' s₀ es s := by
  induction h with
  | start => exact .start
  | step _ hstep ih => exact ih.step (hsub _ _ _ hstep)

/-- What is known of the events. -/
theorem and_events {P : E → Prop} (h : Run step s₀ es s) (hP : ∀ e ∈ es, P e) :
    Run (fun s e s' ↦ step s e s' ∧ P e) s₀ es s := by
  induction h with
  | start => exact .start
  | step _ hstep ih =>
    refine (ih fun e he ↦ hP e (List.mem_append_left _ he)).step ⟨hstep, hP _ ?_⟩
    exact List.mem_append_right _ List.mem_cons_self

/-- **Invariants**, over the events so far and the state. -/
theorem invariant_events {I : List E → S → Prop} (h : Run step s₀ es s) (h₀ : I [] s₀)
    (hstep : ∀ es s e s', I es s → step s e s' → I (es ++ [e]) s') : I es s := by
  induction h with
  | start => exact h₀
  | step _ hs ih => exact hstep _ _ _ _ ih hs

/-- **Invariants** of the state. -/
theorem invariant {I : S → Prop} (h : Run step s₀ es s) (h₀ : I s₀)
    (hstep : ∀ s e s', I s → step s e s' → I s') : I s :=
  h.invariant_events (I := fun _ ↦ I) h₀ fun _ ↦ hstep

/-- **Bounded runs**: where every step lowers a rank, a run has no more steps than the rank. -/
theorem length_add_le {I : S → Prop} (rank : S → ℕ) (h : Run step s₀ es s) (h₀ : I s₀)
    (hstep : ∀ s e s', I s → step s e s' → I s' ∧ rank s' < rank s) :
    es.length + rank s ≤ rank s₀ := by
  suffices hboth : I s ∧ es.length + rank s ≤ rank s₀ from hboth.2
  induction h with
  | start => exact ⟨h₀, by simp⟩
  | step _ hs ih =>
    obtain ⟨hnext, hlower⟩ := hstep _ _ _ ih.1 hs
    refine ⟨hnext, ?_⟩
    rw [List.length_append, List.length_singleton]
    omega

/-- What an invariant says is known of every step. -/
theorem with_invariant {I : S → Prop} (h : Run step s₀ es s) (h₀ : I s₀)
    (hstep : ∀ s e s', I s → step s e s' → I s') :
    Run (fun s e s' ↦ step s e s' ∧ I s) s₀ es s := by
  induction h with
  | start => exact .start
  | step hrun hs ih => exact ih.step ⟨hs, hrun.invariant h₀ hstep⟩

/-- **A part of a system** makes a run of its own, if each step is one of the part or leaves it as
it was. -/
theorem part {T G : Type*} {stepOf : T → G → T → Prop} (view : S → T) (event : E → Option G)
    (h : Run step s₀ es s)
    (hstep : ∀ s e s', step s e s' → (event e = none ∧ view s' = view s) ∨
      ∃ g, event e = some g ∧ stepOf (view s) g (view s')) :
    Run stepOf (view s₀) (es.filterMap event) (view s) := by
  induction h with
  | start => exact .start
  | step _ hs ih =>
    rw [List.filterMap_append]
    rcases hstep _ _ _ hs with ⟨hnone, hview⟩ | ⟨g, hsome, hpart⟩
    · rw [List.filterMap_cons_none hnone, List.filterMap_nil, List.append_nil, hview]
      exact ih
    · rw [List.filterMap_cons_some hsome, List.filterMap_nil]
      exact ih.step hpart

end Run
