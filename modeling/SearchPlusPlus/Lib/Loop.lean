import Mathlib.Data.PFun

/-!
# Loops without a bound

`loop round a` makes rounds from `a` until one of them has a result. It has no value when no round
has, or when a round itself has no value. A loop whose rank goes down in every round has a value,
and that value is the one of any function that makes the same rounds by fuel (`loop_eq_of_rank`).

Nothing here depends on what the rounds do.
-/

variable {α β : Type*} {round : α → Part (β ⊕ α)} {a a' : α} {b : β}

/-- Rounds until one of them has a result. -/
noncomputable def loop (round : α → Part (β ⊕ α)) : α → Part β := PFun.fix round

theorem loop_stop (h : round a = Part.some (.inl b)) : loop round a = Part.some b :=
  Part.eq_some_iff.2 (PFun.fix_stop (show Sum.inl b ∈ round a by rw [h]; exact Part.mem_some _))

theorem loop_go (h : round a = Part.some (.inr a')) : loop round a = loop round a' :=
  PFun.fix_fwd_eq (show Sum.inr a' ∈ round a by rw [h]; exact Part.mem_some _)

/-- What a round does that has a value: it ends the loop with a result that has `Q`, or goes on with
a lower rank from a state that has `I`. -/
inductive Progress (round : α → Part (β ⊕ α)) (I : α → Prop) (Q : β → Prop) (rank : α → ℕ)
    (F : ℕ → α → β) (n : ℕ) (a : α) : Prop
  | stop (b : β) (h : round a = Part.some (.inl b)) (hQ : Q b) (hF : F (n + 1) a = b)
  | go (a' : α) (h : round a = Part.some (.inr a')) (hI : I a') (hrank : rank a' < rank a)
      (hF : F (n + 1) a = F n a')

/-- **A loop ends** when a rank goes down, and a function that makes its rounds by fuel has its
value as soon as there is fuel for the rank. -/
theorem loop_eq_of_rank {I : α → Prop} {Q : β → Prop} {F : ℕ → α → β} (rank : α → ℕ)
    (h : ∀ n a, I a → Progress round I Q rank F n a) :
    ∀ n a, I a → rank a < n → loop round a = Part.some (F n a) ∧ Q (F n a) := by
  intro n
  induction n with
  | zero => exact fun a _ hlt ↦ absurd hlt (Nat.not_lt_zero _)
  | succ n ih =>
    intro a hI hlt
    obtain ⟨b, hround, hQ, hF⟩ | ⟨a', hround, hI', hrank, hF⟩ := h n a hI
    · rw [hF, loop_stop hround]
      exact ⟨rfl, hQ⟩
    · rw [hF, loop_go hround]
      exact ih a' hI' (by omega)

/-- **A loop ends** when a rank goes down. -/
theorem exists_loop_eq {I : α → Prop} (rank : α → ℕ)
    (h : ∀ a, I a → (∃ b, round a = Part.some (.inl b)) ∨
      ∃ a', round a = Part.some (.inr a') ∧ I a' ∧ rank a' < rank a) (a : α) (hI : I a) :
    ∃ b, loop round a = Part.some b := by
  induction hn : rank a using Nat.strong_induction_on generalizing a with
  | _ n ih =>
    obtain ⟨b, hround⟩ | ⟨a', hround, hI', hrank⟩ := h a hI
    · exact ⟨b, loop_stop hround⟩
    · rw [loop_go hround]
      exact ih _ (hn ▸ hrank) a' hI' rfl
