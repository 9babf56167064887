import Mathlib.Logic.Basic

/-!
# Programs over an external world, with faults and crashes

A program is a tree of calls on an external world (`Prog`). What a call may do is a `World`: the
replies it may return with the state they leave, and the states a crash in the middle of it may
leave. Fault-free, faulty and torn worlds are different values of this one structure.

`Prog.wp` is the weakest precondition with two postconditions, one for the returned result and
one for every state in which the program may be stopped; `wp_iff` says it is exactly that.
Programs of a stateful, fallible language are a `Method`: they read and change an object and end
in a value or an error, and the object survives an error.

Nothing here depends on the calls, the states or the errors.
-/

/-- A program: a result, or a call and what to do with its reply. -/
inductive Prog (Op : Type) (Res : Op → Type) (α : Type) : Type where
  | ret (a : α)
  | call (op : Op) (k : Res op → Prog Op Res α)

/-- What calls may do to the states `W` of a world. -/
structure World (Op : Type) (Res : Op → Type) (W : Type) where
  /-- The call may return this reply and leave this state. -/
  returns : (op : Op) → W → Res op → W → Prop
  /-- A crash during the call may leave this state. -/
  stops : Op → W → W → Prop

namespace Prog

variable {Op : Type} {Res : Op → Type} {W α β : Type}

/-- Run a program and continue with its result. -/
def bind : Prog Op Res α → (α → Prog Op Res β) → Prog Op Res β
  | ret a, f => f a
  | call op k, f => call op fun r ↦ bind (k r) f

/-- A single call. -/
def perform (op : Op) : Prog Op Res (Res op) := call op ret

/-- The program may return this result and leave this state. -/
def Returns (M : World Op Res W) : Prog Op Res α → W → α → W → Prop
  | ret a, w, b, w' => a = b ∧ w = w'
  | call op k, w, b, w' => ∃ r w₁, M.returns op w r w₁ ∧ Returns M (k r) w₁ b w'

/-- A crash may leave this state: before a call, in the middle of one, or after the last. -/
def Stops (M : World Op Res W) : Prog Op Res α → W → W → Prop
  | ret _, w, w' => w = w'
  | call op k, w, w' =>
    w = w' ∨ M.stops op w w' ∨ ∃ r w₁, M.returns op w r w₁ ∧ Stops M (k r) w₁ w'

/-- The weakest precondition: `Q` holds of every returned result, `C` wherever a crash stops. -/
def wp (M : World Op Res W) :
    Prog Op Res α → (α → W → Prop) → (W → Prop) → W → Prop
  | ret a, Q, C, w => Q a w ∧ C w
  | call op k, Q, C, w =>
    C w ∧ (∀ w', M.stops op w w' → C w') ∧ ∀ r w', M.returns op w r w' → wp M (k r) Q C w'

variable {M : World Op Res W}

/-- **Meaning of the weakest precondition.** -/
theorem wp_iff {p : Prog Op Res α} {Q : α → W → Prop} {C : W → Prop} {w : W} :
    p.wp M Q C w ↔
      (∀ a w', p.Returns M w a w' → Q a w') ∧ ∀ w', p.Stops M w w' → C w' := by
  induction p generalizing w with
  | ret a =>
    constructor
    · rintro ⟨hQ, hC⟩
      exact ⟨by rintro b w' ⟨rfl, rfl⟩; exact hQ, by rintro w' rfl; exact hC⟩
    · rintro ⟨hQ, hC⟩
      exact ⟨hQ a w ⟨rfl, rfl⟩, hC w rfl⟩
  | call op k ih =>
    constructor
    · rintro ⟨hC, hstop, hret⟩
      refine ⟨?_, ?_⟩
      · rintro b w' ⟨r, w₁, hr, hk⟩
        exact (ih r |>.1 (hret r w₁ hr)).1 b w' hk
      · rintro w' (rfl | hs | ⟨r, w₁, hr, hk⟩)
        · exact hC
        · exact hstop w' hs
        · exact (ih r |>.1 (hret r w₁ hr)).2 w' hk
    · rintro ⟨hQ, hC⟩
      refine ⟨hC w (Or.inl rfl), fun w' hs ↦ hC w' (Or.inr (Or.inl hs)), fun r w₁ hr ↦ ?_⟩
      exact (ih r).2 ⟨fun a w' hk ↦ hQ a w' ⟨r, w₁, hr, hk⟩,
        fun w' hk ↦ hC w' (Or.inr (Or.inr ⟨r, w₁, hr, hk⟩))⟩

/-- A crash may come before the first call. -/
theorem wp_start {p : Prog Op Res α} {Q : α → W → Prop} {C : W → Prop} {w : W}
    (h : p.wp M Q C w) : C w := by
  cases p with
  | ret a => exact h.2
  | call op k => exact h.1

theorem stops_start (p : Prog Op Res α) (w : W) : p.Stops M w w := by
  cases p with
  | ret a => rfl
  | call op k => exact Or.inl rfl

/-- The runs of a sequence are those of its parts, one after the other. -/
theorem returns_bind {p : Prog Op Res α} {f : α → Prog Op Res β} {b : β} {w w' : W} :
    (p.bind f).Returns M w b w' ↔ ∃ a w₁, p.Returns M w a w₁ ∧ (f a).Returns M w₁ b w' := by
  induction p generalizing w with
  | ret a =>
    constructor
    · exact fun h ↦ ⟨a, w, ⟨rfl, rfl⟩, h⟩
    · rintro ⟨_, _, ⟨rfl, rfl⟩, h⟩
      exact h
  | call op k ih =>
    constructor
    · rintro ⟨r, w₁, hr, h⟩
      obtain ⟨a, w₂, ha, hb⟩ := (ih r).1 h
      exact ⟨a, w₂, ⟨r, w₁, hr, ha⟩, hb⟩
    · rintro ⟨a, w₂, ⟨r, w₁, hr, ha⟩, hb⟩
      exact ⟨r, w₁, hr, (ih r).2 ⟨a, w₂, ha, hb⟩⟩

/-- A crash in the first part of a sequence. -/
theorem stops_bind {p : Prog Op Res α} (f : α → Prog Op Res β) {w w' : W} (h : p.Stops M w w') :
    (p.bind f).Stops M w w' := by
  induction p generalizing w with
  | ret a =>
    obtain rfl : w = w' := h
    exact stops_start (f a) w
  | call op k ih =>
    rcases h with rfl | h | ⟨r, w₁, hr, h⟩
    · exact Or.inl rfl
    · exact Or.inr (Or.inl h)
    · exact Or.inr (Or.inr ⟨r, w₁, hr, ih r h⟩)

/-- A crash in the second part. -/
theorem stops_bind_of_returns {p : Prog Op Res α} {f : α → Prog Op Res β} {a : α} {w w₁ w' : W}
    (h : p.Returns M w a w₁) (h' : (f a).Stops M w₁ w') : (p.bind f).Stops M w w' := by
  induction p generalizing w with
  | ret b =>
    obtain ⟨rfl, rfl⟩ := h
    exact h'
  | call op k ih =>
    obtain ⟨r, w₂, hr, h⟩ := h
    exact Or.inr (Or.inr ⟨r, w₂, hr, ih r h⟩)

theorem wp_mono {p : Prog Op Res α} {Q Q' : α → W → Prop} {C C' : W → Prop} {w : W}
    (h : p.wp M Q C w) (hC : ∀ w', C w' → C' w') (hQ : ∀ a w', Q a w' → C w' → Q' a w') :
    p.wp M Q' C' w := by
  induction p generalizing w with
  | ret a => exact ⟨hQ a w h.1 h.2, hC w h.2⟩
  | call op k ih =>
    obtain ⟨h0, hstop, hret⟩ := h
    exact ⟨hC w h0, fun w' hs ↦ hC w' (hstop w' hs), fun r w' hr ↦ ih r (hret r w' hr)⟩

/-- A world that can do less. -/
theorem wp_world {M' : World Op Res W} {p : Prog Op Res α} {Q : α → W → Prop} {C : W → Prop}
    {w : W} (h : p.wp M Q C w) (hreturns : ∀ op w r w', M'.returns op w r w' → M.returns op w r w')
    (hstops : ∀ op w w', M'.stops op w w' → M.stops op w w') : p.wp M' Q C w := by
  induction p generalizing w with
  | ret a => exact h
  | call op k ih =>
    obtain ⟨h0, hstop, hret⟩ := h
    exact ⟨h0, fun w' hs ↦ hstop w' (hstops op w w' hs),
      fun r w' hr ↦ ih r (hret r w' (hreturns op w r w' hr))⟩

theorem wp_bind {p : Prog Op Res α} {f : α → Prog Op Res β} {Q : β → W → Prop} {C : W → Prop}
    {w : W} : (p.bind f).wp M Q C w ↔ p.wp M (fun a w' ↦ (f a).wp M Q C w') C w := by
  induction p generalizing w with
  | ret a => exact ⟨fun h ↦ ⟨h, wp_start h⟩, fun h ↦ h.1⟩
  | call op k ih =>
    exact and_congr_right' (and_congr_right' (forall₃_congr fun r w' _ ↦ ih r))

theorem wp_and {p : Prog Op Res α} {Q Q' : α → W → Prop} {C C' : W → Prop} {w : W}
    (h : p.wp M Q C w) (h' : p.wp M Q' C' w) :
    p.wp M (fun a w' ↦ Q a w' ∧ Q' a w') (fun w' ↦ C w' ∧ C' w') w := by
  rw [wp_iff] at *
  exact ⟨fun a w' hr ↦ ⟨h.1 a w' hr, h'.1 a w' hr⟩, fun w' hs ↦ ⟨h.2 w' hs, h'.2 w' hs⟩⟩

end Prog

/-! ### Methods -/

/-- A method of an object of type `σ`: it calls the world, ends in a value or an error, and
leaves the object changed either way. -/
def Method (Op : Type) (Res : Op → Type) (ε σ α : Type) : Type :=
  σ → Prog Op Res (Except ε α × σ)

namespace Method

variable {Op : Type} {Res : Op → Type} {W ε σ τ α β : Type}

/-- What follows a method: nothing after an error. -/
def andThen (f : α → Method Op Res ε σ β) : Except ε α × σ → Prog Op Res (Except ε β × σ)
  | (.ok a, s) => f a s
  | (.error e, s) => .ret (.error e, s)

instance : Monad (Method Op Res ε σ) where
  pure a s := .ret (.ok a, s)
  bind m f s := (m s).bind (andThen f)

/-- The object. -/
def self : Method Op Res ε σ σ := fun s ↦ .ret (.ok s, s)

/-- Replace the object. -/
def become (s : σ) : Method Op Res ε σ Unit := fun _ ↦ .ret (.ok (), s)

/-- End in an error. -/
def fail (e : ε) : Method Op Res ε σ α := fun s ↦ .ret (.error e, s)

/-- End in a computed value or error. -/
def done (r : Except ε α) : Method Op Res ε σ α := fun s ↦ .ret (r, s)

/-- A single call. -/
def perform (op : Op) : Method Op Res ε σ (Res op) :=
  fun s ↦ .call op fun r ↦ .ret (.ok r, s)

/-- Run a method for its outcome, turning an error into a value. -/
def attempt (m : Method Op Res ε σ α) : Method Op Res ε σ (Except ε α) :=
  fun s ↦ (m s).bind fun r ↦ .ret (.ok r.1, r.2)

/-- Run a method of a part of the object. -/
def on (get : σ → τ) (set : σ → τ → σ) (m : Method Op Res ε τ α) : Method Op Res ε σ α :=
  fun s ↦ (m (get s)).bind fun r ↦ .ret (r.1, set s r.2)

/-- Run a method that owns its object: the object it starts from is given, the one it ends with
is returned along with its outcome. -/
def owning (t : τ) (m : Method Op Res ε τ α) : Method Op Res ε σ (Except ε α × τ) :=
  fun s ↦ (m t).bind fun r ↦ .ret (.ok r, s)

variable (M : World Op Res W)

/-- The weakest precondition of a method from an object: over its outcome and the object left. -/
def wp (m : Method Op Res ε σ α) (s : σ) (Q : Except ε α → σ → W → Prop) (C : W → Prop)
    (w : W) : Prop :=
  (m s).wp M (fun r w' ↦ Q r.1 r.2 w') C w

variable {M} {s : σ} {w : W} {Q : Except ε α → σ → W → Prop} {C : W → Prop}

theorem wp_iff {m : Method Op Res ε σ α} :
    m.wp M s Q C w ↔ (∀ r s' w', (m s).Returns M w (r, s') w' → Q r s' w') ∧
      ∀ w', (m s).Stops M w w' → C w' := by
  rw [wp, Prog.wp_iff]
  exact and_congr_left' ⟨fun h r s' w' hr ↦ h (r, s') w' hr, fun h a w' hr ↦ h a.1 a.2 w' hr⟩

theorem wp_mono {m : Method Op Res ε σ α} {Q' : Except ε α → σ → W → Prop} {C' : W → Prop}
    (h : m.wp M s Q C w) (hC : ∀ w', C w' → C' w') (hQ : ∀ r s' w', Q r s' w' → C w' → Q' r s' w') :
    m.wp M s Q' C' w :=
  Prog.wp_mono h hC fun r w' hr hw ↦ hQ r.1 r.2 w' hr hw

theorem wp_start {m : Method Op Res ε σ α} (h : m.wp M s Q C w) : C w := Prog.wp_start h

theorem wp_and {m : Method Op Res ε σ α} {Q' : Except ε α → σ → W → Prop} {C' : W → Prop}
    (h : m.wp M s Q C w) (h' : m.wp M s Q' C' w) :
    m.wp M s (fun r s' w' ↦ Q r s' w' ∧ Q' r s' w') (fun w' ↦ C w' ∧ C' w') w :=
  Prog.wp_and h h'

@[simp] theorem wp_pure {a : α} : (pure a : Method Op Res ε σ α).wp M s Q C w ↔
    Q (.ok a) s w ∧ C w := Iff.rfl

@[simp] theorem wp_fail {e : ε} : (fail e : Method Op Res ε σ α).wp M s Q C w ↔
    Q (.error e) s w ∧ C w := Iff.rfl

@[simp] theorem wp_done {r : Except ε α} : (done r : Method Op Res ε σ α).wp M s Q C w ↔
    Q r s w ∧ C w := Iff.rfl

@[simp] theorem wp_self {Q : Except ε σ → σ → W → Prop} :
    (self : Method Op Res ε σ σ).wp M s Q C w ↔ Q (.ok s) s w ∧ C w := Iff.rfl

@[simp] theorem wp_become {t : σ} {Q : Except ε Unit → σ → W → Prop} :
    (become t : Method Op Res ε σ Unit).wp M s Q C w ↔ Q (.ok ()) t w ∧ C w := Iff.rfl

/-- A run that goes on. -/
theorem returns_ok {m : Method Op Res ε σ α} {f : α → Method Op Res ε σ β} {a : α} {s' s'' : σ}
    {r : Except ε β} {w' w'' : W} (h : (m s).Returns M w (.ok a, s') w')
    (h' : (f a s').Returns M w' (r, s'') w'') : ((m >>= f) s).Returns M w (r, s'') w'' :=
  Prog.returns_bind.2 ⟨_, _, h, h'⟩

/-- A run that ends in an error there. -/
theorem returns_error {m : Method Op Res ε σ α} {f : α → Method Op Res ε σ β} {e : ε} {s' : σ}
    {w' : W} (h : (m s).Returns M w (.error e, s') w') :
    ((m >>= f) s).Returns M w (.error e, s') w' :=
  Prog.returns_bind.2 ⟨_, _, h, rfl, rfl⟩

/-- The one rule for calls. -/
theorem wp_perform {op : Op} {Q : Except ε (Res op) → σ → W → Prop} :
    (perform op : Method Op Res ε σ (Res op)).wp M s Q C w ↔
      C w ∧ (∀ w', M.stops op w w' → C w') ∧
        ∀ r w', M.returns op w r w' → Q (.ok r) s w' ∧ C w' := Iff.rfl

/-- The postcondition of the first part of a sequence. -/
def Seq (M : World Op Res W) (f : α → Method Op Res ε σ β) (Q : Except ε β → σ → W → Prop)
    (C : W → Prop) : Except ε α → σ → W → Prop
  | .ok a, s, w => (f a).wp M s Q C w
  | .error e, s, w => Q (.error e) s w

@[simp] theorem seq_ok {f : α → Method Op Res ε σ β} {Q : Except ε β → σ → W → Prop} {a : α} :
    Seq M f Q C (.ok a) s w ↔ (f a).wp M s Q C w := Iff.rfl

@[simp] theorem seq_error {f : α → Method Op Res ε σ β} {Q : Except ε β → σ → W → Prop} {e : ε} :
    Seq M f Q C (.error e) s w ↔ Q (.error e) s w := Iff.rfl

/-- **Sequencing**: an error skips what follows. -/
theorem wp_bind {m : Method Op Res ε σ α} {f : α → Method Op Res ε σ β}
    {Q : Except ε β → σ → W → Prop} :
    (m >>= f).wp M s Q C w ↔ m.wp M s (Seq M f Q C) C w := by
  refine Prog.wp_bind.trans ⟨fun h ↦ Prog.wp_mono h (fun _ ↦ id) ?_,
    fun h ↦ Prog.wp_mono h (fun _ ↦ id) ?_⟩
  · rintro ⟨r, s'⟩ w' h _
    cases r with
    | error e => exact h.1
    | ok a => exact h
  · rintro ⟨r, s'⟩ w' h hC
    cases r with
    | error e => exact ⟨h, hC⟩
    | ok a => exact h

theorem wp_attempt {m : Method Op Res ε σ α} {Q : Except ε (Except ε α) → σ → W → Prop} :
    m.attempt.wp M s Q C w ↔ m.wp M s (fun r ↦ Q (.ok r)) C w := by
  refine Prog.wp_bind.trans ⟨fun h ↦ Prog.wp_mono h (fun _ ↦ id) fun r w' h _ ↦ h.1,
    fun h ↦ Prog.wp_mono h (fun _ ↦ id) fun r w' h hC ↦ ⟨h, hC⟩⟩

theorem wp_owning {t : τ} {m : Method Op Res ε τ α}
    {Q : Except ε (Except ε α × τ) → σ → W → Prop} :
    (m.owning t).wp M s Q C w ↔ m.wp M t (fun r t' ↦ Q (.ok (r, t')) s) C w := by
  refine Prog.wp_bind.trans ⟨fun h ↦ Prog.wp_mono h (fun _ ↦ id) fun r w' h _ ↦ h.1,
    fun h ↦ Prog.wp_mono h (fun _ ↦ id) fun r w' h hC ↦ ⟨h, hC⟩⟩

end Method
