import SearchPlusPlus.Base.Types
import Mathlib.Logic.Function.Basic

/-!
# Concurrent index creation

`SearchServer::Impl::CreateIndex` by its atomic steps, for any number of requests that passed
validation. Between the check of a request and its insert the lock is released, and
`writers_[name] = ...` overwrites whatever was registered in the meantime.

`oneWriter_iff` says when the law of one writer per name holds along an interleaving: exactly
when no request is overtaken, that is, no other request for its name inserts between its check
and its insert.

* Without any assumption, `writers` and the directories only grow, and a request that passed its
  check and was not overtaken since still finds no writer (`RunInv`).
* The rest is a step lemma and an induction on the run.
-/

namespace Spp.Server

variable {Req : Type} [DecidableEq Req]

/-- Where a `CreateIndex` request stands. -/
inductive Phase where
  /-- Validated; about to test for the directory. -/
  | validated
  /-- The directory exists; about to look the name up in `writers_`. -/
  | lookup
  | createDirectories
  | openWriter
  /-- Holds the writer it opened. -/
  | insert (writer : ℕ)
  /-- Answered with this HTTP status. -/
  | answered (status : ℕ)
  deriving DecidableEq

/-- The atomic steps, with what they find. -/
inductive Action (Req : Type) where
  /-- `std::filesystem::exists`. -/
  | testDirectory (r : Req) (found : Bool)
  /-- `writers_.count(name)` under the lock. -/
  | lookup (r : Req) (found : Bool)
  /-- `std::filesystem::create_directories`. -/
  | createDirectories (r : Req) (ok : Bool)
  /-- `IndexWriter::Open`. -/
  | openWriter (r : Req) (ok : Bool)
  /-- `writers_[name] = std::move(*writer_e)` under the lock. -/
  | insert (r : Req)
  /-- `GetWriter`, by any `PostDoc`, `Refresh` or `Search`. -/
  | getWriter (name : Bytes)

/-- The server as its create requests see it. A writer object is a number, fresh at each open. -/
structure ServerState (Req : Type) where
  directories : Bytes → Bool
  writers : Bytes → Option ℕ
  opened : ℕ
  phase : Req → Phase

namespace ServerState

variable (nameOf : Req → Bytes)

/-- `GetWriter`. -/
def getWriter (s : ServerState Req) (name : Bytes) : Option ℕ := s.writers name

/-- Move a request on. -/
def move (s : ServerState Req) (r : Req) (p : Phase) : ServerState Req :=
  { s with phase := Function.update s.phase r p }

/-- One atomic step, when the server is at it. -/
def step (s : ServerState Req) : Action Req → Option (ServerState Req)
  | .testDirectory r found =>
    if s.phase r = .validated ∧ s.directories (nameOf r) = found then
      some (s.move r (if found then .lookup else .createDirectories))
    else none
  | .lookup r found =>
    if s.phase r = .lookup ∧ (s.writers (nameOf r)).isSome = found then
      some (s.move r (if found then .answered 409 else .createDirectories))
    else none
  | .createDirectories r ok =>
    if s.phase r = .createDirectories then
      if ok then
        some ({ s with directories := Function.update s.directories (nameOf r) true }.move r
          .openWriter)
      else some (s.move r (.answered 500))
    else none
  | .openWriter r ok =>
    if s.phase r = .openWriter then
      if ok then some ({ s with opened := s.opened + 1 }.move r (.insert s.opened))
      else some (s.move r (.answered 500))
    else none
  | .insert r =>
    match s.phase r with
    | .insert w =>
      some ({ s with writers := Function.update s.writers (nameOf r) (some w) }.move r
        (.answered 200))
    | _ => none
  | .getWriter _ => some s

/-- A whole interleaving. -/
def run (s : ServerState Req) (acts : List (Action Req)) : Option (ServerState Req) :=
  acts.foldlM (step nameOf) s

/-- A server on which no request has been handled yet: `Start` registers writers for existing
directories. -/
structure Started (s : ServerState Req) : Prop where
  validated : ∀ r, s.phase r = .validated
  directory : ∀ name, (s.writers name).isSome → s.directories name = true

/-- The request was acknowledged. -/
def Acknowledged (s : ServerState Req) (r : Req) : Prop := s.phase r = .answered 200

end ServerState

/-! ### The law and the condition -/

/-- The step after which a request is on its way to an insert. -/
def Action.passesCheck (r : Req) : Action Req → Prop
  | .testDirectory r' found => r' = r ∧ found = false
  | .lookup r' found => r' = r ∧ found = false
  | _ => False

/-- **One writer per name** along an interleaving: no two requests for a name are acknowledged,
and a registered writer stays registered. -/
structure OneWriter (nameOf : Req → Bytes) (s₀ : ServerState Req) (acts : List (Action Req)) :
    Prop where
  acknowledged : ∀ pre s, pre <+: acts → s₀.run nameOf pre = some s → ∀ r r',
    s.Acknowledged r → s.Acknowledged r' → nameOf r = nameOf r' → r = r'
  registered : ∀ pre mid s s', pre ++ mid <+: acts → s₀.run nameOf pre = some s →
    s.run nameOf mid = some s' → ∀ name w, s.getWriter name = some w →
      s'.getWriter name = some w

/-- No other request for its name inserts between the check of a request and its insert. -/
def NotOvertaken (nameOf : Req → Bytes) (acts : List (Action Req)) : Prop :=
  ∀ pre a mid r post, acts = pre ++ a :: (mid ++ .insert r :: post) → a.passesCheck r →
    ∀ r', nameOf r' = nameOf r → .insert r' ∉ mid

/-! ### One step -/

section Steps

variable {nameOf : Req → Bytes} {s s' : ServerState Req} {a : Action Req}

/-- A request past its check and not answered yet. -/
def Phase.Passed : Phase → Prop
  | .createDirectories | .openWriter | .insert _ => True
  | _ => False

/-- A request whose directory has been created. -/
def Phase.Created : Phase → Prop
  | .openWriter | .insert _ => True
  | _ => False

/-- What every step but an insert does: writers stay, directories grow, nobody is acknowledged,
and a request passes its check only where there is no directory or no writer. -/
structure Quiet (nameOf : Req → Bytes) (s : ServerState Req) (a : Action Req)
    (s' : ServerState Req) : Prop where
  writers : s'.writers = s.writers
  directories : ∀ name, s.directories name = true → s'.directories name = true
  acknowledged : ∀ r, s'.Acknowledged r ↔ s.Acknowledged r
  passed : ∀ r, (s'.phase r).Passed → (s.phase r).Passed ∨ a.passesCheck r ∧
    (s.directories (nameOf r) = false ∨ s.writers (nameOf r) = none)
  created : ∀ r, (s'.phase r).Created → (s.phase r).Created ∨ s'.directories (nameOf r) = true

theorem phase_move (s : ServerState Req) (r r' : Req) (p : Phase) :
    (s.move r p).phase r' = if r' = r then p else s.phase r' :=
  Function.update_apply ..

/-- Moving one request is quiet, if it does not reach or leave an acknowledgement. -/
theorem Quiet.move {r : Req} {p : Phase} {d : Bytes → Bool} {n : ℕ}
    (hd : ∀ name, s.directories name = true → d name = true) (h : s.phase r ≠ .answered 200)
    (hp : p ≠ .answered 200) (hpass : p.Passed → (s.phase r).Passed ∨ a.passesCheck r ∧
      (s.directories (nameOf r) = false ∨ s.writers (nameOf r) = none))
    (hcreated : p.Created → (s.phase r).Created ∨ d (nameOf r) = true) :
    Quiet nameOf s a ({ s with directories := d, opened := n }.move r p) where
  writers := rfl
  directories := hd
  acknowledged r' := by
    rw [ServerState.Acknowledged, ServerState.Acknowledged, phase_move]
    by_cases hr : r' = r
    · subst hr
      simp [hp, h]
    · rw [if_neg hr]
  passed r' := by
    rw [phase_move]
    by_cases hr : r' = r
    · subst hr
      rw [if_pos rfl]
      exact hpass
    · rw [if_neg hr]
      exact Or.inl
  created r' := by
    rw [phase_move]
    by_cases hr : r' = r
    · subst hr
      rw [if_pos rfl]
      exact hcreated
    · rw [if_neg hr]
      exact Or.inl

/-- **The step lemma**: an insert registers its writer and acknowledges its request; every other
step is quiet. -/
theorem step_cases (h : s.step nameOf a = some s') :
    (∃ r w, a = .insert r ∧ s.phase r = .insert w ∧
      s' = { s with writers := Function.update s.writers (nameOf r) (some w) }.move r
        (.answered 200)) ∨ (∀ r, a ≠ .insert r) ∧ Quiet nameOf s a s' := by
  have hsame : ∀ name, s.directories name = true → s.directories name = true := fun _ ↦ id
  cases a with
  | testDirectory r found =>
    refine Or.inr ⟨fun _ ↦ by simp, ?_⟩
    rw [ServerState.step] at h
    split at h
    · next hcond =>
      obtain ⟨hphase, hdir⟩ := hcond
      cases h
      cases found with
      | true => exact Quiet.move hsame (by rw [hphase]; simp) (by simp) False.elim False.elim
      | false =>
        exact Quiet.move hsame (by rw [hphase]; simp) (by simp)
          (fun _ ↦ Or.inr ⟨⟨rfl, rfl⟩, Or.inl hdir⟩) False.elim
    · cases h
  | lookup r found =>
    refine Or.inr ⟨fun _ ↦ by simp, ?_⟩
    rw [ServerState.step] at h
    split at h
    · next hcond =>
      obtain ⟨hphase, hwriter⟩ := hcond
      cases h
      cases found with
      | true => exact Quiet.move hsame (by rw [hphase]; simp) (by simp) False.elim False.elim
      | false =>
        exact Quiet.move hsame (by rw [hphase]; simp) (by simp)
          (fun _ ↦ Or.inr ⟨⟨rfl, rfl⟩, Or.inr (by simpa using hwriter)⟩) False.elim
    · cases h
  | createDirectories r ok =>
    refine Or.inr ⟨fun _ ↦ by simp, ?_⟩
    rw [ServerState.step] at h
    split_ifs at h with hphase hok
    · cases h
      refine Quiet.move (fun name hname ↦ ?_) (by rw [hphase]; simp) (by simp)
        (fun _ ↦ Or.inl (by rw [hphase]; trivial)) fun _ ↦ Or.inr (Function.update_self ..)
      rw [Function.update_apply]
      split
      · rfl
      · exact hname
    · cases h
      exact Quiet.move hsame (by rw [hphase]; simp) (by simp) False.elim False.elim
  | openWriter r ok =>
    refine Or.inr ⟨fun _ ↦ by simp, ?_⟩
    rw [ServerState.step] at h
    split_ifs at h with hphase hok
    · cases h
      exact Quiet.move hsame (by rw [hphase]; simp) (by simp)
        (fun _ ↦ Or.inl (by rw [hphase]; trivial)) fun _ ↦ Or.inl (by rw [hphase]; trivial)
    · cases h
      exact Quiet.move hsame (by rw [hphase]; simp) (by simp) False.elim False.elim
  | insert r =>
    rw [ServerState.step] at h
    split at h
    · next w hphase =>
      cases h
      exact Or.inl ⟨r, w, rfl, hphase, rfl⟩
    · cases h
  | getWriter name =>
    cases h
    exact Or.inr ⟨fun _ ↦ by simp, rfl, hsame, fun _ ↦ Iff.rfl, fun _ ↦ Or.inl, fun _ ↦ Or.inl⟩

end Steps

/-! ### Runs -/

section Runs

variable {nameOf : Req → Bytes} {s₀ s s' : ServerState Req} {acts : List (Action Req)}

theorem run_append {l l' : List (Action Req)} :
    s₀.run nameOf (l ++ l') = some s' ↔
      ∃ s, s₀.run nameOf l = some s ∧ s.run nameOf l' = some s' := by
  rw [ServerState.run, List.foldlM_append, Option.bind_eq_bind, Option.bind_eq_some_iff]
  rfl

theorem run_singleton {a : Action Req} :
    s.run nameOf [a] = some s' ↔ s.step nameOf a = some s' := by
  simp [ServerState.run]

/-- What holds along every interleaving. -/
structure RunInv (nameOf : Req → Bytes) (acts : List (Action Req)) (s : ServerState Req) :
    Prop where
  directory : ∀ name, (s.writers name).isSome → s.directories name = true
  inserted : ∀ r, s.Acknowledged r ↔ .insert r ∈ acts
  registered : ∀ r, s.Acknowledged r → (s.writers (nameOf r)).isSome
  created : ∀ r, (s.phase r).Created → s.directories (nameOf r) = true
  /-- A request past its check finds no writer as long as it is not overtaken. -/
  passed : ∀ r, (s.phase r).Passed → ∃ pre a mid, acts = pre ++ a :: mid ∧ a.passesCheck r ∧
    ((∀ r', nameOf r' = nameOf r → .insert r' ∉ mid) → s.writers (nameOf r) = none)

omit [DecidableEq Req] in
theorem RunInv.start (h : s.Started) : RunInv nameOf [] s where
  directory := h.directory
  inserted r := by simp [ServerState.Acknowledged, h.validated r]
  registered r hr := by simp [ServerState.Acknowledged, h.validated r] at hr
  created r hr := by
    rw [h.validated r] at hr
    exact hr.elim
  passed r hr := by
    rw [h.validated r] at hr
    exact hr.elim

omit [DecidableEq Req] in
theorem RunInv.quiet {a : Action Req} (h : RunInv nameOf acts s) (ha : ∀ r, a ≠ .insert r)
    (hq : Quiet nameOf s a s') : RunInv nameOf (acts ++ [a]) s' where
  directory name hname := hq.directories name (h.directory name (by rwa [← hq.writers]))
  inserted r := by
    rw [hq.acknowledged, h.inserted, List.mem_append, List.mem_singleton]
    exact ⟨Or.inl, fun h' ↦ h'.resolve_right fun heq ↦ ha r heq.symm⟩
  registered r hr := by
    rw [hq.writers]
    exact h.registered r ((hq.acknowledged r).1 hr)
  created r hr := (hq.created r hr).elim (fun h' ↦ hq.directories _ (h.created r h')) id
  passed r hr := by
    rw [hq.writers]
    rcases hq.passed r hr with hp | ⟨hcheck, hnone⟩
    · obtain ⟨pre, b, mid, rfl, hb, hmid⟩ := h.passed r hp
      refine ⟨pre, b, mid ++ [a], by simp, hb, fun hno ↦ hmid fun r' hr' hmem ↦ ?_⟩
      exact hno r' hr' (List.mem_append_left _ hmem)
    · refine ⟨acts, a, [], rfl, hcheck, fun _ ↦ ?_⟩
      rcases hnone with hdir | hw
      · by_contra hne
        have := h.directory (nameOf r) (Option.isSome_iff_ne_none.2 hne)
        rw [hdir] at this
        cases this
      · exact hw

theorem RunInv.insert {r : Req} {w : ℕ} (h : RunInv nameOf acts s) (hphase : s.phase r = .insert w)
    (hs' : s' = { s with writers := Function.update s.writers (nameOf r) (some w) }.move r
      (.answered 200)) : RunInv nameOf (acts ++ [.insert r]) s' where
  directory name hname := by
    subst hs'
    by_cases hn : name = nameOf r
    · rw [hn]
      exact h.created r (by rw [hphase]; trivial)
    · refine h.directory name ?_
      have heq : Function.update s.writers (nameOf r) (some w) name = s.writers name :=
        Function.update_of_ne hn ..
      rwa [← heq]
  inserted r' := by
    subst hs'
    rw [ServerState.Acknowledged, phase_move]
    by_cases hr : r' = r
    · simp [hr]
    · rw [if_neg hr]
      exact (h.inserted r').trans (by simp [hr])
  registered r' hr' := by
    subst hs'
    rw [ServerState.Acknowledged, phase_move] at hr'
    change (Function.update s.writers (nameOf r) (some w) (nameOf r')).isSome
    rw [Function.update_apply]
    split
    · rfl
    · next hn =>
      by_cases hr : r' = r
      · exact absurd (congrArg nameOf hr) hn
      · rw [if_neg hr] at hr'
        exact h.registered r' hr'
  created r' hr' := by
    subst hs'
    rw [phase_move] at hr'
    by_cases hr : r' = r
    · rw [if_pos hr] at hr'
      exact hr'.elim
    · rw [if_neg hr] at hr'
      exact h.created r' hr'
  passed r' hr' := by
    subst hs'
    rw [phase_move] at hr'
    by_cases hr : r' = r
    · rw [if_pos hr] at hr'
      exact hr'.elim
    · rw [if_neg hr] at hr'
      obtain ⟨pre, b, mid, rfl, hb, hmid⟩ := h.passed r' hr'
      refine ⟨pre, b, mid ++ [.insert r], by simp, hb, fun hno ↦ ?_⟩
      -- The insert overtakes the requests for its own name only.
      have hn : nameOf r' ≠ nameOf r := fun hn ↦ hno r hn.symm (by simp)
      change Function.update s.writers (nameOf r) (some w) (nameOf r') = none
      rw [Function.update_of_ne hn]
      exact hmid fun r'' hr'' hmem ↦ hno r'' hr'' (List.mem_append_left _ hmem)

/-- **The run lemma**: the invariant holds along every interleaving. -/
theorem RunInv.of_run (h₀ : s₀.Started) (h : s₀.run nameOf acts = some s) :
    RunInv nameOf acts s := by
  induction acts using List.reverseRecOn generalizing s with
  | nil =>
    cases h
    exact RunInv.start h₀
  | append_singleton acts a ih =>
    obtain ⟨s₁, hrun, hstep⟩ := run_append.1 h
    rcases step_cases (run_singleton.1 hstep) with ⟨r, w, rfl, hphase, hs⟩ | ⟨ha, hq⟩
    · exact (ih hrun).insert hphase hs
    · exact (ih hrun).quiet ha hq

/-! ### When the law holds -/

omit [DecidableEq Req] in
theorem NotOvertaken.shorter {pre : List (Action Req)} (h : NotOvertaken nameOf acts)
    (hpre : pre <+: acts) : NotOvertaken nameOf pre := by
  obtain ⟨rest, rfl⟩ := hpre
  rintro p a mid r post rfl
  exact h p a mid r (post ++ rest) (by simp)

omit [DecidableEq Req] in
/-- A request that was not overtaken inserts under a free name. -/
theorem NotOvertaken.writers_eq_none {r : Req} {w : ℕ}
    (h : NotOvertaken nameOf (acts ++ [.insert r])) (hinv : RunInv nameOf acts s)
    (hphase : s.phase r = .insert w) : s.writers (nameOf r) = none := by
  obtain ⟨pre, b, mid, rfl, hb, hmid⟩ := hinv.passed r (by rw [hphase]; trivial)
  exact hmid (h pre b mid r [] (by simp) hb)

/-- Then a registered writer survives every step. -/
theorem NotOvertaken.registered_step {a : Action Req} (h : NotOvertaken nameOf (acts ++ [a]))
    (hinv : RunInv nameOf acts s) (hstep : s.step nameOf a = some s') {name : Bytes} {w : ℕ}
    (hw : s.writers name = some w) : s'.writers name = some w := by
  rcases step_cases hstep with ⟨r, w', rfl, hphase, rfl⟩ | ⟨-, hq⟩
  · have hnone := h.writers_eq_none hinv hphase
    have hne : name ≠ nameOf r := by
      rintro rfl
      rw [hnone] at hw
      cases hw
    exact (Function.update_of_ne hne ..).trans hw
  · rw [hq.writers, hw]

theorem NotOvertaken.registered (h₀ : s₀.Started) {pre : List (Action Req)}
    (hpre : s₀.run nameOf pre = some s) {name : Bytes} {w : ℕ} (hw : s.writers name = some w) :
    ∀ (mid : List (Action Req)) (s' : ServerState Req), NotOvertaken nameOf (pre ++ mid) →
      s.run nameOf mid = some s' → s'.writers name = some w := by
  intro mid
  induction mid using List.reverseRecOn with
  | nil =>
    rintro s' - hrun
    cases hrun
    exact hw
  | append_singleton mid a ih =>
    intro s' h hrun
    obtain ⟨s₁, hmid, hstep⟩ := run_append.1 hrun
    rw [← List.append_assoc] at h
    have hinv := RunInv.of_run h₀ (run_append.2 ⟨s, hpre, hmid⟩)
    exact h.registered_step hinv (run_singleton.1 hstep)
      (ih s₁ (h.shorter (List.prefix_append ..)) hmid)

theorem NotOvertaken.acknowledged (h₀ : s₀.Started) :
    ∀ {acts : List (Action Req)} {s : ServerState Req}, NotOvertaken nameOf acts →
      s₀.run nameOf acts = some s → ∀ r r', s.Acknowledged r → s.Acknowledged r' →
        nameOf r = nameOf r' → r = r' := by
  intro acts
  induction acts using List.reverseRecOn with
  | nil =>
    rintro s - hrun r r' hr
    cases hrun
    simp [ServerState.Acknowledged, h₀.validated r] at hr
  | append_singleton acts a ih =>
    intro s h hrun r r' hr hr' hname
    obtain ⟨s₁, hacts, hstep⟩ := run_append.1 hrun
    have hinv := RunInv.of_run h₀ hacts
    have ih := ih (h.shorter (List.prefix_append ..)) hacts
    rcases step_cases (run_singleton.1 hstep) with ⟨r₀, w, rfl, hphase, rfl⟩ | ⟨-, hq⟩
    · have hnone := h.writers_eq_none hinv hphase
      -- A request for this name acknowledged before would have left a writer.
      have hfree : ∀ q, s₁.Acknowledged q → nameOf q ≠ nameOf r₀ := by
        intro q hq heq
        have := hinv.registered q hq
        rw [heq, hnone] at this
        cases this
      rw [ServerState.Acknowledged, phase_move] at hr hr'
      by_cases h1 : r = r₀ <;> by_cases h2 : r' = r₀
      · rw [h1, h2]
      · rw [if_neg h2] at hr'
        exact absurd (hname ▸ congrArg nameOf h1) (hfree r' hr')
      · rw [if_neg h1] at hr
        exact absurd (hname.trans (congrArg nameOf h2)) (hfree r hr)
      · rw [if_neg h1] at hr
        rw [if_neg h2] at hr'
        exact ih r r' hr hr' hname
    · exact ih r r' ((hq.acknowledged r).1 hr) ((hq.acknowledged r').1 hr') hname

/-- **When there is one writer per name**: along the interleavings in which no request is
overtaken, and along no others. -/
theorem oneWriter_iff (h₀ : s₀.Started) (hrun : s₀.run nameOf acts = some s) :
    OneWriter nameOf s₀ acts ↔ NotOvertaken nameOf acts := by
  constructor
  · rintro ⟨hack, -⟩ pre a mid r post rfl - r' hname hmem
    have hsplit : pre ++ a :: (mid ++ .insert r :: post) =
        (pre ++ a :: mid) ++ ([.insert r] ++ post) := by simp
    rw [hsplit] at hrun
    obtain ⟨s₁, hs₁, hrest⟩ := run_append.1 hrun
    obtain ⟨s₂, hs₂, -⟩ := run_append.1 hrest
    have hboth := run_append.2 ⟨s₁, hs₁, hs₂⟩
    have hr : s₂.Acknowledged r := ((RunInv.of_run h₀ hboth).inserted r).2 (by simp)
    have hr' : s₂.Acknowledged r' :=
      ((RunInv.of_run h₀ hboth).inserted r').2 (by simp [hmem])
    have hsame := hack _ s₂ ⟨post, by simp⟩ hboth r r' hr hr' hname.symm
    subst hsame
    -- The request was answered before, so this insert was not enabled.
    have hbefore : s₁.Acknowledged r := ((RunInv.of_run h₀ hs₁).inserted r).2 (by simp [hmem])
    rcases step_cases (run_singleton.1 hs₂) with ⟨r₀, w, heq, hphase, -⟩ | ⟨hne, -⟩
    · cases heq
      rw [ServerState.Acknowledged, hphase] at hbefore
      cases hbefore
    · exact hne r rfl
  · intro h
    refine ⟨fun pre s hpre hs ↦ NotOvertaken.acknowledged h₀ (h.shorter hpre) hs, ?_⟩
    intro pre mid s s' hpre hs hs' name w hw
    exact NotOvertaken.registered h₀ hs hw mid s' (h.shorter hpre) hs'

end Runs

/-- A server without indexes. -/
def emptyServer : ServerState Bool :=
  { directories := fun _ ↦ false, writers := fun _ ↦ none, opened := 0,
    phase := fun _ ↦ .validated }

/-- The steps of a request that finds no directory and succeeds. -/
def wholeRequest (r : Bool) : List (Action Bool) :=
  [.testDirectory r false, .createDirectories r true, .openWriter r true, .insert r]

/-- The step is an insert. -/
def Action.isInsert : Action Bool → Bool
  | .insert _ => true
  | _ => false

/-- Two requests of which the second finds the directory that the first has created, and then its
writer. -/
def following : List (Action Bool) :=
  [.testDirectory true false, .createDirectories true true, .testDirectory false true,
    .openWriter true true, .insert true, .lookup false true]

/-- There is one insert, so none comes before another. -/
theorem notOvertaken_following : NotOvertaken (fun _ ↦ str "a") following := by
  rintro pre a mid r post heq - r' - hmem
  have hone : following.countP Action.isInsert = 1 := rfl
  have hmid : 0 < mid.countP Action.isInsert := List.countP_pos_iff.2 ⟨_, hmem, rfl⟩
  rw [heq, List.countP_append, List.countP_cons, List.countP_append, List.countP_cons] at hone
  simp only [Action.isInsert, if_true] at hone
  omega

theorem oneWriter_iff_following :
    (emptyServer.run (fun _ ↦ str "a") following).isSome ∧
      OneWriter (fun _ ↦ str "a") emptyServer following := by
  have hstarted : emptyServer.Started := ⟨fun _ ↦ rfl, fun _ h ↦ absurd h Bool.false_ne_true⟩
  have hrun : ∃ s, emptyServer.run (fun _ ↦ str "a") following = some s := ⟨_, rfl⟩
  obtain ⟨s, hrun⟩ := hrun
  exact ⟨hrun ▸ rfl, (oneWriter_iff hstarted hrun).2 notOvertaken_following⟩

/-- Two requests that both test before either creates the directory. -/
def overtaking : List (Action Bool) :=
  .testDirectory false false :: (wholeRequest true ++ (wholeRequest false).tail)

theorem not_oneWriter_overtaking :
    (emptyServer.run (fun _ ↦ str "a") overtaking).isSome ∧
      ¬OneWriter (fun _ ↦ str "a") emptyServer overtaking := by
  refine ⟨by decide, fun h ↦ ?_⟩
  have hrun : ∃ s, emptyServer.run (fun _ ↦ str "a") overtaking = some s ∧
      s.Acknowledged true ∧ s.Acknowledged false := ⟨_, rfl, rfl, rfl⟩
  obtain ⟨s, hs, htrue, hfalse⟩ := hrun
  exact absurd (h.acknowledged overtaking s List.prefix_rfl hs true false htrue hfalse rfl)
    (by decide)

end Spp.Server
