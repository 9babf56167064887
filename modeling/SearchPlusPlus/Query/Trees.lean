import SearchPlusPlus.Query.Leapfrog
import SearchPlusPlus.Query.Union

/-!
# Trees of operators

A tree has the law when its virtual calls reach deep enough. A tree that has it at one depth has
it at every greater one, where the calls of its operators go through more levels (`law_mono`).
-/

namespace Spp.Query

open Index DocIdSetIterator

/-! ### The calls of a larger dispatch -/

namespace SeekLaw

variable {σ : Type} {i i' : DocIdSetIterator σ} {L : @SeekLaw σ i} {L' : @SeekLaw σ i'}

/-- The states of one law are those of another, which may be about other calls. -/
structure Carries (L : @SeekLaw σ i) (L' : @SeekLaw σ i') : Prop where
  sound : ∀ {S it}, @Sound σ i L S it → @Sound σ i' L' S it
  fresh : ∀ {S it}, @Fresh σ i L S it → @Fresh σ i' L' S it
  at_ : ∀ {S it}, @At σ i L S it → @At σ i' L' S it
  docId : ∀ {S it}, @Sound σ i L S it → i'.docId it = i.docId it

theorem Carries.docId_of_at (h : Carries L L') {S : Set ℕ} {it : σ} (ha : @At σ i L S it) :
    i'.docId it = i.docId it := h.docId (@sound_of_at σ i L _ _ ha)

theorem Carries.conjunction (h : Carries L L') :
    Carries (@ConjunctionIterator.law σ i L) (@ConjunctionIterator.law σ i' L') where
  sound := by
    rintro _ it ⟨Ss, hS, hs, hne, hcur⟩
    exact ⟨Ss, hS, hs.imp fun _ _ ↦ h.sound, hne, hcur⟩
  fresh := by
    rintro _ it ⟨Ss, hS, ⟨hs, hne, hcur⟩, hend, hprimed⟩
    refine ⟨Ss, hS, ⟨hs.imp fun _ _ ↦ h.sound, hne, hcur⟩, hend, hprimed.imp id fun hp ↦ ?_⟩
    exact hp.imp fun _ _ hc ↦ ⟨h.at_ hc.1, (h.docId_of_at hc.1).symm ▸ hc.2⟩
  at_ := by
    rintro _ it ⟨Ss, hS, hne, ha⟩
    exact ⟨Ss, hS, hne, ha.imp fun _ _ hc ↦ ⟨h.at_ hc.1, (h.docId_of_at hc.1).trans hc.2⟩⟩
  docId _ := rfl

theorem Carries.disjunction (h : Carries L L') :
    Carries (@DisjunctionIterator.law σ i L) (@DisjunctionIterator.law σ i' L') where
  sound := by
    rintro _ it ⟨Ss, hS, hs, hcur⟩
    exact ⟨Ss, hS, hs.imp fun _ _ ↦ h.sound, hcur⟩
  fresh := by
    rintro _ it ⟨Ss, hS, hs, hcur, hne⟩
    exact ⟨Ss, hS, hs.imp fun _ _ ↦ h.fresh, hcur, hne⟩
  at_ := by
    rintro _ it ⟨Ss, hS, hs, hcur⟩
    refine ⟨Ss, hS, hs.imp ?_, hcur⟩
    rintro T c ⟨hsound, hseek, hat⟩
    have hdoc := h.docId hsound
    exact ⟨h.sound hsound, hdoc.symm ▸ hseek, fun hne ↦ h.at_ (hat fun heq ↦ hne (hdoc.trans heq))⟩
  docId _ := rfl

end SeekLaw

namespace Iter

/-! ### The law of a tree -/

section Virtual

variable {below : DocIdSetIterator Iter} (L : @SeekLaw Iter below)

/-- Any state. -/
def Sound (S : Set ℕ) : Iter → Prop
  | term it => TermIterator.law.Sound S it
  | matchAll it => MatchAllIterator.law.Sound S it
  | conjunction it => (ConjunctionIterator.law L).Sound S it
  | disjunction it => (DisjunctionIterator.law L).Sound S it

/-- Nothing was called yet. -/
def Fresh (S : Set ℕ) : Iter → Prop
  | term it => TermIterator.law.Fresh S it
  | matchAll it => MatchAllIterator.law.Fresh S it
  | conjunction it => (ConjunctionIterator.law L).Fresh S it
  | disjunction it => (DisjunctionIterator.law L).Fresh S it

/-- On a document of the set. -/
def At (S : Set ℕ) : Iter → Prop
  | term it => TermIterator.law.At S it
  | matchAll it => MatchAllIterator.law.At S it
  | conjunction it => (ConjunctionIterator.law L).At S it
  | disjunction it => (DisjunctionIterator.law L).At S it

/-- **Trees** have the law when those below have it. -/
def virtualLaw : @SeekLaw Iter (virtual below) :=
  @SeekLaw.mk Iter (virtual below) (Sound L) (Fresh L) (At L)
    (fun {_ it} ↦ match it with
      | term _ => TermIterator.law.sound_of_fresh
      | matchAll _ => MatchAllIterator.law.sound_of_fresh
      | conjunction _ => (ConjunctionIterator.law L).sound_of_fresh
      | disjunction _ => (DisjunctionIterator.law L).sound_of_fresh)
    (fun {_ it} ↦ match it with
      | term _ => TermIterator.law.sound_of_at
      | matchAll _ => MatchAllIterator.law.sound_of_at
      | conjunction _ => (ConjunctionIterator.law L).sound_of_at
      | disjunction _ => (DisjunctionIterator.law L).sound_of_at)
    (fun {_ it} ↦ match it with
      | term _ => TermIterator.law.lt_of_sound
      | matchAll _ => MatchAllIterator.law.lt_of_sound
      | conjunction _ => (ConjunctionIterator.law L).lt_of_sound
      | disjunction _ => (DisjunctionIterator.law L).lt_of_sound)
    (fun {_ it} ↦ match it with
      | term _ => TermIterator.law.docId_of_sound
      | matchAll _ => MatchAllIterator.law.docId_of_sound
      | conjunction _ => (ConjunctionIterator.law L).docId_of_sound
      | disjunction _ => (DisjunctionIterator.law L).docId_of_sound)
    (fun {_ it} ↦ match it with
      | term _ => TermIterator.law.sound_next
      | matchAll _ => MatchAllIterator.law.sound_next
      | conjunction _ => (ConjunctionIterator.law L).sound_next
      | disjunction _ => (DisjunctionIterator.law L).sound_next)
    (fun {_ it} ↦ match it with
      | term _ => TermIterator.law.sound_advance
      | matchAll _ => MatchAllIterator.law.sound_advance
      | conjunction _ => (ConjunctionIterator.law L).sound_advance
      | disjunction _ => (DisjunctionIterator.law L).sound_advance)
    (fun {_ it} ↦ match it with
      | term _ => TermIterator.law.docId_of_fresh
      | matchAll _ => MatchAllIterator.law.docId_of_fresh
      | conjunction _ => (ConjunctionIterator.law L).docId_of_fresh
      | disjunction _ => (DisjunctionIterator.law L).docId_of_fresh)
    (fun {_ it} ↦ match it with
      | term _ => TermIterator.law.docId_of_at
      | matchAll _ => MatchAllIterator.law.docId_of_at
      | conjunction _ => (ConjunctionIterator.law L).docId_of_at
      | disjunction _ => (DisjunctionIterator.law L).docId_of_at)
    (fun {_ it} ↦ match it with
      | term _ => TermIterator.law.next_of_fresh
      | matchAll _ => MatchAllIterator.law.next_of_fresh
      | conjunction _ => (ConjunctionIterator.law L).next_of_fresh
      | disjunction _ => (DisjunctionIterator.law L).next_of_fresh)
    (fun {_ it} ↦ match it with
      | term _ => TermIterator.law.next_of_at
      | matchAll _ => MatchAllIterator.law.next_of_at
      | conjunction _ => (ConjunctionIterator.law L).next_of_at
      | disjunction _ => (DisjunctionIterator.law L).next_of_at)
    (fun {_ it} ↦ match it with
      | term _ => TermIterator.law.advance_of_at
      | matchAll _ => MatchAllIterator.law.advance_of_at
      | conjunction _ => (ConjunctionIterator.law L).advance_of_at
      | disjunction _ => (DisjunctionIterator.law L).advance_of_at)

end Virtual

/-- The law at a depth. -/
def law : (n : ℕ) → @SeekLaw Iter (dispatch n)
  | 0 => @SeekLaw.mk Iter (dispatch 0) (fun _ _ ↦ False) (fun _ _ ↦ False) (fun _ _ ↦ False)
    False.elim False.elim False.elim False.elim False.elim (fun h _ ↦ h.elim) False.elim
    False.elim False.elim False.elim (fun h _ ↦ h.elim)
  | n + 1 => virtualLaw (law n)

variable {below below' : DocIdSetIterator Iter} {L : @SeekLaw Iter below}
  {L' : @SeekLaw Iter below'}

theorem carries_virtualLaw (h : SeekLaw.Carries L L') :
    SeekLaw.Carries (virtualLaw L) (virtualLaw L') where
  sound {_ it} := match it with
    | term _ | matchAll _ => id
    | conjunction _ => h.conjunction.sound
    | disjunction _ => h.disjunction.sound
  fresh {_ it} := match it with
    | term _ | matchAll _ => id
    | conjunction _ => h.conjunction.fresh
    | disjunction _ => h.disjunction.fresh
  at_ {_ it} := match it with
    | term _ | matchAll _ => id
    | conjunction _ => h.conjunction.at_
    | disjunction _ => h.disjunction.at_
  docId {_ it} := match it with
    | term _ | matchAll _ | conjunction _ | disjunction _ => fun _ ↦ rfl

theorem carries_succ (n : ℕ) : SeekLaw.Carries (law n) (law (n + 1)) := by
  induction n with
  | zero => exact ⟨False.elim, False.elim, False.elim, False.elim⟩
  | succ n ih => exact carries_virtualLaw ih

/-- What is new at one depth is new at every greater one. -/
theorem fresh_mono {n m : ℕ} (h : n ≤ m) {S : Set ℕ} {it : Iter} :
    @SeekLaw.Fresh Iter (dispatch n) (law n) S it →
      @SeekLaw.Fresh Iter (dispatch m) (law m) S it := by
  induction h with
  | refl => exact id
  | step _ ih => exact fun hf ↦ (carries_succ _).fresh (ih hf)

end Iter

end Spp.Query
