import Mathlib.Data.List.Basic

/-!
# Lexical paths

Where a path leads when it is read from left to right, without looking at any directory: a name
goes down, `..` goes up by the last name, or out of the start of a relative path, and `.` goes
nowhere. A child of a place is reached by a name and in no other way (`isChild_step_iff`).
-/

namespace LexicalPath

variable {ν : Type*}

/-- A part of a path. -/
inductive PathPart (ν : Type*) where
  | here
  | up
  | entry (name : ν)

/-- A place: from the root or from the start, some steps up and then some names down. -/
@[ext] structure Place (ν : Type*) where
  absolute : Bool
  ups : ℕ
  names : List ν

namespace Place

/-- One part further. There is nothing above the root. -/
def step (d : Place ν) : PathPart ν → Place ν
  | .here => d
  | .entry name => { d with names := d.names ++ [name] }
  | .up =>
    if d.names = [] then { d with ups := if d.absolute then d.ups else d.ups + 1 }
    else { d with names := d.names.dropLast }

/-- Where the parts of a path lead. -/
def walk (d : Place ν) (parts : List (PathPart ν)) : Place ν := parts.foldl step d

/-- One name below. -/
def IsChild (l d : Place ν) : Prop := ∃ name, l = { d with names := d.names ++ [name] }

variable {d : Place ν} {p : PathPart ν}

theorem walk_append (d : Place ν) (parts parts' : List (PathPart ν)) :
    d.walk (parts ++ parts') = (d.walk parts).walk parts' :=
  List.foldl_append

theorem length_names_step_le (hp : ∀ name, p ≠ .entry name) :
    (d.step p).names.length ≤ d.names.length := by
  cases p with
  | here => exact Nat.le_refl _
  | entry name => exact absurd rfl (hp name)
  | up =>
    by_cases htop : d.names = []
    · have hnames : (d.step .up).names = d.names := by
        rw [step]
        simp only [if_pos htop]
      exact Nat.le_of_eq (congrArg List.length hnames)
    · rw [step, if_neg htop]
      show d.names.dropLast.length ≤ d.names.length
      rw [List.length_dropLast]
      exact Nat.sub_le _ _

/-- **A child is reached by a name.** -/
theorem isChild_step_iff : IsChild (d.step p) d ↔ ∃ name, p = .entry name := by
  constructor
  · rintro ⟨name, h⟩
    by_contra hnot
    have hle := length_names_step_le (d := d) fun name hname ↦ hnot ⟨name, hname⟩
    rw [h, List.length_append, List.length_singleton] at hle
    omega
  · rintro ⟨name, rfl⟩
    exact ⟨name, rfl⟩

/-- What a name leads to, nothing else leads to. -/
theorem eq_of_step_eq {name : ν} (h : d.step p = d.step (.entry name)) : p = .entry name := by
  obtain ⟨name', rfl⟩ := isChild_step_iff.1 ⟨name, h⟩
  have hnames : d.names ++ [name'] = d.names ++ [name] := congrArg names h
  rw [(List.cons.inj (List.append_cancel_left hnames)).1]

end Place

end LexicalPath
