import SearchPlusPlus.Store.FileIo
import Mathlib.Data.Set.Basic

/-!
# Storage that forgets

A disk whose writes wait in a cache. What a crash leaves of a file is known once it was synced, and
what a name stands for once its directory was (`Storage`); until then the bytes behind those synced
last may be anything, and a name may stand for what it stood for before. A name is looked at alone,
so a crash may lose any part of what was not synced.

`Storage.publication` is why a list of files can be replaced at once: they are written and synced,
the directory is, and only then a synced list is renamed over the old one. After a crash at any
point either list is there, with its files.
-/

namespace Spp.Store

/-- A disk, and what a crash may leave of it. -/
structure Storage where
  /-- What a program reads. -/
  now : Disk
  /-- What a crash may leave in the file of a name. -/
  data : Bytes → Bytes → Prop
  /-- What a name may still stand for. -/
  entry : Bytes → Option Bytes → Prop

namespace Storage

/-- Storage in which everything was synced. -/
def ofDisk (d : Disk) : Storage where
  now := d
  data n b := d n = some b
  entry _ _ := False

/-- A crash may leave this under a name. -/
def May (S : Storage) (n : Bytes) (x : Option Bytes) : Prop :=
  S.entry n x ∨ S.now n = none ∧ x = none ∨ ∃ b, (S.now n).isSome ∧ S.data n b ∧ x = some b

/-- A crash may leave this disk. -/
def Survives (S : Storage) (d : Disk) : Prop := ∀ n, S.May n (d n)

/-- What is under a name, now and after a crash, is one of these. -/
structure Among (S : Storage) (n : Bytes) (X : Set (Option Bytes)) : Prop where
  now : S.now n ∈ X
  may : ∀ x, S.May n x → x ∈ X

/-- A crash leaves what is under the name. -/
def Settled (S : Storage) (n : Bytes) : Prop := S.Among n {S.now n}

/-- The file of a name was synced with these bytes. -/
def Synced (S : Storage) (n b : Bytes) : Prop := S.now n = some b ∧ ∀ b', S.data n b' → b' = b

/-- An action that does not fail. A crash in the middle of a write leaves no more than a crash
behind it, since the bytes that were not synced may be anything. -/
def perform : FileAction → Storage → Storage
  | .create name truncate, S =>
    match S.now name with
    | none =>
      { now := S.now.put name []
        data := Function.update S.data name (· = [])
        entry := Function.update S.entry name fun x ↦ S.entry name x ∨ x = none }
    | some _ =>
      if truncate then
        { S with
          now := S.now.put name []
          data := Function.update S.data name fun b ↦ S.data name b ∨ b = [] }
      else S
  | .write name bytes, S =>
    { S with
      now := S.now.put name (S.now.content name ++ bytes)
      -- A file that is written to exists.
      data := Function.update S.data name fun b ↦
        ∃ b₀, (S.data name b₀ ∨ S.now name = none) ∧ b₀ <+: b }
  | .fsync name, S =>
    { S with data := Function.update S.data name (· = S.now.content name) }
  | .rename src dst, S =>
    match S.now src with
    | none => S
    | some b =>
      { now := Disk.put (Function.update S.now src none) dst b
        data := Function.update S.data dst (S.data src)
        entry := Function.update (Function.update S.entry src (S.May src)) dst (S.May dst) }
  | .fsyncDirectory, S => { S with entry := fun _ _ ↦ False }
  | .fclose _, S | .createDirectories, S => S

/-- Actions, one after the other. -/
def performs (S : Storage) (acts : List FileAction) : Storage :=
  acts.foldl (fun S a ↦ perform a S) S

end Storage

/-- The names an action changes. -/
def FileAction.written : FileAction → List Bytes
  | create name _ | write name _ => [name]
  | rename src dst => [src, dst]
  | fsync _ | fclose _ | fsyncDirectory | createDirectories => []

namespace Storage

variable {S : Storage} {a : FileAction} {acts acts' : List FileAction} {n b : Bytes}
  {x : Option Bytes} {X : Set (Option Bytes)} {d : Disk}

/-! ### One action -/

/-- A program reads what it has written. -/
theorem now_perform (a : FileAction) (S : Storage) : (perform a S).now = (a.exec S.now).2 := by
  have hput : ∀ {name b}, S.now name = some b → S.now.put name b = S.now :=
    fun h ↦ Function.update_eq_self_iff.2 h.symm
  cases a with
  | create name truncate =>
    rw [perform, FileAction.exec]
    cases hname : S.now name with
    | none => cases truncate <;> simp [Disk.content, hname]
    | some b => cases truncate <;> simp [Disk.content, hname, hput hname]
  | rename src dst =>
    rw [perform, FileAction.exec]
    cases S.now src <;> rfl
  | write | fsync | fclose | fsyncDirectory | createDirectories => rfl

/-- An action leaves other names alone, but for what it syncs. -/
theorem perform_of_not_mem (hn : n ∉ a.written) : (perform a S).now n = S.now n ∧
    (∀ b, (perform a S).data n b → S.data n b ∨ b = S.now.content n) ∧
      ∀ x, (perform a S).entry n x → S.entry n x := by
  cases a with
  | create name truncate =>
    have hne : n ≠ name := fun h ↦ hn (List.mem_singleton.2 h)
    rw [perform]
    cases S.now name with
    | none =>
      exact ⟨S.now.put_of_ne hne _,
        fun b hb ↦ Or.inl (by simpa [Function.update_of_ne hne] using hb),
        fun x hx ↦ by simpa [Function.update_of_ne hne] using hx⟩
    | some _ =>
      dsimp only
      split_ifs
      · exact ⟨S.now.put_of_ne hne _,
          fun b hb ↦ Or.inl (by simpa [Function.update_of_ne hne] using hb), fun _ ↦ id⟩
      · exact ⟨rfl, fun _ ↦ Or.inl, fun _ ↦ id⟩
  | write name =>
    have hne : n ≠ name := fun h ↦ hn (List.mem_singleton.2 h)
    exact ⟨S.now.put_of_ne hne _,
      fun b hb ↦ Or.inl (by simpa [perform, Function.update_of_ne hne] using hb), fun _ ↦ id⟩
  | fsync name =>
    refine ⟨rfl, fun b hb ↦ ?_, fun _ ↦ id⟩
    by_cases hname : n = name
    · subst hname
      exact Or.inr (by simpa [perform] using hb)
    · exact Or.inl (by simpa [perform, Function.update_of_ne hname] using hb)
  | rename src dst =>
    have hsrc : n ≠ src := fun h ↦ hn (h ▸ List.mem_cons_self)
    have hdst : n ≠ dst := fun h ↦ hn (h ▸ List.mem_cons_of_mem _ (List.mem_singleton.2 rfl))
    rw [perform]
    cases S.now src with
    | none => exact ⟨rfl, fun _ ↦ Or.inl, fun _ ↦ id⟩
    | some b =>
      refine ⟨?_, fun b hb ↦ Or.inl ?_, fun x hx ↦ ?_⟩
      · exact (Disk.put_of_ne _ hdst b).trans (Function.update_of_ne hsrc ..)
      · simpa [Function.update_of_ne hdst] using hb
      · simpa [Function.update_of_ne hdst, Function.update_of_ne hsrc] using hx
  | fsyncDirectory => exact ⟨rfl, fun _ ↦ Or.inl, fun _ hx ↦ hx.elim⟩
  | fclose | createDirectories => exact ⟨rfl, fun _ ↦ Or.inl, fun _ ↦ id⟩

/-- **The frame**: what is known of a name stays known while others are changed. -/
theorem Among.perform (h : S.Among n X) (hn : n ∉ a.written) : (Storage.perform a S).Among n X := by
  obtain ⟨hnow, hdata, hentry⟩ := perform_of_not_mem (S := S) hn
  refine ⟨hnow ▸ h.now, ?_⟩
  rintro x (hx | ⟨hnone, rfl⟩ | ⟨b, hsome, hb, rfl⟩)
  · exact h.may x (Or.inl (hentry x hx))
  · exact hnow.symm.trans hnone ▸ h.now
  · rw [hnow] at hsome
    rcases hdata b hb with hb | rfl
    · exact h.may _ (Or.inr (Or.inr ⟨b, hsome, hb, rfl⟩))
    · obtain ⟨b, hb⟩ := Option.isSome_iff_exists.1 hsome
      rw [Disk.content, hb, Option.getD_some]
      exact hb ▸ h.now

theorem Synced.perform (h : S.Synced n b) (hn : n ∉ a.written) :
    (Storage.perform a S).Synced n b := by
  obtain ⟨hnow, hdata, -⟩ := perform_of_not_mem (S := S) hn
  refine ⟨hnow.trans h.1, fun b' hb' ↦ (hdata b' hb').elim (h.2 b') fun hcontent ↦ ?_⟩
  rw [hcontent, Disk.content, h.1, Option.getD_some]

/-! ### Several actions -/

theorem performs_append (S : Storage) (acts acts' : List FileAction) :
    S.performs (acts ++ acts') = (S.performs acts).performs acts' := List.foldl_append

theorem now_performs (hn : ∀ a ∈ acts, n ∉ a.written) : (S.performs acts).now n = S.now n := by
  induction acts generalizing S with
  | nil => rfl
  | cons a acts ih =>
    rw [← (perform_of_not_mem (S := S) (hn a List.mem_cons_self)).1]
    exact ih fun a' ha' ↦ hn a' (List.mem_cons_of_mem _ ha')

theorem Among.performs (h : S.Among n X) (hn : ∀ a ∈ acts, n ∉ a.written) :
    (S.performs acts).Among n X := by
  induction acts generalizing S with
  | nil => exact h
  | cons a acts ih =>
    exact ih (h.perform (hn a List.mem_cons_self)) fun a' ha' ↦ hn a' (List.mem_cons_of_mem _ ha')

theorem Settled.performs (h : S.Settled n) (hn : ∀ a ∈ acts, n ∉ a.written) :
    (S.performs acts).Settled n := by
  rw [Settled, now_performs hn]
  exact Among.performs h hn

theorem Synced.performs (h : S.Synced n b) (hn : ∀ a ∈ acts, n ∉ a.written) :
    (S.performs acts).Synced n b := by
  induction acts generalizing S with
  | nil => exact h
  | cons a acts ih =>
    exact ih (h.perform (hn a List.mem_cons_self)) fun a' ha' ↦ hn a' (List.mem_cons_of_mem _ ha')

/-- A synced file is settled once its directory is. -/
theorem Synced.settled (h : S.Synced n b) : (Storage.perform .fsyncDirectory S).Settled n := by
  refine ⟨rfl, ?_⟩
  rintro x (hx | ⟨hnone, -⟩ | ⟨b', -, hb', rfl⟩)
  · exact hx.elim
  · exact absurd (h.1.symm.trans hnone) (Option.some_ne_none b)
  · exact (congrArg some (h.2 b' hb')).trans h.1.symm

theorem settled_ofDisk (d : Disk) (n : Bytes) : (ofDisk d).Settled n := by
  refine ⟨rfl, ?_⟩
  rintro x (hx | ⟨hnone, rfl⟩ | ⟨b, -, hb, rfl⟩)
  · exact hx.elim
  · exact hnone.symm
  · exact hb.symm

/-- A crash may leave what is in a file. -/
def Coherent (S : Storage) : Prop := ∀ n b, S.now n = some b → S.data n b

theorem coherent_ofDisk (d : Disk) : (ofDisk d).Coherent := fun _ _ ↦ id

theorem Coherent.perform (h : S.Coherent) (a : FileAction) : (Storage.perform a S).Coherent := by
  -- One file is changed, and may be left as it is.
  have hput : ∀ {S' : Storage} {name b}, S'.now = S.now.put name b → S'.data name b →
      (∀ n, n ≠ name → S'.data n = S.data n) → S'.Coherent := by
    intro S' name b hnow hdata hother n b' hb'
    rw [hnow] at hb'
    by_cases hn : n = name
    · rw [hn, Disk.put_self] at hb'
      rwa [hn, ← Option.some.inj hb']
    · rw [S.now.put_of_ne hn] at hb'
      rw [hother n hn]
      exact h n b' hb'
  cases a with
  | create name truncate =>
    rw [Storage.perform]
    cases S.now name with
    | none => exact hput rfl (by simp) fun n hn ↦ Function.update_of_ne hn ..
    | some _ =>
      cases truncate with
      | true => exact hput rfl (by simp) fun n hn ↦ Function.update_of_ne hn ..
      | false => exact h
  | write name bytes =>
    have hold : S.data name (S.now.content name) ∨ S.now name = none := by
      cases hname : S.now name with
      | none => exact Or.inr rfl
      | some b =>
        rw [Disk.content, hname]
        exact Or.inl (h name b hname)
    refine hput rfl ?_ fun n hn ↦ Function.update_of_ne hn ..
    simpa [Storage.perform] using ⟨_, hold, List.prefix_append _ bytes⟩
  | fsync name =>
    intro n b hb
    by_cases hn : n = name
    · have hcontent : S.now.content name = b := by
        rw [Disk.content, ← hn, show S.now n = some b from hb, Option.getD_some]
      simp [Storage.perform, hn, hcontent]
    · simpa [Storage.perform, Function.update_of_ne hn] using h n b hb
  | rename src dst =>
    rw [Storage.perform]
    cases hsrc : S.now src with
    | none => exact h
    | some b =>
      intro n b' hb'
      by_cases hdst : n = dst
      · obtain rfl := hdst
        obtain rfl := Option.some.inj ((Disk.put_self ..).symm.trans hb')
        simpa using h src b hsrc
      by_cases hn : n = src
      · have hnone : Disk.put (Function.update S.now src none) dst b n = none := by
          rw [Disk.put_of_ne _ hdst, hn, Function.update_self]
        cases hnone.symm.trans hb'
      · simp only [Disk.put, Function.update_of_ne hdst, Function.update_of_ne hn] at hb' ⊢
        exact h n b' hb'
  | fclose | fsyncDirectory | createDirectories => exact h

theorem Coherent.performs (h : S.Coherent) : (S.performs acts).Coherent := by
  induction acts generalizing S with
  | nil => exact h
  | cons a acts ih => exact ih (h.perform a)

/-- A crash may lose nothing. -/
theorem Coherent.survives (h : S.Coherent) : S.Survives S.now := by
  intro n
  cases hn : S.now n with
  | none => exact Or.inr (Or.inl ⟨hn, rfl⟩)
  | some b => exact Or.inr (Or.inr ⟨b, by simp [hn], h n b hn, rfl⟩)

/-- What survives of a settled name. -/
theorem Survives.eq (hd : S.Survives d) (h : S.Settled n) : d n = S.now n := h.may _ (hd n)

/-! ### Whole files -/

/-- The actions of `writeFile`. -/
def writeTrace (name bytes : Bytes) : List FileAction :=
  .create name true :: ((if bytes = [] then [] else [.write name bytes]) ++
    [.fsync name, .fclose name])

/-- The actions of `writeFiles`. -/
def filesTrace (files : List (Bytes × Bytes)) : List FileAction :=
  files.flatMap fun p ↦ writeTrace p.1 p.2

/-- Writing a file changes nothing else. -/
theorem eq_of_mem_writeTrace {name bytes : Bytes} (ha : a ∈ writeTrace name bytes)
    (hn : n ∈ a.written) : n = name := by
  rcases List.mem_cons.1 ha with rfl | ha
  · exact List.mem_singleton.1 hn
  rcases List.mem_append.1 ha with ha | ha
  · split_ifs at ha
    · cases ha
    · rw [List.mem_singleton.1 ha] at hn
      exact List.mem_singleton.1 hn
  · rcases List.mem_cons.1 ha with rfl | ha
    · cases hn
    · rw [List.mem_singleton.1 ha] at hn
      cases hn

theorem mem_of_mem_filesTrace {files : List (Bytes × Bytes)} (ha : a ∈ filesTrace files)
    (hn : n ∈ a.written) : n ∈ files.map Prod.fst := by
  obtain ⟨p, hp, ha⟩ := List.mem_flatMap.1 ha
  rw [eq_of_mem_writeTrace ha hn]
  exact List.mem_map_of_mem hp

/-- A file that was created anew is empty. -/
theorem now_create (S : Storage) (name : Bytes) :
    (perform (.create name true) S).now name = some [] := by
  rw [now_perform]
  exact Disk.put_self ..

/-- **A whole file** is synced when it was written. -/
theorem synced_writeTrace (S : Storage) (name bytes : Bytes) :
    (S.performs (writeTrace name bytes)).Synced name bytes := by
  have hnow := now_create S name
  have hsync : ∀ {S' : Storage}, S'.now name = some bytes →
      (S'.performs [.fsync name, .fclose name]).Synced name bytes := by
    intro S' h
    refine ⟨h, fun b hb ↦ ?_⟩
    have hcontent : S'.now.content name = bytes := by rw [Disk.content, h, Option.getD_some]
    simpa [performs, perform, hcontent] using hb
  rw [writeTrace]
  show ((perform (.create name true) S).performs _).Synced name bytes
  rw [performs_append]
  refine hsync ?_
  split_ifs with hempty
  · rw [hempty]
    exact hnow
  · show Disk.put _ name _ name = _
    rw [Disk.put_self, Disk.content, hnow]
    rfl

/-- **Whole files** are all synced when they were written. -/
theorem synced_filesTrace {files : List (Bytes × Bytes)} (h : (files.map Prod.fst).Nodup) :
    ∀ {S : Storage}, ∀ p ∈ files, (S.performs (filesTrace files)).Synced p.1 p.2 := by
  induction files with
  | nil => simp
  | cons p files ih =>
    obtain ⟨hnew, hnodup⟩ := List.nodup_cons.1 h
    intro S q hq
    show (S.performs (writeTrace p.1 p.2 ++ filesTrace files)).Synced q.1 q.2
    rw [performs_append]
    rcases List.mem_cons.1 hq with rfl | hq
    · exact (synced_writeTrace S q.1 q.2).performs fun a ha hmem ↦
        hnew (mem_of_mem_filesTrace ha hmem)
    · exact ih hnodup q hq

/-! ### Publishing files -/

/-- The files are written and synced, and a list of them is written aside. -/
def preparation (files : List (Bytes × Bytes)) (aside text : Bytes) : List FileAction :=
  filesTrace files ++ .fsyncDirectory :: writeTrace aside text

/-- The actions that replace a list of files: what was written aside is renamed over it. -/
def publicationTrace (files : List (Bytes × Bytes)) (aside list text : Bytes) : List FileAction :=
  preparation files aside text ++ [.rename aside list, .fsyncDirectory]

theorem prefix_append_cases {α : Type*} {l l₁ l₂ : List α} (h : l <+: l₁ ++ l₂) :
    l <+: l₁ ∨ ∃ t, l = l₁ ++ t ∧ t <+: l₂ := by
  rcases List.prefix_or_prefix_of_prefix h (List.prefix_append l₁ l₂) with h' | ⟨t, rfl⟩
  · exact Or.inl h'
  · exact Or.inr ⟨t, rfl, (List.prefix_append_right_inj l₁).1 h⟩

section Publication

variable {files : List (Bytes × Bytes)} {aside list text : Bytes} {rest : List FileAction}

theorem mem_of_mem_preparation (ha : a ∈ preparation files aside text) (hn : n ∈ a.written) :
    n ∈ files.map Prod.fst ∨ n = aside := by
  rcases List.mem_append.1 ha with ha | ha
  · exact Or.inl (mem_of_mem_filesTrace ha hn)
  rcases List.mem_cons.1 ha with rfl | ha
  · cases hn
  · exact Or.inr (eq_of_mem_writeTrace ha hn)

theorem mem_of_mem_publicationTrace (ha : a ∈ publicationTrace files aside list text)
    (hn : n ∈ a.written) : n ∈ files.map Prod.fst ∨ n = aside ∨ n = list := by
  rcases List.mem_append.1 ha with ha | ha
  · exact (mem_of_mem_preparation ha hn).imp_right Or.inl
  rcases List.mem_cons.1 ha with rfl | ha
  · exact Or.inr (by simpa [FileAction.written] using hn)
  · rw [List.mem_singleton.1 ha] at hn
    cases hn

variable (S text) in
/-- Before the rename the files are settled, and the list that was written aside is synced. -/
theorem settled_preparation (hnodup : (files.map Prod.fst).Nodup)
    (haside : aside ∉ files.map Prod.fst) :
    (∀ p ∈ files, (S.performs (preparation files aside text)).Settled p.1 ∧
      (S.performs (preparation files aside text)).now p.1 = some p.2) ∧
      (S.performs (preparation files aside text)).Synced aside text := by
  rw [preparation, performs_append]
  refine ⟨fun p hp ↦ ?_, synced_writeTrace _ aside text⟩
  have hsynced := synced_filesTrace hnodup (S := S) p hp
  have hother : ∀ a ∈ writeTrace aside text, p.1 ∉ a.written := fun a ha hmem ↦
    haside (eq_of_mem_writeTrace ha hmem ▸ List.mem_map_of_mem hp)
  exact ⟨hsynced.settled.performs hother,
    (now_performs (S := perform .fsyncDirectory _) hother).trans hsynced.1⟩

/-- Renaming a synced list over a settled one leaves one of the two. -/
theorem among_rename (hsynced : S.Synced aside text) (hlist : S.Settled list) :
    (perform (.rename aside list) S).Among list {S.now list, some text} := by
  rw [perform, hsynced.1]
  refine ⟨Or.inr (Disk.put_self ..), ?_⟩
  rintro x (hx | ⟨hnone, -⟩ | ⟨b, -, hb, rfl⟩)
  · exact Or.inl (hlist.may x (by simpa using hx))
  · exact absurd hnone (by simp)
  · exact Or.inr (congrArg some (hsynced.2 b (by simpa using hb)))

theorem synced_rename (hsynced : S.Synced aside text) :
    (perform (.rename aside list) S).Synced list text := by
  rw [perform, hsynced.1]
  exact ⟨Disk.put_self .., fun b hb ↦ hsynced.2 b (by simpa using hb)⟩

/-- **Publication is atomic**: a crash at any point leaves the old list, or the new one with its
files. -/
theorem publication (hnodup : (files.map Prod.fst).Nodup) (haside : aside ∉ files.map Prod.fst)
    (hlist : list ∉ files.map Prod.fst) (hne : list ≠ aside) (hsettled : S.Settled list)
    (hrest : ∀ a ∈ rest, list ∉ a.written ∧ ∀ p ∈ files, p.1 ∉ a.written)
    (hacts : acts <+: publicationTrace files aside list text ++ rest)
    (hd : (S.performs acts).Survives d) :
    d list = S.now list ∨ d list = some text ∧ ∀ p ∈ files, d p.1 = some p.2 := by
  have hbefore : ∀ a ∈ preparation files aside text, list ∉ a.written := fun a ha hmem ↦
    (mem_of_mem_preparation ha hmem).elim hlist hne
  rw [publicationTrace, List.append_assoc] at hacts
  rcases prefix_append_cases hacts with hacts | ⟨t, rfl, ht⟩
  · left
    have hother : ∀ a ∈ acts, list ∉ a.written := fun a ha ↦ hbefore a (hacts.subset ha)
    exact (hd.eq (hsettled.performs hother)).trans (now_performs hother)
  obtain ⟨hfiles, hsynced⟩ := settled_preparation S text hnodup haside
  have hnow := now_performs (S := S) hbefore
  have hstill := hsettled.performs hbefore
  rw [performs_append] at hd
  generalize S.performs (preparation files aside text) = S₁ at hfiles hsynced hnow hstill hd
  -- From the rename on, only the list is behind.
  cases t with
  | nil => exact Or.inl ((hd.eq hstill).trans hnow)
  | cons a t =>
    obtain ⟨rfl, htail⟩ := List.cons_prefix_cons.1 ht
    have hafter : ∀ a ∈ t, list ∉ a.written ∧ ∀ p ∈ files, p.1 ∉ a.written := by
      intro a ha
      rcases List.mem_cons.1 (htail.subset ha) with rfl | ha
      · exact ⟨List.not_mem_nil, fun _ _ ↦ List.not_mem_nil⟩
      · exact hrest a ha
    have hfound :=
      ((among_rename hsynced hstill).performs fun a ha ↦ (hafter a ha).1).may _ (hd list)
    refine hfound.imp (fun h ↦ h.trans hnow) fun h ↦ ⟨h, fun p hp ↦ ?_⟩
    have hmem := List.mem_map_of_mem (f := Prod.fst) hp
    have hother : ∀ a ∈ FileAction.rename aside list :: t, p.1 ∉ a.written := by
      intro a ha hp'
      rcases List.mem_cons.1 ha with rfl | ha
      · rcases List.mem_cons.1 hp' with heq | hp'
        · exact haside (heq ▸ hmem)
        · exact hlist (List.mem_singleton.1 hp' ▸ hmem)
      · exact (hafter a ha).2 p hp hp'
    obtain ⟨hfile, hbytes⟩ := hfiles p hp
    exact (hd.eq (hfile.performs hother)).trans ((now_performs hother).trans hbytes)

variable (S text) in
/-- What a whole publication leaves. -/
theorem now_publication (hnodup : (files.map Prod.fst).Nodup) (haside : aside ∉ files.map Prod.fst)
    (hlist : list ∉ files.map Prod.fst)
    (hrest : ∀ a ∈ rest, list ∉ a.written ∧ ∀ p ∈ files, p.1 ∉ a.written) :
    (S.performs (publicationTrace files aside list text ++ rest)).now list = some text ∧
      ∀ p ∈ files,
        (S.performs (publicationTrace files aside list text ++ rest)).now p.1 = some p.2 := by
  obtain ⟨hfiles, hsynced⟩ := settled_preparation S text hnodup haside
  rw [performs_append, publicationTrace, performs_append]
  refine ⟨(now_performs fun a ha ↦ (hrest a ha).1).trans (synced_rename hsynced).1, fun p hp ↦ ?_⟩
  have hmem := List.mem_map_of_mem (f := Prod.fst) hp
  have hother : ∀ a ∈ [FileAction.rename aside list, .fsyncDirectory], p.1 ∉ a.written := by
    have hne : p.1 ≠ aside := fun h ↦ haside (h ▸ hmem)
    have hne' : p.1 ≠ list := fun h ↦ hlist (h ▸ hmem)
    simp [FileAction.written, hne, hne']
  rw [now_performs fun a ha ↦ (hrest a ha).2 p hp, now_performs hother]
  exact (hfiles p hp).2

/-- Behind a whole publication nothing of it can be lost. -/
theorem settled_publication (hnodup : (files.map Prod.fst).Nodup)
    (haside : aside ∉ files.map Prod.fst) (hrest : ∀ a ∈ rest, n ∉ a.written) (hn : n ≠ aside)
    (h : n = list ∨ n ∈ files.map Prod.fst ∨ S.Settled n) :
    (S.performs (publicationTrace files aside list text ++ rest)).Settled n := by
  obtain ⟨hfiles, hsynced⟩ := settled_preparation S text hnodup haside
  rw [performs_append]
  refine Settled.performs ?_ hrest
  rw [publicationTrace, performs_append]
  by_cases hlist : n = list
  · obtain rfl := hlist
    exact (synced_rename hsynced).settled
  have hother : ∀ a ∈ [FileAction.rename aside list, .fsyncDirectory], n ∉ a.written := by
    simp [FileAction.written, hn, hlist]
  refine Settled.performs ?_ hother
  by_cases hfile : n ∈ files.map Prod.fst
  · obtain ⟨p, hp, rfl⟩ := List.mem_map.1 hfile
    exact (hfiles p hp).1
  · refine ((h.resolve_left hlist).resolve_left hfile).performs fun a ha hmem ↦ ?_
    exact (mem_of_mem_preparation ha hmem).elim hfile hn

end Publication

end Storage

/-! ### Programs -/

/-- The actions of a call. -/
def FileOp.actions : FileOp → List FileAction
  | act a => [a]
  | stat _ | load _ => []

/-- The actions of a program, when nothing fails. -/
def trace {α : Type} : Prog FileOp FileOp.Result α → Disk → List FileAction
  | .ret _, _ => []
  | .call op k, d => op.actions ++ trace (k (reply op d).1) (reply op d).2

/-- The world of the storage: no call fails. -/
def stored : World FileOp FileOp.Result Storage where
  returns op S r S' := (reply op S.now).1 = r ∧ S' = S.performs op.actions
  stops _ _ _ := False

section Programs

variable {α β : Type} {p : Prog FileOp FileOp.Result α} {S S' : Storage} {a : α}

theorem now_performs_actions (op : FileOp) (S : Storage) :
    (S.performs op.actions).now = (reply op S.now).2 := by
  cases op with
  | act a => exact Storage.now_perform a S
  | stat | load => rfl

/-- **A program leaves** what its actions leave. -/
theorem returns_stored_iff : p.Returns stored S a S' ↔
    (run p S.now).1 = a ∧ S' = S.performs (trace p S.now) := by
  induction p generalizing S with
  | ret b => exact and_congr_right' eq_comm
  | call op k ih =>
    have hnow := now_performs_actions op S
    constructor
    · rintro ⟨r, S₁, ⟨rfl, rfl⟩, hk⟩
      obtain ⟨ha, rfl⟩ := (ih _).1 hk
      rw [trace, Storage.performs_append, run, ← hnow]
      exact ⟨ha, rfl⟩
    · rintro ⟨ha, rfl⟩
      refine ⟨_, _, ⟨rfl, rfl⟩, (ih _).2 ⟨?_, ?_⟩⟩
      · rw [hnow]
        exact ha
      · rw [trace, Storage.performs_append, hnow]

/-- **A crash leaves** what the first of these actions leave. -/
theorem stops_stored_iff : p.Stops stored S S' ↔
    ∃ acts, acts <+: trace p S.now ∧ S' = S.performs acts := by
  induction p generalizing S with
  | ret b =>
    constructor
    · rintro rfl
      exact ⟨[], List.nil_prefix, rfl⟩
    · rintro ⟨acts, hacts, rfl⟩
      rw [List.prefix_nil.1 hacts]
      rfl
  | call op k ih =>
    have hnow := now_performs_actions op S
    constructor
    · rintro (rfl | hstop | ⟨r, S₁, ⟨rfl, rfl⟩, hk⟩)
      · exact ⟨[], List.nil_prefix, rfl⟩
      · exact hstop.elim
      · obtain ⟨acts, hacts, rfl⟩ := (ih _).1 hk
        rw [hnow] at hacts
        refine ⟨op.actions ++ acts, (List.prefix_append_right_inj _).2 hacts, ?_⟩
        rw [Storage.performs_append]
    · rintro ⟨acts, hacts, rfl⟩
      rcases Storage.prefix_append_cases hacts with hacts | ⟨acts, rfl, hacts⟩
      · -- A call has one action at most.
        have hone : acts = [] ∨ acts = op.actions ++ [] := by
          cases op with
          | stat | load => exact Or.inl (List.prefix_nil.1 hacts)
          | act a =>
            rcases List.prefix_cons_iff.1 hacts with rfl | ⟨t, rfl, ht⟩
            · exact Or.inl rfl
            · exact Or.inr (by rw [List.prefix_nil.1 ht]; rfl)
        rcases hone with rfl | rfl
        · exact Or.inl rfl
        · refine Or.inr (Or.inr ⟨_, _, ⟨rfl, rfl⟩, (ih _).2 ⟨[], List.nil_prefix, ?_⟩⟩)
          rw [Storage.performs_append]
      · refine Or.inr (Or.inr ⟨_, _, ⟨rfl, rfl⟩, (ih _).2 ⟨acts, ?_, ?_⟩⟩)
        · rwa [hnow]
        · rw [Storage.performs_append]

/-- A program reads what its actions have written. -/
theorem now_performs_trace (p : Prog FileOp FileOp.Result α) (S : Storage) :
    (S.performs (trace p S.now)).now = (run p S.now).2 := by
  induction p generalizing S with
  | ret a => rfl
  | call op k ih =>
    rw [trace, Storage.performs_append, run, ← now_performs_actions op S]
    exact ih _ _

theorem trace_bind (p : Prog FileOp FileOp.Result α) (f : α → Prog FileOp FileOp.Result β)
    (d : Disk) : trace (p.bind f) d = trace p d ++ trace (f (run p d).1) (run p d).2 := by
  induction p generalizing d with
  | ret a => rfl
  | call op k ih =>
    rw [trace, List.append_assoc, run, ← ih]
    rfl

/-! ### Methods -/

section Methods

variable {σ τ : Type} {s s' : σ} {d d' : Disk}

theorem self_bind (f : σ → FileMethod σ α) (s : σ) : (Method.self >>= f) s = f s s := rfl

theorem become_bind (f : Unit → FileMethod σ α) (s s' : σ) :
    (Method.become s' >>= f) s = f () s' := rfl

/-- A method that goes on performs what follows. -/
theorem trace_seq {m : FileMethod σ α} {f : α → FileMethod σ β}
    (h : run (m s) d = ((.ok a, s'), d')) :
    trace ((m >>= f) s) d = trace (m s) d ++ trace (f a s') d' := by
  refine (trace_bind _ _ d).trans ?_
  rw [h]
  rfl

theorem trace_seq_error {m : FileMethod σ α} {f : α → FileMethod σ β} {e : Status}
    (h : run (m s) d = ((.error e, s'), d')) : trace ((m >>= f) s) d = trace (m s) d := by
  refine (trace_bind _ _ d).trans ?_
  rw [h]
  exact List.append_nil _

/-- A method that only reads. -/
def Still (m : FileMethod σ α) : Prop := ∀ s d, trace (m s) d = []

theorem Still.bind {m : FileMethod σ α} {f : α → FileMethod σ β} (h : Still m)
    (h' : ∀ a, Still (f a)) : Still (m >>= f) := by
  intro s d
  refine (trace_bind _ _ d).trans ?_
  rw [h, List.nil_append]
  obtain ⟨⟨r, s'⟩, d'⟩ := run (m s) d
  cases r with
  | error e => rfl
  | ok a => exact h' a s' d'

theorem Still.attempt {m : FileMethod σ α} (h : Still m) : Still (Method.attempt m) := by
  intro s d
  refine (trace_bind _ _ d).trans ?_
  rw [h]
  rfl

theorem still_pure (a : α) : Still (pure a : FileMethod σ α) := fun _ _ ↦ rfl

theorem still_done (r : Expected α) : Still (Method.done r : FileMethod σ α) := fun _ _ ↦ rfl

theorem still_readFile (name : Bytes) : Still (Directory.readFile name : FileMethod σ Bytes) :=
  fun _ _ ↦ rfl

/-- The actions of a program change these names only. -/
def Writes (names : List Bytes) (p : Prog FileOp FileOp.Result α) (d : Disk) : Prop :=
  ∀ a ∈ trace p d, a.written ⊆ names

/-- A method that changes these names only. -/
def WritesOnly (names : List Bytes) (m : FileMethod σ α) : Prop := ∀ s d, Writes names (m s) d

section Writing

variable {names : List Bytes} {m : FileMethod σ α}

theorem Writes.bind {f : α → Prog FileOp FileOp.Result β} (h : Writes names p d)
    (h' : Writes names (f (run p d).1) (run p d).2) : Writes names (p.bind f) d := by
  intro a ha
  rw [trace_bind] at ha
  exact (List.mem_append.1 ha).elim (h a) (h' a)

theorem Writes.seq {f : α → FileMethod σ β} (h : Writes names (m s) d)
    (h' : ∀ a s' d', Writes names (f a s') d') : Writes names ((m >>= f) s) d := by
  refine h.bind ?_
  obtain ⟨⟨r, s'⟩, d'⟩ := run (m s) d
  cases r with
  | error e => exact fun a ha ↦ absurd ha List.not_mem_nil
  | ok a => exact h' a s' d'

theorem Writes.mono {names' : List Bytes} (h : Writes names p d) (hsub : names ⊆ names') :
    Writes names' p d := fun a ha ↦ List.Subset.trans (h a ha) hsub

theorem WritesOnly.bind {f : α → FileMethod σ β} (h : WritesOnly names m)
    (h' : ∀ a, WritesOnly names (f a)) : WritesOnly names (m >>= f) :=
  fun s d ↦ (h s d).seq h'

theorem WritesOnly.attempt (h : WritesOnly names m) : WritesOnly names (Method.attempt m) :=
  fun s d ↦ (h s d).bind fun _ ha ↦ absurd ha List.not_mem_nil

theorem WritesOnly.owning {m : FileMethod τ α} (h : WritesOnly names m) (t : τ) :
    WritesOnly names (Method.owning t m : FileMethod σ _) :=
  fun _ d ↦ (h t d).bind fun _ ha ↦ absurd ha List.not_mem_nil

theorem Still.writesOnly (h : Still m) (names : List Bytes) : WritesOnly names m := by
  intro s d a ha
  rw [h s d] at ha
  cases ha

theorem writesOnly_pure (names : List Bytes) (a : α) : WritesOnly names (pure a : FileMethod σ α) :=
  (still_pure a).writesOnly names

theorem writesOnly_become (names : List Bytes) (s : σ) : WritesOnly names (Method.become s) :=
  Still.writesOnly (fun _ _ ↦ rfl) names

theorem writesOnly_done (names : List Bytes) (r : Expected α) :
    WritesOnly names (Method.done r : FileMethod σ α) := (still_done r).writesOnly names

theorem writesOnly_self (names : List Bytes) : WritesOnly names (Method.self : FileMethod σ σ) :=
  Still.writesOnly (fun _ _ ↦ rfl) names

theorem writesOnly_act {a : FileAction} (h : a.written ⊆ names) :
    WritesOnly names (act a : FileMethod σ Unit) := fun s d a' ha' ↦ by
  rwa [List.mem_singleton.1 (show a' ∈ [a] from ha')]

theorem FileSink.writesOnly_sync (names : List Bytes) : WritesOnly names FileSink.sync := by
  refine (writesOnly_self names).bind fun sink ↦ ?_
  split_ifs
  · exact writesOnly_done names _
  · exact writesOnly_act (List.nil_subset _)

/-- Closing a file changes none. -/
theorem FileSink.writesOnly_close (names : List Bytes) : WritesOnly names FileSink.close := by
  refine (writesOnly_self names).bind fun sink ↦ ?_
  split_ifs
  · exact writesOnly_pure names _
  refine (FileSink.writesOnly_sync names).attempt.bind fun st ↦
    (writesOnly_act (List.nil_subset _)).attempt.bind fun closed ↦
      (writesOnly_become names _).bind fun _ ↦ ?_
  cases st with
  | error | ok => exact writesOnly_done names _

end Writing

/-! ### Settled files -/

/-- A method that leaves a file settled, if it returns. -/
def Settling (n : Bytes) (m : FileMethod σ α) : Prop :=
  ∀ s (S : Storage), S.Settled n → (S.performs (trace (m s) S.now)).Settled n

section Settled

variable {n : Bytes} {names : List Bytes} {m : FileMethod σ α}

/-- A file that is not written stays settled. -/
theorem Writes.settled (h : Writes names p S.now) (hn : n ∉ names) (hS : S.Settled n) :
    (S.performs (trace p S.now)).Settled n :=
  hS.performs fun a ha hmem ↦ hn (h a ha hmem)

theorem WritesOnly.settling (h : WritesOnly names m) (hn : n ∉ names) : Settling n m :=
  fun s S ↦ (h s S.now).settled hn

theorem Still.settling (h : Still m) (n : Bytes) : Settling n m :=
  (h.writesOnly []).settling List.not_mem_nil

theorem Settling.bind {f : α → FileMethod σ β} (h : Settling n m) (h' : ∀ a, Settling n (f a)) :
    Settling n (m >>= f) := by
  intro s S hS
  have hfirst := h s S hS
  have hnow := now_performs_trace (m s) S
  have htrace : trace ((m >>= f) s) S.now = _ := trace_bind (m s) _ S.now
  rw [htrace, Storage.performs_append]
  generalize S.performs (trace (m s) S.now) = S₁ at hfirst hnow
  rw [← hnow]
  obtain ⟨⟨r, s'⟩, _⟩ := run (m s) S.now
  cases r with
  | error e => exact hfirst
  | ok a => exact h' a s' S₁ hfirst

end Settled

/-! ### What is written under faults -/

section Frames

variable {names : List Bytes} {d₁ : Disk}

theorem FileAction.agreeOff_exec {act : FileAction} (h : act.written ⊆ names) (d : Disk) :
    AgreeOff names d (act.exec d).2 := by
  cases act with
  | create name | write name => exact agreeOff_put (h (List.mem_singleton_self _)) _ _
  | fsync | fclose | fsyncDirectory | createDirectories => exact AgreeOff.refl names d
  | rename src dst =>
    have hsrc : src ∈ names := h List.mem_cons_self
    have hdst : dst ∈ names := h (List.mem_cons_of_mem _ (List.mem_singleton_self _))
    rw [FileAction.exec]
    cases d src with
    | none => exact AgreeOff.refl names d
    | some b =>
      intro n hn
      have hne : n ≠ dst := fun heq ↦ hn (heq ▸ hdst)
      have hne' : n ≠ src := fun heq ↦ hn (heq ▸ hsrc)
      show Disk.put (Function.update d src none) dst b n = d n
      rw [Disk.put_of_ne _ hne, Function.update_of_ne hne']

theorem FileAction.agreeOff_partial {act : FileAction} (h : act.written ⊆ names)
    (hpart : act.Partial d d') : AgreeOff names d d' := by
  cases act with
  | write name =>
    obtain ⟨k, rfl⟩ := hpart
    exact agreeOff_put (h (List.mem_singleton_self _)) _ _
  | create | fsync | fclose | rename | fsyncDirectory | createDirectories =>
    obtain rfl := hpart
    exact AgreeOff.refl names d'

/-- **The frame rule**: when no call fails, a program leaves the other files alone, wherever a crash
may stop it. -/
theorem Writes.wp {F : Faults} (hF : F.Quiet) (h : Writes names p d₁) (hd : AgreeOff names d d₁) :
    p.wp (files F) (fun _ d' ↦ AgreeOff names d d') (AgreeOff names d) d₁ := by
  induction p generalizing d₁ with
  | ret a => exact ⟨hd, hd⟩
  | call op k ih =>
    have hwritten : ∀ a ∈ op.actions, a.written ⊆ names :=
      fun a ha ↦ h a (List.mem_append_left _ ha)
    have hrest : Writes names (k (reply op d₁).1) (reply op d₁).2 :=
      fun a ha ↦ h a (List.mem_append_right _ ha)
    refine ⟨hd, fun d' hcut ↦ ?_, fun r d' hret ↦ ?_⟩
    · cases op with
      | stat | load => exact hcut.elim
      | act a =>
        exact hd.trans (FileAction.agreeOff_partial (hwritten a (List.mem_singleton_self a)) hcut.2)
    · have hreply : reply op d₁ = (r, d') := by
        cases op with
        | stat name | load name =>
          obtain ⟨rfl, hr⟩ := hret
          exact Prod.ext (hr.resolve_right fun hf ↦ hF _ hf.1).symm rfl
        | act a => exact (hret.resolve_right fun hf ↦ hF _ hf.1).symm
      rw [hreply] at hrest
      refine ih r hrest (hd.trans ?_)
      cases op with
      | stat name | load name =>
        rw [hret.1]
        exact AgreeOff.refl names d₁
      | act a =>
        have hexec := FileAction.agreeOff_exec (hwritten a (List.mem_singleton_self a)) d₁
        rwa [show a.exec d₁ = (r, d') from hreply] at hexec

/-- What such a program leaves when it returns. -/
theorem Writes.returns {F : Faults} (hF : F.Quiet) (h : Writes names p d)
    (hret : p.Returns (files F) d a d') : AgreeOff names d d' :=
  (Prog.wp_iff.1 (h.wp hF (AgreeOff.refl names d))).1 a d' hret

/-- What such a program leaves when a crash stops it. -/
theorem Writes.stops {F : Faults} (hF : F.Quiet) (h : Writes names p d)
    (hstop : p.Stops (files F) d d') : AgreeOff names d d' :=
  (Prog.wp_iff.1 (h.wp hF (AgreeOff.refl names d))).2 d' hstop

end Frames

theorem trace_writeFile (name bytes : Bytes) (s : σ) (d : Disk) :
    trace (writeFile name bytes s) d = Storage.writeTrace name bytes := by
  cases bytes with
  | nil | cons => rfl

theorem run_writeFile (name bytes : Bytes) (s : σ) (d : Disk) :
    run (writeFile name bytes s) d = ((.ok (), s), d.put name bytes) :=
  run_of_returns (returns_writeFile Faults.none s name bytes d)

theorem run_trace_writeFiles (files : List (Bytes × Bytes)) (s : σ) :
    ∀ d, (∃ d', run (writeFiles files s) d = ((.ok (), s), d')) ∧
      trace (writeFiles files s) d = Storage.filesTrace files := by
  induction files with
  | nil => exact fun d ↦ ⟨⟨d, rfl⟩, rfl⟩
  | cons p files ih =>
    intro d
    have hrun := run_writeFile p.1 p.2 s d
    obtain ⟨hrest, htrace⟩ := ih (d.put p.1 p.2)
    refine ⟨?_, ?_⟩
    · obtain ⟨d', hd'⟩ := hrest
      exact ⟨d', (run_seq hrun).trans hd'⟩
    · rw [writeFiles, trace_seq hrun, htrace, trace_writeFile]
      rfl

end Methods

end Programs

end Spp.Store
