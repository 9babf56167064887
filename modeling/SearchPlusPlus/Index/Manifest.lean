import SearchPlusPlus.Json.RoundTrip
import SearchPlusPlus.Store.FileIo

/-!
# The manifest

`LoadManifest` and `SaveManifest`: the list of sealed segments, written to a temporary file that
is then renamed over the old manifest. A saved manifest is loaded back (`ofText_toText`), and
`wp_saveManifest` says which manifests a failure or a crash can leave: the old one until the
rename, the new one from there on.
-/

namespace Spp.Index

open Json Store

/-- `ManifestSegment`. -/
structure ManifestSegment where
  stem : Bytes
  docCount : ℕ := 0
  deriving DecidableEq

/-- `Manifest`. -/
structure Manifest where
  generation : Generation := 0
  segments : List ManifestSegment := []
  deriving DecidableEq

/-- `kManifestName`. -/
def kManifestName : Bytes := str "manifest"

/-- `kManifestTmpName`. -/
def kManifestTmpName : Bytes := str "manifest.tmp"

/-- One round of the segment loop of `LoadManifest`. -/
def segmentOfJson (seg : JsonValue) : Expected ManifestSegment :=
  match seg with
  | .object _ =>
    match seg.findString (str "stem") with
    | some stem => .ok
        { stem
          docCount := ((seg.findInt (str "doc_count")).map
            fun i ↦ i.toUInt64.toNat % 4294967296).getD 0 }
    | none => .error (.corruption (str "manifest: segment missing stem"))
  | _ => .error (.corruption (str "manifest: segment must be object"))

/-- What `LoadManifest` makes of the parsed file. -/
def Manifest.ofJson (v : JsonValue) : Expected Manifest :=
  match v with
  | .object _ => do
    let segments ← match v.find (str "segments") with
      | some (.array segs) => segs.mapM segmentOfJson
      | _ => .ok []
    .ok
      { generation := ((v.findInt (str "generation")).map Int64.toUInt64).getD 0
        segments }
  | _ => .error (.corruption (str "manifest: expected object"))

/-- The object of a segment in `SaveManifest`. -/
def segmentToJson (s : ManifestSegment) : JsonValue :=
  mkObject [
    (str "stem", .string s.stem),
    (str "doc_count", .int (Int64.ofNat s.docCount))]

/-- The document of `SaveManifest`. -/
def Manifest.toJson (m : Manifest) : JsonValue :=
  mkObject [
    (str "generation", .int m.generation.toInt64),
    (str "segments", .array (m.segments.map segmentToJson))]

variable [LibcDecimal]

/-- The text of `SaveManifest`. -/
def Manifest.toText (m : Manifest) : Bytes := serializePretty m.toJson 2

/-- What `LoadManifest` makes of the bytes of the file. -/
def Manifest.ofText (text : Bytes) : Expected Manifest := do
  let v ← parse text
  ofJson v

open Method in
/-- `LoadManifest`. -/
def loadManifest {σ : Type} : FileMethod σ Manifest := do
  let found ← Directory.fileExists kManifestName
  if found then
    let text ← Directory.readFile kManifestName
    done (Manifest.ofText text)
  else pure {}

/-- `SaveManifest`. -/
def saveManifest {σ : Type} (m : Manifest) : FileMethod σ Unit := do
  writeFile kManifestTmpName m.toText
  Directory.atomicRename kManifestTmpName kManifestName
  Directory.sync

/-! ### The round trip -/

omit [LibcDecimal] in
theorem segmentToJson_eq (s : ManifestSegment) :
    segmentToJson s = .object [
      (str "doc_count", .int (Int64.ofNat s.docCount)), (str "stem", .string s.stem)] := by
  rfl

omit [LibcDecimal] in
theorem Manifest.toJson_eq (m : Manifest) :
    m.toJson = .object [
      (str "generation", .int m.generation.toInt64),
      (str "segments", .array (m.segments.map segmentToJson))] := by
  rfl

omit [LibcDecimal] in
theorem segmentOfJson_toJson {s : ManifestSegment} (h : s.docCount < 2 ^ 32) :
    segmentOfJson (segmentToJson s) = .ok s := by
  have hcount : (UInt64.ofNat s.docCount).toNat % 4294967296 = s.docCount := by
    rw [UInt64.toNat_ofNat']
    omega
  have hstem : (segmentToJson s).findString (str "stem") = some s.stem := rfl
  have hdocs : (segmentToJson s).findInt (str "doc_count") = some (Int64.ofNat s.docCount) := rfl
  rw [segmentToJson_eq] at hstem hdocs ⊢
  simp only [segmentOfJson, hstem, hdocs, Option.map_some, Option.getD_some,
    Int64.toUInt64_ofNat', hcount]

omit [LibcDecimal] in
theorem mapM_segmentOfJson {l : List ManifestSegment} (h : ∀ s ∈ l, s.docCount < 2 ^ 32) :
    (l.map segmentToJson).mapM segmentOfJson = .ok l := by
  induction l with
  | nil => rfl
  | cons s l ih =>
    rw [List.map_cons, List.mapM_cons, segmentOfJson_toJson (h s List.mem_cons_self),
      ih fun t ht ↦ h t (List.mem_cons_of_mem _ ht)]
    rfl

omit [LibcDecimal] in
theorem Manifest.ofJson_toJson {m : Manifest} (h : ∀ s ∈ m.segments, s.docCount < 2 ^ 32) :
    ofJson m.toJson = .ok m := by
  have hsegs : m.toJson.find (str "segments") = some (.array (m.segments.map segmentToJson)) := rfl
  have hgen : m.toJson.findInt (str "generation") = some m.generation.toInt64 := rfl
  rw [toJson_eq] at hsegs hgen ⊢
  simp only [ofJson, hsegs, hgen, mapM_segmentOfJson h, bind, Except.bind, Option.map_some,
    Option.getD_some, UInt64.toUInt64_toInt64]

omit [LibcDecimal] in
theorem Manifest.toJson_wellFormed (m : Manifest) : m.toJson.WellFormed := by
  have hsegs : ∀ l : List ManifestSegment,
      JsonValue.WellFormedElems (l.map segmentToJson) := by
    intro l
    induction l with
    | nil => trivial
    | cons s l ih => exact ⟨JsonValue.wellFormed_mkObject (by simp [JsonValue.WellFormed]), ih⟩
  refine JsonValue.wellFormed_mkObject fun p hp ↦ ?_
  simp only [List.mem_cons, List.not_mem_nil, or_false] at hp
  rcases hp with rfl | rfl
  · trivial
  · exact hsegs m.segments

omit [LibcDecimal] in
theorem Manifest.toJson_noDoubles (m : Manifest) : NoDoubles m.toJson := by
  have hsegs : ∀ l : List ManifestSegment, NoDoublesElems (l.map segmentToJson) := by
    intro l
    induction l with
    | nil => trivial
    | cons s l ih =>
      refine ⟨?_, ih⟩
      rw [segmentToJson_eq]
      exact ⟨trivial, trivial, trivial⟩
  rw [toJson_eq]
  exact ⟨trivial, hsegs m.segments, trivial⟩

/-- **A saved manifest is loaded back.** -/
theorem Manifest.ofText_toText {m : Manifest} (h : ∀ s ∈ m.segments, s.docCount < 2 ^ 32) :
    ofText m.toText = .ok m := by
  rw [ofText, toText, parse_serializePretty_of_noDoubles m.toJson_wellFormed m.toJson_noDoubles]
  exact ofJson_toJson h

/-! ### What the functions do -/

/-- The manifest of a disk: empty at generation zero when there is no file. -/
def Manifest.ofDisk (d : Disk) : Expected Manifest :=
  match d kManifestName with
  | some text => ofText text
  | none => .ok {}

section Rules

variable {F : Faults} {σ : Type} {s : σ} {d : Disk} {C : Disk → Prop}

/-- `LoadManifest` reads the disk; a failing existence test counts as no manifest. -/
theorem wp_loadManifest {Q : Expected Manifest → σ → Disk → Prop} (hC : C d)
    (hdone : Q (Manifest.ofDisk d) s d)
    (hstat : F.fails (.stat kManifestName) → Q (.ok {}) s d)
    (hload : F.fails (.load kManifestName) → ∀ m, Q (.error (.ioError m)) s d) :
    (loadManifest : FileMethod σ Manifest).wp (files F) s Q C d := by
  refine Method.wp_bind.2 (Directory.wp_fileExists hC ?_ ?_)
  · cases h : d kManifestName with
    | none =>
      rw [Manifest.ofDisk, h] at hdone
      exact ⟨hdone, hC⟩
    | some text =>
      rw [Manifest.ofDisk, h] at hdone
      refine Method.wp_bind.2 (Directory.wp_readFile hC ?_ hload)
      rw [loadReply_of_some h]
      exact ⟨hdone, hC⟩
  · exact fun hf ↦ ⟨hstat hf, hC⟩

/-- The actions of `saveManifest` up to and with the rename. -/
def publishActions (m : Manifest) : List FileAction :=
  writeFileActions kManifestTmpName m.toText ++ [.rename kManifestTmpName kManifestName]

/-- The new manifest is in place. -/
structure Published (m : Manifest) (d d' : Disk) : Prop where
  agree : AgreeOff [kManifestTmpName, kManifestName] d d'
  manifest : d' kManifestName = some m.toText

/-- **`SaveManifest`**: until the rename the old manifest is there, from the rename on the new
one. -/
theorem wp_saveManifest {m : Manifest} {Q : Expected Unit → σ → Disk → Prop}
    (hC : ∀ d', AgreeOff [kManifestTmpName] d d' → C d')
    (hC' : ∀ d', Published m d d' → C d')
    (hdone : ∀ d', Published m d d' → Q (.ok ()) s d')
    (hfail : (∃ a ∈ publishActions m, F.fails (.act a)) → ∀ e d',
      AgreeOff [kManifestTmpName] d d' → Q (.error (.ioError e)) s d')
    (hsync : F.fails (.act .fsyncDirectory) → ∀ e d', Published m d d' →
      Q (.error (.ioError e)) s d') :
    (saveManifest m : FileMethod σ Unit).wp (files F) s Q C d := by
  have hput : ∀ x, AgreeOff [kManifestTmpName] d (d.put kManifestTmpName x) :=
    agreeOff_put (List.mem_singleton.2 rfl) d
  have hstart := hC d (AgreeOff.refl _ _)
  refine Method.wp_bind.2 (wp_writeFile hstart (fun x _ ↦ hC _ (hput x)) ?_ ?_)
  · have hne : kManifestName ≠ kManifestTmpName := by decide
    -- The rename moves the written text over the manifest.
    have hexec : (FileAction.rename kManifestTmpName kManifestName).exec
        (d.put kManifestTmpName m.toText) =
          (.ok (), Disk.put (Function.update (d.put kManifestTmpName m.toText) kManifestTmpName
            none) kManifestName m.toText) := by
      simp only [FileAction.exec, Disk.put_self]
    have hpub : Published m d (Disk.put (Function.update (d.put kManifestTmpName m.toText)
        kManifestTmpName none) kManifestName m.toText) := by
      refine ⟨fun n hn ↦ ?_, Disk.put_self ..⟩
      simp only [List.mem_cons, List.not_mem_nil, or_false, not_or] at hn
      rw [Disk.put_of_ne _ hn.2, Function.update_of_ne hn.1, Disk.put_of_ne _ hn.1]
    refine Method.wp_bind.2 (wp_act (hC _ (hput _)) ?_ ?_ ?_)
    · rintro - d' rfl
      exact hC _ (hput _)
    · rw [hexec]
      refine ⟨wp_act_still rfl (fun _ ↦ id) (hC' _ hpub) (hdone _ hpub) ?_, hC' _ hpub⟩
      exact fun hf e ↦ hsync hf e _ hpub
    · rintro hf e d' rfl
      refine ⟨hfail ⟨_, by simp [publishActions], hf⟩ e _ (hput _), hC _ (hput _)⟩
  · rintro ⟨a, ha, hf⟩ e d' hd'
    refine hfail ⟨a, List.mem_append_left _ ha, hf⟩ e d' ?_
    rcases hd' with rfl | ⟨x, rfl⟩
    · exact AgreeOff.refl _ _
    · exact hput x

end Rules

end Spp.Index
