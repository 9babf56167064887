import SearchPlusPlus.Index.Manifest
import SearchPlusPlus.Index.SchemaRoundTrip
import SearchPlusPlus.Index.SegmentAgreement
import SearchPlusPlus.Index.Translog

/-!
# The index writer

`IndexWriter`: documents go to the translog and into the in-memory segment; `Refresh` seals that
segment, lists it in the manifest and truncates the translog; `Open` loads the manifest and
replays the translog. The mutex makes every method atomic for the others, so a method is one
program here.

The second half says once what each method can do, with every failure and every crash point
(`wp_addDocument`, `wp_refresh`, `wp_open`); the invariants of whole runs are derived from that.
-/

namespace Spp.Index

open Json Store

/-- `kSchemaFilenameDefault`. -/
def kSchemaFilename : Bytes := str "schema.json"

/-- `%0<width>llu`. -/
def padDecimal (width n : ℕ) : Bytes :=
  List.replicate (width - (decimal n).length) 48 ++ decimal n

/-- `MakeSegmentStem`. -/
def makeSegmentStem (gen : Generation) (localId : UInt32) : Bytes :=
  str "seg-" ++ padDecimal 20 gen.toNat ++ str "-" ++ padDecimal 10 localId.toNat

/-- `IndexReader`. -/
structure IndexReader where
  schema : Schema
  segments : List SegmentReader

/-- `total_doc_count`, a sum of 32-bit values. -/
def IndexReader.totalDocCount (r : IndexReader) : ℕ :=
  (r.segments.map (·.docCount)).sum % 4294967296

/-- `IndexWriter`. -/
structure IndexWriter where
  schema : Schema
  mutableSegment : MutableSegment
  translog : Option Translog
  sealedSegments : List SegmentReader
  currentGen : Generation
  nextSegmentId : UInt32
  publishedReader : IndexReader

section Json

variable [LibcDecimal]

/-- The fields of `DocToJson`: a field named like the id overwrites it. -/
def docFields (doc : Document) : SortedMap Bytes Bytes :=
  doc.fields.toList.foldl (fun o p ↦ o.insert p.1 p.2)
    (SortedMap.empty.insert Schema.kIdField doc.id)

/-- `DocToJson`. -/
def docToJson (doc : Document) : Bytes := serialize (ofStrings (docFields doc))

/-- One round of the loop of `DocFromJson`. -/
def addMember (doc : Document) (p : Bytes × JsonValue) : Document :=
  match p.2 with
  | .string v =>
    if p.1 = Schema.kIdField then { doc with id := v }
    else { doc with fields := doc.fields.insert p.1 v }
  | _ => doc

/-- `DocFromJson`. -/
def docFromJson (json : Bytes) : Expected Document := do
  let v ← parse json
  match v with
  | .object o =>
    let doc := o.foldl addMember {}
    if doc.id = [] then .error (.corruption (str "translog record: missing _id")) else .ok doc
  | _ => .error (.corruption (str "translog record: expected object"))

/-- The record `AddDocument` logs. -/
def logRecord (doc : Document) (rawJson : Bytes) : Bytes :=
  if rawJson = [] then docToJson doc else rawJson

/-- The loop of `ReplayTranslog`. -/
def replayRecords : List Bytes → MutableSegment → Expected MutableSegment
  | [], seg => .ok seg
  | rec :: recs, seg =>
    match docFromJson rec with
    | .error _ => replayRecords recs seg
    | .ok doc => do
      let (seg, _) ← seg.addDocument doc
      replayRecords recs seg

end Json

/-- The manifest of a list of sealed segments. -/
def manifestOf (gen : Generation) (segments : List SegmentReader) : Manifest :=
  { generation := gen, segments := segments.map fun s ↦ { stem := s.stem, docCount := s.docCount } }

namespace IndexWriter

open Method

variable [LibcDecimal]

/-- The loop of `BootstrapInitial` over the listed segments. -/
def openSegments {σ : Type} : List ManifestSegment → FileMethod σ (List SegmentReader)
  | [] => pure []
  | ms :: l => do
    let seg ← SegmentReader.open ms.stem
    let segs ← openSegments l
    pure (seg :: segs)

/-- The first part of `BootstrapInitial`: load or write the schema. -/
def bootstrapSchema {σ : Type} (initialSchema : Option Schema) : FileMethod σ Schema := do
  let found ← Directory.fileExists kSchemaFilename
  if found then
    let text ← Directory.readFile kSchemaFilename
    done (Schema.ofText text)
  else
    match initialSchema with
    | none => fail (.failedPrecondition
        (str "index directory has no schema.json and no initial_schema was provided"))
    | some schema =>
      writeFile kSchemaFilename schema.toText
      Directory.sync
      pure schema

/-- `BootstrapInitial`. -/
def bootstrapInitial {σ : Type} (initialSchema : Option Schema) : FileMethod σ IndexWriter := do
  let schema ← bootstrapSchema initialSchema
  let manifest ← loadManifest
  let sealedSegments ← openSegments manifest.segments
  let translog ← Translog.open
  pure
    { schema
      mutableSegment := .new schema
      translog := some translog
      sealedSegments
      currentGen := manifest.generation
      nextSegmentId := 0
      publishedReader := ⟨schema, sealedSegments⟩ }

/-- `ReplayTranslog`. -/
def replayTranslog : FileMethod IndexWriter Unit := do
  let w ← self
  let recs ← Translog.replay
  let seg ← done (replayRecords recs w.mutableSegment)
  become { w with mutableSegment := seg }

/-- `Close`. -/
def close : FileMethod IndexWriter Unit := do
  let w ← self
  match w.translog with
  | none => pure ()
  | some t =>
    let _ ← owning t Translog.close
    become { w with translog := none }

/-- `Open`. A writer that fails to replay is destroyed, which closes it. -/
def «open» {σ : Type} (initialSchema : Option Schema) : FileMethod σ IndexWriter := do
  act .createDirectories
  let w ← bootstrapInitial initialSchema
  let (r, w) ← owning w replayTranslog
  match r with
  | .ok () => pure w
  | .error e =>
    let _ ← owning w close
    fail e

/-- `AddDocument`. -/
def addDocument (doc : Document) (rawJson : Bytes) : FileMethod IndexWriter Unit := do
  let w ← self
  match w.translog with
  | none => fail (.failedPrecondition (str "writer is closed"))
  | some t =>
    let (r, t) ← owning t (Translog.append (logRecord doc rawJson))
    become { w with translog := some t }
    match r with
    | .error e => fail e
    | .ok () =>
      match w.mutableSegment.addDocument doc with
      | .error e => fail e
      | .ok (seg, _) => become { w with translog := some t, mutableSegment := seg }

/-- `SealCurrentSegment`. -/
def sealCurrentSegment : FileMethod IndexWriter (Option SegmentReader) := do
  let w ← self
  if w.mutableSegment.docCount = 0 then pure none
  else
    let stem := makeSegmentStem (w.currentGen + 1) w.nextSegmentId
    become { w with nextSegmentId := w.nextSegmentId + 1 }
    let _ ← sealSegment w.mutableSegment stem
    let seg ← SegmentReader.open stem
    pure (some seg)

/-- What `Refresh` does with a segment it sealed. -/
def publishSegment (t : Translog) (seg : SegmentReader) : FileMethod IndexWriter Generation := do
  let w ← self
  let w := { w with sealedSegments := w.sealedSegments ++ [seg] }
  become w
  let newGen := w.currentGen + 1
  saveManifest (manifestOf newGen w.sealedSegments)
  let w := { w with currentGen := newGen, mutableSegment := .new w.schema }
  let (r, t) ← owning t Translog.truncate
  let w := { w with translog := some t }
  become w
  match r with
  | .error e => fail e
  | .ok () =>
    become { w with publishedReader := ⟨w.schema, w.sealedSegments⟩ }
    pure newGen

/-- `Refresh`. -/
def refresh : FileMethod IndexWriter Generation := do
  let w ← self
  match w.translog with
  | none => fail (.failedPrecondition (str "writer is closed"))
  | some t =>
    let sealed ← sealCurrentSegment
    match sealed with
    | some seg => publishSegment t seg
    | none =>
      let w ← self
      become { w with publishedReader := ⟨w.schema, w.sealedSegments⟩ }
      pure w.currentGen

end IndexWriter

end Spp.Index
