import SearchPlusPlus.Index.MutableSegment
import SearchPlusPlus.Index.SegmentInfo
import SearchPlusPlus.Store.FileIo
import SearchPlusPlus.Store.FixedWidth
import SearchPlusPlus.Store.VarByte

/-!
# Sealing a segment

`SealSegment`: the buffers of the five or six files of a segment, and the file operations that
write them. The buffers are built by the loops of the source, over fields in schema order and
terms in byte order; `SegmentRoundTrip` gives their closed form.
-/

namespace Spp.Index

open Store

/-- `AppendStr`: a length and the bytes. -/
def encodeStr (s : Bytes) : Bytes := encodeVarUint32 (UInt32.ofNat s.length) ++ s

/-- One round of the loop of `WritePostings`; `prev` is the document of the round before, zero
before the first. -/
def encodePosting (hasPositions hasTokenWeights : Bool) (prev : ℕ) (p : Posting) : Bytes :=
  encodeVarUint32 (UInt32.ofNat p.docId - UInt32.ofNat prev) ++ encodeVarUint32 p.tf ++
    (if hasPositions then u16LE p.firstPos else []) ++
    (if hasTokenWeights then [quantizeTokenWeight p.maxTokenWeight] else [])

/-- The loop of `WritePostings`. -/
def encodePostings (hasPositions hasTokenWeights : Bool) : ℕ → PostingList → Bytes
  | _, [] => []
  | prev, p :: pl =>
    encodePosting hasPositions hasTokenWeights prev p ++
      encodePostings hasPositions hasTokenWeights p.docId pl

/-- `WritePostings`. -/
def writePostings (pl : PostingList) (hasPositions hasTokenWeights : Bool) : Bytes :=
  encodeVarUint32 (UInt32.ofNat pl.length) ++ encodePostings hasPositions hasTokenWeights 0 pl

/-- The `.tim` and `.doc` buffers while they grow. -/
structure SealBuffers where
  tim : Bytes := []
  doc : Bytes := []

/-- One round of the term loop of `SealSegment`. -/
def sealTerm (fs : FieldStats) (bufs : SealBuffers) (p : Bytes × PostingList) : SealBuffers :=
  let (term, plIn) := p
  let pl := plIn.mergeSort fun a b ↦ a.docId ≤ b.docId
  let postingsOffset := UInt64.ofNat bufs.doc.length
  let totalTf := pl.foldl (fun sum p ↦ sum + UInt64.ofNat p.tf.toNat) 0
  let doc := bufs.doc ++ writePostings pl fs.hasPositions fs.hasTokenWeights
  let postingsBytes := UInt64.ofNat doc.length - postingsOffset
  { tim := bufs.tim ++ encodeStr term ++ encodeVarUint32 (UInt32.ofNat pl.length) ++
      encodeVarUint64 totalTf ++ encodeVarUint64 (postingsOffset - fs.docOffset) ++
      encodeVarUint64 postingsBytes
    doc }

/-- One round of the field loop of `SealSegment`. The bindings of `postings` are in term order,
which is what sorting the terms gives. -/
def sealField (acc : SealBuffers × List FieldStats) (p : FieldMapping × MutableFieldData) :
    SealBuffers × List FieldStats :=
  let (bufs, infos) := acc
  let (fm, fd) := p
  let fs : FieldStats :=
    { name := fm.name
      boost := fm.boost
      positionDecay := fm.positionDecay
      hasPositions := F32.lt F32.zero fm.positionDecay
      hasTokenWeights := fm.storeTokenWeights
      docCount := fd.docCount
      sumFieldLength := fd.sumFieldLength
      termCount := UInt64.ofNat fd.postings.toList.length
      timOffset := UInt64.ofNat bufs.tim.length
      docOffset := UInt64.ofNat bufs.doc.length }
  let bufs := fd.postings.toList.foldl (sealTerm fs) bufs
  let fs :=
    { fs with
      timSize := UInt64.ofNat bufs.tim.length - fs.timOffset
      docSize := UInt64.ofNat bufs.doc.length - fs.docOffset }
  (bufs, infos ++ [fs])

/-- One round of the stored-field loop: `.fdt` and `.fdx` grow together. -/
def sealBlob (acc : Bytes × Bytes) (blob : Bytes) : Bytes × Bytes :=
  let (fdt, fdx) := acc
  (fdt ++ encodeVarUint32 (UInt32.ofNat blob.length) ++ blob,
    fdx ++ u64LE (UInt64.ofNat fdt.length))

/-- One entry of the field table of `.si`. -/
def encodeFieldStats (fs : FieldStats) : Bytes :=
  encodeStr fs.name ++ encodeVarUint32 fs.docCount ++ encodeVarUint64 fs.sumFieldLength ++
    encodeVarUint64 fs.termCount ++ encodeVarUint64 fs.timOffset ++ encodeVarUint64 fs.timSize ++
    encodeVarUint64 fs.docOffset ++ encodeVarUint64 fs.docSize ++ f32LE fs.boost ++
    f32LE fs.positionDecay ++ [if fs.hasPositions then 1 else 0] ++
    [if fs.hasTokenWeights then 1 else 0]

/-- The contents of the files of a segment. -/
structure SegmentFiles where
  doc : Bytes
  tim : Bytes
  fdt : Bytes
  fdx : Bytes
  si : Bytes
  /-- Only when the schema stores document quality. -/
  dvq : Option Bytes

/-- The `.dvq` buffer: a quality missing from the segment is written as zero. -/
def encodeQuality (segment : MutableSegment) : Bytes :=
  u32LE kSegDocQualityMagic ++ u32LE (UInt32.ofNat segment.docCount) ++
    (List.range segment.docCount).flatMap fun i ↦ f32LE (segment.docQuality.getD i F32.zero)

/-- The in-memory part of `SealSegment`. -/
def sealBuffers (segment : MutableSegment) (stem : Bytes) : SegmentInfo × SegmentFiles :=
  let (bufs, infos) := (segment.schema.fields.zip segment.fieldData).foldl sealField ({}, [])
  let info : SegmentInfo :=
    { stem
      formatVersion := kSegmentFormatVersion
      docCount := segment.docCount
      fields := infos }
  let (fdt, fdx) := segment.storedBlobs.foldl sealBlob
    ([], u64LE (UInt64.ofNat segment.storedBlobs.length))
  let si := u32LE kSegmentFormatMagic ++ u32LE info.formatVersion ++
    u64LE (UInt64.ofNat info.docCount) ++ encodeStr info.analyzerFingerprint ++
    encodeVarUint32 (UInt32.ofNat info.fields.length) ++ info.fields.flatMap encodeFieldStats
  (info,
    { doc := bufs.doc
      tim := bufs.tim
      fdt
      fdx
      si
      dvq := if segment.schema.storeDocQuality then some (encodeQuality segment) else none })

/-- The files in the order they are written, with their names. -/
def SegmentFiles.toList (f : SegmentFiles) (stem : Bytes) : List (Bytes × Bytes) :=
  [(stem ++ kSegPostingsExt, f.doc), (stem ++ kSegTermsExt, f.tim), (stem ++ kSegStoredExt, f.fdt),
    (stem ++ kSegStoredIdxExt, f.fdx), (stem ++ kSegInfoExt, f.si)] ++
    f.dvq.toList.map fun dvq ↦ (stem ++ kSegDocQualityExt, dvq)

/-- `SealSegment`. -/
def sealSegment (segment : MutableSegment) {σ : Type} (stem : Bytes) :
    FileMethod σ SegmentInfo := do
  let (info, f) := sealBuffers segment stem
  writeFiles (f.toList stem)
  Directory.sync
  pure info

end Spp.Index
