import SearchPlusPlus.Index.SegmentInfo
import SearchPlusPlus.Store.FileIo
import SearchPlusPlus.Store.FixedWidth
import SearchPlusPlus.Store.VarByte

/-!
# Opening a segment

`SegmentReader::Open`, written separately from the writer: the parsers of the six files, and the
lookups on an opened segment. Two of the vectors it reserves have 64-bit sizes from the files, so
`reserve` may throw; the others have 32-bit sizes, which every vector can hold.
-/

namespace Spp.Index

open Store

/-- `TermEntry`. -/
structure TermEntry where
  term : Bytes
  df : UInt32 := 0
  totalTf : UInt64 := 0
  postingsOffset : UInt64 := 0
  postingsBytes : UInt64 := 0
  deriving DecidableEq

/-- `FieldRead`. -/
structure FieldRead where
  stats : FieldStats
  terms : List TermEntry

/-- `SegmentReader`. -/
structure SegmentReader where
  info : SegmentInfo
  fields : List FieldRead
  docBuf : Bytes
  fdtBuf : Bytes
  fdxOffsets : List UInt64
  docQuality : List F32 := []

/-! ### What `reserve` throws -/

/-- `max_size` of a vector whose elements take so many bytes: those that the largest
`std::ptrdiff_t` holds. -/
def maxSize (bytes : ℕ) : ℕ := 9223372036854775807 / bytes

/-- `max_size` of the terms of a field: a `TermEntry` takes 64 bytes. -/
def kMaxTerms : ℕ := maxSize 64

/-- `max_size` of the offsets of the documents. -/
def kMaxOffsets : ℕ := maxSize 8

/-- How a parser ends without a result: it returns an error, or `reserve` throws, since it is to
make room for more elements than `max_size`. -/
inductive ParseFailure where
  | error (e : Status)
  /-- `std::length_error`. -/
  | lengthError
  deriving DecidableEq

namespace ParseFailure

/-- What the callers of `Open` are left with. All of them give up at once, for an exception as for
an error, so it counts as one there, with what `what()` says of it. -/
def toStatus : ParseFailure → Status
  | error e => e
  | lengthError => { code := .internal, message := str "vector::reserve" }

/-- A parser that throws nothing. -/
def lift {α : Type} (x : Expected α) : Except ParseFailure α := x.mapError error

theorem mapError_eq_ok {ε ε' α : Type} {f : ε → ε'} {x : Except ε α} {a : α} :
    x.mapError f = .ok a ↔ x = .ok a := by
  cases x <;> simp [Except.mapError]

theorem lift_eq_ok {α : Type} {x : Expected α} {a : α} : lift x = .ok a ↔ x = .ok a :=
  mapError_eq_ok

theorem bind_eq_ok {α β : Type} {x : Except ParseFailure α} {f : α → Except ParseFailure β}
    {b : β} : x >>= f = .ok b ↔ ∃ a, x = .ok a ∧ f a = .ok b := by
  cases x <;> simp [bind, Except.bind]

theorem bind_eq_error_iff {α β : Type} {x : Except ParseFailure α}
    {f : α → Except ParseFailure β} {e : ParseFailure} :
    x >>= f = .error e ↔ x = .error e ∨ ∃ a, x = .ok a ∧ f a = .error e := by
  cases x with
  | error e' => simp [bind, Except.bind]
  | ok a => simp [bind, Except.bind]

theorem lift_ne_lengthError {α : Type} (x : Expected α) : lift x ≠ .error lengthError := by
  cases x <;> simp [lift, Except.mapError]

end ParseFailure

/-- `reserve`. -/
def reserve (max n : ℕ) : Except ParseFailure Unit :=
  if max < n then .error .lengthError else .ok ()

/-! ### Parsing -/

/-- `DecodeVarUint32` at the cursor. -/
def readVarUint32 : Cursor UInt32 := fun bytes ↦
  let (r, rest) := decodeVarUint32 bytes
  r.map (·, rest)

/-- `DecodeVarUint64` at the cursor. -/
def readVarUint64 : Cursor UInt64 := fun bytes ↦
  let (r, rest) := decodeVarUint64 bytes
  r.map (·, rest)

/-- The bytes of a string after its length. -/
def readBytes (len : ℕ) : Cursor Bytes := fun bytes ↦
  if bytes.length < len then .error (.corruption (str "string truncated"))
  else .ok (bytes.take len, bytes.drop len)

/-- `ReadStrView`. -/
def readStr : Cursor Bytes := do
  let len ← readVarUint32
  readBytes len.toNat

/-- The two flag bytes of a field. -/
def readFlags : Cursor (Bool × Bool) := fun bytes ↦
  match bytes with
  | a :: b :: rest => .ok ((a != 0, b != 0), rest)
  | _ => .error (.corruption (str ".si truncated at field flags"))

/-- One round of the field loop of the `.si` parser. -/
def readFieldStats : Cursor FieldStats := do
  let name ← readStr
  let docCount ← readVarUint32
  let sumFieldLength ← readVarUint64
  let termCount ← readVarUint64
  let timOffset ← readVarUint64
  let timSize ← readVarUint64
  let docOffset ← readVarUint64
  let docSize ← readVarUint64
  let boost ← readF32LE
  let positionDecay ← readF32LE
  let (hasPositions, hasTokenWeights) ← readFlags
  pure { name, docCount, sumFieldLength, termCount, timOffset, timSize, docOffset, docSize, boost,
         positionDecay, hasPositions, hasTokenWeights }

/-- A counted loop of reads. -/
def readMany {α : Type} (read : Cursor α) : ℕ → Cursor (List α)
  | 0 => pure []
  | n + 1 => do
    let a ← read
    let as ← readMany read n
    pure (a :: as)

/-- A check of a parser. -/
def require (ok : Bool) (e : Status) : Cursor Unit := fun bytes ↦
  if ok then .ok ((), bytes) else .error e

/-- The start of the `.si` parser: the version and the document count. -/
def readHeader : Cursor (UInt32 × UInt64) := do
  let magic ← readU32LE
  require (magic = kSegmentFormatMagic) (.corruption (str ".si bad magic"))
  let version ← readU32LE
  require (version = kSegmentFormatVersion) (.corruption (str ".si unsupported format version"))
  let docCount ← readU64LE
  pure (version, docCount)

/-- The `.si` parser: the document count, the fingerprint and the field table. -/
def readInfo (stem : Bytes) : Cursor SegmentInfo := do
  let (version, docCount) ← readHeader
  let fingerprint ← readStr
  let fieldCount ← readVarUint32
  let fields ← readMany readFieldStats fieldCount.toNat
  pure { stem, formatVersion := version, analyzerFingerprint := fingerprint,
         docCount := docCount.toNat % 4294967296, fields }

/-- One round of the `.tim` loop. -/
def readTermEntry : Cursor TermEntry := do
  let term ← readStr
  let df ← readVarUint32
  let totalTf ← readVarUint64
  let postingsOffset ← readVarUint64
  let postingsBytes ← readVarUint64
  pure { term, df, totalTf, postingsOffset, postingsBytes }

/-- The `.tim` loop of a field: entries until the slice is used up. Every entry takes bytes, so
the length of the slice is fuel enough. -/
def readTermEntries : ℕ → Bytes → Expected (List TermEntry)
  | 0, _ => .ok []
  | fuel + 1, bytes =>
    if bytes = [] then .ok []
    else do
      let (te, rest) ← readTermEntry bytes
      let tes ← readTermEntries fuel rest
      pure (te :: tes)

/-- The terms of a field from its slice of `.tim`, sorted if they are not. -/
def readTerms (tim : Bytes) (stats : FieldStats) : Except ParseFailure FieldRead :=
  if tim.length < (stats.timOffset + stats.timSize).toNat then
    .error (.error (.corruption (str ".tim slice out of range")))
  else do
    let slice := (tim.drop stats.timOffset.toNat).take stats.timSize.toNat
    reserve kMaxTerms stats.termCount.toNat
    let terms ← ParseFailure.lift (readTermEntries slice.length slice)
    let terms :=
      if terms.Pairwise fun a b ↦ a.term ≤ b.term then terms
      else terms.mergeSort fun a b ↦ a.term ≤ b.term
    pure { stats, terms }

/-- The loop of the `.fdx` parser, and the check after it. -/
def readOffsetsFrom (docCount : ℕ) (count : UInt64) : Cursor (List UInt64) := do
  let offsets ← readMany readU64LE count.toNat
  require (count.toNat = docCount) (.corruption (str ".fdx doc count != .si doc count"))
  pure offsets

/-- The `.fdx` parser. -/
def readOffsets (docCount : ℕ) (fdx : Bytes) : Except ParseFailure (List UInt64) := do
  let (count, rest) ← ParseFailure.lift (readU64LE fdx)
  reserve kMaxOffsets count.toNat
  let (offsets, _) ← ParseFailure.lift (readOffsetsFrom docCount count rest)
  pure offsets

/-- The `.dvq` parser. -/
def readQuality (docCount : ℕ) : Cursor (List F32) := do
  let magic ← readU32LE
  require (magic = kSegDocQualityMagic) (.corruption (str ".dvq bad magic"))
  let count ← readU32LE
  require (count.toNat = docCount) (.corruption (str ".dvq doc count mismatch"))
  readMany readF32LE count.toNat

namespace SegmentReader

/-- What `Open` makes of the five files that are always there. -/
def parse (stem si tim doc fdt fdx : Bytes) : Except ParseFailure SegmentReader := do
  let (info, _) ← ParseFailure.lift (readInfo stem si)
  let fields ← info.fields.mapM (readTerms tim)
  let fdxOffsets ← readOffsets info.docCount fdx
  pure { info, fields, docBuf := doc, fdtBuf := fdt, fdxOffsets }

/-- A parsed reader has what each of the parsers gives, and no qualities yet. -/
theorem parse_eq_ok {stem si tim doc fdt fdx : Bytes} {r : SegmentReader}
    (h : parse stem si tim doc fdt fdx = .ok r) :
    ∃ info rest fields fdxOffsets, readInfo stem si = .ok (info, rest) ∧
      info.fields.mapM (readTerms tim) = .ok fields ∧
      readOffsets info.docCount fdx = .ok fdxOffsets ∧
      r = { info, fields, docBuf := doc, fdtBuf := fdt, fdxOffsets } := by
  obtain ⟨⟨info, rest⟩, hinfo, h⟩ := ParseFailure.bind_eq_ok.1 h
  obtain ⟨fields, hfields, h⟩ := ParseFailure.bind_eq_ok.1 h
  obtain ⟨fdxOffsets, hoffsets, h⟩ := ParseFailure.bind_eq_ok.1 h
  exact ⟨info, rest, fields, fdxOffsets, ParseFailure.lift_eq_ok.1 hinfo, hfields, hoffsets,
    (Except.ok.inj h).symm⟩

/-- What `Open` makes of the optional quality file. -/
def parseQuality (reader : SegmentReader) (dvq : Bytes) : Expected SegmentReader := do
  let (docQuality, _) ← readQuality reader.info.docCount dvq
  pure { reader with docQuality }

open Method in
/-- `SegmentReader::Open`. -/
def «open» {σ : Type} (stem : Bytes) : FileMethod σ SegmentReader := do
  let si ← Directory.readFile (stem ++ kSegInfoExt)
  let tim ← Directory.readFile (stem ++ kSegTermsExt)
  let doc ← Directory.readFile (stem ++ kSegPostingsExt)
  let fdt ← Directory.readFile (stem ++ kSegStoredExt)
  let fdx ← Directory.readFile (stem ++ kSegStoredIdxExt)
  let reader ← done ((parse stem si tim doc fdt fdx).mapError ParseFailure.toStatus)
  let dvq ← attempt (Directory.readFile (stem ++ kSegDocQualityExt))
  match dvq with
  | .ok dvq => done (reader.parseQuality dvq)
  | .error _ => pure reader

/-! ### Lookups -/

/-- `doc_count`. -/
def docCount (r : SegmentReader) : ℕ := r.info.docCount

/-- `stem`. -/
def stem (r : SegmentReader) : Bytes := r.info.stem

/-- `field`. -/
def field (r : SegmentReader) (fieldId : ℕ) : Option FieldRead := r.fields[fieldId]?

/-- `GetFieldId`, with its cast to 16 bits. -/
def getFieldId (r : SegmentReader) (name : Bytes) : ℕ :=
  match r.fields.findIdx? fun fr ↦ fr.stats.name = name with
  | some i => i % 65536
  | none => kInvalidFieldId

/-- `FindTerm`: `std::lower_bound` finds the first entry that is not below the term. -/
def findTerm (r : SegmentReader) (fieldId : ℕ) (term : Bytes) : Option TermEntry :=
  match r.field fieldId with
  | none => none
  | some fr =>
    match fr.terms.dropWhile fun te ↦ te.term < term with
    | te :: _ => if te.term = term then some te else none
    | [] => none

/-- `PostingBytes`. -/
def postingBytes (r : SegmentReader) (fieldId : ℕ) (te : TermEntry) : Bytes :=
  match r.field fieldId with
  | none => []
  | some fr =>
    let absOff := fr.stats.docOffset + te.postingsOffset
    if r.docBuf.length < (absOff + te.postingsBytes).toNat then []
    else (r.docBuf.drop absOff.toNat).take te.postingsBytes.toNat

/-- `StoredFields`: empty when the id is out of range or the bytes do not decode. -/
def storedFields (r : SegmentReader) (id : ℕ) : Bytes :=
  match r.fdxOffsets[id]? with
  | none => []
  | some off =>
    if r.fdtBuf.length ≤ off.toNat then []
    else
      match decodeVarUint32 (r.fdtBuf.drop off.toNat) with
      | (.ok len, rest) => if rest.length < len.toNat then [] else rest.take len.toNat
      | (.error _, _) => []

/-- `DocQuality`. -/
def docQualityOf (r : SegmentReader) (id : ℕ) : F32 := r.docQuality.getD id F32.zero

/-- `has_doc_quality`. -/
def hasDocQuality (r : SegmentReader) : Bool := !r.docQuality.isEmpty

end SegmentReader

end Spp.Index
