import SearchPlusPlus.Base.Float

/-!
# Segment metadata

The record types, file extensions and constants shared by the segment writer and reader, and the
quantization of token weights.
-/

namespace Spp.Index

/-- `FieldStats`. -/
structure FieldStats where
  name : Bytes := []
  docCount : UInt32 := 0
  sumFieldLength : UInt64 := 0
  termCount : UInt64 := 0
  timOffset : UInt64 := 0
  timSize : UInt64 := 0
  docOffset : UInt64 := 0
  docSize : UInt64 := 0
  boost : F32 := F32.one
  positionDecay : F32 := F32.zero
  hasPositions : Bool := false
  hasTokenWeights : Bool := false
  deriving DecidableEq

/-- `SegmentInfo`. -/
structure SegmentInfo where
  formatVersion : UInt32 := 1
  analyzerFingerprint : Bytes := str "standard:v1+keyword:v1"
  docCount : ℕ := 0
  fields : List FieldStats := []
  stem : Bytes := []

/-- `kSegInfoExt`. -/
def kSegInfoExt : Bytes := str ".si"

/-- `kSegTermsExt`. -/
def kSegTermsExt : Bytes := str ".tim"

/-- `kSegPostingsExt`. -/
def kSegPostingsExt : Bytes := str ".doc"

/-- `kSegStoredExt`. -/
def kSegStoredExt : Bytes := str ".fdt"

/-- `kSegStoredIdxExt`. -/
def kSegStoredIdxExt : Bytes := str ".fdx"

/-- `kSegDocQualityExt`. -/
def kSegDocQualityExt : Bytes := str ".dvq"

/-- `kSegmentFormatMagic`. -/
def kSegmentFormatMagic : UInt32 := 0x53505031

/-- `kSegDocQualityMagic`. -/
def kSegDocQualityMagic : UInt32 := 0x44515031

/-- `kSegmentFormatVersion`. -/
def kSegmentFormatVersion : UInt32 := 2

/-- `kTokenWeightMaxStored`, `8.0f`. -/
def kTokenWeightMaxStored : F32 := ⟨0x41000000⟩

/-- The constant `255.0f / kTokenWeightMaxStored`, which is exact. -/
def quantizeScale : F32 := ⟨0x41FF0000⟩

/-- The constant `kTokenWeightMaxStored / 255.0f`, rounded to single precision. -/
def dequantizeScale : F32 := ⟨0x3D008081⟩

/-- `QuantizeTokenWeight`. -/
def quantizeTokenWeight (w : F32) : UInt8 :=
  if F32.le w F32.zero then 0
  else if F32.le kTokenWeightMaxStored w then 255
  else UInt8.ofNat (F32.add (F32.mul w quantizeScale) ⟨0x3F000000⟩).value.floorNat

/-- `DequantizeTokenWeight`. -/
def dequantizeTokenWeight (q : UInt8) : F32 := F32.mul (F32.ofUInt8 q) dequantizeScale

/-- The weight `1.0f` of a token without weights is stored as 32. -/
example : quantizeTokenWeight F32.one = 32 := by decide

/-- `kNoPosition`. -/
def kNoPosition : UInt16 := 65535

end Spp.Index
