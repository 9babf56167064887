import SearchPlusPlus.Base.Float
import SearchPlusPlus.Lib.SortedMap

/-!
# Documents

`Document`: an id, the text of each field, and the optional ranking signals.
-/

namespace Spp.Index

/-- `Document`. -/
structure Document where
  id : Bytes := []
  fields : SortedMap Bytes Bytes := .empty
  fieldTokenWeights : SortedMap Bytes (List F32) := .empty
  docQuality : Option F32 := none
  deriving DecidableEq

end Spp.Index
