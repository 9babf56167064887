import SearchPlusPlus.Json.Value

/-!
# JSON serializer

`Serialize` and `SerializePretty`. The source appends to an output string; each function here
returns what its call appends.
-/

namespace Spp.Json

variable [LibcDecimal]

/-- `AppendIndent`: a newline and `depth * indent` spaces, unless the indent is not positive. -/
def appendIndent (depth indent : ℕ) : Bytes :=
  if indent = 0 then [] else 10 :: List.replicate (depth * indent) 32

/-- A digit of `%x`. -/
def hexDigit (d : ℕ) : UInt8 :=
  if d < 10 then UInt8.ofNat (48 + d) else UInt8.ofNat (87 + d)

/-- One byte of `EscapeStringInto`. -/
def escapeByte (c : UInt8) : Bytes :=
  if c = 34 then [92, 34]
  else if c = 92 then [92, 92]
  else if c = 8 then [92, 98]
  else if c = 12 then [92, 102]
  else if c = 10 then [92, 110]
  else if c = 13 then [92, 114]
  else if c = 9 then [92, 116]
  else if c < 32 then [92, 117, 48, 48, hexDigit (c.toNat / 16), hexDigit (c.toNat % 16)]
  else [c]

/-- `EscapeStringInto`. -/
def escapeString (s : Bytes) : Bytes := s.flatMap escapeByte

/-- `WriteEscapedString`. -/
def writeEscapedString (s : Bytes) : Bytes := 34 :: escapeString s ++ [34]

/-- `std::to_string(std::int64_t)`. -/
def decimalInt (i : ℤ) : Bytes :=
  if i < 0 then 45 :: decimal i.natAbs else decimal i.natAbs

/-- `WriteNumber` on a double: JSON has no infinities or NaNs, so these are written as null. -/
def writeDouble (d : F64) : Bytes :=
  if d.isFinite then LibcDecimal.formatG17 d else str "null"

mutual
/-- `Write`. -/
def write (indent : ℕ) : JsonValue → ℕ → Bytes
  | .null, _ => str "null"
  | .bool b, _ => if b then str "true" else str "false"
  | .int i, _ => decimalInt i.toInt
  | .double d, _ => writeDouble d
  | .string s, _ => writeEscapedString s
  | .array [], _ => str "[]"
  | .array a, depth =>
    91 :: writeElems indent a depth true ++ appendIndent depth indent ++ [93]
  | .object [], _ => str "{}"
  | .object o, depth =>
    123 :: writeMembers indent o depth true ++ appendIndent depth indent ++ [125]

/-- The element loop of `Write`; `first` tells whether a comma precedes. -/
def writeElems (indent : ℕ) : List JsonValue → ℕ → Bool → Bytes
  | [], _, _ => []
  | v :: vs, depth, first =>
    (if first then [] else [44]) ++ appendIndent (depth + 1) indent ++
      write indent v (depth + 1) ++ writeElems indent vs depth false

/-- The member loop of `Write`. -/
def writeMembers (indent : ℕ) : List (Bytes × JsonValue) → ℕ → Bool → Bytes
  | [], _, _ => []
  | (k, v) :: o, depth, first =>
    (if first then [] else [44]) ++ appendIndent (depth + 1) indent ++
      writeEscapedString k ++ [58] ++ (if 0 < indent then [32] else []) ++
      write indent v (depth + 1) ++ writeMembers indent o depth false
end

/-- `Serialize`. -/
def serialize (v : JsonValue) : Bytes := write 0 v 0

/-- `SerializePretty`. -/
def serializePretty (v : JsonValue) (indent : ℕ) : Bytes := write indent v 0

end Spp.Json
