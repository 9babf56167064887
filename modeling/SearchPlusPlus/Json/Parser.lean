import SearchPlusPlus.Json.Value

/-!
# JSON parser

`json::Parse`, a recursive-descent parser over bytes. The parser's position is the unread suffix
of the input; `n` is the length of the whole input, from which an error recovers the offset it
reports.

The recursion of the source is bounded by the input: `ParseValue` is entered again only after a
bracket, a comma or a colon has been consumed. `fuel` counts that down, and `parse` supplies
enough of it for any input.
-/

namespace Spp.Json

variable [LibcDecimal]

/-- `Parser::Err`: the message carries the offset reached. -/
def parseErr (n : ℕ) (what : String) (rest : Bytes) : Status :=
  .invalidArgument (str what ++ str " at offset " ++ decimal (n - rest.length))

/-- White space: space, tab, line feed, carriage return. -/
def isWs (c : UInt8) : Bool := c = 32 || c = 9 || c = 10 || c = 13

/-- A decimal digit. -/
def isDigit (c : UInt8) : Bool := 48 ≤ c && c ≤ 57

/-- `SkipWs`. -/
def skipWs (s : Bytes) : Bytes := s.dropWhile isWs

/-- `ConsumeLiteral`: what follows the literal, when the input starts with it. -/
def consumeLiteral (lit s : Bytes) : Option Bytes :=
  if lit.isPrefixOf s then some (s.drop lit.length) else none

/-- The next byte, when there is one and it is a digit. -/
def startsDigit : Bytes → Bool
  | c :: _ => isDigit c
  | [] => false

/-! ### Numbers -/

/-- The integer part of `ParseNumber`: a single zero, or digits not starting with one. -/
def scanIntPart (n : ℕ) (s : Bytes) : Expected Bytes :=
  match s with
  | [] => .error (parseErr n "unterminated number" s)
  | c :: rest =>
    if c = 48 then .ok rest
    else if isDigit c then .ok (s.dropWhile isDigit)
    else .error (parseErr n "invalid number" s)

/-- The fraction of `ParseNumber`, with whether there was one. -/
def scanFraction (n : ℕ) (s : Bytes) : Expected (Bool × Bytes) :=
  match s with
  | c :: rest =>
    if c = 46 then
      if startsDigit rest then .ok (true, rest.dropWhile isDigit)
      else .error (parseErr n "expected digit after '.'" rest)
    else .ok (false, s)
  | [] => .ok (false, s)

/-- The sign an exponent may start with. -/
def skipExponentSign (s : Bytes) : Bytes :=
  match s with
  | c :: rest => if c = 43 ∨ c = 45 then rest else s
  | [] => s

/-- The exponent of `ParseNumber`, with whether there was one. -/
def scanExponent (n : ℕ) (s : Bytes) : Expected (Bool × Bytes) :=
  match s with
  | c :: rest =>
    if c = 101 ∨ c = 69 then
      let digits := skipExponentSign rest
      if startsDigit digits then .ok (true, digits.dropWhile isDigit)
      else .error (parseErr n "expected digit in exponent" digits)
    else .ok (false, s)
  | [] => .ok (false, s)

/-- The value of a digit string. -/
def digitsValue (ds : Bytes) : ℕ :=
  ds.foldl (fun v c ↦ 10 * v + (c.toNat - 48)) 0

/-- The value of an integer token. -/
def tokenValue (tok : Bytes) : ℤ :=
  match tok with
  | c :: ds => if c = 45 then -(digitsValue ds : ℤ) else digitsValue tok
  | [] => 0

/-- `std::from_chars` on an integer token: the value when it fits a `std::int64_t`. -/
def fromChars (tok : Bytes) : Option Int64 :=
  let i := tokenValue tok
  if -9223372036854775808 ≤ i ∧ i ≤ 9223372036854775807 then some (Int64.ofInt i) else none

/-- The token read as a double; `what` is the complaint when `strtod` stops short of its end. -/
def tokenDouble (n : ℕ) (what : String) (tok rest : Bytes) : Expected (JsonValue × Bytes) :=
  let (d, used) := LibcDecimal.strtod tok
  if used = tok.length then .ok (.double d, rest) else .error (parseErr n what rest)

/-- The minus sign a number may start with. -/
def skipMinus (s : Bytes) : Bytes :=
  match s with
  | c :: rest => if c = 45 then rest else s
  | [] => s

/-- `ParseNumber`. An integer out of range falls back to a double. -/
def parseNumber (n : ℕ) (s : Bytes) : Expected (JsonValue × Bytes) := do
  let afterInt ← scanIntPart n (skipMinus s)
  let (hasFraction, afterFraction) ← scanFraction n afterInt
  let (hasExponent, rest) ← scanExponent n afterFraction
  let tok := s.take (s.length - rest.length)
  if hasFraction || hasExponent then
    tokenDouble n "invalid floating-point number" tok rest
  else
    match fromChars tok with
    | some i => .ok (.int i, rest)
    | none => tokenDouble n "invalid number" tok rest

/-! ### Strings -/

/-- The single-character escapes. -/
def unescape (esc : UInt8) : Option UInt8 :=
  if esc = 34 then some 34
  else if esc = 92 then some 92
  else if esc = 47 then some 47
  else if esc = 98 then some 8
  else if esc = 102 then some 12
  else if esc = 110 then some 10
  else if esc = 114 then some 13
  else if esc = 116 then some 9
  else none

/-- The value of a hexadecimal digit of either case. -/
def hexValue (c : UInt8) : Option ℕ :=
  if 48 ≤ c ∧ c ≤ 57 then some (c.toNat - 48)
  else if 97 ≤ c ∧ c ≤ 102 then some (c.toNat - 87)
  else if 65 ≤ c ∧ c ≤ 70 then some (c.toNat - 55)
  else none

/-- The code unit of the four digits of a `\u` escape. -/
def hexQuad (a b c d : UInt8) : Option ℕ := do
  let a ← hexValue a
  let b ← hexValue b
  let c ← hexValue c
  let d ← hexValue d
  pure (((a * 16 + b) * 16 + c) * 16 + d)

/-- The UTF-8 bytes of a code unit; surrogates are not paired. -/
def utf8 (cp : ℕ) : Bytes :=
  if cp < 0x80 then [UInt8.ofNat cp]
  else if cp < 0x800 then [UInt8.ofNat (0xC0 + cp / 64), UInt8.ofNat (0x80 + cp % 64)]
  else [UInt8.ofNat (0xE0 + cp / 4096), UInt8.ofNat (0x80 + cp / 64 % 64),
    UInt8.ofNat (0x80 + cp % 64)]

/-- The loop of `ParseStringInto`, entered after the opening quote with `out` already read. -/
def parseStringBody (n : ℕ) (out : Bytes) : Bytes → Expected (Bytes × Bytes)
  | [] => .error (parseErr n "unterminated string" [])
  | uc :: rest =>
    if uc < 32 then .error (parseErr n "unescaped control character in string" (uc :: rest))
    else if uc = 34 then .ok (out, rest)
    else if uc = 92 then
      match rest with
      | [] => .error (parseErr n "unterminated escape sequence" [])
      | esc :: rest =>
        match unescape esc with
        | some b => parseStringBody n (out ++ [b]) rest
        | none =>
          if esc = 117 then
            match rest with
            | a :: b :: c :: d :: rest' =>
              match hexQuad a b c d with
              | some cp => parseStringBody n (out ++ utf8 cp) rest'
              | none => .error (parseErr n "invalid hex digit in \\u escape" rest)
            | _ => .error (parseErr n "truncated \\u escape" rest)
          else .error (parseErr n "invalid escape character" rest)
    else parseStringBody n (out ++ [uc]) rest

/-- `ParseStringInto`. -/
def parseStringInto (n : ℕ) (s : Bytes) : Expected (Bytes × Bytes) :=
  match s with
  | c :: rest =>
    if c = 34 then parseStringBody n [] rest else .error (parseErr n "expected '\"'" s)
  | [] => .error (parseErr n "expected '\"'" s)

/-! ### Values -/

mutual
/-- `ParseValue`, with `ParseNull`, `ParseBool` and the entries of `ParseArray` and `ParseObject`
inlined at their dispatch. -/
def parseValue (n : ℕ) : ℕ → Bytes → Expected (JsonValue × Bytes)
  | 0, s => .error (parseErr n "nesting too deep" s)
  | fuel + 1, s =>
    let s := skipWs s
    match s with
    | [] => .error (parseErr n "unexpected end of input" s)
    | c :: rest =>
      if c = 34 then do
        let (out, rest) ← parseStringInto n s
        .ok (.string out, rest)
      else if c = 123 then
        match skipWs rest with
        | 125 :: rest => .ok (.object [], rest)
        | rest => parseMembers n fuel [] rest
      else if c = 91 then
        match skipWs rest with
        | 93 :: rest => .ok (.array [], rest)
        | rest => parseElems n fuel [] rest
      else if c = 116 ∨ c = 102 then
        match consumeLiteral (str "true") s with
        | some rest => .ok (.bool true, rest)
        | none =>
          match consumeLiteral (str "false") s with
          | some rest => .ok (.bool false, rest)
          | none => .error (parseErr n "expected 'true' or 'false'" s)
      else if c = 110 then
        match consumeLiteral (str "null") s with
        | some rest => .ok (.null, rest)
        | none => .error (parseErr n "expected 'null'" s)
      else if c = 45 ∨ isDigit c then parseNumber n s
      else .error (parseErr n "unexpected character" s)

/-- The loop of `ParseArray`. -/
def parseElems (n : ℕ) : ℕ → JsonArray → Bytes → Expected (JsonValue × Bytes)
  | 0, _, s => .error (parseErr n "nesting too deep" s)
  | fuel + 1, arr, s => do
    let (elem, s) ← parseValue n fuel s
    let arr := arr ++ [elem]
    match skipWs s with
    | 44 :: rest => parseElems n fuel arr (skipWs rest)
    | 93 :: rest => .ok (.array arr, rest)
    | s => .error (parseErr n "expected ',' or ']'" s)

/-- The loop of `ParseObject`; `insert_or_assign` keeps the last of equal keys. -/
def parseMembers (n : ℕ) : ℕ → JsonObject → Bytes → Expected (JsonValue × Bytes)
  | 0, _, s => .error (parseErr n "nesting too deep" s)
  | fuel + 1, obj, s => do
    let (key, s) ← parseStringInto n (skipWs s)
    match skipWs s with
    | 58 :: rest =>
      let (val, s) ← parseValue n fuel (skipWs rest)
      let obj := Assoc.insert key val obj
      match skipWs s with
      | 44 :: rest => parseMembers n fuel obj rest
      | 125 :: rest => .ok (.object obj, rest)
      | s => .error (parseErr n "expected ',' or '\x7d'" s)
    | s => .error (parseErr n "expected ':' after object key" s)
end

/-- The fuel that suffices for an input of `n` bytes: every two nested entries consume a byte. -/
def parseFuel (n : ℕ) : ℕ := 2 * n + 2

/-- `Parse`. -/
def parse (input : Bytes) : Expected JsonValue := do
  let n := input.length
  let (v, rest) ← parseValue n (parseFuel n) (skipWs input)
  match skipWs rest with
  | [] => .ok v
  | rest => .error (parseErr n "trailing data after JSON value" rest)

end Spp.Json
