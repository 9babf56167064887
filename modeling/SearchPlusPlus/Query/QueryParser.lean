import SearchPlusPlus.Query.Build

/-!
# Query parser

`query::Parse`, a recursive-descent parser over bytes. As for the JSON parser, the position is the
unread suffix of the input, `n` is the length of the whole input, and `fuel` bounds the recursion:
the loops of `ParseOr` and `ParseAnd` are recursive calls here, and every three nested calls
consume a byte.

`AND` and `OR` are looked for where an operator may stand and nowhere else, so `ParseAtom` takes
either of them for a term.
-/

namespace Spp.Query

/-- `IsIdentChar`: letters, digits, `_`, `-` and `.`. -/
def isIdentChar (c : UInt8) : Bool :=
  (97 ≤ c && c ≤ 122) || (65 ≤ c && c ≤ 90) || (48 ≤ c && c ≤ 57) || c = 95 || c = 45 || c = 46

/-- White space: space, tab, line feed, carriage return. -/
def isBlank (c : UInt8) : Bool := c = 32 || c = 9 || c = 10 || c = 13

/-- `Parser::SkipWs`. -/
def skipWs (s : Bytes) : Bytes := s.dropWhile isBlank

/-- `Parser::Err`: the message carries the offset reached. -/
def parseErr (n : ℕ) (what : String) (rest : Bytes) : Status :=
  .invalidArgument
    (str "query parse error at offset " ++ decimal (n - rest.length) ++ str ": " ++ str what)

/-- The next byte, when there is one and it is part of an identifier. -/
def startsIdent : Bytes → Bool
  | c :: _ => isIdentChar c
  | [] => false

/-- `Parser::ConsumeKeyword`: what follows the keyword, if it comes next and ends there. -/
def consumeKeyword (kw s : Bytes) : Option Bytes :=
  if kw.isPrefixOf (skipWs s) then
    let after := (skipWs s).drop kw.length
    if startsIdent after then none else some after
  else none

/-- `Parser::LookingAt`. -/
def lookingAt (kw s : Bytes) : Bool := (consumeKeyword kw (skipWs s)).isSome

/-- `Parser::ReadIdentOrQuoted`. The end of the input closes a quoted string too. -/
def readIdentOrQuoted (s : Bytes) : Bytes × Bytes :=
  match skipWs s with
  | 34 :: rest => (rest.takeWhile (· ≠ 34), (rest.dropWhile (· ≠ 34)).drop 1)
  | s => (s.takeWhile isIdentChar, s.dropWhile isIdentChar)

/-- One child stands for itself. -/
def unlessOne (operator : List QueryAst → QueryAst) : List QueryAst → QueryAst
  | [q] => q
  | children => operator children

/-- Whether the loop of `ParseAnd` ends, at what it has skipped to. -/
def endsAnd (s : Bytes) : Bool := s = [] || s.head? = some 41 || lookingAt (str "OR") s

section Parser

variable (n : ℕ) (defaultField : Bytes)

mutual

/-- `Parser::ParseOr`. -/
def parseOr : ℕ → Bytes → Expected (QueryAst × Bytes)
  | 0, s => .error (parseErr n "nesting too deep" s)
  | fuel + 1, s => do
    let (left, s) ← parseAnd fuel s
    let (children, s) ← parseOrRest fuel s
    .ok (unlessOne .disjunction (left :: children), s)

/-- The loop of `ParseOr`. -/
def parseOrRest : ℕ → Bytes → Expected (List QueryAst × Bytes)
  | 0, s => .error (parseErr n "nesting too deep" s)
  | fuel + 1, s =>
    match consumeKeyword (str "OR") s with
    | none => .ok ([], s)
    | some s => do
      let (right, s) ← parseAnd fuel s
      let (children, s) ← parseOrRest fuel s
      .ok (right :: children, s)

/-- `Parser::ParseAnd`. -/
def parseAnd : ℕ → Bytes → Expected (QueryAst × Bytes)
  | 0, s => .error (parseErr n "nesting too deep" s)
  | fuel + 1, s => do
    let (first, s) ← parseAtom fuel s
    let (children, s) ← parseAndRest fuel s
    .ok (unlessOne .conjunction (first :: children), s)

/-- The loop of `ParseAnd`. When it ends, a keyword it has consumed is given back. -/
def parseAndRest : ℕ → Bytes → Expected (List QueryAst × Bytes)
  | 0, s => .error (parseErr n "nesting too deep" s)
  | fuel + 1, s =>
    let next := skipWs ((consumeKeyword (str "AND") s).getD s)
    if endsAnd next then .ok ([], s)
    else do
      let (next, s) ← parseAtom fuel next
      let (children, s) ← parseAndRest fuel s
      .ok (next :: children, s)

/-- `Parser::ParseAtom`. -/
def parseAtom : ℕ → Bytes → Expected (QueryAst × Bytes)
  | 0, s => .error (parseErr n "nesting too deep" s)
  | fuel + 1, s =>
    match skipWs s with
    | [] => .error (parseErr n "expected term" [])
    | 40 :: rest => do
      let (inner, s) ← parseOr fuel rest
      match skipWs s with
      | 41 :: rest => .ok (inner, rest)
      | s => .error (parseErr n "expected ')'" s)
    | s =>
      let (identOrTerm, s) := readIdentOrQuoted s
      if identOrTerm = [] then .error (parseErr n "expected term" s)
      else
        match skipWs s with
        | 58 :: rest =>
          let (term, s) := readIdentOrQuoted rest
          if term = [] then .error (parseErr n "expected term after ':'" s)
          else .ok (.term identOrTerm term, s)
        | s => .ok (.term defaultField identOrTerm, s)

end

end Parser

/-- `Parse`, with `Parser::Run`. -/
def parse (input defaultField : Bytes) : Expected QueryAst :=
  match skipWs input with
  | [] => .ok .matchAll
  | s => do
    let n := input.length
    let (q, rest) ← parseOr n defaultField (3 * n + 3) s
    match skipWs rest with
    | [] => .ok q
    | rest => .error (parseErr n "trailing characters" rest)

end Spp.Query
