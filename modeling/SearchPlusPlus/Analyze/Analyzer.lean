import SearchPlusPlus.Base.Types

/-!
# Analyzers

`StandardAnalyzer` lowercases runs of ASCII letters and digits and drops stop words;
`KeywordAnalyzer` emits its input as one token. Indexing and querying go through the same two
functions, which is all the matching results need of them.
-/

namespace Spp.Analyze

/-- `Token`. -/
structure Token where
  text : Bytes
  position : UInt32 := 0
  startOffset : UInt32 := 0
  endOffset : UInt32 := 0
  deriving DecidableEq, Repr

/-- `IsTokenChar`. -/
def isTokenChar (c : UInt8) : Bool :=
  (97 ≤ c && c ≤ 122) || (65 ≤ c && c ≤ 90) || (48 ≤ c && c ≤ 57)

/-- `AsciiLower`. -/
def asciiLower (c : UInt8) : UInt8 := if 65 ≤ c ∧ c ≤ 90 then c - 65 + 97 else c

/-- `StopWords`. -/
def stopWords : List Bytes :=
  ["a", "an", "the", "and", "or", "not", "of", "to", "in", "is", "it", "for", "on", "with", "as",
    "by", "at", "from"].map str

/-- The outer loop of `StandardAnalyzer::Analyze`, entered at byte `i` of the input with `input`
still to read. Every round past the first test consumes a token character, so the length of the
input is fuel enough. -/
def standardLoop : ℕ → UInt32 → ℕ → Bytes → List Token
  | 0, _, _, _ => []
  | fuel + 1, position, i, input =>
    let rest := input.dropWhile fun c ↦ !isTokenChar c
    if rest = [] then []
    else
      let start := i + (input.length - rest.length)
      let word := rest.takeWhile isTokenChar
      let stop := start + word.length
      let lower := word.map asciiLower
      let after := standardLoop fuel (position + 1) stop (rest.dropWhile isTokenChar)
      -- A stop word still advances the position.
      if lower ∈ stopWords then after
      else
        { text := lower
          position
          startOffset := UInt32.ofNat start
          endOffset := UInt32.ofNat stop } :: after

/-- `Analyzer`, one of the two kinds there are. -/
inductive Analyzer where
  | standard
  | keyword
  deriving DecidableEq, Repr

/-- `Analyzer::Analyze`. -/
def Analyzer.analyze : Analyzer → Bytes → List Token
  | standard, input => standardLoop input.length 0 0 input
  | keyword, input =>
    if input = [] then [] else [{ text := input, endOffset := UInt32.ofNat input.length }]

/-- Words are split at separators, lowercased, and stop words dropped. -/
example : (Analyzer.standard.analyze (str "The Quick-fox")).map (·.text) =
    [str "quick", str "fox"] := by decide

/-- Analyzing nothing gives no token. -/
@[simp] theorem analyze_nil (a : Analyzer) : a.analyze [] = [] := by
  cases a <;> rfl

end Spp.Analyze
