import Mathlib.Data.List.Lex
import Mathlib.Data.UInt

/-!
# Base types

The vocabulary every other module shares: byte strings, document and field identifiers with
their sentinels, and the `Status` / `Expected` error channel.

A `std::string` is the list of its bytes. Its `operator<` compares bytes as unsigned characters
and orders a proper prefix first, which is the lexicographic order on `List UInt8`; the linear
order on `UInt8` that this needs is the one the core comparison already decides.
-/

namespace Spp

/-! ### Bytes and byte strings -/

instance linearOrderUInt8 : LinearOrder UInt8 where
  le_refl a := UInt8.le_refl a
  le_trans _ _ _ := UInt8.le_trans
  lt_iff_le_not_ge a b := by simp only [UInt8.le_iff_toNat_le, UInt8.lt_iff_toNat_lt]; omega
  le_antisymm _ _ := UInt8.le_antisymm
  le_total a b := UInt8.le_total a b
  toDecidableLE := fun _ _ ↦ inferInstance
  toDecidableLT := fun _ _ ↦ inferInstance
  toDecidableEq := fun _ _ ↦ inferInstance

/-- A `std::string`: its bytes in order. -/
abbrev Bytes := List UInt8

instance lawfulBEqBytes : LawfulBEq Bytes := inferInstance

/-- The bytes of an ASCII literal of the source. -/
def str (s : String) : Bytes :=
  s.toList.map fun c ↦ UInt8.ofNat c.toNat

/-- `std::to_string` of an unsigned value. -/
def decimal (n : ℕ) : Bytes :=
  (Nat.toDigits 10 n).map fun c ↦ UInt8.ofNat c.toNat

/-! ### Identifiers -/

/-- `kNoMoreDocs`, the largest 32-bit value. A `DocId`, the number of a document in its segment,
is a natural number here, and arithmetic on it that can wrap says so. -/
def kNoMoreDocs : ℕ := 4294967295

/-- `kInvalidFieldId`, the largest 16-bit value. A `FieldId`, the position of a field in its
schema, is a natural number too. -/
def kInvalidFieldId : ℕ := 65535

/-- `Generation`, the 64-bit commit counter. -/
abbrev Generation := UInt64

/-! ### Status and Expected -/

/-- `StatusCode`. -/
inductive StatusCode where
  | ok
  | invalidArgument
  | notFound
  | alreadyExists
  | outOfRange
  | failedPrecondition
  | corruption
  | ioError
  | unimplemented
  | internal
  | aborted
  | unavailable
  deriving DecidableEq, Repr

/-- `Status`: a code and a message. A failed operation carries one. -/
structure Status where
  code : StatusCode
  message : Bytes
  deriving DecidableEq, Repr

namespace Status

/-- `Status::InvalidArgument`. -/
def invalidArgument (m : Bytes) : Status := ⟨.invalidArgument, m⟩

/-- `Status::AlreadyExists`. -/
def alreadyExists (m : Bytes) : Status := ⟨.alreadyExists, m⟩

/-- `Status::OutOfRange`. -/
def outOfRange (m : Bytes) : Status := ⟨.outOfRange, m⟩

/-- `Status::FailedPrecondition`. -/
def failedPrecondition (m : Bytes) : Status := ⟨.failedPrecondition, m⟩

/-- `Status::Corruption`. -/
def corruption (m : Bytes) : Status := ⟨.corruption, m⟩

/-- `Status::IoError`. -/
def ioError (m : Bytes) : Status := ⟨.ioError, m⟩

end Status

/-- `Expected<T>`: a value, or the status of the failure. -/
abbrev Expected (α : Type) := Except Status α

theorem bind_eq_ok {α β : Type} {x : Expected α} {f : α → Expected β} {b : β} :
    (x >>= f) = .ok b ↔ ∃ a, x = .ok a ∧ f a = .ok b := by
  cases x with
  | error e => exact ⟨fun h ↦ (by cases h), fun ⟨_, h, _⟩ ↦ (by cases h)⟩
  | ok a => exact ⟨fun h ↦ ⟨a, rfl, h⟩, fun ⟨_, h, h'⟩ ↦ by cases h; exact h'⟩

end Spp
