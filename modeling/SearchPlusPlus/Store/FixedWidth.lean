import SearchPlusPlus.Base.Types
import SearchPlusPlus.Base.Float
import Mathlib.Tactic.Ring

/-!
# Fixed-width integers

The little-endian byte groups of the translog header and of the segment files, at every width at
once (`packLE`, `unpackLE`), and the bounds-checked cursor reads of the segment reader.
-/

namespace Spp.Store

/-- The low `width` bytes of a value, least significant first. -/
def packLE : ℕ → ℕ → Bytes
  | 0, _ => []
  | width + 1, v => UInt8.ofNat (v % 256) :: packLE width (v / 256)

/-- The value of little-endian bytes. -/
def unpackLE : Bytes → ℕ
  | [] => 0
  | b :: bs => b.toNat + 256 * unpackLE bs

@[simp] theorem packLE_length (width v : ℕ) : (packLE width v).length = width := by
  induction width generalizing v with
  | zero => rfl
  | succ width ih => rw [packLE, List.length_cons, ih]

/-- **Unpacking packed bytes** keeps the value modulo the width. -/
theorem unpackLE_packLE (width v : ℕ) : unpackLE (packLE width v) = v % 256 ^ width := by
  induction width generalizing v with
  | zero => simp [packLE, unpackLE, Nat.mod_one]
  | succ width ih =>
    have hbyte : (UInt8.ofNat (v % 256)).toNat = v % 256 := by
      rw [UInt8.toNat_ofNat']
      omega
    rw [packLE, unpackLE, ih, hbyte, Nat.pow_succ', Nat.mod_mul]

/-! ### Reads at a cursor -/

/-- A read of the segment reader: it moves the cursor over the bytes that are left. -/
abbrev Cursor (α : Type) := StateT Bytes (Except Status) α

/-- A sequence of reads succeeds when each part does. -/
theorem cursor_bind_eq_ok {α β : Type} {x : Cursor α} {f : α → Cursor β} {bytes : Bytes}
    {r : β × Bytes} :
    (x >>= f) bytes = .ok r ↔ ∃ a rest, x bytes = .ok (a, rest) ∧ f a rest = .ok r := by
  have hbind : (x >>= f) bytes = (x bytes).bind fun p ↦ f p.1 p.2 := rfl
  rw [hbind]
  cases h : x bytes with
  | error e => simp [Except.bind]
  | ok p =>
    obtain ⟨a, rest⟩ := p
    exact ⟨fun hf ↦ ⟨a, rest, rfl, hf⟩, by rintro ⟨a', rest', heq, hf⟩; cases heq; exact hf⟩

/-- The bounds check and value of a fixed-width read. -/
def readLE (width : ℕ) (what : String) : Cursor ℕ := fun bytes ↦
  if bytes.length < width then .error (.corruption (str what))
  else .ok (unpackLE (bytes.take width), bytes.drop width)

/-- `ReadU32LE`. -/
def readU32LE : Cursor UInt32 := UInt32.ofNat <$> readLE 4 "u32 truncated"

/-- `ReadU64LE`. -/
def readU64LE : Cursor UInt64 := UInt64.ofNat <$> readLE 8 "u64 truncated"

/-- `ReadF32LE`: the bits of a float. -/
def readF32LE : Cursor F32 := F32.mk <$> readU32LE

/-- `AppendU32LE`. -/
def u32LE (v : UInt32) : Bytes := packLE 4 v.toNat

/-- `AppendU64LE`. -/
def u64LE (v : UInt64) : Bytes := packLE 8 v.toNat

/-- `AppendU16LE`. -/
def u16LE (v : UInt16) : Bytes := packLE 2 v.toNat

/-- `AppendF32LE`. -/
def f32LE (f : F32) : Bytes := u32LE f.bits

theorem readLE_packLE (width v : ℕ) (what : String) (rest : Bytes) :
    readLE width what (packLE width v ++ rest) = .ok (v % 256 ^ width, rest) := by
  rw [readLE, if_neg (by simp)]
  simp [unpackLE_packLE]

@[simp] theorem readU32LE_append (v : UInt32) (rest : Bytes) :
    readU32LE (u32LE v ++ rest) = .ok (v, rest) := by
  simp [readU32LE, u32LE, Functor.map, StateT.map, bind, Except.bind, pure, Except.pure,
    readLE_packLE]

@[simp] theorem readU64LE_append (v : UInt64) (rest : Bytes) :
    readU64LE (u64LE v ++ rest) = .ok (v, rest) := by
  simp [readU64LE, u64LE, Functor.map, StateT.map, bind, Except.bind, pure, Except.pure,
    readLE_packLE]

@[simp] theorem readF32LE_append (f : F32) (rest : Bytes) :
    readF32LE (f32LE f ++ rest) = .ok (f, rest) := by
  simp [readF32LE, f32LE, Functor.map, StateT.map, bind, Except.bind, pure, Except.pure]

@[simp] theorem u32LE_length (v : UInt32) : (u32LE v).length = 4 := packLE_length ..

@[simp] theorem u64LE_length (v : UInt64) : (u64LE v).length = 8 := packLE_length ..

/-- The two bytes of a 16-bit value, and how they are put together again. -/
theorem u16LE_eq (v : UInt16) :
    ∃ lo hi, u16LE v = [lo, hi] ∧ lo.toUInt16 ||| (hi.toUInt16 <<< 8) = v := by
  refine ⟨_, _, rfl, UInt16.toNat_inj.1 ?_⟩
  have hv := v.toNat_lt
  have hlo : (UInt8.ofNat (v.toNat % 256)).toUInt16.toNat = v.toNat % 256 := by simp
  have hhi : ((UInt8.ofNat (v.toNat / 256 % 256)).toUInt16 <<< 8).toNat =
      2 ^ 8 * (v.toNat / 256) := by
    simp [Nat.shiftLeft_eq]
    omega
  have hor := Nat.two_pow_add_eq_or_of_lt (show v.toNat % 256 < 2 ^ 8 by omega) (v.toNat / 256)
  rw [UInt16.toNat_or, hlo, hhi, Nat.or_comm, ← hor]
  omega

end Spp.Store
