import SearchPlusPlus.Base.Types
import Mathlib.Data.Nat.Bitwise
import Mathlib.Tactic.Ring

/-!
# VarByte integers

`EncodeVarUint32` / `EncodeVarUint64` and their decoders: little-endian groups of seven bits, the
high bit of a byte set when another follows. The two widths share their loops, so each loop is
one definition over the value's natural number, and the typed functions are its two instances.

A decoder takes the bytes between the cursor and `end` and returns the result together with the
bytes the cursor is left at. The cursor moves on failure too, which callers that keep going after
a failed decode can observe.
-/

namespace Spp.Store

/-! ### Encoding -/

/-- The encoder's loop on a value that fits `fuel` groups: `v >>= 7` is division by 128, and
`0x80 | (v & 0x7F)` is the low group with the continuation bit. -/
def encodeVarUint : ℕ → ℕ → Bytes
  | 0, _ => []
  | fuel + 1, v =>
    if 128 ≤ v then UInt8.ofNat (128 + v % 128) :: encodeVarUint fuel (v / 128)
    else [UInt8.ofNat v]

/-- `EncodeVarUint32`: at most five groups. -/
def encodeVarUint32 (v : UInt32) : Bytes := encodeVarUint 5 v.toNat

/-- `EncodeVarUint64`: at most ten groups. -/
def encodeVarUint64 (v : UInt64) : Bytes := encodeVarUint 10 v.toNat

/-! ### Decoding -/

/-- The decoder's loop at a given width: `result` holds the groups read so far and `shift` their
bit count. Bits shifted past the width are lost, as in the source's unsigned shift. -/
def decodeVarUint (width : ℕ) (name : Bytes) (result shift : ℕ) :
    Bytes → Expected ℕ × Bytes
  | [] => (.error (.corruption (name ++ str " truncated")), [])
  | byte :: rest =>
    if width ≤ shift then (.error (.corruption (name ++ str " overflow")), rest)
    else
      let result := result ||| ((byte.toNat % 128) <<< shift) % 2 ^ width
      if byte.toNat < 128 then (.ok result, rest)
      else decodeVarUint width name result (shift + 7) rest

/-- `DecodeVarUint32`. -/
def decodeVarUint32 (bytes : Bytes) : Expected UInt32 × Bytes :=
  let (r, rest) := decodeVarUint 32 (str "varuint32") 0 0 bytes
  (r.map UInt32.ofNat, rest)

/-- `DecodeVarUint64`. -/
def decodeVarUint64 (bytes : Bytes) : Expected UInt64 × Bytes :=
  let (r, rest) := decodeVarUint 64 (str "varuint64") 0 0 bytes
  (r.map UInt64.ofNat, rest)

/-- A decoder leaves the cursor inside the bytes it was given. -/
theorem decodeVarUint_rest_suffix (width : ℕ) (name : Bytes) (bytes : Bytes) :
    ∀ result shift, (decodeVarUint width name result shift bytes).2 <:+ bytes := by
  induction bytes with
  | nil => exact fun _ _ ↦ List.suffix_rfl
  | cons byte rest ih =>
    intro result shift
    rw [decodeVarUint]
    split
    · exact List.suffix_cons ..
    · simp only
      split
      · exact List.suffix_cons ..
      · exact (ih _ _).trans (List.suffix_cons ..)

theorem decodeVarUint32_rest_suffix (bytes : Bytes) : (decodeVarUint32 bytes).2 <:+ bytes :=
  decodeVarUint_rest_suffix 32 _ bytes 0 0

/-! ### Round trip -/

theorem toNat_ofNat_of_lt {n : ℕ} (h : n < 256) : (UInt8.ofNat n).toNat = n := by
  rw [UInt8.toNat_ofNat']
  exact Nat.mod_eq_of_lt h

/-- One more group above `shift` bits of result is an addition, as long as the value fits. -/
theorem or_group_eq {width result shift g : ℕ} (hres : result < 2 ^ shift)
    (hfit : g * 2 ^ shift < 2 ^ width) :
    result ||| (g <<< shift) % 2 ^ width = result + g * 2 ^ shift := by
  rw [Nat.shiftLeft_eq, Nat.mod_eq_of_lt hfit, Nat.or_comm, Nat.mul_comm,
    ← Nat.two_pow_add_eq_or_of_lt hres, Nat.add_comm]

/-- The loop on the encoding of `v`, entered with `shift` bits already read, adds `v` at that
position and stops right after the encoding. The induction is on the number of groups. -/
theorem decodeVarUint_encodeVarUint {width : ℕ} (name : Bytes) (rest : Bytes) :
    ∀ (fuel v result shift : ℕ), v < 128 ^ fuel → 0 < fuel → shift < width →
      result < 2 ^ shift → v * 2 ^ shift < 2 ^ width →
      decodeVarUint width name result shift (encodeVarUint fuel v ++ rest) =
        (.ok (result + v * 2 ^ shift), rest) := by
  intro fuel
  induction fuel with
  | zero => intro v result shift _ h0; omega
  | succ fuel ih =>
    intro v result shift hv _ hshift hres hfit
    rw [encodeVarUint]
    split
    · next hge =>
      have hdiv : 128 * (v / 128) + v % 128 = v := Nat.div_add_mod v 128
      have hpow : 2 ^ (shift + 7) = 128 * 2 ^ shift := by rw [pow_add]; ring
      have hsplit : v * 2 ^ shift = v / 128 * 2 ^ (shift + 7) + v % 128 * 2 ^ shift := by
        rw [hpow]
        calc v * 2 ^ shift = (128 * (v / 128) + v % 128) * 2 ^ shift := by rw [hdiv]
          _ = v / 128 * (128 * 2 ^ shift) + v % 128 * 2 ^ shift := by ring
      -- The continuation bit means a later group is non-zero, so more bits than `shift` are used.
      have hnext : shift + 7 < width := by
        have hone : 2 ^ (shift + 7) ≤ v / 128 * 2 ^ (shift + 7) :=
          Nat.le_mul_of_pos_left _ (by omega)
        exact (Nat.pow_lt_pow_iff_right (by decide)).1 (lt_of_le_of_lt hone (by omega))
      have hbyte : (UInt8.ofNat (128 + v % 128)).toNat = 128 + v % 128 :=
        toNat_ofNat_of_lt (by omega)
      have hlow : (128 + v % 128) % 128 = v % 128 := by omega
      rw [List.cons_append, decodeVarUint, if_neg (by omega)]
      simp only [hbyte, hlow]
      rw [if_neg (by omega), or_group_eq hres (by omega)]
      rw [ih (v / 128) _ (shift + 7) (by rw [pow_succ] at hv; omega) ?_ hnext ?_ (by omega), hsplit]
      · congr 2; omega
      · rcases fuel with - | fuel
        · simp at hv; omega
        · omega
      · have : v % 128 * 2 ^ shift ≤ 127 * 2 ^ shift := Nat.mul_le_mul_right _ (by omega)
        omega
    · next hlt =>
      have hbyte : (UInt8.ofNat v).toNat = v := toNat_ofNat_of_lt (by omega)
      have hlow : v % 128 = v := Nat.mod_eq_of_lt (by omega)
      rw [List.cons_append, List.nil_append, decodeVarUint, if_neg (by omega)]
      simp only [hbyte, hlow]
      rw [if_pos (by omega), or_group_eq hres hfit]

/-- **Decoding an encoded 32-bit value** gives it back and leaves the cursor right after it. -/
@[simp] theorem decodeVarUint32_encode (v : UInt32) (rest : Bytes) :
    decodeVarUint32 (encodeVarUint32 v ++ rest) = (.ok v, rest) := by
  have hv : v.toNat < 2 ^ 32 := v.toNat_lt
  rw [decodeVarUint32, encodeVarUint32, decodeVarUint_encodeVarUint _ _ 5 v.toNat 0 0 (by omega)
    (by omega) (by omega) (by omega) (by omega)]
  simp [Except.map]

/-- **Decoding an encoded 64-bit value** gives it back and leaves the cursor right after it. -/
@[simp] theorem decodeVarUint64_encode (v : UInt64) (rest : Bytes) :
    decodeVarUint64 (encodeVarUint64 v ++ rest) = (.ok v, rest) := by
  have hv : v.toNat < 2 ^ 64 := v.toNat_lt
  rw [decodeVarUint64, encodeVarUint64, decodeVarUint_encodeVarUint _ _ 10 v.toNat 0 0 (by omega)
    (by omega) (by omega) (by omega) (by omega)]
  simp [Except.map]

/-! ### Encoded lengths -/

theorem encodeVarUint_length_le (fuel v : ℕ) : (encodeVarUint fuel v).length ≤ fuel := by
  induction fuel generalizing v with
  | zero => rfl
  | succ fuel ih =>
    rw [encodeVarUint]
    split
    · rw [List.length_cons]
      exact Nat.succ_le_succ (ih _)
    · rw [List.length_singleton]
      omega

theorem encodeVarUint32_length_le (v : UInt32) : (encodeVarUint32 v).length ≤ 5 :=
  encodeVarUint_length_le 5 _

theorem encodeVarUint64_length_le (v : UInt64) : (encodeVarUint64 v).length ≤ 10 :=
  encodeVarUint_length_le 10 _

/-- Every encoding has a first byte. -/
theorem encodeVarUint32_length_pos (v : UInt32) : 0 < (encodeVarUint32 v).length := by
  rw [encodeVarUint32, encodeVarUint]
  split <;> exact Nat.succ_pos _

end Spp.Store
