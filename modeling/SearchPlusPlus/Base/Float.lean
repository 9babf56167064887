import SearchPlusPlus.Base.Types
import SearchPlusPlus.Lib.BinaryFloat

/-!
# Floats and their C library text conversions

`float` and `double` are IEEE single and double bit patterns. Comparison, arithmetic and the
conversions between the two are the exact, correctly rounded ones; conversions from and to
decimal text (`strtod`, `%.17g`, `std::to_string`) belong to the C library and are a parameter.
-/

namespace Spp

/-- IEEE single precision. -/
def singleFormat : FloatFormat := ⟨23, 8⟩

/-- IEEE double precision. -/
def doubleFormat : FloatFormat := ⟨52, 11⟩

/-- A `float`. -/
structure F32 where
  bits : UInt32
  deriving DecidableEq, Repr

/-- A `double`. -/
structure F64 where
  bits : UInt64
  deriving DecidableEq, Repr

namespace F32

/-- `0.0f`. -/
def zero : F32 := ⟨0⟩

/-- `1.0f`. -/
def one : F32 := ⟨0x3F800000⟩

/-- The exact value. -/
def value (x : F32) : FloatValue := singleFormat.decode x.bits.toNat

/-- `a < b`. -/
def lt (a b : F32) : Bool := singleFormat.lt a.bits.toNat b.bits.toNat

/-- `a <= b`. -/
def le (a b : F32) : Bool := singleFormat.le a.bits.toNat b.bits.toNat

/-- `a == b`. -/
def eq (a b : F32) : Bool := singleFormat.eq a.bits.toNat b.bits.toNat

/-- `std::isfinite`. -/
def isFinite (x : F32) : Bool :=
  match x.value with
  | .finite .. => true
  | _ => false

/-- `a * b`. -/
def mul (a b : F32) : F32 := ⟨UInt32.ofNat (singleFormat.mul a.bits.toNat b.bits.toNat)⟩

/-- `a + b`. -/
def add (a b : F32) : F32 := ⟨UInt32.ofNat (singleFormat.add a.bits.toNat b.bits.toNat)⟩

/-- `static_cast<float>` of a `std::uint8_t`. -/
def ofUInt8 (n : UInt8) : F32 := ⟨UInt32.ofNat (singleFormat.round false n.toNat 0)⟩

/-- `static_cast<double>`. -/
def toF64 (x : F32) : F64 := ⟨UInt64.ofNat (doubleFormat.encode x.value)⟩

end F32

namespace F64

/-- The exact value. -/
def value (x : F64) : FloatValue := doubleFormat.decode x.bits.toNat

/-- `std::isfinite`. -/
def isFinite (x : F64) : Bool :=
  match x.value with
  | .finite .. => true
  | _ => false

/-- `a == b`. -/
def eq (a b : F64) : Bool := doubleFormat.eq a.bits.toNat b.bits.toNat

/-- `static_cast<float>`. -/
def toF32 (x : F64) : F32 := ⟨UInt32.ofNat (singleFormat.encode x.value)⟩

/-- `static_cast<double>` of a `std::int64_t`. -/
def ofInt64 (i : Int64) : F64 :=
  ⟨UInt64.ofNat (doubleFormat.round (i.toInt < 0) i.toInt.natAbs 0)⟩

end F64

/-- Two floats that no comparison tells apart. -/
def F32.Same (x y : F32) : Prop := x = y ∨ x.eq y = true

/-- The integers of 53 bits are doubles. -/
theorem F64.isFinite_ofInt64 {i : Int64} (h : i.toInt.natAbs < 2 ^ 53) :
    (ofInt64 i).isFinite = true := by
  have hround : doubleFormat.round (i.toInt < 0) i.toInt.natAbs 0 < 2 ^ 64 :=
    doubleFormat.round_lt (i.toInt < 0) i.toInt.natAbs 0
  rw [isFinite, value, ofInt64, UInt64.toNat_ofNat', Nat.mod_eq_of_lt hround]
  by_cases hzero : i.toInt.natAbs = 0
  · rw [hzero, doubleFormat.decode_round_zero _ _ (by decide)]
  · have hlog : Nat.log2 i.toInt.natAbs < 53 := (Nat.log2_lt hzero).2 h
    have hmant : doubleFormat.mantBits = 52 := rfl
    have hmin : doubleFormat.minExp = -1074 := by decide
    have hexp : (2 : ℤ) ^ doubleFormat.expBits = 2048 := by decide
    rw [doubleFormat.decode_round _ hzero (by omega) (by omega) (by omega)]

/-! ### Widening and narrowing -/

theorem F32.bits_lt (x : F32) : x.bits.toNat < 2 * singleFormat.signBit :=
  x.bits.toNat_lt

theorem F64.bits_lt (x : F64) : x.bits.toNat < 2 * doubleFormat.signBit :=
  x.bits.toNat_lt

theorem F32.isFinite_iff {x : F32} :
    x.isFinite = true ↔ ∃ neg sig exp, x.value = .finite neg sig exp := by
  rw [isFinite]
  cases x.value <;> simp

theorem F32.value_toF64 {x : F32} {neg : Bool} {sig : ℕ} {exp : ℤ}
    (h : x.value = .finite neg sig exp) : ∃ sig' exp', x.toF64.value = .finite neg sig' exp' ∧
      singleFormat.round neg sig' exp' = x.bits.toNat := by
  obtain ⟨sig', exp', hwide, hback⟩ := FloatFormat.round_decode_widen (F := singleFormat)
    (G := doubleFormat) (by decide) (by decide) (by decide) (by decide) (by decide) x.bits_lt h
  refine ⟨sig', exp', ?_, hback⟩
  rw [F64.value, toF64, h, FloatFormat.encode, UInt64.toNat_ofNat', Nat.mod_eq_of_lt, hwide]
  exact doubleFormat.round_lt neg sig exp

/-- A float is finite as a double when it is finite. -/
theorem F32.isFinite_toF64 (x : F32) : x.toF64.isFinite = x.isFinite := by
  cases h : x.value with
  | nan => rw [F64.isFinite, F64.value, toF64, isFinite, h]; decide
  | inf neg => rw [F64.isFinite, F64.value, toF64, isFinite, h]; cases neg <;> decide
  | finite neg sig exp =>
    obtain ⟨sig', exp', hval, -⟩ := value_toF64 h
    rw [F64.isFinite, hval, isFinite, h]

/-- Narrowing gives a widened finite float back. -/
theorem F32.toF32_toF64 {x : F32} (h : x.isFinite = true) : x.toF64.toF32 = x := by
  obtain ⟨neg, sig, exp, hval⟩ := isFinite_iff.1 h
  obtain ⟨sig', exp', hwide, hback⟩ := value_toF64 hval
  rw [F64.toF32, hwide, FloatFormat.encode, hback, UInt32.ofNat_toNat]

theorem F32.eq_refl {x : F32} (h : x.isFinite = true) : x.eq x = true := by
  obtain ⟨neg, sig, exp, hval⟩ := isFinite_iff.1 h
  rw [value] at hval
  simp [eq, FloatFormat.eq, hval]

/-- Equal floats are the same float, the two zeros apart. -/
theorem F32.eq_or_zero_of_eq {x y : F32} (h : x.eq y = true) :
    x = y ∨ (x = ⟨0⟩ ∨ x = ⟨0x80000000⟩) ∧ (y = ⟨0⟩ ∨ y = ⟨0x80000000⟩) := by
  have hzero : ∀ z : F32, z.bits.toNat % singleFormat.signBit = 0 →
      z = ⟨0⟩ ∨ z = ⟨0x80000000⟩ := by
    rintro ⟨b⟩ hb
    have hlt := b.toNat_lt
    have : b.toNat % 2147483648 = 0 := hb
    simp only [F32.mk.injEq, ← UInt32.toNat_inj]
    simp
    omega
  rcases singleFormat.eq_or_zero_of_eq x.bits_lt y.bits_lt h with h | ⟨hx, hy⟩
  · obtain ⟨b⟩ := x
    obtain ⟨b'⟩ := y
    exact Or.inl (congrArg F32.mk (UInt32.toNat_inj.1 h))
  · exact Or.inr ⟨hzero x hx, hzero y hy⟩

theorem F64.eq_or_zero_of_eq {x y : F64} (h : x.eq y = true) :
    x = y ∨ (x = ⟨0⟩ ∨ x = ⟨0x8000000000000000⟩) ∧ (y = ⟨0⟩ ∨ y = ⟨0x8000000000000000⟩) := by
  have hzero : ∀ z : F64, z.bits.toNat % doubleFormat.signBit = 0 →
      z = ⟨0⟩ ∨ z = ⟨0x8000000000000000⟩ := by
    rintro ⟨b⟩ hb
    have hlt := b.toNat_lt
    have : b.toNat % 9223372036854775808 = 0 := hb
    simp only [F64.mk.injEq, ← UInt64.toNat_inj]
    simp
    omega
  rcases doubleFormat.eq_or_zero_of_eq x.bits_lt y.bits_lt h with h | ⟨hx, hy⟩
  · obtain ⟨b⟩ := x
    obtain ⟨b'⟩ := y
    exact Or.inl (congrArg F64.mk (UInt64.toNat_inj.1 h))
  · exact Or.inr ⟨hzero x hx, hzero y hy⟩

/-- **Narrowing respects equality**: a double equal to a widened float narrows to an equal
float. -/
theorem F32.eq_toF32 {x : F32} {d : F64} (hx : x.isFinite = true) (h : d.eq x.toF64 = true) :
    x.eq d.toF32 = true := by
  have hback := toF32_toF64 hx
  rcases F64.eq_or_zero_of_eq h with rfl | ⟨hd, hw⟩
  · rw [hback]
    exact eq_refl hx
  · rcases hd with rfl | rfl <;> rcases hw with hw | hw <;> rw [← hback, hw] <;> decide

namespace F32

/-! ### The greatest of some floats -/

theorem lt_trans {a b c : F32} (h : a.lt b = true) (h' : b.lt c = true) : a.lt c = true := by
  simp only [lt, FloatFormat.lt, Bool.and_eq_true, decide_eq_true_eq] at h h' ⊢
  exact ⟨⟨h.1.1, h'.1.2⟩, h.2.trans h'.2⟩

theorem lt_irrefl (a : F32) : a.lt a = false := by
  simp [lt, FloatFormat.lt]

/-- The greatest of some floats and 0. -/
structure GreatestOf (w : F32) (ws : List F32) : Prop where
  attained : w = zero ∨ w ∈ ws
  nonneg : w.lt zero = false
  le : ∀ w' ∈ ws, w.lt w' = false

namespace GreatestOf

variable {w w' : F32} {ws : List F32}

theorem nil : GreatestOf zero [] where
  attained := .inl rfl
  nonneg := lt_irrefl _
  le _ h := absurd h List.not_mem_nil

/-- One more float that is greater. -/
theorem raise (h : GreatestOf w ws) (hlt : w.lt w' = true) : GreatestOf w' (ws ++ [w']) where
  attained := .inr (List.mem_append_right _ (List.mem_singleton.2 rfl))
  nonneg := by
    by_contra hneg
    have hneg' := lt_trans hlt (Bool.not_eq_false _ ▸ hneg)
    exact absurd hneg' (by rw [h.nonneg]; exact Bool.false_ne_true)
  le v hv := by
    rcases List.mem_append.1 hv with hv | hv
    · by_contra hless
      have hless' := lt_trans hlt (Bool.not_eq_false _ ▸ hless)
      exact absurd hless' (by rw [h.le v hv]; exact Bool.false_ne_true)
    · rw [List.mem_singleton.1 hv]
      exact lt_irrefl w'

/-- One more float that is not greater. -/
theorem keep (h : GreatestOf w ws) (hle : w.lt w' = false) : GreatestOf w (ws ++ [w']) where
  attained := h.attained.imp_right (List.mem_append_left _)
  nonneg := h.nonneg
  le := List.forall_mem_append.2 ⟨h.le, List.forall_mem_singleton.2 hle⟩

/-- The greatest is one float only, where it is no NaN. -/
theorem unique (h : GreatestOf w ws) (h' : GreatestOf w' ws)
    (hw : w = zero ∨ zero.lt w = true) (hw' : w' = zero ∨ zero.lt w' = true) : w = w' := by
  have hmem : ∀ {v : F32}, GreatestOf v ws → zero.lt v = true → v ∈ ws := by
    intro v hv hpos
    refine hv.attained.resolve_left ?_
    rintro rfl
    exact absurd hpos (Bool.eq_false_iff.1 (lt_irrefl zero))
  rcases hw with rfl | hpos <;> rcases hw' with rfl | hpos'
  · rfl
  · exact absurd hpos' (Bool.eq_false_iff.1 (h.le w' (hmem h' hpos')))
  · exact absurd hpos (Bool.eq_false_iff.1 (h'.le w (hmem h hpos)))
  -- Neither of two positive floats is less, so they compare equal.
  have hle := h.le w' (hmem h' hpos')
  have hle' := h'.le w (hmem h hpos)
  have heq : w.eq w' = true := by
    simp only [lt, FloatFormat.lt, eq, FloatFormat.eq, Bool.and_eq_true, Bool.and_eq_false_iff,
      decide_eq_true_eq, decide_eq_false_iff_not] at hpos hpos' hle hle' ⊢
    refine ⟨⟨hpos.1.2, hpos'.1.2⟩, ?_⟩
    have h₁ := hle.resolve_left (by simp [hpos.1.2, hpos'.1.2])
    have h₂ := hle'.resolve_left (by simp [hpos.1.2, hpos'.1.2])
    exact beq_iff_eq.2 (le_antisymm (not_lt.1 h₂) (not_lt.1 h₁))
  rcases eq_or_zero_of_eq heq with heq | ⟨rfl | rfl, -⟩
  · exact heq
  · exact absurd hpos (by decide)
  · exact absurd hpos (by decide)

end GreatestOf

end F32

/-- The C library's decimal conversions of doubles. -/
class LibcDecimal where
  /-- `std::strtod`: the value and the number of bytes consumed. -/
  strtod : Bytes → F64 × ℕ
  /-- `std::snprintf` with `"%.17g"`. -/
  formatG17 : F64 → Bytes
  /-- `std::to_string(double)`. -/
  toString : F64 → Bytes

/-- The conversions on integers: exact on the doubles that are integers below `10 ^ 17` and on
integer tokens, and total elsewhere. -/
@[reducible] def LibcDecimal.integral : LibcDecimal where
  strtod s :=
    let neg := s.head? == some 45
    let digits := if neg then s.tail else s
    (⟨UInt64.ofNat (doubleFormat.round neg
      (digits.foldl (fun v c ↦ 10 * v + (c.toNat - 48)) 0) 0)⟩, s.length)
  formatG17 d :=
    match d.value with
    | .finite neg sig exp =>
      (if neg then [45] else []) ++ decimal (FloatValue.finite false sig exp).floorNat
    | _ => str "nan"
  toString d := decimal d.value.floorNat ++ str ".000000"

end Spp
