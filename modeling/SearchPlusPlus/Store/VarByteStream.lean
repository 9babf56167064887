import SearchPlusPlus.Store.VarByte

/-!
# Group sequences

What a decoder reads is a group sequence: bytes with the continuation bit and one without
(`Terminated`), whose value is that of its groups (`groupValue`). Encodings are such sequences, so
they can be written one after the other and are read back in step (`streams_roundTrip`).

On other bytes the decoders look at the number of groups only. The last group that is looked at
reaches beyond the width, and what it has there is lost without an error (`exactOn_iff`).
-/

namespace Spp.Store

/-- A group sequence: continuation bytes, and a byte that ends it. -/
def Terminated (seq : Bytes) : Prop :=
  ∃ init last, seq = init ++ [last] ∧ (∀ b ∈ init, 128 ≤ b.toNat) ∧ last.toNat < 128

/-- The value of groups of seven bits, the least significant first. -/
def groupValue : Bytes → ℕ
  | [] => 0
  | b :: bs => b.toNat % 128 + 128 * groupValue bs

/-- The result is `Corruption`. -/
def Corrupt {α : Type} (r : Expected α) : Prop := ∃ m, r = .error (.corruption m)

theorem groupValue_append (as bs : Bytes) :
    groupValue (as ++ bs) = groupValue as + 128 ^ as.length * groupValue bs := by
  induction as with
  | nil => simp [groupValue]
  | cons a as ih =>
    rw [List.cons_append, groupValue, groupValue, ih, List.length_cons, pow_succ]
    ring

theorem groupValue_lt (bs : Bytes) : groupValue bs < 128 ^ bs.length := by
  induction bs with
  | nil => exact Nat.one_pos
  | cons b bs ih =>
    rw [groupValue, List.length_cons, pow_succ]
    have hb : b.toNat % 128 < 128 := Nat.mod_lt _ (by decide)
    omega

/-- Bytes that all have the continuation bit, or a group sequence with something behind it. -/
theorem continued_or_terminated (bytes : Bytes) :
    (∀ b ∈ bytes, 128 ≤ b.toNat) ∨ ∃ init last rest, bytes = init ++ last :: rest ∧
      (∀ b ∈ init, 128 ≤ b.toNat) ∧ last.toNat < 128 := by
  induction bytes with
  | nil => exact Or.inl fun b hb ↦ absurd hb List.not_mem_nil
  | cons b bytes ih =>
    by_cases hb : b.toNat < 128
    · exact Or.inr ⟨[], b, bytes, rfl, fun b hb ↦ absurd hb List.not_mem_nil, hb⟩
    · have hb' : 128 ≤ b.toNat := Nat.le_of_not_lt hb
      rcases ih with hall | ⟨init, last, rest, rfl, hinit, hlast⟩
      · exact Or.inl (List.forall_mem_cons.2 ⟨hb', hall⟩)
      · exact Or.inr ⟨b :: init, last, rest, rfl, List.forall_mem_cons.2 ⟨hb', hinit⟩, hlast⟩

/-- A group sequence ends at the first byte without the continuation bit. -/
theorem init_eq_takeWhile {init : Bytes} {last : UInt8} (hinit : ∀ b ∈ init, 128 ≤ b.toNat)
    (hlast : last.toNat < 128) (rest : Bytes) :
    (init ++ last :: rest).takeWhile (fun b ↦ 128 ≤ b.toNat) = init := by
  rw [List.takeWhile_append_of_pos fun b hb ↦ decide_eq_true (hinit b hb),
    List.takeWhile_cons_of_neg (by simpa using hlast), List.append_nil]

theorem terminated_unique {init rest seq rest' : Bytes} {last : UInt8}
    (hinit : ∀ b ∈ init, 128 ≤ b.toNat) (hlast : last.toNat < 128) (hseq : Terminated seq)
    (h : init ++ last :: rest = seq ++ rest') : seq = init ++ [last] ∧ rest' = rest := by
  obtain ⟨init', last', rfl, hinit', hlast'⟩ := hseq
  rw [List.append_assoc, List.singleton_append] at h
  have hsame : init = init' := by
    rw [← init_eq_takeWhile hinit hlast rest, h, init_eq_takeWhile hinit' hlast']
  subst hsame
  have htail := List.append_cancel_left h
  rw [List.cons.injEq] at htail
  exact ⟨by rw [htail.1], htail.2.symm⟩

/-! ### What the loop does -/

section Loop

variable {width result shift : ℕ} {name : Bytes}

theorem decodeVarUint_of_continued {b : UInt8} (hb : 128 ≤ b.toNat) (hwidth : ¬width ≤ shift)
    (rest : Bytes) : decodeVarUint width name result shift (b :: rest) =
      decodeVarUint width name (result ||| ((b.toNat % 128) <<< shift) % 2 ^ width) (shift + 7)
        rest := by
  rw [decodeVarUint, if_neg hwidth]
  exact if_neg (Nat.not_lt.2 hb)

/-- Groups that all announce another one end in an error. -/
theorem corrupt_of_continued {bytes : Bytes} (h : ∀ b ∈ bytes, 128 ≤ b.toNat) :
    ∀ result shift, Corrupt (decodeVarUint width name result shift bytes).1 := by
  induction bytes with
  | nil => exact fun _ _ ↦ ⟨_, rfl⟩
  | cons b bytes ih =>
    obtain ⟨hb, hbytes⟩ := List.forall_mem_cons.1 h
    intro result shift
    by_cases hwidth : width ≤ shift
    · rw [decodeVarUint, if_pos hwidth]
      exact ⟨_, rfl⟩
    · rw [decodeVarUint_of_continued hb hwidth]
      exact ih hbytes _ _

/-- So do too many groups. -/
theorem corrupt_of_long {init : Bytes} (h : ∀ b ∈ init, 128 ≤ b.toNat) (rest : Bytes) :
    ∀ result shift, width ≤ shift + 7 * init.length →
      Corrupt (decodeVarUint width name result shift (init ++ rest)).1 := by
  induction init with
  | nil =>
    intro result shift hlong
    cases rest with
    | nil => exact ⟨_, rfl⟩
    | cons b rest =>
      rw [List.nil_append, decodeVarUint, if_pos (by simpa using hlong)]
      exact ⟨_, rfl⟩
  | cons b init ih =>
    obtain ⟨hb, hinit⟩ := List.forall_mem_cons.1 h
    intro result shift hlong
    rw [List.cons_append]
    by_cases hwidth : width ≤ shift
    · rw [decodeVarUint, if_pos hwidth]
      exact ⟨_, rfl⟩
    · rw [decodeVarUint_of_continued hb hwidth]
      refine ih hinit _ _ ?_
      rw [List.length_cons] at hlong
      omega

/-- The last group, of which the bits beyond the width are lost. -/
theorem or_group_mod {g : ℕ} (hres : result < 2 ^ shift) (hshift : shift < width) :
    result ||| (g <<< shift) % 2 ^ width = (result + g * 2 ^ shift) % 2 ^ width := by
  have hpow : 2 ^ width = 2 ^ (width - shift) * 2 ^ shift := by
    rw [← pow_add, Nat.sub_add_cancel hshift.le]
  have hkept : g * 2 ^ shift % 2 ^ width = g % 2 ^ (width - shift) * 2 ^ shift := by
    rw [hpow, Nat.mul_mod_mul_right]
  have hfit : g % 2 ^ (width - shift) * 2 ^ shift + 2 ^ shift ≤ 2 ^ width := by
    have hlt : g % 2 ^ (width - shift) < 2 ^ (width - shift) := Nat.mod_lt _ (Nat.two_pow_pos _)
    rw [hpow, ← Nat.succ_mul]
    exact Nat.mul_le_mul_right _ hlt
  have hres' : result < 2 ^ width := hres.trans_le (Nat.pow_le_pow_right (by decide) hshift.le)
  have hsum : (result + g * 2 ^ shift) % 2 ^ width =
      result + g % 2 ^ (width - shift) * 2 ^ shift := by
    rw [Nat.add_mod, hkept, Nat.mod_eq_of_lt hres']
    exact Nat.mod_eq_of_lt (by omega)
  rw [hsum, Nat.shiftLeft_eq, hkept, Nat.or_comm, Nat.mul_comm,
    ← Nat.two_pow_add_eq_or_of_lt hres, Nat.add_comm]

/-- **A group sequence that is not too long** is read up to its end, as its value modulo the
width. -/
theorem decodeVarUint_terminated {init : Bytes} {last : UInt8}
    (hinit : ∀ b ∈ init, 128 ≤ b.toNat) (hlast : last.toNat < 128) (rest : Bytes) :
    ∀ result shift, result < 2 ^ shift → shift + 7 * init.length < width →
      decodeVarUint width name result shift (init ++ last :: rest) =
        (.ok ((result + groupValue (init ++ [last]) * 2 ^ shift) % 2 ^ width), rest) := by
  induction init with
  | nil =>
    intro result shift hres hshort
    rw [List.length_nil] at hshort
    rw [List.nil_append, decodeVarUint, if_neg (by omega)]
    simp only
    rw [if_pos hlast, or_group_mod hres (by omega), List.nil_append, groupValue, groupValue,
      Nat.mul_zero, Nat.add_zero]
  | cons b init ih =>
    obtain ⟨hb, hinit⟩ := List.forall_mem_cons.1 hinit
    intro result shift hres hshort
    rw [List.length_cons] at hshort
    have hgroup : b.toNat % 128 < 128 := Nat.mod_lt _ (by decide)
    have hpow : 2 ^ (shift + 7) = 128 * 2 ^ shift := by rw [pow_add]; ring
    -- Only the last group may reach beyond the width.
    have hnext : result + b.toNat % 128 * 2 ^ shift < 2 ^ (shift + 7) := by
      have hle : b.toNat % 128 * 2 ^ shift ≤ 127 * 2 ^ shift := Nat.mul_le_mul_right _ (by omega)
      omega
    have hfit : result + b.toNat % 128 * 2 ^ shift < 2 ^ width :=
      hnext.trans_le (Nat.pow_le_pow_right (by decide) (by omega))
    rw [List.cons_append, decodeVarUint_of_continued hb (by omega),
      or_group_mod hres (by omega), Nat.mod_eq_of_lt hfit,
      ih hinit _ _ hnext (by omega), List.cons_append, groupValue, hpow]
    congr 3
    ring

end Loop

/-! ### Exactness -/

/-- What a decoder returns, as a number, and where it leaves the cursor. -/
abbrev Decoder := Bytes → Expected ℕ × Bytes

/-- `DecodeVarUint32`. -/
def decoder32 : Decoder := fun bytes ↦
  ((decodeVarUint32 bytes).1.map UInt32.toNat, (decodeVarUint32 bytes).2)

/-- `DecodeVarUint64`. -/
def decoder64 : Decoder := fun bytes ↦
  ((decodeVarUint64 bytes).1.map UInt64.toNat, (decodeVarUint64 bytes).2)

/-- A decoder of values below `2 ^ width` is exact or reports corruption. -/
structure ExactOn (width : ℕ) (decode : Decoder) (bytes : Bytes) : Prop where
  returned : ∀ v rest, decode bytes = (.ok v, rest) →
    v < 2 ^ width ∧ ∃ seq, bytes = seq ++ rest ∧ Terminated seq ∧ groupValue seq = v
  too_large : ∀ seq rest, bytes = seq ++ rest → Terminated seq → 2 ^ width ≤ groupValue seq →
    Corrupt (decode bytes).1
  unterminated : (∀ b ∈ bytes, 128 ≤ b.toNat) → Corrupt (decode bytes).1

/-- The bytes start with as many groups as the width takes, and the last has a bit beyond it. -/
def LosesBits (width : ℕ) (bytes : Bytes) : Prop :=
  ∃ init last rest, bytes = init ++ last :: rest ∧ (∀ b ∈ init, 128 ≤ b.toNat) ∧
    last.toNat < 128 ∧ init.length = width / 7 ∧ 2 ^ (width % 7) ≤ last.toNat

section Exactness

variable {width : ℕ} {name : Bytes}

/-- Whether the value of a group sequence that is not too long fits. -/
theorem groupValue_lt_iff {init : Bytes} {last : UInt8} (hlast : last.toNat < 128)
    (hshort : 7 * init.length < width) :
    groupValue (init ++ [last]) < 2 ^ width ↔
      ¬(init.length = width / 7 ∧ 2 ^ (width % 7) ≤ last.toNat) := by
  have hpow : ∀ n, 128 ^ n = 2 ^ (7 * n) := fun n ↦ (pow_mul 2 7 n).symm
  have hinit : groupValue init < 2 ^ (7 * init.length) := hpow _ ▸ groupValue_lt init
  have hvalue : groupValue (init ++ [last]) =
      groupValue init + 2 ^ (7 * init.length) * last.toNat := by
    rw [groupValue_append, hpow, groupValue, groupValue, Nat.mul_zero, Nat.add_zero,
      Nat.mod_eq_of_lt hlast]
  rw [hvalue]
  by_cases hlong : init.length = width / 7
  · have hsplit : 2 ^ width = 2 ^ (7 * init.length) * 2 ^ (width % 7) := by
      rw [← pow_add, hlong, Nat.div_add_mod]
    rw [hsplit, not_and, Nat.not_le]
    constructor
    · intro h _
      exact Nat.lt_of_mul_lt_mul_left (lt_of_le_of_lt (Nat.le_add_left _ _) h)
    · intro h
      have hle := Nat.mul_le_mul_left (2 ^ (7 * init.length)) (h hlong)
      rw [Nat.mul_succ] at hle
      omega
  · refine iff_of_true ?_ fun h ↦ hlong h.1
    -- A shorter sequence has room for its last group.
    have hroom : 2 ^ (7 * init.length) * 128 ≤ 2 ^ width := by
      rw [show 128 = 2 ^ 7 from rfl, ← pow_add]
      exact Nat.pow_le_pow_right (by decide) (by omega)
    have hle := Nat.mul_le_mul_left (2 ^ (7 * init.length)) (Nat.le_sub_one_of_lt hlast)
    omega

/-- What the loop returns fits the width. -/
theorem decodeVarUint_cases (width : ℕ) (name bytes : Bytes) :
    Corrupt (decodeVarUint width name 0 0 bytes).1 ∨ ∃ init last rest,
      bytes = init ++ last :: rest ∧ (∀ b ∈ init, 128 ≤ b.toNat) ∧ last.toNat < 128 ∧
        7 * init.length < width ∧ decodeVarUint width name 0 0 bytes =
          (.ok (groupValue (init ++ [last]) % 2 ^ width), rest) := by
  rcases continued_or_terminated bytes with hall | ⟨init, last, rest, rfl, hinit, hlast⟩
  · exact Or.inl (corrupt_of_continued hall 0 0)
  · rcases Nat.lt_or_ge (7 * init.length) width with hshort | hlong
    · refine Or.inr ⟨init, last, rest, rfl, hinit, hlast, hshort, ?_⟩
      rw [decodeVarUint_terminated hinit hlast rest 0 0 Nat.one_pos (by omega), Nat.zero_add,
        pow_zero, Nat.mul_one]
    · exact Or.inl (corrupt_of_long hinit _ 0 0 (by omega))

theorem exactOn_decodeVarUint_iff (hwidth : width % 7 ≠ 0) (bytes : Bytes) :
    ExactOn width (decodeVarUint width name 0 0) bytes ↔ ¬LosesBits width bytes := by
  rcases decodeVarUint_cases width name bytes with hcorrupt |
    ⟨init, last, rest, rfl, hinit, hlast, hshort, hdecode⟩
  · refine iff_of_true ⟨fun v rest h ↦ ?_, fun _ _ _ _ _ ↦ hcorrupt, fun _ ↦ hcorrupt⟩ ?_
    · obtain ⟨m, hm⟩ := hcorrupt
      rw [h] at hm
      cases hm
    · rintro ⟨init, last, rest, rfl, hinit, hlast, hlen, -⟩
      have hmod := Nat.div_add_mod width 7
      obtain ⟨m, hm⟩ := hcorrupt
      rw [decodeVarUint_terminated hinit hlast rest 0 0 Nat.one_pos (by omega)] at hm
      cases hm
  · have hloses : LosesBits width (init ++ last :: rest) ↔
        init.length = width / 7 ∧ 2 ^ (width % 7) ≤ last.toNat := by
      constructor
      · rintro ⟨init', last', rest', heq, hinit', hlast', hlen, hbits⟩
        have hsplit : init ++ last :: rest = init' ++ [last'] ++ rest' := by
          rw [heq, List.append_assoc, List.singleton_append]
        obtain ⟨hseq, -⟩ :=
          terminated_unique hinit hlast ⟨init', last', rfl, hinit', hlast'⟩ hsplit
        obtain ⟨rfl, hlast'⟩ := List.append_inj' hseq rfl
        cases hlast'
        exact ⟨hlen, hbits⟩
      · exact fun h ↦ ⟨init, last, rest, rfl, hinit, hlast, h⟩
    rw [hloses, ← groupValue_lt_iff hlast hshort]
    constructor
    · intro h
      obtain ⟨-, seq, hseq, hterm, hvalue⟩ := h.returned _ _ hdecode
      obtain ⟨rfl, -⟩ := terminated_unique hinit hlast hterm hseq
      rw [hvalue]
      exact Nat.mod_lt _ (Nat.two_pow_pos _)
    · intro hfit
      rw [Nat.mod_eq_of_lt hfit] at hdecode
      refine ⟨fun v rest' h ↦ ?_, fun seq rest' hseq hterm hlarge ↦ ?_, fun h ↦ ?_⟩
      · cases hdecode.symm.trans h
        exact ⟨hfit, _, by rw [List.append_assoc, List.singleton_append], ⟨_, _, rfl, hinit, hlast⟩,
          rfl⟩
      · obtain ⟨rfl, -⟩ := terminated_unique hinit hlast hterm hseq
        omega
      · have := h last (List.mem_append_right _ List.mem_cons_self)
        omega

/-- What the typed decoders return is what the loop returns. -/
theorem map_map_of_lt {α : Type} {ofNat : ℕ → α} {toNat : α → ℕ}
    (hround : ∀ n < 2 ^ width, toNat (ofNat n) = n) (name bytes : Bytes) :
    ((decodeVarUint width name 0 0 bytes).1.map ofNat).map toNat =
      (decodeVarUint width name 0 0 bytes).1 := by
  rcases decodeVarUint_cases width name bytes with ⟨m, hm⟩ | ⟨_, _, _, -, -, -, -, hdecode⟩
  · rw [hm]
    rfl
  · rw [hdecode]
    exact congrArg Except.ok (hround _ (Nat.mod_lt _ (Nat.two_pow_pos _)))

theorem decoder32_eq : decoder32 = decodeVarUint 32 (str "varuint32") 0 0 := by
  funext bytes
  refine Prod.ext (map_map_of_lt (fun n hn ↦ ?_) _ bytes) rfl
  rw [UInt32.toNat_ofNat']
  exact Nat.mod_eq_of_lt hn

theorem decoder64_eq : decoder64 = decodeVarUint 64 (str "varuint64") 0 0 := by
  funext bytes
  refine Prod.ext (map_map_of_lt (fun n hn ↦ ?_) _ bytes) rfl
  rw [UInt64.toNat_ofNat']
  exact Nat.mod_eq_of_lt hn

/-- **A decoder is exact or reports corruption, unless the last group has bits beyond the width**:
the fifth a value from 16 on, or the tenth one from 2 on. -/
theorem exactOn_iff (bytes : Bytes) :
    (ExactOn 32 decoder32 bytes ↔ ¬LosesBits 32 bytes) ∧
      (ExactOn 64 decoder64 bytes ↔ ¬LosesBits 64 bytes) := by
  rw [decoder32_eq, decoder64_eq]
  exact ⟨exactOn_decodeVarUint_iff (by decide) bytes, exactOn_decodeVarUint_iff (by decide) bytes⟩

end Exactness

/-- Five groups with the value `2 ^ 35 - 1` are returned as `2 ^ 32 - 1`. -/
theorem not_exactOn : ¬∀ bytes, ExactOn 32 decoder32 bytes ∧ ExactOn 64 decoder64 bytes := by
  intro h
  have hterm : Terminated [255, 255, 255, 255, 127] :=
    ⟨[255, 255, 255, 255], 127, rfl, by simp, by decide⟩
  obtain ⟨m, hm⟩ := (h [255, 255, 255, 255, 127]).1.too_large _ [] rfl hterm (by decide)
  cases hm

/-! ### Streams -/

/-- A value with its width. -/
inductive VarUint where
  | u32 (v : UInt32)
  | u64 (v : UInt64)
  deriving DecidableEq

/-- The two encodings. -/
inductive VarKind where
  | u32
  | u64
  deriving DecidableEq

namespace VarUint

def kind : VarUint → VarKind
  | u32 _ => .u32
  | u64 _ => .u64

/-- `EncodeVarUint32` or `EncodeVarUint64`. -/
def encode : VarUint → Bytes
  | u32 v => encodeVarUint32 v
  | u64 v => encodeVarUint64 v

end VarUint

/-- `DecodeVarUint32` or `DecodeVarUint64`. -/
def VarKind.decode : VarKind → Bytes → Expected VarUint × Bytes
  | u32, bytes => ((decodeVarUint32 bytes).1.map .u32, (decodeVarUint32 bytes).2)
  | u64, bytes => ((decodeVarUint64 bytes).1.map .u64, (decodeVarUint64 bytes).2)

/-- One decoder after the other; the first error ends it. -/
def decodeMany : List VarKind → Bytes → Expected (List VarUint) × Bytes
  | [], bytes => (.ok [], bytes)
  | k :: ks, bytes =>
    match k.decode bytes with
    | (.error e, rest) => (.error e, rest)
    | (.ok v, rest) => ((decodeMany ks rest).1.map (v :: ·), (decodeMany ks rest).2)

/-- The loop of `VarUint32Length`. -/
def varUintLengthLoop : ℕ → ℕ → ℕ → ℕ
  | 0, _, n => n
  | fuel + 1, v, n => if 128 ≤ v then varUintLengthLoop fuel (v / 128) (n + 1) else n

/-- `VarUint32Length`; four rounds leave fewer than seven bits. -/
def varUint32Length (v : UInt32) : ℕ := varUintLengthLoop 4 v.toNat 1

theorem VarUint.decode_encode (v : VarUint) (rest : Bytes) :
    v.kind.decode (v.encode ++ rest) = (.ok v, rest) := by
  cases v with
  | u32 v =>
    have hdecode : decodeVarUint32 ((u32 v).encode ++ rest) = (.ok v, rest) :=
      decodeVarUint32_encode v rest
    rw [kind, VarKind.decode, hdecode]
    rfl
  | u64 v =>
    have hdecode : decodeVarUint64 ((u64 v).encode ++ rest) = (.ok v, rest) :=
      decodeVarUint64_encode v rest
    rw [kind, VarKind.decode, hdecode]
    rfl

theorem decodeMany_flatMap (vs : List VarUint) (rest : Bytes) :
    decodeMany (vs.map (·.kind)) (vs.flatMap (·.encode) ++ rest) = (.ok vs, rest) := by
  induction vs with
  | nil => rfl
  | cons v vs ih =>
    rw [List.map_cons, List.flatMap_cons, List.append_assoc, decodeMany, v.decode_encode]
    simp only [ih]
    rfl

/-- Every byte of an encoding but the last has the continuation bit. -/
theorem continued_of_encoding (fuel : ℕ) : ∀ {v : ℕ} {b : Bytes}, b <+: encodeVarUint fuel v →
    b ≠ encodeVarUint fuel v → ∀ c ∈ b, 128 ≤ c.toNat := by
  induction fuel with
  | zero =>
    intro v b hb hne
    exact absurd (List.prefix_nil.1 hb) hne
  | succ fuel ih =>
    intro v b hb hne c hc
    rw [encodeVarUint] at hb hne
    split_ifs at hb hne with hv
    · obtain rfl | ⟨b', rfl, hb'⟩ := List.prefix_cons_iff.1 hb
      · cases hc
      · rcases List.mem_cons.1 hc with rfl | hc
        · have hbyte : (UInt8.ofNat (128 + v % 128)).toNat = 128 + v % 128 :=
            toNat_ofNat_of_lt (by omega)
          omega
        · exact ih hb' (fun h ↦ hne (h ▸ rfl)) c hc
    · obtain rfl | ⟨b', rfl, hb'⟩ := List.prefix_cons_iff.1 hb
      · cases hc
      · exact absurd (List.prefix_nil.1 hb' ▸ rfl) hne

theorem Corrupt.map {α β : Type} {r : Expected α} (h : Corrupt r) (f : α → β) :
    Corrupt (r.map f) := by
  obtain ⟨m, rfl⟩ := h
  exact ⟨m, rfl⟩

/-- A part of an encoding is no encoding. -/
theorem VarUint.corrupt_of_part {v : VarUint} {b : Bytes} (hb : b <+: v.encode)
    (hne : b ≠ v.encode) : Corrupt (v.kind.decode b).1 := by
  cases v with
  | u32 v => exact ((corrupt_of_continued (continued_of_encoding 5 hb hne) 0 0).map _).map _
  | u64 v => exact ((corrupt_of_continued (continued_of_encoding 10 hb hne) 0 0).map _).map _

theorem varUintLengthLoop_eq (fuel : ℕ) : ∀ {v : ℕ} (n : ℕ), v < 128 ^ (fuel + 1) →
    varUintLengthLoop fuel v (n + 1) = n + (encodeVarUint (fuel + 1) v).length := by
  induction fuel with
  | zero =>
    intro v n hv
    rw [encodeVarUint, if_neg (by omega)]
    rfl
  | succ fuel ih =>
    intro v n hv
    rw [varUintLengthLoop, encodeVarUint]
    split_ifs with hlong
    · rw [ih (n + 1) (by rw [pow_succ] at hv; omega), List.length_cons]
      omega
    · rfl

/-- **Streams of encodings are read back in step**, a part of an encoding is reported as
corruption, and `VarUint32Length` is the length of an encoding. -/
theorem streams_roundTrip :
    (∀ (vs : List VarUint) (rest : Bytes),
        decodeMany (vs.map (·.kind)) (vs.flatMap (·.encode) ++ rest) = (.ok vs, rest)) ∧
      (∀ (v : VarUint) (b : Bytes), b <+: v.encode → b ≠ v.encode →
        Corrupt (v.kind.decode b).1) ∧
      ∀ v : UInt32, (encodeVarUint32 v).length = varUint32Length v := by
  refine ⟨decodeMany_flatMap, fun v b ↦ v.corrupt_of_part, fun v ↦ ?_⟩
  have hv : v.toNat < 128 ^ 5 := v.toNat_lt.trans (by decide)
  have hlen := varUintLengthLoop_eq 4 0 hv
  rw [Nat.zero_add, Nat.zero_add] at hlen
  rw [varUint32Length, hlen, encodeVarUint32]

end Spp.Store
