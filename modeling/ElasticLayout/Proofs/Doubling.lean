import ElasticLayout.Proofs.Ranges

/-!
# Doubling in double precision

A positive number of double precision that is at most half the largest one is doubled without
rounding, and halving gives it back.  So two equal penalties weigh as much as one of them, as long
as their sum does not overflow.

* `IsStored` -- the mantissas and exponents of the positive numbers of double precision;
* `round_of_isStored`, `unpack_pack_of_isStored` -- such a number is changed neither by rounding nor
  by storing;
* `IsStored.add_self`, `IsStored.half` -- what doubling gives, and what halving makes of it;
* `weightFor_self_of_le_half` -- the weight of two equal penalties.
-/

namespace ElasticLayout

open Float.Model Float.Model.UnpackedFloat

/-! ### Stored numbers -/

/-- A positive number of double precision: a mantissa, and the exponent of the power of two that it
is multiplied with. -/
structure IsStored (m : ℕ) (e : ℤ) : Prop where
  pos : 0 < m
  lt : m < 2 ^ 53
  exponent_ge : -1074 ≤ e
  exponent_le : e ≤ 971
  /-- All bits of the mantissa are used, unless the exponent is the least. -/
  full : 2 ^ 52 ≤ m ∨ e = -1074

namespace IsStored

variable {m : ℕ} {e : ℤ}

theorem log2_le (h : IsStored m e) : m.log2 ≤ 52 := by
  have hlt := (Nat.log2_lt h.pos.ne').2 h.lt
  omega

theorem log2_eq (h : IsStored m e) (hfull : 2 ^ 52 ≤ m) : m.log2 = 52 :=
  le_antisymm h.log2_le ((Nat.le_log2 h.pos.ne').2 hfull)

theorem log2_mul_two_pow (hm : m ≠ 0) (k : ℕ) : (m * 2 ^ k).log2 = m.log2 + k := by
  induction k with
  | zero => rw [pow_zero, mul_one, add_zero]
  | succ k ih =>
    have hne : m * 2 ^ k ≠ 0 := mul_ne_zero hm (pow_ne_zero k two_ne_zero)
    rw [pow_succ', mul_left_comm, Nat.log2_two_mul hne, ih, add_assoc]

/-- The exponent is the one that rounding aims at, also if the mantissa is given with some bits
more. -/
theorem targetExponent_eq (h : IsStored m e) (k : ℕ) :
    Format.binary64.targetExponent (totalExponent (m * 2 ^ k) (e - k)) = e := by
  have hle := h.log2_le
  have hge := h.exponent_ge
  have hlog : (m * 2 ^ k).log2 = m.log2 + k := log2_mul_two_pow h.pos.ne' k
  have htotal : totalExponent (m * 2 ^ k) (e - k) = m.log2 + 1 + e := by
    unfold totalExponent
    rw [hlog]
    push_cast
    omega
  rw [htotal]
  show max ((m.log2 : ℤ) + 1 + e - 53) (-1074) = e
  rcases h.full with hfull | hleast
  · rw [h.log2_eq hfull]
    omega
  · omega

end IsStored

/-! ### Rounding -/

/-- Zeros are shifted out without a trace. -/
theorem shiftRight_mul_two_pow (k : ℕ) : ∀ m : ℕ,
    (⟨m * 2 ^ k, false, false⟩ : ExtendedMantissa) >>> k = ⟨m, false, false⟩ := by
  induction k with
  | zero => exact fun m => by rw [pow_zero, mul_one]; rfl
  | succ k ih =>
    intro m
    show ((⟨m * 2 ^ (k + 1), false, false⟩ : ExtendedMantissa) >>> k).shiftRightOne = _
    rw [pow_succ', ← mul_assoc, ih (m * 2)]
    unfold ExtendedMantissa.shiftRightOne
    simp

/-- The bits that a stored number is given with beyond its mantissa are shifted out. -/
theorem shiftToTargetExponent_of_isStored {m : ℕ} {e : ℤ} (h : IsStored m e) (k : ℕ) :
    shiftToTargetExponent Format.binary64 (m * 2 ^ k) (e - k) .exact
      = (⟨m, false, false⟩, e) := by
  unfold shiftToTargetExponent shiftToExponent
  rw [h.targetExponent_eq]
  have hshift : (e - (e - k)).toNat = k := by omega
  dsimp only
  rw [hshift, sub_add_cancel]
  exact congrArg (·, e) (shiftRight_mul_two_pow k m)

/-- **A number that can be stored is not changed by rounding.** -/
theorem roundWithAccuracy_of_isStored {m : ℕ} {e : ℤ} (h : IsStored m e) (k : ℕ) (sign : Sign) :
    roundWithAccuracy Format.binary64 sign (m * 2 ^ k) (e - k) .exact
      = .finite sign m e h.pos := by
  have hagain := shiftToTargetExponent_of_isStored h 0
  rw [pow_zero, mul_one, Nat.cast_zero, sub_zero] at hagain
  unfold roundWithAccuracy
  rw [shiftToTargetExponent_of_isStored h]
  show (match shiftToTargetExponent Format.binary64 m e .exact with
    | (final, exponent) => if hm : final.mantissa = 0 then UnpackedFloat.zero sign
      else .finite sign final.mantissa exponent (Nat.pos_of_ne_zero hm)) = _
  rw [hagain]
  exact dif_neg h.pos.ne'

/-- Also if the exponent has to grow. -/
theorem round_of_isStored {m : ℕ} {e : ℤ} (h : IsStored m e) (k : ℕ) (sign : Sign) :
    UnpackedFloat.round Format.binary64 sign (m * 2 ^ k) (e - k) = .finite sign m e h.pos := by
  unfold UnpackedFloat.round decreaseExponent
  rw [h.targetExponent_eq]
  have hshift : (e - k - e).toNat = 0 := by omega
  dsimp only
  rw [hshift, Nat.shiftLeft_zero, Nat.cast_zero, sub_zero]
  exact roundWithAccuracy_of_isStored h k sign

/-! ### Storing -/

theorem toNat_one_append (v : BitVec 52) : (1#1 ++ v).toNat = 2 ^ 52 + v.toNat := by
  rw [BitVec.toNat_append, ← Nat.shiftLeft_add_eq_or_of_lt v.isLt]
  rfl

/-- What is read from storage can be stored. -/
theorem isStored_of_unpack {b : BitVec Format.binary64.numBits} {sign : Sign} {m : ℕ} {e : ℤ}
    {hm : 0 < m} (h : UnpackedFloat.unpack Format.binary64 b = .finite sign m e hm) :
    IsStored m e := by
  have hmantissa : (unpackMantissa b).toNat < 2 ^ 52 := (unpackMantissa b).isLt
  have hexponent : (unpackExponent b).toNat < 2 ^ 11 := (unpackExponent b).isLt
  have hbias : (Format.binary64.exponentBias : ℤ) + (52 : ℕ) = 1075 := by decide
  have happend := toNat_one_append (unpackMantissa b)
  unfold UnpackedFloat.unpack at h
  dsimp only at h
  rw [hbias] at h
  split at h
  · split at h
    · exact absurd h (by simp)
    · exact absurd h (by simp)
  rename_i hfinite
  split at h
  · rename_i hzero
    split at h
    · exact absurd h (by simp)
    · obtain ⟨-, rfl, rfl⟩ := UnpackedFloat.finite.inj h
      rw [hzero]
      exact ⟨hm, hmantissa.trans (by decide), by decide, by decide, .inr (by decide)⟩
  · rename_i hnormal
    obtain ⟨-, rfl, rfl⟩ := UnpackedFloat.finite.inj h
    have hfinite : (unpackExponent b).toNat ≠ 2 ^ 11 - 1 := fun heq =>
      hfinite (BitVec.eq_of_toNat_eq heq)
    have hnormal : (unpackExponent b).toNat ≠ 0 := fun heq =>
      hnormal (BitVec.eq_of_toNat_eq heq)
    exact ⟨hm, by omega, by omega, by omega, .inl (by omega)⟩

/-- The fields of a number with a leading bit. -/
theorem unpack_normal (sign : Sign) {field : BitVec 11} (mantissa : BitVec 52)
    (hfinite : field ≠ -1#_) (hnormal : field ≠ 0#_) :
    UnpackedFloat.unpack Format.binary64 (packComponents Format.binary64 sign field mantissa)
      = .finite sign (2 ^ 52 + mantissa.toNat) (field.toNat - 1075)
          (Nat.add_pos_left (by decide) _) := by
  have hbias : (Format.binary64.exponentBias : ℤ) + (52 : ℕ) = 1075 := by decide
  unfold UnpackedFloat.unpack
  simp only [unpackMantissa_packComponents, unpackExponent_packComponents,
    unpackSign_packComponents, Sign.ofBitVec_toBitVec]
  rw [hbias, if_neg hfinite, if_neg hnormal]
  exact (UnpackedFloat.finite.injEq ..).mpr ⟨rfl, toNat_one_append mantissa, rfl⟩

/-- The fields of a number without. -/
theorem unpack_subnormal (sign : Sign) {mantissa : BitVec 52} (hpos : 0 < mantissa.toNat) :
    UnpackedFloat.unpack Format.binary64 (packComponents Format.binary64 sign 0#_ mantissa)
      = .finite sign mantissa.toNat (-1074) hpos := by
  have hne : mantissa ≠ 0#52 := fun heq => by
    rw [heq] at hpos
    exact absurd hpos (by decide)
  unfold UnpackedFloat.unpack
  simp only [unpackMantissa_packComponents, unpackExponent_packComponents,
    unpackSign_packComponents, Sign.ofBitVec_toBitVec]
  rw [if_neg (by decide), dif_neg hne]
  rfl

/-- **What can be stored is read back.** -/
theorem unpack_pack_of_isStored {m : ℕ} {e : ℤ} (h : IsStored m e) (sign : Sign) :
    UnpackedFloat.unpack Format.binary64
        (UnpackedFloat.pack Format.binary64 (.finite sign m e h.pos))
      = .finite sign m e h.pos := by
  obtain ⟨hpos, hlt, hge, hle, hfull⟩ := h
  obtain ⟨field, hfield⟩ : ∃ field : ℕ, (field : ℤ) = e + 1075 := ⟨(e + 1075).toNat, by omega⟩
  have hexponent : (e + (Format.binary64.exponentBias : ℤ) + (52 : ℕ)).toNat = field := by
    rw [show (Format.binary64.exponentBias : ℤ) = 1023 by decide]
    omega
  have hbits : m.log2 + 1 = Format.binary64.mantissaBits ↔ 2 ^ 52 ≤ m := by
    have hupper := (Nat.log2_lt hpos.ne').2 hlt
    rw [show Format.binary64.mantissaBits = 53 by decide, ← Nat.le_log2 hpos.ne']
    omega
  unfold UnpackedFloat.pack
  dsimp only
  rw [hexponent, if_neg (show ¬2 ^ 11 ≤ field + 1 by omega)]
  split
  · rename_i hnormal
    have hleading := hbits.1 hnormal
    have hstored : (BitVec.ofNat 11 field).toNat = field := by
      rw [BitVec.toNat_ofNat]
      omega
    rw [unpack_normal]
    · refine (UnpackedFloat.finite.injEq ..).mpr ⟨rfl, ?_, ?_⟩
      · rw [BitVec.toNat_ofNat]
        omega
      · rw [hstored]
        omega
    · intro heq
      have hfinite : field = 2 ^ 11 - 1 := hstored.symm.trans (congrArg BitVec.toNat heq)
      omega
    · intro heq
      have hzero : field = 0 := hstored.symm.trans (congrArg BitVec.toNat heq)
      omega
  · rename_i hsubnormal
    rw [hbits, not_le] at hsubnormal
    have hleast : e = -1074 := hfull.resolve_left (by omega)
    have hstored : (BitVec.ofNat 52 m).toNat = m := by
      rw [BitVec.toNat_ofNat]
      omega
    rw [unpack_subnormal sign (by rwa [hstored])]
    exact (UnpackedFloat.finite.injEq ..).mpr ⟨rfl, hstored, hleast.symm⟩

/-! ### Doubling and halving -/

/-- Doubling raises the exponent, or fills the mantissa where that has room. -/
def Doubles (m : ℕ) (e : ℤ) (m' : ℕ) (e' : ℤ) : Prop :=
  2 ^ 52 ≤ m ∧ m' = m ∧ e' = e + 1 ∨ m < 2 ^ 52 ∧ m' = m * 2 ∧ e' = e

namespace IsStored

variable {m m' : ℕ} {e e' : ℤ}

/-- There is a double, unless the exponent is the greatest. -/
theorem exists_doubles (h : IsStored m e) (hroom : e ≤ 970) :
    ∃ m' e', Doubles m e m' e' ∧ IsStored m' e' := by
  obtain ⟨hpos, hlt, hge, hle, hfull⟩ := h
  rcases Nat.lt_or_ge m (2 ^ 52) with hsmall | hlarge
  · exact ⟨m * 2, e, .inr ⟨hsmall, rfl, rfl⟩, by omega, by omega, hge, hle,
      .inr (hfull.resolve_left (by omega))⟩
  · exact ⟨m, e + 1, .inl ⟨hlarge, rfl, rfl⟩, hpos, hlt, by omega, by omega, .inl hlarge⟩

/-- The double, with the exponent it had before. -/
theorem exists_shift_of_doubles (h : Doubles m e m' e') :
    ∃ k : ℕ, m + m = m' * 2 ^ k ∧ e = e' - k := by
  rcases h with ⟨-, rfl, rfl⟩ | ⟨-, rfl, rfl⟩
  · exact ⟨1, by omega, by omega⟩
  · exact ⟨0, by omega, by omega⟩

/-- **A number is doubled without rounding.** -/
theorem add_self (h : IsStored m e) (h' : IsStored m' e') (hdouble : Doubles m e m' e') :
    UnpackedFloat.add Format.binary64 (.finite .positive m e h.pos) (.finite .positive m e h.pos)
      = .finite .positive m' e' h'.pos := by
  obtain ⟨k, hmantissa, hexponent⟩ := exists_shift_of_doubles hdouble
  unfold UnpackedFloat.add decreaseExponent
  dsimp only
  rw [min_self, sub_self]
  show UnpackedFloat.normalize Format.binary64 ((m : ℤ) + m) e .positive = _
  have hpos : compare ((m : ℤ) + m) 0 = .gt := compare_gt_iff_gt.2 (by have := h.pos; omega)
  unfold UnpackedFloat.normalize
  rw [hpos]
  show UnpackedFloat.round Format.binary64 .positive ((m : ℤ) + m).toNat e = _
  rw [show ((m : ℤ) + m).toNat = m' * 2 ^ k by omega, hexponent]
  exact round_of_isStored h' k .positive

/-- The quotient of a double and two has the bits of the number, and zeros behind them. -/
theorem exists_divCore (h : IsStored m e) (hdouble : Doubles m e m' e') : ∃ k : ℕ,
    divCore Format.binary64 m' e' (2 ^ 52) (-51) = (m * 2 ^ k, e - k, .exact) := by
  have hge := h.exponent_ge
  have hlog := h.log2_le
  -- Where the number ends up, as far as the least exponent allows.
  obtain ⟨k, hk⟩ : ∃ k : ℕ, (k : ℤ) = e - max (m.log2 + e - 53) (-1074) :=
    ⟨(e - max (m.log2 + e - 53) (-1074)).toNat, by omega⟩
  have htotal : totalExponent m' e' = m.log2 + e + 2 := by
    unfold totalExponent
    rcases hdouble with ⟨-, rfl, rfl⟩ | ⟨-, rfl, rfl⟩
    · omega
    · rw [mul_comm, Nat.log2_two_mul h.pos.ne']
      omega
  have htwo : totalExponent (2 ^ 52) (-51) = 2 := by
    unfold totalExponent
    rw [Nat.log2_two_pow]
    rfl
  have hlarger : e ≤ e' := by
    rcases hdouble with ⟨-, -, rfl⟩ | ⟨-, -, rfl⟩ <;> omega
  have htarget : min (e' - -51) (Format.binary64.targetExponent
      (totalExponent m' e' - totalExponent (2 ^ 52) (-51))) = e - k := by
    rw [htotal, htwo]
    show min (e' - -51) (max ((m.log2 : ℤ) + e + 2 - 2 - 53) (-1074)) = e - k
    omega
  have hshift : m' <<< (e' - -51 - (e - k)).toNat = m * 2 ^ k * 2 ^ 52 := by
    rcases hdouble with ⟨-, rfl, rfl⟩ | ⟨hsmall, rfl, rfl⟩
    · rw [show (e + 1 - -51 - (e - (k : ℤ))).toNat = k + 52 by omega, Nat.shiftLeft_eq, pow_add,
        mul_assoc]
    · have hleast : e' = -1074 := h.full.resolve_left (by omega)
      have hbits : m.log2 < 52 := (Nat.log2_lt h.pos.ne').2 hsmall
      obtain rfl : k = 0 := by omega
      rw [show (e' - -51 - (e' - ((0 : ℕ) : ℤ))).toNat = 51 by omega, Nat.shiftLeft_eq]
      omega
  refine ⟨k, ?_⟩
  unfold divCore
  dsimp only
  rw [htarget, hshift, Nat.mul_div_cancel _ (by decide), Nat.mul_mod_left]
  rfl

/-- **Halving a double gives the number back.** -/
theorem half (h : IsStored m e) (h' : IsStored m' e') (hdouble : Doubles m e m' e') :
    UnpackedFloat.div Format.binary64 (.finite .positive m' e' h'.pos)
        (.finite .positive (2 ^ 52) (-51) (by decide))
      = .finite .positive m e h.pos := by
  obtain ⟨k, hquotient⟩ := h.exists_divCore hdouble
  unfold UnpackedFloat.div
  dsimp only
  rw [hquotient]
  exact roundWithAccuracy_of_isStored h k _

end IsStored

/-! ### Two equal penalties -/

theorem unpack_two : (2.0 : Float).toModel.unpack
    = .finite .positive (2 ^ 52) (-51) (by decide) := rfl

theorem unpack_half_huge : ((Scalar.huge : Float) / 2.0).toModel.unpack
    = .finite .positive (2 ^ 53 - 1) 970 (by decide) := by
  have hbits : ((Scalar.huge : Float) / 2.0).toModel.toBits = 0x7FDFFFFFFFFFFFFF := by
    decide +kernel
  unfold Float.Model.unpack
  rw [hbits]
  rfl

/-- A positive number that is at most half the largest one is stored under an exponent that has
room for its double. -/
theorem unpack_of_le_half {p : Float} (hpos : 0 < p) (hle : p ≤ Scalar.huge / 2.0) :
    ∃ m e, ∃ h : IsStored m e, e ≤ 970 ∧ p.toModel.unpack = .finite .positive m e h.pos := by
  rw [DoubleOrder.lt_iff] at hpos
  rw [DoubleOrder.le_iff, unpack_half_huge] at hle
  rw [show (0 : Float).toModel.unpack = .zero .positive from rfl] at hpos
  cases hp : p.toModel.unpack with
  | notANumber =>
    rw [hp] at hpos
    exact absurd hpos (by simp [UnpackedFloat.compare])
  | infinity sign =>
    rw [hp] at hle hpos
    cases sign with
    | positive => exact absurd hle (by decide)
    | negative => exact absurd hpos (by decide)
  | zero sign =>
    rw [hp] at hpos
    cases sign <;> exact absurd hpos (by decide)
  | finite sign m e hm =>
    rw [hp] at hle hpos
    cases sign with
    | negative => exact absurd hpos (by simp [UnpackedFloat.compare])
    | positive =>
      refine ⟨m, e, isStored_of_unpack hp, ?_, rfl⟩
      by_contra hlarge
      have hcompare : compare e 970 = .gt := compare_gt_iff_gt.2 (not_le.1 hlarge)
      have hgreater : ((compare e 970).then (compare m (2 ^ 53 - 1))).isLE = true := hle
      rw [hcompare] at hgreater
      exact absurd hgreater Bool.false_ne_true

/-- **Halving a double gives the number back**, in double precision, as long as the double does not
overflow. -/
theorem half_double {p : Float} (hpos : 0 < p) (hle : p ≤ Scalar.huge / 2.0) :
    (p + p) / 2.0 = p := by
  obtain ⟨m, e, h, hroom, hp⟩ := unpack_of_le_half hpos hle
  obtain ⟨m', e', hdouble, h'⟩ := h.exists_doubles hroom
  have hsum : (p + p).toModel.unpack = .finite .positive m' e' h'.pos := by
    show UnpackedFloat.unpack Format.binary64 (UnpackedFloat.pack Format.binary64
      (UnpackedFloat.add Format.binary64 p.toModel.unpack p.toModel.unpack)) = _
    rw [hp, h.add_self h' hdouble, unpack_pack_of_isStored h']
  have hbits : ((p + p) / 2.0).toModel.toBits = p.toModel.toBits := by
    show UInt64.ofBitVec (UnpackedFloat.pack Format.binary64 (UnpackedFloat.div Format.binary64
      (p + p).toModel.unpack (2.0 : Float).toModel.unpack)) = _
    rw [hsum, unpack_two, h.half h' hdouble, ← hp]
    exact congrArg UInt64.ofBitVec (pack_unpack_of_valid p.toModel.valid)
  exact Float.toBits_inj.1 hbits

theorem weightFor_self_eq {α : Type} [Scalar α] {p : α} (hpos : 0 < p) :
    weightFor p p = (0 + p + p) / 2.0 := by
  unfold weightFor
  dsimp only
  rw [if_pos hpos, if_pos hpos, if_pos ⟨hpos, hpos⟩]

/-- **Two equal penalties weigh as much as one**, as long as their sum does not overflow. -/
theorem weightFor_self_of_le_half {p : Float} (hpos : 0 < p) (hle : p ≤ Scalar.huge / 2.0) :
    weightFor p p = p := by
  obtain ⟨m, e, h, -, hp⟩ := unpack_of_le_half hpos hle
  have hzero : (0 : Float) + p = p := by
    refine Float.toBits_inj.1 ?_
    show UInt64.ofBitVec (UnpackedFloat.pack Format.binary64
      (UnpackedFloat.add Format.binary64 (.zero .positive) p.toModel.unpack)) = p.toModel.toBits
    rw [show UnpackedFloat.add Format.binary64 (.zero .positive) p.toModel.unpack
      = p.toModel.unpack by rw [hp]; rfl]
    exact congrArg UInt64.ofBitVec (pack_unpack_of_valid p.toModel.valid)
  rw [weightFor_self_eq hpos]
  show (0 + p + p) / 2.0 = p
  rw [hzero, half_double hpos hle]

end ElasticLayout
