import Mathlib
import ExprMachine.Proofs.Decimal.Nearest

/-! Arithmetic on doubles. A result is the double nearest to the quotient or the product of the
operands, as a quotient of whole numbers. -/

namespace ExprMachine

namespace Decimal

variable {num den : Nat}

/-- Equal quotients are rounded alike. -/
theorem roundDiv_congr {num' den' : Nat} (hd : 0 < den) (hd' : 0 < den')
    (h : num * den' = num' * den) : roundDiv num den = roundDiv num' den' := by
  rw [← roundDiv_mul_right num den hd', h, Nat.mul_comm den, roundDiv_mul_right num' den' hd]

open Float.Model Float.Model.UnpackedFloat

/-- The quotient cut off after its last whole bit, and what is known of the bits after it. -/
def truncated (num den : Nat) : ExtendedMantissa :=
  .ofMantissaAndAccuracy (num / den) (accuracyOfFraction (num % den) den)

theorem truncated_eq (num den : Nat) : truncated num den =
    ⟨num / den, decide (den ≤ 2 * (num % den) ∧ 0 < num % den),
      decide (0 < num % den ∧ 2 * (num % den) ≠ den)⟩ := by
  unfold truncated accuracyOfFraction
  by_cases h : num % den = 0
  · simp [h, ExtendedMantissa.ofMantissaAndAccuracy]
  · rw [if_neg h]
    rcases Nat.lt_trichotomy (2 * (num % den)) den with hlt | heq | hgt
    · rw [Nat.compare_eq_lt.mpr hlt]
      simp [ExtendedMantissa.ofMantissaAndAccuracy]
      omega
    · rw [Nat.compare_eq_eq.mpr heq]
      simp [ExtendedMantissa.ofMantissaAndAccuracy]
      omega
    · rw [Nat.compare_eq_gt.mpr hgt]
      simp [ExtendedMantissa.ofMantissaAndAccuracy]
      omega

theorem shiftRightOne_truncated (num : Nat) (hd : 0 < den) :
    (truncated num den).shiftRightOne = truncated num (den * 2) := by
  have hdiv : num / (den * 2) = num / den / 2 := (Nat.div_div_eq_div_mul _ _ _).symm
  have hmod : num % (den * 2) = num % den + den * (num / den % 2) := Nat.mod_mul
  have hlt := Nat.mod_lt num hd
  rw [truncated_eq, truncated_eq, ExtendedMantissa.shiftRightOne, hdiv, hmod]
  congr 1
  · apply Bool.eq_iff_iff.mpr
    rcases Nat.mod_two_eq_zero_or_one (num / den) with h | h <;> rw [h] <;> simp <;> omega
  · apply Bool.eq_iff_iff.mpr
    rcases Nat.mod_two_eq_zero_or_one (num / den) with h | h <;> rw [h] <;> simp <;> omega

theorem shiftRight_truncated (num : Nat) (hd : 0 < den) (n : Nat) :
    truncated num den >>> n = truncated num (den * 2 ^ n) := by
  induction n with
  | zero => rw [Nat.pow_zero, Nat.mul_one]; rfl
  | succ n ih =>
    have hpos : 0 < den * 2 ^ n := Nat.mul_pos hd (Nat.two_pow_pos n)
    rw [Nat.pow_succ, ← Nat.mul_assoc, ← shiftRightOne_truncated num hpos, ← ih]
    rfl

theorem roundedMantissa_truncated (num : Nat) (hd : 0 < den) :
    (truncated num den).roundedMantissa = roundDiv num den := by
  have hlt := Nat.mod_lt num hd
  unfold truncated accuracyOfFraction roundDiv
  dsimp only
  by_cases h : num % den = 0
  · rw [if_pos h, h, if_pos (by omega)]
    rfl
  · rw [if_neg h]
    rcases Nat.lt_trichotomy (2 * (num % den)) den with hlt | heq | hgt
    · rw [Nat.compare_eq_lt.mpr hlt, if_pos hlt]
      rfl
    · rw [Nat.compare_eq_eq.mpr heq, if_neg (by omega), if_neg (by omega)]
      rfl
    · rw [Nat.compare_eq_gt.mpr hgt, if_neg (by omega), if_pos hgt]
      rfl

end Decimal

namespace Magnitude

open Float.Model Float.Model.UnpackedFloat

def signOf (negative : Bool) : Sign := if negative then .negative else .positive

def signBits (negative : Bool) : Nat := if negative then 2 ^ 63 else 0

/-- A finite double taken apart. -/
def unpacked (negative : Bool) (mantissa scale : Nat) : UnpackedFloat :=
  if h : mantissa = 0 then .zero (signOf negative)
  else .finite (signOf negative) mantissa (scale - 1074) (Nat.pos_of_ne_zero h)

theorem packComponents_toNat (negative : Bool) (exponent : BitVec 11) (mantissa : BitVec 52) :
    (packComponents Format.binary64 (signOf negative) exponent mantissa).toNat =
      signBits negative + (exponent.toNat * 2 ^ 52 + mantissa.toNat) := by
  have he := exponent.isLt
  have hm := mantissa.isLt
  have hsign : (signOf negative).toBitVec.toNat = if negative then 1 else 0 := by
    cases negative <;> rfl
  rw [packComponents, BitVec.toNat_append, BitVec.toNat_append, hsign,
    ← Nat.shiftLeft_add_eq_or_of_lt he, ← Nat.shiftLeft_add_eq_or_of_lt hm]
  cases negative with
  | false => simp [signBits, Nat.shiftLeft_eq]
  | true =>
    simp [signBits, Nat.shiftLeft_eq]
    omega

theorem biased_exponent (scale : Nat) : ((scale : Int) - 1074 +
    (Format.binary64.exponentBias : Int) + ((52 : Nat) : Int)).toNat = scale + 1 := by
  have hbias : (Format.binary64.exponentBias : Int) = 1023 := rfl
  rw [hbias]
  omega

theorem pack_unpacked (negative : Bool) {mantissa scale : Nat} (h : Canonical mantissa scale) :
    (UnpackedFloat.pack Format.binary64 (unpacked negative mantissa scale)).toNat =
      signBits negative + (scale * 2 ^ 52 + mantissa) := by
  obtain ⟨hlt, hnormal, hle⟩ := h
  unfold unpacked
  split
  · next h0 =>
    obtain rfl : scale = 0 := by omega
    subst h0
    exact packComponents_toNat negative 0 0
  · next h0 =>
    simp only [UnpackedFloat.pack, biased_exponent]
    rw [if_neg (by show ¬2 ^ 11 ≤ scale + 1 + 1; omega)]
    by_cases hm : mantissa < 2 ^ 52
    · obtain rfl : scale = 0 := by omega
      have hlog : mantissa.log2 < 52 := (Nat.log2_lt h0).mpr hm
      rw [if_neg (by show ¬mantissa.log2 + 1 = 53; omega), packComponents_toNat]
      simp only [BitVec.toNat_ofNat, Nat.zero_mod, Nat.mod_eq_of_lt hm]
    · have hlog : mantissa.log2 = 52 := (Nat.log2_eq_iff h0).mpr ⟨by omega, hlt⟩
      rw [if_pos (by show mantissa.log2 + 1 = 53; omega), packComponents_toNat]
      have hexponent : (scale + 1) % 2 ^ 11 = scale + 1 := Nat.mod_eq_of_lt (by omega)
      have hfraction : mantissa % 2 ^ 52 = mantissa - 2 ^ 52 := by omega
      simp only [BitVec.toNat_ofNat, hexponent, hfraction]
      omega

theorem pack_too_large (negative : Bool) {mantissa scale : Nat} (hm : 0 < mantissa)
    (hs : 2046 ≤ scale) :
    (UnpackedFloat.pack Format.binary64 (unpacked negative mantissa scale)).toNat =
      signBits negative + infinityBits := by
  rw [unpacked, dif_neg (Nat.ne_of_gt hm)]
  simp only [UnpackedFloat.pack, biased_exponent]
  rw [if_pos (by show 2 ^ 11 ≤ scale + 1 + 1; omega), packedInfinity, packComponents_toNat]
  rfl

end Magnitude

namespace Decimal

open Float.Model Float.Model.UnpackedFloat Magnitude

theorem targetExponent_eq (n : Int) :
    Format.binary64.targetExponent n = max (n - 53) (-1074) := rfl

/-- The exponent at which the quotient is cut off is that of its scale. -/
theorem scaleOf_target {num' den' up down : Nat} {e : Int} (hd : 0 < den) (hd' : 0 < den')
    (hvalue : unitsOf num' * (den * 2 ^ down) = num * 2 ^ up * den') (he : e + 1074 = up - down)
    (ht : e ≤ Format.binary64.targetExponent (totalExponent (num / den) e)) :
    Format.binary64.targetExponent (totalExponent (num / den) e) = scaleOf num' den' - 1074 := by
  obtain ⟨scale, hscale⟩ : ∃ scale : Nat,
      Format.binary64.targetExponent (totalExponent (num / den) e) = scale - 1074 := by
    refine ⟨(Format.binary64.targetExponent (totalExponent (num / den) e) + 1074).toNat, ?_⟩
    rw [targetExponent_eq]
    omega
  rw [targetExponent_eq, totalExponent] at hscale ht
  have hpos : 0 < den * 2 ^ down := Nat.mul_pos hd (Nat.two_pow_pos _)
  have hpow (k : Nat) : den' * 2 ^ k * (den * 2 ^ down) = den * 2 ^ (k + down) * den' := by
    rw [Nat.pow_add]
    ring
  rw [targetExponent_eq, totalExponent, hscale]
  congr 2
  refine (scaleOf_eq hd' ?_ ?_).symm
  · have hlt : num < den * 2 ^ ((num / den).log2 + 1) := by
      rw [Nat.mul_comm, ← Nat.div_lt_iff_lt_mul hd]
      exact Nat.lt_log2_self
    have hup : num * 2 ^ up < den * 2 ^ (scale + 53 + down) :=
      calc num * 2 ^ up < den * 2 ^ ((num / den).log2 + 1) * 2 ^ up :=
            Nat.mul_lt_mul_of_pos_right hlt (Nat.two_pow_pos _)
        _ = den * 2 ^ ((num / den).log2 + 1 + up) := by rw [Nat.mul_assoc, ← Nat.pow_add]
        _ ≤ den * 2 ^ (scale + 53 + down) :=
            Nat.mul_le_mul_left _ (Nat.pow_le_pow_right Nat.two_pos (by omega))
    rw [← Nat.mul_lt_mul_right hpos, hvalue, hpow]
    exact Nat.mul_lt_mul_of_pos_right hup hd'
  · by_cases h0 : scale = 0
    · exact .inl h0
    · have hne : num / den ≠ 0 := by
        intro hz
        rw [hz, Nat.log2_zero] at hscale ht
        omega
      have hle : den * 2 ^ (num / den).log2 ≤ num :=
        (Nat.mul_le_mul_left den (Nat.log2_self_le hne)).trans (Nat.mul_div_le _ _)
      have hup : den * 2 ^ (scale + 52 + down) ≤ num * 2 ^ up :=
        calc den * 2 ^ (scale + 52 + down) = den * 2 ^ (num / den).log2 * 2 ^ up := by
              rw [Nat.mul_assoc, ← Nat.pow_add]
              congr 2
              omega
          _ ≤ num * 2 ^ up := Nat.mul_le_mul_right _ hle
      refine .inr ?_
      rw [← Nat.mul_le_mul_right_iff hpos, hvalue, hpow]
      exact Nat.mul_le_mul_right _ hup

/-- Only a mantissa that was rounded up to another bit is shifted again. -/
theorem shift_rounded {mantissa : Nat} (scale : Nat) (hm : mantissa ≤ 2 ^ 53) :
    shiftToTargetExponent Format.binary64 mantissa ((scale : Int) - 1074) .exact =
      if mantissa = 2 ^ 53 then (⟨2 ^ 52, false, false⟩, ((scale + 1 : Nat) : Int) - 1074)
      else (⟨mantissa, false, false⟩, (scale : Int) - 1074) := by
  unfold shiftToTargetExponent shiftToExponent totalExponent
  rw [targetExponent_eq]
  dsimp only
  split
  · next h =>
    have hshift : (max (((2 ^ 53 : Nat).log2 : Int) + 1 + ((scale : Int) - 1074) - 53) (-1074) -
        ((scale : Int) - 1074)).toNat = 1 := by
      rw [Nat.log2_two_pow]
      omega
    rw [h, hshift]
    refine Prod.ext rfl ?_
    dsimp only
    omega
  · next h =>
    have hlog : mantissa.log2 ≤ 52 := by
      by_cases h0 : mantissa = 0
      · rw [h0, Nat.log2_zero]
        omega
      · exact Nat.le_of_lt_succ ((Nat.log2_lt h0).mpr (by omega))
    have hshift : (max ((mantissa.log2 : Int) + 1 + ((scale : Int) - 1074) - 53) (-1074) -
        ((scale : Int) - 1074)).toNat = 0 := by
      omega
    rw [hshift]
    exact Prod.ext rfl (Int.add_zero _)

theorem pack_round (negative : Bool) {num' den' up down : Nat} {e : Int} (hd : 0 < den)
    (hd' : 0 < den') (hvalue : unitsOf num' * (den * 2 ^ down) = num * 2 ^ up * den')
    (he : e + 1074 = up - down)
    (ht : e ≤ Format.binary64.targetExponent (totalExponent (num / den) e)) :
    (UnpackedFloat.pack Format.binary64 (roundWithAccuracy Format.binary64 (signOf negative)
      (num / den) e (accuracyOfFraction (num % den) den))).toNat =
      signBits negative + nearestBits num' den' := by
  have htarget := scaleOf_target hd hd' hvalue he ht
  obtain ⟨shift, hshift⟩ : ∃ shift : Nat, (scaleOf num' den' : Int) - 1074 - e = shift :=
    ⟨_, (Int.toNat_of_nonneg (by omega)).symm⟩
  have hfirst : shiftToTargetExponent Format.binary64 (num / den) e
      (accuracyOfFraction (num % den) den) =
        (truncated num (den * 2 ^ shift), (scaleOf num' den' : Int) - 1074) := by
    rw [shiftToTargetExponent, htarget, shiftToExponent, hshift, ← shiftRight_truncated num hd]
    refine Prod.ext rfl ?_
    dsimp only
    omega
  have hmantissa : roundDiv num (den * 2 ^ shift) = mantissaOf num' den' := by
    refine roundDiv_congr (Nat.mul_pos hd (Nat.two_pow_pos _))
      (Nat.mul_pos hd' (Nat.two_pow_pos _)) ?_
    have hdown : 0 < 2 ^ down := Nat.two_pow_pos down
    have hexponent : scaleOf num' den' + down = up + shift := by omega
    refine Nat.eq_of_mul_eq_mul_right hdown ?_
    calc num * (den' * 2 ^ scaleOf num' den') * 2 ^ down
        = num * den' * 2 ^ (scaleOf num' den' + down) := by rw [Nat.pow_add]; ring
      _ = num * 2 ^ up * den' * 2 ^ shift := by rw [hexponent, Nat.pow_add]; ring
      _ = unitsOf num' * (den * 2 ^ shift) * 2 ^ down := by rw [← hvalue]; ring
  have hle := mantissaOf_le num' hd'
  have hge := le_mantissaOf num' hd'
  have hinfinity : infinityBits = 2047 * 2 ^ 52 := by decide
  have hpos : 0 < den * 2 ^ shift := Nat.mul_pos hd (Nat.two_pow_pos _)
  -- a carry has the least mantissa on the next scale, as in `exists_canonical`
  obtain ⟨mantissa, scale, hlast, hcanonical, hbits⟩ : ∃ mantissa scale : Nat,
      shiftToTargetExponent Format.binary64 (mantissaOf num' den')
        ((scaleOf num' den' : Int) - 1074) .exact =
          (⟨mantissa, false, false⟩, (scale : Int) - 1074) ∧
      (scale ≤ 2045 → Canonical mantissa scale) ∧ (2045 < scale → 2 ^ 52 ≤ mantissa) ∧
      scaleOf num' den' * 2 ^ 52 + mantissaOf num' den' = scale * 2 ^ 52 + mantissa := by
    rw [shift_rounded _ hle]
    split
    · next h => exact ⟨_, _, rfl, fun hs => ⟨by omega, .inr (Nat.le_refl _), hs⟩, by omega, by omega⟩
    · next h => exact ⟨_, _, rfl, fun hs => ⟨by omega, hge, hs⟩, by omega, rfl⟩
  obtain ⟨hlarge, hbits⟩ := hbits
  have hround : roundWithAccuracy Format.binary64 (signOf negative) (num / den) e
      (accuracyOfFraction (num % den) den) = unpacked negative mantissa scale := by
    simp only [roundWithAccuracy, hfirst, roundedMantissa_truncated num hpos, hmantissa, hlast]
    rfl
  rw [hround, nearestBits_eq, hbits]
  by_cases hs : scale ≤ 2045
  · obtain ⟨hlt, -, -⟩ := hcanonical hs
    rw [pack_unpacked negative (hcanonical hs), hinfinity, Nat.min_eq_left (by omega)]
  · have hm := hlarge (by omega)
    rw [pack_too_large negative (by omega) (by omega), hinfinity, Nat.min_eq_right (by omega)]

end Decimal

open Magnitude Float.Model Float.Model.UnpackedFloat

/-- A finite double with its sign, and its mantissa and scale in the form in which it is stored. -/
structure Holds (x : Float) (negative : Bool) (mantissa scale : Nat) : Prop where
  canonical : Canonical mantissa scale
  bits : x.toBits.toNat = signBits negative + (scale * 2 ^ 52 + mantissa)

namespace Holds

variable {x y : Float} {negative : Bool} {m s n t : Nat}

theorem bits_of_positive (h : Holds x false m s) : x.toBits.toNat = s * 2 ^ 52 + m := by
  rw [h.bits, signBits, if_neg Bool.false_ne_true, Nat.zero_add]

/-- A mantissa of 53 bits counts its first bit in the exponent. -/
theorem mantissa_field (h : Holds x negative m s) :
    (@unpackMantissa Format.binary64 x.toModel.toBits.toBitVec).toNat = m % 2 ^ 52 := by
  have hn : x.toModel.toBits.toBitVec.toNat = signBits negative + (s * 2 ^ 52 + m) := h.bits
  rw [unpackMantissa_def]
  simp only [BitVec.extractLsb'_toNat, hn]
  cases negative <;> simp [signBits]
  omega

theorem exponent_field (h : Holds x negative m s) :
    (@unpackExponent Format.binary64 x.toModel.toBits.toBitVec).toNat = s + m / 2 ^ 52 := by
  obtain ⟨⟨hlt, hnormal, hle⟩, hbits⟩ := h
  have hn : x.toModel.toBits.toBitVec.toNat = signBits negative + (s * 2 ^ 52 + m) := hbits
  rw [unpackExponent_def]
  simp only [BitVec.extractLsb'_toNat, hn]
  cases negative <;> simp [signBits, Nat.shiftRight_eq_div_pow] <;> omega

theorem sign_field (h : Holds x negative m s) :
    Sign.ofBitVec (@unpackSign Format.binary64 x.toModel.toBits.toBitVec) = signOf negative := by
  obtain ⟨⟨hlt, hnormal, hle⟩, hbits⟩ := h
  have hn : x.toModel.toBits.toBitVec.toNat = signBits negative + (s * 2 ^ 52 + m) := hbits
  have hbit : (@unpackSign Format.binary64 x.toModel.toBits.toBitVec).toNat =
      if negative then 1 else 0 := by
    rw [unpackSign_def]
    simp only [BitVec.extractLsb'_toNat, hn]
    cases negative <;> simp [signBits, Nat.shiftRight_eq_div_pow] <;> omega
  cases negative with
  | false => rw [BitVec.eq_of_toNat_eq (y := 0#1) hbit]; rfl
  | true => rw [BitVec.eq_of_toNat_eq (y := 1#1) hbit]; rfl

theorem unpack (h : Holds x negative m s) : x.toModel.unpack = unpacked negative m s := by
  have hmantissa := h.mantissa_field
  have hexponent := h.exponent_field
  have hsign := h.sign_field
  obtain ⟨hlt, hnormal, hle⟩ := h.canonical
  rw [Float.Model.unpack, UnpackedFloat.unpack]
  dsimp only
  rw [hsign, if_neg fun hones => ?_]
  · have hfinite {k : Nat} {e : Int} (hk : 0 < k) (hm : k = m) (he : e = (s : Int) - 1074) :
        UnpackedFloat.finite (signOf negative) k e hk = unpacked negative m s := by
      subst hm he
      rw [unpacked, dif_neg (Nat.ne_of_gt hk)]
    have hbias : (Format.binary64.exponentBias : Int) +
        (Format.binary64.mantissaBitsWithoutImplicit : Int) = 1075 := rfl
    by_cases hm : m < 2 ^ 52
    · obtain rfl : s = 0 := by omega
      rw [if_pos (BitVec.eq_of_toNat_eq (by rw [hexponent, Nat.div_eq_of_lt hm]; rfl))]
      split
      · next h0 =>
        have hz := congrArg BitVec.toNat h0
        rw [hmantissa, Nat.mod_eq_of_lt hm] at hz
        rw [unpacked, dif_pos (by simpa using hz)]
      · apply hfinite
        · rw [hmantissa, Nat.mod_eq_of_lt hm]
        · rw [hexponent, hbias]
          omega
    · rw [if_neg fun hzero => ?_]
      · apply hfinite
        · rw [BitVec.toNat_append, hmantissa, ← Nat.shiftLeft_add_eq_or_of_lt (Nat.mod_lt _ (by decide))]
          simp [Nat.shiftLeft_eq]
          omega
        · rw [hexponent, hbias]
          omega
      · have hz := congrArg BitVec.toNat hzero
        rw [hexponent] at hz
        simp at hz
        omega
  · have htop := congrArg BitVec.toNat hones
    rw [hexponent] at htop
    simp at htop
    omega

theorem ofFloat (h : Holds x negative m s) : Magnitude.ofFloat x = .finite m s := by
  rw [Magnitude.ofFloat, h.bits]
  cases negative with
  | false => simpa [signBits] using ofBits_of_canonical h.canonical 0
  | true => simpa [signBits] using ofBits_of_canonical h.canonical 1

theorem isNegative (h : Holds x negative m s) : isNegative x = negative := by
  obtain ⟨⟨hlt, hnormal, hle⟩, hbits⟩ := h
  have hsign : signBit = 2 ^ 63 := by decide
  rw [ExprMachine.isNegative, hbits, hsign]
  cases negative with
  | false => simp [signBits]; omega
  | true => simp [signBits]

theorem neg (h : Holds x negative m s) : Holds (-x) (!negative) m s := by
  refine ⟨h.canonical, ?_⟩
  have hbits : (-x).toBits.toNat =
      (UnpackedFloat.pack Format.binary64 x.toModel.unpack.neg).toNat := rfl
  have hneg : (unpacked negative m s).neg = unpacked (!negative) m s := by
    unfold unpacked
    split <;> cases negative <;> rfl
  rw [hbits, h.unpack, hneg, pack_unpacked _ h.canonical]

end Holds

theorem holds_of_finite {x : Float} {m s : Nat} (h : ofFloat x = .finite m s) :
    Holds x (isNegative x) m s := by
  obtain ⟨hc, hmod⟩ := canonical_of_ofBits h
  refine ⟨hc, ?_⟩
  have hlt := x.toBits.toNat_lt
  have hsign : signBit = 2 ^ 63 := by decide
  rw [isNegative, hsign, ← hmod]
  unfold signBits
  split
  · next hb =>
    have hle := of_decide_eq_true hb
    omega
  · next hb =>
    have hle := of_decide_eq_false (Bool.eq_false_iff.mpr hb)
    omega

namespace Decimal

/-- A result that is not a fraction of the least bit. -/
theorem pack_round_exact (up down : Nat) {num' den' k : Nat} {e : Int} (hd' : 0 < den')
    (hvalue : unitsOf num' * 2 ^ down = k * 2 ^ up * den') (he : e + 1074 = up - down)
    (ht : e ≤ Format.binary64.targetExponent (totalExponent k e)) :
    (UnpackedFloat.pack Format.binary64
      (roundWithAccuracy Format.binary64 .positive k e .exact)).toNat = nearestBits num' den' := by
  have hwhole : unitsOf num' * (1 * 2 ^ down) = k * 2 ^ up * den' := by rwa [Nat.one_mul]
  have hround := pack_round false Nat.one_pos hd' hwhole he (by rwa [Nat.div_one])
  rwa [Nat.div_one, Nat.mod_one, signBits, if_neg Bool.false_ne_true, Nat.zero_add] at hround

end Decimal

namespace Holds

open Decimal

variable {x y : Float} {m s n t : Nat}

theorem mul (hx : Holds x false m s) (hy : Holds y false n t) :
    (x * y).toBits.toNat = nearestBits (m * 2 ^ s * (n * 2 ^ t)) (unitsOf 1 * unitsOf 1) := by
  have hbits : (x * y).toBits.toNat = (UnpackedFloat.pack Format.binary64
      (UnpackedFloat.mul Format.binary64 x.toModel.unpack y.toModel.unpack)).toNat := rfl
  rw [hbits, hx.unpack, hy.unpack]
  by_cases hm : m = 0
  · rw [hm, Nat.zero_mul, Nat.zero_mul, nearestBits_zero, unpacked, dif_pos rfl, unpacked]
    split <;> rfl
  by_cases hn : n = 0
  · rw [hn, Nat.zero_mul, Nat.mul_zero, nearestBits_zero, unpacked, dif_neg hm, unpacked, dif_pos rfl]
    rfl
  rw [unpacked, dif_neg hm, unpacked, dif_neg hn]
  have hpos : 0 < unitsOf 1 * unitsOf 1 := Nat.mul_pos unitsOf_one_pos unitsOf_one_pos
  obtain ⟨point, hpoint⟩ : ∃ point : Nat, point = 1074 := ⟨_, rfl⟩
  refine pack_round_exact (s + t) point hpos ?_ ?_ ?_
  · rw [unitsOf_eq _ hpoint, unitsOf_eq 1 hpoint, Nat.pow_add]
    ring
  · omega
  · have hmn : m * n ≠ 0 := Nat.mul_ne_zero hm hn
    rw [targetExponent_eq, totalExponent]
    by_cases hleast : s = 0 ∧ t = 0
    · omega
    · have hlog : 52 ≤ (m * n).log2 := by
        rw [Nat.le_log2 hmn]
        rcases hx.canonical.normal with hs | hs
        · obtain ht := hy.canonical.normal.resolve_left fun ht => hleast ⟨hs, ht⟩
          exact ht.trans (Nat.le_mul_of_pos_left n (Nat.pos_of_ne_zero hm))
        · exact hs.trans (Nat.le_mul_of_pos_right m (Nat.pos_of_ne_zero hn))
      omega

theorem div (hx : Holds x false m s) (hy : Holds y false n t) (hn : 0 < n) :
    (x / y).toBits.toNat = nearestBits (m * 2 ^ s) (n * 2 ^ t) := by
  have hbits : (x / y).toBits.toNat = (UnpackedFloat.pack Format.binary64
      (UnpackedFloat.div Format.binary64 x.toModel.unpack y.toModel.unpack)).toNat := rfl
  rw [hbits, hx.unpack, hy.unpack]
  by_cases hm : m = 0
  · rw [hm, Nat.zero_mul, nearestBits_zero, unpacked, dif_pos rfl, unpacked,
      dif_neg (Nat.ne_of_gt hn)]
    rfl
  rw [unpacked, dif_neg hm, unpacked, dif_neg (Nat.ne_of_gt hn)]
  obtain ⟨e, he⟩ : ∃ e, e = min ((s : Int) - 1074 - ((t : Int) - 1074))
      (Format.binary64.targetExponent
        (totalExponent m ((s : Int) - 1074) - totalExponent n ((t : Int) - 1074))) := ⟨_, rfl⟩
  obtain ⟨shift, hshift⟩ : ∃ shift : Nat, (s : Int) - 1074 - ((t : Int) - 1074) - e = shift :=
    ⟨_, (Int.toNat_of_nonneg (by omega)).symm⟩
  have hdiv : divCore Format.binary64 m ((s : Int) - 1074) n ((t : Int) - 1074) =
      (m * 2 ^ shift / n, e, accuracyOfFraction (m * 2 ^ shift % n) n) := by
    simp only [divCore, ← he, hshift, Int.toNat_natCast, Nat.shiftLeft_eq]
  obtain ⟨point, hpoint⟩ : ∃ point : Nat, point = 1074 := ⟨_, rfl⟩
  have hvalue : unitsOf (m * 2 ^ s) * (n * 2 ^ (t + shift)) =
      m * 2 ^ shift * 2 ^ (s + point) * (n * 2 ^ t) := by
    rw [unitsOf_eq _ hpoint, Nat.pow_add, Nat.pow_add]
    ring
  have hround := pack_round false hn (Nat.mul_pos hn (Nat.two_pow_pos t)) hvalue (e := e)
    (by omega) ?_
  · rw [signBits, if_neg Bool.false_ne_true, Nat.zero_add] at hround
    simp only [UnpackedFloat.div, hdiv]
    exact hround
  · rw [targetExponent_eq, totalExponent] at he ⊢
    rw [totalExponent] at he
    by_cases hleast : e ≤ -1074
    · omega
    · have hlog : 52 ≤ (m * 2 ^ shift / n).log2 := by
        have hlarge : 2 ^ 52 ≤ m * 2 ^ shift / n := by
          rw [Nat.le_div_iff_mul_le hn]
          calc 2 ^ 52 * n ≤ 2 ^ 52 * 2 ^ (n.log2 + 1) :=
                Nat.mul_le_mul_left _ (Nat.le_of_lt Nat.lt_log2_self)
            _ = 2 ^ (52 + (n.log2 + 1)) := (Nat.pow_add 2 _ _).symm
            _ ≤ 2 ^ (m.log2 + shift) := Nat.pow_le_pow_right Nat.two_pos (by omega)
            _ = 2 ^ m.log2 * 2 ^ shift := Nat.pow_add 2 _ _
            _ ≤ m * 2 ^ shift := Nat.mul_le_mul_right _ (Nat.log2_self_le hm)
        have hne : m * 2 ^ shift / n ≠ 0 := by
          intro h0
          rw [h0] at hlarge
          exact absurd hlarge (by decide)
        exact (Nat.le_log2 hne).mpr hlarge
      omega

end Holds

theorem holds_of_lt {x : Float} (h : x.toBits.toNat < infinityBits) :
    ∃ m s, Holds x false m s := by
  have hinfinity : infinityBits = 2047 * 2 ^ 52 := by decide
  have hsign : signBit = 2 ^ 63 := by decide
  obtain ⟨m, s, hfinite⟩ : ∃ m s, Magnitude.ofFloat x = .finite m s := by
    rw [Magnitude.ofFloat, ofBits_eq, if_neg (by omega)]
    split
    · exact ⟨_, _, rfl⟩
    · exact ⟨_, _, rfl⟩
  have hpositive : isNegative x = false := by
    rw [isNegative, hsign]
    exact decide_eq_false (by omega)
  have hholds := holds_of_finite hfinite
  rw [hpositive] at hholds
  exact ⟨m, s, hholds⟩

/-- The units of the double nearest to a quotient. -/
theorem holds_of_nearest {x : Float} {num den : Nat} (hd : 0 < den)
    (hx : x.toBits.toNat = Decimal.nearestBits num den) (hlt : num < Decimal.overflow * den) :
    ∃ m s, Holds x false m s ∧
      m * 2 ^ s = Decimal.mantissaOf num den * 2 ^ Decimal.scaleOf num den := by
  have hfinite := (Decimal.nearestBits_lt_iff num hd).mpr hlt
  obtain ⟨m, s, hcanonical, hbits, hunits⟩ := Decimal.exists_canonical num hd hfinite
  refine ⟨m, s, ⟨hcanonical, ?_⟩, hunits⟩
  rw [hx, hbits, signBits, if_neg Bool.false_ne_true, Nat.zero_add]

/-- Only what is no number has bits that are not kept. -/
theorem ofBits_toNat {bits : Nat} (hlt : bits < 2 ^ 64) (h : bits % 2 ^ 63 ≤ infinityBits) :
    (Float.ofBits (UInt64.ofNat bits)).toBits.toNat = bits := by
  have hinfinity : infinityBits = 2047 * 2 ^ 52 := by decide
  rw [hinfinity] at h
  have hn : (UInt64.ofNat bits).toBitVec.toNat = bits := UInt64.toNat_ofNat_of_lt' hlt
  have hpack : (Float.ofBits (UInt64.ofNat bits)).toBits.toNat = (UnpackedFloat.pack Format.binary64
      (UnpackedFloat.unpack Format.binary64 (UInt64.ofNat bits).toBitVec)).toNat := rfl
  have hnan : ¬@isNaNBits Format.binary64 (UInt64.ofNat bits).toBitVec = true := by
    intro hnan
    obtain ⟨hexponent, hmantissa⟩ : @unpackExponent Format.binary64
        (UInt64.ofNat bits).toBitVec = -1#11 ∧ @unpackMantissa Format.binary64
        (UInt64.ofNat bits).toBitVec ≠ 0#52 := by
      simpa [isNaNBits] using hnan
    have htop := congrArg BitVec.toNat hexponent
    rw [unpackExponent_def, BitVec.extractLsb'_toNat, hn, Nat.shiftRight_eq_div_pow] at htop
    have htop' : bits / 2 ^ 52 % 2 ^ 11 = 2047 := htop
    apply hmantissa
    apply BitVec.eq_of_toNat_eq
    rw [unpackMantissa_def, BitVec.extractLsb'_toNat, hn]
    show bits >>> 0 % 2 ^ 52 = 0
    rw [Nat.shiftRight_zero]
    omega
  rw [hpack, pack_unpack _ (by decide), if_neg hnan, hn]

/-- A double keeps the bits that it is made of, unless they are those of a NaN. -/
theorem toBits_ofBits {bits : UInt64} (h : ofFloat (Float.ofBits bits) ≠ .nan) :
    (Float.ofBits bits).toBits = bits := by
  have hpack : (Float.ofBits bits).toBits.toBitVec = UnpackedFloat.pack Format.binary64
      (UnpackedFloat.unpack Format.binary64 bits.toBitVec) := rfl
  rw [pack_unpack _ (by decide)] at hpack
  split at hpack
  · refine absurd ?_ h
    rw [ofFloat, ← UInt64.toNat_toBitVec, hpack]
    decide
  · exact UInt64.toBitVec_inj.mp hpack

theorem Decimal.toFloat_bits (d : Decimal) : (d.toFloat false).toBits.toNat = d.toBits := by
  have hinfinity : infinityBits = 2047 * 2 ^ 52 := by decide
  have hle : d.toBits ≤ infinityBits := by
    unfold toBits
    split
    · exact Nat.zero_le _
    split
    · exact Nat.le_refl _
    split
    · exact Nat.zero_le _
    · exact Nat.min_le_right _ _
  rw [toFloat, if_neg Bool.false_ne_true, Nat.zero_add]
  exact ofBits_toNat (by omega) (by omega)

theorem ofNat_bits {k : Nat} (hk : k < UInt64.size) :
    (UInt64.ofNat k).toFloat.toBits.toNat = Decimal.nearestBits k 1 := by
  have hbits : (UInt64.ofNat k).toFloat.toBits.toNat = (UnpackedFloat.pack Format.binary64
      (UnpackedFloat.normalize Format.binary64 (((UInt64.ofNat k).toNat : Nat) : Int) 0 .positive)).toNat := rfl
  rw [hbits, UInt64.toNat_ofNat_of_lt' hk, UnpackedFloat.normalize]
  by_cases h0 : k = 0
  · subst h0
    rw [Decimal.nearestBits_zero]
    rfl
  · have hcompare : compare (k : Int) 0 = .gt := Int.compare_eq_gt.mpr (by omega)
    rw [hcompare]
    dsimp only
    rw [Int.toNat_natCast, UnpackedFloat.round, Decimal.targetExponent_eq, totalExponent]
    have hshift : ((0 : Int) - max ((k.log2 : Int) + 1 + 0 - 53) (-1074)).toNat = 52 - k.log2 := by
      omega
    simp only [decreaseExponent, hshift, Nat.shiftLeft_eq]
    obtain ⟨point, hpoint⟩ : ∃ point : Nat, point = 1074 := ⟨_, rfl⟩
    refine Decimal.pack_round_exact point (52 - k.log2) Nat.one_pos ?_ (by omega) ?_
    · rw [Decimal.unitsOf_eq _ hpoint]
      ring
    · rw [Decimal.targetExponent_eq, totalExponent]
      have hlarge : 2 ^ 52 ≤ k * 2 ^ (52 - k.log2) :=
        calc 2 ^ 52 ≤ 2 ^ (k.log2 + (52 - k.log2)) := Nat.pow_le_pow_right Nat.two_pos (by omega)
          _ = 2 ^ k.log2 * 2 ^ (52 - k.log2) := Nat.pow_add 2 _ _
          _ ≤ k * 2 ^ (52 - k.log2) := Nat.mul_le_mul_right _ (Nat.log2_self_le h0)
      have hne : k * 2 ^ (52 - k.log2) ≠ 0 := Nat.mul_ne_zero h0 (Nat.ne_of_gt (Nat.two_pow_pos _))
      have hlog := (Nat.le_log2 hne).mpr hlarge
      have hself : 2 ^ k.log2 * 2 ^ (52 - k.log2) ≤ k * 2 ^ (52 - k.log2) :=
        Nat.mul_le_mul_right _ (Nat.log2_self_le h0)
      rw [← Nat.pow_add] at hself
      have hlog' := (Nat.le_log2 hne).mpr hself
      omega

end ExprMachine
