import ExprMachine.Proofs.Decimal.Closeness
import ExprMachine.Proofs.Json.Rereading

/-! How far the double that is read is from the one that was stored. Seven roundings lie between
them at most, of which three may be among the least doubles. -/

namespace ExprMachine

open Decimal Magnitude

namespace Magnitude

/-- Finite magnitudes that differ by a part in `2 ^ 50` and two of the least positive doubles at
most. -/
def Near (a b : Magnitude) : Prop :=
  a.units * 2 ^ 50 ≤ (b.units + 2) * (2 ^ 50 + 1) ∧ b.units * 2 ^ 50 ≤ (a.units + 2) * (2 ^ 50 + 1)

end Magnitude

/-- The slack of seven roundings is less than a part in `2 ^ 50`. -/
theorem Decimal.Close.near {a b : ℕ} (h : Close 7 3 (a : ℚ) b) :
    a * 2 ^ 50 ≤ (b + 2) * (2 ^ 50 + 1) := by
  have hslack : slack ^ 7 * 2 ^ 50 ≤ 2 ^ 50 + 1 := by norm_num [slack]
  have hb : (0 : ℚ) ≤ b := Nat.cast_nonneg b
  have hcast : (a : ℚ) * 2 ^ 50 ≤ (b + 2) * (2 ^ 50 + 1) :=
    calc (a : ℚ) * 2 ^ 50 ≤ (b + (3 : ℕ) / 2) * slack ^ 7 * 2 ^ 50 :=
          mul_le_mul_of_nonneg_right h.le (by positivity)
      _ = (b + (3 : ℕ) / 2) * (slack ^ 7 * 2 ^ 50) := mul_assoc _ _ _
      _ ≤ (b + 2) * (2 ^ 50 + 1) := by
          refine mul_le_mul ?_ hslack (by norm_num [slack]) (by positivity)
          norm_num
  exact_mod_cast hcast

namespace Json

variable {x y : Float} {m s m' s' n : ℕ}

theorem unit_pos : (0 : ℚ) < unitsOf 1 := Nat.cast_pos.mpr unitsOf_one_pos

theorem unitsOf_cast (k : ℕ) : (unitsOf k : ℚ) = k * unitsOf 1 := by
  rw [unitsOf_eq_mul, Nat.cast_mul]

theorem close_whole (k : ℕ) (h : m * 2 ^ s = mantissaOf k 1 * 2 ^ scaleOf k 1) :
    Close 1 0 ((m * 2 ^ s : ℕ) : ℚ) (k * unitsOf 1) := by
  rw [h]
  rcases Nat.eq_zero_or_pos k with rfl | hk
  · have hzero : mantissaOf 0 1 = 0 := by
      rw [mantissaOf, unitsOf_zero, roundDiv, Nat.zero_mod, Nat.zero_div]
      exact if_pos (Nat.mul_pos Nat.one_pos (Nat.two_pow_pos _))
    constructor <;> simp [hzero]
  · have hclose := close_of_full Nat.one_pos (full_of_pos hk)
    rwa [Nat.cast_one, div_one, unitsOf_cast] at hclose

theorem close_powerOfTen (h : n ≤ 308) : ∃ k t, Holds (powerOfTen n) false k t ∧ 0 < k ∧
    Close 1 0 ((k * 2 ^ t : ℕ) : ℚ) (10 ^ n * unitsOf 1) := by
  obtain ⟨k, t, hpower, hunits⟩ := holds_powerOfTen h
  have hclose := close_whole (10 ^ n) hunits
  have hone := unitsOf_one_le (Nat.pow_pos (n := n) (show 0 < 10 by decide))
  rw [← hunits] at hone
  refine ⟨k, t, hpower, ?_, by exact_mod_cast hclose⟩
  exact Nat.pos_of_mul_pos_right (Nat.lt_of_lt_of_le unitsOf_one_pos hone)

theorem close_mul_powerOfTen (hx : Holds x false m s) (h : n ≤ 308)
    (hy : Holds (x * powerOfTen n) false m' s') :
    Close 2 1 ((m' * 2 ^ s' : ℕ) : ℚ) ((m * 2 ^ s : ℕ) * 10 ^ n) := by
  obtain ⟨k, t, hpower, -, hclose⟩ := close_powerOfTen h
  have hone := unit_pos
  have hround := close_of_bits (Nat.mul_pos unitsOf_one_pos unitsOf_one_pos) hy.canonical
    ((hx.mul hpower).symm.trans hy.bits_of_positive)
  have hscaled := hclose.mul (p := (m * 2 ^ s : ℕ) / unitsOf 1) (by positivity) (.inl rfl)
  have hexact : (unitsOf (m * 2 ^ s * (k * 2 ^ t)) / (unitsOf 1 * unitsOf 1 : ℕ) : ℚ) =
      (k * 2 ^ t : ℕ) * ((m * 2 ^ s : ℕ) / unitsOf 1) := by
    rw [unitsOf_cast, Nat.cast_mul (m * 2 ^ s), Nat.cast_mul (unitsOf 1)]
    field_simp
  have hmeant : (10 ^ n * unitsOf 1 * ((m * 2 ^ s : ℕ) / unitsOf 1) : ℚ) =
      (m * 2 ^ s : ℕ) * 10 ^ n := by
    field_simp
  rw [hexact] at hround
  rw [hmeant] at hscaled
  exact hround.trans hscaled

theorem close_div_powerOfTen (hx : Holds x false m s) (h : n ≤ 308)
    (hy : Holds (x / powerOfTen n) false m' s') :
    Close 2 1 ((m' * 2 ^ s' : ℕ) : ℚ) ((m * 2 ^ s : ℕ) / 10 ^ n) := by
  obtain ⟨k, t, hpower, hk, hclose⟩ := close_powerOfTen h
  have hone := unit_pos
  have hkt : 0 < k * 2 ^ t := Nat.mul_pos hk (Nat.two_pow_pos t)
  have hround := close_of_bits hkt hy.canonical ((hx.div hpower hk).symm.trans hy.bits_of_positive)
  have hinv := hclose.inv (Nat.cast_pos.mpr hkt) (by positivity)
  have hscaled := hinv.mul (p := (m * 2 ^ s : ℕ) * unitsOf 1) (by positivity) (.inl rfl)
  have hexact : (unitsOf (m * 2 ^ s) / (k * 2 ^ t : ℕ) : ℚ) =
      ((k * 2 ^ t : ℕ) : ℚ)⁻¹ * ((m * 2 ^ s : ℕ) * unitsOf 1) := by
    rw [unitsOf_cast, div_eq_inv_mul]
  have hmeant : ((10 ^ n * unitsOf 1 : ℚ)⁻¹ * ((m * 2 ^ s : ℕ) * unitsOf 1)) =
      (m * 2 ^ s : ℕ) / 10 ^ n := by
    field_simp
  rw [hexact] at hround
  rw [hmeant] at hscaled
  exact hround.trans hscaled

/-- A double that equals zero has no units. -/
theorem eq_zero_of_beq (hx : Holds x false m s) (h : (x == 0) = true) : m = 0 := by
  have hzero : Holds 0 false 0 0 := ⟨⟨by decide, .inl rfl, by decide⟩, by decide⟩
  have hbeq : (x == 0) = x.toModel.unpack.beq (0 : Float).toModel.unpack := rfl
  rw [hbeq, hx.unpack, hzero.unpack] at h
  by_contra hm
  rw [unpacked, dif_neg hm] at h
  cases h

theorem close_near_scale {steps : ℕ} {scale : ℤ} (hx : Holds x false m s)
    (hread : scaled? (steps + 1) x scale = some y) (hy : Holds y false m' s')
    (h : scale.natAbs ≤ 308) :
    Close 2 1 ((m' * 2 ^ s' : ℕ) : ℚ) ((m * 2 ^ s : ℕ) * 10 ^ scale) := by
  rw [scaled?, if_pos h] at hread
  by_cases hup : 0 ≤ scale
  · rw [if_pos hup] at hread
    dsimp only at hread
    split at hread
    · cases hread
    · cases hread
      have hpow : (10 : ℚ) ^ scale = 10 ^ scale.natAbs := by
        rw [← zpow_natCast, Int.natAbs_of_nonneg hup]
      rw [hpow]
      exact close_mul_powerOfTen hx h hy
  · rw [if_neg hup] at hread
    cases hread
    have hpow : (10 : ℚ) ^ scale = (10 ^ scale.natAbs)⁻¹ := by
      rw [← zpow_natCast, ← zpow_neg, Int.ofNat_natAbs_of_nonpos (by omega), Int.neg_neg]
    rw [hpow, ← div_eq_mul_inv]
    exact close_div_powerOfTen hx h hy

/-- Each step of the scaling is two roundings, one of the power of ten and one of the result. -/
theorem close_scaled? {k steps : ℕ} {scale : ℤ} (hx : Holds x false m s)
    (hread : scaled? steps x scale = some y) (hy : Holds y false m' s') (hk : k < steps)
    (hscale : -(308 * (k + 1) : ℤ) ≤ scale) :
    Close (2 * (k + 1)) (k + 1) ((m' * 2 ^ s' : ℕ) : ℚ) ((m * 2 ^ s : ℕ) * 10 ^ scale) := by
  have hrounded : (0 : ℚ) ≤ (m' * 2 ^ s' : ℕ) := Nat.cast_nonneg _
  have hmeant : (0 : ℚ) ≤ (m * 2 ^ s : ℕ) * 10 ^ scale := by positivity
  induction steps generalizing k x m s scale with
  | zero => exact absurd hk (Nat.not_lt_zero k)
  | succ steps ih =>
    by_cases hnear : scale.natAbs ≤ 308
    · exact (close_near_scale hx hread hy hnear).mono hrounded hmeant (by omega) (by omega)
    rw [scaled?, if_neg hnear] at hread
    split at hread
    · next hzero =>
      obtain rfl := eq_zero_of_beq hx hzero
      cases hread
      have hsame := hx.ofFloat.symm.trans hy.ofFloat
      injection hsame with hm
      rw [← hm, Nat.zero_mul, Nat.zero_mul, Nat.cast_zero, zero_mul]
      exact (Close.refl 0).mono le_rfl le_rfl (Nat.zero_le _) (Nat.zero_le _)
    split at hread
    · cases hread
    obtain ⟨k, rfl⟩ : ∃ more, k = more + 1 := ⟨k - 1, by omega⟩
    -- The power stays a variable, as it is not to be evaluated.
    obtain ⟨n, hn⟩ : ∃ n : ℕ, n = 308 := ⟨_, rfl⟩
    have hscale' : scale + 308 = scale + n := by omega
    rw [← hn, hscale'] at hread
    obtain ⟨m'', s'', hquotient⟩ := holds_div_powerOfTen hx hn.le
    have hfirst := close_div_powerOfTen hx hn.le hquotient
    have hrest := ih (k := k) hquotient hread (by omega) (by push_cast at hscale; omega) (by positivity)
    have hsmall : (10 : ℚ) ^ (scale + n) ≤ 1 := zpow_le_one_of_nonpos₀ (by norm_num) (by omega)
    have hscaled := hfirst.mul (p := 10 ^ (scale + n)) (by positivity) (.inr hsmall)
    have hpow : (m * 2 ^ s : ℕ) / 10 ^ n * (10 : ℚ) ^ (scale + n) =
        (m * 2 ^ s : ℕ) * 10 ^ scale := by
      rw [zpow_add₀ (by norm_num), zpow_natCast]
      field_simp
    rw [hpow] at hscaled
    exact hrest.trans hscaled

end Json

namespace Decimal

variable {d kept : Decimal}

theorem num_div_den (d : Decimal) : (d.num / d.den : ℚ) = d.significand * 10 ^ d.exponent := by
  have hpow : (10 : ℚ) ^ d.exponent = 10 ^ d.exponent.toNat / 10 ^ (-d.exponent).toNat := by
    rw [← zpow_natCast, ← zpow_natCast, ← zpow_sub₀ (by norm_num)]
    congr 1
    omega
  rw [hpow, num, den]
  push_cast
  ring

/-- The digits that are cut off come after nineteen others. -/
theorem Keeps.close (h : d.Keeps kept) :
    Close 1 0 (kept.significand * 10 ^ kept.exponent : ℚ) (d.num / d.den) := by
  obtain ⟨digits, low, hlow, hsignificand, hexponent, hdigits⟩ := h.cut
  have hpow : (10 : ℚ) ^ d.exponent = 10 ^ kept.exponent / 10 ^ digits := by
    rw [← zpow_natCast, ← zpow_sub₀ (by norm_num), hexponent]
    congr 1
    omega
  have hvalue : (d.num / d.den : ℚ) =
      (kept.significand + low / 10 ^ digits) * 10 ^ kept.exponent := by
    rw [num_div_den, hsignificand, hpow]
    push_cast
    field_simp
  have hunit : (0 : ℚ) < 10 ^ kept.exponent := by positivity
  have htail : (0 : ℚ) ≤ low / 10 ^ digits := by positivity
  have hless : (low / 10 ^ digits : ℚ) < 1 := by
    rw [div_lt_one (by positivity)]
    exact_mod_cast hlow
  rw [hvalue]
  rcases hdigits with rfl | ⟨-, hlarge⟩
  · obtain rfl : low = 0 := by omega
    rw [Nat.cast_zero, zero_div, add_zero]
    exact (Close.refl _).mono (by positivity) (by positivity) (Nat.zero_le 1) le_rfl
  · have hmany : (2 ^ 53 : ℚ) ≤ kept.significand := by
      have hsize : 2 ^ 53 * 10 ≤ Word.size := by decide
      have hnat : 2 ^ 53 ≤ kept.significand := by omega
      exact_mod_cast hnat
    have hfull := mul_le_mul_of_nonneg_right hmany hunit.le
    have hpart := mul_le_of_le_one_left hunit.le hless.le
    have hpart0 := mul_nonneg htail hunit.le
    rw [add_mul]
    generalize (kept.significand * 10 ^ kept.exponent : ℚ) = rounded at *
    generalize (low / 10 ^ digits * 10 ^ kept.exponent : ℚ) = part at *
    generalize (10 ^ kept.exponent : ℚ) = unit at *
    have hnear : 2 * (rounded + part) ≤ 2 * rounded + 2 * unit := by linarith
    exact close_of_near (by linarith) (by linarith) hnear

/-- What is no more than twenty digits and is not rounded to zero is scaled down twice at most. -/
theorem Keeps.exponent_ge (h : d.Keeps kept) (hd : d.toBits ≠ 0) : -616 ≤ kept.exponent := by
  by_contra hsmall
  refine hd ?_
  obtain ⟨digits, low, hlow, hsignificand, hexponent, -⟩ := h.cut
  have hsize : kept.significand + 1 ≤ 2 ^ 64 := h.lt
  have hnum : d.num = d.significand := by
    rw [num, show d.exponent.toNat = 0 by omega, Nat.pow_zero, Nat.mul_one]
  have hden : d.den = 10 ^ digits * 10 ^ (-kept.exponent).toNat := by
    rw [den, ← Nat.pow_add]
    congr 1
    omega
  obtain ⟨point, hpoint⟩ : ∃ point : ℕ, point = 1075 := ⟨_, rfl⟩
  rw [toBits_eq]
  apply nearestBits_of_small
  rw [two_mul_unitsOf _ hpoint, hnum, hden]
  calc d.significand * 2 ^ point < (kept.significand + 1) * 10 ^ digits * 2 ^ point := by
        refine Nat.mul_lt_mul_of_pos_right ?_ (Nat.two_pow_pos _)
        rw [hsignificand, Nat.add_mul, Nat.one_mul]
        exact Nat.add_lt_add_left hlow _
    _ ≤ 2 ^ 64 * 10 ^ digits * 2 ^ point :=
        Nat.mul_le_mul_right _ (Nat.mul_le_mul_right _ hsize)
    _ = 10 ^ digits * 2 ^ (64 + point) := by rw [Nat.pow_add]; ring
    _ ≤ 10 ^ digits * 2 ^ (3 * (-kept.exponent).toNat) :=
        Nat.mul_le_mul_left _ (Nat.pow_le_pow_right Nat.two_pos (by omega))
    _ ≤ 10 ^ digits * 10 ^ (-kept.exponent).toNat := by
        rw [Nat.pow_mul]
        exact Nat.mul_le_mul_left _ (Nat.pow_le_pow_left (by decide) _)

end Decimal

namespace Numeral

theorem near_ofMagnitude {y : Float} {m s m' s' : ℕ} (h : Canonical m s)
    (hread : Json.magnitude? (ofMagnitude m s).text = some y) (hy : Holds y false m' s') :
    (Magnitude.finite m' s').Near (.finite m s) := by
  have hkeeps := keeps_ofMagnitude h
  have hbits := toBits_ofMagnitude h
  by_cases hzero : (ofMagnitude m s).value.toBits = 0
  · obtain ⟨rfl, rfl⟩ : m = 0 ∧ s = 0 := by omega
    obtain ⟨z, hz, -, hshort⟩ := magnitude?_ofMagnitude h
    obtain rfl : y = z := Option.some.inj (hread.symm.trans hz)
    have hy0 := hy.bits_of_positive.symm.trans (hshort ⟨by decide, by decide⟩)
    obtain ⟨rfl, rfl⟩ : m' = 0 ∧ s' = 0 := by omega
    exact ⟨by decide, by decide⟩
  rw [magnitude?_kept h] at hread
  obtain ⟨k, t, hx, hunits⟩ := Json.holds_ofNat hkeeps.lt
  have hone := Json.unit_pos
  have hdigits := (Json.close_whole _ hunits).mul
    (p := 10 ^ (ofMagnitude m s).kept.exponent) (by positivity) (.inl rfl)
  have hscaled := Json.close_scaled? (k := 1) hx hread hy (by decide)
    (by norm_num; exact hkeeps.exponent_ge hzero)
  have hkept := hkeeps.close.mul (p := unitsOf 1) hone.le (.inl rfl)
  have hstored := (close_of_bits (den_pos _) h ((toBits_eq _).symm.trans hbits)).symm
  have hmeant : ((ofMagnitude m s).value.num / (ofMagnitude m s).value.den * unitsOf 1 : ℚ) =
      unitsOf (ofMagnitude m s).value.num / (ofMagnitude m s).value.den := by
    rw [Json.unitsOf_cast (ofMagnitude m s).value.num]
    ring
  rw [hmeant] at hkept
  rw [mul_right_comm] at hdigits
  have hclose := ((hscaled.trans hdigits).trans hkept).trans hstored
  exact ⟨hclose.near, hclose.symm.near⟩

end Numeral

end ExprMachine
