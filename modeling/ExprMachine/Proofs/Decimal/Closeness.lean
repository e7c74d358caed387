import ExprMachine.Proofs.Decimal.Nearest
import Mathlib

/-! How far roundings lead away from a number. Rounding to the nearest double is off by one part
in `2 ^ 53`, or by half of the least positive double. -/

namespace ExprMachine

namespace Decimal

/-- The factor that makes up for one rounding, in either direction. -/
def slack : ℚ := 2 ^ 53 / (2 ^ 53 - 1)

theorem one_le_slack : 1 ≤ slack := by norm_num [slack]

/-- `n` roundings lead from the one number to the other, `small` of them among the doubles with
less than a full mantissa. -/
structure Close (n small : ℕ) (a b : ℚ) : Prop where
  le : a ≤ (b + small / 2) * slack ^ n
  ge : b ≤ (a + small / 2) * slack ^ n

namespace Close

variable {n k small few : ℕ} {a b d p : ℚ}

theorem refl (a : ℚ) : Close 0 0 a a := ⟨by simp, by simp⟩

theorem symm (h : Close n small a b) : Close n small b a := ⟨h.ge, h.le⟩

theorem le_trans_of_le (hab : a ≤ (b + small / 2) * slack ^ n)
    (hbd : b ≤ (d + few / 2) * slack ^ k) :
    a ≤ (d + (small + few : ℕ) / 2) * slack ^ (n + k) := by
  have hpos : 0 ≤ slack ^ n := pow_nonneg (zero_le_one.trans one_le_slack) n
  have hsmall : (small / 2 : ℚ) ≤ small / 2 * slack ^ k :=
    le_mul_of_one_le_right (by positivity) (one_le_pow₀ one_le_slack)
  calc a ≤ (b + small / 2) * slack ^ n := hab
    _ ≤ ((d + few / 2) * slack ^ k + small / 2 * slack ^ k) * slack ^ n :=
      mul_le_mul_of_nonneg_right (add_le_add hbd hsmall) hpos
    _ = (d + (small + few : ℕ) / 2) * slack ^ (n + k) := by
      push_cast
      ring

theorem trans (hab : Close n small a b) (hbd : Close k few b d) :
    Close (n + k) (small + few) a d := by
  refine ⟨le_trans_of_le hab.le hbd.le, ?_⟩
  rw [Nat.add_comm small, Nat.add_comm n]
  exact le_trans_of_le hbd.ge hab.ge

theorem mul_le_of_le (h : a ≤ (b + small / 2) * slack ^ n) (hp : 0 ≤ p)
    (hsmall : small = 0 ∨ p ≤ 1) : a * p ≤ (b * p + small / 2) * slack ^ n := by
  have hpos : 0 ≤ slack ^ n := pow_nonneg (zero_le_one.trans one_le_slack) n
  have hfew : small / 2 * p ≤ small / 2 := by
    rcases hsmall with rfl | h1
    · simp
    · exact mul_le_of_le_one_right (by positivity) h1
  calc a * p ≤ (b + small / 2) * slack ^ n * p := mul_le_mul_of_nonneg_right h hp
    _ = (b * p + small / 2 * p) * slack ^ n := by ring
    _ ≤ (b * p + small / 2) * slack ^ n :=
      mul_le_mul_of_nonneg_right (add_le_add_right hfew _) hpos

/-- What is off by a part of itself may be scaled up, what is off by a number only down. -/
theorem mul (h : Close n small a b) (hp : 0 ≤ p) (hsmall : small = 0 ∨ p ≤ 1) :
    Close n small (a * p) (b * p) :=
  ⟨mul_le_of_le h.le hp hsmall, mul_le_of_le h.ge hp hsmall⟩

theorem inv_le_of_le (ha : 0 < a) (hb : 0 < b) (h : b ≤ a * slack ^ n) : a⁻¹ ≤ b⁻¹ * slack ^ n := by
  rw [inv_mul_eq_div, le_div_iff₀ hb, inv_mul_eq_div, div_le_iff₀ ha, mul_comm]
  exact h

theorem inv (h : Close n 0 a b) (ha : 0 < a) (hb : 0 < b) : Close n 0 a⁻¹ b⁻¹ := by
  have hle := h.le
  have hge := h.ge
  simp only [Nat.cast_zero, zero_div, add_zero] at hle hge
  refine ⟨?_, ?_⟩ <;> rw [Nat.cast_zero, zero_div, add_zero]
  · exact inv_le_of_le ha hb hge
  · exact inv_le_of_le hb ha hle

theorem mono (h : Close n small a b) (ha : 0 ≤ a) (hb : 0 ≤ b) (hn : n ≤ k) (hsmall : small ≤ few) :
    Close k few a b := by
  have hmore {c : ℚ} (hc : 0 ≤ c) : (c + small / 2) * slack ^ n ≤ (c + few / 2) * slack ^ k := by
    have hcast : (small : ℚ) ≤ few := Nat.cast_le.mpr hsmall
    have hpos : 0 ≤ slack ^ n := pow_nonneg (zero_le_one.trans one_le_slack) n
    exact mul_le_mul (by linarith) (pow_le_pow_right₀ one_le_slack hn) hpos (by positivity)
  exact ⟨h.le.trans (hmore hb), h.ge.trans (hmore ha)⟩

end Close

variable {num den : ℕ}

/-- The doubles on a scale are a power of two apart. -/
theorem mantissaOf_near (num : ℕ) (hd : 0 < den) :
    2 * ((mantissaOf num den * 2 ^ scaleOf num den : ℕ) : ℚ) ≤
        2 * (unitsOf num / den) + 2 ^ scaleOf num den ∧
      2 * (unitsOf num / den : ℚ) ≤
        2 * ((mantissaOf num den * 2 ^ scaleOf num den : ℕ) : ℚ) + 2 ^ scaleOf num den := by
  have hpos : 0 < den * 2 ^ scaleOf num den := Nat.mul_pos hd (Nat.two_pow_pos _)
  obtain ⟨hup, hdown⟩ := roundDiv_near (unitsOf num) hpos
  rw [← mantissaOf] at hup hdown
  have hden : (0 : ℚ) < den := Nat.cast_pos.mpr hd
  have hup' : (2 * (den * 2 ^ scaleOf num den * mantissaOf num den) : ℚ) ≤
      2 * unitsOf num + den * 2 ^ scaleOf num den := by exact_mod_cast hup
  have hdown' : (2 * unitsOf num : ℚ) ≤
      2 * (den * 2 ^ scaleOf num den * mantissaOf num den) + den * 2 ^ scaleOf num den := by
    exact_mod_cast hdown
  generalize (unitsOf num : ℚ) = exact at hup' hdown' ⊢
  push_cast
  generalize (2 : ℚ) ^ scaleOf num den = step at hup' hdown' ⊢
  have hcancel : exact / den * den = exact := div_mul_cancel₀ _ hden.ne'
  constructor
  · refine le_of_mul_le_mul_right ?_ hden
    linarith
  · refine le_of_mul_le_mul_right ?_ hden
    linarith

theorem close_of_near {exact rounded step : ℚ} (hfull : step * 2 ^ 52 ≤ exact)
    (hup : 2 * rounded ≤ 2 * exact + step) (hdown : 2 * exact ≤ 2 * rounded + step) :
    Close 1 0 rounded exact := by
  refine ⟨?_, ?_⟩ <;> simp only [Nat.cast_zero, zero_div, add_zero, pow_one, slack] <;> linarith

/-- A number that is large enough for a full mantissa is off by a part of itself only. -/
theorem close_of_full (hd : 0 < den) (hfull : den * 2 ^ 52 ≤ unitsOf num) :
    Close 1 0 ((mantissaOf num den * 2 ^ scaleOf num den : ℕ) : ℚ) (unitsOf num / den) := by
  have hstep := step_le_of_full hd hfull
  rw [Nat.mul_assoc] at hstep
  obtain ⟨hup, hdown⟩ := mantissaOf_near num hd
  refine close_of_near ?_ hup hdown
  rw [le_div_iff₀ (Nat.cast_pos.mpr hd), mul_comm]
  exact_mod_cast hstep

theorem close_nearest (num : ℕ) (hd : 0 < den) :
    Close 1 1 ((mantissaOf num den * 2 ^ scaleOf num den : ℕ) : ℚ) (unitsOf num / den) := by
  obtain ⟨-, h0 | hle⟩ := scaleOf_spec num hd
  · obtain ⟨hup, hdown⟩ := mantissaOf_near num hd
    rw [h0, pow_zero] at hup hdown
    have hone := one_le_slack
    have hrounded : (0 : ℚ) ≤ (mantissaOf num den * 2 ^ 0 : ℕ) := Nat.cast_nonneg _
    have hexact : (0 : ℚ) ≤ unitsOf num / den := by positivity
    rw [h0]
    refine ⟨?_, ?_⟩ <;> rw [Nat.cast_one, pow_one]
    · refine le_trans ?_ (le_mul_of_one_le_right (by linarith) hone)
      linarith
    · refine le_trans ?_ (le_mul_of_one_le_right (by linarith) hone)
      linarith
  · have hfull : den * 2 ^ 52 ≤ unitsOf num :=
      (Nat.mul_le_mul_left den (Nat.pow_le_pow_right Nat.two_pos (by omega))).trans hle
    have hclose := close_of_full hd hfull
    exact hclose.mono (Nat.cast_nonneg _) (by positivity) (Nat.le_refl 1) (Nat.zero_le 1)

theorem close_of_bits {mantissa scale : ℕ} (hd : 0 < den)
    (h : Magnitude.Canonical mantissa scale)
    (hbits : nearestBits num den = scale * 2 ^ 52 + mantissa) :
    Close 1 1 ((mantissa * 2 ^ scale : ℕ) : ℚ) (unitsOf num / den) := by
  rw [units_of_nearestBits hd h hbits]
  exact close_nearest num hd

end Decimal

end ExprMachine
