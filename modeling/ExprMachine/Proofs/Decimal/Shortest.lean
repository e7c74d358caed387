import ExprMachine.Decimal.Shortest
import ExprMachine.Proofs.Decimal.Nearest

/-! The shortest decimal of a double. Whichever decimal is taken, the double is nearest to it. -/

namespace ExprMachine

namespace Decimal

/-- A decimal as a quotient of whole numbers. -/
def num (d : Decimal) : Nat := d.significand * 10 ^ d.exponent.toNat

def den (d : Decimal) : Nat := 10 ^ (-d.exponent).toNat

theorem den_pos (d : Decimal) : 0 < d.den := Nat.pow_pos (by decide)

theorem overflow_le {n : Nat} (h : 309 ≤ n) : overflow ≤ 10 ^ n := by
  obtain ⟨least, hleast⟩ : ∃ least : Nat, least = 309 := ⟨_, rfl⟩
  have hpow : overflow ≤ 10 ^ least := by
    subst hleast
    unfold overflow
    decide +kernel
  exact hpow.trans (Nat.pow_le_pow_right (by decide) (by omega))

theorem two_mul_unitsOf (num : Nat) {point : Nat} (h : point = 1075) :
    2 * unitsOf num = num * 2 ^ point := by
  obtain ⟨n, rfl⟩ : ∃ n, point = n + 1 := ⟨1074, h⟩
  have hunits : unitsOf num = num * 2 ^ n := unitsOf_eq num (by omega)
  rw [hunits, Nat.pow_succ, Nat.mul_comm 2, Nat.mul_assoc]

/-- A decimal far beyond the range of the doubles is rounded as any other. -/
theorem toBits_eq (d : Decimal) : d.toBits = nearestBits d.num d.den := by
  unfold toBits
  split
  · next h => rw [num, h, Nat.zero_mul, nearestBits_zero]
  next h0 =>
  split
  · next h =>
    have hlarge : ¬d.num < overflow * d.den := by
      have hden : d.den = 1 := by
        rw [den, show (-d.exponent).toNat = 0 by omega, Nat.pow_zero]
      have hpow : overflow ≤ 10 ^ d.exponent.toNat := overflow_le (by omega)
      rw [hden, Nat.mul_one, num, Nat.not_lt]
      exact hpow.trans (Nat.le_mul_of_pos_left _ (Nat.pos_of_ne_zero h0))
    have hle : nearestBits d.num d.den ≤ Magnitude.infinityBits := Nat.min_le_right _ _
    rw [← nearestBits_lt_iff _ d.den_pos] at hlarge
    omega
  split
  · next h =>
    refine (nearestBits_of_small ?_).symm
    obtain ⟨point, hpoint⟩ : ∃ point : Nat, point = 1075 := ⟨_, rfl⟩
    have hnum : d.num = d.significand := by
      rw [num, show d.exponent.toNat = 0 by omega, Nat.pow_zero, Nat.mul_one]
    rw [two_mul_unitsOf _ hpoint, hnum, den]
    calc d.significand * 2 ^ point < 2 ^ (d.significand.log2 + 1) * 2 ^ point :=
          Nat.mul_lt_mul_of_pos_right Nat.lt_log2_self (Nat.two_pow_pos _)
      _ = 2 ^ (d.significand.log2 + 1 + point) := (Nat.pow_add 2 _ _).symm
      _ ≤ 2 ^ (3 * (-d.exponent).toNat) := Nat.pow_le_pow_right Nat.two_pos (by omega)
      _ = 8 ^ (-d.exponent).toNat := Nat.pow_mul 2 3 _
      _ ≤ 10 ^ (-d.exponent).toNat := Nat.pow_le_pow_left (by decide) _
  · rfl

/-- Zeros at the end of the digits stand for a factor in the exponent. -/
theorem toBits_padded (significand : Nat) (exponent : Int) (zeros : Nat) :
    toBits ⟨significand * 10 ^ zeros, exponent - zeros⟩ = toBits ⟨significand, exponent⟩ := by
  rw [toBits_eq, toBits_eq]
  refine nearestBits_congr (den_pos _) (den_pos _) ?_
  have hexponent : zeros + (exponent - zeros).toNat + (-exponent).toNat =
      exponent.toNat + (-(exponent - (zeros : Int))).toNat := by omega
  simp only [num, den, Nat.mul_assoc, ← Nat.pow_add]
  rw [hexponent]

theorem toBits_trimZeros (count : Nat) (d : Decimal) : (trimZeros count d).toBits = d.toBits := by
  induction count generalizing d with
  | zero => rfl
  | succ count ih =>
    unfold trimZeros
    split
    · next h =>
      have hsignificand : d.significand = d.significand / 10 * 10 ^ 1 := by omega
      have hexponent : d.exponent = d.exponent + 1 - (1 : Nat) := by omega
      have hpadded := toBits_padded (d.significand / 10) (d.exponent + 1) 1
      rw [← hsignificand, ← hexponent] at hpadded
      rw [ih, ← hpadded]
    · rfl

theorem toBits_of_onGrid {tie : Tie} {bits num den : Nat} {exponent : Int} {d : Decimal}
    (h : onGrid? tie bits num den exponent = some d) : d.toBits = bits := by
  unfold onGrid? at h
  dsimp only at h
  split at h
  · next hlow =>
    cases h
    exact beq_iff_eq.mp (Bool.and_eq_true_iff.mp hlow).1
  split at h
  · next hhigh =>
    cases h
    exact beq_iff_eq.mp hhigh
  · cases h

variable {mantissa scale : Nat}

theorem toBits_exact (h : Magnitude.Canonical mantissa scale) :
    (exact mantissa scale).toBits = scale * 2 ^ 52 + mantissa := by
  rw [toBits_eq]
  refine nearestBits_of_units (den_pos _) h ?_
  obtain ⟨point, hpoint⟩ : ∃ point : Nat, point = 1074 := ⟨_, rfl⟩
  rw [unitsOf_eq _ hpoint]
  simp only [num, den, exact, ← hpoint]
  have hexponent : (-((point - scale : Nat) : Int)).toNat = 0 := by omega
  have hten : (-(-((point - scale : Nat) : Int))).toNat = point - scale := by omega
  have hpow : (10 : Nat) ^ (point - scale) = 5 ^ (point - scale) * 2 ^ (point - scale) :=
    Nat.mul_pow 5 2 _
  have hsum : scale - point + point = scale + (point - scale) := by omega
  rw [hexponent, hten, hpow, Nat.pow_zero, Nat.mul_one, Nat.shiftLeft_eq]
  show mantissa * 2 ^ (scale - point) * 5 ^ (point - scale) * 2 ^ point = _
  calc mantissa * 2 ^ (scale - point) * 5 ^ (point - scale) * 2 ^ point
      = mantissa * 2 ^ (scale - point + point) * 5 ^ (point - scale) := by rw [Nat.pow_add]; ring
    _ = mantissa * 2 ^ scale * (5 ^ (point - scale) * 2 ^ (point - scale)) := by
      rw [hsum, Nat.pow_add]
      ring

/-- The shortest decimal of a double reads as the double. -/
theorem toBits_shortest (tie : Tie) (h : Magnitude.Canonical mantissa scale) :
    (shortest tie mantissa scale).toBits = scale * 2 ^ 52 + mantissa := by
  unfold shortest
  dsimp only
  rw [toBits_trimZeros]
  cases hfound : (List.range 17).findSome? fun n => onGrid? tie ((scale <<< 52) + mantissa)
      (mantissa <<< (scale - 1074)) (1 <<< (1074 - scale))
      (pointOf (mantissa <<< (scale - 1074)) (1 <<< (1074 - scale)) - (n + 1 : Nat)) with
  | none => exact toBits_exact h
  | some d =>
    obtain ⟨n, -, hgrid⟩ := List.exists_of_findSome?_eq_some hfound
    rw [Option.getD_some, toBits_of_onGrid hgrid, Nat.shiftLeft_eq]

theorem shortest_ne_zero (tie : Tie) (h : Magnitude.Canonical mantissa scale) (hm : mantissa ≠ 0) :
    (shortest tie mantissa scale).significand ≠ 0 := by
  intro h0
  have hbits := toBits_shortest tie h
  rw [toBits, if_pos h0] at hbits
  omega

end Decimal

end ExprMachine
