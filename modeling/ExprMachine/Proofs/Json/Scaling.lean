import ExprMachine.Proofs.Decimal.Arithmetic
import ExprMachine.Proofs.Json.Gathering

/-! Scaling by powers of ten in double arithmetic. The result is finite if the number that is
meant is not next to the largest double, and it is exact if nothing has to be rounded. -/

namespace ExprMachine

open Decimal Magnitude

namespace Json

theorem lt_overflow_of_lt_size {k : Nat} (h : k < Word.size) : k < overflow := by
  refine h.trans_le ?_
  unfold overflow
  decide +kernel

theorem power_lt_overflow {n : Nat} (h : n ≤ 308) : 10 ^ n < overflow := by
  obtain ⟨top, htop⟩ : ∃ top : Nat, top = 308 := ⟨_, rfl⟩
  have hlt : 10 ^ top < overflow := by
    subst htop
    unfold overflow
    decide +kernel
  exact (Nat.pow_le_pow_right (by decide) (by omega)).trans_lt hlt

theorem powerOfTen_bits (n : Nat) : (powerOfTen n).toBits.toNat = nearestBits (10 ^ n) 1 := by
  rw [powerOfTen, toFloat_bits, toBits_eq, num, den]
  have hdown : (-((n : Nat) : Int)).toNat = 0 := by omega
  rw [hdown, Int.toNat_natCast, Nat.one_mul, Nat.pow_zero]

theorem holds_powerOfTen {n : Nat} (h : n ≤ 308) : ∃ m s, Holds (powerOfTen n) false m s ∧
    m * 2 ^ s = mantissaOf (10 ^ n) 1 * 2 ^ scaleOf (10 ^ n) 1 :=
  holds_of_nearest Nat.one_pos (powerOfTen_bits n) (by
    rw [Nat.mul_one]
    exact power_lt_overflow h)

/-- No power of ten is rounded to less than one. -/
theorem unitsOf_one_le {num : Nat} (h : 0 < num) :
    unitsOf 1 ≤ mantissaOf num 1 * 2 ^ scaleOf num 1 := by
  obtain ⟨scale, hscale⟩ : ∃ scale : Nat, scale = 1022 := ⟨_, rfl⟩
  have hunits (k : Nat) : unitsOf k = k * 2 ^ (scale + 52) := unitsOf_eq k (by omega)
  have hle : scale ≤ scaleOf num 1 := by
    refine le_scaleOf Nat.one_pos (.inr ?_)
    rw [hunits]
    exact Nat.mul_le_mul_right _ h
  have hmantissa : 2 ^ 52 ≤ mantissaOf num 1 :=
    (le_mantissaOf num Nat.one_pos).resolve_left (by omega)
  rw [hunits, Nat.one_mul, Nat.add_comm, Nat.pow_add]
  exact Nat.mul_le_mul hmantissa (Nat.pow_le_pow_right Nat.two_pos hle)

variable {x y : Float} {m s n t : Nat}

theorem units_lt_overflow (h : Canonical m s) : m * 2 ^ s < unitsOf overflow := by
  have hoverflow := units_overflow
  have hpow : 2 ^ s ≤ 2 ^ 2045 := pow_le_pow_right₀ one_le_two h.le
  have hm : 2 * m < 2 * (2 ^ 53 - 1) + 1 := by
    have hlt := h.lt
    omega
  obtain ⟨top, htop⟩ : ∃ top : Nat, top = 2 ^ 2045 := ⟨_, rfl⟩
  rw [← htop] at hoverflow hpow
  have hpos : 0 < top := Nat.lt_of_lt_of_le (Nat.two_pow_pos s) hpow
  refine Nat.lt_of_mul_lt_mul_left (a := 2) ?_
  calc 2 * (m * 2 ^ s) = 2 * m * 2 ^ s := (Nat.mul_assoc _ _ _).symm
    _ ≤ 2 * m * top := Nat.mul_le_mul_left _ hpow
    _ < (2 * (2 ^ 53 - 1) + 1) * top := Nat.mul_lt_mul_of_pos_right hm hpos
    _ = 2 * unitsOf overflow := hoverflow.symm

/-- A quotient by a power of ten is no larger than what is divided. -/
theorem holds_div_powerOfTen (hx : Holds x false m s) (h : n ≤ 308) :
    ∃ m' s', Holds (x / powerOfTen n) false m' s' := by
  obtain ⟨k, t, hpower, hunits⟩ := holds_powerOfTen h
  have hten : 0 < 10 ^ n := Nat.pow_pos (by decide)
  have hone := unitsOf_one_le hten
  rw [← hunits] at hone
  have hpos : 0 < k * 2 ^ t := Nat.lt_of_lt_of_le unitsOf_one_pos hone
  have hk : 0 < k := Nat.pos_of_mul_pos_right hpos
  apply holds_of_lt
  rw [hx.div hpower hk, nearestBits_lt_iff _ hpos]
  calc m * 2 ^ s < unitsOf overflow := units_lt_overflow hx.canonical
    _ = overflow * unitsOf 1 := by
      rw [Nat.mul_comm, ← unitsOf_mul, Nat.one_mul]
    _ ≤ overflow * (k * 2 ^ t) := Nat.mul_le_mul_left _ hone

theorem scaled?_of_neg (steps : Nat) {scale : Int} (hx : Holds x false m s) (h : scale < 0) :
    ∃ y, scaled? steps x scale = some y ∧ ∃ m s, Holds y false m s := by
  induction steps generalizing x m s scale with
  | zero => exact ⟨x, rfl, m, s, hx⟩
  | succ steps ih =>
    rw [scaled?]
    by_cases hnear : scale.natAbs ≤ 308
    · rw [if_pos hnear, if_neg (by omega)]
      exact ⟨_, rfl, holds_div_powerOfTen hx hnear⟩
    · rw [if_neg hnear]
      split
      · exact ⟨x, rfl, m, s, hx⟩
      · rw [if_neg (by omega)]
        obtain ⟨m', s', hquotient⟩ := holds_div_powerOfTen hx (n := 308) (Nat.le_refl _)
        exact ih hquotient (by omega)

theorem isInf_of_holds {negative : Bool} (h : Holds x negative m s) : x.isInf = false := by
  have hinf : x.isInf = x.toModel.unpack.isInf := rfl
  rw [hinf, h.unpack, unpacked]
  split <;> rfl

theorem scaled?_up (steps : Nat) {scale : Int} (hscale : 0 ≤ scale) (h : scale.natAbs ≤ 308)
    (hx : Holds x false m s) (hy : Holds (powerOfTen scale.natAbs) false n t)
    (hlt : m * 2 ^ s * (n * 2 ^ t) < overflow * (unitsOf 1 * unitsOf 1)) :
    scaled? (steps + 1) x scale = some (x * powerOfTen scale.natAbs) ∧
      ∃ m s, Holds (x * powerOfTen scale.natAbs) false m s := by
  have hpos : 0 < unitsOf 1 * unitsOf 1 := Nat.mul_pos unitsOf_one_pos unitsOf_one_pos
  obtain ⟨m', s', hproduct⟩ : ∃ m s, Holds (x * powerOfTen scale.natAbs) false m s := by
    apply holds_of_lt
    rw [hx.mul hy, nearestBits_lt_iff _ hpos]
    exact hlt
  refine ⟨?_, m', s', hproduct⟩
  rw [scaled?, if_pos h, if_pos hscale]
  dsimp only
  rw [isInf_of_holds hproduct, if_neg Bool.false_ne_true]

theorem holds_ofNat {k : Nat} (h : k < Word.size) : ∃ m s,
    Holds (UInt64.ofNat k).toFloat false m s ∧ m * 2 ^ s = mantissaOf k 1 * 2 ^ scaleOf k 1 :=
  holds_of_nearest Nat.one_pos (ofNat_bits h) (by
    rw [Nat.mul_one]
    exact lt_overflow_of_lt_size h)

/-- A whole number is large enough for a full mantissa. -/
theorem full_of_pos {k : Nat} (hk : 0 < k) : 1 * 2 ^ 52 ≤ unitsOf k := by
  obtain ⟨point, hpoint⟩ : ∃ point : Nat, point = 1074 := ⟨_, rfl⟩
  rw [unitsOf_eq k hpoint]
  exact Nat.mul_le_mul hk (Nat.pow_le_pow_right Nat.two_pos (by omega))

theorem units_le (k : Nat) (h : m * 2 ^ s = mantissaOf k 1 * 2 ^ scaleOf k 1) (hk : 0 < k) :
    m * 2 ^ s * 2 ^ 53 ≤ unitsOf k * (2 ^ 53 + 1) := by
  have hle := units_nearestBits_le Nat.one_pos (full_of_pos hk) h
  rw [Nat.mul_one] at hle
  rw [Nat.mul_succ]
  exact hle

/-- Two roundings cannot lead past the largest double from a number that is rounded to one of
the doubles before the two largest. -/
theorem product_lt_overflow {significand power num den x y : Nat} (hd : 0 < den)
    (hle : significand * power * den ≤ num)
    (hlt : 2 * unitsOf num < (2 * (2 ^ 53 - 3) + 1) * (den * 2 ^ 2045))
    (hx : x * 2 ^ 53 ≤ unitsOf significand * (2 ^ 53 + 1))
    (hy : y * 2 ^ 53 ≤ unitsOf power * (2 ^ 53 + 1)) :
    x * y < overflow * (unitsOf 1 * unitsOf 1) := by
  have hoverflow := units_overflow
  obtain ⟨top, htop⟩ : ∃ top : Nat, top = 2 ^ 2045 := ⟨_, rfl⟩
  rw [← htop] at hlt hoverflow
  have hunit (k : Nat) : unitsOf k = k * unitsOf 1 := by
    rw [Nat.mul_comm, ← unitsOf_mul, Nat.one_mul]
  have hone := unitsOf_one_pos
  rw [hunit] at hx hy hlt hoverflow
  generalize unitsOf 1 = one at *
  generalize overflow = limit at *
  have hproduct : x * y * 2 ^ 106 ≤ significand * power * (one * one) * (2 ^ 53 + 1) ^ 2 :=
    calc x * y * 2 ^ 106 = x * 2 ^ 53 * (y * 2 ^ 53) := by ring
      _ ≤ significand * one * (2 ^ 53 + 1) * (power * one * (2 ^ 53 + 1)) := Nat.mul_le_mul hx hy
      _ = significand * power * (one * one) * (2 ^ 53 + 1) ^ 2 := by ring
  have hconstant : (2 * (2 ^ 53 - 3) + 1) * (2 ^ 53 + 1) ^ 2 ≤ (2 * (2 ^ 53 - 1) + 1) * 2 ^ 106 := by
    decide
  have hscale : 0 < 2 ^ 107 * den := Nat.mul_pos (Nat.two_pow_pos _) hd
  refine Nat.lt_of_mul_lt_mul_right (a := 2 ^ 107 * den) ?_
  calc x * y * (2 ^ 107 * den) = x * y * 2 ^ 106 * (2 * den) := by ring
    _ ≤ significand * power * (one * one) * (2 ^ 53 + 1) ^ 2 * (2 * den) :=
      Nat.mul_le_mul_right _ hproduct
    _ = significand * power * den * (2 * (one * one) * (2 ^ 53 + 1) ^ 2) := by ring
    _ ≤ num * (2 * (one * one) * (2 ^ 53 + 1) ^ 2) := Nat.mul_le_mul_right _ hle
    _ = 2 * (num * one) * (one * (2 ^ 53 + 1) ^ 2) := by ring
    _ < (2 * (2 ^ 53 - 3) + 1) * (den * top) * (one * (2 ^ 53 + 1) ^ 2) :=
      Nat.mul_lt_mul_of_pos_right hlt (Nat.mul_pos hone (by decide))
    _ = (2 * (2 ^ 53 - 3) + 1) * (2 ^ 53 + 1) ^ 2 * (den * top * one) := by ring
    _ ≤ (2 * (2 ^ 53 - 1) + 1) * 2 ^ 106 * (den * top * one) := Nat.mul_le_mul_right _ hconstant
    _ = (2 * (2 ^ 53 - 1) + 1) * top * (2 ^ 106 * den * one) := by ring
    _ = 2 * (limit * one) * (2 ^ 106 * den * one) := by rw [hoverflow]
    _ = limit * (one * one) * (2 ^ 107 * den) := by ring

end Json

end ExprMachine
