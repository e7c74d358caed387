import ExprMachine.Decimal.Rounding
import Mathlib.Data.Nat.Log
import Mathlib.Tactic.Ring

/-! The nearest double. What is rounded is a quotient in units, the unit being the least
positive double, after as many bits are cut off as do not fit. -/

namespace ExprMachine

namespace Magnitude

/-- How many of the least positive doubles make up a finite one. -/
def units : Magnitude → Nat
  | finite mantissa scale => mantissa * 2 ^ scale
  | _ => 0

/-- The mantissa has 53 bits, unless the scale is least. -/
structure Canonical (mantissa scale : Nat) : Prop where
  lt : mantissa < 2 ^ 53
  normal : scale = 0 ∨ 2 ^ 52 ≤ mantissa
  le : scale ≤ 2045

theorem ofBits_eq (bits : Nat) : ofBits bits =
    if bits / 2 ^ 52 % 2048 = 2047 then (if bits % 2 ^ 52 = 0 then .infinite else .nan)
    else if bits / 2 ^ 52 % 2048 = 0 then .finite (bits % 2 ^ 52) 0
    else .finite (2 ^ 52 + bits % 2 ^ 52) (bits / 2 ^ 52 % 2048 - 1) := by
  simp only [ofBits, Nat.shiftRight_eq_div_pow, Nat.shiftLeft_eq, Nat.one_mul]

theorem ofBits_of_canonical {mantissa scale : Nat} (h : Canonical mantissa scale) (sign : Nat) :
    ofBits (sign * 2 ^ 63 + (scale * 2 ^ 52 + mantissa)) = .finite mantissa scale := by
  obtain ⟨hlt, hnormal, hle⟩ := h
  rw [ofBits_eq]
  by_cases hm : mantissa < 2 ^ 52
  · obtain rfl : scale = 0 := hnormal.resolve_right (Nat.not_le_of_lt hm)
    rw [if_neg (by omega), if_pos (by omega)]
    congr 1
    omega
  · rw [if_neg (by omega), if_neg (by omega)]
    congr 1 <;> omega

theorem canonical_of_ofBits {bits mantissa scale : Nat} (h : ofBits bits = .finite mantissa scale) :
    Canonical mantissa scale ∧ bits % 2 ^ 63 = scale * 2 ^ 52 + mantissa := by
  rw [ofBits_eq] at h
  split at h
  · split at h <;> cases h
  split at h
  · injection h with hm hs
    exact ⟨⟨by omega, by omega, by omega⟩, by omega⟩
  · injection h with hm hs
    exact ⟨⟨by omega, by omega, by omega⟩, by omega⟩

end Magnitude

namespace Decimal

variable {num den : Nat}

theorem roundDiv_mul_right (num den : Nat) {c : Nat} (hc : 0 < c) :
    roundDiv (num * c) (den * c) = roundDiv num den := by
  have hmod : 2 * (num * c % (den * c)) = 2 * (num % den) * c := by
    rw [Nat.mul_mod_mul_right, Nat.mul_assoc]
  simp only [roundDiv, Nat.mul_div_mul_right _ _ hc, hmod, Nat.mul_lt_mul_right hc]

/-- A quotient is off by no more than a half. -/
theorem roundDiv_near (num : Nat) (hd : 0 < den) :
    2 * (den * roundDiv num den) ≤ 2 * num + den ∧ 2 * num ≤ 2 * (den * roundDiv num den) + den := by
  have hdiv := Nat.div_add_mod num den
  have hmod := Nat.mod_lt num hd
  have hup : den * (num / den + 1) = den * (num / den) + den := Nat.mul_succ _ _
  unfold roundDiv
  dsimp only
  split
  · omega
  split
  · omega
  · rcases Nat.mod_two_eq_zero_or_one (num / den) with h | h <;> rw [h]
    · rw [Nat.add_zero]
      omega
    · omega

theorem roundDiv_of_dvd (quotient : Nat) (hd : 0 < den) : roundDiv (quotient * den) den = quotient := by
  simp only [roundDiv, Nat.mul_div_cancel _ hd, Nat.mul_mod_left, Nat.mul_zero, if_pos hd]

theorem div_le_roundDiv (num den : Nat) : num / den ≤ roundDiv num den := by
  unfold roundDiv
  dsimp only
  split
  · exact Nat.le_refl _
  split <;> omega

theorem roundDiv_le_succ (num den : Nat) : roundDiv num den ≤ num / den + 1 := by
  unfold roundDiv
  dsimp only
  split
  · exact Nat.le_succ _
  split
  · exact Nat.le_refl _
  · omega

/-- Half the way after an odd number is rounded up. -/
theorem roundDiv_le_iff (num : Nat) (hd : 0 < den) {bound : Nat} (hb : bound % 2 = 1) :
    roundDiv num den ≤ bound ↔ 2 * num < (2 * bound + 1) * den := by
  have hdiv := Nat.div_add_mod num den
  have hmod := Nat.mod_lt num hd
  have hexpand : (2 * bound + 1) * den = 2 * (den * bound) + den := by ring
  rw [hexpand]
  rcases Nat.lt_trichotomy (num / den) bound with h | h | h
  · have hle := roundDiv_le_succ num den
    have hmul : den * (num / den + 1) ≤ den * bound := Nat.mul_le_mul_left _ h
    rw [Nat.mul_succ] at hmul
    omega
  · unfold roundDiv
    dsimp only
    rw [h] at hdiv ⊢
    split
    · omega
    split <;> omega
  · have hle := div_le_roundDiv num den
    have hmul : den * (bound + 1) ≤ den * (num / den) := Nat.mul_le_mul_left _ h
    rw [Nat.mul_succ] at hmul
    omega

/-- A number counted in the least positive double. -/
@[irreducible]
def unitsOf (num : Nat) : Nat := num * 2 ^ 1074

theorem shiftLeft_units (num : Nat) : num <<< 1074 = unitsOf num := by
  have hshift (n : Nat) : num <<< n = num * 2 ^ n := Nat.shiftLeft_eq num n
  unfold unitsOf
  exact hshift 1074

/-- The exponent stays a variable, as the power is not to be evaluated. -/
theorem unitsOf_eq (num : Nat) {point : Nat} (h : point = 1074) :
    unitsOf num = num * 2 ^ point := by
  rw [← shiftLeft_units, ← h]
  exact Nat.shiftLeft_eq num point

theorem unitsOf_one_pos : 0 < unitsOf 1 := by
  obtain ⟨point, hpoint⟩ : ∃ point : Nat, point = 1074 := ⟨_, rfl⟩
  rw [unitsOf_eq 1 hpoint]
  exact Nat.mul_pos Nat.one_pos (Nat.two_pow_pos _)

theorem unitsOf_mul (num c : Nat) : unitsOf (num * c) = unitsOf num * c := by
  rw [← shiftLeft_units, ← shiftLeft_units]
  simp only [Nat.shiftLeft_eq, Nat.mul_right_comm]

theorem unitsOf_zero : unitsOf 0 = 0 := by
  simpa using unitsOf_mul 0 0

/-- How many bits of the units are cut off. -/
def scaleOf (num den : Nat) : Nat := (unitsOf num / den).log2 - 52

/-- The mantissa of the nearest double, unless it rounds up to one with another bit. -/
def mantissaOf (num den : Nat) : Nat := roundDiv (unitsOf num) (den * 2 ^ scaleOf num den)

theorem nearestBits_eq (num den : Nat) : nearestBits num den =
    min (scaleOf num den * 2 ^ 52 + mantissaOf num den) Magnitude.infinityBits := by
  unfold nearestBits
  rw [shiftLeft_units]
  dsimp only
  rw [Nat.shiftLeft_eq, Nat.shiftLeft_eq]
  rfl

theorem scaleOf_mul_right (num den : Nat) {c : Nat} (hc : 0 < c) :
    scaleOf (num * c) (den * c) = scaleOf num den := by
  rw [scaleOf, unitsOf_mul, Nat.mul_div_mul_right _ _ hc, scaleOf]

theorem nearestBits_mul_right (num den : Nat) {c : Nat} (hc : 0 < c) :
    nearestBits (num * c) (den * c) = nearestBits num den := by
  rw [nearestBits_eq, nearestBits_eq, mantissaOf, mantissaOf, scaleOf_mul_right num den hc,
    unitsOf_mul, Nat.mul_right_comm den, roundDiv_mul_right _ _ hc]

/-- Equal quotients have the same nearest double. -/
theorem nearestBits_congr {num' den' : Nat} (hd : 0 < den) (hd' : 0 < den')
    (h : num * den' = num' * den) : nearestBits num den = nearestBits num' den' := by
  rw [← nearestBits_mul_right num den hd', h, Nat.mul_comm den,
    nearestBits_mul_right num' den' hd]

theorem nearestBits_zero (den : Nat) : nearestBits 0 den = 0 := by
  have hscale : scaleOf 0 den = 0 := by
    rw [scaleOf, unitsOf_zero, Nat.zero_div, Nat.log2_zero]
  rw [nearestBits_eq, mantissaOf, unitsOf_zero, hscale, Nat.zero_mul, Nat.zero_add]
  unfold roundDiv
  simp

/-- What is left of the units has 53 bits, unless there were fewer. -/
theorem scaleOf_spec (num : Nat) (hd : 0 < den) :
    unitsOf num < den * 2 ^ (scaleOf num den + 53) ∧
      (scaleOf num den = 0 ∨ den * 2 ^ (scaleOf num den + 52) ≤ unitsOf num) := by
  have hlt := Nat.lt_log2_self (n := unitsOf num / den)
  refine ⟨?_, ?_⟩
  · rw [Nat.mul_comm, ← Nat.div_lt_iff_lt_mul hd]
    exact hlt.trans_le (Nat.pow_le_pow_right Nat.two_pos (by unfold scaleOf; omega))
  · by_cases h : (unitsOf num / den).log2 ≤ 52
    · exact .inl (Nat.sub_eq_zero_of_le h)
    · have hne : unitsOf num / den ≠ 0 := by
        intro h0
        rw [h0] at h
        exact h (Nat.zero_le _)
      have hself := Nat.log2_self_le hne
      have hscale : scaleOf num den + 52 = (unitsOf num / den).log2 := by unfold scaleOf; omega
      rw [hscale]
      exact .inr ((Nat.mul_le_mul_left den hself).trans (Nat.mul_div_le _ _))

theorem le_scaleOf {scale : Nat} (hd : 0 < den)
    (h : scale = 0 ∨ den * 2 ^ (scale + 52) ≤ unitsOf num) : scale ≤ scaleOf num den := by
  rcases h with rfl | h
  · exact Nat.zero_le _
  · obtain ⟨hlt, -⟩ := scaleOf_spec num hd
    have hpow := Nat.lt_of_mul_lt_mul_left (h.trans_lt hlt)
    have hexp := (Nat.pow_lt_pow_iff_right Nat.one_lt_two).mp hpow
    omega

theorem scaleOf_le {scale : Nat} (hd : 0 < den) (h : unitsOf num < den * 2 ^ (scale + 53)) :
    scaleOf num den ≤ scale := by
  obtain ⟨-, h0 | hle⟩ := scaleOf_spec num hd
  · omega
  · have hpow := Nat.lt_of_mul_lt_mul_left (hle.trans_lt h)
    have hexp := (Nat.pow_lt_pow_iff_right Nat.one_lt_two).mp hpow
    omega

theorem scaleOf_eq {scale : Nat} (hd : 0 < den) (hlt : unitsOf num < den * 2 ^ (scale + 53))
    (hle : scale = 0 ∨ den * 2 ^ (scale + 52) ≤ unitsOf num) : scaleOf num den = scale :=
  Nat.le_antisymm (scaleOf_le hd hlt) (le_scaleOf hd hle)

theorem mantissaOf_le (num : Nat) (hd : 0 < den) : mantissaOf num den ≤ 2 ^ 53 := by
  obtain ⟨hlt, -⟩ := scaleOf_spec num hd
  have hpos : 0 < den * 2 ^ scaleOf num den := Nat.mul_pos hd (Nat.two_pow_pos _)
  have hdiv : unitsOf num / (den * 2 ^ scaleOf num den) < 2 ^ 53 := by
    rw [Nat.div_lt_iff_lt_mul hpos, Nat.mul_left_comm, ← Nat.pow_add, Nat.add_comm]
    exact hlt
  exact (roundDiv_le_succ _ _).trans hdiv

theorem le_mantissaOf (num : Nat) (hd : 0 < den) :
    scaleOf num den = 0 ∨ 2 ^ 52 ≤ mantissaOf num den := by
  obtain ⟨-, h0 | hle⟩ := scaleOf_spec num hd
  · exact .inl h0
  · have hpos : 0 < den * 2 ^ scaleOf num den := Nat.mul_pos hd (Nat.two_pow_pos _)
    refine .inr (Nat.le_trans ?_ (div_le_roundDiv _ _))
    rw [Nat.le_div_iff_mul_le hpos, Nat.mul_left_comm, ← Nat.pow_add, Nat.add_comm]
    exact hle

/-- A number that is a double is the double nearest to it. -/
theorem nearestBits_of_units {mantissa scale : Nat} (hd : 0 < den)
    (hc : Magnitude.Canonical mantissa scale) (h : unitsOf num = mantissa * 2 ^ scale * den) :
    nearestBits num den = scale * 2 ^ 52 + mantissa := by
  obtain ⟨hlt, hnormal, hle⟩ := hc
  have hunits : unitsOf num = mantissa * (den * 2 ^ scale) := by
    rw [h, Nat.mul_assoc, Nat.mul_comm den]
  have hpos : 0 < den * 2 ^ scale := Nat.mul_pos hd (Nat.two_pow_pos _)
  have hpow (k : Nat) : den * 2 ^ (scale + k) = 2 ^ k * (den * 2 ^ scale) := by
    rw [Nat.pow_add, ← Nat.mul_assoc, Nat.mul_comm]
  have hscale : scaleOf num den = scale := by
    refine scaleOf_eq hd ?_ ?_
    · rw [hunits, hpow]
      exact Nat.mul_lt_mul_of_pos_right hlt hpos
    · rw [hunits, hpow]
      exact hnormal.imp id fun hm => Nat.mul_le_mul_right _ hm
  have hinfinity : Magnitude.infinityBits = 2047 * 2 ^ 52 := by decide
  rw [nearestBits_eq, mantissaOf, hscale, hunits, roundDiv_of_dvd _ hpos, hinfinity,
    Nat.min_eq_left (by omega)]

/-- What is below half of the least positive double is rounded to zero. -/
theorem nearestBits_of_small (h : 2 * unitsOf num < den) : nearestBits num den = 0 := by
  have hdiv : unitsOf num / den = 0 := Nat.div_eq_of_lt (by omega)
  have hscale : scaleOf num den = 0 := by
    rw [scaleOf, hdiv, Nat.log2_zero]
  have hmod : unitsOf num % den = unitsOf num := Nat.mod_eq_of_lt (by omega)
  rw [nearestBits_eq, mantissaOf, hscale, Nat.pow_zero, Nat.mul_one, roundDiv]
  rw [hmod, hdiv, if_pos h, Nat.zero_mul]
  exact Nat.zero_min _

/-- Where rounding carries, the mantissa has its least value on the next scale. -/
theorem exists_canonical (num : Nat) (hd : 0 < den)
    (h : nearestBits num den < Magnitude.infinityBits) :
    ∃ mantissa scale, Magnitude.Canonical mantissa scale ∧
      nearestBits num den = scale * 2 ^ 52 + mantissa ∧
      mantissa * 2 ^ scale = mantissaOf num den * 2 ^ scaleOf num den := by
  have hle := mantissaOf_le num hd
  have hge := le_mantissaOf num hd
  have hinfinity : Magnitude.infinityBits = 2047 * 2 ^ 52 := by decide
  rw [nearestBits_eq, hinfinity] at h ⊢
  rw [Nat.min_eq_left (by omega)]
  by_cases hm : mantissaOf num den = 2 ^ 53
  · refine ⟨2 ^ 52, scaleOf num den + 1, ⟨by omega, .inr (Nat.le_refl _), by omega⟩, by omega, ?_⟩
    rw [hm, ← Nat.pow_add, ← Nat.pow_add]
    congr 1
    omega
  · exact ⟨_, _, ⟨by omega, hge, by omega⟩, rfl, rfl⟩

theorem units_of_nearestBits {mantissa scale : Nat} (hd : 0 < den)
    (h : Magnitude.Canonical mantissa scale)
    (hbits : nearestBits num den = scale * 2 ^ 52 + mantissa) :
    mantissa * 2 ^ scale = mantissaOf num den * 2 ^ scaleOf num den := by
  have hlt := h.lt
  have hle := h.le
  have hinfinity : Magnitude.infinityBits = 2047 * 2 ^ 52 := by decide
  obtain ⟨mantissa', scale', h', hbits', hunits⟩ := exists_canonical num hd (by omega)
  have hsame := Magnitude.ofBits_of_canonical h 0
  rw [← hbits, hbits', Magnitude.ofBits_of_canonical h' 0] at hsame
  cases hsame
  exact hunits

/-- The doubles on the largest scale, up to one with an odd mantissa. -/
theorem nearestBits_le_iff (num : Nat) (hd : 0 < den) {mantissa : Nat} (hodd : mantissa % 2 = 1)
    (hlt : mantissa < 2 ^ 53) (hge : 2 ^ 52 ≤ mantissa) :
    nearestBits num den ≤ 2045 * 2 ^ 52 + mantissa ↔
      2 * unitsOf num < (2 * mantissa + 1) * (den * 2 ^ 2045) := by
  have hinfinity : Magnitude.infinityBits = 2047 * 2 ^ 52 := by decide
  have hbits : nearestBits num den ≤ 2045 * 2 ^ 52 + mantissa ↔
      scaleOf num den * 2 ^ 52 + mantissaOf num den ≤ 2045 * 2 ^ 52 + mantissa := by
    rw [nearestBits_eq, hinfinity]
    omega
  have hle := mantissaOf_le num hd
  have hmin := le_mantissaOf num hd
  obtain ⟨hbelow, habove⟩ := scaleOf_spec num hd
  have hpow (m n : Nat) : 2 ^ n * (den * 2 ^ m) = den * 2 ^ (m + n) := by
    rw [Nat.pow_add, Nat.mul_left_comm, Nat.mul_comm (2 ^ n)]
  have hmono {m n : Nat} (h : m ≤ n) : den * 2 ^ m ≤ den * 2 ^ n :=
    Nat.mul_le_mul_left _ (Nat.pow_le_pow_right Nat.two_pos h)
  have hsmall {scale top : Nat} (h : scale < top) :
      den * 2 ^ (scale + 53) ≤ 2 ^ 52 * (den * 2 ^ top) := by
    rw [hpow]
    exact hmono (by omega)
  have hlarge {scale top : Nat} (h : top < scale) :
      2 ^ 53 * (den * 2 ^ top) ≤ den * 2 ^ (scale + 52) := by
    rw [hpow]
    exact hmono (by omega)
  have hbetween (top : Nat) : 2 * (2 ^ 52 * top) ≤ (2 * mantissa + 1) * top ∧
      (2 * mantissa + 1) * top ≤ 2 * (2 ^ 53 * top) := by
    rw [← Nat.mul_assoc, ← Nat.mul_assoc]
    exact ⟨Nat.mul_le_mul_right top (by omega), Nat.mul_le_mul_right top (by omega)⟩
  rw [hbits]
  rcases Nat.lt_trichotomy (scaleOf num den) 2045 with h | h | h
  · have hunits := hbelow.trans_le (hsmall h)
    have htwice := hbetween (den * 2 ^ 2045)
    omega
  · have hpos : 0 < den * 2 ^ scaleOf num den := Nat.mul_pos hd (Nat.two_pow_pos _)
    rw [← h, ← roundDiv_le_iff (unitsOf num) hpos hodd, ← mantissaOf]
    omega
  · have hunits := (hlarge h).trans (habove.resolve_left (by omega))
    have htwice := hbetween (den * 2 ^ 2045)
    omega

/-- The middle between the largest double and the power of two after it. -/
@[irreducible]
def overflow : Nat := 2 ^ 1024 - 2 ^ 970

theorem units_overflow : 2 * unitsOf overflow = (2 * (2 ^ 53 - 1) + 1) * 2 ^ 2045 := by
  unfold unitsOf overflow
  decide +kernel

theorem unitsOf_lt_iff {a b : Nat} : unitsOf a < unitsOf b ↔ a < b := by
  rw [← shiftLeft_units, ← shiftLeft_units]
  simp only [Nat.shiftLeft_eq, Nat.mul_lt_mul_right (Nat.two_pow_pos _)]

theorem lt_overflow_iff : num < overflow * den ↔
    2 * unitsOf num < (2 * (2 ^ 53 - 1) + 1) * (den * 2 ^ 2045) := by
  rw [← unitsOf_lt_iff, unitsOf_mul, ← Nat.mul_lt_mul_left Nat.two_pos, ← Nat.mul_assoc 2,
    units_overflow, Nat.mul_assoc, Nat.mul_comm den]

/-- The double nearest to a number is finite exactly if the number does not reach the middle
between the largest double and the power of two after it. -/
theorem nearestBits_lt_iff (num : Nat) (hd : 0 < den) :
    nearestBits num den < Magnitude.infinityBits ↔ num < overflow * den := by
  have hinfinity : Magnitude.infinityBits = 2045 * 2 ^ 52 + (2 ^ 53 - 1) + 1 := by decide
  rw [hinfinity, Nat.lt_succ_iff, lt_overflow_iff]
  exact nearestBits_le_iff num hd (by decide) (by decide) (by decide)

theorem step_le_of_full (hd : 0 < den) (hfull : den * 2 ^ 52 ≤ unitsOf num) :
    den * 2 ^ scaleOf num den * 2 ^ 52 ≤ unitsOf num := by
  obtain ⟨-, h0 | hle⟩ := scaleOf_spec num hd
  · rwa [h0, Nat.pow_zero, Nat.mul_one]
  · rwa [Nat.mul_assoc, ← Nat.pow_add]

theorem relative_error {exact rounded least : Nat} (hleast : least * 2 ^ 52 ≤ exact)
    (hnear : 2 * rounded ≤ 2 * exact + least) : rounded * 2 ^ 53 ≤ exact * 2 ^ 53 + exact :=
  calc rounded * 2 ^ 53 = 2 * rounded * 2 ^ 52 := by ring
    _ ≤ (2 * exact + least) * 2 ^ 52 := Nat.mul_le_mul_right _ hnear
    _ = exact * 2 ^ 53 + least * 2 ^ 52 := by ring
    _ ≤ exact * 2 ^ 53 + exact := Nat.add_le_add_left hleast _

/-- A number that is large enough for a full mantissa is off by no more than one in `2 ^ 53`. -/
theorem units_nearestBits_le {mantissa scale : Nat} (hd : 0 < den) (hfull : den * 2 ^ 52 ≤ unitsOf num)
    (h : mantissa * 2 ^ scale = mantissaOf num den * 2 ^ scaleOf num den) :
    mantissa * 2 ^ scale * den * 2 ^ 53 ≤ unitsOf num * 2 ^ 53 + unitsOf num := by
  have hpos : 0 < den * 2 ^ scaleOf num den := Nat.mul_pos hd (Nat.two_pow_pos _)
  obtain ⟨hnear, -⟩ := roundDiv_near (unitsOf num) hpos
  rw [← mantissaOf] at hnear
  have hvalue : mantissa * 2 ^ scale * den =
      den * 2 ^ scaleOf num den * mantissaOf num den := by
    rw [h]
    ring
  rw [hvalue]
  exact relative_error (step_le_of_full hd hfull) hnear

end Decimal

end ExprMachine
