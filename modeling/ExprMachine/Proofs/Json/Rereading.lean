import ExprMachine.Proofs.Json.Scaling

/-! Reading a double from the digits it is stored with. There always is a result and it is finite.
It is the double itself where no step of the arithmetic has to round. -/

namespace ExprMachine

open Decimal Magnitude

namespace Json

theorem digits_append {cs rest : List Char} (hcs : AllDigits cs)
    (hrest : ∀ c, rest.head? = some c → c.isDigit = false) : digits (cs ++ rest) = (cs, rest) := by
  rw [digits, List.takeWhile_append_of_pos hcs, List.dropWhile_append_of_pos hcs]
  cases rest with
  | nil => rw [List.takeWhile_nil, List.dropWhile_nil, List.append_nil]
  | cons c rest =>
    have hc := hrest c rfl
    rw [List.takeWhile_cons, List.dropWhile_cons, hc]
    simp

theorem withExponent?_toDigits (g : Gathered) (negative : Bool) {size : Nat}
    (h : size ≤ exponentLimit) : withExponent? g negative (Nat.toDigits 10 size) =
      scaled? 4 (UInt64.ofNat g.significand).toFloat
        (g.scale + Numeral.exponentValue (some (negative, size))) := by
  rw [withExponent?, digitsValue_toDigits, if_neg (Nat.not_lt.mpr h)]
  cases negative with
  | false => rfl
  | true => rfl

/-- The digits that are kept are scaled, whichever way they are written. -/
theorem magnitude?_text {n : Numeral} (hn : n.Valid) (hw : n.whole.length ≤ 16)
    (he : ∀ negative size, n.exponent = some (negative, size) → size ≤ exponentLimit) :
    magnitude? n.text = scaled? 4 (UInt64.ofNat n.kept.significand).toFloat n.kept.exponent := by
  have hwhole := Gathered.foldl_addWhole n.whole 0 (by
    rw [Nat.zero_mul, Nat.zero_add]
    exact hn.whole_lt hw)
  rw [Nat.zero_mul, Nat.zero_add] at hwhole
  obtain ⟨whole, fraction, exponent⟩ := n
  have hfraction := hn.fraction
  have hdigits := hn.whole
  dsimp only at hwhole hfraction hdigits he
  have hmark : ∀ c, (Numeral.exponentText exponent).head? = some c → c.isDigit = false := by
    intro c hc
    rcases exponent with _ | ⟨negative, size⟩
    · cases hc
    · cases hc
      rfl
  rw [magnitude?, Numeral.text, Numeral.kept]
  rcases exponent with _ | ⟨negative, size⟩
  · have hend (g : Gathered) : g.scale = g.scale + Numeral.exponentValue none := by
      rw [Numeral.exponentValue, Int.add_zero]
    by_cases hempty : fraction = []
    · subst hempty
      rw [if_pos rfl, List.nil_append, digits_append hdigits hmark]
      dsimp only
      rw [hwhole, ← hend]
      rfl
    · rw [if_neg hempty, List.cons_append, digits_append hdigits (by simp)]
      simp only [hwhole, digits_append hfraction hmark, ← hend]
      rfl
  · have hend (g : Gathered) := withExponent?_toDigits g negative (he negative size rfl)
    by_cases hempty : fraction = []
    · subst hempty
      rw [if_pos rfl, List.nil_append, digits_append hdigits hmark]
      dsimp only
      rw [hwhole]
      cases negative with
      | false => exact hend _
      | true => exact hend _
    · rw [if_neg hempty, List.cons_append, digits_append hdigits (by simp)]
      simp only [hwhole, digits_append hfraction hmark]
      cases negative with
      | false => exact hend _
      | true => exact hend _

/-- A number of at most 53 bits and any power of two is a double. -/
theorem units_of_bits {bits : Nat} (h : bits < 2 ^ 53) (shift : Nat) :
    mantissaOf (bits * 2 ^ shift) 1 * 2 ^ scaleOf (bits * 2 ^ shift) 1 =
      unitsOf (bits * 2 ^ shift) := by
  obtain ⟨point, hpoint⟩ : ∃ point : Nat, point = 1074 := ⟨_, rfl⟩
  have hunits : unitsOf (bits * 2 ^ shift) = bits * 2 ^ (shift + point) := by
    rw [unitsOf_eq _ hpoint, Nat.pow_add, Nat.mul_assoc]
  have hscale : scaleOf (bits * 2 ^ shift) 1 ≤ shift + point := by
    refine scaleOf_le Nat.one_pos ?_
    rw [hunits, Nat.one_mul, Nat.add_comm _ 53, Nat.pow_add 2 53]
    exact Nat.mul_lt_mul_of_pos_right h (Nat.two_pow_pos _)
  obtain ⟨more, hmore⟩ := Nat.exists_eq_add_of_le hscale
  have hfactor : unitsOf (bits * 2 ^ shift) =
      bits * 2 ^ more * (1 * 2 ^ scaleOf (bits * 2 ^ shift) 1) := by
    rw [hunits, hmore, Nat.pow_add]
    ring
  have hpos : 0 < 1 * 2 ^ scaleOf (bits * 2 ^ shift) 1 := Nat.mul_pos Nat.one_pos (Nat.two_pow_pos _)
  rw [mantissaOf, hfactor, roundDiv_of_dvd _ hpos, Nat.one_mul]

theorem unitsOf_eq_mul (k : Nat) : unitsOf k = k * (unitsOf 1) := by
  rw [Nat.mul_comm, ← unitsOf_mul, Nat.one_mul]

theorem units_of_lt {k : Nat} (h : k < 2 ^ 53) :
    mantissaOf k 1 * 2 ^ scaleOf k 1 = k * unitsOf 1 := by
  have hbits := units_of_bits h 0
  rwa [Nat.pow_zero, Nat.mul_one, unitsOf_eq_mul] at hbits

/-- Up to here the powers of five have 53 bits. -/
theorem units_powerOfTen {n : Nat} (h : n ≤ 22) :
    mantissaOf (10 ^ n) 1 * 2 ^ scaleOf (10 ^ n) 1 = 10 ^ n * unitsOf 1 := by
  have hfive : 5 ^ n < 2 ^ 53 := (Nat.pow_le_pow_right (by decide) h).trans_lt (by decide)
  have hten : 10 ^ n = 5 ^ n * 2 ^ n := Nat.mul_pow 5 2 n
  rw [hten, units_of_bits hfive, unitsOf_eq_mul]

/-- Where neither the digits nor the power of ten have to be rounded, one step rounds. -/
theorem scaled?_exact {d : Decimal} (hd : d.significand < 2 ^ 53) (he : d.exponent.natAbs ≤ 22)
    (steps : Nat) : ∃ y, scaled? (steps + 1) (UInt64.ofNat d.significand).toFloat d.exponent = some y ∧
      y.toBits.toNat = d.toBits := by
  have hone := unitsOf_one_pos
  have hsize : d.significand < Word.size := hd.trans (by decide)
  obtain ⟨m, s, hx, hm⟩ := holds_ofNat hsize
  obtain ⟨n, t, hy, hn⟩ := holds_powerOfTen (n := d.exponent.natAbs) (by omega)
  have hsignificand := hm.trans (units_of_lt hd)
  have hpower := hn.trans (units_powerOfTen he)
  have hpos : 0 < unitsOf 1 * unitsOf 1 := Nat.mul_pos hone hone
  rw [toBits_eq, num, den]
  by_cases hup : 0 ≤ d.exponent
  · have hproduct : m * 2 ^ s * (n * 2 ^ t) =
        d.significand * 10 ^ d.exponent.natAbs * (unitsOf 1 * unitsOf 1) := by
      rw [hsignificand, hpower]
      ring
    have hlt : m * 2 ^ s * (n * 2 ^ t) < overflow * (unitsOf 1 * unitsOf 1) := by
      rw [hproduct]
      refine Nat.mul_lt_mul_of_pos_right ?_ hpos
      calc d.significand * 10 ^ d.exponent.natAbs ≤ 2 ^ 53 * 10 ^ 22 :=
            Nat.mul_le_mul hd.le (Nat.pow_le_pow_right (by decide) he)
        _ < overflow := by
            unfold overflow
            decide +kernel
    obtain ⟨hscaled, -⟩ := scaled?_up steps hup (by omega) hx hy hlt
    refine ⟨_, hscaled, ?_⟩
    have hexponent : d.exponent.toNat = d.exponent.natAbs := by omega
    have hdown : (-d.exponent).toNat = 0 := by omega
    have hmul := nearestBits_mul_right (d.significand * 10 ^ d.exponent.natAbs) 1 hpos
    rw [Nat.one_mul] at hmul
    rw [hx.mul hy, hproduct, hmul, hexponent, hdown, Nat.pow_zero]
  · have hexponent : d.exponent.toNat = 0 := by omega
    have hdown : (-d.exponent).toNat = d.exponent.natAbs := by omega
    have hk : 0 < n := by
      refine Nat.pos_of_mul_pos_right (b := 2 ^ t) ?_
      rw [hpower]
      exact Nat.mul_pos (Nat.pow_pos (by decide)) hone
    refine ⟨_, by rw [scaled?, if_pos (by omega), if_neg hup], ?_⟩
    rw [hx.div hy hk, hsignificand, hpower, nearestBits_mul_right _ _ hone, hexponent, hdown,
      Nat.pow_zero, Nat.mul_one]

/-- Scaling up what is kept of a number stays below the largest doubles if the number does. -/
theorem scaled?_kept {d kept : Decimal} (hkeeps : d.Keeps kept)
    (hd : kept.exponent < 0 ∨ d.significand ≠ 0)
    (hbits : nearestBits d.num d.den ≤ 2045 * 2 ^ 52 + (2 ^ 53 - 3)) :
    ∃ y, scaled? 4 (UInt64.ofNat kept.significand).toFloat kept.exponent = some y ∧
      ∃ m s, Holds y false m s := by
  obtain ⟨m, s, hx, hunits⟩ := holds_ofNat hkeeps.lt
  by_cases hscale : kept.exponent < 0
  · exact scaled?_of_neg 4 hx hscale
  have hkept := Nat.pos_of_ne_zero (hkeeps.ne_zero (hd.resolve_left hscale))
  have hbelow := hkeeps.le
  obtain ⟨k, e⟩ := kept
  obtain ⟨power, hpower⟩ := Int.eq_ofNat_of_zero_le (Int.not_lt.mp hscale)
  dsimp only at hpower hkept hx hunits ⊢
  have hproduct : k * 10 ^ power * d.den ≤ d.num := by
    have hden : den ⟨k, e⟩ = 1 := by
      rw [den, hpower]
      have hdown : (-(power : Int)).toNat = 0 := by omega
      rw [hdown, Nat.pow_zero]
    rwa [hden, Nat.mul_one, num, hpower, Int.toNat_natCast] at hbelow
  have hlarge : 2 * unitsOf d.num < (2 * (2 ^ 53 - 3) + 1) * (d.den * 2 ^ 2045) :=
    (nearestBits_le_iff d.num d.den_pos (by decide) (by decide) (by decide)).mp hbits
  have hlimit : power ≤ 308 := by
    have hinfinity : infinityBits = 2047 * 2 ^ 52 := by decide
    have hfinite : d.num < overflow * d.den :=
      (nearestBits_lt_iff d.num d.den_pos).mp (by omega)
    have hten : 10 ^ power ≤ k * 10 ^ power := Nat.le_mul_of_pos_left _ hkept
    have hpow : 10 ^ power < overflow :=
      hten.trans_lt (Nat.lt_of_mul_lt_mul_right (hproduct.trans_lt hfinite))
    by_contra hpast
    exact Nat.not_le_of_lt hpow (overflow_le (by omega))
  have habs : e.natAbs = power := by omega
  obtain ⟨n, t, hy, hpunits⟩ := holds_powerOfTen hlimit
  rw [← habs] at hy
  have hlt := product_lt_overflow d.den_pos hproduct hlarge (units_le k hunits hkept)
    (units_le (10 ^ power) hpunits (Nat.pow_pos (by decide)))
  obtain ⟨hscaled, hfinite⟩ := scaled?_up 3 (by omega) (by omega) hx hy hlt
  exact ⟨_, hscaled, hfinite⟩

/-- The two largest doubles, for which the estimate of the errors is not enough. -/
theorem magnitude?_largest : ∀ m ∈ [2 ^ 53 - 1, 2 ^ 53 - 2],
    ((magnitude? (Numeral.ofMagnitude m 2045).text).map (·.toBits.toNat)).any
      (· < infinityBits) = true := by
  decide +kernel

end Json

namespace Numeral

/-- The digits fit into 53 bits, and the power of ten they are scaled by is a double. -/
structure Short (n : Numeral) : Prop where
  significand : n.value.significand < 2 ^ 53
  exponent : n.value.exponent.natAbs ≤ 22

variable {m s : Nat}

theorem toBits_ofMagnitude (h : Canonical m s) : (ofMagnitude m s).value.toBits = s * 2 ^ 52 + m := by
  unfold ofMagnitude
  split
  · next h0 =>
    obtain rfl : s = 0 := h.normal.resolve_right (by omega)
    rw [h0]
    decide
  · rw [toBits_ofDecimal, toBits_shortest _ h]

theorem valid_ofMagnitude (h : Canonical m s) :
    (ofMagnitude m s).Valid ∧ (ofMagnitude m s).whole.length ≤ 16 := by
  unfold ofMagnitude
  split
  · have hzero : AllDigits ['0'] := by
      intro c hc
      rw [List.mem_singleton.mp hc]
      rfl
    exact ⟨⟨List.cons_ne_nil _ _, hzero, .inl rfl, hzero⟩, by decide⟩
  · next hm => exact valid_ofDecimal (shortest_ne_zero _ h hm)

theorem exponent_ofMagnitude (h : Canonical m s) {negative : Bool} {size : Nat}
    (he : (ofMagnitude m s).exponent = some (negative, size)) : size ≤ Json.exponentLimit := by
  unfold ofMagnitude at he
  split at he
  · cases he
  · next hm =>
    have hlt := h.lt
    have hle := h.le
    have hinfinity : infinityBits = 2047 * 2 ^ 52 := by decide
    have hbits := toBits_shortest .even h
    obtain ⟨hlow, hhigh⟩ := point_bounds (d := shortest .even m s) (by omega) (by omega)
    have hsize := exponent_ofDecimal he
    have hlimit : Json.exponentLimit = 2147483647 := rfl
    omega

theorem keeps_ofMagnitude (h : Canonical m s) : (ofMagnitude m s).value.Keeps (ofMagnitude m s).kept :=
  (valid_ofMagnitude h).1.keeps (valid_ofMagnitude h).2

theorem magnitude?_kept (h : Canonical m s) : Json.magnitude? (ofMagnitude m s).text =
    Json.scaled? 4 (UInt64.ofNat (ofMagnitude m s).kept.significand).toFloat
      (ofMagnitude m s).kept.exponent :=
  Json.magnitude?_text (valid_ofMagnitude h).1 (valid_ofMagnitude h).2 fun _ _ =>
    exponent_ofMagnitude h

theorem magnitude?_ofMagnitude (h : Canonical m s) :
    ∃ y, Json.magnitude? (ofMagnitude m s).text = some y ∧ (∃ m' s', Holds y false m' s') ∧
      ((ofMagnitude m s).Short → y.toBits.toNat = s * 2 ^ 52 + m) := by
  have hkeeps := keeps_ofMagnitude h
  have hbits := toBits_ofMagnitude h
  have htext := magnitude?_kept h
  suffices hread : ∃ y, Json.magnitude? (ofMagnitude m s).text = some y ∧
      ∃ m' s', Holds y false m' s' by
    obtain ⟨y, hy, hfinite⟩ := hread
    refine ⟨y, hy, hfinite, fun hshort => ?_⟩
    rw [htext, hkeeps.eq_of_lt (hshort.significand.trans (by decide))] at hy
    obtain ⟨z, hz, hexact⟩ := Json.scaled?_exact hshort.significand hshort.exponent 3
    obtain rfl : y = z := Option.some.inj (hy.symm.trans hz)
    rw [hexact, hbits]
  have hlt := h.lt
  have hle := h.le
  by_cases htop : 2045 * 2 ^ 52 + (2 ^ 53 - 3) < s * 2 ^ 52 + m
  · obtain ⟨rfl, hm⟩ : s = 2045 ∧ m ∈ [2 ^ 53 - 1, 2 ^ 53 - 2] := by
      simp only [List.mem_cons, List.not_mem_nil, or_false]
      omega
    have hany := Json.magnitude?_largest m hm
    cases hread : Json.magnitude? (ofMagnitude m 2045).text with
    | none =>
      rw [hread] at hany
      cases hany
    | some y =>
      rw [hread] at hany
      exact ⟨y, rfl, holds_of_lt (of_decide_eq_true hany)⟩
  · rw [htext]
    refine Json.scaled?_kept hkeeps ?_ ?_
    · by_cases h0 : (ofMagnitude m s).value.significand = 0
      · rw [toBits, if_pos h0] at hbits
        obtain ⟨rfl, rfl⟩ : m = 0 ∧ s = 0 := by omega
        exact .inl (by decide)
      · exact .inr h0
    · rw [← toBits_eq, hbits]
      exact Nat.not_lt.mp htop

end Numeral

end ExprMachine
