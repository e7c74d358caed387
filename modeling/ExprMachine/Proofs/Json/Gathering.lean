import ExprMachine.Proofs.Json.Numerals

/-! Which digits of a numeral are read. The digits that do not fit into a word are cut off, so
that a decimal is scaled which is no larger than the one that is written. -/

namespace ExprMachine

namespace Decimal

/-- `kept` is a decimal without some of its last digits, which a word has no room for. -/
structure Keeps (d kept : Decimal) : Prop where
  lt : kept.significand < Word.size
  cut : ∃ digits low : Nat, low < 10 ^ digits ∧ d.significand = kept.significand * 10 ^ digits + low ∧
    kept.exponent = d.exponent + digits ∧
      (digits = 0 ∨ Word.size ≤ d.significand ∧ Word.size < (kept.significand + 1) * 10)

namespace Keeps

variable {d kept : Decimal}

theorem eq_of_lt (h : d.Keeps kept) (hlt : d.significand < Word.size) : kept = d := by
  obtain ⟨digits, low, hlow, hsignificand, hexponent, hdigits⟩ := h.cut
  obtain rfl : digits = 0 := hdigits.resolve_right fun h => Nat.not_le_of_lt hlt h.1
  obtain ⟨significand, exponent⟩ := kept
  obtain ⟨significand', exponent'⟩ := d
  simp only [Nat.pow_zero, Nat.mul_one] at hsignificand hlow hexponent
  simp only [mk.injEq]
  omega

theorem ne_zero (h : d.Keeps kept) (hd : d.significand ≠ 0) : kept.significand ≠ 0 := by
  obtain ⟨digits, low, hlow, hsignificand, -, rfl | hdigits⟩ := h.cut
  · simp only [Nat.pow_zero, Nat.mul_one] at hsignificand hlow
    omega
  · have hsize : 10 ≤ Word.size := by decide
    omega

theorem le (h : d.Keeps kept) : kept.num * d.den ≤ d.num * kept.den := by
  obtain ⟨digits, low, -, hsignificand, hexponent, -⟩ := h.cut
  have hpow : kept.exponent.toNat + (-d.exponent).toNat =
      digits + d.exponent.toNat + (-kept.exponent).toNat := by omega
  calc kept.num * d.den
      = kept.significand * 10 ^ (kept.exponent.toNat + (-d.exponent).toNat) := by
        rw [num, den, Nat.pow_add, Nat.mul_assoc]
    _ = kept.significand * 10 ^ digits * (10 ^ d.exponent.toNat * kept.den) := by
        rw [hpow, den, Nat.pow_add, Nat.pow_add]
        ring
    _ ≤ d.significand * (10 ^ d.exponent.toNat * kept.den) := by
        rw [hsignificand]
        exact Nat.mul_le_mul_right _ (Nat.le_add_right _ _)
    _ = d.num * kept.den := by rw [num, Nat.mul_assoc]

end Keeps

end Decimal

namespace Json

namespace Gathered

theorem foldl_addFraction_full (cs : List Char) {g : Gathered} (h : g.full = true) :
    cs.foldl addFraction g = g := by
  induction cs with
  | nil => rfl
  | cons c cs ih =>
    have hadd : g.addFraction c = g := by
      obtain ⟨significand, scale, full⟩ := g
      obtain rfl : full = true := h
      rfl
    rw [List.foldl_cons, hadd, ih]

/-- Before the point nothing is cut off from a number that fits. -/
theorem foldl_addWhole (cs : List Char) (significand : Nat)
    (h : significand * 10 ^ cs.length + digitsValue cs < Word.size) :
    cs.foldl addWhole ⟨significand, 0, false⟩ =
      ⟨significand * 10 ^ cs.length + digitsValue cs, 0, false⟩ := by
  induction cs generalizing significand with
  | nil => simp [digitsValue_eq]
  | cons c cs ih =>
    have hvalue : significand * 10 ^ (c :: cs).length + digitsValue (c :: cs) =
        (significand * 10 + digitValue c) * 10 ^ cs.length + digitsValue cs := by
      rw [digitsValue_cons, List.length_cons, Nat.pow_succ]
      ring
    rw [hvalue] at h ⊢
    have hfits : significand * 10 + digitValue c < Word.size := by
      refine Nat.lt_of_le_of_lt ?_ h
      exact (Nat.le_mul_of_pos_right _ (Nat.pow_pos (by decide))).trans (Nat.le_add_right _ _)
    have hadd : addWhole ⟨significand, 0, false⟩ c = ⟨significand * 10 + digitValue c, 0, false⟩ := by
      simp [addWhole, takes, hfits]
    rw [List.foldl_cons, hadd, ih _ h]

theorem foldl_addFraction {cs : List Char} (hcs : AllDigits cs) (g : Gathered)
    (hfull : g.full = false) (hlt : g.significand < Word.size) :
    Decimal.Keeps ⟨g.significand * 10 ^ cs.length + digitsValue cs, g.scale - cs.length⟩
      ⟨(cs.foldl addFraction g).significand, (cs.foldl addFraction g).scale⟩ := by
  induction cs generalizing g with
  | nil => exact ⟨hlt, 0, 0, Nat.one_pos, by simp [digitsValue_eq], by simp, .inl rfl⟩
  | cons c cs ih =>
    obtain ⟨significand, scale, full⟩ := g
    obtain rfl : full = false := hfull
    have hdigit := digitValue_lt (hcs c List.mem_cons_self)
    have hrest : AllDigits cs := hcs.subset (List.subset_cons_self c cs)
    have hvalue : significand * 10 ^ (c :: cs).length + digitsValue (c :: cs) =
        (significand * 10 + digitValue c) * 10 ^ cs.length + digitsValue cs := by
      rw [digitsValue_cons, List.length_cons, Nat.pow_succ]
      ring
    by_cases hfits : significand * 10 + digitValue c < Word.size
    · have hadd : addFraction ⟨significand, scale, false⟩ c =
          ⟨significand * 10 + digitValue c, scale - 1, false⟩ := by
        simp [addFraction, takes, hfits]
      have hscale : scale - ((c :: cs).length : Nat) = scale - 1 - (cs.length : Nat) := by
        rw [List.length_cons]
        omega
      have hkeeps := ih hrest ⟨significand * 10 + digitValue c, scale - 1, false⟩ rfl hfits
      rwa [List.foldl_cons, hadd, hvalue, hscale]
    · have hadd : addFraction ⟨significand, scale, false⟩ c = ⟨significand, scale, true⟩ := by
        simp [addFraction, takes, hfits]
      rw [List.foldl_cons, hadd, foldl_addFraction_full cs rfl]
      refine ⟨hlt, (c :: cs).length, digitsValue (c :: cs), hcs.value_lt, rfl, by dsimp only; omega,
        .inr ⟨?_, ?_⟩⟩
      · dsimp only
        rw [hvalue]
        have hpow : 0 < 10 ^ cs.length := Nat.pow_pos (by decide)
        have hmul := Nat.le_mul_of_pos_right (significand * 10 + digitValue c) hpow
        omega
      · dsimp only
        omega

end Gathered

end Json

namespace Numeral

/-- The digits that fit into a word, and the power of ten they are scaled by. -/
def kept (n : Numeral) : Decimal :=
  let g := n.fraction.foldl Json.Gathered.addFraction ⟨digitsValue n.whole, 0, false⟩
  ⟨g.significand, g.scale + exponentValue n.exponent⟩

variable {n : Numeral}

theorem Valid.whole_lt (hn : n.Valid) (hw : n.whole.length ≤ 16) :
    digitsValue n.whole < Word.size :=
  calc digitsValue n.whole < 10 ^ n.whole.length := hn.whole.value_lt
    _ ≤ 10 ^ 16 := Nat.pow_le_pow_right (by decide) hw
    _ < Word.size := by decide

theorem Valid.keeps (hn : n.Valid) (hw : n.whole.length ≤ 16) : n.value.Keeps n.kept := by
  obtain ⟨hlt, digits, low, hlow, hsignificand, hexponent, hdigits⟩ :=
    Json.Gathered.foldl_addFraction hn.fraction ⟨digitsValue n.whole, 0, false⟩ rfl
      (hn.whole_lt hw)
  rw [← digitsValue_append] at hsignificand hdigits
  refine ⟨hlt, digits, low, hlow, hsignificand, ?_, hdigits⟩
  dsimp only [kept, value] at hexponent ⊢
  omega

end Numeral

end ExprMachine
