import Mathlib.Data.List.Induction
import ExprMachine.Decimal.Layout
import ExprMachine.Json.Numeral
import ExprMachine.Proofs.Decimal.Shortest

/-! Numerals in JSON: how a stored number is split up into digits, and which decimal its digits
are. -/

namespace ExprMachine

theorem digitsValue_eq_ofDigitChars (digits : List Char) :
    digitsValue digits = Nat.ofDigitChars 10 digits 0 := digitsValue_eq digits

theorem digitsValue_append (digits rest : List Char) :
    digitsValue (digits ++ rest) = digitsValue digits * 10 ^ rest.length + digitsValue rest := by
  rw [digitsValue_eq_ofDigitChars, Nat.ofDigitChars_append, Nat.ofDigitChars_eq_ofDigitChars_zero,
    Nat.mul_comm, ← digitsValue_eq_ofDigitChars, ← digitsValue_eq_ofDigitChars]

theorem digitsValue_toDigits (n : Nat) : digitsValue (Nat.toDigits 10 n) = n := by
  rw [digitsValue_eq_ofDigitChars, Nat.ofDigitChars_ten_toDigits]

theorem digitsValue_zeros (n : Nat) : digitsValue (Layout.zeros n) = 0 := by
  rw [digitsValue_eq_ofDigitChars, Layout.zeros, Nat.ofDigitChars_replicate_zero, Nat.mul_zero]

theorem digitsValue_singleton (c : Char) : digitsValue [c] = digitValue c := by
  rw [digitsValue_eq]
  exact Nat.zero_add _

theorem digitsValue_cons (c : Char) (cs : List Char) :
    digitsValue (c :: cs) = digitValue c * 10 ^ cs.length + digitsValue cs := by
  rw [← digitsValue_singleton, ← digitsValue_append, List.singleton_append]

def AllDigits (cs : List Char) : Prop := ∀ c ∈ cs, c.isDigit = true

theorem AllDigits.append {cs ds : List Char} (hc : AllDigits cs) (hd : AllDigits ds) :
    AllDigits (cs ++ ds) := fun c h => (List.mem_append.mp h).elim (hc c) (hd c)

theorem AllDigits.subset {cs ds : List Char} (h : AllDigits cs) (hs : ds ⊆ cs) : AllDigits ds :=
  fun c hc => h c (hs hc)

theorem allDigits_toDigits (n : Nat) : AllDigits (Nat.toDigits 10 n) := fun _ hc =>
  Nat.isDigit_of_mem_toDigits (by decide) (by decide) hc

theorem allDigits_zeros (n : Nat) : AllDigits (Layout.zeros n) := by
  intro c hc
  rw [List.eq_of_mem_replicate hc]
  rfl

theorem digitValue_lt {c : Char} (h : c.isDigit = true) : digitValue c < 10 := by
  simp only [Char.isDigit, Bool.and_eq_true, decide_eq_true_eq, ge_iff_le, UInt32.le_iff_toNat_le] at h
  have hnine : '9'.val.toNat = 57 := rfl
  have hc : c.toNat = c.val.toNat := rfl
  rw [digitValue, hc]
  omega

theorem AllDigits.value_lt {cs : List Char} (h : AllDigits cs) :
    digitsValue cs < 10 ^ cs.length := by
  induction cs using List.reverseRecOn with
  | nil => decide
  | append_singleton cs c ih =>
    have hinit := ih fun d hd => h d (List.mem_append_left _ hd)
    have hdigit := digitValue_lt (h c (List.mem_append_right _ (List.mem_singleton_self c)))
    rw [digitsValue_append, digitsValue_singleton, List.length_append, List.length_singleton,
      Nat.pow_one, Nat.pow_succ]
    omega

/-- The digits of a positive number do not start with a zero. -/
theorem head?_toDigits {n : Nat} (h : n ≠ 0) : (Nat.toDigits 10 n).head? ≠ some '0' := by
  induction n using Nat.strongRecOn with
  | ind n ih =>
    by_cases hn : n < 10
    · rw [Nat.toDigits_of_lt_base hn, List.head?_cons]
      simpa using h
    · have hdiv : n / 10 ≠ 0 := by omega
      have hinit := ih (n / 10) (by omega) hdiv
      obtain ⟨c, cs, hcs⟩ := List.exists_cons_of_ne_nil (Nat.toDigits_ne_nil (n := n / 10) (b := 10))
      rw [hcs] at hinit
      rw [Nat.toDigits_of_base_le (by decide) (Nat.le_of_not_lt hn), hcs]
      exact hinit

/-- Digits before and after the point, and an exponent with its sign. -/
structure Numeral where
  whole : List Char
  fraction : List Char
  exponent : Option (Bool × Nat)

namespace Numeral

def exponentText : Option (Bool × Nat) → List Char
  | none => []
  | some (negative, size) => 'e' :: (if negative then '-' else '+') :: Nat.toDigits 10 size

def text (n : Numeral) : List Char :=
  n.whole ++ ((if n.fraction = [] then [] else '.' :: n.fraction) ++ exponentText n.exponent)

def exponentValue : Option (Bool × Nat) → Int
  | none => 0
  | some (negative, size) => if negative then -size else size

def value (n : Numeral) : Decimal :=
  ⟨digitsValue (n.whole ++ n.fraction), exponentValue n.exponent - n.fraction.length⟩

structure Valid (n : Numeral) : Prop where
  nonempty : n.whole ≠ []
  whole : AllDigits n.whole
  noZero : n.whole = ['0'] ∨ n.whole.head? ≠ some '0'
  fraction : AllDigits n.fraction

/-- How a decimal is stored. -/
def ofDecimal (d : Decimal) : Numeral :=
  let digits := Nat.toDigits 10 d.significand
  let point := (digits.length : Int) + d.exponent
  if -5 < point ∧ point ≤ 16 then
    if point ≤ 0 then ⟨['0'], Layout.zeros (-point).toNat ++ digits, none⟩
    else if digits.length ≤ point.toNat then
      ⟨digits ++ Layout.zeros (point.toNat - digits.length), ['0'], none⟩
    else ⟨digits.take point.toNat, digits.drop point.toNat, none⟩
  else ⟨digits.take 1, digits.drop 1, some (decide (point - 1 < 0), (point - 1).natAbs)⟩

/-- How a finite double is stored, but for its sign. -/
def ofMagnitude (mantissa scale : Nat) : Numeral :=
  if mantissa = 0 then ⟨['0'], ['0'], none⟩ else ofDecimal (.shortest .even mantissa scale)

theorem text_ofDecimal (d : Decimal) : (ofDecimal d).text = Layout.stored.decimal d := by
  have hne : Nat.toDigits 10 d.significand ≠ [] := Nat.toDigits_ne_nil
  unfold ofDecimal Layout.decimal Layout.isPositional Layout.stored
  dsimp only
  generalize Nat.toDigits 10 d.significand = digits at hne ⊢
  generalize (digits.length : Int) + d.exponent = point
  have hlayout : (decide (-5 < point) && decide (point ≤ 16)) = true ↔
      -5 < point ∧ point ≤ 16 := by simp
  by_cases hpositional : -5 < point ∧ point ≤ 16
  · rw [if_pos hpositional, if_pos (hlayout.mpr hpositional), Layout.positionalDigits]
    split
    · simp [text, exponentText, hne]
    · have hempty : (digits.drop point.toNat).isEmpty = true ↔ digits.length ≤ point.toNat := by
        rw [List.isEmpty_iff, List.drop_eq_nil_iff]
      dsimp only
      by_cases hle : digits.length ≤ point.toNat
      · rw [if_pos hle, if_pos (hempty.mpr hle), List.take_of_length_le hle]
        simp [text, exponentText]
      · rw [if_neg hle, if_neg (hempty.not.mpr hle)]
        have hdrop : digits.drop point.toNat ≠ [] := fun h => hle (List.drop_eq_nil_iff.mp h)
        simp [text, exponentText, hdrop]
  · rw [if_neg hpositional, if_neg (hlayout.not.mpr hpositional), Layout.scientificDigits]
    have hdrop : digits.drop 1 = [] ↔ digits.length ≤ 1 := List.drop_eq_nil_iff
    simp only [text, exponentText, hdrop, decide_eq_true_eq, if_true, List.append_assoc]
    split <;> split <;> simp

theorem text_ofMagnitude (negative : Bool) (mantissa scale : Nat) :
    Layout.stored.finite negative mantissa scale =
      Layout.signed negative (ofMagnitude mantissa scale).text := by
  unfold ofMagnitude Layout.finite
  split
  · rfl
  · rw [text_ofDecimal]
    rfl

theorem exponentValue_signed (e : Int) : exponentValue (some (decide (e < 0), e.natAbs)) = e := by
  unfold exponentValue
  by_cases h : e < 0
  · simp only [h, decide_true, if_true]
    omega
  · simp only [h, decide_false, Bool.false_eq_true, if_false]
    omega

/-- The digits that are stored are those of the decimal, but for zeros up to the point and one
after it. -/
theorem value_ofDecimal (d : Decimal) : ∃ zeros : Nat,
    (ofDecimal d).value = ⟨d.significand * 10 ^ zeros, d.exponent - zeros⟩ ∧
      (zeros = 0 ∨ 0 ≤ d.exponent ∧ zeros = d.exponent.toNat + 1 ∧
        d.significand * 10 ^ d.exponent.toNat < 10 ^ 16) := by
  have hvalue := digitsValue_toDigits d.significand
  have hlt := (allDigits_toDigits d.significand).value_lt
  have hpos : 0 < (Nat.toDigits 10 d.significand).length := Nat.length_toDigits_pos
  rw [hvalue] at hlt
  unfold ofDecimal
  dsimp only
  generalize Nat.toDigits 10 d.significand = digits at hvalue hlt hpos ⊢
  obtain ⟨point, hpoint⟩ : ∃ point, point = (digits.length : Int) + d.exponent := ⟨_, rfl⟩
  rw [← hpoint]
  split
  · split
    · refine ⟨0, ?_, .inl rfl⟩
      have hexponent : (0 : Int) - (((-point).toNat + digits.length : Nat) : Int) =
          d.exponent - (0 : Nat) := by omega
      simp only [value, exponentValue, List.length_append, Layout.zeros, List.length_replicate,
        hexponent]
      rw [digitsValue_append, digitsValue_append, ← Layout.zeros, digitsValue_zeros, hvalue]
      simp [digitsValue_singleton, digitValue]
    split
    · next hpositional _ hle =>
      obtain ⟨fill, hfill⟩ : ∃ fill, fill = point.toNat - digits.length := ⟨_, rfl⟩
      have htoNat : d.exponent.toNat = fill := by omega
      refine ⟨fill + 1, ?_, .inr ⟨by omega, by rw [htoNat], ?_⟩⟩
      · have hexponent : (0 : Int) - ((1 : Nat) : Int) = d.exponent - ((fill + 1 : Nat) : Int) := by
          omega
        simp only [value, exponentValue, List.length_singleton, hexponent, ← hfill]
        rw [digitsValue_append, digitsValue_append, digitsValue_zeros, hvalue, digitsValue_singleton,
          List.length_singleton, Layout.zeros, List.length_replicate, Nat.pow_one, Nat.pow_succ,
          Nat.add_zero, Nat.mul_assoc, show digitValue '0' = 0 from rfl, Nat.add_zero]
      · rw [htoNat]
        calc d.significand * 10 ^ fill < 10 ^ digits.length * 10 ^ fill :=
              Nat.mul_lt_mul_of_pos_right hlt (Nat.pow_pos (by decide))
          _ = 10 ^ (digits.length + fill) := (Nat.pow_add 10 _ _).symm
          _ ≤ 10 ^ 16 := Nat.pow_le_pow_right (by decide) (by omega)
    · next hpositional _ hle =>
      refine ⟨0, ?_, .inl rfl⟩
      have hexponent : (0 : Int) - ((digits.length - point.toNat : Nat) : Int) =
          d.exponent - (0 : Nat) := by omega
      simp only [value, exponentValue, List.take_append_drop, List.length_drop, hexponent, hvalue]
      simp
  · refine ⟨0, ?_, .inl rfl⟩
    have hexponent : point - 1 - ((digits.length - 1 : Nat) : Int) = d.exponent - (0 : Nat) := by
      omega
    simp only [value, exponentValue_signed, List.take_append_drop, List.length_drop, hexponent,
      hvalue]
    simp

theorem toBits_ofDecimal (d : Decimal) : (ofDecimal d).value.toBits = d.toBits := by
  obtain ⟨zeros, hvalue, -⟩ := value_ofDecimal d
  rw [hvalue, Decimal.toBits_padded]

/-- The first digit of a double that is not zero stands between `10 ^ (-1075)` and `10 ^ 309`. -/
theorem point_bounds {d : Decimal} (hpos : d.toBits ≠ 0) (hlt : d.toBits < Magnitude.infinityBits) :
    -1075 < ((Nat.toDigits 10 d.significand).length : Int) + d.exponent ∧
      ((Nat.toDigits 10 d.significand).length : Int) + d.exponent ≤ 309 := by
  have hsignificand : d.significand ≠ 0 := by
    intro h0
    exact hpos (by rw [Decimal.toBits, if_pos h0])
  have hlength : 0 < (Nat.toDigits 10 d.significand).length := Nat.length_toDigits_pos
  obtain ⟨length, hlen⟩ : ∃ length, length + 1 = (Nat.toDigits 10 d.significand).length :=
    ⟨_, Nat.succ_pred (by omega)⟩
  have hbelow : d.significand < 10 ^ (length + 1) :=
    (Nat.length_toDigits_le_iff (by decide) (Nat.succ_pos _)).mp (by omega)
  have habove : 10 ^ length ≤ d.significand := by
    rcases Nat.eq_zero_or_pos length with rfl | h
    · exact Nat.pos_of_ne_zero hsignificand
    · rw [← Nat.not_lt, ← Nat.length_toDigits_le_iff (by decide) h]
      omega
  rw [← hlen]
  refine ⟨?_, ?_⟩
  · by_contra hsmall
    refine hpos ?_
    obtain ⟨point, hpoint⟩ : ∃ point : Nat, point = 1075 := ⟨_, rfl⟩
    have hnum : d.num = d.significand := by
      rw [Decimal.num, show d.exponent.toNat = 0 by omega, Nat.pow_zero, Nat.mul_one]
    rw [Decimal.toBits_eq]
    apply Decimal.nearestBits_of_small
    rw [Decimal.two_mul_unitsOf _ hpoint, hnum, Decimal.den]
    calc d.significand * 2 ^ point < 10 ^ (length + 1) * 2 ^ point :=
          Nat.mul_lt_mul_of_pos_right hbelow (Nat.two_pow_pos _)
      _ ≤ 10 ^ (length + 1) * 10 ^ point :=
          Nat.mul_le_mul_left _ (Nat.pow_le_pow_left (by decide) _)
      _ = 10 ^ (length + 1 + point) := (Nat.pow_add 10 _ _).symm
      _ ≤ 10 ^ (-d.exponent).toNat := Nat.pow_le_pow_right (by decide) (by omega)
  · by_contra hlarge
    rw [Decimal.toBits_eq, Decimal.nearestBits_lt_iff _ d.den_pos, ← Nat.not_le] at hlt
    refine hlt ?_
    obtain ⟨least, hleast⟩ : ∃ least : Nat, least = 309 := ⟨_, rfl⟩
    calc Decimal.overflow * d.den ≤ 10 ^ least * 10 ^ (-d.exponent).toNat :=
          Nat.mul_le_mul_right _ (Decimal.overflow_le (by omega))
      _ = 10 ^ (least + (-d.exponent).toNat) := (Nat.pow_add 10 _ _).symm
      _ ≤ 10 ^ (length + d.exponent.toNat) := Nat.pow_le_pow_right (by decide) (by omega)
      _ = 10 ^ length * 10 ^ d.exponent.toNat := Nat.pow_add 10 _ _
      _ ≤ d.num := Nat.mul_le_mul_right _ habove

theorem exponent_ofDecimal {d : Decimal} {negative : Bool} {size : Nat}
    (h : (ofDecimal d).exponent = some (negative, size)) :
    size = (((Nat.toDigits 10 d.significand).length : Int) + d.exponent - 1).natAbs := by
  unfold ofDecimal at h
  dsimp only at h
  split at h
  · split at h
    · cases h
    split at h <;> cases h
  · injection h with h
    injection h with _ hsize
    exact hsize.symm

/-- The whole part of a number that is stored has at most sixteen digits. -/
theorem valid_ofDecimal {d : Decimal} (h : d.significand ≠ 0) :
    (ofDecimal d).Valid ∧ (ofDecimal d).whole.length ≤ 16 := by
  have hdigits := allDigits_toDigits d.significand
  have hhead := head?_toDigits h
  have hne : Nat.toDigits 10 d.significand ≠ [] := Nat.toDigits_ne_nil
  unfold ofDecimal
  dsimp only
  generalize Nat.toDigits 10 d.significand = digits at hdigits hhead hne ⊢
  obtain ⟨first, rest, rfl⟩ := List.exists_cons_of_ne_nil hne
  have hzero : AllDigits ['0'] := by
    intro c hc
    rw [List.mem_singleton.mp hc]
    rfl
  split
  · next hpositional =>
    split
    · refine ⟨⟨List.cons_ne_nil _ _, hzero, .inl rfl, (allDigits_zeros _).append hdigits⟩, ?_⟩
      rw [List.length_singleton]
      decide
    split
    · refine ⟨⟨List.cons_ne_nil _ _, hdigits.append (allDigits_zeros _), .inr hhead, hzero⟩, ?_⟩
      rw [List.length_append, Layout.zeros, List.length_replicate]
      omega
    · next hpoint _ =>
      obtain ⟨k, hk⟩ : ∃ k, ((((first :: rest).length : Nat) : Int) + d.exponent).toNat = k + 1 :=
        ⟨_, (Nat.succ_pred (by omega)).symm⟩
      rw [hk, List.take_succ_cons, List.drop_succ_cons]
      have htake : first :: rest.take k ⊆ first :: rest :=
        List.cons_subset_cons _ (List.take_subset _ _)
      have hdrop : rest.drop k ⊆ first :: rest :=
        List.Subset.trans (List.drop_subset _ _) (List.subset_cons_self _ _)
      refine ⟨⟨List.cons_ne_nil _ _, hdigits.subset htake, .inr hhead, hdigits.subset hdrop⟩,
        ?_⟩
      rw [List.length_cons, List.length_take]
      omega
  · have htake : [first] ⊆ first :: rest := List.cons_subset_cons _ (List.nil_subset _)
    refine ⟨⟨List.cons_ne_nil _ _, hdigits.subset htake, .inr hhead,
      hdigits.subset (List.subset_cons_self _ _)⟩, ?_⟩
    rw [List.take_succ_cons, List.take_zero, List.length_singleton]
    decide

end Numeral

end ExprMachine
