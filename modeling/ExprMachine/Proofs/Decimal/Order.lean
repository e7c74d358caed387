import Mathlib

/-! How doubles compare. Two doubles of which neither is NaN are less, equal or greater, and nothing
else; NaN is none of these to any double. -/

namespace ExprMachine

open Float.Model

theorem compare_finite_swap (e f : Int) (m n : Nat) :
    ((compare e f).then (compare m n)).swap = (compare f e).then (compare n m) := by
  rw [Ordering.swap_then, ← Std.OrientedCmp.eq_swap, ← Std.OrientedCmp.eq_swap]

theorem compare_unpacked_swap (a b : UnpackedFloat) :
    b.compare a = (a.compare b).map Ordering.swap := by
  cases a with
  | notANumber =>
    cases b with
    | infinity s => cases s <;> rfl
    | finite s => cases s <;> rfl
    | _ => rfl
  | infinity s =>
    cases b with
    | infinity t => cases s <;> cases t <;> rfl
    | _ => cases s <;> rfl
  | zero s =>
    cases b with
    | infinity t => cases t <;> rfl
    | finite t => cases t <;> rfl
    | _ => rfl
  | finite s m e =>
    cases b with
    | infinity t => cases s <;> cases t <;> rfl
    | finite t n f =>
      have hswap := compare_finite_swap e f m n
      cases s with
      | negative =>
        cases t with
        | negative => simp only [UnpackedFloat.compare, Option.map_some, hswap]
        | positive => rfl
      | positive =>
        cases t with
        | negative => rfl
        | positive => exact congrArg some hswap.symm
    | _ => cases s <;> rfl

theorem isNaN_unpacked (a : UnpackedFloat) : a.isNaN = true ↔ a = .notANumber := by
  cases a <;> simp [UnpackedFloat.isNaN]

theorem compare_unpacked_eq_none (a b : UnpackedFloat) :
    a.compare b = none ↔ a.isNaN = true ∨ b.isNaN = true := by
  rw [isNaN_unpacked, isNaN_unpacked]
  -- along the cases of the comparison, of which the first two have a NaN
  fun_cases UnpackedFloat.compare a b <;> simp_all

namespace Magnitude

/-- Which of two doubles is the greater one, if they compare at all. -/
def order (x y : Float) : Option Ordering := x.toModel.unpack.compare y.toModel.unpack

variable (x y : Float)

theorem lt_iff_order : x < y ↔ order x y = some .lt := by
  have h : (x < y) = ((order x y == some .lt) = true) := by
    show (decide (x.toModel < y.toModel) = true) = _
    rw [decide_eq_true_eq]
    rfl
  rw [h, beq_iff_eq]

theorem beq_iff_order : (x == y) = true ↔ order x y = some .eq := by
  have h : (x == y) = (order x y == some .eq) := rfl
  rw [h, beq_iff_eq]

theorem gt_iff_order : y < x ↔ order x y = some .gt := by
  rw [lt_iff_order, order, compare_unpacked_swap, ← order]
  cases order x y with
  | none => simp
  | some o => cases o <;> simp

theorem order_eq_none : order x y = none ↔ x.isNaN = true ∨ y.isNaN = true :=
  compare_unpacked_eq_none _ _

/-- Not to be less is to be greater or equal, or that there is nothing to compare. -/
theorem not_less_iff :
    ¬x < y ↔ y < x ∨ (x == y) = true ∨ x.isNaN = true ∨ y.isNaN = true := by
  rw [lt_iff_order, gt_iff_order, beq_iff_order, ← order_eq_none]
  cases order x y with
  | none => simp
  | some o => cases o <;> simp

theorem not_greater_iff :
    ¬y < x ↔ x < y ∨ (x == y) = true ∨ x.isNaN = true ∨ y.isNaN = true := by
  rw [gt_iff_order, lt_iff_order x y, beq_iff_order, ← order_eq_none]
  cases order x y with
  | none => simp
  | some o => cases o <;> simp

/-- What is NaN is neither less nor greater nor equal. -/
theorem unordered (h : x.isNaN = true ∨ y.isNaN = true) :
    ¬x < y ∧ ¬y < x ∧ (x == y) = false := by
  rw [lt_iff_order, gt_iff_order, ← Bool.not_eq_true, beq_iff_order, (order_eq_none x y).mpr h]
  simp

end Magnitude

end ExprMachine
